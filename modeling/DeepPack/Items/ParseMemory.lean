import DeepPack.Items.ParseRanges
import DeepPack.Items.WellFormed

/-! The parsers on a memory stream, as equations on the bytes. -/
namespace DeepPack
open Library InputBuffer

variable {b : List UInt8} {c : UInt8} {δ : Type}

theorem takeByte_memory (hb : (c :: b).length < wordLimit) :
    discardBuffered 1 (memoryInput (c :: b)) = (.ok (), memoryInput b) :=
  MemoryInputStream.discardBuffered_memory hb (Nat.le_add_left 1 b.length)

@[simp] theorem peekByte_memory : peekByte (memoryInput (c :: b)) = (.ok c, memoryInput (c :: b)) := by
  have hrequire := (MemoryInputStream.requireInput_memory (b := c :: b) 1).trans (if_pos (Nat.le_add_left 1 b.length))
  exact (Action.bind_ok _ hrequire).trans rfl

/-! ### Booleans -/

theorem parseBoolean_memory (hb : (c :: b).length < wordLimit) (v : Bool) :
    parseBoolean (memoryInput (c :: b), v) =
      if 1 < wrapSub 32 c.toNat TypeCode.boolFalse.toByte.toNat then
        (.error (.errc .itemTypeMismatch), (memoryInput (c :: b), v))
      else (.ok (), (memoryInput b, wrapSub 32 c.toNat TypeCode.boolFalse.toByte.toNat == 1)) := by
  have hempty : Action.onFst empty (memoryInput (c :: b), v) = (.ok false, (memoryInput (c :: b), v)) := rfl
  have hdata : Action.onFst (dataAt 0) (memoryInput (c :: b), v) = (.ok c, (memoryInput (c :: b), v)) := rfl
  apply (Action.bind_ok _ hempty).trans
  dsimp only
  rw [if_neg Bool.false_ne_true, Action.bind_ok _ hdata]
  generalize wrapSub 32 c.toNat TypeCode.boolFalse.toByte.toNat = rolled
  split
  · rfl
  · exact (Action.bind_ok _ (Action.onSnd_apply _ _ _)).trans (Action.onFst_ok (takeByte_memory hb) _)

/-! ### Ranges -/

theorem endAtBreak_memory (hb : (c :: b).length < wordLimit) (i : Nat) (more : Parse MemoryInputStream δ Nat) (d : δ) :
    Detail.endAtBreak i more (memoryInput (c :: b), d) =
      if c = breakByte then (.ok i, (memoryInput b, d)) else more (memoryInput (c :: b), d) := by
  apply (Action.bind_ok _ (Action.onFst_ok peekByte_memory d)).trans
  show (if c = breakByte then Action.onFst (discardBuffered 1) >>= fun _ => pure i else more) _ = _
  split
  · exact Action.bind_ok _ (Action.onFst_ok (takeByte_memory hb) d)
  · rfl

end DeepPack
