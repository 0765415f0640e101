import DeepPack.Items.EmitRanges
import DeepPack.Library.Memory

/-! What the emitters keep, whatever comes of them.

An emitter changes a stream through the calls of its buffer alone. So what each of these
calls keeps, also where it fails, the emitters keep. -/
namespace DeepPack
open Library OutputBuffer

/-- Something that the calls of a buffer keep, whether they succeed or not. -/
structure OutputInvariant (σ : Type) [OutputStream σ] where
  Holds : OutputBuffer σ → Prop
  ensure : ∀ n, (ensureSize n).Preserves Holds
  store : ∀ i bytes, (store i bytes).Preserves Holds
  commit : ∀ n, (commitWritten n).Preserves Holds
  bulk : ∀ bytes, (bulkWrite bytes).Preserves Holds

variable {σ : Type} [OutputStream σ] {J : OutputInvariant σ}

/-- The emitter keeps the invariant. -/
abbrev EmitPreserves (J : OutputInvariant σ) (x : Output σ Unit) : Prop := x.Preserves J.Holds

theorem OutputInvariant.reserve (J : OutputInvariant σ) (n : Nat) : EmitPreserves J (reserve n) := by
  intro s hs
  rw [reserve_apply]
  exact J.ensure n s hs

/-! ### The emitters of `emit_core` -/

namespace Detail

theorem preserves_byte (c : List UInt8) (n : Nat) : EmitPreserves J (do
    store 0 c
    commitWritten n) := (J.store 0 c).bind fun _ => J.commit n

theorem preserves_head (c tail : List UInt8) (n : Nat) : EmitPreserves J (do
    store 0 c
    store 1 tail
    commitWritten n) := (J.store 0 c).bind fun _ => (J.store 1 tail).bind fun _ => J.commit n

theorem preserves_storeVarUintEos (value category bytePowerPlus2 byteSize : Nat) :
    EmitPreserves J (storeVarUintEos value category bytePowerPlus2 byteSize) := by
  refine (J.reserve byteSize).bind fun _ => ?_
  split
  · exact preserves_byte _ _
  iterate 4 exact preserves_head _ _ _
  · exact J.commit _

theorem preserves_storeCoded (digits value rcategory bytePowerPlus2 bitSize byteSize : Nat) :
    EmitPreserves J (storeCoded digits value rcategory bytePowerPlus2 bitSize byteSize) :=
  (Action.preserves_gets _).bind fun _ => .ite (preserves_storeVarUintEos _ _ _ _) (preserves_head _ _ _)

theorem preserves_storeVarUint (digits value : Nat) (category : TypeCode) :
    EmitPreserves J (storeVarUint digits value category) :=
  .ite (preserves_storeCoded _ _ _ _ _ _) (preserves_storeCoded _ _ _ _ _ _)

theorem preserves_storeInlineValue (value : Nat) (category : TypeCode) :
    EmitPreserves J (storeInlineValue value category) := (J.reserve _).bind fun _ => preserves_byte _ _

theorem preserves_emitFloat (category : TypeCode) (byteSize pattern : Nat) :
    EmitPreserves J (emitFloat category byteSize pattern) := (J.reserve _).bind fun _ => preserves_head _ _ _

theorem preserves_emitArrayLike {α : Type} {f : α → Output σ Unit} (h : ∀ v, EmitPreserves J (f v)) (digits : Nat)
    (vs : List α) (type : TypeCode) : EmitPreserves J (emitArrayLike digits vs type f) :=
  (preserves_storeVarUint _ _ _).bind fun _ => Action.Preserves.forList h vs

theorem preserves_emitIndefiniteArrayLike {α : Type} {f : α → Output σ Unit} (h : ∀ v, EmitPreserves J (f v))
    (vs : List α) (type : TypeCode) : EmitPreserves J (emitIndefiniteArrayLike vs type f) :=
  (preserves_storeInlineValue _ _).bind fun _ => (Action.Preserves.forList h vs).bind fun _ => preserves_storeInlineValue _ _

end Detail

theorem preserves_emitBinary (data : List UInt8) : EmitPreserves J (emitBinary data) :=
  (Detail.preserves_storeVarUint _ _ _).bind fun _ => J.bulk data

theorem preserves_emitU8string (data : List UInt8) : EmitPreserves J (emitU8string data) :=
  (Detail.preserves_storeVarUint _ _ _).bind fun _ => J.bulk data

end DeepPack
