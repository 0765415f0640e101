import DeepPack.Streams.TruthfulOutput
import DeepPack.Items.EmitRanges

/-! The emitters, carried over along a map of streams.

Before it writes to the buffer an emitter asks for room, and it fails if it did not get
as much. So it is enough if those calls are carried over that leave as much room as was
asked for. -/
namespace DeepPack
open Library OutputBuffer

/-- A map of streams along which what the streams do for an emitter is carried over. -/
structure OutputMap (σ τ : Type) [OutputStream σ] [OutputStream τ] where
  onDerived : σ → τ
  ensure : ∀ n s t, ensureSize n s = (.ok (), t) → n ≤ t.free.length →
    ensureSize n (map onDerived s) = (.ok (), map onDerived t)
  bulk : ∀ bytes, Action.Carries (map onDerived) (bulkWrite bytes) (bulkWrite bytes)

/-- The rescued stream does what the stream does, unless that fails. -/
def TruthfulOutput.rescue (σ : Type) [I : OutputStream σ] : OutputMap σ (Forsaken σ) where
  onDerived := .stream
  ensure n s t hrun hroom := by
    by_cases hle : n ≤ s.free.length
    · rw [ensureSize_enough hle] at hrun
      cases hrun
      exact ensureSize_enough hle
    · have hlt := Nat.lt_of_not_le hle
      rw [ensureSize_grow hlt] at hrun
      exact (ensureSize_grow (s := s.map Forsaken.stream) hlt).trans (orForsake_ok hrun hroom)
  bulk bytes s a t hrun := by
    by_cases hle : bytes.length ≤ s.free.length
    · obtain ⟨⟨behind, free, derived⟩, ht, rfl, rfl, rfl⟩ := bulkWrite_enough hle
      obtain ⟨⟨behind, free, derived⟩, ht', rfl, rfl, rfl⟩ := bulkWrite_enough (s := s.map Forsaken.stream) hle
      cases hrun.symm.trans ht
      exact ht'
    · have hlt := Nat.lt_of_not_le hle
      rw [bulkWrite_across hlt] at hrun
      exact (bulkWrite_across (s := s.map Forsaken.stream) hlt).trans (orForsake_ok hrun (Nat.zero_le _))

variable {σ τ : Type} {k : Output σ Unit} {l : Output τ Unit} {n : Nat}

/-- The emitter fails where there is less room. -/
def NeedsRoom (n : Nat) (x : Output σ Unit) : Prop := ∀ s t, x s = (.ok (), t) → n ≤ s.free.length

theorem needsRoom_commitWritten (n : Nat) : NeedsRoom (σ := σ) n (commitWritten n) := by
  intro s t hrun
  unfold commitWritten at hrun
  split at hrun
  · assumption
  · cases hrun

theorem NeedsRoom.store (h : NeedsRoom n k) (i : Nat) (bytes : List UInt8) :
    NeedsRoom n (OutputBuffer.store i bytes >>= fun _ => k) := by
  intro s t hrun
  obtain ⟨_, u, hu, hk⟩ := Action.bind_eq_ok.mp hrun
  unfold OutputBuffer.store at hu
  split at hu <;> cases hu
  exact (h _ t hk).trans (put_length s ‹_›).le

theorem needsRoom_head (c tail : List UInt8) (n : Nat) : NeedsRoom (σ := σ) n (do
    store 0 c
    store 1 tail
    commitWritten n) := ((needsRoom_commitWritten n).store 1 tail).store 0 c

theorem needsRoom_byte (c : List UInt8) (n : Nat) : NeedsRoom (σ := σ) n (do
    store 0 c
    commitWritten n) := (needsRoom_commitWritten n).store 0 c

variable [OutputStream σ] [OutputStream τ] {M : OutputMap σ τ}

/-- The emitter is carried over. -/
abbrev EmitCarries (M : OutputMap σ τ) (x : Output σ Unit) (y : Output τ Unit) : Prop :=
  Action.Carries (map M.onDerived) x y

/-! ### The buffer -/

theorem carries_free : Action.Carries (map M.onDerived) OutputBuffer.size OutputBuffer.size :=
  Action.carries_gets _ _ fun _ => rfl

theorem carries_store (i : Nat) (bytes : List UInt8) : EmitCarries M (store i bytes) (store i bytes) := by
  intro s a t hrun
  unfold store at hrun ⊢
  split at hrun <;> cases hrun
  exact if_pos ‹_›

theorem carries_commitWritten (n : Nat) : EmitCarries M (commitWritten n) (commitWritten n) := by
  intro s a t hrun
  unfold commitWritten at hrun ⊢
  split at hrun <;> cases hrun
  exact if_pos ‹_›

/-- Asking for room, and using it. -/
theorem carries_reserve (hroom : NeedsRoom n k) (h : EmitCarries M k l) :
    EmitCarries M (reserve n >>= fun _ => k) (reserve n >>= fun _ => l) := by
  intro s a t hrun
  obtain ⟨_, u, hu, hk⟩ := Action.bind_eq_ok.mp hrun
  rw [reserve_apply] at hu
  have hreserve : reserve n (map M.onDerived s) = (.ok (), map M.onDerived u) := by
    rw [reserve_apply]
    exact M.ensure n s u hu (hroom u t hk)
  exact (Action.bind_ok _ hreserve).trans (h u a t hk)

/-! ### The emitters of `emit_core` -/

namespace Detail

theorem carries_head (c tail : List UInt8) (n : Nat) : EmitCarries M (do
    store 0 c
    store 1 tail
    commitWritten n) (do
    store 0 c
    store 1 tail
    commitWritten n) :=
  (carries_store 0 c).bind fun _ => (carries_store 1 tail).bind fun _ => carries_commitWritten n

theorem carries_byte (c : List UInt8) (n : Nat) : EmitCarries M (do
    store 0 c
    commitWritten n) (do
    store 0 c
    commitWritten n) := (carries_store 0 c).bind fun _ => carries_commitWritten n

theorem carries_storeVarUintEos (value category bytePowerPlus2 byteSize : Nat) :
    EmitCarries M (storeVarUintEos value category bytePowerPlus2 byteSize)
      (storeVarUintEos value category bytePowerPlus2 byteSize) := by
  unfold storeVarUintEos
  refine carries_reserve ?_ ?_
  · split
    · exact needsRoom_byte _ _
    iterate 4 exact needsRoom_head _ _ _
    · exact needsRoom_commitWritten _
  · split
    · exact carries_byte _ _
    iterate 4 exact carries_head _ _ _
    · exact carries_commitWritten _

theorem carries_storeCoded (digits value rcategory bytePowerPlus2 bitSize byteSize : Nat) :
    EmitCarries M (storeCoded digits value rcategory bytePowerPlus2 bitSize byteSize)
      (storeCoded digits value rcategory bytePowerPlus2 bitSize byteSize) :=
  carries_free.bind fun _ => .ite (carries_storeVarUintEos _ _ _ _) (carries_head _ _ _)

theorem carries_storeVarUint (digits value : Nat) (category : TypeCode) :
    EmitCarries M (storeVarUint digits value category) (storeVarUint digits value category) :=
  .ite (carries_storeCoded _ _ _ _ _ _) (carries_storeCoded _ _ _ _ _ _)

theorem carries_storeInlineValue (value : Nat) (category : TypeCode) :
    EmitCarries M (storeInlineValue value category) (storeInlineValue value category) :=
  carries_reserve (needsRoom_byte _ _) (carries_byte _ _)

theorem carries_emitFloat (category : TypeCode) (byteSize pattern : Nat) :
    EmitCarries M (emitFloat category byteSize pattern) (emitFloat category byteSize pattern) :=
  carries_reserve (needsRoom_head _ _ _) (carries_head _ _ _)

theorem carries_emitArrayLike {α : Type} {f : α → Output σ Unit} {g : α → Output τ Unit}
    (h : ∀ v, EmitCarries M (f v) (g v)) (digits : Nat) (vs : List α) (type : TypeCode) :
    EmitCarries M (emitArrayLike digits vs type f) (emitArrayLike digits vs type g) :=
  (carries_storeVarUint _ _ _).bind fun _ => Action.Carries.forList h vs

theorem carries_emitIndefiniteArrayLike {α : Type} {f : α → Output σ Unit} {g : α → Output τ Unit}
    (h : ∀ v, EmitCarries M (f v) (g v)) (vs : List α) (type : TypeCode) :
    EmitCarries M (emitIndefiniteArrayLike vs type f) (emitIndefiniteArrayLike vs type g) :=
  (carries_storeInlineValue _ _).bind fun _ => (Action.Carries.forList h vs).bind fun _ =>
    carries_storeInlineValue _ _

end Detail

theorem carries_emitBinary (data : List UInt8) : EmitCarries M (emitBinary data) (emitBinary data) :=
  (Detail.carries_storeVarUint _ _ _).bind fun _ => M.bulk data

theorem carries_emitU8string (data : List UInt8) : EmitCarries M (emitU8string data) (emitU8string data) :=
  (Detail.carries_storeVarUint _ _ _).bind fun _ => M.bulk data

end DeepPack
