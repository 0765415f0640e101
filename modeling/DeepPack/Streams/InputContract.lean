import DeepPack.Streams.InputBuffer

/-! What a parser may rely on.

`InputContract` is the contract of an input buffer: `unread` is the sequence of
bytes it still has to give, however they are cut into buffers. `Does` says what a
parser makes of an honest input in terms of the unread bytes alone, and composes
along binds. -/
namespace DeepPack
open Library

structure InputContract (σ : Type) [InputStream σ] where
  /-- The states the stream can be in. -/
  Valid : InputBuffer σ → Prop
  /-- The bytes not consumed yet. -/
  unread : InputBuffer σ → List UInt8
  inputSize_eq : ∀ {s}, Valid s → s.inputSize = (unread s).length
  inputSize_lt : ∀ {s}, Valid s → (unread s).length < wordLimit
  buffer_starts : ∀ {s}, Valid s → s.buffer <+: unread s
  discard : ∀ {s n}, Valid s → n ≤ s.buffer.length →
    ∃ t, InputBuffer.discardBuffered n s = (.ok (), t) ∧ Valid t ∧ unread t = (unread s).drop n
  require : ∀ {s n}, Valid s → n ≤ 9 → n ≤ (unread s).length →
    ∃ t, InputBuffer.requireInput n s = (.ok (), t) ∧ Valid t ∧ unread t = unread s ∧
      n ≤ t.buffer.length
  bulk : ∀ {s n}, Valid s → n ≤ (unread s).length →
    ∃ t, InputBuffer.bulkRead n s = (.ok ((unread s).take n), t) ∧ Valid t ∧
      unread t = (unread s).drop n

namespace InputContract
variable {σ α β : Type} [InputStream σ] (C : InputContract σ)

/-- From `s`, `x` has the result `r` and leaves `rest` unread. -/
def Does (x : Input σ α) (s : InputBuffer σ) (r : Except Fault α) (rest : List UInt8) : Prop :=
  ∃ t, x s = (r, t) ∧ C.Valid t ∧ C.unread t = rest

variable {C} {x : Input σ α} {f : α → Input σ β} {s : InputBuffer σ} {u rest : List UInt8}

theorem does_err (hs : C.Valid s) (e : Errc) :
    C.Does (err e : Input σ α) s (.error (.errc e)) (C.unread s) :=
  ⟨s, rfl, hs, rfl⟩

theorem Does.bind {a : α} {r : Except Fault β} (hx : C.Does x s (.ok a) u)
    (hf : ∀ t, C.Valid t → C.unread t = u → C.Does (f a) t r rest) : C.Does (x >>= f) s r rest := by
  obtain ⟨t, ht, hv, hu⟩ := hx
  obtain ⟨t', ht', hv', hu'⟩ := hf t hv hu
  exact ⟨t', by rw [Action.bind_ok _ ht, ht'], hv', hu'⟩

theorem Does.bind_error {e : Fault} (hx : C.Does x s (.error e) u) :
    C.Does (x >>= f) s (.error e) u := by
  obtain ⟨t, ht, hv, hu⟩ := hx
  exact ⟨t, Action.bind_error _ ht, hv, hu⟩

/-! ### What the base class does on an honest input -/

theorem buffer_length_le (hs : C.Valid s) : s.buffer.length ≤ (C.unread s).length :=
  (C.buffer_starts hs).length_le

theorem buffer_getElem? (hs : C.Valid s) {i : Nat} (hi : i < s.buffer.length) :
    s.buffer[i]? = (C.unread s)[i]? := by
  obtain ⟨tail, ht⟩ := C.buffer_starts hs
  rw [← ht, List.getElem?_append_left hi]

theorem buffer_drop_take (hs : C.Valid s) {i n : Nat} (hi : i + n ≤ s.buffer.length) :
    (s.buffer.drop i).take n = ((C.unread s).drop i).take n := by
  obtain ⟨tail, ht⟩ := C.buffer_starts hs
  rw [← ht, List.drop_append_of_le_length (by omega),
    List.take_append_of_le_length (by rw [List.length_drop]; omega)]

/-- A requirement the rest of the input cannot meet fails before the stream is asked. -/
theorem require_short (hs : C.Valid s) {n : Nat} (hn : (C.unread s).length < n) :
    C.Does (InputBuffer.requireInput n) s (.error (.errc .endOfStream)) (C.unread s) := by
  refine ⟨s, ?_, hs, rfl⟩
  rw [InputBuffer.requireInput, if_pos (by rw [C.inputSize_eq hs]; exact hn)]

theorem bulk_short (hs : C.Valid s) {n : Nat} (hn : (C.unread s).length < n) :
    C.Does (InputBuffer.bulkRead n) s (.error (.errc .endOfStream)) (C.unread s) := by
  refine ⟨s, ?_, hs, rfl⟩
  rw [InputBuffer.bulkRead, if_neg (by omega), if_pos (by rw [C.inputSize_eq hs]; exact hn)]

/-- A bulk read that fails has copied nothing. -/
theorem bulkCopied_eq (hs : C.Valid s) {n : Nat} {t : InputBuffer σ} {e : Fault}
    (h : InputBuffer.bulkRead n s = (.error e, t)) : InputBuffer.bulkCopied n s = [] := by
  by_cases hn : n ≤ (C.unread s).length
  · obtain ⟨t', ht', -⟩ := C.bulk hs hn
    rw [ht'] at h
    cases h
  · rw [InputBuffer.bulkCopied, if_pos (.inr (.inl (by rw [C.inputSize_eq hs]; omega)))]

theorem dataAt_eq (hs : C.Valid s) {i : Nat} (hi : i < s.buffer.length) {b : UInt8}
    (hb : (C.unread s)[i]? = some b) : InputBuffer.dataAt i s = (.ok b, s) := by
  rw [InputBuffer.dataAt, buffer_getElem? hs hi, hb]

theorem dataSpan_eq (hs : C.Valid s) {i n : Nat} (hi : i + n ≤ s.buffer.length) :
    InputBuffer.dataSpan i n s = (.ok (((C.unread s).drop i).take n), s) := by
  unfold InputBuffer.dataSpan
  rw [if_pos hi, buffer_drop_take hs hi]

end InputContract
end DeepPack
