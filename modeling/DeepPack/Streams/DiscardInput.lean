import DeepPack.Streams.InputBuffer

/-! Discarding more than is buffered.

The slow path of `discard_input` takes the buffered bytes off the input's size, drops the
buffer and leaves the others to the derived stream. But dropping the buffer takes its bytes
off the size as well: they are counted twice, unless there are none. -/
namespace DeepPack
open Library InputBuffer

/-- What `discard_input` relies on: with nothing buffered, the derived stream drops the next bytes and counts
them. `ahead` is what it has to give behind the buffer. -/
structure DiscardContract (σ : Type) [InputStream σ] where
  ahead : σ → List UInt8
  discard : ∀ {s t : InputBuffer σ} {k}, s.buffer = [] → InputStream.doDiscardInput k s = (.ok (), t) →
    t.inputSize = wrapSub 64 s.inputSize k ∧ t.buffer ++ ahead t.derived = (ahead s.derived).drop k

namespace DiscardContract
variable {σ : Type} [InputStream σ] (C : DiscardContract σ)

def unread (s : InputBuffer σ) : List UInt8 := s.buffer ++ C.ahead s.derived

/-- Just `n` bytes are gone, from the input and from its size. -/
def Discarded (n : Nat) (s t : InputBuffer σ) : Prop :=
  t.inputSize + n = s.inputSize ∧ C.unread t = (C.unread s).drop n

variable {C} {n : Nat} {s t : InputBuffer σ}

theorem discarded_buffered (hsize : s.buffer.length ≤ s.inputSize) (hlt : s.inputSize < wordLimit)
    (hn : n ≤ s.buffer.length) (h : discardInput n s = (.ok (), t)) : C.Discarded n s t := by
  rw [discardInput, if_pos hn, discardBuffered, if_pos hn] at h
  cases h
  refine ⟨?_, ?_⟩
  · show wrapSub 64 s.inputSize n + n = s.inputSize
    rw [wrapSub_of_le (hn.trans hsize) hlt, Nat.sub_add_cancel (hn.trans hsize)]
  · exact (List.drop_append_of_le_length hn).symm

/-- Behind the buffer, the input's size is too small by what was buffered. -/
theorem unread_ahead (hsize : s.buffer.length ≤ s.inputSize) (hlt : s.inputSize < wordLimit)
    (hn : s.buffer.length < n) (h : discardInput n s = (.ok (), t)) :
    C.unread t = (C.unread s).drop n ∧ n ≤ s.inputSize ∧
      t.inputSize = wrapSub 64 (s.inputSize - n) s.buffer.length := by
  rw [discardInput, if_neg (Nat.not_le.mpr hn)] at h
  by_cases hend : s.inputSize < n
  · rw [if_pos hend] at h
    cases h
  rw [if_neg hend] at h
  have hle : n ≤ s.inputSize := Nat.le_of_not_lt hend
  have hremaining : wrapSub 64 n s.buffer.length = n - s.buffer.length := wrapSub_of_le hn.le (hle.trans_lt hlt)
  rw [hremaining, wrapSub_of_le hsize hlt] at h
  obtain ⟨hcount, hunread⟩ := C.discard rfl h
  refine ⟨?_, hle, ?_⟩
  · have hdrop : (C.unread s).drop n = (C.ahead s.derived).drop (n - s.buffer.length) := by
      rw [unread, List.drop_append, List.drop_eq_nil_of_le hn.le, List.nil_append]
    rw [hdrop]
    exact hunread
  · have hlimit : wordLimit = 2 ^ 64 := rfl
    rw [hcount]
    simp only [reset, wrapSub]
    omega

/-- A successful `discard_input` is accounted for exactly if it stays in the buffer or nothing is buffered. -/
theorem discardInput_discarded_iff (hsize : s.buffer.length ≤ s.inputSize) (hlt : s.inputSize < wordLimit)
    (h : discardInput n s = (.ok (), t)) : C.Discarded n s t ↔ n ≤ s.buffer.length ∨ s.buffer = [] := by
  by_cases hn : n ≤ s.buffer.length
  · exact iff_of_true (discarded_buffered hsize hlt hn h) (.inl hn)
  · obtain ⟨hunread, hle, hcount⟩ := unread_ahead (C := C) hsize hlt (Nat.lt_of_not_le hn) h
    rw [or_iff_right hn, Discarded, and_iff_left hunread, hcount, ← List.length_eq_zero_iff, wrapSub]
    have hlimit : wordLimit = 2 ^ 64 := rfl
    omega

end DiscardContract

/-! ### A stream that drops what it is told to -/

/-- The bytes behind the buffer. -/
structure DroppingInputStream where
  bytes : List UInt8
  deriving DecidableEq

namespace DroppingInputStream

instance : InputStream DroppingInputStream where
  doRequireInput _ := err .endOfStream
  doDiscardInput amount := fun s =>
    if amount ≤ s.derived.bytes.length then
      (.ok (), ⟨[], wrapSub 64 s.inputSize amount, ⟨s.derived.bytes.drop amount⟩⟩)
    else (.error (.errc .endOfStream), s)
  doBulkRead _ := err .endOfStream

def contract : DiscardContract DroppingInputStream where
  ahead s := s.bytes
  discard := by
    intro s t k _ h
    by_cases hk : k ≤ s.derived.bytes.length
    · have hrun : InputStream.doDiscardInput k s =
          (.ok (), ⟨[], wrapSub 64 s.inputSize k, ⟨s.derived.bytes.drop k⟩⟩) := if_pos hk
      rw [hrun] at h
      cases h
      exact ⟨rfl, rfl⟩
    · have hrun : InputStream.doDiscardInput k s = (.error (.errc .endOfStream), s) := if_neg hk
      rw [hrun] at h
      cases h

/-- Nothing is wrong where nothing is buffered. -/
theorem discarded_unbuffered : contract.Discarded 3 ⟨[], 5, ⟨[1, 2, 3, 4, 5]⟩⟩ ⟨[], 2, ⟨[4, 5]⟩⟩ :=
  (DiscardContract.discardInput_discarded_iff (C := contract) (n := 3) (s := ⟨[], 5, ⟨[1, 2, 3, 4, 5]⟩⟩)
  (by decide)
    (by decide) rfl).mpr (.inr rfl)

/-- Of five bytes two are buffered. Three are discarded, and none of the last two is counted any more. -/
theorem discarded_twice :
    ∃ t, discardInput 3 ⟨[1, 2], 5, (⟨[3, 4, 5]⟩ : DroppingInputStream)⟩ = (.ok (), t) ∧
      contract.unread t = [4, 5] ∧ t.inputSize = 0 ∧
      ¬ contract.Discarded 3 ⟨[1, 2], 5, ⟨[3, 4, 5]⟩⟩ t :=
  ⟨⟨[], 0, ⟨[4, 5]⟩⟩, rfl, rfl, rfl, fun h => absurd h.1 (by decide)⟩

end DroppingInputStream
end DeepPack
