import DeepPack.Streams.InputContract

/-! The stream over a byte string in memory: all of it is buffered from the start. -/
namespace DeepPack
open Library

structure MemoryInputStream where
  deriving DecidableEq, Repr

instance : InputStream MemoryInputStream where
  doRequireInput _ := err .endOfStream
  doDiscardInput _ := err .endOfStream
  doBulkRead _ := err .endOfStream

/-- A span of bytes: its length is a `size_t`. -/
structure ByteSpan where
  bytes : List UInt8
  fits : bytes.length < wordLimit

/-- A stream over `content`. -/
def memoryInput (content : List UInt8) : InputBuffer MemoryInputStream :=
  ⟨content, content.length, {}⟩

@[simp] theorem memoryInput_buffer (b : List UInt8) : (memoryInput b).buffer = b := rfl

@[simp] theorem memoryInput_inputSize (b : List UInt8) : (memoryInput b).inputSize = b.length := rfl

namespace MemoryInputStream

theorem discardBuffered_memory {b : List UInt8} {n : Nat} (hb : b.length < wordLimit) (hn : n ≤ b.length) :
    InputBuffer.discardBuffered n (memoryInput b) = (.ok (), memoryInput (b.drop n)) := by
  have hsize : wrapSub 64 b.length n = (b.drop n).length := by
    rw [wrapSub_of_le hn hb, List.length_drop]
  simp only [InputBuffer.discardBuffered, memoryInput, if_pos hn, hsize]

/-- Discarding on a memory stream never gets past the base class. -/
theorem discardInput_memory {b : List UInt8} (n : Nat) (hb : b.length < wordLimit) :
    InputBuffer.discardInput n (memoryInput b) =
      if n ≤ b.length then (.ok (), memoryInput (b.drop n))
      else (.error (.errc .endOfStream), memoryInput b) := by
  unfold InputBuffer.discardInput
  by_cases hn : n ≤ b.length
  · rw [memoryInput_buffer, if_pos hn, if_pos hn, discardBuffered_memory hb hn]
  · rw [memoryInput_buffer, if_neg hn, if_neg hn, memoryInput_inputSize, if_pos (by omega)]

theorem requireInput_memory {b : List UInt8} (n : Nat) :
    InputBuffer.requireInput n (memoryInput b) =
      if n ≤ b.length then (.ok (), memoryInput b)
      else (.error (.errc .endOfStream), memoryInput b) := by
  unfold InputBuffer.requireInput
  by_cases hn : n ≤ b.length
  · rw [memoryInput_inputSize, memoryInput_buffer, if_neg (by omega), if_neg (by omega), if_pos hn]
  · rw [memoryInput_inputSize, if_pos (by omega), if_neg hn]

theorem bulkRead_memory {b : List UInt8} (n : Nat) (hb : b.length < wordLimit) :
    InputBuffer.bulkRead n (memoryInput b) =
      if n ≤ b.length then (.ok (b.take n), memoryInput (b.drop n))
      else (.error (.errc .endOfStream), memoryInput b) := by
  unfold InputBuffer.bulkRead
  by_cases h0 : n = 0
  · simp [h0, memoryInput]
  · by_cases hn : n ≤ b.length
    · have hsize : wrapSub 64 b.length n = (b.drop n).length := by
        rw [wrapSub_of_le hn hb, List.length_drop]
      simp only [memoryInput, if_neg h0, Nat.min_eq_right hn, Nat.sub_self, if_true, if_pos hn,
        if_neg (show ¬ b.length < n by omega), hsize]
    · rw [if_neg h0, memoryInput_inputSize, if_pos (by omega), if_neg hn]

theorem drop_lt {b : List UInt8} (n : Nat) (hb : b.length < wordLimit) : (b.drop n).length < wordLimit := by
  rw [List.length_drop]
  omega

/-- A memory stream is honest. -/
def contract : InputContract MemoryInputStream where
  Valid s := ∃ b, s = memoryInput b ∧ b.length < wordLimit
  unread s := s.buffer
  inputSize_eq := by
    intro _ h
    obtain ⟨b, rfl, _⟩ := h
    rfl
  inputSize_lt := by
    intro _ h
    obtain ⟨b, rfl, hb⟩ := h
    exact hb
  buffer_starts _ := List.prefix_refl _
  discard := by
    intro _ n h hn
    obtain ⟨b, rfl, hb⟩ := h
    exact ⟨_, discardBuffered_memory hb hn, ⟨_, rfl, drop_lt n hb⟩, rfl⟩
  require := by
    intro _ n h _ hn
    obtain ⟨b, rfl, hb⟩ := h
    exact ⟨_, (requireInput_memory n).trans (if_pos hn), ⟨_, rfl, hb⟩, rfl, hn⟩
  bulk := by
    intro _ n h hn
    obtain ⟨b, rfl, hb⟩ := h
    exact ⟨_, (bulkRead_memory n hb).trans (if_pos hn), ⟨_, rfl, drop_lt n hb⟩, rfl⟩

theorem valid_memory {b : List UInt8} (hb : b.length < wordLimit) : contract.Valid (memoryInput b) :=
  ⟨b, rfl, hb⟩

/-- On a memory stream the unread bytes say everything. -/
theorem does_memory {α : Type} {x : Input MemoryInputStream α} {b rest : List UInt8}
    {r : Except Fault α} (h : contract.Does x (memoryInput b) r rest) :
    x (memoryInput b) = (r, memoryInput rest) := by
  obtain ⟨t, ht, hv, hu⟩ := h
  obtain ⟨b', rfl, _⟩ := hv
  rw [ht, ← hu]
  rfl

end MemoryInputStream
end DeepPack
