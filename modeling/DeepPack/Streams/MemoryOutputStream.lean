import DeepPack.Streams.OutputContract

/-! The stream into a span of memory: what does not fit is refused. -/
namespace DeepPack
open Library

structure MemoryOutputStream where
  /-- The size of the span. -/
  bufferSize : Nat
  deriving DecidableEq, Repr

instance : OutputStream MemoryOutputStream where
  doGrow _ := err .endOfStream
  doBulkWrite _ := err .endOfStream

/-- A fresh stream into this memory. -/
def memoryOutput (memory : List UInt8) : OutputBuffer MemoryOutputStream := ⟨[], memory, ⟨memory.length⟩⟩

namespace MemoryOutputStream

def writtenSize (s : OutputBuffer MemoryOutputStream) : Nat := s.derived.bufferSize - s.free.length

/-- The first `writtenSize` bytes of the span. -/
def written (s : OutputBuffer MemoryOutputStream) : List UInt8 := (s.behind ++ s.free).take (writtenSize s)

/-- The stream is as large as its span and holds what was committed. -/
def Holds (capacity : Nat) (s : OutputBuffer MemoryOutputStream) (out : List UInt8) : Prop :=
  s.behind = out ∧ out.length + s.free.length = capacity ∧ s.derived.bufferSize = capacity

variable {capacity : Nat} {s : OutputBuffer MemoryOutputStream} {out : List UInt8}

theorem written_of_holds (h : Holds capacity s out) : written s = out := by
  obtain ⟨rfl, hlen, hsize⟩ := h
  have hwritten : writtenSize s = s.behind.length := by
    rw [writtenSize, hsize]
    omega
  rw [written, hwritten, List.take_left]

theorem holds_fresh (memory : List UInt8) : Holds memory.length (memoryOutput memory) [] :=
  ⟨rfl, Nat.zero_add _, rfl⟩

/-- A memory stream keeps the contract up to its capacity. -/
def contract (capacity : Nat) : OutputContract MemoryOutputStream where
  limit := some capacity
  Holds := Holds capacity
  room := by
    intro s out h
    obtain ⟨-, hlen, -⟩ := h
    exact Limit.fits_some.mpr hlen.le
  ensure := by
    intro s out n h _ hfits
    obtain ⟨hout, hlen, hsize⟩ := h
    have hroom : n ≤ s.free.length := by
      have := Limit.fits_some.mp hfits
      omega
    exact ⟨s, OutputBuffer.ensureSize_enough hroom, ⟨hout, hlen, hsize⟩, hroom⟩
  ensure_full := by
    intro s out n h _ hno
    obtain ⟨hout, hlen, hsize⟩ := h
    have hfull : s.free.length < n := by
      have := Limit.fits_some.not.mp hno
      omega
    exact ⟨.endOfStream, s, OutputBuffer.ensureSize_grow hfull, hout, hlen, hsize⟩
  put := by
    intro s out i bytes h hroom
    obtain ⟨hout, hlen, hsize⟩ := h
    exact ⟨hout, by rw [OutputBuffer.put_length s hroom]; exact hlen, hsize⟩
  commit := by
    intro s out n h hroom
    obtain ⟨rfl, hlen, hsize⟩ := h
    refine ⟨rfl, ?_, hsize⟩
    rw [OutputBuffer.commit_free, List.length_append, List.length_take, List.length_drop]
    omega
  bulk := by
    intro s out bytes h hfits
    obtain ⟨rfl, hlen, hsize⟩ := h
    have hroom : bytes.length ≤ s.free.length := by
      have := Limit.fits_some.mp hfits
      omega
    obtain ⟨t, ht, hbehind, hfree, hderived⟩ := OutputBuffer.bulkWrite_enough hroom
    refine ⟨t, ht, hbehind, ?_, by rw [hderived]; exact hsize⟩
    rw [hfree, List.length_append, List.length_drop]
    omega
  bulk_full := by
    intro s out bytes h hno
    obtain ⟨rfl, hlen, hsize⟩ := h
    have hfull : s.free.length < bytes.length := by
      have := Limit.fits_some.not.mp hno
      omega
    obtain ⟨t, ht, hbehind, hfree, hderived⟩ := OutputBuffer.bulkWrite_full hfull
    refine ⟨.endOfStream, t, s.free.length, ht, hbehind, ?_, by rw [hderived]; exact hsize⟩
    rw [hfree, List.length_append, List.length_take, List.length_nil]
    omega

end MemoryOutputStream
end DeepPack
