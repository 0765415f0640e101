import DeepPack.Streams.OutputContract

/-! The stream that forgets what it is given and counts it. -/
namespace DeepPack
open Library

def voidBufferSize : Nat := 4000

structure VoidStream where
  /-- The bytes written before the current pass over the buffer. -/
  totalWritten : Nat
  deriving DecidableEq, Repr

namespace VoidStream

/-- `total_written()`: the 64 bit sum over both counters. -/
def total (s : OutputBuffer VoidStream) : Nat :=
  (s.derived.totalWritten + voidBufferSize - s.free.length) % wordLimit

/-- The buffer is used from its start again. -/
def recycle (count : Nat) (s : OutputBuffer VoidStream) : OutputBuffer VoidStream :=
  {(s.reset (s.behind ++ s.free)) with derived := ⟨(s.derived.totalWritten + count) % wordLimit⟩}

/-- A stream nothing was written to. -/
def fresh : OutputBuffer VoidStream := ⟨[], List.replicate voidBufferSize 0, ⟨0⟩⟩

end VoidStream

instance : OutputStream VoidStream where
  doGrow requestedSize := fun s =>
    if voidBufferSize < requestedSize then (.error (.errc .endOfStream), s)
    else (.ok (), VoidStream.recycle (voidBufferSize - s.free.length) s)
  doBulkWrite bytes := fun s => (.ok (), VoidStream.recycle (voidBufferSize + bytes.length) s)

namespace VoidStream

/-- The buffer is whole, and `out` was counted from `start` on. -/
def Holds (start : Nat) (s : OutputBuffer VoidStream) (out : List UInt8) : Prop :=
  s.behind.length + s.free.length = voidBufferSize ∧ total s = (start + out.length) % wordLimit

variable {start : Nat} {s t : OutputBuffer VoidStream} {out : List UInt8}

theorem total_eq (hlen : s.behind.length + s.free.length = voidBufferSize) :
    total s = (s.derived.totalWritten + s.behind.length) % wordLimit := by
  rw [total, ← hlen]
  congr 1
  omega

theorem fresh_length : fresh.behind.length + fresh.free.length = voidBufferSize := by
  rw [fresh, List.length_replicate, List.length_nil, Nat.zero_add]

theorem total_fresh : total fresh = 0 := by
  rw [total_eq fresh_length]
  rfl

theorem recycle_length (hlen : s.behind.length + s.free.length = voidBufferSize) (count : Nat) :
    (recycle count s).behind.length + (recycle count s).free.length = voidBufferSize := by
  simpa [recycle, OutputBuffer.reset] using hlen

theorem total_recycle (hlen : s.behind.length + s.free.length = voidBufferSize) (count : Nat) :
    total (recycle count s) = (s.derived.totalWritten + count) % wordLimit := by
  rw [total_eq (recycle_length hlen count)]
  simp [recycle, OutputBuffer.reset]

/-- What was committed moves from one counter to the other. -/
theorem holds_recycle (h : Holds start s out) :
    Holds start (recycle (voidBufferSize - s.free.length) s) out := by
  obtain ⟨hlen, htotal⟩ := h
  refine ⟨recycle_length hlen _, ?_⟩
  rw [total_recycle hlen, ← htotal, total_eq hlen]
  congr 2
  omega

/-- Counting on in the buffer. -/
theorem holds_append (h : Holds start s out) {bytes : List UInt8}
    (hlen : t.behind.length + t.free.length = voidBufferSize)
    (hbehind : t.behind.length = s.behind.length + bytes.length) (hderived : t.derived = s.derived) :
    Holds start t (out ++ bytes) := by
  refine ⟨hlen, ?_⟩
  rw [total_eq hlen, hbehind, hderived, ← Nat.add_assoc, ← Nat.mod_add_mod, ← total_eq h.1, h.2,
    Nat.mod_add_mod, List.length_append, Nat.add_assoc]

/-- What the buffer as a whole has room for is provided by starting over. -/
theorem ensure_holds {n : Nat} (hs : Holds start s out) (hn : n ≤ voidBufferSize) :
    ∃ t, OutputBuffer.ensureSize n s = (.ok (), t) ∧ Holds start t out ∧ n ≤ t.free.length := by
  by_cases hroom : n ≤ s.free.length
  · exact ⟨s, OutputBuffer.ensureSize_enough hroom, hs, hroom⟩
  · refine ⟨_, ?_, holds_recycle hs, ?_⟩
    · rw [OutputBuffer.ensureSize_grow (Nat.lt_of_not_le hroom)]
      exact if_neg (Nat.not_lt.mpr hn)
    · have hlen := hs.1
      simp only [recycle, OutputBuffer.reset, List.length_append]
      omega

/-- Nothing larger is provided at any fill level. -/
theorem ensure_large {n : Nat} (hs : Holds start s out) (hn : voidBufferSize < n) :
    OutputBuffer.ensureSize n s = (.error (.errc .endOfStream), s) := by
  have hlen := hs.1
  rw [OutputBuffer.ensureSize_grow (by omega)]
  exact if_pos hn

theorem put_holds {i : Nat} {bytes : List UInt8} (hs : Holds start s out)
    (hroom : i + bytes.length ≤ s.free.length) : Holds start (s.put i bytes) out := by
  obtain ⟨hlen, htotal⟩ := hs
  have hput := OutputBuffer.put_length s hroom
  exact ⟨by rw [hput]; exact hlen, by rw [total, hput]; exact htotal⟩

theorem commit_holds {n : Nat} (hs : Holds start s out) (hroom : n ≤ s.free.length) :
    Holds start (s.commit n) (out ++ s.free.take n) := by
  have hlen := hs.1
  refine holds_append hs ?_ ?_ rfl
  · rw [OutputBuffer.commit_behind, OutputBuffer.commit_free, List.length_append, List.length_take,
      List.length_drop]
    omega
  · rw [OutputBuffer.commit_behind, List.length_append]

theorem bulk_holds (bytes : List UInt8) (hs : Holds start s out) :
    ∃ t, OutputBuffer.bulkWrite bytes s = (.ok (), t) ∧ Holds start t (out ++ bytes) := by
  have hlen := hs.1
  by_cases hroom : bytes.length ≤ s.free.length
  · obtain ⟨t, ht, hbehind, hfree, hderived⟩ := OutputBuffer.bulkWrite_enough hroom
    refine ⟨t, ht, holds_append hs ?_ ?_ hderived⟩
    · rw [hbehind, hfree, List.length_append, List.length_drop]
      omega
    · rw [hbehind, List.length_append]
  · obtain ⟨t, ht, hbehind, hfree, hderived⟩ := OutputBuffer.bulkWrite_full (Nat.lt_of_not_le hroom)
    have htlen : t.behind.length + t.free.length = voidBufferSize := by
      rw [hbehind, hfree, List.length_append, List.length_take, List.length_nil]
      omega
    refine ⟨_, ht, recycle_length htlen _, ?_⟩
    rw [total_recycle htlen, hderived, List.length_append, ← Nat.add_assoc start, ← Nat.mod_add_mod (start + _),
      ← hs.2, total_eq hlen, Nat.mod_add_mod, List.length_drop]
    congr 1
    omega

/-- A void stream takes everything: only its count goes round. -/
def contract (start : Nat) : OutputContract VoidStream where
  limit := none
  Holds := Holds start
  room := fun _ => Limit.fits_none _
  ensure := fun hs hn _ => ensure_holds hs (hn.trans (by decide))
  ensure_full := fun _ _ hno => absurd (Limit.fits_none _) hno
  put := put_holds
  commit := commit_holds
  bulk := fun hs _ => bulk_holds _ hs
  bulk_full := fun _ hno => absurd (Limit.fits_none _) hno

end VoidStream
end DeepPack
