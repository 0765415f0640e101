import DeepPack.Streams.OutputContract

/-! The documented contract of an output buffer, and the stream that has no end.

A documented stream has an output: the bytes that were committed or bulk-written to
it. It never fails for want of space. `EndlessStream` is one: it keeps its whole
output, and what an encoder leaves there is what the encoder puts out. -/
namespace DeepPack
open Library

structure DocumentedOutput (σ : Type) [OutputStream σ] where
  /-- The states the stream can be in. -/
  Valid : OutputBuffer σ → Prop
  output : OutputBuffer σ → List UInt8
  ensure : ∀ {s n}, Valid s → n ≤ minimumOutputBufferSize →
    ∃ t, OutputBuffer.ensureSize n s = (.ok (), t) ∧ Valid t ∧ output t = output s ∧ n ≤ t.free.length
  /-- What is not committed does not reach the output. -/
  put : ∀ {s i bytes}, Valid s → i + bytes.length ≤ s.free.length →
    Valid (s.put i bytes) ∧ output (s.put i bytes) = output s
  commit : ∀ {s n}, Valid s → n ≤ s.free.length →
    Valid (s.commit n) ∧ output (s.commit n) = output s ++ s.free.take n
  bulk : ∀ {s} bytes, Valid s →
    ∃ t, OutputBuffer.bulkWrite bytes s = (.ok (), t) ∧ Valid t ∧ output t = output s ++ bytes

/-- A documented stream keeps the contract without a limit. -/
def DocumentedOutput.contract {σ : Type} [OutputStream σ] (D : DocumentedOutput σ) : OutputContract σ where
  limit := none
  Holds s out := D.Valid s ∧ D.output s = out
  room := fun _ => Limit.fits_none _
  ensure := by
    intro s _ n h hn _
    obtain ⟨hs, rfl⟩ := h
    obtain ⟨t, ht, hv, hout, hroom⟩ := D.ensure hs hn
    exact ⟨t, ht, ⟨hv, hout⟩, hroom⟩
  ensure_full := fun _ _ hno => absurd (Limit.fits_none _) hno
  put := by
    intro s _ i bytes h hroom
    obtain ⟨hs, rfl⟩ := h
    exact D.put hs hroom
  commit := by
    intro s _ n h hroom
    obtain ⟨hs, rfl⟩ := h
    exact D.commit hs hroom
  bulk := by
    intro s _ bytes h _
    obtain ⟨hs, rfl⟩ := h
    exact D.bulk bytes hs
  bulk_full := fun _ hno => absurd (Limit.fits_none _) hno

/-- On a documented stream nothing is cut off. -/
theorem Emits.documented {σ : Type} [OutputStream σ] {D : DocumentedOutput σ} {x : Output σ Unit}
    {bytes : List UInt8} (h : Emits D.contract x bytes) {s : OutputBuffer σ} (hs : D.Valid s) :
    ∃ t, x s = (.ok (), t) ∧ D.Valid t ∧ D.output t = D.output s ++ bytes := by
  obtain ⟨t, ht, hv, hout⟩ := (h s (D.output s) ⟨hs, rfl⟩).1 (Limit.fits_none _)
  exact ⟨t, ht, hv, hout⟩

structure EndlessStream where
  /-- The output in front of the current buffer. -/
  passed : List UInt8
  deriving DecidableEq, Repr

namespace EndlessStream

/-- All that was put out. -/
def output (s : OutputBuffer EndlessStream) : List UInt8 := s.derived.passed ++ s.behind

end EndlessStream

instance : OutputStream EndlessStream where
  doGrow requestedSize := fun s =>
    (.ok (), {(s.reset (List.replicate requestedSize 0)) with derived := ⟨EndlessStream.output s⟩})
  doBulkWrite bytes := fun s =>
    (.ok (), {(s.reset []) with derived := ⟨EndlessStream.output s ++ bytes⟩})

namespace EndlessStream

def fresh : OutputBuffer EndlessStream := ⟨[], [], ⟨[]⟩⟩

/-- It provides any size at once. -/
theorem ensureSize_endless (n : Nat) (s : OutputBuffer EndlessStream) :
    ∃ t, OutputBuffer.ensureSize n s = (.ok (), t) ∧ output t = output s ∧ n ≤ t.free.length := by
  by_cases hroom : n ≤ s.free.length
  · exact ⟨s, OutputBuffer.ensureSize_enough hroom, rfl, hroom⟩
  · refine ⟨_, OutputBuffer.ensureSize_grow (Nat.lt_of_not_le hroom), List.append_nil _, ?_⟩
    simp [OutputBuffer.reset]

def documented : DocumentedOutput EndlessStream where
  Valid _ := True
  output := output
  ensure := by
    intro s n _ _
    obtain ⟨t, ht, hout, hroom⟩ := ensureSize_endless n s
    exact ⟨t, ht, trivial, hout, hroom⟩
  put := fun _ _ => ⟨trivial, rfl⟩
  commit := fun _ _ => ⟨trivial, (List.append_assoc _ _ _).symm⟩
  bulk := by
    intro s bytes _
    by_cases hroom : bytes.length ≤ s.free.length
    · obtain ⟨t, ht, hbehind, -, hderived⟩ := OutputBuffer.bulkWrite_enough hroom
      exact ⟨t, ht, trivial, by rw [output, hbehind, hderived, output, List.append_assoc]⟩
    · obtain ⟨t, ht, hbehind, -, hderived⟩ := OutputBuffer.bulkWrite_full (Nat.lt_of_not_le hroom)
      refine ⟨_, ht, trivial, ?_⟩
      simp only [output, OutputBuffer.reset, hbehind, hderived, List.append_assoc, List.append_nil,
        List.take_append_drop]

end EndlessStream

/-- A buffer that provides any size at once. -/
structure RoomyOutput (σ : Type) [OutputStream σ] where
  Valid : OutputBuffer σ → Prop
  output : OutputBuffer σ → List UInt8
  ensure : ∀ {s} n, Valid s →
    ∃ t, OutputBuffer.ensureSize n s = (.ok (), t) ∧ Valid t ∧ output t = output s ∧ n ≤ t.free.length
  put : ∀ {s i bytes}, Valid s → i + bytes.length ≤ s.free.length →
    Valid (s.put i bytes) ∧ output (s.put i bytes) = output s
  commit : ∀ {s n}, Valid s → n ≤ s.free.length →
    Valid (s.commit n) ∧ output (s.commit n) = output s ++ s.free.take n

def EndlessStream.roomy : RoomyOutput EndlessStream where
  Valid _ := True
  output := output
  ensure := by
    intro s n _
    obtain ⟨t, ht, hout, hroom⟩ := ensureSize_endless n s
    exact ⟨t, ht, trivial, hout, hroom⟩
  put := fun _ _ => ⟨trivial, rfl⟩
  commit := fun _ _ => ⟨trivial, (List.append_assoc _ _ _).symm⟩

end DeepPack
