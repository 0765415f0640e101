import DeepPack.Disappointment
import DeepPack.Library.Words

/-! The output buffer every emitter writes through.

`free` is the memory `data()` and `size()` span, with what it happens to hold, and
`behind` the memory in front of it that was committed since the last reset. An
emitter may write anywhere in `free`; only what it commits counts. Writing or
committing past the end is out of bounds. -/
namespace DeepPack
open Library

structure OutputBuffer (σ : Type) where
  behind : List UInt8
  free : List UInt8
  derived : σ

/-- The virtual functions of a stream with own state `σ`. -/
class OutputStream (σ : Type) where
  doGrow : Nat → Action Fault (OutputBuffer σ) Unit
  doBulkWrite : List UInt8 → Action Fault (OutputBuffer σ) Unit

/-- An emitter: it moves the output on, or fails. -/
abbrev Output (σ α : Type) : Type := Action Fault (OutputBuffer σ) α

namespace OutputBuffer
variable {σ : Type}

/-- The memory with `bytes` at `data() + i`. -/
def put (i : Nat) (bytes : List UInt8) (s : OutputBuffer σ) : OutputBuffer σ :=
  {s with free := s.free.take i ++ bytes ++ s.free.drop (i + bytes.length)}

def commit (n : Nat) (s : OutputBuffer σ) : OutputBuffer σ :=
  {s with behind := s.behind ++ s.free.take n, free := s.free.drop n}

/-- `reset(buffer)`: the output goes on in this memory. -/
def reset (buffer : List UInt8) (s : OutputBuffer σ) : OutputBuffer σ :=
  {s with behind := [], free := buffer}

def size : Output σ Nat := Action.gets fun s => s.free.length

def empty : Output σ Bool := Action.gets fun s => s.free.isEmpty

/-- Writes `bytes` to `data() + i`. -/
def store (i : Nat) (bytes : List UInt8) : Output σ Unit := fun s =>
  if i + bytes.length ≤ s.free.length then (.ok (), s.put i bytes) else (.error .outOfBounds, s)

def commitWritten (numBytes : Nat) : Output σ Unit := fun s =>
  if numBytes ≤ s.free.length then (.ok (), s.commit numBytes) else (.error .outOfBounds, s)

@[simp] theorem put_length (s : OutputBuffer σ) {i : Nat} {bytes : List UInt8}
    (h : i + bytes.length ≤ s.free.length) : (s.put i bytes).free.length = s.free.length := by
  simp only [put, List.length_append, List.length_take, List.length_drop]
  omega

@[simp] theorem put_behind (s : OutputBuffer σ) (i : Nat) (bytes : List UInt8) :
    (s.put i bytes).behind = s.behind := rfl

@[simp] theorem commit_behind (s : OutputBuffer σ) (n : Nat) :
    (s.commit n).behind = s.behind ++ s.free.take n := rfl

@[simp] theorem commit_free (s : OutputBuffer σ) (n : Nat) : (s.commit n).free = s.free.drop n := rfl

/-- What was put is there. -/
theorem put_take (s : OutputBuffer σ) {i : Nat} {bytes : List UInt8} (h : i + bytes.length ≤ s.free.length) :
    (s.put i bytes).free.take (i + bytes.length) = s.free.take i ++ bytes := by
  have hlen : (s.free.take i ++ bytes).length = i + bytes.length := by
    rw [List.length_append, List.length_take]
    omega
  rw [put, ← hlen, List.take_left]

theorem store_apply {s : OutputBuffer σ} {i : Nat} {bytes : List UInt8}
    (h : i + bytes.length ≤ s.free.length) : store i bytes s = (.ok (), s.put i bytes) := by
  unfold store
  rw [if_pos h]

theorem commitWritten_apply {s : OutputBuffer σ} {n : Nat} (h : n ≤ s.free.length) :
    commitWritten n s = (.ok (), s.commit n) := by
  unfold commitWritten
  rw [if_pos h]

variable [OutputStream σ]

def ensureSize (requestedSize : Nat) : Output σ Unit := fun s =>
  if s.free.length < requestedSize then OutputStream.doGrow requestedSize s else (.ok (), s)

def bulkWrite (bytes : List UInt8) : Output σ Unit := fun s =>
  if bytes.length = 0 then (.ok (), s)
  else
    -- nothing is copied if the buffer is full
    let copyAmount := min bytes.length s.free.length
    let s := (s.put 0 (bytes.take copyAmount)).commit copyAmount
    if (bytes.drop copyAmount).length = 0 then (.ok (), s)
    else OutputStream.doBulkWrite (bytes.drop copyAmount) s

/-- The check in front of every write. -/
def reserve (n : Nat) : Output σ Unit := do
  if (← size) < n then ensureSize n
  else pure ()

theorem ensureSize_enough {s : OutputBuffer σ} {n : Nat} (h : n ≤ s.free.length) :
    ensureSize n s = (.ok (), s) := by
  unfold ensureSize
  rw [if_neg (Nat.not_lt.mpr h)]

theorem ensureSize_grow {s : OutputBuffer σ} {n : Nat} (h : s.free.length < n) :
    ensureSize n s = OutputStream.doGrow n s := by
  unfold ensureSize
  rw [if_pos h]

theorem reserve_apply (n : Nat) (s : OutputBuffer σ) : reserve n s = ensureSize n s := by
  unfold reserve
  rw [size, Action.gets_bind_apply]
  by_cases h : s.free.length < n
  · rw [if_pos h]
  · rw [if_neg h, ensureSize_enough (Nat.not_lt.mp h)]
    rfl

/-- A bulk write that fits never gets past the base class. -/
theorem bulkWrite_enough {s : OutputBuffer σ} {bytes : List UInt8} (h : bytes.length ≤ s.free.length) :
    ∃ t, bulkWrite bytes s = (.ok (), t) ∧ t.behind = s.behind ++ bytes ∧
      t.free = s.free.drop bytes.length ∧ t.derived = s.derived := by
  unfold bulkWrite
  by_cases h0 : bytes.length = 0
  · rw [if_pos h0]
    rw [List.length_eq_zero_iff] at h0
    subst h0
    exact ⟨s, rfl, (List.append_nil _).symm, rfl, rfl⟩
  · rw [if_neg h0, Nat.min_eq_left h]
    dsimp only
    rw [List.drop_length, if_pos (by rfl), List.take_length]
    refine ⟨_, rfl, ?_, ?_, rfl⟩
    · have hput : (s.put 0 bytes).free.take (0 + bytes.length) = s.free.take 0 ++ bytes := put_take s (by omega)
      rw [Nat.zero_add, List.take_zero, List.nil_append] at hput
      rw [commit_behind, put_behind, hput]
    · rw [commit_free, put, List.take_zero, List.nil_append, Nat.zero_add, List.drop_left]

/-- One that does not fit hands the rest on when the buffer is full. -/
theorem bulkWrite_full {s : OutputBuffer σ} {bytes : List UInt8} (h : s.free.length < bytes.length) :
    ∃ t, bulkWrite bytes s = OutputStream.doBulkWrite (bytes.drop s.free.length) t ∧
      t.behind = s.behind ++ bytes.take s.free.length ∧ t.free = [] ∧ t.derived = s.derived := by
  unfold bulkWrite
  rw [if_neg (by omega), Nat.min_eq_right (Nat.le_of_lt h)]
  dsimp only
  rw [if_neg (by rw [List.length_drop]; omega)]
  have htake : (bytes.take s.free.length).length = s.free.length := by
    rw [List.length_take]
    omega
  refine ⟨_, rfl, ?_, ?_, rfl⟩
  · have hput : (s.put 0 (bytes.take s.free.length)).free.take (0 + (bytes.take s.free.length).length) =
        s.free.take 0 ++ bytes.take s.free.length := put_take s (by omega)
    rw [Nat.zero_add, List.take_zero, List.nil_append, htake] at hput
    rw [commit_behind, put_behind, hput]
  · rw [commit_free, put, List.take_zero, List.nil_append, Nat.zero_add, htake, List.drop_length,
      List.append_nil]
    exact List.drop_eq_nil_of_le htake.le

end OutputBuffer
end DeepPack
