import DeepPack.Disappointment
import DeepPack.Library.Words

/-! The input buffer every parser reads through.

`buffer` is what `data()` and `size()` span, `inputSize` the 64 bit count of bytes
the stream still has to give. A derived stream supplies the three virtual
functions; everything else is the base class. Discarding bytes that are not
buffered, or reading them, is out of bounds. -/
namespace DeepPack
open Library

structure InputBuffer (σ : Type) where
  buffer : List UInt8
  inputSize : Nat
  derived : σ

/-- The virtual functions of a stream with own state `σ`. -/
class InputStream (σ : Type) where
  doRequireInput : Nat → Action Fault (InputBuffer σ) Unit
  doDiscardInput : Nat → Action Fault (InputBuffer σ) Unit
  doBulkRead : Nat → Action Fault (InputBuffer σ) (List UInt8)
  /-- What a `do_bulk_read` of so many bytes has copied where it fails. -/
  doBulkCopied : (n : Nat) → InputBuffer σ → {bytes : List UInt8 // bytes.length ≤ n} := fun _ _ => ⟨[], Nat.zero_le _⟩

/-- A parser: it moves the input on, or fails. -/
abbrev Input (σ α : Type) : Type := Action Fault (InputBuffer σ) α

namespace InputBuffer
variable {σ : Type}

def empty : Input σ Bool := Action.gets fun s => s.buffer.isEmpty

def size : Input σ Nat := Action.gets fun s => s.buffer.length

def inputSizeNow : Input σ Nat := Action.gets InputBuffer.inputSize

/-- The byte at `data() + i`. -/
def dataAt (i : Nat) : Input σ UInt8 := fun s =>
  match s.buffer[i]? with
  | some b => (.ok b, s)
  | none => (.error .outOfBounds, s)

/-- The `n` bytes at `data() + i`. -/
def dataSpan (i n : Nat) : Input σ (List UInt8) := fun s =>
  if i + n ≤ s.buffer.length then (.ok ((s.buffer.drop i).take n), s) else (.error .outOfBounds, s)

def discardBuffered (n : Nat) : Input σ Unit := fun s =>
  if n ≤ s.buffer.length then
    (.ok (), {s with buffer := s.buffer.drop n, inputSize := wrapSub 64 s.inputSize n})
  else (.error .outOfBounds, s)

/-- `reset()`: nothing is buffered any more. -/
def reset (s : InputBuffer σ) : InputBuffer σ :=
  {s with buffer := [], inputSize := wrapSub 64 s.inputSize s.buffer.length}

variable [InputStream σ]

def requireInput (requiredSize : Nat) : Input σ Unit := fun s =>
  if s.inputSize < requiredSize then (.error (.errc .endOfStream), s)
  else if s.buffer.length < requiredSize then InputStream.doRequireInput requiredSize s
  else (.ok (), s)

def discardInput (amount : Nat) : Input σ Unit := fun s =>
  if amount ≤ s.buffer.length then discardBuffered amount s
  else if s.inputSize < amount then (.error (.errc .endOfStream), s)
  else
    InputStream.doDiscardInput (wrapSub 64 amount s.buffer.length)
      (reset {s with inputSize := wrapSub 64 s.inputSize s.buffer.length})

/-- The bytes a bulk read delivers: first what is buffered, then what the stream reads. -/
def bulkRead (amount : Nat) : Input σ (List UInt8) := fun s =>
  if amount = 0 then (.ok [], s)
  else if s.inputSize < amount then (.error (.errc .endOfStream), s)
  else
    let copyAmount := min s.buffer.length amount
    let head := s.buffer.take copyAmount
    let s' := {s with
      buffer := s.buffer.drop copyAmount
      inputSize := wrapSub 64 s.inputSize copyAmount}
    if amount - copyAmount = 0 then (.ok head, s')
    else (do
      let rest ← InputStream.doBulkRead (amount - copyAmount)
      pure (head ++ rest)) s'

/-- What a bulk read that fails has copied: what was buffered, and what the stream has read behind it. -/
def bulkCopied (amount : Nat) (s : InputBuffer σ) : List UInt8 :=
  if amount = 0 ∨ s.inputSize < amount ∨ amount ≤ s.buffer.length then []
  else s.buffer ++ (InputStream.doBulkCopied (amount - s.buffer.length)
    {s with buffer := [], inputSize := wrapSub 64 s.inputSize s.buffer.length}).val

theorem bulkCopied_length (amount : Nat) (s : InputBuffer σ) : (bulkCopied amount s).length ≤ amount := by
  unfold bulkCopied
  split
  · exact Nat.zero_le _
  · have hcopied := (InputStream.doBulkCopied (amount - s.buffer.length)
      {s with buffer := [], inputSize := wrapSub 64 s.inputSize s.buffer.length}).property
    rw [List.length_append]
    omega

end InputBuffer
end DeepPack
