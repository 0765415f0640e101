import DeepPack.Items.ParseCore

/-! The parsers of strings and ranges.

Blobs are read into a container that may refuse to grow, ranges element by element
by a decoder that is told the element's index. Both come in a definite form, whose
size is checked against the input before anything is read, and an indefinite form
that a break ends. -/
namespace DeepPack
open Library InputBuffer

/-- `blob_output_container`: memory for bytes. -/
structure BlobContainer (δ : Type) where
  /-- `container_resize`, if the container can hold so much. -/
  resize : Nat → δ → Option δ
  /-- The container with `bytes` at `data() + i`. -/
  overwrite (i : Nat) (bytes : List UInt8) : δ → δ

namespace BlobContainer

def putAt (i : Nat) (bytes content : List UInt8) : List UInt8 :=
  content.take i ++ bytes ++ content.drop (i + bytes.length)

/-- Strings and vectors: growing appends zeros. -/
def growable : BlobContainer (List UInt8) where
  resize n content := some (content.take n ++ List.replicate (n - content.length) 0)
  overwrite := putAt

/-- Spans: their size is fixed. -/
def span : BlobContainer (List UInt8) where
  resize n content := if n ≤ content.length then some content else none
  overwrite := putAt

variable {δ : Type} (B : BlobContainer δ)

def containerResize (n : Nat) : Action Fault δ Unit := fun d =>
  match B.resize n d with
  | some d' => (.ok (), d')
  | none => (.error (.errc .notEnoughMemory), d)

end BlobContainer

variable {σ δ : Type} [InputStream σ]

/-- The next byte, still buffered. -/
def peekByte : Input σ UInt8 := do
  requireInput 1
  dataAt 0

namespace Detail

/-- Reads `n` bytes to `data() + i`. Where that fails, the first ones may be there. -/
def readTo (B : BlobContainer δ) (i n : Nat) : Parse σ δ Unit :=
  Action.spoiling (fun (s, _) (t, d) => (t, B.overwrite i (bulkCopied n s) d)) do
    let bytes ← Action.onFst (bulkRead n)
    Action.onSnd (Action.modify (B.overwrite i bytes))

/-- The loop over the chunks, for so many rounds. -/
def parseBlobChunks (B : BlobContainer δ) (maxSize : Nat) (expectedType : TypeCode) : Nat → Nat → Parse σ δ Nat
  | 0, _ => Action.fail .running
  | rounds + 1, size => do
    let chunkItem ← Action.onFst DeepPack.parseItemHead
    if chunkItem.isSpecialBreak then pure size
    else if chunkItem.type ≠ expectedType then err .invalidIndefiniteSubitem
    else if (← Action.onFst inputSizeNow) < chunkItem.value then err .missingData
    else
      let newSize := (size + chunkItem.value) % wordLimit
      if maxSize < newSize ∨ newSize < chunkItem.value then err .stringExceedsSizeLimit
      else do
        Action.onSnd (B.containerResize newSize)
        readTo B size chunkItem.value
        parseBlobChunks B maxSize expectedType rounds newSize

/-- Every chunk takes a byte at least, so that the loop has rounds enough. -/
def parseBlobIndefinite (B : BlobContainer δ) (maxSize : Nat) (expectedType : TypeCode) : Parse σ δ Nat := do
  Action.onSnd (B.containerResize 0)
  parseBlobChunks B maxSize expectedType ((← Action.onFst inputSizeNow) + 1) 0

def parseBlob (B : BlobContainer δ) (allowIndefiniteEncoding : Bool) (maxSize : Nat) (expectedType : TypeCode) :
    Parse σ δ Nat := do
  let head ← Action.onFst DeepPack.parseItemHead
  if head.type ≠ expectedType then err .itemTypeMismatch
  else if head.indefinite then
    if allowIndefiniteEncoding then parseBlobIndefinite B maxSize expectedType else err .indefiniteItem
  -- a size the input cannot back does not get memory
  else if (← Action.onFst inputSizeNow) < head.value then err .missingData
  else if maxSize < head.value then err .stringExceedsSizeLimit
  else do
    Action.onSnd (B.containerResize head.value)
    readTo B 0 head.value
    pure head.value

/-- A break ends the range with `i` elements; anything else is left to `more`. -/
def endAtBreak (i : Nat) (more : Parse σ δ Nat) : Parse σ δ Nat := do
  if (← Action.onFst peekByte) = TypeCode.specialBreak.toByte then do
    Action.onFst (discardBuffered 1)
    pure i
  else more

/-- The loop of an indefinite range at index `i`; `left` is how far the index can still count. -/
def parseIndefiniteElements (maxSize : Nat) (decodeElement : Nat → Parse σ δ Unit) : Nat → Nat → Parse σ δ Nat
  | 0, i => endAtBreak i (err .itemValueOutOfRange)
  | left + 1, i => endAtBreak i (
    if maxSize < i then err .itemValueOutOfRange
    else do
      decodeElement i
      parseIndefiniteElements maxSize decodeElement left (i + 1))

def parseIndefiniteArrayLike (maxSize : Nat) (decodeElement : Nat → Parse σ δ Unit) : Parse σ δ Nat :=
  parseIndefiniteElements maxSize decodeElement sizeMax 0

def parseArrayLike (allowIndefiniteEncoding : Bool) (maxSize : Nat) (expectedType : TypeCode)
    (decodeElement : Nat → Parse σ δ Unit) : Parse σ δ Nat := do
  let head ← Action.onFst DeepPack.parseItemHead
  if head.type ≠ expectedType then err .itemTypeMismatch
  else if head.indefinite then
    if allowIndefiniteEncoding then parseIndefiniteArrayLike maxSize decodeElement else err .indefiniteItem
  else if (← Action.onFst inputSizeNow) >>> (if expectedType = .map then 1 else 0) < head.value then
    err .missingData
  else if maxSize < head.value then err .itemValueOutOfRange
  else do
    Action.forRange decodeElement 0 head.value
    pure head.value

end Detail

def parseBinary (B : BlobContainer δ) (maxSize : Nat) : Parse σ δ Nat := Detail.parseBlob B true maxSize .binary

def parseText (B : BlobContainer δ) (maxSize : Nat) : Parse σ δ Nat := Detail.parseBlob B true maxSize .text

def parseTextFinite (B : BlobContainer δ) (maxSize : Nat) : Parse σ δ Nat := Detail.parseBlob B false maxSize .text

def parseArray (maxSize : Nat) (decodeElement : Nat → Parse σ δ Unit) : Parse σ δ Nat :=
  Detail.parseArrayLike true maxSize .array decodeElement

def parseMap (maxSize : Nat) (decodeElement : Nat → Parse σ δ Unit) : Parse σ δ Nat :=
  Detail.parseArrayLike true maxSize .map decodeElement

end DeepPack
