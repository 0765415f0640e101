import DeepPack.Library.Memory
import DeepPack.Streams.OutputContract

/-! The stream into chunks that are handed out one after the other.

While there is room in a chunk it is written to directly. Where less is left of it than
was asked for, the writing goes on in a small buffer: `decomissionThreshold` of its bytes
belong to the end of the current chunk, and those behind them to the next one; it is -1 if
the small buffer is not in use. The virtual functions move the small buffer's bytes to
where they belong. -/
namespace DeepPack
open Library OutputBuffer

/-- The memory that what is written goes to. -/
inductive Window where
  /-- The current chunk, from there on. -/
  | chunk (offset : Nat)
  /-- The small buffer, from there on. -/
  | small (offset : Nat)
  /-- Nothing is spanned: `data()` is null, or where a former chunk ends. -/
  | nowhere
  deriving DecidableEq, Repr

structure ChunkedOutputStream where
  /-- What is in the chunks, up to the current one. -/
  done : List UInt8
  currentChunk : List UInt8
  /-- The end of the chunk, if it is larger than the stream was to be. -/
  cut : List UInt8
  remaining : Nat
  decomissionThreshold : Int
  smallBuffer : List UInt8
  window : Window
  /-- What `acquire_next_chunk_impl` has to return, call by call; then it is the end of the stream. -/
  source : List (Except Errc (List UInt8))
  deriving DecidableEq, Repr

namespace ChunkedOutputStream

def smallBufferSize : Nat := 2 * (minimumOutputBufferSize - 1)

/-! ### The buffers -/

/-- What was written through the buffer is in the memory it spans. -/
def settle (s : OutputBuffer ChunkedOutputStream) : OutputBuffer ChunkedOutputStream :=
  match s.derived.window with
  | .chunk i => {s with derived := {s.derived with
      currentChunk := overwrite i (s.behind ++ s.free) s.derived.currentChunk}}
  | .small i => {s with derived := {s.derived with
      smallBuffer := overwrite i (s.behind ++ s.free) s.derived.smallBuffer}}
  | .nowhere => s

def decomissionThresholdNow : Output ChunkedOutputStream Int :=
  Action.gets fun s => s.derived.decomissionThreshold

def currentChunkNow : Output ChunkedOutputStream (List UInt8) := Action.gets fun s => s.derived.currentChunk

def setDecomissionThreshold (threshold : Int) : Output ChunkedOutputStream Unit :=
  Action.modify fun s => {s with derived := {s.derived with decomissionThreshold := threshold}}

/-- `reset(mCurrentChunk.data() + i, mCurrentChunk.size() - i)`. -/
def resetToChunk (i : Nat) : Output ChunkedOutputStream Unit :=
  Action.modify fun s => ⟨[], s.derived.currentChunk.drop i, {s.derived with window := .chunk i}⟩

/-- `reset(mSmallBuffer + i, small_buffer_size - i)`. -/
def resetToSmallBuffer (i : Nat) : Output ChunkedOutputStream Unit :=
  Action.modify fun s => ⟨[], s.derived.smallBuffer.drop i, {s.derived with window := .small i}⟩

/-- `reset()`. -/
def resetToNothing : Output ChunkedOutputStream Unit :=
  Action.modify fun s => ⟨[], [], {s.derived with window := .nowhere}⟩

/-- How far `data()` is behind the beginning of the small buffer. -/
def consumedSize : Output ChunkedOutputStream Nat := fun s =>
  match s.derived.window with
  | .small i => (.ok (i + s.behind.length), s)
  | _ => (.error .outOfBounds, s)

/-- Copies to the current chunk. -/
def copyToChunk (i : Nat) (bytes : List UInt8) : Output ChunkedOutputStream Unit := fun s =>
  if i + bytes.length ≤ s.derived.currentChunk.length then
    (.ok (), {s with derived := {s.derived with currentChunk := overwrite i bytes s.derived.currentChunk}})
  else (.error .outOfBounds, s)

/-- The `n` bytes of the small buffer from `i` on. -/
def smallSpan (i : Int) (n : Nat) : Output ChunkedOutputStream (List UInt8) := fun s =>
  if 0 ≤ i ∧ i + n ≤ s.derived.smallBuffer.length then (.ok ((s.derived.smallBuffer.drop i.toNat).take n), s)
  else (.error .outOfBounds, s)

/-- Copies the first bytes of the small buffer to the last `decomissionThreshold` bytes of the chunk. -/
def copyToChunkPart (n : Nat) : Output ChunkedOutputStream Unit := do
  let threshold ← decomissionThresholdNow
  let chunk ← currentChunkNow
  if chunk.length < threshold then Action.fail .outOfBounds
  else do
    let bytes ← smallSpan 0 n
    copyToChunk (chunk.length - threshold.toNat) bytes

/-- `mCurrentChunk = mCurrentChunk.subspan(n)`. -/
def moveChunk (n : Nat) : Output ChunkedOutputStream Unit :=
  Action.modify fun s => {s with derived := {s.derived with
    done := s.derived.done ++ s.derived.currentChunk.take n
    currentChunk := s.derived.currentChunk.drop n}}

/-- The next chunk, as far as it is in the stream. -/
def handOut (chunk : List UInt8) (source : List (Except Errc (List UInt8)))
    (s : OutputBuffer ChunkedOutputStream) :
    OutputBuffer ChunkedOutputStream :=
  {s with derived := {s.derived with
    done := s.derived.done ++ s.derived.currentChunk ++ s.derived.cut
    currentChunk := chunk.take s.derived.remaining
    cut := chunk.drop s.derived.remaining
    remaining := wrapSub 64 s.derived.remaining (chunk.take s.derived.remaining).length
    window := match s.derived.window with
      | .chunk _ => .nowhere
      | window => window
    source}}

def acquireNextChunk : Output ChunkedOutputStream Unit := fun s =>
  match s.derived.source with
  | .ok chunk :: source => (.ok (), handOut chunk source s)
  | .error e :: source => (.error (.errc e), {s with derived := {s.derived with source}})
  | [] => (.error (.errc .endOfStream), s)

def moveRemainingSmallBufferToFront (remaining : Nat) : Output ChunkedOutputStream Unit := do
  let bytes ← smallSpan (← decomissionThresholdNow) remaining
  Action.modify fun s => {s with
    derived := {s.derived with smallBuffer := overwrite 0 bytes s.derived.smallBuffer}}
  resetToSmallBuffer remaining
  setDecomissionThreshold 0

def tryMoveSmallBufferToNextChunk (remaining : Nat) : Output ChunkedOutputStream Bool := do
  let copyAmount := min remaining (← currentChunkNow).length
  -- a chunk that was handed out is not null
  copyToChunk 0 (← smallSpan (← decomissionThresholdNow) remaining)
  moveChunk copyAmount
  if remaining ≠ copyAmount then do
    setDecomissionThreshold (toSigned 8 ((← decomissionThresholdNow) + toSigned 8 copyAmount))
    moveRemainingSmallBufferToFront (remaining - copyAmount)
    pure false
  else do
    resetToChunk 0
    setDecomissionThreshold (-1)
    pure true

/-- Without a next chunk the bytes that belong there are kept in the small buffer. -/
def acquireOrKeep (overlap : Nat) : Output ChunkedOutputStream Unit := fun s =>
  match acquireNextChunk s with
  | (.ok (), t) => (.ok (), t)
  | (.error e, t) => (do
    moveRemainingSmallBufferToFront overlap
    Action.fail e) t

/-! ### The virtual functions -/

/-- `do_grow`; `base` is the stream whose functions it calls again. -/
def doGrow (base : OutputStream ChunkedOutputStream) (requestedSize : Nat) :
    Output ChunkedOutputStream Unit := do
  Action.modify settle
  let threshold ← decomissionThresholdNow
  if threshold < 0 then do
    if (← size) = 0 then do
      acquireNextChunk
      resetToChunk 0
    else do
      setDecomissionThreshold (toSigned 8 (← size))
      resetToSmallBuffer 0
      if smallBufferSize < requestedSize then err .bufferSizeExceeded
      else pure ()
  else do
    let consumed ← consumedSize
    if consumed < threshold then do
      copyToChunkPart consumed
      resetToSmallBuffer 0
      setDecomissionThreshold (toSigned 8 (threshold - toSigned 8 consumed))
      if smallBufferSize < requestedSize then err .bufferSizeExceeded
      else pure ()
    else do
      copyToChunkPart threshold.toNat
      let overlap := consumed - threshold.toNat
      acquireOrKeep overlap
      let moved ← tryMoveSmallBufferToNextChunk overlap
      if moved = false ∧ (← Action.gets fun s => s.derived.remaining) = 0 then err .endOfStream
      else ensureSize requestedSize

/-- The loop over the chunks that `do_bulk_write` ends with, for so many rounds. -/
def writeChunks : Nat → List UInt8 → Output ChunkedOutputStream Unit
  | 0, _ => Action.fail .running
  | rounds + 1, bytes => do
    let chunk ← currentChunkNow
    let chunkSize := min bytes.length chunk.length
    copyToChunk 0 (bytes.take chunkSize)
    if chunkSize = chunk.length then acquireNextChunk
    else moveChunk chunkSize
    if (bytes.drop chunkSize).length ≠ 0 then writeChunks rounds (bytes.drop chunkSize)
    else pure ()

def doBulkWrite (bytes : List UInt8) : Output ChunkedOutputStream Unit := do
  Action.modify settle
  let threshold ← decomissionThresholdNow
  if 0 ≤ threshold then do
    copyToChunkPart threshold.toNat
    -- the small buffer was filled completely
    let overlap := wrapSub 64 smallBufferSize threshold.toNat
    acquireOrKeep overlap
    let moved ← tryMoveSmallBufferToNextChunk overlap
    if moved = false then acquireNextChunk
    resetToNothing
  else acquireNextChunk
  let source ← Action.gets fun s => s.derived.source
  writeChunks (source.length + 1) bytes
  resetToChunk 0

/-- `sync_output`, which is `do_sync_output`. -/
def syncOutput : Output ChunkedOutputStream Unit := do
  Action.modify settle
  let threshold ← decomissionThresholdNow
  if threshold < 0 then pure ()
  else do
    let consumed ← consumedSize
    if consumed ≤ threshold then do
      copyToChunkPart consumed
      if consumed = threshold then do
        resetToChunk (← currentChunkNow).length
        setDecomissionThreshold (-1)
      else do
        resetToSmallBuffer 0
        setDecomissionThreshold (toSigned 8 (threshold - toSigned 8 consumed))
    else do
      copyToChunkPart threshold.toNat
      let overlap := consumed - threshold.toNat
      acquireOrKeep overlap
      if ← tryMoveSmallBufferToNextChunk overlap then pure ()
      else err .endOfStream

/-- The virtual functions, where `do_grow` may call itself so many times. -/
@[reducible] def virtuals : Nat → OutputStream ChunkedOutputStream
  | 0 => ⟨fun _ => Action.fail .running, doBulkWrite⟩
  | rounds + 1 => ⟨doGrow (virtuals rounds), doBulkWrite⟩

/-- Each call but one acquires a chunk. -/
def rounds (s : OutputBuffer ChunkedOutputStream) : Nat := s.derived.source.length + 2

instance : OutputStream ChunkedOutputStream where
  doGrow n s := (virtuals (rounds s)).doGrow n s
  doBulkWrite := doBulkWrite

end ChunkedOutputStream

/-- A stream that was just opened, with nothing to write to but an initial area. -/
def chunkedOutput (initialWriteArea : List UInt8) (remaining : Nat)
    (source : List (Except Errc (List UInt8))) :
    OutputBuffer ChunkedOutputStream :=
  ⟨[], initialWriteArea, {
    done := []
    currentChunk := initialWriteArea
    cut := []
    remaining
    decomissionThreshold := -1
    smallBuffer := List.replicate ChunkedOutputStream.smallBufferSize 0
    window := .chunk 0
    source}⟩

end DeepPack
