import DeepPack.Library.Memory
import DeepPack.Streams.InputBuffer

/-! The stream over chunks that are handed out one after the other.

While a chunk lasts its bytes are buffered where they are. Bytes asked for across the end
of a chunk are fused in a small buffer: the remnants of what was buffered, and behind them
a copy of the beginning of the next chunk, so that the marker `bufferStart` says how many
of the small buffer's bytes are remnants, or -1 if the small buffer is not in use. The
virtual functions call the functions of the base class again, and so each other. -/
namespace DeepPack
open Library InputBuffer

/-- `minimum_input_buffer_size`. -/
def minimumInputBufferSize : Nat := 40

/-- `memory_view`: a window on memory, whose sizes are 32 bit words. -/
structure MemoryView where
  allocation : List UInt8
  windowBegin : Int
  windowSize : Nat
  deriving DecidableEq, Repr

namespace MemoryView

def ofSpan (memory : List UInt8) : MemoryView := ⟨memory, 0, memory.length % 2 ^ 32⟩

def allocationSize (v : MemoryView) : Nat := v.allocation.length % 2 ^ 32

/-- The bytes in the window, if all of it is in the memory. -/
def remaining (v : MemoryView) : Option (List UInt8) :=
  if 0 ≤ v.windowBegin ∧ v.windowBegin + v.windowSize ≤ v.allocation.length then
    some ((v.allocation.drop v.windowBegin.toNat).take v.windowSize)
  else none

def moveConsumer (amount : Int) (v : MemoryView) : MemoryView :=
  {v with windowBegin := v.windowBegin + amount, windowSize := ((v.windowSize - amount) % 2 ^ 32).toNat}

/-- `reset()`: the window is moved by a difference of `unsigned` sizes. -/
def reset (v : MemoryView) : MemoryView :=
  {v with
    windowBegin := v.windowBegin + wrapSub 32 v.windowSize v.allocationSize
    windowSize := v.allocationSize}

end MemoryView

structure ChunkedInputStream where
  readArea : MemoryView
  bufferStart : Int
  smallBuffer : List UInt8
  /-- How many bytes were spanned when the buffer was last reset. -/
  extent : Nat
  /-- What `acquire_next_chunk_impl` has to return, call by call; then it is the end of the stream. -/
  source : List (Except Errc (List UInt8))
  deriving DecidableEq, Repr

namespace ChunkedInputStream

def smallBufferSize : Nat := 2 * (minimumInputBufferSize - 1)

/-! ### The buffers -/

/-- `reset(buffer, inputSize)`. -/
def resetTo (buffer : List UInt8) (inputSize : Nat) : Input ChunkedInputStream Unit :=
  Action.modify fun s => ⟨buffer, inputSize, {s.derived with extent := buffer.length}⟩

def bufferStartNow : Input ChunkedInputStream Int := Action.gets fun s => s.derived.bufferStart

def setBufferStart (start : Int) : Input ChunkedInputStream Unit :=
  Action.modify fun s => {s with derived := {s.derived with bufferStart := start}}

/-- How far `data()` is behind the beginning of what was spanned. -/
def consumedSize : Input ChunkedInputStream Int := Action.gets fun s => s.derived.extent - s.buffer.length

def setReadArea (f : MemoryView → MemoryView) : Input ChunkedInputStream Unit :=
  Action.modify fun s => {s with derived := {s.derived with readArea := f s.derived.readArea}}

/-- The bytes at `mReadArea.remaining_begin()`. -/
def remaining : Input ChunkedInputStream (List UInt8) := fun s =>
  match s.derived.readArea.remaining with
  | some bytes => (.ok bytes, s)
  | none => (.error .outOfBounds, s)

def resetToReadArea : Input ChunkedInputStream Unit := do
  let bytes ← remaining
  resetTo bytes (← inputSizeNow)

/-- The `n` bytes of the small buffer from `i` on. -/
def smallSpan (i n : Int) : Input ChunkedInputStream (List UInt8) := fun s =>
  if 0 ≤ i ∧ 0 ≤ n ∧ i + n ≤ s.derived.smallBuffer.length then
    (.ok ((s.derived.smallBuffer.drop i.toNat).take n.toNat), s)
  else (.error .outOfBounds, s)

def resetToSmallBuffer (n : Int) : Input ChunkedInputStream Unit := do
  let bytes ← smallSpan 0 n
  resetTo bytes (← inputSizeNow)

/-- Copies to the small buffer. -/
def copyToSmallBuffer (i : Int) (bytes : List UInt8) : Input ChunkedInputStream Unit := fun s =>
  if 0 ≤ i ∧ i + bytes.length ≤ s.derived.smallBuffer.length then
    (.ok (), {s with
      derived := {s.derived with smallBuffer := overwrite i.toNat bytes s.derived.smallBuffer}})
  else (.error .outOfBounds, s)

def acquireNextChunkImpl : Input ChunkedInputStream MemoryView := fun s =>
  match s.derived.source with
  | .ok chunk :: source => (.ok (.ofSpan chunk), {s with derived := {s.derived with source}})
  | .error e :: source => (.error (.errc e), {s with derived := {s.derived with source}})
  | [] => (.error (.errc .endOfStream), s)

def acquireNextChunk : Input ChunkedInputStream Unit := do
  let chunk ← acquireNextChunkImpl
  setReadArea fun _ => chunk
  let inputSize ← inputSizeNow
  if inputSize < chunk.windowSize then do
    let bytes ← remaining
    setReadArea fun _ => .ofSpan (bytes.take inputSize)
  else pure ()

def saveRemainingToSmallBuffer : Input ChunkedInputStream Unit := do
  let bytes ← Action.gets InputBuffer.buffer
  copyToSmallBuffer 0 bytes
  setBufferStart (toSigned 8 ((← bufferStartNow) + toSigned 8 bytes.length))
  resetToSmallBuffer bytes.length

def appendCurrentToSmallBuffer : Input ChunkedInputStream Unit := do
  let oldSize ← size
  let smallChunk := (← remaining).take (wrapSub 64 smallBufferSize oldSize)
  copyToSmallBuffer (← bufferStartNow) smallChunk
  resetToSmallBuffer (oldSize + smallChunk.length)

def moveSmallBufferContentToFront : Input ChunkedInputStream Unit := do
  let consumed ← consumedSize
  let start := toSigned 8 ((← bufferStartNow) - toSigned 8 consumed)
  setBufferStart start
  copyToSmallBuffer 0 (← smallSpan consumed start)
  resetToSmallBuffer start

/-- Goes back to the read area, whose bytes behind the remnants are consumed as far as those in the small
buffer are. -/
def retireSmallBuffer (consumed : Int) : Input ChunkedInputStream Unit := do
  let start ← bufferStartNow
  setReadArea (.moveConsumer (consumed - start))
  setBufferStart (-1)
  resetToReadArea

/-! ### The virtual functions -/

/-- `do_require_input`; `base` is the stream whose functions it calls again. -/
def doRequireInput (base : InputStream ChunkedInputStream) (requiredSize : Nat) :
    Input ChunkedInputStream Unit := do
  if (← bufferStartNow) < 0 then do
    if (← size) = 0 then do
      -- no fusing where a chunk ends
      acquireNextChunk
      resetToReadArea
      if (← size) < requiredSize then requireInput requiredSize
      else pure ()
    else if smallBufferSize < requiredSize then err .bufferSizeExceeded
    else do
      setBufferStart 0
      saveRemainingToSmallBuffer
      acquireNextChunk
      appendCurrentToSmallBuffer
      if requiredSize ≤ (← size) then pure ()
      else requireInput requiredSize
  else if (← bufferStartNow) ≤ (← consumedSize) then do
    -- nothing is left of the remnants
    retireSmallBuffer (← consumedSize)
    if (← size) < requiredSize then requireInput requiredSize
    else pure ()
  else if smallBufferSize < requiredSize then err .bufferSizeExceeded
  else do
    moveSmallBufferContentToFront
    appendCurrentToSmallBuffer
    if requiredSize ≤ (← size) then pure ()
    else do
      -- all of the read area is in the small buffer
      setBufferStart (toSigned 8 (← size))
      setReadArea .reset
      acquireNextChunk
      requireInput requiredSize

/-- The next `amount` bytes, chunk by chunk, for so many rounds; they are not buffered. -/
def consumeChunks : Nat → Nat → Input ChunkedInputStream (List UInt8)
  | 0, _ => Action.fail .running
  | rounds + 1, amount => do
    acquireNextChunk
    let bytes := (← remaining).take amount
    resetTo [] (wrapSub 64 (← inputSizeNow) bytes.length)
    setReadArea (.moveConsumer (toSigned 32 bytes.length))
    if amount - bytes.length ≠ 0 then do
      let rest ← consumeChunks rounds (amount - bytes.length)
      pure (bytes ++ rest)
    else pure bytes

/-- The loop over the chunks that `do_discard_input` and `do_bulk_read` end with. -/
def readChunks (amount : Nat) : Input ChunkedInputStream (List UInt8) := do
  let source ← Action.gets fun s => s.derived.source
  let bytes ← consumeChunks (source.length + 1) amount
  if (← Action.gets fun s => s.derived.readArea.windowSize) = 0 then acquireNextChunk
  resetToReadArea
  pure bytes

/-- `do_discard_input`, where `data()` is `consumed` bytes behind the small buffer's first one, or not in
the small buffer at all. -/
def doDiscardInput (consumed : Option Int) (discardAmount : Nat) : Input ChunkedInputStream Unit := do
  if 0 ≤ (← bufferStartNow) then do
    match consumed with
    | none => Action.fail .outOfBounds
    | some consumed => do
      retireSmallBuffer consumed
      let buffered ← size
      if discardAmount < buffered then discardBuffered discardAmount
      else do
        discardBuffered buffered
        let _ ← readChunks discardAmount
  else do
    let _ ← readChunks discardAmount

def doBulkRead (base : InputStream ChunkedInputStream) (readAmount : Nat) :
    Input ChunkedInputStream (List UInt8) := do
  if 0 ≤ (← bufferStartNow) then do
    retireSmallBuffer (← consumedSize)
    bulkRead readAmount
  else readChunks readAmount

/-- What the loop over the chunks has copied where it fails. -/
def chunksCopied : Nat → Nat → InputBuffer ChunkedInputStream → List UInt8
  | 0, _, _ => []
  | rounds + 1, amount, s =>
    match (do
      acquireNextChunk
      let bytes := (← remaining).take amount
      resetTo [] (wrapSub 64 (← inputSizeNow) bytes.length)
      setReadArea (.moveConsumer (toSigned 32 bytes.length))
      pure bytes : Input ChunkedInputStream (List UInt8)) s with
    | (.ok bytes, t) => bytes.take amount ++
      if amount - bytes.length ≠ 0 then chunksCopied rounds (amount - bytes.length) t else []
    | (.error _, _) => []

theorem chunksCopied_length (rounds amount : Nat) (s : InputBuffer ChunkedInputStream) :
    (chunksCopied rounds amount s).length ≤ amount := by
  induction rounds generalizing amount s with
  | zero => exact Nat.zero_le _
  | succ rounds ih =>
    rw [chunksCopied]
    split
    · rename_i bytes t _
      have hrest := ih (amount - bytes.length) t
      split
      · rw [List.length_append, List.length_take]
        omega
      · rw [List.append_nil]
        exact List.length_take_le _ _
    · exact Nat.zero_le _

/-- What `do_bulk_read` has copied where it fails. -/
def doBulkCopied (base : InputStream ChunkedInputStream) (readAmount : Nat) (s : InputBuffer ChunkedInputStream) :
    List UInt8 :=
  if 0 ≤ s.derived.bufferStart then
    match (do retireSmallBuffer (← consumedSize) : Input ChunkedInputStream Unit) s with
    | (.ok (), t) => bulkCopied readAmount t
    | (.error _, _) => []
  else chunksCopied (s.derived.source.length + 1) readAmount s

theorem doBulkCopied_length (base : InputStream ChunkedInputStream) (readAmount : Nat)
    (s : InputBuffer ChunkedInputStream) : (doBulkCopied base readAmount s).length ≤ readAmount := by
  unfold doBulkCopied
  split
  · split
    · exact bulkCopied_length _ _
    · exact Nat.zero_le _
  · exact chunksCopied_length _ _ _

/-- The virtual functions, where they may call each other so many times. `discard_input` has set `data()` to
null before it calls `do_discard_input`. -/
@[reducible] def virtuals : Nat → InputStream ChunkedInputStream
  | 0 => {
    doRequireInput := fun _ => Action.fail .running
    doDiscardInput := fun _ => Action.fail .running
    doBulkRead := fun _ => Action.fail .running}
  | rounds + 1 => {
    doRequireInput := doRequireInput (virtuals rounds)
    doDiscardInput := doDiscardInput none
    doBulkRead := doBulkRead (virtuals rounds)
    doBulkCopied := fun n s => ⟨doBulkCopied (virtuals rounds) n s, doBulkCopied_length _ _ _⟩}

/-- Each call but two acquires a chunk. -/
def rounds (s : InputBuffer ChunkedInputStream) : Nat := s.derived.source.length + 3

instance : InputStream ChunkedInputStream where
  doRequireInput n s := (virtuals (rounds s)).doRequireInput n s
  doDiscardInput n s := (virtuals (rounds s)).doDiscardInput n s
  doBulkRead n s := (virtuals (rounds s)).doBulkRead n s
  doBulkCopied n s := (virtuals (rounds s)).doBulkCopied n s

end ChunkedInputStream

/-- A stream that was just opened, with nothing buffered but an initial read area. -/
def chunkedInput (initialReadArea : List UInt8) (streamSize : Nat)
    (source : List (Except Errc (List UInt8))) :
    InputBuffer ChunkedInputStream :=
  ⟨initialReadArea, streamSize, ⟨.ofSpan initialReadArea, -1,
    List.replicate ChunkedInputStream.smallBufferSize 0, initialReadArea.length, source⟩⟩

end DeepPack
