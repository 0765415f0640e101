import DeepPack.Library.Memory
import DeepPack.Items.ParseCore
import DeepPack.Streams.OutputBuffer

/-! The memory buffer with a window (`legacy/memory_buffer.hpp`), and the streams that
read and write through the window.

Pointers count from the beginning of the allocation. A stream leaves its buffer alone
until it is told to sync; then the window is moved to where the stream's data begins. -/
namespace DeepPack
open Library

/-- `basic_memory_buffer<T>`: what is in front of the window has been consumed. The two sizes are
`unsigned`. -/
@[ext] structure MemoryBuffer where
  /-- The bytes of the allocation. -/
  memory : List UInt8
  windowBegin : Int
  windowSize : Nat
  allocationSize : Nat

namespace MemoryBuffer

/-- The constructor from an allocation and the signed size of what has been consumed of it. -/
def ofMemory (memory : List UInt8) (allocationSize : Nat) (consumed : Int) : MemoryBuffer where
  memory := memory
  windowBegin := consumed % 2 ^ 32
  windowSize := (((allocationSize : Int) - consumed % 2 ^ 32) % 2 ^ 32).toNat
  allocationSize := allocationSize

def consumedBegin (b : MemoryBuffer) : Int := b.windowBegin + b.windowSize - b.allocationSize

def consumedSize (b : MemoryBuffer) : Nat := wrapSub 32 b.allocationSize b.windowSize

def remainingBegin (b : MemoryBuffer) : Int := b.windowBegin

def remainingSize (b : MemoryBuffer) : Nat := b.windowSize

def bufferSize (b : MemoryBuffer) : Nat := b.allocationSize

/-- The bytes `remaining()` spans. -/
def remaining (b : MemoryBuffer) : List UInt8 := (b.memory.drop b.windowBegin.toNat).take b.windowSize

/-- `move_consumer`: the amount is an `int`, and the size is `unsigned`. -/
def moveConsumer (amount : Int) (b : MemoryBuffer) : MemoryBuffer :=
  {b with
    windowBegin := b.windowBegin + amount
    windowSize := (((b.windowSize : Int) - amount) % 2 ^ 32).toNat}

/-- `consume`: as `move_consumer`, and where the window began is returned. -/
def consume (amount : Int) (b : MemoryBuffer) : Int × MemoryBuffer := (b.windowBegin, b.moveConsumer amount)

/-- `move_consumer_to`: the pointer is moved by a difference of `unsigned` sizes. -/
def moveConsumerTo (absoluteOffset : Int) (b : MemoryBuffer) : MemoryBuffer :=
  let newSize := (((b.allocationSize : Int) - absoluteOffset) % 2 ^ 32).toNat
  {b with windowBegin := b.windowBegin + wrapSub 32 b.windowSize newSize, windowSize := newSize}

def reset (b : MemoryBuffer) : MemoryBuffer :=
  {b with
    windowBegin := b.windowBegin + wrapSub 32 b.windowSize b.allocationSize
    windowSize := b.allocationSize}

/-- A window in its allocation: it ends where the allocation does. -/
structure WellFormed (b : MemoryBuffer) : Prop where
  memory_length : b.memory.length = b.allocationSize
  allocation_lt : b.allocationSize < 2 ^ 32
  window_le : b.windowSize ≤ b.allocationSize
  window_end : b.windowBegin + b.windowSize = b.allocationSize

theorem wellFormed_ofMemory {memory : List UInt8} {consumed : Int} (hlen : memory.length < 2 ^ 32)
    (hconsumed : consumed % 2 ^ 32 ≤ memory.length) : (ofMemory memory memory.length consumed).WellFormed := by
  have hpos : 0 ≤ consumed % 2 ^ 32 := Int.emod_nonneg _ (by decide)
  have hwindow : ((memory.length : Int) - consumed % 2 ^ 32) % 2 ^ 32 = memory.length - consumed % 2 ^ 32 :=
    Int.emod_eq_of_lt (by omega) (by omega)
  constructor
  · rfl
  · exact hlen
  · simp only [ofMemory, hwindow]
    omega
  · simp only [ofMemory, hwindow]
    omega

theorem WellFormed.remaining_length {b : MemoryBuffer} (hb : b.WellFormed) : b.remaining.length =
    b.windowSize := by
  have hend := hb.window_end
  have hlen := hb.memory_length
  have hle := hb.window_le
  rw [remaining, List.length_take, List.length_drop, hlen]
  omega

/-- The sync of both streams: `data` is where the stream is, and the way there is narrowed to an `int`. -/
def syncTo (data : Int) (b : MemoryBuffer) : MemoryBuffer :=
  b.moveConsumer (toSigned 32 (data - b.remainingBegin))

/-- What has been consumed grew by `n`, and what remains became `n` shorter. -/
def MovedBy (n : Nat) (b after : MemoryBuffer) : Prop :=
  after.remainingBegin = b.remainingBegin + n ∧ after.remainingSize + n = b.remainingSize ∧
    after.consumedBegin = b.consumedBegin

/-- The window is the same. -/
def SameWindow (b after : MemoryBuffer) : Prop :=
  after.windowBegin = b.windowBegin ∧ after.windowSize = b.windowSize ∧ after.allocationSize = b.allocationSize

/-- The window's size comes out right, however far it is moved. -/
theorem syncTo_forward {b : MemoryBuffer} {n : Nat} (hn : n ≤ b.windowSize) (hsize : b.windowSize < 2 ^ 32) :
    b.syncTo (b.windowBegin + n) =
      {b with windowBegin := b.windowBegin + toSigned 32 n, windowSize := b.windowSize - n} := by
  have hway : b.windowBegin + (n : Int) - b.remainingBegin = n := by
    rw [remainingBegin]
    omega
  have hwindow : ((b.windowSize : Int) - toSigned 32 n) % 2 ^ 32 = b.windowSize - n := by
    rw [sub_toSigned_emod]
    exact Int.emod_eq_of_lt (by omega) (by omega)
  rw [syncTo, hway, moveConsumer, hwindow]
  ext1
  · rfl
  · rfl
  · show ((b.windowSize : Int) - n).toNat = b.windowSize - n
    omega
  · rfl

/-- Its beginning does as long as the way fits an `int`. -/
theorem movedBy_syncTo_iff {b : MemoryBuffer} {n : Nat} (hn : n ≤ b.windowSize) (hsize : b.windowSize < 2 ^ 32) :
    MovedBy n b (b.syncTo (b.windowBegin + n)) ↔ n < 2 ^ 31 := by
  rw [syncTo_forward hn hsize]
  unfold MovedBy remainingBegin remainingSize consumedBegin
  by_cases hfits : n < 2 ^ 31
  · have hexact : toSigned 32 (n : Int) = n := toSigned_natCast (by omega)
    simp only [hexact, hfits, iff_true, true_and]
    omega
  · have hback : toSigned 32 (n : Int) = n - (2 ^ 32 : Nat) := toSigned_of_large (by omega) (by omega)
    simp only [hback, hfits, iff_false]
    omega

/-- A second sync finds the window where the first one left it. -/
theorem syncTo_syncTo (data : Int) (b : MemoryBuffer) : (b.syncTo data).syncTo data = b.syncTo data := by
  have hway : toSigned 32 (data - (b.syncTo data).remainingBegin) = 0 := by
    have hbegin : data - (b.syncTo data).remainingBegin =
        (data - b.remainingBegin) - toSigned 32 (data - b.remainingBegin) := by
      simp only [syncTo, moveConsumer, remainingBegin]
      omega
    have hmod := sub_toSigned_emod 32 (data - b.remainingBegin) (data - b.remainingBegin)
    rw [hbegin, toSigned]
    apply Int.bmod_eq_zero_of_dvd
    apply Int.dvd_of_emod_eq_zero
    simpa using hmod
  have hwindow : (b.syncTo data).windowSize < 2 ^ 32 := by
    have hlt := Int.emod_lt_of_pos ((b.windowSize : Int) - toSigned 32 (data - b.remainingBegin))
      (show (0 : Int) < 2 ^ 32 by decide)
    have hpos := Int.emod_nonneg ((b.windowSize : Int) - toSigned 32 (data - b.remainingBegin))
      (show (2 ^ 32 : Int) ≠ 0 by decide)
    simp only [syncTo, moveConsumer]
    omega
  rw [syncTo, hway]
  generalize b.syncTo data = after at hwindow
  ext1
  · rfl
  · exact Int.add_zero _
  · have hsame : ((after.windowSize : Int) - 0) % 2 ^ 32 = after.windowSize := by
      rw [Int.sub_zero]
      exact Int.emod_eq_of_lt (by omega) (by omega)
    simp only [moveConsumer, hsame, Int.toNat_natCast]
  · rfl

end MemoryBuffer

/-! ### The streams -/

/-- `legacy_memory_input_stream`: the buffer it reads, and `data() + size()`, which nothing moves. -/
structure LegacyMemoryInputStream where
  impl : MemoryBuffer
  bufferEnd : Int

instance : InputStream LegacyMemoryInputStream where
  doRequireInput _ := err .endOfStream
  doDiscardInput _ := err .endOfStream
  doBulkRead _ := err .endOfStream

/-- `legacy_memory_output_stream`: the buffer it writes to, and where its data began. -/
structure LegacyMemoryOutputStream where
  impl : MemoryBuffer
  bufferBegin : Int

instance : OutputStream LegacyMemoryOutputStream where
  doGrow _ := err .endOfStream
  doBulkWrite _ := err .endOfStream

/-- `get_input_buffer`: a stream over the window. -/
def legacyInput (view : MemoryBuffer) : InputBuffer LegacyMemoryInputStream :=
  ⟨view.remaining, view.remainingSize, ⟨view, view.remainingBegin + view.remainingSize⟩⟩

/-- `get_output_buffer`: a stream into the window. -/
def legacyOutput (buffer : MemoryBuffer) : OutputBuffer LegacyMemoryOutputStream :=
  ⟨[], buffer.remaining, ⟨buffer, buffer.remainingBegin⟩⟩

namespace LegacyMemoryInputStream

/-- The pointer `data()`. -/
def data (s : InputBuffer LegacyMemoryInputStream) : Int := s.derived.bufferEnd - s.buffer.length

def syncInput : Input LegacyMemoryInputStream Unit :=
  Action.modify fun s => {s with derived := {s.derived with impl := s.derived.impl.syncTo (data s)}}

theorem syncInput_twice (s : InputBuffer LegacyMemoryInputStream) :
    syncInput (syncInput s).2 = syncInput s := by
  simp only [syncInput, Action.modify, data, MemoryBuffer.syncTo_syncTo]

end LegacyMemoryInputStream

namespace LegacyMemoryOutputStream

/-- The pointer `data()`. -/
def data (s : OutputBuffer LegacyMemoryOutputStream) : Int := s.derived.bufferBegin + s.behind.length

def syncOutput : Output LegacyMemoryOutputStream Unit :=
  Action.modify fun s => {s with derived := {s.derived with impl := s.derived.impl.syncTo (data s)}}

theorem syncOutput_twice (s : OutputBuffer LegacyMemoryOutputStream) :
    syncOutput (syncOutput s).2 = syncOutput s := by
  simp only [syncOutput, Action.modify, data, MemoryBuffer.syncTo_syncTo]

end LegacyMemoryOutputStream

namespace MemoryBuffer
variable {δ α : Type}

/-- `dp::decode(view, value)`: the codec, then a sync if it succeeded. -/
def decode (codecDecode : Parse LegacyMemoryInputStream δ α) : Action Fault (MemoryBuffer × δ) α := fun before =>
  let run := (do
    let value ← codecDecode
    Action.onFst LegacyMemoryInputStream.syncInput
    pure value : Parse LegacyMemoryInputStream δ α) (legacyInput before.1, before.2)
  (run.1, (run.2.1.derived.impl, run.2.2))

/-- `dp::encode(buffer, value)`: the codec, then a sync if it succeeded. What was written stays written. -/
def encode (codecEncode : Output LegacyMemoryOutputStream Unit) : Action Fault MemoryBuffer Unit := fun buffer =>
  let run := (do
    codecEncode
    LegacyMemoryOutputStream.syncOutput : Output LegacyMemoryOutputStream Unit) (legacyOutput buffer)
  (run.1, {run.2.derived.impl with
    memory := buffer.memory.take buffer.windowBegin.toNat ++ run.2.behind ++ run.2.free})

/-! ### What a codec does to the window -/

/-- A codec moves `data()` on and leaves the rest of the stream alone, as the interface of
`input_buffer` lets it. -/
def ReadsThrough (codecDecode : Parse LegacyMemoryInputStream δ α) : Prop :=
  ∀ (view : MemoryBuffer) (d : δ), view.WellFormed →
    (codecDecode (legacyInput view, d)).2.1.derived = (legacyInput view).derived ∧
      (codecDecode (legacyInput view, d)).2.1.buffer <:+ view.remaining

/-- The same for the interface of `output_buffer`. -/
def WritesThrough (codecEncode : Output LegacyMemoryOutputStream Unit) : Prop :=
  ∀ buffer : MemoryBuffer, buffer.WellFormed →
    (codecEncode (legacyOutput buffer)).2.derived = (legacyOutput buffer).derived ∧
      (codecEncode (legacyOutput buffer)).2.behind.length + (codecEncode (legacyOutput buffer)).2.free.length =
        buffer.remainingSize

/-- How far the codec comes in the window. -/
def bytesRead (codecDecode : Parse LegacyMemoryInputStream δ α) (view : MemoryBuffer) (d : δ) : Nat :=
  view.remainingSize - (codecDecode (legacyInput view, d)).2.1.buffer.length

def bytesWritten (codecEncode : Output LegacyMemoryOutputStream Unit) (buffer : MemoryBuffer) : Nat :=
  (codecEncode (legacyOutput buffer)).2.behind.length

/-- On success the window is moved by exactly what was read, and on failure not at all. -/
def DecodeMoves (codecDecode : Parse LegacyMemoryInputStream δ α) (view : MemoryBuffer) (d : δ) : Prop :=
  match decode codecDecode (view, d) with
  | (.ok _, (after, _)) => MovedBy (bytesRead codecDecode view d) view after
  | (.error _, (after, _)) => SameWindow view after

def EncodeMoves (codecEncode : Output LegacyMemoryOutputStream Unit) (buffer : MemoryBuffer) : Prop :=
  match encode codecEncode buffer with
  | (.ok _, after) => MovedBy (bytesWritten codecEncode buffer) buffer after
  | (.error _, after) => SameWindow buffer after

section Moves
variable {codecDecode : Parse LegacyMemoryInputStream δ α} {codecEncode : Output LegacyMemoryOutputStream Unit}
  {b : MemoryBuffer}

theorem decodeMoves_iff (hcodec : ReadsThrough codecDecode) (hb : b.WellFormed) (d : δ) :
    DecodeMoves codecDecode b d ↔
      ((∃ v, (codecDecode (legacyInput b, d)).1 = .ok v) → bytesRead codecDecode b d < 2 ^ 31) := by
  have hthrough := hcodec b d hb
  have hle := hb.window_le
  have hlt := hb.allocation_lt
  unfold DecodeMoves decode bytesRead
  rcases hrun : codecDecode (legacyInput b, d) with ⟨e | v, s, d'⟩
  · rw [hrun] at hthrough
    obtain ⟨hderived, -⟩ : s.derived = (legacyInput b).derived ∧ s.buffer <:+ b.remaining := hthrough
    rw [Action.bind_error _ hrun]
    have hsame : SameWindow b s.derived.impl := by
      rw [hderived]
      exact ⟨rfl, rfl, rfl⟩
    exact ⟨fun _ h => by simp at h, fun _ => hsame⟩
  · rw [hrun] at hthrough
    obtain ⟨hderived, hsuffix⟩ : s.derived = (legacyInput b).derived ∧ s.buffer <:+ b.remaining := hthrough
    have hlen : s.buffer.length ≤ b.windowSize := hb.remaining_length ▸ hsuffix.length_le
    have hend : s.derived.bufferEnd = b.windowBegin + b.windowSize := by
      rw [hderived]
      rfl
    have hdata : LegacyMemoryInputStream.data s = b.windowBegin + (b.windowSize - s.buffer.length : Nat) := by
      rw [LegacyMemoryInputStream.data, hend]
      omega
    have himpl : s.derived.impl = b := by
      rw [hderived]
      rfl
    have hiff := movedBy_syncTo_iff (Nat.sub_le b.windowSize s.buffer.length) (show b.windowSize < 2 ^ 32 by omega)
    rw [← hdata] at hiff
    rw [Action.bind_ok _ hrun]
    show MovedBy (b.windowSize - s.buffer.length) b (s.derived.impl.syncTo (LegacyMemoryInputStream.data s)) ↔
      ((∃ w, Except.ok v = Except.ok w) → b.windowSize - s.buffer.length < 2 ^ 31)
    rw [himpl, hiff]
    simp

theorem encodeMoves_iff (hcodec : WritesThrough codecEncode) (hb : b.WellFormed) :
    EncodeMoves codecEncode b ↔
      ((codecEncode (legacyOutput b)).1 = .ok () → bytesWritten codecEncode b < 2 ^ 31) := by
  have hthrough := hcodec b hb
  have hle := hb.window_le
  have hlt := hb.allocation_lt
  unfold EncodeMoves encode bytesWritten
  rcases hrun : codecEncode (legacyOutput b) with ⟨e | v, s⟩
  · rw [hrun] at hthrough
    obtain ⟨hderived, -⟩ : s.derived = (legacyOutput b).derived ∧ s.behind.length + s.free.length = b.windowSize :=
      hthrough
    rw [Action.bind_error _ hrun]
    have hsame : SameWindow b s.derived.impl := by
      rw [hderived]
      exact ⟨rfl, rfl, rfl⟩
    exact ⟨fun _ h => by simp at h, fun _ => hsame⟩
  · rw [hrun] at hthrough
    obtain ⟨hderived, hlen⟩ : s.derived = (legacyOutput b).derived ∧ s.behind.length + s.free.length =
      b.windowSize :=
      hthrough
    have hdata : LegacyMemoryOutputStream.data s = b.windowBegin + (s.behind.length : Nat) := by
      rw [LegacyMemoryOutputStream.data, hderived]
      rfl
    have himpl : s.derived.impl = b := by
      rw [hderived]
      rfl
    have hiff := movedBy_syncTo_iff (b := b) (show s.behind.length ≤ b.windowSize by omega)
      (show b.windowSize < 2 ^ 32 by omega)
    rw [← hdata] at hiff
    rw [Action.bind_ok _ hrun]
    show MovedBy s.behind.length b (s.derived.impl.syncTo (LegacyMemoryOutputStream.data s)) ↔
      (Except.ok v = Except.ok () → s.behind.length < 2 ^ 31)
    rw [himpl, hiff]
    simp

end Moves
end MemoryBuffer
end DeepPack
