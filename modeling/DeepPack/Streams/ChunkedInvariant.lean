import DeepPack.Streams.ChunkedInputStream

/-! The states of a stream over chunks.

The bytes a state has acquired and not consumed are buffered where they are, or remnants are
fused with the read area. Each step of the virtual functions is a step between such states,
whatever the source has to give. A state `Holds` these bytes and the chunks to come if they
are counted: requiring input moves bytes from the chunks to those held, reading takes them
off the front, and what is buffered starts the bytes that are held. -/
namespace DeepPack
open Library InputBuffer

namespace MemoryView
variable {memory bytes : List UInt8} {v : MemoryView}

theorem ofSpan_eq (h : memory.length < 2 ^ 32) : ofSpan memory = ⟨memory, 0, memory.length⟩ := by
  rw [ofSpan, Nat.mod_eq_of_lt h]

theorem remaining_ofSpan (h : memory.length < 2 ^ 32) : (ofSpan memory).remaining = some memory := by
  rw [ofSpan_eq h, remaining, if_pos ⟨le_rfl, by dsimp only; omega⟩]
  simp

theorem windowSize_of_remaining (h : v.remaining = some bytes) : v.windowSize = bytes.length := by
  rw [remaining] at h
  split at h
  · rename_i hin
    cases h
    rw [List.length_take, List.length_drop]
    omega
  · cases h

/-- What is consumed of the window is dropped off its front. -/
theorem remaining_moveConsumer (h : v.remaining = some bytes) (hbytes : bytes.length < 2 ^ 32) {k : Nat}
    (hk : k ≤ bytes.length) : (v.moveConsumer k).remaining = some (bytes.drop k) := by
  have hsize := windowSize_of_remaining h
  rw [remaining] at h
  split at h
  · rename_i hin
    have hwindow : (((v.windowSize : Int) - k) % 2 ^ 32).toNat = v.windowSize - k := by
      rw [Int.emod_eq_of_lt (by omega) (by omega)]
      omega
    rw [moveConsumer, remaining, hwindow, if_pos (by dsimp only; omega)]
    cases h
    have hbegin : (v.windowBegin + (k : Int)).toNat = v.windowBegin.toNat + k := by omega
    rw [hbegin, List.drop_take, List.drop_drop]
  · cases h

/-- However much is consumed, the size of the window is right. -/
theorem windowSize_moveConsumer {memory : List UInt8} {k : Nat} (hmemory : memory.length < 2 ^ 32)
    (hk : k ≤ memory.length) :
    ((ofSpan memory).moveConsumer (toSigned 32 k)).windowSize = memory.length - k := by
  rw [ofSpan_eq hmemory, moveConsumer, sub_toSigned_emod, Int.emod_eq_of_lt (by dsimp only; omega)
    (by dsimp only; omega)]
  dsimp only
  omega

end MemoryView

namespace ChunkedInputStream

/-- No chunk is empty, and their sizes are 32 bit words. -/
def AreChunks (chunks : List (List UInt8)) : Prop := ∀ c ∈ chunks, c ≠ [] ∧ c.length < 2 ^ 32

instance (chunks : List (List UInt8)) : Decidable (AreChunks chunks) :=
  inferInstanceAs (Decidable (∀ c ∈ chunks, c ≠ [] ∧ c.length < 2 ^ 32))

/-- So many bytes are left, of which those in the chunks to come are known to be the last. -/
structure Counted (s : InputBuffer ChunkedInputStream) (held : List UInt8) (pending : List (List UInt8)) :
    Prop where
  chunks : AreChunks pending
  source : s.derived.source = pending.map .ok
  small : s.derived.smallBuffer.length = smallBufferSize
  inputSize : s.inputSize = held.length + pending.flatten.length
  fits : s.inputSize < wordLimit

/-- What was acquired is buffered where it is. -/
structure InPlace (s : InputBuffer ChunkedInputStream) (held : List UInt8) : Prop where
  small : s.derived.smallBuffer.length = smallBufferSize
  start : s.derived.bufferStart = -1
  buffer : s.buffer = held

/-- Remnants are fused with the read area: the small buffer has them in front of what it has of that, and so much of
it was consumed. -/
structure Fusing (s : InputBuffer ChunkedInputStream) (consumed : Nat) (remnants area held : List UInt8) :
    Prop where
  small : s.derived.smallBuffer.length = smallBufferSize
  start : s.derived.bufferStart = remnants.length
  readArea : s.derived.readArea.remaining = some area
  area_lt : area.length < 2 ^ 32
  remnants_le : remnants.length ≤ s.derived.extent
  extent_le : s.derived.extent ≤ (remnants ++ area).length
  extent_small : s.derived.extent ≤ smallBufferSize
  fused : s.derived.smallBuffer.take s.derived.extent = (remnants ++ area).take s.derived.extent
  consumed_le : consumed + s.buffer.length = s.derived.extent
  buffer : s.buffer = ((remnants ++ area).take s.derived.extent).drop consumed
  held_eq : held = (remnants ++ area).drop consumed

/-- The small buffer is not in use. -/
structure Plain (s : InputBuffer ChunkedInputStream) (held : List UInt8) (pending : List (List UInt8)) : Prop
    extends Counted s held pending, InPlace s held

/-- The small buffer is in use. -/
structure Fused (s : InputBuffer ChunkedInputStream) (consumed : Nat) (remnants area held : List UInt8)
    (pending : List (List UInt8)) : Prop
    extends Counted s held pending, Fusing s consumed remnants area held

/-- What is acquired and not consumed, and what is to come. -/
def Holds (s : InputBuffer ChunkedInputStream) (held : List UInt8) (pending : List (List UInt8)) : Prop :=
  Plain s held pending ∨ ∃ consumed remnants area, Fused s consumed remnants area held pending

/-- What was acquired and not consumed. -/
def Located (s : InputBuffer ChunkedInputStream) (held : List UInt8) : Prop :=
  InPlace s held ∨ ∃ consumed remnants area, Fusing s consumed remnants area held

/-- As much is left of the input, and the source has the same to give. -/
def SameInput (s t : InputBuffer ChunkedInputStream) : Prop :=
  t.inputSize = s.inputSize ∧ t.derived.source = s.derived.source

/-- So many bytes less are left, of those that are held. -/
def Spent (k : Nat) (s t : InputBuffer ChunkedInputStream) : Prop :=
  t.inputSize + k = s.inputSize ∧ t.derived.source = s.derived.source

variable {s t u : InputBuffer ChunkedInputStream} {held remnants area chunk : List UInt8}
  {pending : List (List UInt8)}
  {source : List (Except Errc (List UInt8))} {consumed n : Nat}

theorem Fusing.buffer_starts (h : Fusing s consumed remnants area held) : s.buffer <+: held := by
  have hlen : ((remnants ++ area).take s.derived.extent).length = s.derived.extent :=
    List.length_take_of_le h.extent_le
  rw [h.buffer, h.held_eq]
  conv_rhs => rw [← List.take_append_drop s.derived.extent (remnants ++ area)]
  rw [List.drop_append_of_le_length (by rw [hlen, ← h.consumed_le]; exact Nat.le_add_right _ _)]
  exact List.prefix_append _ _

theorem Located.buffer_starts (h : Located s held) : s.buffer <+: held := by
  rcases h with h | ⟨consumed, remnants, area, h⟩
  · exact h.buffer ▸ List.prefix_refl _
  · exact h.buffer_starts

theorem Located.small (h : Located s held) : s.derived.smallBuffer.length = smallBufferSize := by
  rcases h with h | ⟨consumed, remnants, area, h⟩
  · exact h.small
  · exact h.small

/-! ### Steps -/

theorem InPlace.bufferStart_eq (h : InPlace s held) : bufferStartNow s = (.ok (-1), s) := by
  rw [bufferStartNow, Action.gets, h.start]

theorem Fusing.bufferStart_eq (h : Fusing s consumed remnants area held) :
    bufferStartNow s = (.ok (remnants.length : Int), s) := by
  rw [bufferStartNow, Action.gets, h.start]

theorem Fusing.consumedSize_eq (h : Fusing s consumed remnants area held) :
    consumedSize s = (.ok (consumed : Int), s) := by
  have hdiff : (s.derived.extent : Int) - s.buffer.length = consumed := by
    have hconsumed := h.consumed_le
    omega
  rw [consumedSize, Action.gets, hdiff]

theorem resetToReadArea_eq {bytes : List UInt8} (h : s.derived.readArea.remaining = some bytes) :
    resetToReadArea s = (.ok (), ⟨bytes, s.inputSize, {s.derived with extent := bytes.length}⟩) := by
  have hremaining : remaining s = (.ok bytes, s) := by rw [remaining, h]
  exact (Action.bind_ok _ hremaining).trans rfl

theorem resetToReadArea_out (h : s.derived.readArea.remaining = none) :
    resetToReadArea s = (.error .outOfBounds, s) := by
  have hremaining : remaining s = (.error .outOfBounds, s) := by rw [remaining, h]
  exact Action.bind_error _ hremaining

theorem smallSpan_eq {i k : Nat} (h : i + k ≤ s.derived.smallBuffer.length) :
    smallSpan i k s = (.ok ((s.derived.smallBuffer.drop i).take k), s) := by
  rw [smallSpan, if_pos ⟨by omega, by omega, by omega⟩, Int.toNat_natCast, Int.toNat_natCast]

theorem resetToSmallBuffer_eq (h : n ≤ s.derived.smallBuffer.length) :
    resetToSmallBuffer n s = (.ok (),
    ⟨s.derived.smallBuffer.take n, s.inputSize, {s.derived with extent := n}⟩) := by
  have hspan : smallSpan 0 n s = (.ok (s.derived.smallBuffer.take n), s) := by
    have hspan := smallSpan_eq (s := s) (i := 0) (k := n) (by omega)
    rwa [List.drop_zero] at hspan
  apply (Action.bind_ok _ hspan).trans
  have hlen : (s.derived.smallBuffer.take n).length = n := List.length_take_of_le h
  show (Except.ok (),
    (⟨_, _, {s.derived with extent := (s.derived.smallBuffer.take n).length}⟩ : InputBuffer _)) = _
  rw [hlen]

theorem copyToSmallBuffer_eq {i : Nat} {bytes : List UInt8}
    (h : i + bytes.length ≤ s.derived.smallBuffer.length) :
    copyToSmallBuffer i bytes s =
      (.ok (), {s with derived := {s.derived with smallBuffer := overwrite i bytes s.derived.smallBuffer}}) := by
  rw [copyToSmallBuffer, if_pos ⟨by omega, by omega⟩, Int.toNat_natCast]

/-- A chunk is cut off where the stream ends. -/
theorem acquireNextChunk_cut (hsource : s.derived.source = .ok chunk :: source) (hchunk : chunk.length < 2 ^ 32) :
    acquireNextChunk s =
      (.ok (), {s with derived := {s.derived with readArea := .ofSpan (chunk.take s.inputSize), source}}) := by
  have himpl : acquireNextChunkImpl s = (.ok (.ofSpan chunk), {s with derived := {s.derived with source}}) := by
    rw [acquireNextChunkImpl, hsource]
  have hset : setReadArea (fun _ => .ofSpan chunk) {s with derived := {s.derived with source}} =
      (.ok (), {s with derived := {s.derived with readArea := .ofSpan chunk, source}}) := rfl
  apply (Action.bind_ok _ himpl).trans
  apply (Action.bind_ok _ hset).trans
  rw [inputSizeNow, Action.gets_bind_apply, MemoryView.ofSpan_eq hchunk]
  by_cases hcut : s.inputSize < chunk.length
  · have hremaining : remaining {s with derived := {s.derived with readArea := ⟨chunk, 0, chunk.length⟩, source}} =
        (.ok chunk, {s with derived := {s.derived with readArea := ⟨chunk, 0, chunk.length⟩, source}}) := by
      rw [remaining, ← MemoryView.ofSpan_eq hchunk, MemoryView.remaining_ofSpan hchunk]
    rw [if_pos hcut, Action.bind_ok _ hremaining]
    rfl
  · rw [if_neg hcut, List.take_of_length_le (Nat.le_of_not_lt hcut), MemoryView.ofSpan_eq hchunk]
    rfl

theorem acquireNextChunk_eq (hsource : s.derived.source = .ok chunk :: source) (hchunk : chunk.length < 2 ^ 32)
    (hsize : chunk.length ≤ s.inputSize) :
    acquireNextChunk s = (.ok (), {s with derived := {s.derived with readArea := .ofSpan chunk, source}}) := by
  rw [acquireNextChunk_cut hsource hchunk, List.take_of_length_le hsize]

theorem acquireNextChunk_error {e : Errc} (hsource : s.derived.source = .error e :: source) :
    acquireNextChunk s = (.error (.errc e), {s with derived := {s.derived with source}}) := by
  have himpl : acquireNextChunkImpl s = (.error (.errc e), {s with derived := {s.derived with source}}) := by
    rw [acquireNextChunkImpl, hsource]
  exact Action.bind_error _ himpl

/-- Behind the last chunk the stream ends. -/
theorem acquireNextChunk_end (hsource : s.derived.source = []) :
    acquireNextChunk s = (.error (.errc .endOfStream), s) := by
  have himpl : acquireNextChunkImpl s = (.error (.errc .endOfStream), s) := by
    rw [acquireNextChunkImpl, hsource]
  exact Action.bind_error _ himpl

theorem toSigned_marker {k : Int} (hle : 0 ≤ k) (hk : k ≤ smallBufferSize) : toSigned 8 k = k := by
  have hsize : smallBufferSize = 78 := rfl
  exact toSigned_of_fits (by omega) (by omega)

theorem saveRemaining_eq (hstart : s.derived.bufferStart = 0)
    (hsmall : s.derived.smallBuffer.length = smallBufferSize)
    (hlen : s.buffer.length ≤ smallBufferSize) :
    saveRemainingToSmallBuffer s = (.ok (), {s with derived := {s.derived with
      bufferStart := s.buffer.length
      smallBuffer := overwrite 0 s.buffer s.derived.smallBuffer
      extent := s.buffer.length}}) := by
  have hle : 0 + s.buffer.length ≤ s.derived.smallBuffer.length := by omega
  have hcopy : copyToSmallBuffer 0 s.buffer s = _ := copyToSmallBuffer_eq hle
  have hmarker : toSigned 8 (s.derived.bufferStart + toSigned 8 s.buffer.length) = s.buffer.length := by
    have hlength : toSigned 8 s.buffer.length = s.buffer.length := toSigned_marker (by omega) (by omega)
    rw [hstart, Int.zero_add, hlength, hlength]
  rw [saveRemainingToSmallBuffer, Action.gets_bind_apply, Action.bind_ok _ hcopy, bufferStartNow,
    Action.gets_bind_apply,
    setBufferStart, Action.modify_bind_apply, hmarker, resetToSmallBuffer_eq]
  · dsimp only
    rw [overwrite_front]
  · dsimp only
    rwa [overwrite_length hle, hsmall]

/-- What is buffered becomes the remnants, with the next chunk as read area. -/
theorem InPlace.save (h : InPlace s held) (hlen : held.length ≤ smallBufferSize)
    (hsource : s.derived.source = .ok chunk :: source) (hchunk : chunk.length < 2 ^ 32)
    (hsize : chunk.length ≤ s.inputSize) :
    ∃ t, Fusing t 0 held chunk (held ++ chunk) ∧ t.inputSize = s.inputSize ∧ t.derived.source = source ∧
      t.buffer.length = held.length ∧ ∀ f : Input ChunkedInputStream Unit,
        (do setBufferStart 0; saveRemainingToSmallBuffer; acquireNextChunk; f :
        Input ChunkedInputStream Unit) s = f t := by
  obtain ⟨hsmall, hstart, rfl⟩ := h
  have hsave := saveRemaining_eq (s := {s with derived := {s.derived with bufferStart := 0}}) rfl hsmall hlen
  have hacquire := acquireNextChunk_eq (s := {s with derived := {s.derived with
    bufferStart := s.buffer.length
    smallBuffer := overwrite 0 s.buffer s.derived.smallBuffer
    extent := s.buffer.length}}) hsource hchunk hsize
  have hle : 0 + s.buffer.length ≤ s.derived.smallBuffer.length := by omega
  refine ⟨{s with derived := {s.derived with
    bufferStart := s.buffer.length
    smallBuffer := overwrite 0 s.buffer s.derived.smallBuffer
    extent := s.buffer.length
    readArea := .ofSpan chunk
    source}}, ?_, rfl, rfl, rfl, fun f => ?_⟩
  rotate_left
  · rw [setBufferStart, Action.modify_bind_apply, Action.bind_ok _ hsave, Action.bind_ok _ hacquire]
  constructor
  · exact (overwrite_length hle).trans hsmall
  · rfl
  · exact MemoryView.remaining_ofSpan hchunk
  · exact hchunk
  · exact Nat.le_refl _
  · exact List.length_append ▸ Nat.le_add_right _ _
  · exact hlen
  · exact (overwrite_front s.buffer _).trans List.take_left.symm
  · exact Nat.zero_add _
  · exact List.take_left.symm
  · rfl

/-- The small buffer is filled up from the read area. -/
theorem Fusing.append (h : Fusing s 0 remnants area held) (hlen : s.buffer.length = remnants.length) :
    appendCurrentToSmallBuffer.Achieves s fun _ t =>
      Fusing t 0 remnants area held ∧ SameInput s t ∧ t.buffer.length = min held.length smallBufferSize := by
  obtain ⟨hsmall, hstart, harea, harealt, -, -, hextentsmall, hfused, hconsumed, -, rfl⟩ := h
  rw [Nat.zero_add] at hconsumed
  rw [← hconsumed, hlen] at hextentsmall hfused
  rw [List.take_left] at hfused
  have hremaining : remaining s = (.ok area, s) := by rw [remaining, harea]
  have hroom : wrapSub 64 smallBufferSize s.buffer.length = smallBufferSize - remnants.length := by
    rw [hlen, wrapSub_of_le hextentsmall (by decide)]
  generalize hchunk : area.take (smallBufferSize - remnants.length) = chunk
  have hchunklen : chunk.length = min (smallBufferSize - remnants.length) area.length := by
    rw [← hchunk, List.length_take]
  have hle : remnants.length + chunk.length ≤ s.derived.smallBuffer.length := by omega
  have hcopy := copyToSmallBuffer_eq hle
  have hfront := overwrite_take chunk (show remnants.length ≤ s.derived.smallBuffer.length by omega)
  rw [hfused] at hfront
  have hall : (remnants ++ area).take (remnants.length + chunk.length) = remnants ++ chunk := by
    rw [List.take_length_add_append, hchunklen, ← List.take_eq_take_min, hchunk]
  refine ⟨(), ⟨remnants ++ chunk, s.inputSize, {s.derived with
    smallBuffer := overwrite remnants.length chunk s.derived.smallBuffer
    extent := remnants.length + chunk.length}⟩, ?_, ?_, ⟨rfl, rfl⟩, ?_⟩
  · rw [appendCurrentToSmallBuffer, size, Action.gets_bind_apply, Action.bind_ok _ hremaining, hroom, hchunk,
      bufferStartNow, Action.gets_bind_apply, hstart, Action.bind_ok _ hcopy, hlen, ← Int.natCast_add,
      resetToSmallBuffer_eq]
    · dsimp only
      rw [hfront]
    · dsimp only
      rwa [overwrite_length hle]
  · constructor
    · exact (overwrite_length hle).trans hsmall
    · exact hstart
    · exact harea
    · exact harealt
    · exact Nat.le_add_right _ _
    · rw [List.length_append]
      dsimp only
      omega
    · dsimp only
      omega
    · exact hfront.trans hall.symm
    · dsimp only
      rw [List.length_append, Nat.zero_add]
    · exact hall.symm
    · rfl
  · rw [List.drop_zero, List.length_append, List.length_append]
    omega

/-- The remnants go to the front of the small buffer. -/
theorem Fusing.toFront (h : Fusing s consumed remnants area held) (hle : consumed ≤ remnants.length) :
    moveSmallBufferContentToFront.Achieves s fun _ t => Fusing t 0 (remnants.drop consumed) area held ∧
      SameInput s t ∧ t.buffer.length = remnants.length - consumed := by
  have hcount := h.consumedSize_eq
  obtain ⟨hsmall, hstart, harea, harealt, hremnants, -, hextentsmall, hfused, hconsumed, -, rfl⟩ := h
  have hmarker : toSigned 8 (s.derived.bufferStart - toSigned 8 consumed) =
      (remnants.length - consumed : Nat) := by
    rw [hstart, toSigned_marker (k := consumed) (by omega) (by omega), ← Int.ofNat_sub hle, toSigned_marker]
    · exact Int.natCast_nonneg _
    · omega
  -- the bytes moved are those of the remnants that are left
  have hmoved : (s.derived.smallBuffer.drop consumed).take (remnants.length - consumed) =
      remnants.drop consumed := by
    rw [← List.drop_take, ← Nat.min_eq_left hremnants, ← List.take_take, hfused, List.take_take,
      Nat.min_eq_left hremnants, List.take_left]
  have hlen : (remnants.drop consumed).length = remnants.length - consumed := List.length_drop
  have hle' : 0 + (remnants.drop consumed).length ≤ s.derived.smallBuffer.length := by omega
  have hspan := smallSpan_eq
    (s := {s with derived := {s.derived with bufferStart := (remnants.length - consumed : Nat)}})
    (i := consumed) (k := remnants.length - consumed) (by dsimp only; omega)
  have hcopy : copyToSmallBuffer 0 (remnants.drop consumed)
      {s with derived := {s.derived with bufferStart := (remnants.length - consumed : Nat)}} = _ :=
        copyToSmallBuffer_eq hle'
  dsimp only at hspan
  rw [hmoved] at hspan
  have hfront := overwrite_front (remnants.drop consumed) s.derived.smallBuffer
  rw [hlen] at hfront
  refine ⟨(), ⟨remnants.drop consumed, s.inputSize, {s.derived with
    bufferStart := (remnants.length - consumed : Nat)
    smallBuffer := overwrite 0 (remnants.drop consumed) s.derived.smallBuffer
    extent := remnants.length - consumed}⟩, ?_, ?_, ⟨rfl, rfl⟩, ?_⟩
  · rw [moveSmallBufferContentToFront, Action.bind_ok _ hcount, bufferStartNow, Action.gets_bind_apply, hmarker,
      setBufferStart, Action.modify_bind_apply, Action.bind_ok _ hspan, Action.bind_ok _ hcopy,
      resetToSmallBuffer_eq]
    · dsimp only
      rw [hfront]
    · dsimp only
      rw [overwrite_length hle']
      omega
  · constructor
    · exact (overwrite_length hle').trans hsmall
    · exact congrArg Nat.cast hlen.symm
    · exact harea
    · exact harealt
    · exact hlen.le
    · rw [List.length_append, hlen]
      exact Nat.le_add_right _ _
    · dsimp only
      omega
    · dsimp only
      rw [hfront, ← hlen, List.take_left]
    · dsimp only
      rw [Nat.zero_add, hlen]
    · dsimp only
      rw [← hlen, List.take_left, List.drop_zero]
    · rw [List.drop_append_of_le_length hle, List.drop_zero]
  · exact hlen

/-- All of the read area became remnants, and the next chunk is the read area. -/
theorem Fusing.acquire (h : Fusing s 0 remnants area held) (hlen : s.buffer.length = held.length)
    (hsource : s.derived.source = .ok chunk :: source) (hchunk : chunk.length < 2 ^ 32)
    (hsize : chunk.length ≤ s.inputSize) :
    ∃ t, Fusing t 0 held chunk (held ++ chunk) ∧ t.inputSize = s.inputSize ∧ t.derived.source = source ∧
      t.buffer.length = held.length ∧ ∀ f : Input ChunkedInputStream Unit,
        (do setBufferStart (toSigned 8 (← size)); setReadArea .reset; acquireNextChunk; f :
          Input ChunkedInputStream Unit) s = f t := by
  obtain ⟨hsmall, hstart, harea, harealt, -, -, hextentsmall, hfused, hconsumed, hbuffer, rfl⟩ := h
  rw [Nat.zero_add] at hconsumed
  rw [List.drop_zero] at hbuffer hlen ⊢
  have hmarker : toSigned 8 s.buffer.length = s.buffer.length := toSigned_marker (by omega) (by omega)
  have hacquire := acquireNextChunk_eq (s := {s with derived := {s.derived with
    bufferStart := s.buffer.length
    readArea := s.derived.readArea.reset}}) hsource hchunk hsize
  have hall : s.buffer = remnants ++ area := by
    rw [hbuffer, ← hconsumed, hlen, List.take_length]
  refine ⟨{s with derived := {s.derived with
    bufferStart := s.buffer.length
    readArea := .ofSpan chunk
    source}}, ?_, rfl, rfl, hlen, fun f => ?_⟩
  rotate_left
  · rw [size, Action.gets_bind_apply, hmarker, setBufferStart, Action.modify_bind_apply, setReadArea,
      Action.modify_bind_apply]
    exact Action.bind_ok _ hacquire
  constructor
  · exact hsmall
  · exact congrArg Nat.cast hlen
  · exact MemoryView.remaining_ofSpan hchunk
  · exact hchunk
  · dsimp only
    omega
  · rw [List.length_append]
    dsimp only
    omega
  · exact hextentsmall
  · dsimp only
    rw [hfused, ← hconsumed, hlen, List.take_length, List.take_left]
  · exact (Nat.zero_add _).trans hconsumed
  · dsimp only
    rw [← hconsumed, hlen, List.take_left, List.drop_zero, hall]
  · rfl

/-- Without remnants, what is left of the read area is buffered where it is. -/
theorem Fusing.retire (h : Fusing s consumed remnants area held) (hge : remnants.length ≤ consumed) :
    (retireSmallBuffer consumed).Achieves s fun _ t => InPlace t held ∧ SameInput s t := by
  obtain ⟨hsmall, hstart, harea, harealt, -, hextentle, -, -, hconsumed, -, rfl⟩ := h
  have hle : consumed - remnants.length ≤ area.length := by
    rw [List.length_append] at hextentle
    omega
  have hheld : (remnants ++ area).drop consumed = area.drop (consumed - remnants.length) := by
    rw [List.drop_append, List.drop_eq_nil_of_le hge, List.nil_append]
  have hremaining := MemoryView.remaining_moveConsumer harea harealt hle
  rw [Int.ofNat_sub hge] at hremaining
  rw [retireSmallBuffer, bufferStartNow, Action.Achieves, Action.gets_bind_apply, hstart, ← Action.Achieves]
  refine .step (a := ()) rfl (.step (a := ()) rfl ⟨(), _, resetToReadArea_eq hremaining, ?_, ⟨rfl, rfl⟩⟩)
  exact ⟨hsmall, rfl, hheld.symm⟩

/-! ### Consuming what is buffered -/

/-- So many bytes further in what is buffered. -/
def advanced (k : Nat) (s : InputBuffer ChunkedInputStream) : InputBuffer ChunkedInputStream :=
  {s with buffer := s.buffer.drop k, inputSize := wrapSub 64 s.inputSize k}

theorem InPlace.ahead {k : Nat} (h : InPlace s held) : InPlace (advanced k s) (held.drop k) :=
  ⟨h.small, h.start, congrArg (List.drop k) h.buffer⟩

theorem Fusing.ahead {k : Nat} (h : Fusing s consumed remnants area held) (hk : k ≤ s.buffer.length) :
    Fusing (advanced k s) (consumed + k) remnants area (held.drop k) := by
  have hconsumed := h.consumed_le
  constructor
  · exact h.small
  · exact h.start
  · exact h.readArea
  · exact h.area_lt
  · exact h.remnants_le
  · exact h.extent_le
  · exact h.extent_small
  · exact h.fused
  · show consumed + k + (s.buffer.drop k).length = s.derived.extent
    rw [List.length_drop]
    omega
  · exact (congrArg (List.drop k) h.buffer).trans List.drop_drop
  · rw [h.held_eq, List.drop_drop]

theorem Located.ahead {k : Nat} (h : Located s held) (hk : k ≤ s.buffer.length) :
    Located (advanced k s) (held.drop k) := by
  rcases h with h | ⟨consumed, remnants, area, h⟩
  · exact .inl h.ahead
  · exact .inr ⟨consumed + k, remnants, area, h.ahead hk⟩

theorem discardBuffered_eq {k : Nat} (hk : k ≤ s.buffer.length) :
    discardBuffered k s = (.ok (), advanced k s) := by
  rw [discardBuffered, if_pos hk]
  rfl

theorem spent_advanced {k : Nat} (hk : k ≤ s.inputSize) (hfits : s.inputSize < wordLimit) :
    Spent k s (advanced k s) := by
  have hwrap : wrapSub 64 s.inputSize k = s.inputSize - k := wrapSub_of_le hk hfits
  refine ⟨?_, rfl⟩
  show wrapSub 64 s.inputSize k + k = _
  rw [hwrap]
  exact Nat.sub_add_cancel hk

theorem Spent.same {k : Nat} (h : Spent k s t) (hsame : SameInput t u) : Spent k s u :=
  ⟨hsame.1 ▸ h.1, hsame.2.trans h.2⟩

theorem Spent.trans {k m : Nat} (h : Spent k s t) (hu : Spent m t u) : Spent (k + m) s u := by
  refine ⟨?_, hu.2.trans h.2⟩
  rw [← h.1, ← hu.1]
  omega

/-! ### Counted states -/

theorem Plain.of_inPlace (hcounted : Counted s held pending) (h : InPlace s held) : Plain s held pending :=
  ⟨hcounted, h.start, h.buffer⟩

theorem Fused.of_fusing (hcounted : Counted s held pending) (h : Fusing s consumed remnants area held) :
    Fused s consumed remnants area held pending :=
  ⟨hcounted, h.start, h.readArea, h.area_lt, h.remnants_le, h.extent_le, h.extent_small, h.fused, h.consumed_le,
    h.buffer, h.held_eq⟩

theorem holds_iff : Holds s held pending ↔ Counted s held pending ∧ Located s held := by
  constructor
  · intro h
    rcases h with h | ⟨consumed, remnants, area, h⟩
    · exact ⟨h.toCounted, .inl h.toInPlace⟩
    · exact ⟨h.toCounted, .inr ⟨consumed, remnants, area, h.toFusing⟩⟩
  · intro h
    obtain ⟨hcounted, h | ⟨consumed, remnants, area, h⟩⟩ := h
    · exact .inl (.of_inPlace hcounted h)
    · exact .inr ⟨consumed, remnants, area, .of_fusing hcounted h⟩

theorem Holds.counted (h : Holds s held pending) : Counted s held pending := (holds_iff.mp h).1

theorem Holds.buffer_starts (h : Holds s held pending) : s.buffer <+: held := (holds_iff.mp h).2.buffer_starts

theorem Counted.same (h : Counted s held pending) (hsame : SameInput s t)
    (hsmall : t.derived.smallBuffer.length = smallBufferSize) : Counted t held pending :=
  ⟨h.chunks, hsame.2.trans h.source, hsmall, hsame.1.trans h.inputSize, hsame.1.trans_lt h.fits⟩

theorem Counted.spend {k : Nat} (h : Counted s held pending) (hk : k ≤ held.length) (hspent : Spent k s t)
    (hsmall : t.derived.smallBuffer.length = smallBufferSize) : Counted t (held.drop k) pending := by
  obtain ⟨hsize, hsource⟩ := hspent
  have hcount := h.inputSize
  have hfits := h.fits
  refine ⟨h.chunks, hsource.trans h.source, hsmall, ?_, ?_⟩
  · rw [List.length_drop]
    omega
  · omega

theorem Counted.ahead {k : Nat} (h : Counted s held pending) (hk : k ≤ held.length) :
    Counted (advanced k s) (held.drop k) pending := by
  have hsize := h.inputSize
  exact h.spend hk (spent_advanced (by omega) h.fits) h.small

theorem Plain.ahead {k : Nat} (h : Plain s held pending) (hk : k ≤ s.buffer.length) :
    Plain (advanced k s) (held.drop k) pending :=
  .of_inPlace (h.toCounted.ahead (h.buffer ▸ hk)) h.toInPlace.ahead

theorem Holds.ahead {k : Nat} (h : Holds s held pending) (hk : k ≤ s.buffer.length) :
    Holds (advanced k s) (held.drop k) pending :=
  holds_iff.mpr ⟨h.counted.ahead (hk.trans h.buffer_starts.length_le), (holds_iff.mp h).2.ahead hk⟩

end ChunkedInputStream
end DeepPack
