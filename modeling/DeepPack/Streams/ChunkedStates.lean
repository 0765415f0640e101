import DeepPack.Streams.ChunkedOutputStream

/-! Where the bytes are that were written to a stream into chunks.

They are in the current chunk (`OnChunk`), or what was spilled of them is in the small buffer
(`OnSmall`): written through the buffer, settled there (`InSmall`), or `Across` the end of the
current chunk. None of this depends on the chunks to come. -/
namespace DeepPack
open Library OutputBuffer

namespace ChunkedOutputStream

/-- The current chunk is written to, or it is full, and `base` is in front of it. -/
structure OnChunk (s : OutputBuffer ChunkedOutputStream) (base out : List UInt8) : Prop where
  marker : s.derived.decomissionThreshold = -1
  spans : (∃ i, s.derived.window = .chunk i ∧
    i + (s.behind ++ s.free).length = s.derived.currentChunk.length ∧
      out = base ++ s.derived.currentChunk.take i ++ s.behind) ∨
    (s.derived.window = .nowhere ∧ s.free = [] ∧ out = base ++ s.derived.currentChunk)

/-- A part of the small buffer belongs to the end of the current chunk, and its length fits in a signed byte. -/
structure Marked (s : OutputBuffer ChunkedOutputStream) (threshold : Nat) : Prop where
  small : s.derived.smallBuffer.length = smallBufferSize
  marker : s.derived.decomissionThreshold = threshold
  threshold_le : threshold ≤ s.derived.currentChunk.length
  threshold_lt : threshold < 2 ^ 7

/-- The small buffer is written to, from `i` on. -/
structure OnSmall (s : OutputBuffer ChunkedOutputStream) (out : List UInt8) (threshold i : Nat) : Prop
    extends Marked s threshold where
  window : s.derived.window = .small i
  spans : i + (s.behind ++ s.free).length = smallBufferSize
  out_eq : out = s.derived.done ++ s.derived.currentChunk.take (s.derived.currentChunk.length - threshold) ++
    s.derived.smallBuffer.take i ++ s.behind

/-- Settled, the small buffer has all that was spilled. -/
structure InSmall (s : OutputBuffer ChunkedOutputStream) (out : List UInt8) (threshold consumed : Nat) : Prop
    extends Marked s threshold where
  consumed_eq : consumedSize s = (.ok consumed, s)
  consumed_le : consumed ≤ smallBufferSize
  out_eq : out = s.derived.done ++ s.derived.currentChunk.take (s.derived.currentChunk.length - threshold) ++
    s.derived.smallBuffer.take consumed

/-- The current chunk is full, and `overlap` bytes of the small buffer come behind it. -/
structure Across (s : OutputBuffer ChunkedOutputStream) (out : List UInt8) (threshold overlap : Nat) : Prop where
  small : s.derived.smallBuffer.length = smallBufferSize
  marker : s.derived.decomissionThreshold = threshold
  overlap_le : threshold + overlap ≤ smallBufferSize
  out_eq : out = s.derived.done ++ s.derived.currentChunk ++ (s.derived.smallBuffer.drop threshold).take overlap

/-- The current chunk is written to from its beginning. -/
structure Started (s : OutputBuffer ChunkedOutputStream) : Prop where
  marker : s.derived.decomissionThreshold = -1
  window : s.derived.window = .chunk 0
  behind : s.behind = []
  free : s.free = s.derived.currentChunk

/-- These bytes of the current chunk count as written, and no other chunk was asked for. -/
structure Took (bytes : List UInt8) (s t : OutputBuffer ChunkedOutputStream) : Prop where
  source : t.derived.source = s.derived.source
  remaining : t.derived.remaining = s.derived.remaining
  cut : t.derived.cut = s.derived.cut
  small : t.derived.smallBuffer.length = s.derived.smallBuffer.length
  done : t.derived.done = s.derived.done ++ bytes
  chunk : bytes.length + t.derived.currentChunk.length = s.derived.currentChunk.length

/-- How many bytes of the next chunk are in the stream, if there is a next chunk. -/
def handedOut (remaining : Nat) : List (Except Errc (List UInt8)) → Option Nat
  | .ok chunk :: _ => some (min chunk.length remaining)
  | _ => none

variable {s t u : OutputBuffer ChunkedOutputStream} {base out bytes : List UInt8}
  {threshold consumed overlap i n : Nat}

theorem took_nil (hsource : t.derived.source = s.derived.source)
    (hremaining : t.derived.remaining = s.derived.remaining)
    (hcut : t.derived.cut = s.derived.cut) (hsmall : t.derived.smallBuffer.length = s.derived.smallBuffer.length)
    (hdone : t.derived.done = s.derived.done)
    (hchunk : t.derived.currentChunk.length = s.derived.currentChunk.length) : Took [] s t :=
  ⟨hsource, hremaining, hcut, hsmall, by simp [hdone], by simp [hchunk]⟩

theorem Took.done_eq (h : Took [] s t) : t.derived.done = s.derived.done := by simp [h.done]

theorem Took.chunk_eq (h : Took [] s t) : t.derived.currentChunk.length = s.derived.currentChunk.length := by
  simp [← h.chunk]

theorem Took.trans (h : Took [] s t) (h' : Took bytes t u) : Took bytes s u :=
  ⟨h'.source.trans h.source, h'.remaining.trans h.remaining, h'.cut.trans h.cut, h'.small.trans h.small,
    h.done_eq ▸ h'.done, h.chunk_eq ▸ h'.chunk⟩

theorem Started.onChunk (h : Started s) (out : List UInt8) : OnChunk s out out :=
  ⟨h.marker, .inl ⟨0, h.window, by simp [h.behind, h.free], by simp [h.behind]⟩⟩

theorem started_resetToChunk (h : s.derived.decomissionThreshold = -1) : Started (resetToChunk 0 s).2 :=
  ⟨h, rfl, rfl, List.drop_zero⟩

/-! ### Writing to the buffer -/

/-- Bytes were written to the buffer and committed. -/
structure Wrote (bytes : List UInt8) (s t : OutputBuffer ChunkedOutputStream) : Prop where
  behind : t.behind = s.behind ++ bytes
  free : bytes.length + t.free.length = s.free.length
  derived : t.derived = s.derived

theorem Wrote.spans (h : Wrote bytes s t) : (t.behind ++ t.free).length = (s.behind ++ s.free).length := by
  have hfree := h.free
  rw [List.length_append, List.length_append, h.behind, List.length_append]
  omega

theorem Wrote.took (h : Wrote bytes s t) : Took [] s t := by
  apply took_nil <;> rw [h.derived]

theorem wrote_store (h : i + bytes.length ≤ s.free.length) : Wrote [] s (s.put i bytes) :=
  ⟨(List.append_nil _).symm, (Nat.zero_add _).trans (put_length s h), rfl⟩

theorem wrote_commit (h : n ≤ s.free.length) : Wrote (s.free.take n) s (s.commit n) := by
  refine ⟨rfl, ?_, rfl⟩
  rw [commit_free, List.length_take_of_le h, List.length_drop]
  omega

theorem OnChunk.wrote (h : OnChunk s base out) (hwrote : Wrote bytes s t) : OnChunk t base (out ++ bytes) := by
  refine ⟨hwrote.derived ▸ h.marker, ?_⟩
  rw [hwrote.derived, hwrote.spans]
  rcases h.spans with ⟨i, hwindow, hlen, rfl⟩ | ⟨hwindow, hfree, rfl⟩
  · exact .inl ⟨i, hwindow, hlen, by rw [hwrote.behind, List.append_assoc _ s.behind]⟩
  · -- there is no room for anything
    have hroom := hwrote.free
    rw [hfree, List.length_nil] at hroom
    obtain rfl : bytes = [] := List.length_eq_zero_iff.mp (by omega)
    exact .inr ⟨hwindow, List.length_eq_zero_iff.mp (by omega), List.append_nil _⟩

theorem OnSmall.wrote (h : OnSmall s out threshold i) (hwrote : Wrote bytes s t) :
    OnSmall t (out ++ bytes) threshold i := by
  obtain ⟨⟨hsmall, hmarker, hle, hlt⟩, hwindow, hspans, hout⟩ := h
  refine ⟨⟨?_, ?_, ?_, hlt⟩, ?_, hwrote.spans ▸ hspans, ?_⟩ <;> rw [hwrote.derived]
  · exact hsmall
  · exact hmarker
  · exact hle
  · exact hwindow
  · rw [hwrote.behind, hout, List.append_assoc _ s.behind]

/-! ### Settling -/

theorem settle_chunk (h : s.derived.window = .chunk i) : settle s = {s with derived := {s.derived with
    currentChunk := overwrite i (s.behind ++ s.free) s.derived.currentChunk}} := by
  rw [settle, h]

theorem settle_small (h : s.derived.window = .small i) : settle s = {s with derived := {s.derived with
    smallBuffer := overwrite i (s.behind ++ s.free) s.derived.smallBuffer}} := by
  rw [settle, h]

theorem settle_nowhere (h : s.derived.window = .nowhere) : settle s = s := by
  rw [settle, h]

@[simp] theorem settle_free : (settle s).free = s.free := by
  unfold settle
  split <;> rfl

@[simp] theorem settle_decomissionThreshold :
    (settle s).derived.decomissionThreshold = s.derived.decomissionThreshold := by
  unfold settle
  split <;> rfl

@[simp] theorem settle_window : (settle s).derived.window = s.derived.window := by
  unfold settle
  split <;> rfl

@[simp] theorem settle_remaining : (settle s).derived.remaining = s.derived.remaining := by
  unfold settle
  split <;> rfl

@[simp] theorem settle_source : (settle s).derived.source = s.derived.source := by
  unfold settle
  split <;> rfl

theorem thresholdNow_eq {marker : Int} (h : s.derived.decomissionThreshold = marker) :
    decomissionThresholdNow s = (.ok marker, s) := by
  rw [decomissionThresholdNow, Action.gets, h]

theorem size_settle : size (settle s) = (.ok s.free.length, settle s) := by
  rw [size, Action.gets, settle_free]

theorem OnChunk.took_settle (h : OnChunk s base out) : Took [] s (settle s) := by
  rcases h.spans with ⟨i, hwindow, hlen, -⟩ | ⟨hwindow, -, -⟩
  · rw [settle_chunk hwindow]
    exact took_nil rfl rfl rfl rfl rfl (overwrite_length hlen.le)
  · rw [settle_nowhere hwindow]
    exact took_nil rfl rfl rfl rfl rfl rfl

/-- Settled, the chunk has what was written in front of the bytes that are free. -/
theorem OnChunk.settled (h : OnChunk s base out) :
    OnChunk (settle s) base out ∧ s.free.length ≤ (settle s).derived.currentChunk.length ∧
      out = base ++ (settle s).derived.currentChunk.take
      ((settle s).derived.currentChunk.length - s.free.length) := by
  obtain ⟨hmarker, ⟨i, hwindow, hlen, rfl⟩ | ⟨hwindow, hfree, rfl⟩⟩ := h
  · have hover : (overwrite i (s.behind ++ s.free) s.derived.currentChunk).length =
      s.derived.currentChunk.length :=
      overwrite_length hlen.le
    have hi : i ≤ s.derived.currentChunk.length := by omega
    have htake := overwrite_take_before (s.behind ++ s.free) hi
    rw [settle_chunk hwindow]
    refine ⟨⟨hmarker, .inl ⟨i, hwindow, hover ▸ hlen, htake ▸ rfl⟩⟩, ?_, ?_⟩
    · rw [List.length_append] at hlen
      dsimp only
      omega
    · have hle : s.behind.length ≤ (s.behind ++ s.free).length := List.length_append ▸ Nat.le_add_right _ _
      have hpart := overwrite_take_add hi hle
      rw [List.length_append] at hlen
      have hcount : s.derived.currentChunk.length - s.free.length = i + s.behind.length := by omega
      dsimp only
      rw [hover, hcount, hpart, List.take_left, List.append_assoc]
  · rw [settle_nowhere hwindow]
    refine ⟨⟨hmarker, .inr ⟨hwindow, hfree, rfl⟩⟩, ?_, ?_⟩
    · simp [hfree]
    · simp [hfree]

theorem OnSmall.took_settle (h : OnSmall s out threshold i) : Took [] s (settle s) := by
  have hspan : i + (s.behind ++ s.free).length ≤ s.derived.smallBuffer.length := h.spans.trans_le h.small.ge
  rw [settle_small h.window]
  exact took_nil rfl rfl rfl (overwrite_length hspan) rfl rfl

theorem OnSmall.settled (h : OnSmall s out threshold i) :
    InSmall (settle s) out threshold (i + s.behind.length) := by
  have hspan : i + (s.behind ++ s.free).length ≤ s.derived.smallBuffer.length := h.spans.trans_le h.small.ge
  have hbehind : s.behind.length ≤ (s.behind ++ s.free).length := List.length_append ▸ Nat.le_add_right _ _
  have hi : i ≤ s.derived.smallBuffer.length := by omega
  have hpart := overwrite_take_add hi hbehind
  rw [List.take_left] at hpart
  obtain ⟨⟨hsmall, hmarker, hle, hlt⟩, hwindow, hspans, rfl⟩ := h
  rw [settle_small hwindow]
  refine ⟨⟨?_, hmarker, hle, hlt⟩, ?_, ?_, ?_⟩
  · exact (overwrite_length hspan).trans hsmall
  · rw [consumedSize]
    simp only [hwindow]
  · omega
  · dsimp only
    rw [hpart, ← List.append_assoc]

end ChunkedOutputStream
end DeepPack
