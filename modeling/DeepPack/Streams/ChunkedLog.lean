import DeepPack.Streams.ChunkedMoves

/-! The states of a stream into chunks.

A state `Logs` the bytes that were written: those in front of the current chunk, those in
it, and those that were spilled to the small buffer and do not fit in it. -/
namespace DeepPack
open Library OutputBuffer

namespace ChunkedOutputStream

/-- The chunks to come, and what all chunks have room for. -/
structure Sized (s : OutputBuffer ChunkedOutputStream) (pending : List (List UInt8)) (total : Nat) :
    Prop where
  chunks : ∀ c ∈ pending, c ≠ []
  source : s.derived.source = pending.map .ok
  remaining : s.derived.remaining = pending.flatten.length
  fits : pending.flatten.length < wordLimit
  cut : s.derived.cut = []
  small : s.derived.smallBuffer.length = smallBufferSize
  total : s.derived.done.length + s.derived.currentChunk.length + pending.flatten.length = total

/-- The current chunk is written to, or it is full. -/
structure Direct (s : OutputBuffer ChunkedOutputStream) (out : List UInt8) (pending : List (List UInt8))
    (total : Nat) : Prop extends Sized s pending total, OnChunk s s.derived.done out

/-- The small buffer is written to, whose first `threshold` bytes belong to the end of the current chunk. -/
structure Spilling (s : OutputBuffer ChunkedOutputStream) (out : List UInt8) (pending : List (List UInt8))
    (total threshold i : Nat) : Prop extends Sized s pending total, OnSmall s out threshold i where
  threshold_small : threshold < minimumOutputBufferSize

/-- So many bytes are left for what is written behind these. -/
def Logs (total : Nat) (s : OutputBuffer ChunkedOutputStream) (out : List UInt8) : Prop :=
  ∃ pending, Direct s out pending total ∨ ∃ threshold i, Spilling s out pending total threshold i

variable {s t : OutputBuffer ChunkedOutputStream} {base out bytes : List UInt8} {pending : List (List UInt8)}
  {total threshold i n : Nat}

/-- Bytes of a chunk that count as written have no influence on the room there is in all of them. -/
theorem Sized.took (h : Sized s pending total) (htook : Took bytes s t) : Sized t pending total := by
  obtain ⟨hchunks, hsource, hremaining, hfits, hcut, hsmall, htotal⟩ := h
  refine ⟨hchunks, htook.source.trans hsource, htook.remaining.trans hremaining, hfits, htook.cut.trans hcut,
    htook.small.trans hsmall, ?_⟩
  have hchunk := htook.chunk
  rw [htook.done, List.length_append]
  omega

theorem Direct.logs (h : Direct s out pending total) : Logs total s out := ⟨pending, .inl h⟩

theorem Spilling.logs (h : Spilling s out pending total threshold i) : Logs total s out :=
  ⟨pending, .inr ⟨threshold, i, h⟩⟩

theorem OnChunk.direct (h : OnChunk s base out) (hbase : base = s.derived.done) (hsized : Sized s pending total) :
    Direct s out pending total :=
  ⟨hsized, h.marker, hbase ▸ h.spans⟩

theorem OnSmall.spilling (h : OnSmall s out threshold i) (hlt : threshold < minimumOutputBufferSize)
    (hsized : Sized s pending total) : Spilling s out pending total threshold i :=
  ⟨hsized, h.marker, h.threshold_le, h.threshold_lt, h.window, h.spans, h.out_eq, hlt⟩

theorem Logs.wrote (h : Logs total s out) (hwrote : Wrote bytes s t) : Logs total t (out ++ bytes) := by
  obtain ⟨pending, h | ⟨threshold, i, h⟩⟩ := h
  · have hsized := h.toSized.took hwrote.took
    exact ((h.toOnChunk.wrote hwrote).direct hwrote.took.done_eq.symm hsized).logs
  · have hsized := h.toSized.took hwrote.took
    exact ((h.toOnSmall.wrote hwrote).spilling h.threshold_small hsized).logs

/-- Settled, the chunk has what was written in front of the bytes that are free. -/
theorem Direct.settled (h : Direct s out pending total) :
    Direct (settle s) out pending total ∧
      out = (settle s).derived.done ++
        (settle s).derived.currentChunk.take ((settle s).derived.currentChunk.length - s.free.length) := by
  have htook := h.toOnChunk.took_settle
  obtain ⟨hsettled, -, hout⟩ := h.toOnChunk.settled
  rw [← htook.done_eq] at hout
  exact ⟨hsettled.direct htook.done_eq.symm (h.toSized.took htook), hout⟩

/-- Settled, the small buffer has all that was spilled, of which `threshold` bytes belong to the current chunk. -/
structure Spilled (s : OutputBuffer ChunkedOutputStream) (out : List UInt8) (pending : List (List UInt8))
    (total threshold consumed : Nat) : Prop extends Sized s pending total, InSmall s out threshold consumed where
  threshold_small : threshold < minimumOutputBufferSize

theorem Spilling.settled (h : Spilling s out pending total threshold i) :
    Spilled (settle s) out pending total threshold (i + s.behind.length) := by
  have hsettled := h.toOnSmall.settled
  exact ⟨h.toSized.took h.toOnSmall.took_settle, hsettled.marker, hsettled.threshold_le, hsettled.threshold_lt,
    hsettled.consumed_eq, hsettled.consumed_le, hsettled.out_eq, h.threshold_small⟩

end ChunkedOutputStream
end DeepPack
