import DeepPack.Streams.ChunkedLog

/-! How a stream into chunks goes from one chunk to the next. -/
namespace DeepPack
open Library OutputBuffer

namespace ChunkedOutputStream
variable {s : OutputBuffer ChunkedOutputStream} {out bytes chunk : List UInt8} {pending : List (List UInt8)}
  {total threshold consumed overlap n : Nat}

/-- All that was written is in front of the current chunk. -/
structure Opened (s : OutputBuffer ChunkedOutputStream) (out : List UInt8) (pending : List (List UInt8))
    (total : Nat) :
    Prop extends Sized s pending total where
  marker : s.derived.decomissionThreshold = -1
  done_eq : s.derived.done = out

/-- What was spilled is at the end of the current chunk, but for the bytes that belong to the next one. -/
structure Overlapping (s : OutputBuffer ChunkedOutputStream) (out : List UInt8) (pending : List (List UInt8))
    (total threshold overlap : Nat) : Prop extends Sized s pending total where
  marker : s.derived.decomissionThreshold = threshold
  overlap_le : threshold + overlap ≤ smallBufferSize
  out_eq : out = s.derived.done ++ s.derived.currentChunk ++
    (s.derived.smallBuffer.drop threshold).take overlap

theorem Started.opened (h : Started s) (hdone : s.derived.done = out) (hsized : Sized s pending total) :
    Opened s out pending total ∧ Direct s out pending total :=
  ⟨⟨hsized, h.marker, hdone⟩, (h.onChunk out).direct hdone.symm hsized⟩

theorem Opened.direct (h : Opened s out pending total) : Direct (resetToChunk 0 s).2 out pending total :=
  ((started_resetToChunk h.marker).opened h.done_eq (h.toSized.took (took_nil rfl rfl rfl rfl rfl rfl))).2

theorem Overlapping.across (h : Overlapping s out pending total threshold overlap) :
    Across s out threshold overlap :=
  ⟨h.small, h.marker, h.overlap_le, h.out_eq⟩

theorem Across.overlapping (h : Across s out threshold overlap) (hsized : Sized s pending total) :
    Overlapping s out pending total threshold overlap :=
  ⟨hsized, h.marker, h.overlap_le, h.out_eq⟩

/-! ### The next chunk -/

theorem Sized.handOut (h : Sized s (chunk :: pending) total) :
    Sized (handOut chunk (pending.map .ok) s) pending total ∧
      (handOut chunk (pending.map .ok) s).derived.done = s.derived.done ++ s.derived.currentChunk ∧
      (handOut chunk (pending.map .ok) s).derived.currentChunk = chunk := by
  obtain ⟨hchunks, hsource, hremaining, hfits, hcut, hsmall, htotal⟩ := h
  rw [List.flatten_cons, List.length_append] at hremaining hfits htotal
  have htake : chunk.take s.derived.remaining = chunk := List.take_of_length_le (by omega)
  have hdrop : chunk.drop s.derived.remaining = [] := List.drop_eq_nil_of_le (by omega)
  have hwrap : wrapSub 64 s.derived.remaining chunk.length = pending.flatten.length := by
    rw [wrapSub_of_le (by omega) (hremaining ▸ hfits)]
    omega
  rw [ChunkedOutputStream.handOut, htake, hdrop, hwrap, hcut, List.append_nil]
  refine ⟨⟨fun c hc => hchunks c (List.mem_cons_of_mem chunk hc), rfl, rfl, by omega, rfl, hsmall, ?_⟩, rfl, rfl⟩
  dsimp only
  rw [List.length_append]
  omega

theorem Sized.acquire (h : Sized s (chunk :: pending) total) :
    acquireNextChunk s = (.ok (), ChunkedOutputStream.handOut chunk (pending.map .ok) s) := by
  rw [acquireNextChunk, h.source]
  rfl

theorem Sized.acquire_end (h : Sized s [] total) : acquireNextChunk s = (.error (.errc .endOfStream), s) := by
  rw [acquireNextChunk, h.source]
  rfl

/-- What comes of bytes that belong to the next chunk, if it has room for them. -/
theorem Overlapping.handOver {f : Bool → Output ChunkedOutputStream Unit}
    {R : Except Fault Unit → OutputBuffer ChunkedOutputStream → Prop}
    (h : Overlapping s out pending total threshold overlap)
    (hfits : ∀ chunk rest, pending = chunk :: rest → overlap ≤ chunk.length)
    (hkeep : ∀ t, pending = [] → Spilling t out [] total 0 overlap → R (.error (.errc .endOfStream)) t)
    (hmove : ∀ t rest, Opened t out rest total → Direct t out rest total → (f true).Meets t R) :
    (do
      acquireOrKeep overlap
      let moved ← tryMoveSmallBufferToNextChunk overlap
      f moved : Output ChunkedOutputStream Unit).Meets s R := by
  cases pending with
  | nil =>
    refine h.across.keeps h.acquire_end fun t htook hsmall => ?_
    exact hkeep t rfl (hsmall.spilling (by decide) (h.toSized.took htook))
  | cons chunk rest =>
    obtain ⟨hsized, hdone, hcurrent⟩ := h.handOut
    have hroom : overlap ≤ (ChunkedOutputStream.handOut chunk (rest.map .ok) s).derived.currentChunk.length := by
      rw [hcurrent]
      exact hfits chunk rest rfl
    refine h.across.moves h.acquire hroom fun spill t hout _ htook hstarted => ?_
    have hall : t.derived.done = out := by rw [htook.done, hdone, hout]
    obtain ⟨hopened, hdirect⟩ := hstarted.opened hall (hsized.took htook)
    exact hmove t rest hopened hdirect

theorem Overlapping.overruns {f : Bool → Output ChunkedOutputStream Unit}
    (h : Overlapping s out (chunk :: pending) total threshold overlap) (hlt : chunk.length < overlap) :
    (do
      acquireOrKeep overlap
      let moved ← tryMoveSmallBufferToNextChunk overlap
      f moved : Output ChunkedOutputStream Unit).Meets s fun r _ => r = .error .outOfBounds := by
  obtain ⟨-, -, hcurrent⟩ := h.handOut
  apply h.across.overruns h.acquire
  rwa [hcurrent]

/-! ### Chunk by chunk -/

/-- Bytes that fill the current chunk. -/
theorem Opened.fills (h : Opened s out pending total) (hlen : bytes.length = s.derived.currentChunk.length) :
    Sized {s with derived := {s.derived with currentChunk := bytes}} pending total :=
  h.toSized.took (took_nil rfl rfl rfl rfl rfl hlen)

theorem Opened.out_length (h : Opened s out pending total) :
    out.length + s.derived.currentChunk.length + pending.flatten.length = total := by
  have htotal := h.total
  rwa [h.done_eq] at htotal

/-- Bytes are written as far as there is room, and the stream goes on only if there is more. -/
theorem writeChunks_meets {rounds : Nat} (bytes : List UInt8) (h : Opened s out pending total)
    (hwindow : s.derived.window = .nowhere)
    (hfree : s.free = []) (hrounds : pending.length < rounds) :
    (writeChunks rounds bytes).Meets s fun r t =>
      (r = .ok () ∧ (out ++ bytes).length < total ∧ ∃ rest, Opened t (out ++ bytes) rest total) ∨
      ∃ e k, r = .error e ∧ e = .errc .endOfStream ∧ (out ++ bytes.take k).length = total ∧
        Logs total t (out ++ bytes.take k) := by
  have hfewer : s.derived.source.length < rounds := by
    rw [h.source, List.length_map]
    exact hrounds
  refine writeChunks_rule bytes (I := fun s out => s.derived.window = .nowhere ∧ s.free = [] ∧
      ∃ pending, Opened s out pending total)
      (J := fun t out => out.length < total ∧ ∃ rest, Opened t out rest total)
    (E := fun e t out => e = .errc .endOfStream ∧ out.length = total ∧ Logs total t out) ?_ ?_ ?_
    ⟨hwindow, hfree, pending, h⟩ hfewer
  · intro s out bytes hopened hlt
    obtain ⟨-, -, pending, h⟩ := hopened
    have hsize := h.out_length
    refine ⟨?_, pending, h.toSized.took (took_part hlt), h.marker, congrArg (· ++ bytes) h.done_eq⟩
    rw [List.length_append]
    omega
  · intro s out bytes u hopened hlen hacquire
    obtain ⟨hwindow, hfree, pending, h⟩ := hopened
    have hfills := h.fills hlen
    cases pending with
    | nil =>
      rw [hfills.acquire_end] at hacquire
      cases hacquire
    | cons chunk rest =>
      obtain ⟨hsized, hdone, hcurrent⟩ := hfills.handOut
      have hpos : 0 < chunk.length := List.length_pos_iff.mpr (h.chunks chunk List.mem_cons_self)
      rw [hfills.acquire] at hacquire
      cases hacquire
      have hnext : Opened _ (out ++ bytes) rest total :=
        ⟨hsized, h.marker, hdone.trans (congrArg (· ++ bytes) h.done_eq)⟩
      have hsize := hnext.out_length
      rw [hcurrent] at hsize
      refine ⟨⟨?_, hfree, rest, hnext⟩, by omega, rest, hnext⟩
      rw [handOut]
      dsimp only
      rw [hwindow]
  · intro s out bytes e u hopened hlen hacquire
    obtain ⟨hwindow, hfree, pending, h⟩ := hopened
    have hfills := h.fills hlen
    cases pending with
    | nil =>
      -- the last chunk is full
      have hsize := h.out_length
      rw [List.flatten_nil, List.length_nil] at hsize
      rw [hfills.acquire_end] at hacquire
      cases hacquire
      refine ⟨rfl, ?_, Direct.logs ⟨hfills, h.marker, .inr ⟨hwindow, hfree, ?_⟩⟩⟩
      · rw [List.length_append]
        omega
      · rw [← h.done_eq]
    | cons chunk rest =>
      rw [hfills.acquire] at hacquire
      cases hacquire

end ChunkedOutputStream
end DeepPack
