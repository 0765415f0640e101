import DeepPack.Streams.ChunkedRoom

/-! Calls on a stream into chunks that stay in its memory.

As long as no call wrote behind a chunk, what the stream writes to lies within the current chunk
or the small buffer, and the part of the small buffer that belongs to the chunk is no longer than
the chunk. Then an `ensure_size` leaves the memory in one case only: where it hands over to a chunk that is
too short. -/
namespace DeepPack
open Library OutputBuffer

namespace ChunkedOutputStream

/-- Where the memory is that is written to. The small buffer may be written to with a negative
threshold: what was left of the chunk did not fit in a signed byte. -/
structure Anchored (s : OutputBuffer ChunkedOutputStream) : Prop where
  small : s.derived.smallBuffer.length = smallBufferSize
  byte : s.derived.decomissionThreshold < 2 ^ 7
  onChunk : ∀ i, s.derived.window = .chunk i →
    s.derived.decomissionThreshold < 0 ∧ i + (s.behind ++ s.free).length ≤ s.derived.currentChunk.length
  onSmall : ∀ i, s.derived.window = .small i →
    i + (s.behind ++ s.free).length ≤ smallBufferSize ∧
      s.derived.decomissionThreshold ≤ s.derived.currentChunk.length ∧
      (s.derived.decomissionThreshold < 0 → s.free ≠ [] → smallBufferSize ≤ s.derived.currentChunk.length)
  nowhere : s.derived.window = .nowhere → s.derived.decomissionThreshold < 0 ∧ s.free = []

/-- What was spilled behind the current chunk goes to the next one, if there is one, only where that has
room for it. -/
def HandsOver (n : Nat) (s : OutputBuffer ChunkedOutputStream) : Prop :=
  s.free.length < n → 0 ≤ s.derived.decomissionThreshold → s.derived.decomissionThreshold ≤ spilledSize s →
    ∀ room ∈ handedOut s.derived.remaining s.derived.source,
      spilledSize s - s.derived.decomissionThreshold.toNat ≤ room

instance (n : Nat) (s : OutputBuffer ChunkedOutputStream) : Decidable (HandsOver n s) :=
  inferInstanceAs (Decidable (_ → _ → _ → ∀ room ∈ handedOut _ _, _ ≤ room))

/-- The call writes to the memory of the stream only. -/
def StaysWithin (call : OutputCall) (s : OutputBuffer ChunkedOutputStream) : Prop :=
  (perform call s).1 ≠ .error .outOfBounds

variable {s t : OutputBuffer ChunkedOutputStream} {bytes : List UInt8} {n i : Nat}

/-! ### Where the memory is -/

theorem anchored_chunk (hwindow : s.derived.window = .chunk i)
    (hsmall : s.derived.smallBuffer.length = smallBufferSize) (hmarker : s.derived.decomissionThreshold < 0)
    (hspan : i + (s.behind ++ s.free).length ≤ s.derived.currentChunk.length) : Anchored s := by
  refine ⟨hsmall, by omega, fun j hj => ?_, fun j hj => ?_, fun hj => ?_⟩ <;> rw [hwindow] at hj <;> cases hj
  exact ⟨hmarker, hspan⟩

theorem anchored_small (hwindow : s.derived.window = .small i)
    (hsmall : s.derived.smallBuffer.length = smallBufferSize) (hbyte : s.derived.decomissionThreshold < 2 ^ 7)
    (hspan : i + (s.behind ++ s.free).length ≤ smallBufferSize)
    (hle : s.derived.decomissionThreshold ≤ s.derived.currentChunk.length)
    (hwide : s.derived.decomissionThreshold < 0 → s.free ≠ [] → smallBufferSize ≤ s.derived.currentChunk.length) :
    Anchored s := by
  refine ⟨hsmall, hbyte, fun j hj => ?_, fun j hj => ?_, fun hj => ?_⟩ <;> rw [hwindow] at hj <;> cases hj
  exact ⟨hspan, hle, hwide⟩

theorem Started.anchored (h : Started s) (hsmall : s.derived.smallBuffer.length = smallBufferSize) : Anchored s := by
  refine anchored_chunk h.window hsmall ?_ ?_
  · rw [h.marker]
    decide
  · rw [h.behind, h.free, List.nil_append, Nat.zero_add]

theorem OnSmall.anchored {out : List UInt8} {threshold : Nat} (h : OnSmall s out threshold i) : Anchored s := by
  have hmarker := h.marker
  have hlt := h.threshold_lt
  have hle := h.threshold_le
  exact anchored_small h.window h.small (by omega) h.spans.le (by omega) (by omega)

/-- Another source does not matter. -/
theorem Anchored.withSource (h : Anchored s) (source : List (Except Errc (List UInt8))) :
    Anchored {s with derived := {s.derived with source}} := ⟨h.small, h.byte, h.onChunk, h.onSmall, h.nowhere⟩

theorem Anchored.framed (h : Anchored s) : Framed s := ⟨h.small, fun i hi => (h.onSmall i hi).1⟩

theorem anchored_settle (h : Anchored s) : Anchored (settle s) := by
  rcases hwindow : s.derived.window with i | i | _
  · rw [settle_chunk hwindow]
    obtain ⟨hmarker, hspan⟩ := h.onChunk i hwindow
    refine anchored_chunk hwindow h.small hmarker ?_
    rwa [overwrite_length hspan]
  · rw [settle_small hwindow]
    obtain ⟨hspan, hle, hwide⟩ := h.onSmall i hwindow
    exact anchored_small hwindow ((overwrite_length (hspan.trans h.small.ge)).trans h.small) h.byte hspan hle hwide
  · rwa [settle_nowhere hwindow]

theorem Anchored.wrote (h : Anchored s) (hwrote : Wrote bytes s t) : Anchored t := by
  have hfree := hwrote.free
  have hempty : s.free = [] → t.free = [] := fun hnil => by
    rw [hnil, List.length_nil] at hfree
    exact List.length_eq_zero_iff.mp (by omega)
  have hspans := hwrote.spans
  constructor <;> rw [hwrote.derived]
  · exact h.small
  · exact h.byte
  · rw [hspans]
    exact h.onChunk
  · rw [hspans]
    intro i hi
    obtain ⟨hspan, hle, hwide⟩ := h.onSmall i hi
    exact ⟨hspan, hle, fun hmarker hne => hwide hmarker fun hnil => hne (hempty hnil)⟩
  · exact fun hwindow => (h.nowhere hwindow).imp_right hempty

/-- The room that is left fits in the memory. -/
theorem Anchored.free_le (h : Anchored s) (hmarker : s.derived.decomissionThreshold < 0) :
    s.free.length ≤ s.derived.currentChunk.length ∧
      (2 ^ 7 ≤ s.free.length → smallBufferSize ≤ s.derived.currentChunk.length) := by
  have hbuffer : smallBufferSize = 78 := rfl
  rcases hwindow : s.derived.window with i | i | _
  · have hspan := (h.onChunk i hwindow).2
    rw [List.length_append] at hspan
    omega
  · obtain ⟨hspan, -, hwide⟩ := h.onSmall i hwindow
    rw [List.length_append] at hspan
    by_cases hfree : s.free = []
    · simp [hfree]
    · have hroom := hwide hmarker hfree
      omega
  · simp [(h.nowhere hwindow).2]

/-- Where bytes are spilled, they are in the small buffer. -/
theorem Anchored.spilled (h : Anchored s) (hmarker : 0 ≤ s.derived.decomissionThreshold) :
    ∃ i, s.derived.window = .small i := by
  rcases hwindow : s.derived.window with i | i | _
  · exact absurd (h.onChunk i hwindow).1 (Int.not_lt.mpr hmarker)
  · exact ⟨i, rfl⟩
  · exact absurd (h.nowhere hwindow).1 (Int.not_lt.mpr hmarker)

/-! ### Ensuring room -/

/-- The stream goes over to the small buffer. -/
theorem Anchored.spill (h : Anchored s) (hmarker : s.derived.decomissionThreshold < 0) :
    Anchored ⟨[], s.derived.smallBuffer.drop 0, {s.derived with
      decomissionThreshold := toSigned 8 s.free.length, window := .small 0}⟩ := by
  obtain ⟨hle, hlarge⟩ := h.free_le hmarker
  have hsmall := h.small
  have hbyte : toSigned 8 (s.free.length : Int) < 2 ^ 7 := by
    have hlt : toSigned 8 (s.free.length : Int) < (2 ^ 8 + 1) / 2 := Int.bmod_lt (by decide)
    omega
  have hwithin : s.free.length < 2 ^ 7 → toSigned 8 s.free.length = s.free.length := fun hlt =>
    toSigned_natCast (by omega)
  refine anchored_small rfl hsmall ?_ ?_ ?_ ?_
  · dsimp only
    exact hbyte
  · rw [List.drop_zero, List.nil_append, hsmall, Nat.zero_add]
  · dsimp only
    omega
  · intro hnegative _
    refine hlarge (Nat.le_of_not_lt fun hlt => ?_)
    dsimp only at hnegative
    omega

/-- A request is met or rejected. -/
theorem Anchored.granted (h : Anchored s) :
    (if smallBufferSize < n then err .bufferSizeExceeded
    else pure () : Output ChunkedOutputStream Unit).Meets s fun r t => r ≠ .error .outOfBounds ∧ Anchored t := by
  by_cases hlarge : smallBufferSize < n
  · exact .ite_pos hlarge (Action.meets_of_eq rfl ⟨nofun, h⟩)
  · exact .ite_neg hlarge (Action.meets_of_eq rfl ⟨nofun, h⟩)

/-- As long as the small buffer is not in use, the memory is not left. -/
theorem ensure_unspilled {rounds : Nat} (h : Anchored s) (hmarker : s.derived.decomissionThreshold < 0) :
    (@ensureSize _ (virtuals rounds) n).Meets s fun r t => r ≠ .error .outOfBounds ∧ Anchored t := by
  by_cases hlen : n ≤ s.free.length
  · exact Action.meets_of_eq (@ensureSize_enough _ (virtuals rounds) s n hlen) ⟨nofun, h⟩
  · have hgrow : @ensureSize _ (virtuals rounds) n s = (virtuals rounds).doGrow n s :=
      @ensureSize_grow _ (virtuals rounds) s n (Nat.lt_of_not_le hlen)
    cases rounds with
    | zero => exact Action.meets_of_eq hgrow ⟨nofun, h⟩
    | succ rounds =>
      have hsettled := anchored_settle h
      refine .of_eq (z := doGrow (virtuals rounds) n) hgrow ?_
      rw [doGrow]
      refine .step (a := ()) (t := settle s) rfl
        (.step (thresholdNow_eq settle_decomissionThreshold) (.ite_pos hmarker (.step size_settle ?_)))
      by_cases hfree : s.free = []
      · refine .ite_pos (congrArg List.length hfree) ?_
        rcases acquireNextChunk_cases (settle s) with ⟨chunk, source, -, hacquire⟩ | ⟨-, e, source, hacquire⟩
        · refine .step hacquire (Action.meets_of_eq rfl ⟨nofun, anchored_chunk rfl hsettled.small ?_ ?_⟩)
          · exact settle_decomissionThreshold.trans_lt hmarker
          · simp
        · exact .stop hacquire ⟨fun h => (by cases h), hsettled.withSource source⟩
      · refine .ite_neg (fun hzero => hfree (List.length_eq_zero_iff.mp hzero)) ?_
        have hspill := hsettled.spill (settle_decomissionThreshold.trans_lt hmarker)
        rw [settle_free] at hspill
        refine .step size_settle (.step rfl (.step rfl (Anchored.granted ?_)))
        dsimp only at hspill ⊢
        exact hspill

section HandOver
variable {f : Bool → Output ChunkedOutputStream Unit} {threshold overlap : Nat}

/-- What was spilled behind the current chunk goes to the next one, which has room for it, or it is kept. -/
theorem meets_handOver {R : Except Fault Unit → OutputBuffer ChunkedOutputStream → Prop}
    (hsmall : s.derived.smallBuffer.length = smallBufferSize) (hmarker : s.derived.decomissionThreshold = threshold)
    (hwithin : threshold + overlap ≤ smallBufferSize)
    (hfits : ∀ room ∈ handedOut s.derived.remaining s.derived.source, overlap ≤ room)
    (hkeep : ∀ e t, Anchored t → R (.error (.errc e)) t)
    (hmove : ∀ t, Started t → Anchored t → (f true).Meets t R) :
    (do
      acquireOrKeep overlap
      let moved ← tryMoveSmallBufferToNextChunk overlap
      f moved : Output ChunkedOutputStream Unit).Meets s R := by
  have hacross : Across s _ threshold overlap := ⟨hsmall, hmarker, hwithin, rfl⟩
  rcases acquireNextChunk_cases s with ⟨chunk, source, hnext, hacquire⟩ | ⟨-, e, source, hacquire⟩
  · have hcut : (handOut chunk source s).derived.currentChunk.length = min chunk.length s.derived.remaining :=
      List.length_take.trans (Nat.min_comm _ _)
    rw [hnext] at hfits
    exact hacross.moves hacquire (hcut ▸ hfits _ rfl) fun spill t _ _ htook hstarted =>
      hmove t hstarted (hstarted.anchored (htook.small.trans hsmall))
  · exact hacross.keeps hacquire fun t _ hkept => hkeep e t hkept.anchored

/-- A next chunk that is too short is left. -/
theorem handOver_overruns (hsmall : s.derived.smallBuffer.length = smallBufferSize)
    (hmarker : s.derived.decomissionThreshold = threshold) (hwithin : threshold + overlap ≤ smallBufferSize)
    (hfits : ¬ ∀ room ∈ handedOut s.derived.remaining s.derived.source, overlap ≤ room) :
    (do
      acquireOrKeep overlap
      let moved ← tryMoveSmallBufferToNextChunk overlap
      f moved : Output ChunkedOutputStream Unit).Meets s fun r _ => r = .error .outOfBounds := by
  have hacross : Across s _ threshold overlap := ⟨hsmall, hmarker, hwithin, rfl⟩
  rcases acquireNextChunk_cases s with ⟨chunk, source, hnext, hacquire⟩ | ⟨hnone, -⟩
  · have hcut : (handOut chunk source s).derived.currentChunk.length = min chunk.length s.derived.remaining :=
      List.length_take.trans (Nat.min_comm _ _)
    refine hacross.overruns hacquire (Nat.lt_of_not_le fun hle => hfits fun room hroom => ?_)
    rw [hnext] at hroom
    cases hroom
    exact hle.trans hcut.le
  · refine absurd (fun room hroom => ?_) hfits
    rw [hnone] at hroom
    cases hroom

end HandOver

/-- The part of the small buffer that belongs to the chunk goes there. -/
theorem Anchored.flushed (h : Anchored s) (hwindow : s.derived.window = .small i) {threshold : Nat}
    (hmarker : s.derived.decomissionThreshold = threshold) (hn : n ≤ threshold) (hsmall : n ≤ smallBufferSize) :
    ∃ t, copyToChunkPart n (settle s) = (.ok (), t) ∧ t.derived.decomissionThreshold = threshold ∧
      t.derived.smallBuffer.length = smallBufferSize ∧ threshold ≤ t.derived.currentChunk.length ∧
      t.derived.remaining = s.derived.remaining ∧ t.derived.source = s.derived.source := by
  have hsettled := anchored_settle h
  have hnow : (settle s).derived.decomissionThreshold = threshold := settle_decomissionThreshold.trans hmarker
  have hle := (hsettled.onSmall i (settle_window.trans hwindow)).2.1
  rw [hnow] at hle
  have hchunk : threshold ≤ (settle s).derived.currentChunk.length := by omega
  refine ⟨_, copyToChunkPart_eq hnow hchunk hn (hsmall.trans hsettled.small.ge), hnow, hsettled.small, ?_,
    settle_remaining, settle_source⟩
  have hlen : ((settle s).derived.smallBuffer.take n).length ≤ n := List.length_take_le _ _
  rwa [overwrite_length (by omega)]

theorem Anchored.consumed (h : Anchored s) (hwindow : s.derived.window = .small i) :
    consumedSize (settle s) = (.ok (spilledSize s), settle s) ∧ spilledSize s ≤ smallBufferSize := by
  have hspan := (h.onSmall i hwindow).1
  rw [List.length_append] at hspan
  have hspilled : spilledSize s = i + s.behind.length := by rw [spilledSize, hwindow]
  rw [hspilled, settle_small hwindow, consumedSize]
  simp only [hwindow]
  exact ⟨trivial, by omega⟩

/-- What is left of the part of the small buffer that belongs to the chunk. -/
theorem anchored_flushed {threshold consumed : Nat} (hsmall : t.derived.smallBuffer.length = smallBufferSize)
    (hbyte : threshold < 2 ^ 7) (hlt : consumed < threshold) (hle : threshold ≤ t.derived.currentChunk.length) :
    Anchored ⟨[], t.derived.smallBuffer.drop 0, {t.derived with
      window := .small 0, decomissionThreshold := toSigned 8 ((threshold : Int) - toSigned 8 consumed)}⟩ := by
  have hsigned : toSigned 8 ((threshold : Int) - toSigned 8 consumed) = (threshold - consumed : Nat) := by
    have hfit : toSigned 8 consumed = consumed := toSigned_natCast (by omega)
    have hrest : toSigned 8 (threshold - consumed : Nat) = (threshold - consumed : Nat) :=
      toSigned_natCast (by omega)
    rw [hfit, ← Int.ofNat_sub hlt.le, hrest]
  rw [hsigned]
  refine anchored_small rfl hsmall ?_ ?_ ?_ ?_
  · dsimp only
    omega
  · rw [List.drop_zero, List.nil_append, hsmall, Nat.zero_add]
  · dsimp only
    omega
  · dsimp only
    omega

/-- Where the small buffer is in use, the memory is left only behind a chunk that is too short. -/
theorem ensure_spilled {rounds : Nat} (h : Anchored s) (hgrow : s.free.length < n)
    (hmarker : 0 ≤ s.derived.decomissionThreshold) :
    (@ensureSize _ (virtuals (rounds + 1)) n).Meets s fun r t =>
      (r ≠ .error .outOfBounds ↔ HandsOver n s) ∧ (r ≠ .error .outOfBounds → Anchored t) := by
  obtain ⟨threshold, hthreshold⟩ := Int.eq_ofNat_of_zero_le hmarker
  obtain ⟨i, hwindow⟩ := h.spilled hmarker
  obtain ⟨hconsumed, hspan⟩ := h.consumed hwindow
  have hbyte := h.byte
  have hnow : (settle s).derived.decomissionThreshold = threshold := settle_decomissionThreshold.trans hthreshold
  have hiff : HandsOver n s ↔ (threshold ≤ spilledSize s →
      ∀ room ∈ handedOut s.derived.remaining s.derived.source, spilledSize s - threshold ≤ room) := by
    rw [HandsOver, hthreshold, Int.toNat_natCast, Int.ofNat_le]
    exact ⟨fun hover => hover hgrow (Int.natCast_nonneg _), fun hover _ _ => hover⟩
  rw [hiff]
  refine .of_eq (z := doGrow (virtuals rounds) n) (@ensureSize_grow _ (virtuals (rounds + 1)) s n hgrow) ?_
  rw [doGrow]
  refine .step (a := ()) (t := settle s) rfl
    (.step (thresholdNow_eq hnow) (.ite_neg (by omega) (.step hconsumed ?_)))
  by_cases hflush : spilledSize s < threshold
  · obtain ⟨t, ht, hmarker', hsmall', hle', -, -⟩ := h.flushed hwindow hthreshold hflush.le hspan
    have hanchored := anchored_flushed hsmall' (by omega) hflush hle'
    refine .ite_pos (by omega) (.step ht (.step rfl (.step rfl (hanchored.granted.mono fun r u hu => ?_))))
    exact ⟨iff_of_true hu.1 fun hcross => absurd hflush (Nat.not_lt.mpr hcross), fun _ => hu.2⟩
  · have hcross := Nat.le_of_not_lt hflush
    obtain ⟨t, ht, hmarker', hsmall', -, hremaining, hsource⟩ :=
      h.flushed hwindow hthreshold (Nat.le_refl _) (hcross.trans hspan)
    refine .ite_neg (by omega) (.step ht ?_)
    rw [← hremaining, ← hsource, Int.toNat_natCast, forall_prop_of_true hcross]
    by_cases hfits : ∀ room ∈ handedOut t.derived.remaining t.derived.source, spilledSize s - threshold ≤ room
    · have hnegative : ∀ u, Started u → u.derived.decomissionThreshold < 0 := fun u hu => by
        rw [hu.marker]
        decide
      refine meets_handOver hsmall' hmarker' (by omega) hfits
        (fun e u hu => ⟨iff_of_true (fun h => by cases h) hfits, fun _ => hu⟩) fun u hstarted hanchored => ?_
      refine .step rfl (.ite_neg (fun hboth => by cases hboth.1) ?_)
      exact (ensure_unspilled hanchored (hnegative u hstarted)).mono fun r _ hr => ⟨iff_of_true hr.1 hfits, fun _ => hr.2⟩
    · refine (handOver_overruns hsmall' hmarker' (by omega) hfits).mono fun r u hr => ?_
      exact ⟨iff_of_false (fun hne => hne hr) hfits, fun hne => absurd hr hne⟩

/-- An `ensure_size` leaves the memory only behind a chunk that is too short for what was spilled. -/
theorem ensureSize_anchored (h : Anchored s) :
    (ensureSize n).Meets s fun r t =>
      (r ≠ .error .outOfBounds ↔ HandsOver n s) ∧ (r ≠ .error .outOfBounds → Anchored t) := by
  refine .of_eq (ensureSize_rounds n s) ?_
  by_cases hlen : n ≤ s.free.length
  · refine Action.meets_of_eq (@ensureSize_enough _ (virtuals (s.derived.source.length + 2)) s n hlen) ?_
    exact ⟨iff_of_true nofun fun hgrow => absurd hlen (Nat.not_le.mpr hgrow), fun _ => h⟩
  · by_cases hmarker : s.derived.decomissionThreshold < 0
    · refine (ensure_unspilled h hmarker).mono fun r t ht => ⟨iff_of_true ht.1 fun _ hspilled => ?_, fun _ => ht.2⟩
      exact absurd hmarker (Int.not_lt.mpr hspilled)
    · exact ensure_spilled h (Nat.lt_of_not_le hlen) (Int.not_lt.mp hmarker)

/-! ### Writing in bulk -/

/-- Nothing is spanned that could be written to. -/
structure Idle (s : OutputBuffer ChunkedOutputStream) : Prop where
  framed : Framed s
  marker : s.derived.decomissionThreshold < 0
  free : s.free = []
  window : ∀ i, s.derived.window ≠ .chunk i

theorem Idle.anchored (h : Idle s) : Anchored s := by
  have hmarker := h.marker
  refine ⟨h.framed.small, by omega, fun i hi => absurd hi (h.window i), fun i hi => ?_, fun _ => ⟨hmarker, h.free⟩⟩
  exact ⟨h.framed.spans i hi, by omega, fun _ hne => absurd h.free hne⟩

/-- Another chunk, which is not spanned yet. -/
theorem idle_handOut (h : Anchored s) (hmarker : s.derived.decomissionThreshold < 0) (hfree : s.free = [])
    (chunk : List UInt8) (source : List (Except Errc (List UInt8))) : Idle (handOut chunk source s) := by
  refine ⟨framed_handOut h.framed chunk source, hmarker, hfree, fun i hi => ?_⟩
  rw [handOut] at hi
  rcases hwindow : s.derived.window with j | j | _ <;> simp only [hwindow] at hi <;> cases hi

theorem preserves_idle_copyToChunk (i : Nat) (bytes : List UInt8) : (copyToChunk i bytes).Preserves Idle := by
  intro s h
  rw [copyToChunk]
  split
  · exact ⟨⟨h.framed.small, h.framed.spans⟩, h.marker, h.free, h.window⟩
  · exact h

theorem preserves_idle_acquireNextChunk : acquireNextChunk.Preserves Idle := by
  intro s h
  rcases acquireNextChunk_cases s with ⟨chunk, source, -, hacquire⟩ | ⟨-, e, source, hacquire⟩ <;> rw [hacquire]
  · exact idle_handOut h.anchored h.marker h.free chunk source
  · exact ⟨⟨h.framed.small, h.framed.spans⟩, h.marker, h.free, h.window⟩

theorem preserves_idle_writeChunks (rounds : Nat) (bytes : List UInt8) : (writeChunks rounds bytes).Preserves Idle := by
  induction rounds generalizing bytes with
  | zero => exact Action.preserves_fail _
  | succ rounds ih =>
    refine (Action.preserves_gets _).bind fun chunk => (preserves_idle_copyToChunk _ _).bind fun _ => ?_
    refine .ite (preserves_idle_acquireNextChunk.bind fun _ => ?_) (Action.Preserves.bind ?_ fun _ => ?_)
    · exact .ite (ih _) (Action.preserves_pure _)
    · exact Action.preserves_modify fun s h => ⟨⟨h.framed.small, h.framed.spans⟩, h.marker, h.free, h.window⟩
    · exact .ite (ih _) (Action.preserves_pure _)

/-- The chunks are written to one after the other, and then the last one is spanned. -/
theorem Idle.writes (h : Idle s) :
    (do
      let source ← Action.gets fun s => s.derived.source
      writeChunks (source.length + 1) bytes
      resetToChunk 0 : Output ChunkedOutputStream Unit).Meets s fun _ t => Anchored t := by
  refine .step rfl ?_
  have hidle := preserves_idle_writeChunks (s.derived.source.length + 1) bytes s h
  rcases hwrites : writeChunks (s.derived.source.length + 1) bytes s with ⟨e | _, t⟩ <;> rw [hwrites] at hidle
  · exact .stop hwrites hidle.anchored
  · refine .step hwrites (Action.meets_of_eq rfl (anchored_chunk rfl hidle.framed.small hidle.marker ?_))
    simp

/-- The next chunk is written to. -/
theorem Anchored.bulk_next (h : Anchored s) (hmarker : s.derived.decomissionThreshold < 0) (hfree : s.free = []) :
    (do
      acquireNextChunk
      let source ← Action.gets fun s => s.derived.source
      writeChunks (source.length + 1) bytes
      resetToChunk 0 : Output ChunkedOutputStream Unit).Meets s fun _ t => Anchored t := by
  rcases acquireNextChunk_cases s with ⟨chunk, source, -, hacquire⟩ | ⟨-, e, source, hacquire⟩
  · exact .step hacquire (idle_handOut h hmarker hfree chunk source).writes
  · exact .stop hacquire (h.withSource source)

theorem doBulkWrite_anchored (h : Anchored s) (hfree : s.free = []) :
    (doBulkWrite bytes).Meets s fun r t => r ≠ .error .outOfBounds → Anchored t := by
  have hsettled := anchored_settle h
  rw [doBulkWrite]
  refine .step (a := ()) (t := settle s) rfl (.step (thresholdNow_eq settle_decomissionThreshold) ?_)
  by_cases hmarker : s.derived.decomissionThreshold < 0
  · refine .ite_neg (Int.not_le.mpr hmarker) (.mono ?_ fun _ _ ht _ => ht)
    exact hsettled.bulk_next (settle_decomissionThreshold.trans_lt hmarker) (settle_free.trans hfree)
  · obtain ⟨threshold, hthreshold⟩ := Int.eq_ofNat_of_zero_le (Int.not_lt.mp hmarker)
    obtain ⟨i, hwindow⟩ := h.spilled (Int.not_lt.mp hmarker)
    have hbyte := h.byte
    refine .ite_pos (Int.not_lt.mp hmarker) ?_
    rw [hthreshold, Int.toNat_natCast]
    by_cases hlarge : threshold ≤ smallBufferSize
    · obtain ⟨t, ht, hmarker', hsmall', -⟩ := h.flushed hwindow hthreshold (Nat.le_refl _) hlarge
      have hoverlap : wrapSub 64 smallBufferSize threshold = smallBufferSize - threshold :=
        wrapSub_of_le hlarge (by decide)
      rw [hoverlap]
      refine .step ht ?_
      by_cases hfits : ∀ room ∈ handedOut t.derived.remaining t.derived.source, smallBufferSize - threshold ≤ room
      · refine meets_handOver hsmall' hmarker' (by omega) hfits (fun e u hu _ => hu) fun u hstarted hanchored => ?_
        refine .step rfl (.step rfl ?_)
        have hidle : Idle (resetToNothing u).2 := by
          refine ⟨⟨hanchored.small, fun j hj => by cases hj⟩, ?_, rfl, fun j hj => by cases hj⟩
          exact hstarted.marker.trans_lt (by decide)
        exact hidle.writes.mono fun _ _ hr _ => hr
      · exact (handOver_overruns hsmall' hmarker' (by omega) hfits).mono fun r u hr hne => absurd hr hne
    · -- the small buffer does not have so many bytes
      have hnow : (settle s).derived.decomissionThreshold = threshold := settle_decomissionThreshold.trans hthreshold
      have hle := (hsettled.onSmall i (settle_window.trans hwindow)).2.1
      have hsmall := hsettled.small
      have hspan : smallSpan 0 threshold (settle s) = (.error .outOfBounds, settle s) := if_neg (by omega)
      refine .stop (t := settle s) ?_ fun hne => absurd rfl hne
      rw [copyToChunkPart, decomissionThresholdNow, Action.gets_bind_apply, hnow, currentChunkNow,
        Action.gets_bind_apply, if_neg (by omega), Action.bind_error _ hspan]

/-! ### Synchronizing -/

theorem syncOutput_anchored (h : Anchored s) :
    syncOutput.Meets s fun r t => r ≠ .error .outOfBounds → Anchored t := by
  have hsettled := anchored_settle h
  rw [syncOutput]
  refine .step (a := ()) (t := settle s) rfl (.step (thresholdNow_eq settle_decomissionThreshold) ?_)
  by_cases hmarker : s.derived.decomissionThreshold < 0
  · exact .ite_pos hmarker (Action.meets_of_eq rfl fun _ => hsettled)
  · obtain ⟨threshold, hthreshold⟩ := Int.eq_ofNat_of_zero_le (Int.not_lt.mp hmarker)
    obtain ⟨i, hwindow⟩ := h.spilled (Int.not_lt.mp hmarker)
    obtain ⟨hconsumed, hspan⟩ := h.consumed hwindow
    have hbyte := h.byte
    refine .ite_neg hmarker (.step hconsumed ?_)
    rw [hthreshold]
    by_cases hwithin : spilledSize s ≤ threshold
    · obtain ⟨t, ht, hmarker', hsmall', hle', -, -⟩ := h.flushed hwindow hthreshold hwithin hspan
      refine .ite_pos (by omega) (.step ht ?_)
      by_cases hfull : spilledSize s = threshold
      · refine .ite_pos (by omega) (.step rfl (.step rfl (Action.meets_of_eq rfl fun _ => ?_)))
        refine anchored_chunk rfl hsmall' (Int.negSucc_lt_zero 0) ?_
        simp
      · have hlt := Nat.lt_of_le_of_ne hwithin hfull
        refine .ite_neg (by omega) (.step rfl (Action.meets_of_eq rfl fun _ => ?_))
        exact anchored_flushed hsmall' (by omega) hlt hle'
    · have hcross := Nat.lt_of_not_le hwithin
      obtain ⟨t, ht, hmarker', hsmall', -⟩ :=
        h.flushed hwindow hthreshold (Nat.le_refl _) (hcross.le.trans hspan)
      refine .ite_neg (by omega) ?_
      rw [Int.toNat_natCast]
      refine .step ht ?_
      by_cases hfits : ∀ room ∈ handedOut t.derived.remaining t.derived.source, spilledSize s - threshold ≤ room
      · exact meets_handOver hsmall' hmarker' (by omega) hfits (fun e u hu _ => hu) fun u _ hanchored =>
          Action.meets_of_eq rfl fun _ => hanchored
      · exact (handOver_overruns hsmall' hmarker' (by omega) hfits).mono fun r u hr hne => absurd hr hne

/-! ### Runs -/

/-- A call that stays in the memory leaves the stream where it can go on. -/
theorem anchored_performOn {call : OutputCall} (h : Anchored s) (hwithin : StaysWithin call s) :
    Anchored (performOn call s) := by
  cases call with
  | ensureSize n => exact (ensureSize_anchored h).2 hwithin
  | store i bytes =>
    by_cases hroom : i + bytes.length ≤ s.free.length
    · rw [performOn, perform, store_apply hroom]
      exact h.wrote (wrote_store hroom)
    · refine absurd ?_ hwithin
      rw [perform, store, if_neg hroom]
  | commitWritten n =>
    by_cases hroom : n ≤ s.free.length
    · rw [performOn, perform, commitWritten_apply hroom]
      exact h.wrote (wrote_commit hroom)
    · refine absurd ?_ hwithin
      rw [perform, commitWritten, if_neg hroom]
  | bulkWrite bytes =>
    by_cases hlen : bytes.length ≤ s.free.length
    · obtain ⟨t, ht, hwrote⟩ := bulkWrite_fits hlen
      rw [performOn, perform, ht]
      exact h.wrote hwrote
    · obtain ⟨t, ht, hfree, hwrote⟩ := bulkWrite_wrote (Nat.lt_of_not_le hlen)
      rw [StaysWithin, perform, ht] at hwithin
      rw [performOn, perform, ht]
      exact doBulkWrite_anchored (h.wrote hwrote) hfree hwithin
  | syncOutput => exact syncOutput_anchored h hwithin

theorem anchored_reached {initialWriteArea : List UInt8} {remaining : Nat} {source : List (Except Errc (List UInt8))}
    {calls : List OutputCall}
    (hwithin : EveryStep performOn StaysWithin calls (chunkedOutput initialWriteArea remaining source)) :
    Anchored (reached initialWriteArea remaining source calls) := by
  refine hwithin.reaches Anchored (anchored_chunk (i := 0) rfl List.length_replicate (Int.negSucc_lt_zero 0) ?_)
    fun call s => anchored_performOn
  rw [chunkedOutput, List.nil_append, Nat.zero_add]

/-- Whatever the calls before that stayed in the memory: an `ensure_size` leaves the memory exactly where it hands
over to a chunk that is too short. Where it does not, a success leaves the room that was asked for exactly if a chunk
that is taken as it comes has it. -/
theorem ensureSize_leavesRoom_iff {initialWriteArea : List UInt8} {remaining : Nat}
    {source : List (Except Errc (List UInt8))} {calls : List OutputCall} (hn : n ≤ minimumOutputBufferSize)
    (hwithin : EveryStep performOn StaysWithin calls (chunkedOutput initialWriteArea remaining source)) :
    (StaysWithin (.ensureSize n) (reached initialWriteArea remaining source calls) ↔
      HandsOver n (reached initialWriteArea remaining source calls)) ∧
    (HandsOver n (reached initialWriteArea remaining source calls) →
      ((∀ t, ensureSize n (reached initialWriteArea remaining source calls) = (.ok (), t) → n ≤ t.free.length) ↔
        Roomy n (reached initialWriteArea remaining source calls))) := by
  have hanchored := anchored_reached hwithin
  refine ⟨(ensureSize_anchored hanchored).1, fun _ => Iff.trans ?_ (ensureSize_roomy hanchored.framed hn)⟩
  constructor
  · intro h hok
    exact h _ (Prod.ext hok rfl)
  · intro h t ht
    rw [ht] at h
    exact h rfl

/-- 49 bytes are spilled behind a chunk, and the next one has room for them and forty more. -/
theorem ensureSize_leavesRoom_spilled :
    StaysWithin (.ensureSize 40) (reached [0] 89 [.ok (List.replicate 89 0)] [.ensureSize 2, .commitWritten 50]) ∧
    (∀ t, ensureSize 40 (reached [0] 89 [.ok (List.replicate 89 0)] [.ensureSize 2, .commitWritten 50]) =
      (.ok (), t) → 40 ≤ t.free.length) ∧
    FillsNext (reached [0] 49 [.ok (List.replicate 49 0)] [.ensureSize 2, .commitWritten 50]) := by
  have hwithin : EveryStep performOn StaysWithin [.ensureSize 2, .commitWritten 50]
      (chunkedOutput [0] 89 [.ok (List.replicate 89 0)]) :=
    ⟨by rw [StaysWithin]; decide +kernel, by rw [StaysWithin]; decide +kernel, trivial⟩
  have hroom := ensureSize_leavesRoom_iff (n := 40) (by decide) hwithin
  have hover : HandsOver 40 (reached [0] 89 [.ok (List.replicate 89 0)] [.ensureSize 2, .commitWritten 50]) := by
    decide +kernel
  exact ⟨hroom.1.mpr hover, (hroom.2 hover).mpr (by decide +kernel), by decide +kernel⟩

/-- The next chunk has one byte, and two were asked for. -/
theorem short_chunk_is_taken : ¬ ∀ initialWriteArea remaining source calls n,
    (∀ chunk, .ok chunk ∈ source → chunk ≠ []) → n ≤ minimumOutputBufferSize →
      ∀ t, ensureSize n (reached initialWriteArea remaining source calls) = (.ok (), t) → n ≤ t.free.length := by
  intro h
  have hroom := h [] 1 [.ok [0]] [] 2 (fun chunk hchunk => ?_) (by decide) _ (Prod.ext (by decide) rfl)
  · revert hroom
    decide
  · obtain rfl := Except.ok.inj (List.mem_singleton.mp hchunk)
    exact List.cons_ne_nil 0 []

end ChunkedOutputStream
end DeepPack
