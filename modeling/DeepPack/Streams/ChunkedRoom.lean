import DeepPack.Streams.AppendLog

/-! The room that `ensure_size` leaves.

Where the small buffer comes into use it is larger than anything that may be asked for. But a
chunk that is written to directly is taken as it comes: `do_grow` does not compare it with what
was asked for. -/
namespace DeepPack
open Library OutputBuffer

namespace ChunkedOutputStream

/-- What was spilled behind the current chunk is just as long as the next one. -/
def FillsNext (s : OutputBuffer ChunkedOutputStream) : Prop :=
  match s.derived.window with
  | .small i => 0 ≤ s.derived.decomissionThreshold ∧
      s.derived.decomissionThreshold ≤ (i + s.behind.length : Nat) ∧
      s.derived.decomissionThreshold ≤ s.derived.currentChunk.length ∧
      handedOut s.derived.remaining s.derived.source =
        some (i + s.behind.length - s.derived.decomissionThreshold.toNat)
  | _ => False

instance (s : OutputBuffer ChunkedOutputStream) : Decidable (FillsNext s) :=
  match h : s.derived.window with
  | .small i => decidable_of_iff (0 ≤ s.derived.decomissionThreshold ∧
      s.derived.decomissionThreshold ≤ (i + s.behind.length : Nat) ∧
      s.derived.decomissionThreshold ≤ s.derived.currentChunk.length ∧
      handedOut s.derived.remaining s.derived.source =
        some (i + s.behind.length - s.derived.decomissionThreshold.toNat)) (by rw [FillsNext, h])
  | .chunk _ => isFalse (by rw [FillsNext, h]; exact id)
  | .nowhere => isFalse (by rw [FillsNext, h]; exact id)

/-- A chunk that is asked for directly has room for so many bytes: the next one where a chunk is full and the small
buffer not in use, and the one behind it where the next one is filled from the small buffer. -/
def Roomy (n : Nat) (s : OutputBuffer ChunkedOutputStream) : Prop :=
  s.free.length < n →
    (s.derived.decomissionThreshold < 0 → s.free = [] →
      ∀ room ∈ handedOut s.derived.remaining s.derived.source, n ≤ room) ∧
    (FillsNext s → ∀ room ∈ handedOut (wrapSub 64 s.derived.remaining (spilledSize s -
      s.derived.decomissionThreshold.toNat)) s.derived.source.tail, n ≤ room)

instance (n : Nat) (s : OutputBuffer ChunkedOutputStream) : Decidable (Roomy n s) :=
  inferInstanceAs (Decidable (s.free.length < n → (_ → _ → ∀ room ∈ handedOut _ _, n ≤ room) ∧
    (FillsNext s → ∀ room ∈ handedOut _ _, n ≤ room)))

/-- The small buffer is as large as it was, and what is written to it stays in it. -/
structure Framed (s : OutputBuffer ChunkedOutputStream) : Prop where
  small : s.derived.smallBuffer.length = smallBufferSize
  spans : ∀ i, s.derived.window = .small i → i + (s.behind ++ s.free).length ≤ smallBufferSize

variable {s t : OutputBuffer ChunkedOutputStream} {n : Nat}

/-! ### The small buffer is kept -/

theorem framed_settle (h : Framed s) : Framed (settle s) := by
  rcases hwindow : s.derived.window with i | i | _
  · rw [settle_chunk hwindow]
    exact ⟨h.small, h.spans⟩
  · rw [settle_small hwindow]
    have hspan := h.spans i hwindow
    refine ⟨(overwrite_length (hspan.trans h.small.ge)).trans h.small, h.spans⟩
  · rwa [settle_nowhere hwindow]

theorem preserves_copyToChunk (i : Nat) (bytes : List UInt8) : (copyToChunk i bytes).Preserves Framed := by
  intro s h
  rw [copyToChunk]
  split
  · exact ⟨h.small, h.spans⟩
  · exact h

theorem preserves_smallSpan (i : Int) (n : Nat) : (smallSpan i n).Preserves Framed := by
  intro s h
  rw [smallSpan]
  split <;> exact h

theorem preserves_copyToChunkPart (n : Nat) : (copyToChunkPart n).Preserves Framed := by
  refine (Action.preserves_gets _).bind fun threshold => (Action.preserves_gets _).bind fun chunk => ?_
  exact (Action.preserves_fail _).ite ((preserves_smallSpan 0 n).bind fun bytes => preserves_copyToChunk _ bytes)

theorem framed_handOut (h : Framed s) (chunk : List UInt8) (source : List (Except Errc (List UInt8))) :
    Framed (handOut chunk source s) := by
  refine ⟨h.small, fun i hi => ?_⟩
  rw [handOut] at hi
  rcases hwindow : s.derived.window with j | j | _ <;> simp only [hwindow] at hi
  · cases hi
  · cases hi
    exact h.spans _ hwindow
  · cases hi

/-! ### What `ensure_size` leaves -/

/-- A success has left so many bytes. -/
def LeavesRoom (n : Nat) (r : Except Fault Unit) (t : OutputBuffer ChunkedOutputStream) : Prop :=
  r = .ok () → n ≤ t.free.length

theorem leavesRoom_error {e : Fault} {t : OutputBuffer ChunkedOutputStream} : LeavesRoom n (.error e) t :=
  fun hok => by cases hok

/-- Where the small buffer is not in use, the next chunk is taken as it comes. -/
theorem ensure_direct {rounds : Nat} (h : Framed s) (hn : n ≤ minimumOutputBufferSize)
    (hmarker : s.derived.decomissionThreshold < 0) :
    (@ensureSize _ (virtuals (rounds + 1)) n).Meets s fun r t => LeavesRoom n r t ↔
      (s.free.length < n → s.free = [] → ∀ room ∈ handedOut s.derived.remaining s.derived.source, n ≤ room) := by
  by_cases hlen : n ≤ s.free.length
  · refine Action.meets_of_eq (@ensureSize_enough _ (virtuals (rounds + 1)) s n hlen) ?_
    exact iff_of_true (fun _ => hlen) fun hlt => absurd hlen (Nat.not_le.mpr hlt)
  · have hlt := Nat.lt_of_not_le hlen
    refine .of_eq (z := doGrow (virtuals rounds) n) (@ensureSize_grow _ (virtuals (rounds + 1)) s n hlt) ?_
    rw [doGrow]
    refine .step (a := ()) (t := settle s) rfl
      (.step (thresholdNow_eq settle_decomissionThreshold) (.ite_pos hmarker (.step size_settle ?_)))
    by_cases hfree : s.free = []
    · refine .ite_pos (congrArg List.length hfree) ?_
      rw [← settle_remaining, ← settle_source]
      rcases acquireNextChunk_cases (settle s) with ⟨chunk, source, hsource, hacquire⟩ | ⟨hnone, e, t, hacquire⟩
      · refine .step hacquire (Action.meets_of_eq rfl ?_)
        have hroom : ((chunk.take (settle s).derived.remaining).drop 0).length =
            min chunk.length (settle s).derived.remaining := by
          rw [List.drop_zero, List.length_take, Nat.min_comm]
        rw [hsource]
        constructor
        · intro hleaves _ _ room hmem
          cases hmem
          exact hroom ▸ hleaves rfl
        · intro hnext _
          exact (hnext hlt hfree _ rfl).trans hroom.ge
      · refine .stop hacquire (iff_of_true leavesRoom_error fun _ _ room hmem => ?_)
        rw [hnone] at hmem
        cases hmem
    · have hsmall := (framed_settle h).small
      have hminimum : minimumOutputBufferSize = 40 := rfl
      have hbuffer : smallBufferSize = 78 := rfl
      refine .ite_neg (fun hzero => hfree (List.length_eq_zero_iff.mp hzero)) ?_
      refine .step size_settle (.step rfl (.step rfl (.ite_neg (by omega) (Action.meets_of_eq rfl ?_))))
      refine iff_of_true (fun _ => ?_) fun _ hnil => absurd hnil hfree
      show n ≤ ((settle s).derived.smallBuffer.drop 0).length
      rw [List.drop_zero, hsmall]
      omega

/-- What was spilled behind the current chunk goes to the next one. If that is filled, the one behind it is
taken as it comes. -/
theorem ensure_handOver {rounds threshold overlap : Nat} (hsmall : s.derived.smallBuffer.length = smallBufferSize)
    (hmarker : s.derived.decomissionThreshold = threshold) (hwithin : threshold + overlap ≤ smallBufferSize)
    (hn : n ≤ minimumOutputBufferSize) (hpos : 0 < n) :
    (do
      acquireOrKeep overlap
      let moved ← tryMoveSmallBufferToNextChunk overlap
      if moved = false ∧ (← Action.gets fun s => s.derived.remaining) = 0 then err .endOfStream
      else @ensureSize _ (virtuals (rounds + 1)) n : Output ChunkedOutputStream Unit).Meets s fun r t =>
        LeavesRoom n r t ↔ (handedOut s.derived.remaining s.derived.source = some overlap →
          ∀ room ∈ handedOut (wrapSub 64 s.derived.remaining overlap) s.derived.source.tail, n ≤ room) := by
  have hacross : Across s _ threshold overlap := ⟨hsmall, hmarker, hwithin, rfl⟩
  rcases acquireNextChunk_cases s with ⟨chunk, source, hnext, hacquire⟩ | ⟨hnone, e, source, hacquire⟩
  · have hcut : (handOut chunk source s).derived.currentChunk.length = min chunk.length s.derived.remaining :=
      List.length_take.trans (Nat.min_comm _ _)
    have hleft : (handOut chunk source s).derived.remaining =
        wrapSub 64 s.derived.remaining (handOut chunk source s).derived.currentChunk.length := rfl
    rw [hnext, handedOut, Option.some.injEq, List.tail_cons, ← hcut]
    by_cases hroom : overlap ≤ (handOut chunk source s).derived.currentChunk.length
    · refine hacross.moves hacquire hroom fun spill t _ hlen htook hstarted => ?_
      refine .step rfl (.ite_neg (fun hboth => by cases hboth.1) ?_)
      have hchunk := htook.chunk
      have hframed : Framed t := ⟨htook.small.trans hsmall, fun _ hj => by
        rw [hstarted.window] at hj
        cases hj⟩
      have hbelow : t.derived.decomissionThreshold < 0 := by
        rw [hstarted.marker]
        decide
      refine (ensure_direct hframed hn hbelow).mono fun r u hu => hu.trans ?_
      rw [htook.remaining, htook.source, hstarted.free, hleft]
      constructor
      · intro hdirect hexact
        have hfree : t.derived.currentChunk = [] := List.length_eq_zero_iff.mp (by omega)
        rw [← hexact]
        exact hdirect (by rwa [hfree]) hfree
      · intro hfills _ hfree
        rw [hfree, List.length_nil, hlen] at hchunk
        rw [← hchunk]
        exact hfills hchunk.symm
    · refine (hacross.overruns hacquire (Nat.lt_of_not_le hroom)).mono fun r u hr => ?_
      rw [hr]
      exact iff_of_true leavesRoom_error fun hexact => absurd hexact.ge hroom
  · refine hacross.keeps hacquire fun t _ _ => iff_of_true leavesRoom_error fun hfills => ?_
    rw [hnone] at hfills
    cases hfills

theorem fillsNext_iff {i threshold : Nat} (hwindow : s.derived.window = .small i)
    (hthreshold : s.derived.decomissionThreshold = threshold) :
    FillsNext s ↔ threshold ≤ i + s.behind.length ∧ threshold ≤ s.derived.currentChunk.length ∧
      handedOut s.derived.remaining s.derived.source = some (i + s.behind.length - threshold) := by
  rw [FillsNext, hwindow]
  dsimp only
  rw [hthreshold, Int.toNat_natCast, Int.ofNat_le, Int.ofNat_le, and_iff_right (Int.natCast_nonneg _)]

theorem FillsNext.small (h : FillsNext s) : ∃ i, s.derived.window = .small i := by
  rw [FillsNext] at h
  split at h
  · rename_i i hwindow
    exact ⟨i, hwindow⟩
  · exact h.elim

theorem consumedSize_outside (hout : ¬ ∃ i, s.derived.window = .small i) :
    consumedSize s = (.error .outOfBounds, s) := by
  rw [consumedSize]
  split
  · rename_i i hwindow
    exact absurd ⟨i, hwindow⟩ hout
  · rfl

/-- A part longer than the chunk is not copied. -/
theorem copyToChunkPart_short {threshold : Nat} (hmarker : s.derived.decomissionThreshold = threshold)
    (hlt : s.derived.currentChunk.length < threshold) :
    copyToChunkPart n s = (.error .outOfBounds, s) := by
  rw [copyToChunkPart, decomissionThresholdNow, Action.gets_bind_apply, hmarker, currentChunkNow,
    Action.gets_bind_apply, if_pos (by omega)]
  rfl

/-- Where the small buffer is in use, only a chunk behind the next one may be taken as it comes. -/
theorem ensure_small {rounds : Nat} (h : Framed s) (hn : n ≤ minimumOutputBufferSize) (hlt : s.free.length < n)
    (hmarker : 0 ≤ s.derived.decomissionThreshold) :
    (@ensureSize _ (virtuals (rounds + 2)) n).Meets s fun r t => LeavesRoom n r t ↔
      (FillsNext s → ∀ room ∈ handedOut (wrapSub 64 s.derived.remaining (spilledSize s -
        s.derived.decomissionThreshold.toNat)) s.derived.source.tail, n ≤ room) := by
  obtain ⟨threshold, hthreshold⟩ := Int.eq_ofNat_of_zero_le hmarker
  have hsettled := framed_settle h
  have hsmall := hsettled.small
  have hnow : (settle s).derived.decomissionThreshold = threshold := settle_decomissionThreshold.trans hthreshold
  have hminimum : minimumOutputBufferSize = 40 := rfl
  have hbuffer : smallBufferSize = 78 := rfl
  refine .of_eq (z := doGrow (virtuals (rounds + 1)) n) (@ensureSize_grow _ (virtuals (rounds + 2)) s n hlt) ?_
  rw [doGrow]
  refine .step (a := ()) (t := settle s) rfl (.step (thresholdNow_eq hnow) (.ite_neg (by omega) ?_))
  by_cases hin : ∃ i, s.derived.window = .small i
  · obtain ⟨i, hwindow⟩ := hin
    have hconsumed : consumedSize (settle s) = (.ok (i + s.behind.length), settle s) := by
      rw [settle_small hwindow, consumedSize]
      simp only [hwindow]
    have hspan : i + s.behind.length ≤ smallBufferSize := by
      have hspans := h.spans i hwindow
      rw [List.length_append] at hspans
      omega
    have hspilled : spilledSize s = i + s.behind.length := by rw [spilledSize, hwindow]
    have hchunk : (settle s).derived.currentChunk = s.derived.currentChunk := by rw [settle_small hwindow]
    rw [fillsNext_iff hwindow hthreshold, hspilled, hthreshold, Int.toNat_natCast, ← settle_remaining,
      ← settle_source, ← hchunk]
    generalize i + s.behind.length = consumed at hconsumed hspan
    refine .step hconsumed ?_
    by_cases hflush : consumed < threshold
    · have hframed := preserves_copyToChunkPart consumed _ hsettled
      refine .ite_pos (by omega) ?_
      rcases hcopy : copyToChunkPart consumed (settle s) with ⟨e | _, t⟩ <;> rw [hcopy] at hframed
      · exact .stop hcopy (iff_of_true leavesRoom_error fun hfills => absurd hfills.1 (Nat.not_le.mpr hflush))
      · refine .step hcopy (.step rfl (.step rfl (.ite_neg (by omega) (Action.meets_of_eq rfl ?_))))
        refine iff_of_true (fun _ => ?_) fun hfills => absurd hfills.1 (Nat.not_le.mpr hflush)
        show n ≤ (t.derived.smallBuffer.drop 0).length
        rw [List.drop_zero, hframed.small]
        omega
    · have hcross : threshold ≤ consumed := Nat.le_of_not_lt hflush
      refine .ite_neg (by omega) ?_
      by_cases hfit : threshold ≤ (settle s).derived.currentChunk.length
      · have hcopy := copyToChunkPart_eq hnow hfit (Nat.le_refl _) (by omega)
        have hwithin : threshold + (consumed - threshold) ≤ smallBufferSize := by omega
        refine .step hcopy ?_
        generalize hu : ({settle s with derived := _} : OutputBuffer ChunkedOutputStream) = u
        have husmall : u.derived.smallBuffer.length = smallBufferSize := hu ▸ hsmall
        have humarker : u.derived.decomissionThreshold = threshold := hu ▸ hnow
        have hsource : (settle s).derived.source = u.derived.source := hu ▸ rfl
        have hremaining : (settle s).derived.remaining = u.derived.remaining := hu ▸ rfl
        rw [hsource, hremaining]
        refine (ensure_handOver husmall humarker hwithin hn (by omega)).mono fun r t ht => ht.trans ?_
        exact ⟨fun hnext hfills => hnext hfills.2.2, fun hnext hexact => hnext ⟨hcross, hfit, hexact⟩⟩
      · have hout : copyToChunkPart threshold (settle s) = (.error .outOfBounds, settle s) :=
          copyToChunkPart_short hnow (Nat.lt_of_not_le hfit)
        exact .stop hout (iff_of_true leavesRoom_error fun hfills => absurd hfills.2.1 hfit)
  · have hout : consumedSize (settle s) = (.error .outOfBounds, settle s) :=
      consumedSize_outside (by rwa [settle_window])
    exact .stop hout (iff_of_true leavesRoom_error fun hfills => absurd hfills.small hin)

theorem ensureSize_roomy (h : Framed s) (hn : n ≤ minimumOutputBufferSize) :
    (ensureSize n).Meets s fun r t => LeavesRoom n r t ↔ Roomy n s := by
  refine .of_eq (ensureSize_rounds n s) ?_
  by_cases hlen : n ≤ s.free.length
  · refine Action.meets_of_eq (@ensureSize_enough _ (virtuals (s.derived.source.length + 2)) s n hlen) ?_
    exact iff_of_true (fun _ => hlen) fun hlt => absurd hlen (Nat.not_le.mpr hlt)
  · have hlt := Nat.lt_of_not_le hlen
    by_cases hmarker : s.derived.decomissionThreshold < 0
    · have hfills : ¬ FillsNext s := by
        rw [FillsNext]
        split
        · exact fun hfills => absurd hmarker (Int.not_lt.mpr hfills.1)
        · exact id
      refine (ensure_direct h hn hmarker).mono fun r t ht => ht.trans ?_
      exact ⟨fun hdirect hgrow => ⟨fun _ => hdirect hgrow, fun hnext => absurd hnext hfills⟩,
        fun hroomy hgrow => (hroomy hgrow).1 hmarker⟩
    · refine (ensure_small h hn hlt (Int.not_lt.mp hmarker)).mono fun r t ht => ht.trans ?_
      exact ⟨fun hnext hgrow => ⟨fun hbelow => absurd hbelow hmarker, hnext⟩, fun hroomy => (hroomy hlt).2⟩

/-! ### Runs -/

def performOn (call : OutputCall) (s : OutputBuffer ChunkedOutputStream) : OutputBuffer ChunkedOutputStream :=
  (perform call s).2

/-- The state that calls on a stream into chunks lead to. -/
def reached (initialWriteArea : List UInt8) (remaining : Nat) (source : List (Except Errc (List UInt8)))
    (calls : List OutputCall) : OutputBuffer ChunkedOutputStream :=
  runSteps performOn calls (chunkedOutput initialWriteArea remaining source)

end ChunkedOutputStream
end DeepPack
