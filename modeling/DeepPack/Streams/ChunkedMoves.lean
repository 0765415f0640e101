import DeepPack.Streams.ChunkedStates

/-! What the virtual functions of a stream into chunks do with the bytes that were written.

The rules follow the branches of `do_grow`, `do_bulk_write` and `do_sync_output`; what becomes
of the next chunk is left to who uses them. -/
namespace DeepPack
open Library OutputBuffer

namespace ChunkedOutputStream
variable {s t u : OutputBuffer ChunkedOutputStream} {base out bytes : List UInt8}
  {threshold consumed overlap i n : Nat} {R : Except Fault Unit → OutputBuffer ChunkedOutputStream → Prop}

/-! ### The next chunk -/

/-- A chunk is handed out, or there is none. -/
theorem acquireNextChunk_cases (s : OutputBuffer ChunkedOutputStream) :
    (∃ chunk source, s.derived.source = .ok chunk :: source ∧
        acquireNextChunk s = (.ok (), handOut chunk source s)) ∨
      (handedOut s.derived.remaining s.derived.source = none ∧
        ∃ e source, acquireNextChunk s = (.error (.errc e), {s with derived := {s.derived with source}})) := by
  rcases hsource : s.derived.source with _ | ⟨e | chunk, source⟩
  · have hsame : acquireNextChunk s = (.error (.errc .endOfStream), s) := by rw [acquireNextChunk, hsource]
    exact .inr ⟨rfl, .endOfStream, s.derived.source, hsame⟩
  · exact .inr ⟨rfl, e, source, by rw [acquireNextChunk, hsource]⟩
  · exact .inl ⟨chunk, source, rfl, by rw [acquireNextChunk, hsource]⟩

/-! ### Out of the small buffer -/

theorem smallSpan_eq {i k : Nat} (h : i + k ≤ s.derived.smallBuffer.length) :
    smallSpan i k s = (.ok ((s.derived.smallBuffer.drop i).take k), s) := by
  rw [smallSpan, if_pos ⟨by omega, by omega⟩, Int.toNat_natCast]

theorem copyToChunk_eq {i : Nat} (h : i + bytes.length ≤ s.derived.currentChunk.length) :
    copyToChunk i bytes s = (.ok (), {s with derived := {s.derived with
      currentChunk := overwrite i bytes s.derived.currentChunk}}) := by
  rw [copyToChunk, if_pos h]

theorem copyToChunkPart_eq (hmarker : s.derived.decomissionThreshold = threshold)
    (hle : threshold ≤ s.derived.currentChunk.length) (hn : n ≤ threshold)
    (hsmall : n ≤ s.derived.smallBuffer.length) :
    copyToChunkPart n s = (.ok (), {s with derived := {s.derived with
      currentChunk := overwrite (s.derived.currentChunk.length - threshold) (s.derived.smallBuffer.take n)
        s.derived.currentChunk}}) := by
  have hspan : smallSpan 0 n s = (.ok (s.derived.smallBuffer.take n), s) := by
    have hspan := smallSpan_eq (s := s) (i := 0) (k := n) (by omega)
    rwa [List.drop_zero] at hspan
  have hlen : (s.derived.smallBuffer.take n).length = n := List.length_take_of_le hsmall
  rw [copyToChunkPart, decomissionThresholdNow, Action.gets_bind_apply, currentChunkNow,
    Action.gets_bind_apply, hmarker,
    if_neg (by omega), Action.bind_ok _ hspan, Int.toNat_natCast, copyToChunk_eq (by omega)]

/-- What is spilled and belongs to the current chunk goes there. -/
theorem InSmall.flush (h : InSmall s out threshold consumed) (hlt : consumed < threshold) :
    ∃ t, copyToChunkPart consumed s = (.ok (), t) ∧ ∃ u, u = ⟨[], t.derived.smallBuffer.drop 0, {t.derived with
        window := .small 0
        decomissionThreshold := toSigned 8 ((threshold : Int) - toSigned 8 consumed)}⟩ ∧
      Took [] s u ∧ OnSmall u out (threshold - consumed) 0 := by
  obtain ⟨⟨hsmall, hmarker, hle, hbyte⟩, -, hconsumed, rfl⟩ := h
  have hlen : (s.derived.smallBuffer.take consumed).length = consumed := List.length_take_of_le (by omega)
  have hover : (overwrite (s.derived.currentChunk.length - threshold) (s.derived.smallBuffer.take consumed)
      s.derived.currentChunk).length = _ := overwrite_length (by omega)
  have htake := overwrite_take (s.derived.smallBuffer.take consumed)
    (show s.derived.currentChunk.length - threshold ≤ s.derived.currentChunk.length from Nat.sub_le _ _)
  have hsigned : toSigned 8 ((threshold : Int) - toSigned 8 consumed) = (threshold - consumed : Nat) := by
    have hfit : toSigned 8 consumed = consumed := toSigned_natCast (by omega)
    have hrest : toSigned 8 (threshold - consumed : Nat) = (threshold - consumed : Nat) :=
      toSigned_natCast (by omega)
    rw [hfit, ← Int.ofNat_sub hlt.le, hrest]
  rw [hsigned]
  refine ⟨_, copyToChunkPart_eq hmarker hle hlt.le (by omega), _, rfl, took_nil rfl rfl rfl rfl rfl hover, ?_⟩
  refine ⟨⟨hsmall, rfl, ?_, by omega⟩, rfl, ?_, ?_⟩
  · dsimp only
    omega
  · simpa using hsmall
  · have hcount : s.derived.currentChunk.length - (threshold - consumed) =
        s.derived.currentChunk.length - threshold + (s.derived.smallBuffer.take consumed).length := by omega
    dsimp only
    rw [hover, hcount, htake, List.take_zero, List.append_nil, List.append_nil, List.append_assoc]

/-- What is spilled reaches the end of the current chunk. -/
theorem InSmall.cross (h : InSmall s out threshold consumed) (hle : threshold ≤ consumed) :
    ∃ t, copyToChunkPart threshold s = (.ok (), t) ∧ Took [] s t ∧
      Across t out threshold (consumed - threshold) := by
  obtain ⟨⟨hsmall, hmarker, hchunk, -⟩, -, hconsumed, rfl⟩ := h
  have hlen : (s.derived.smallBuffer.take threshold).length = threshold := List.length_take_of_le (by omega)
  have hwhole : overwrite (s.derived.currentChunk.length - threshold) (s.derived.smallBuffer.take threshold)
      s.derived.currentChunk =
        s.derived.currentChunk.take (s.derived.currentChunk.length - threshold) ++
          s.derived.smallBuffer.take threshold := by
    rw [overwrite, List.drop_eq_nil_of_le (by omega), List.append_nil]
  have hspilled : s.derived.smallBuffer.take consumed = s.derived.smallBuffer.take threshold ++
      (s.derived.smallBuffer.drop threshold).take (consumed - threshold) := by
    rw [← List.take_add, Nat.add_sub_cancel' hle]
  refine ⟨_, copyToChunkPart_eq hmarker hchunk (Nat.le_refl _) (by omega), ?_, hsmall, hmarker, by omega, ?_⟩
  · exact took_nil rfl rfl rfl rfl rfl (overwrite_length (by omega))
  · dsimp only
    rw [hwhole, hspilled]
    simp only [List.append_assoc]

theorem Across.span (h : Across s out threshold overlap) :
    ((s.derived.smallBuffer.drop threshold).take overlap).length = overlap := by
  have hsmall := h.small
  have hle := h.overlap_le
  rw [List.length_take, List.length_drop]
  omega

/-- Without a next chunk it stays in the small buffer. -/
theorem Across.front (h : Across s out threshold overlap) :
    ∃ t, moveRemainingSmallBufferToFront overlap s = (.ok (), t) ∧ Took [] s t ∧ OnSmall t out 0 overlap := by
  have hlen := h.span
  obtain ⟨hsmall, hmarker, hle, rfl⟩ := h
  have hspan := smallSpan_eq (s := s) (i := threshold) (k := overlap) (by omega)
  generalize (s.derived.smallBuffer.drop threshold).take overlap = spill at hspan hlen ⊢
  have hover : (overwrite 0 spill s.derived.smallBuffer).length = _ := overwrite_length (by omega)
  have hfront := overwrite_front spill s.derived.smallBuffer
  refine ⟨⟨[], (overwrite 0 spill s.derived.smallBuffer).drop overlap, {s.derived with
    smallBuffer := overwrite 0 spill s.derived.smallBuffer
    window := .small overlap
    decomissionThreshold := 0}⟩, ?_, took_nil rfl rfl rfl hover rfl rfl, ?_⟩
  · rw [moveRemainingSmallBufferToFront, decomissionThresholdNow, Action.gets_bind_apply, hmarker,
      Action.bind_ok _ hspan]
    rfl
  · refine ⟨⟨hover.trans hsmall, rfl, Nat.zero_le _, by decide⟩, rfl, ?_, ?_⟩
    · rw [List.nil_append, List.length_drop, hover]
      omega
    · dsimp only
      rw [← hlen, hfront, Nat.sub_zero, List.take_length, List.append_nil]

/-- What is spilled begins a chunk that has room for it. -/
theorem tryMove_takes {spill : List UInt8} (hmarker : s.derived.decomissionThreshold = threshold)
    (hspill : (s.derived.smallBuffer.drop threshold).take overlap = spill)
    (hspan : threshold + overlap ≤ s.derived.smallBuffer.length) (hle : overlap ≤ s.derived.currentChunk.length) :
    tryMoveSmallBufferToNextChunk overlap s =
      (.ok true, ⟨[], ((overwrite 0 spill s.derived.currentChunk).drop overlap).drop 0, {s.derived with
        done := s.derived.done ++ (overwrite 0 spill s.derived.currentChunk).take overlap
        currentChunk := (overwrite 0 spill s.derived.currentChunk).drop overlap
        window := .chunk 0
        decomissionThreshold := -1}⟩) := by
  have hlen : spill.length = overlap := by
    rw [← hspill, List.length_take, List.length_drop]
    omega
  have hsmall := smallSpan_eq hspan
  rw [hspill] at hsmall
  have hcopy : copyToChunk 0 spill s = _ := copyToChunk_eq (by omega)
  rw [tryMoveSmallBufferToNextChunk, currentChunkNow, Action.gets_bind_apply, decomissionThresholdNow,
    Action.gets_bind_apply, hmarker, Action.bind_ok _ hsmall, Action.bind_ok _ hcopy, Nat.min_eq_left hle,
    moveChunk, Action.modify_bind_apply, if_neg (fun hne => hne rfl)]
  rfl

/-- A chunk that has no room for it is overrun. -/
theorem tryMove_overruns (hmarker : s.derived.decomissionThreshold = threshold)
    (hspan : threshold + overlap ≤ s.derived.smallBuffer.length) (hlt : s.derived.currentChunk.length < overlap) :
    tryMoveSmallBufferToNextChunk overlap s = (.error .outOfBounds, s) := by
  have hout : copyToChunk 0 ((s.derived.smallBuffer.drop threshold).take overlap) s =
      (.error .outOfBounds, s) := by
    rw [copyToChunk, if_neg]
    rw [List.length_take, List.length_drop]
    omega
  rw [tryMoveSmallBufferToNextChunk, currentChunkNow, Action.gets_bind_apply, decomissionThresholdNow,
    Action.gets_bind_apply, hmarker, Action.bind_ok _ (smallSpan_eq hspan)]
  exact Action.bind_error _ hout

/-- Another chunk has no influence on what is in the small buffer. -/
theorem acquireNextChunk_small {r : Except Fault Unit} (h : acquireNextChunk s = (r, t)) :
    t.derived.smallBuffer = s.derived.smallBuffer ∧
      t.derived.decomissionThreshold = s.derived.decomissionThreshold := by
  rcases acquireNextChunk_cases s with ⟨chunk, source, -, hacquire⟩ | ⟨-, e, source, hacquire⟩
  · rw [hacquire] at h
    cases h
    exact ⟨rfl, rfl⟩
  · rw [hacquire] at h
    cases h
    exact ⟨rfl, rfl⟩

/-- Where there is no next chunk the bytes that belong to it are kept. -/
theorem Across.keeps {f : Bool → Output ChunkedOutputStream Unit} {e : Fault} (h : Across s out threshold overlap)
    (hnone : acquireNextChunk s = (.error e, t))
    (hkeep : ∀ u, Took [] t u → OnSmall u out 0 overlap → R (.error e) u) :
    (do
      acquireOrKeep overlap
      let moved ← tryMoveSmallBufferToNextChunk overlap
      f moved : Output ChunkedOutputStream Unit).Meets s R := by
  have hsame : ∃ source, t = {s with derived := {s.derived with source}} := by
    rcases acquireNextChunk_cases s with ⟨chunk, source, -, hacquire⟩ | ⟨-, e', source, hacquire⟩
    · rw [hacquire] at hnone
      cases hnone
    · rw [hacquire] at hnone
      cases hnone
      exact ⟨source, rfl⟩
  obtain ⟨source, rfl⟩ := hsame
  have hacross : Across {s with derived := {s.derived with source}} out threshold overlap :=
    ⟨h.small, h.marker, h.overlap_le, h.out_eq⟩
  obtain ⟨u, hu, htook, hsmall⟩ := hacross.front
  have herr : acquireOrKeep overlap s = (.error e, u) := by
    rw [acquireOrKeep, hnone]
    exact Action.bind_ok _ hu
  exact .stop herr (hkeep u htook hsmall)

/-- A next chunk that has room for them begins with them. -/
theorem Across.moves {f : Bool → Output ChunkedOutputStream Unit} (h : Across s out threshold overlap)
    (hnext : acquireNextChunk s = (.ok (), t)) (hle : overlap ≤ t.derived.currentChunk.length)
    (hmove : ∀ spill u, out = s.derived.done ++ s.derived.currentChunk ++ spill → spill.length = overlap →
      Took spill t u → Started u → (f true).Meets u R) :
    (do
      acquireOrKeep overlap
      let moved ← tryMoveSmallBufferToNextChunk overlap
      f moved : Output ChunkedOutputStream Unit).Meets s R := by
  have hok : acquireOrKeep overlap s = (.ok (), t) := by rw [acquireOrKeep, hnext]
  obtain ⟨hsmall, hmarker⟩ := acquireNextChunk_small hnext
  have hspan : threshold + overlap ≤ t.derived.smallBuffer.length := hsmall ▸ h.overlap_le.trans h.small.ge
  have hlen := h.span
  have hout := h.out_eq
  have hspill : (t.derived.smallBuffer.drop threshold).take overlap =
      (s.derived.smallBuffer.drop threshold).take overlap := by rw [hsmall]
  generalize (s.derived.smallBuffer.drop threshold).take overlap = spill at hlen hspill hout
  have hover : (overwrite 0 spill t.derived.currentChunk).length = _ := overwrite_length (by omega)
  have hfront := overwrite_front spill t.derived.currentChunk
  rw [hlen] at hfront
  refine .step hok (.step (tryMove_takes (hmarker.trans h.marker) hspill hspan hle)
    (hmove spill _ hout hlen ?_ ?_))
  · refine ⟨rfl, rfl, rfl, rfl, congrArg _ hfront, ?_⟩
    rw [List.length_drop, hover]
    omega
  · exact ⟨rfl, rfl, rfl, List.drop_zero⟩

/-- A next chunk that has no room for them is overrun. -/
theorem Across.overruns {f : Bool → Output ChunkedOutputStream Unit} (h : Across s out threshold overlap)
    (hnext : acquireNextChunk s = (.ok (), t)) (hlt : t.derived.currentChunk.length < overlap) :
    (do
      acquireOrKeep overlap
      let moved ← tryMoveSmallBufferToNextChunk overlap
      f moved : Output ChunkedOutputStream Unit).Meets s fun r _ => r = .error .outOfBounds := by
  have hok : acquireOrKeep overlap s = (.ok (), t) := by rw [acquireOrKeep, hnext]
  obtain ⟨hsmall, hmarker⟩ := acquireNextChunk_small hnext
  have hspan : threshold + overlap ≤ t.derived.smallBuffer.length := hsmall ▸ h.overlap_le.trans h.small.ge
  exact .step hok (.stop (tryMove_overruns (hmarker.trans h.marker) hspan hlt) rfl)

/-! ### Ensuring room -/

/-- The current chunk is written to, and has less room than what is asked for. -/
theorem OnChunk.ensure_grow {rounds : Nat} (h : OnChunk s base out)
    (hsmall : s.derived.smallBuffer.length = smallBufferSize) (hgrow : s.free.length < n)
    (hbyte : s.free.length < 2 ^ 7)
    (hbase : s.free ≠ [] → base = s.derived.done)
    (hnext : ∀ t, Took [] s t → OnChunk t base out → t.free = [] → out = base ++ t.derived.currentChunk →
      (do
        acquireNextChunk
        resetToChunk 0 : Output ChunkedOutputStream Unit).Meets t R)
    (hspill : ∀ t, Took [] s t → OnSmall t out s.free.length 0 →
      (if smallBufferSize < n then err .bufferSizeExceeded
      else pure () : Output ChunkedOutputStream Unit).Meets t R) :
    (@ensureSize _ (virtuals (rounds + 1)) n).Meets s R := by
  obtain ⟨hsettled, hle, hout⟩ := h.settled
  have htook := h.took_settle
  refine .of_eq (z := doGrow (virtuals rounds) n) (@ensureSize_grow _ (virtuals (rounds + 1)) s n hgrow) ?_
  rw [doGrow]
  refine .step (a := ()) (t := settle s) rfl
    (.step (thresholdNow_eq hsettled.marker) (.ite_pos (by decide) (.step size_settle ?_)))
  by_cases hfree : s.free = []
  · rw [hfree, List.length_nil, Nat.sub_zero, List.take_length] at hout
    exact .ite_pos (congrArg List.length hfree) (hnext _ htook hsettled (settle_free.trans hfree) hout)
  · have hsigned : toSigned 8 s.free.length = s.free.length := toSigned_natCast (by omega)
    refine .ite_neg (fun hzero => hfree (List.length_eq_zero_iff.mp hzero))
      (.step size_settle (.step rfl (.step rfl ?_)))
    rw [hsigned]
    refine hspill _ ⟨htook.source, htook.remaining, htook.cut, htook.small, htook.done, htook.chunk⟩ ?_
    refine ⟨⟨htook.small.trans hsmall, rfl, hle, hbyte⟩, rfl, ?_, ?_⟩
    · simpa using htook.small.trans hsmall
    · rw [List.take_zero, List.append_nil, List.append_nil]
      rw [hbase hfree, ← htook.done_eq] at hout
      exact hout

/-- What is spilled does not reach the end of the current chunk, and more room is asked for. -/
theorem OnSmall.ensure_flush {rounds : Nat} (h : OnSmall s out threshold i) (hgrow : s.free.length < n)
    (hflush : i + s.behind.length < threshold)
    (hf : ∀ t, Took [] s t → OnSmall t out (threshold - (i + s.behind.length)) 0 →
      (if smallBufferSize < n then err .bufferSizeExceeded
      else pure () : Output ChunkedOutputStream Unit).Meets t R) :
    (@ensureSize _ (virtuals (rounds + 1)) n).Meets s R := by
  have hsettled := h.settled
  obtain ⟨t, ht, u, rfl, htook, hsmall⟩ := hsettled.flush hflush
  refine .of_eq (z := doGrow (virtuals rounds) n) (@ensureSize_grow _ (virtuals (rounds + 1)) s n hgrow) ?_
  rw [doGrow]
  refine .step (a := ()) (t := settle s) rfl
    (.step (thresholdNow_eq hsettled.marker) (.ite_neg (by omega) (.step hsettled.consumed_eq ?_)))
  exact .ite_pos (by omega) (.step ht (.step rfl (.step rfl (hf _ (h.took_settle.trans htook) hsmall))))

/-- What is spilled reaches the end of the current chunk, and more room is asked for. -/
theorem OnSmall.ensure_cross {rounds : Nat} (h : OnSmall s out threshold i) (hgrow : s.free.length < n)
    (hcross : threshold ≤ i + s.behind.length)
    (hf : ∀ t, Took [] s t → Across t out threshold (i + s.behind.length - threshold) →
      (do
        acquireOrKeep (i + s.behind.length - threshold)
        let moved ← tryMoveSmallBufferToNextChunk (i + s.behind.length - threshold)
        if moved = false ∧ (← Action.gets fun s => s.derived.remaining) = 0 then err .endOfStream
        else @ensureSize _ (virtuals rounds) n : Output ChunkedOutputStream Unit).Meets t R) :
    (@ensureSize _ (virtuals (rounds + 1)) n).Meets s R := by
  have hsettled := h.settled
  obtain ⟨t, ht, htook, hacross⟩ := hsettled.cross hcross
  refine .of_eq (z := doGrow (virtuals rounds) n) (@ensureSize_grow _ (virtuals (rounds + 1)) s n hgrow) ?_
  rw [doGrow]
  refine .step (a := ()) (t := settle s) rfl
    (.step (thresholdNow_eq hsettled.marker) (.ite_neg (by omega) (.step hsettled.consumed_eq ?_)))
  refine .ite_neg (by omega) ?_
  rw [Int.toNat_natCast]
  exact .step ht (hf t (h.took_settle.trans htook) hacross)

theorem ensureSize_rounds (n : Nat) (s : OutputBuffer ChunkedOutputStream) :
    ensureSize n s = @ensureSize _ (virtuals (s.derived.source.length + 2)) n s := by
  unfold ensureSize
  rfl

/-! ### Writing in bulk -/

/-- The current chunk was filled, and there are bytes left to write. -/
theorem OnChunk.bulk_next (h : OnChunk s base out) (hfree : s.free = [])
    (hf : ∀ t, Took [] s t → OnChunk t base out → t.free = [] → out = base ++ t.derived.currentChunk →
      (do
        acquireNextChunk
        let source ← Action.gets fun s => s.derived.source
        writeChunks (source.length + 1) bytes
        resetToChunk 0 : Output ChunkedOutputStream Unit).Meets t R) : (doBulkWrite bytes).Meets s R := by
  obtain ⟨hsettled, -, hout⟩ := h.settled
  rw [hfree, List.length_nil, Nat.sub_zero, List.take_length] at hout
  rw [doBulkWrite]
  refine .step (a := ()) (t := settle s) rfl (.step (thresholdNow_eq hsettled.marker) (.ite_neg (by decide) ?_))
  exact hf _ h.took_settle hsettled (settle_free.trans hfree) hout

/-- The small buffer was filled, and there are bytes left to write. -/
theorem OnSmall.bulk_cross (h : OnSmall s out threshold i) (hfree : s.free = [])
    (hle : threshold ≤ smallBufferSize)
    (hf : ∀ t, Took [] s t → Across t out threshold (smallBufferSize - threshold) →
      (do
        acquireOrKeep (smallBufferSize - threshold)
        let moved ← tryMoveSmallBufferToNextChunk (smallBufferSize - threshold)
        if moved = false then acquireNextChunk
        resetToNothing
        let source ← Action.gets fun s => s.derived.source
        writeChunks (source.length + 1) bytes
        resetToChunk 0 : Output ChunkedOutputStream Unit).Meets t R) : (doBulkWrite bytes).Meets s R := by
  have hsettled := h.settled
  have hspans := h.spans
  rw [hfree, List.append_nil] at hspans
  rw [hspans] at hsettled
  obtain ⟨t, ht, htook, hacross⟩ := hsettled.cross hle
  have hoverlap : wrapSub 64 smallBufferSize (threshold : Int).toNat = smallBufferSize - threshold := by
    rw [Int.toNat_natCast, wrapSub_of_le hle (by decide)]
  rw [doBulkWrite]
  refine .step (a := ()) (t := settle s) rfl (.step (thresholdNow_eq hsettled.marker) (.ite_pos (by omega) ?_))
  rw [hoverlap, Int.toNat_natCast]
  exact .step ht (hf t (h.took_settle.trans htook) hacross)

/-! ### Synchronizing -/

theorem OnChunk.sync (h : OnChunk s base out) (hdone : R (.ok ()) (settle s)) : syncOutput.Meets s R := by
  have hsettled := h.settled.1
  rw [syncOutput]
  exact .step (a := ()) (t := settle s) rfl
    (.step (thresholdNow_eq hsettled.marker) (.ite_pos (by decide) (Action.meets_of_eq rfl hdone)))

/-- The current chunk is full, and nothing was spilled beyond it. -/
theorem Across.full (h : Across s out threshold 0) :
    OnChunk ⟨[], s.derived.currentChunk.drop s.derived.currentChunk.length, {s.derived with
      window := .chunk s.derived.currentChunk.length
      decomissionThreshold := -1}⟩ s.derived.done out := by
  have hout := h.out_eq
  rw [List.take_zero, List.append_nil] at hout
  refine ⟨rfl, .inl ⟨_, rfl, ?_, ?_⟩⟩
  · simp
  · simp [hout]

/-- What is spilled does not go beyond the current chunk. -/
theorem OnSmall.sync_within (h : OnSmall s out threshold i) (hwithin : i + s.behind.length ≤ threshold)
    (hflushed : ∀ t, Took [] s t → OnSmall t out (threshold - (i + s.behind.length)) 0 → t.behind = [] →
      R (.ok ()) t)
    (hfilled : ∀ t, Took [] s t → OnChunk t t.derived.done out → R (.ok ()) t) : syncOutput.Meets s R := by
  have hsettled := h.settled
  have hthreshold := thresholdNow_eq hsettled.marker
  rw [syncOutput]
  refine .step (a := ()) (t := settle s) rfl
    (.step hthreshold (.ite_neg (by omega) (.step hsettled.consumed_eq ?_)))
  rcases Nat.lt_or_eq_of_le hwithin with hlt | heq
  · obtain ⟨t, ht, u, rfl, htook, hsmall⟩ := hsettled.flush hlt
    refine .ite_pos (by omega) (.step ht (.ite_neg (by omega) (.step rfl (Action.meets_of_eq rfl ?_))))
    exact hflushed _ (h.took_settle.trans htook) hsmall rfl
  · obtain ⟨t, ht, htook, hacross⟩ := hsettled.cross heq.ge
    rw [heq] at hacross ⊢
    rw [Nat.sub_self] at hacross
    refine .ite_pos (by omega) (.step ht (.ite_pos rfl (.step rfl (.step rfl (Action.meets_of_eq rfl ?_)))))
    exact hfilled _ ((h.took_settle.trans htook).trans (took_nil rfl rfl rfl rfl rfl rfl)) hacross.full

/-- What is spilled goes beyond the current chunk. -/
theorem OnSmall.sync_cross (h : OnSmall s out threshold i) (hcross : threshold < i + s.behind.length)
    (hf : ∀ t, Took [] s t → Across t out threshold (i + s.behind.length - threshold) →
      (do
        acquireOrKeep (i + s.behind.length - threshold)
        if ← tryMoveSmallBufferToNextChunk (i + s.behind.length - threshold) then pure ()
        else err .endOfStream : Output ChunkedOutputStream Unit).Meets t R) : syncOutput.Meets s R := by
  have hsettled := h.settled
  obtain ⟨t, ht, htook, hacross⟩ := hsettled.cross hcross.le
  rw [syncOutput]
  refine .step (a := ()) (t := settle s) rfl
    (.step (thresholdNow_eq hsettled.marker) (.ite_neg (by omega) (.step hsettled.consumed_eq ?_)))
  refine .ite_neg (by omega) ?_
  rw [Int.toNat_natCast]
  exact .step ht (hf t (h.took_settle.trans htook) hacross)

/-! ### Chunk by chunk -/

theorem overwrite_whole {memory : List UInt8} (h : bytes.length = memory.length) :
    overwrite 0 bytes memory = bytes := by
  have hfront := overwrite_front bytes memory
  rwa [List.take_of_length_le (by rw [overwrite_length (by omega), h])] at hfront

/-- Bytes for which there is room in the current chunk. -/
theorem took_part (h : bytes.length < s.derived.currentChunk.length) :
    Took bytes s {s with derived := {s.derived with
      done := s.derived.done ++ bytes
      currentChunk := (overwrite 0 bytes s.derived.currentChunk).drop bytes.length}} := by
  have hover : (overwrite 0 bytes s.derived.currentChunk).length = _ := overwrite_length (by omega)
  refine ⟨rfl, rfl, rfl, rfl, rfl, ?_⟩
  rw [List.length_drop, hover]
  omega

/-- The loop of a bulk write. `I` holds where the bytes so far are in front of the chunk, `J` of what a
success leaves, and `E` where there is no next chunk. -/
theorem writeChunks_rule {rounds : Nat} (bytes : List UInt8)
    {I J : OutputBuffer ChunkedOutputStream → List UInt8 → Prop}
    {E : Fault → OutputBuffer ChunkedOutputStream → List UInt8 → Prop}
    (hpart : ∀ s out bytes, I s out → bytes.length < s.derived.currentChunk.length →
      J {s with derived := {s.derived with
        done := s.derived.done ++ bytes
        currentChunk := (overwrite 0 bytes s.derived.currentChunk).drop bytes.length}} (out ++ bytes))
    (hfull : ∀ s out bytes u, I s out → bytes.length = s.derived.currentChunk.length →
      acquireNextChunk {s with derived := {s.derived with currentChunk := bytes}} = (.ok (), u) →
        I u (out ++ bytes) ∧ J u (out ++ bytes))
    (hend : ∀ s out bytes e u, I s out → bytes.length = s.derived.currentChunk.length →
      acquireNextChunk {s with derived := {s.derived with currentChunk := bytes}} = (.error e, u) →
        E e u (out ++ bytes))
    (h : I s out) (hrounds : s.derived.source.length < rounds) :
    (writeChunks rounds bytes).Meets s fun r t =>
      (r = .ok () ∧ J t (out ++ bytes)) ∨ ∃ e k, r = .error e ∧ E e t (out ++ bytes.take k) := by
  induction rounds generalizing s out bytes with
  | zero => omega
  | succ rounds ih =>
    refine .step (a := s.derived.currentChunk) (t := s) rfl ?_
    dsimp only
    by_cases hlt : bytes.length < s.derived.currentChunk.length
    · have hcopy : copyToChunk 0 bytes s = _ := copyToChunk_eq (by omega)
      have hnext := hpart s out bytes h hlt
      rw [Nat.min_eq_left hlt.le, List.take_length, List.drop_length]
      have hmove : moveChunk bytes.length {s with derived := {s.derived with
          currentChunk := overwrite 0 bytes s.derived.currentChunk}} = (.ok (), {s with derived := {s.derived with
            done := s.derived.done ++ bytes
            currentChunk := (overwrite 0 bytes s.derived.currentChunk).drop bytes.length}}) := by
        rw [moveChunk, Action.modify]
        dsimp only
        rw [overwrite_front]
      refine .step hcopy (.ite_neg (by omega) (.step hmove (.ite_neg (fun hne => hne rfl) ?_)))
      exact Action.meets_of_eq rfl (.inl ⟨rfl, hnext⟩)
    · have hle := Nat.le_of_not_lt hlt
      rw [Nat.min_eq_right hle]
      generalize hcount : s.derived.currentChunk.length = count at hle
      have hlen : (bytes.take count).length = s.derived.currentChunk.length := by
        rw [List.length_take_of_le hle, hcount]
      have hcopy : copyToChunk 0 (bytes.take count) s = _ := copyToChunk_eq (by omega)
      rw [overwrite_whole hlen] at hcopy
      refine .step hcopy (.ite_pos rfl ?_)
      rcases acquireNextChunk_cases {s with derived := {s.derived with currentChunk := bytes.take count}} with
        ⟨chunk, source, hsource, hacquire⟩ | ⟨-, e, source, hacquire⟩
      · have hnext := hfull s out (bytes.take count) _ h hlen hacquire
        refine .step hacquire ?_
        by_cases hrest : (bytes.drop count).length = 0
        · have hall : bytes.take count = bytes := by
            rw [List.length_drop] at hrest
            exact List.take_of_length_le (by omega)
          have hout : out ++ bytes.take count = out ++ bytes := congrArg (out ++ ·) hall
          exact .ite_neg (fun hne => hne hrest) (Action.meets_of_eq rfl (.inl ⟨rfl, hout ▸ hnext.2⟩))
        · have hfewer : source.length < rounds := by
            have hsource' : s.derived.source = .ok chunk :: source := hsource
            rw [hsource', List.length_cons] at hrounds
            omega
          have htaken : out ++ bytes.take count ++ bytes.drop count = out ++ bytes := by
            rw [List.append_assoc, List.take_append_drop]
          have hmore := ih (bytes.drop count) hnext.1 hfewer
          rw [htaken] at hmore
          refine .ite_pos hrest (hmore.mono fun r t ht => ?_)
          rcases ht with hok | ⟨e, k, hr, herr⟩
          · exact .inl hok
          · refine .inr ⟨e, count + k, hr, ?_⟩
            rwa [List.take_add, ← List.append_assoc]
      · exact .stop hacquire (.inr ⟨_, count, rfl, hend s out (bytes.take count) _ _ h hlen hacquire⟩)

end ChunkedOutputStream
end DeepPack
