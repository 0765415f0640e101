import DeepPack.Streams.ChunkedRequire

/-! Reading from a stream over chunks. -/
namespace DeepPack
open Library InputBuffer

namespace ChunkedInputStream
variable {s : InputBuffer ChunkedInputStream} {held remnants area : List UInt8} {pending : List (List UInt8)}
  {consumed n : Nat}

theorem bulkRead_buffered {base : InputStream ChunkedInputStream} (hn : n ≤ s.inputSize)
    (hfits : s.inputSize < wordLimit)
    (hlen : n ≤ s.buffer.length) : bulkRead n s = (.ok (s.buffer.take n), advanced n s) := by
  by_cases h0 : n = 0
  · subst h0
    have hsize : wrapSub 64 s.inputSize 0 = s.inputSize := wrapSub_of_le (Nat.zero_le _) hfits
    rw [bulkRead, if_pos rfl, advanced, hsize]
    rfl
  · rw [bulkRead, if_neg h0, if_neg (Nat.not_lt.mpr hn)]
    simp only [Nat.min_eq_right hlen, Nat.sub_self, if_true]
    rfl

theorem bulkRead_unbuffered {base : InputStream ChunkedInputStream} (hn : n ≤ s.inputSize)
    (hlen : s.buffer.length < n) :
    bulkRead n s = (do
      let rest ← base.doBulkRead (n - s.buffer.length)
      pure (s.buffer ++ rest) : Input ChunkedInputStream (List UInt8)) (advanced s.buffer.length s) := by
  rw [bulkRead, if_neg (by omega), if_neg (Nat.not_lt.mpr hn)]
  simp only [Nat.min_eq_left hlen.le, if_neg (show ¬ n - s.buffer.length = 0 by omega), List.take_length]
  rfl

/-! ### Reading chunk by chunk -/

/-- Where in the chunks an amount of bytes ends. -/
theorem AreChunks.ends (h : AreChunks pending) (amount : Nat) (hpos : 0 < amount)
    (hle : amount ≤ pending.flatten.length) :
    ∃ front chunk post r, pending = front ++ chunk :: post ∧ amount = front.flatten.length + r ∧
      0 < r ∧ r ≤ chunk.length := by
  induction pending generalizing amount with
  | nil =>
    rw [List.flatten_nil, List.length_nil] at hle
    omega
  | cons chunk rest ih =>
    by_cases hend : amount ≤ chunk.length
    · exact ⟨[], chunk, rest, amount, rfl, by simp, hpos, hend⟩
    · rw [List.flatten_cons, List.length_append] at hle
      have hrest : AreChunks rest := fun c hc => h c (List.mem_cons_of_mem chunk hc)
      obtain ⟨front, last, post, r, rfl, hamount, hr⟩ := ih hrest (amount - chunk.length) (by omega)
        (by omega)
      refine ⟨chunk :: front, last, post, r, rfl, ?_, hr⟩
      rw [List.flatten_cons, List.length_append]
      omega

/-- One round of the loop. -/
theorem consumeChunks_cut {rounds amount : Nat} {chunk : List UInt8} {source : List (Except Errc (List UInt8))}
    (hsource : s.derived.source = .ok chunk :: source) (hchunk : chunk.length < 2 ^ 32) :
    consumeChunks (rounds + 1) amount s = (if amount - ((chunk.take s.inputSize).take amount).length ≠ 0 then do
        let rest ← consumeChunks rounds (amount - ((chunk.take s.inputSize).take amount).length)
        pure ((chunk.take s.inputSize).take amount ++ rest)
      else pure ((chunk.take s.inputSize).take amount) : Input ChunkedInputStream (List UInt8))
      ⟨[], wrapSub 64 s.inputSize ((chunk.take s.inputSize).take amount).length, {s.derived with
        readArea := (MemoryView.ofSpan (chunk.take s.inputSize)).moveConsumer
          (toSigned 32 ((chunk.take s.inputSize).take amount).length)
        source, extent := 0}⟩ := by
  have hcut : (chunk.take s.inputSize).length < 2 ^ 32 := (List.take_sublist _ _).length_le.trans_lt hchunk
  have hacquire := acquireNextChunk_cut hsource hchunk
  generalize chunk.take s.inputSize = cut at hcut hacquire ⊢
  have hremaining : remaining {s with derived := {s.derived with readArea := .ofSpan cut, source}} =
      (.ok cut, {s with derived := {s.derived with readArea := .ofSpan cut, source}}) := by
    rw [remaining, MemoryView.remaining_ofSpan hcut]
  rw [consumeChunks, Action.bind_ok _ hacquire, Action.bind_ok _ hremaining]
  rfl

theorem consumeChunks_succ {rounds amount : Nat} {chunk : List UInt8}
    {source : List (Except Errc (List UInt8))}
    (hsource : s.derived.source = .ok chunk :: source) (hchunk : chunk.length < 2 ^ 32)
    (hsize : chunk.length ≤ s.inputSize) :
    consumeChunks (rounds + 1) amount s = (if amount - (chunk.take amount).length ≠ 0 then do
        let rest ← consumeChunks rounds (amount - (chunk.take amount).length)
        pure (chunk.take amount ++ rest)
      else pure (chunk.take amount) : Input ChunkedInputStream (List UInt8))
      ⟨[], wrapSub 64 s.inputSize (chunk.take amount).length, {s.derived with
        readArea := (MemoryView.ofSpan chunk).moveConsumer (toSigned 32 (chunk.take amount).length), source,
        extent := 0}⟩ := by
  rw [consumeChunks_cut hsource hchunk, List.take_of_length_le hsize]

theorem consumeChunks_eq {front post : List (List UInt8)} {chunk : List UInt8} {r rounds : Nat}
    (hsource : s.derived.source = (front ++ chunk :: post).map .ok)
    (hchunks : AreChunks (front ++ chunk :: post))
    (hsize : (front ++ chunk :: post).flatten.length ≤ s.inputSize) (hfits : s.inputSize < wordLimit)
    (hr : front = [] ∨ 0 < r) (hle : r ≤ chunk.length) (hrounds : front.length < rounds) :
    consumeChunks rounds (front.flatten.length + r) s = (.ok (front.flatten ++ chunk.take r),
      ⟨[], s.inputSize - (front.flatten.length + r), {s.derived with
        readArea := (MemoryView.ofSpan chunk).moveConsumer (toSigned 32 r)
        source := post.map .ok
        extent := 0}⟩) := by
  induction front generalizing s rounds with
  | nil =>
    obtain ⟨rounds, rfl⟩ : ∃ k, rounds = k + 1 := ⟨rounds - 1, by omega⟩
    rw [List.nil_append, List.flatten_cons, List.length_append] at hsize
    have htake : (chunk.take r).length = r := List.length_take_of_le hle
    have hwrap : wrapSub 64 s.inputSize r = s.inputSize - r := wrapSub_of_le (by omega) hfits
    rw [List.flatten_nil, List.length_nil, Nat.zero_add, List.nil_append,
      consumeChunks_succ hsource (hchunks chunk List.mem_cons_self).2 (by omega), htake, hwrap,
      if_neg (by rw [Nat.sub_self]; exact fun h => h rfl)]
    rfl
  | cons first front ih =>
    obtain ⟨rounds, rfl⟩ : ∃ k, rounds = k + 1 := ⟨rounds - 1, by omega⟩
    rw [List.cons_append, List.flatten_cons, List.length_append] at hsize
    have hpos : 0 < r := hr.resolve_left (List.cons_ne_nil first front)
    have htake : first.take (first.length + front.flatten.length + r) = first :=
      List.take_of_length_le (by omega)
    have hwrap : wrapSub 64 s.inputSize first.length = s.inputSize - first.length :=
      wrapSub_of_le (by omega) hfits
    have hrest : first.length + front.flatten.length + r - first.length = front.flatten.length + r := by omega
    have hchunks' : AreChunks (front ++ chunk :: post) := fun c hc =>
      hchunks c (List.mem_cons_of_mem first hc)
    have hmore := ih (s := ⟨[], s.inputSize - first.length, {s.derived with
      readArea := (MemoryView.ofSpan first).moveConsumer (toSigned 32 first.length)
      source := (front ++ chunk :: post).map .ok
      extent := 0}⟩) rfl hchunks' (Nat.le_sub_of_add_le' hsize) (by dsimp only; omega) (.inr hpos)
        (Nat.lt_of_succ_lt_succ hrounds)
    rw [List.flatten_cons, List.length_append, consumeChunks_succ hsource (hchunks first List.mem_cons_self).2
      (by omega),
      htake, hwrap, hrest, if_pos (by omega)]
    apply (Action.bind_ok _ hmore).trans
    rw [Action.pure_apply, List.append_assoc, Nat.sub_sub, ← Nat.add_assoc]

/-- What is buffered once an amount of the chunks was read. -/
theorem readChunks_eq {front post : List (List UInt8)} {chunk : List UInt8} {r : Nat}
    (h : Plain s [] (front ++ chunk :: post)) (hr : front = [] ∨ 0 < r) (hle : r ≤ chunk.length) :
    readChunks (front.flatten.length + r) s = (do
      if chunk.length - r = 0 then acquireNextChunk
      resetToReadArea
      pure (front.flatten ++ chunk.take r) : Input ChunkedInputStream (List UInt8))
      ⟨[], s.inputSize - (front.flatten.length + r), {s.derived with
        readArea := (MemoryView.ofSpan chunk).moveConsumer (toSigned 32 r)
        source := post.map .ok
        extent := 0}⟩ := by
  have hsize := h.inputSize
  rw [List.length_nil, Nat.zero_add] at hsize
  have hchunk := h.chunks chunk (List.mem_append_right front List.mem_cons_self)
  have hwindow : ((MemoryView.ofSpan chunk).moveConsumer (toSigned 32 r)).windowSize = chunk.length - r :=
    MemoryView.windowSize_moveConsumer hchunk.2 hle
  have hrounds : front.length < s.derived.source.length + 1 := by
    rw [h.source, List.length_map, List.length_append]
    omega
  have hconsume := consumeChunks_eq h.source h.chunks hsize.ge h.fits hr hle hrounds
  rw [readChunks, Action.gets_bind_apply, Action.bind_ok _ hconsume, Action.gets_bind_apply]
  dsimp only
  rw [hwindow]

/-- Bytes can be read up to there, and the stream can go on behind them. -/
def GoesOn (chunk : List UInt8) (r : Nat) (post : List (List UInt8)) : Prop :=
  (r = chunk.length → post ≠ []) ∧ (r < chunk.length → r < 2 ^ 31)

theorem readChunks_goesOn {front post : List (List UInt8)} {chunk : List UInt8} {r : Nat}
    (h : Plain s [] (front ++ chunk :: post)) (hr : front = [] ∨ 0 < r) (hle : r ≤ chunk.length)
    (hon : GoesOn chunk r post) :
    (readChunks (front.flatten.length + r)).Achieves s fun bytes t =>
      bytes = front.flatten ++ chunk.take r ∧ Leaves t (chunk.drop r ++ post.flatten) ∧ t.buffer ≠ [] := by
  have hsize := h.inputSize
  rw [List.length_nil, Nat.zero_add, List.flatten_append, List.length_append, List.flatten_cons,
    List.length_append] at hsize
  have hfits := h.fits
  have hchunk := h.chunks chunk (List.mem_append_right front List.mem_cons_self)
  have hpost : AreChunks post := fun c hc =>
    h.chunks c (List.mem_append_right front (List.mem_cons_of_mem chunk hc))
  rw [Action.Achieves, readChunks_eq h hr hle, ← Action.Achieves]
  rcases Nat.lt_or_eq_of_le hle with hlt | rfl
  · -- the rest of the chunk is buffered
    have hremaining := MemoryView.remaining_moveConsumer (MemoryView.remaining_ofSpan hchunk.2) hchunk.2 hle
    have hsigned : toSigned 32 r = r := by
      have hbound := hon.2 hlt
      exact toSigned_of_fits (by omega) (by omega)
    rw [hsigned, if_neg (by omega)]
    have hrest : chunk.drop r ≠ [] := by
      rw [Ne, List.drop_eq_nil_iff]
      omega
    refine .step (resetToReadArea_eq hremaining) (Action.achieves_pure ⟨rfl, ?_, hrest⟩)
    refine Holds.leaves (.inl ⟨⟨hpost, rfl, h.small, ?_, ?_⟩, h.start, rfl⟩)
    · dsimp only
      rw [List.length_drop]
      omega
    · dsimp only
      omega
  · -- the chunk is drained
    cases post with
    | nil => exact absurd rfl (hon.1 rfl)
    | cons next post =>
      obtain ⟨hne, hnext⟩ := hpost next List.mem_cons_self
      rw [List.flatten_cons, List.length_append] at hsize
      rw [if_pos (Nat.sub_self _)]
      refine .step (acquireNextChunk_eq rfl hnext (by dsimp only; omega)) ?_
      refine .step (resetToReadArea_eq (MemoryView.remaining_ofSpan hnext)) (Action.achieves_pure ⟨rfl, ?_, hne⟩)
      rw [List.drop_length, List.nil_append, List.flatten_cons]
      refine Holds.leaves (.inl ⟨⟨fun c hc => hpost c (List.mem_cons_of_mem next hc), rfl, h.small, ?_, ?_⟩,
        h.start, rfl⟩)
      · dsimp only
        omega
      · dsimp only
        omega

/-- So far inside a chunk that the distance is not an `int`, the read area is left for good. -/
theorem readChunks_slips {front post : List (List UInt8)} {chunk : List UInt8} {r : Nat}
    (h : Plain s [] (front ++ chunk :: post)) (hlt : r < chunk.length) (hlarge : 2 ^ 31 ≤ r) :
    ∃ t, readChunks (front.flatten.length + r) s = (.error .outOfBounds, t) := by
  have hchunk := h.chunks chunk (List.mem_append_right front List.mem_cons_self)
  have hsigned : toSigned 32 r = (r : Int) - (2 ^ 32 : Nat) := toSigned_of_large (by omega) (by omega)
  have hout : ((MemoryView.ofSpan chunk).moveConsumer (toSigned 32 r)).remaining = none := by
    rw [hsigned, MemoryView.ofSpan_eq hchunk.2, MemoryView.moveConsumer, MemoryView.remaining, if_neg]
    dsimp only
    omega
  rw [readChunks_eq h (.inr (by omega)) hlt.le, if_neg (by omega)]
  exact ⟨_, Action.bind_error _ (resetToReadArea_out hout)⟩

/-- At the end of the last chunk all bytes were read and there is no chunk to acquire. -/
theorem readChunks_drains {front : List (List UInt8)} {chunk : List UInt8} (h : Plain s [] (front ++ [chunk])) :
    ∃ t, readChunks (front.flatten.length + chunk.length) s = (.error (.errc .endOfStream), t) ∧
      t.inputSize = 0 ∧ t.buffer = [] := by
  have hchunk := h.chunks chunk (List.mem_append_right front List.mem_cons_self)
  have hsize := h.inputSize
  rw [List.flatten_append, List.length_append, List.length_nil, List.flatten_singleton] at hsize
  rw [readChunks_eq h (.inr (List.length_pos_iff.mpr hchunk.1)) (Nat.le_refl _), if_pos (Nat.sub_self _)]
  refine ⟨_, Action.bind_error _ (acquireNextChunk_end rfl), ?_, rfl⟩
  dsimp only
  omega

/-- Where the stream cannot go on, the bytes were read and the call fails. -/
theorem readChunks_fails {front post : List (List UInt8)} {chunk : List UInt8} {r : Nat}
    (h : Plain s [] (front ++ chunk :: post)) (hle : r ≤ chunk.length) (hoff : ¬ GoesOn chunk r post) :
    ∃ e t, readChunks (front.flatten.length + r) s = (.error e, t) := by
  rcases Nat.lt_or_eq_of_le hle with hlt | rfl
  · have hlarge : 2 ^ 31 ≤ r := by
      by_contra hsmall
      exact hoff ⟨fun heq => absurd heq (Nat.ne_of_lt hlt), fun _ => Nat.lt_of_not_le hsmall⟩
    obtain ⟨t, ht⟩ := readChunks_slips h hlt hlarge
    exact ⟨_, t, ht⟩
  · have hpost : post = [] := by
      by_contra hne
      exact hoff ⟨fun _ => hne, fun hlt => absurd hlt (Nat.lt_irrefl _)⟩
    subst hpost
    obtain ⟨t, ht, -⟩ := readChunks_drains h
    exact ⟨_, t, ht⟩

/-! ### Reading in bulk -/

/-- What is held and not buffered is in the read area. -/
theorem Fusing.bulk (rounds : Nat) (h : Fusing s consumed remnants area held) (hn : n ≤ s.inputSize)
    (hlt : s.buffer.length < n) :
    ∃ t, InPlace t (held.drop s.buffer.length) ∧ SameInput (advanced s.buffer.length s) t ∧
      @bulkRead _ (virtuals (rounds + 1)) n s = (do
        let rest ← @bulkRead _ (virtuals rounds) (n - s.buffer.length)
        pure (s.buffer ++ rest) : Input ChunkedInputStream (List UInt8)) t := by
  have hahead := h.ahead (k := s.buffer.length) (Nat.le_refl _)
  have hremnants := h.remnants_le
  have hconsumed := h.consumed_le
  obtain ⟨_, t, ht, hinplace, hsame⟩ := hahead.retire (by omega)
  refine ⟨t, hinplace, hsame, (bulkRead_unbuffered hn hlt).trans (Action.bind_congr _ ?_)⟩
  show doBulkRead (virtuals rounds) (n - s.buffer.length) (advanced s.buffer.length s) = _
  rw [doBulkRead, Action.bind_ok _ hahead.bufferStart_eq, if_pos (by omega),
    Action.bind_ok _ hahead.consumedSize_eq, Action.bind_ok _ ht]

theorem InPlace.bulk (rounds : Nat) (h : InPlace s held) (hn : n ≤ s.inputSize) (hlt : held.length < n) :
    @bulkRead _ (virtuals (rounds + 1)) n s = (do
      let rest ← readChunks (n - held.length)
      pure (held ++ rest) : Input ChunkedInputStream (List UInt8)) (advanced held.length s) := by
  have hstart := (h.ahead (k := held.length)).bufferStart_eq
  obtain rfl := h.buffer
  refine (bulkRead_unbuffered hn hlt).trans (Action.bind_congr _ ?_)
  show doBulkRead (virtuals rounds) (n - s.buffer.length) (advanced s.buffer.length s) = _
  rw [doBulkRead, Action.bind_ok _ hstart, if_neg (by decide)]

theorem Located.bulk_held {rounds : Nat} (h : Located s held) (hle : n ≤ held.length)
    (hheld : held.length ≤ s.inputSize) (hfits : s.inputSize < wordLimit) :
    (@bulkRead _ (virtuals (rounds + 1)) n).Achieves s fun bytes t => bytes = held.take n ∧
      Located t (held.drop n) ∧ Spent n s t := by
  have hn : n ≤ s.inputSize := hle.trans hheld
  obtain ⟨tail, htail⟩ := h.buffer_starts
  by_cases hlen : n ≤ s.buffer.length
  · refine ⟨_, _, bulkRead_buffered hn hfits hlen, ?_, h.ahead hlen, spent_advanced hn hfits⟩
    rw [← htail, List.take_append_of_le_length hlen]
  · have hlt := Nat.lt_of_not_le hlen
    rcases h with h | ⟨consumed, remnants, area, h⟩
    · exact absurd hle (by rw [← h.buffer]; exact hlen)
    · obtain ⟨t, ht, hsame, heq⟩ := h.bulk rounds hn hlt
      have hspent := (spent_advanced (hlt.le.trans hn) hfits).same hsame
      have hbuffer := ht.buffer
      rw [← htail, List.drop_left] at hbuffer
      have hrest : n - s.buffer.length ≤ t.buffer.length := by
        rw [← htail, List.length_append] at hle
        rw [hbuffer]
        omega
      have hsize : t.inputSize + s.buffer.length = s.inputSize := hspent.1
      have hrestsize : n - s.buffer.length ≤ t.inputSize := by omega
      have htfits : t.inputSize < wordLimit := by omega
      refine ⟨_, _, heq.trans (Action.bind_ok _ (bulkRead_buffered hrestsize htfits hrest)), ?_, .inl ?_, ?_⟩
      · rw [hbuffer, ← htail, List.take_append, List.take_of_length_le hlt.le]
      · have hplain := ht.ahead (k := n - s.buffer.length)
        rwa [List.drop_drop, Nat.add_sub_cancel' hlt.le] at hplain
      · have hspentall := hspent.trans (spent_advanced hrestsize htfits)
        rwa [Nat.add_sub_cancel' hlt.le] at hspentall

/-- Of what is not held, as much is read chunk by chunk. -/
theorem Located.bulk_beyond {rounds : Nat} (h : Located s held) (hn : n ≤ s.inputSize) (hlt : held.length < n)
    (hfits : s.inputSize < wordLimit) :
    ∃ t, InPlace t [] ∧ Spent held.length s t ∧ @bulkRead _ (virtuals (rounds + 2)) n s = (do
      let rest ← readChunks (n - held.length)
      pure (held ++ rest) : Input ChunkedInputStream (List UInt8)) t := by
  obtain ⟨tail, htail⟩ := h.buffer_starts
  rcases h with h | ⟨consumed, remnants, area, h⟩
  · have hahead := h.ahead (k := held.length)
    rw [List.drop_length] at hahead
    exact ⟨_, hahead, spent_advanced (hlt.le.trans hn) hfits, h.bulk (rounds + 1) hn hlt⟩
  · have hlen : held.length = s.buffer.length + tail.length := by
      rw [← htail, List.length_append]
    obtain ⟨t, ht, hsame, heq⟩ := h.bulk (rounds + 1) hn (by omega)
    have hspent := (spent_advanced (k := s.buffer.length) (by omega) hfits).same hsame
    have hsize : t.inputSize + s.buffer.length = s.inputSize := hspent.1
    rw [← htail, List.drop_left] at ht
    have hahead := ht.ahead (k := tail.length)
    rw [List.drop_length] at hahead
    have hspentall := hspent.trans (spent_advanced (k := tail.length) (by omega) (by omega))
    rw [← hlen] at hspentall
    refine ⟨_, hahead, hspentall, heq.trans ?_⟩
    have hamount : n - s.buffer.length - tail.length = n - held.length := by omega
    rw [Action.bind_congr _ (ht.bulk rounds (by omega) (by omega)), hamount, Action.bind_bind, ← htail]
    simp only [List.append_assoc]
    rfl

theorem Holds.bulk_held {rounds : Nat} (h : Holds s held pending) (hle : n ≤ held.length) :
    (@bulkRead _ (virtuals (rounds + 1)) n).Achieves s fun bytes t => bytes = held.take n ∧
    Holds t (held.drop n) pending := by
  obtain ⟨hcounted, hlocated⟩ := holds_iff.mp h
  have hsize := hcounted.inputSize
  refine (hlocated.bulk_held hle (by omega) hcounted.fits).mono fun bytes t ht => ?_
  obtain ⟨hbytes, hrest, hspent⟩ := ht
  exact ⟨hbytes, holds_iff.mpr ⟨hcounted.spend hle hspent hrest.small, hrest⟩⟩

theorem Holds.bulk_beyond {rounds : Nat} (h : Holds s held pending) (hn : n ≤ s.inputSize)
    (hlt : held.length < n) :
    ∃ t, Plain t [] pending ∧ @bulkRead _ (virtuals (rounds + 2)) n s = (do
      let rest ← readChunks (n - held.length)
      pure (held ++ rest) : Input ChunkedInputStream (List UInt8)) t := by
  obtain ⟨hcounted, hlocated⟩ := holds_iff.mp h
  obtain ⟨t, ht, hspent, heq⟩ := hlocated.bulk_beyond hn hlt hcounted.fits
  have hcount := hcounted.spend (Nat.le_refl _) hspent ht.small
  rw [List.drop_length] at hcount
  exact ⟨t, .of_inPlace hcount ht, heq⟩

theorem bulkRead_rounds (n : Nat) (s : InputBuffer ChunkedInputStream) :
    bulkRead n s = @bulkRead _ (virtuals (s.derived.source.length + 3)) n s := by
  unfold bulkRead
  rfl

end ChunkedInputStream
end DeepPack
