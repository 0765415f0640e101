import DeepPack.Streams.ChunkedRefinement

/-! Discarding bytes that are not buffered, from a stream over chunks.

Behind remnants, the rest of the current chunk is dropped first, if it has no more bytes than
are to be discarded. But the amount is not lowered by what is dropped there, and as many bytes
are then discarded of the chunks to come. -/
namespace DeepPack
open Library InputBuffer

/-- The calls on a stream over chunks: those on an input buffer, and `do_discard_input`. -/
inductive StreamCall where
  | input (call : InputCall)
  | doDiscardInput (k : Nat)
  deriving DecidableEq, Repr

namespace ChunkedInputStream

/-- `do_discard_input`, with `data()` where it is. -/
def discardHere (k : Nat) : Input ChunkedInputStream Unit := do
  doDiscardInput (some (← consumedSize)) k

def performCall : StreamCall → InputBuffer ChunkedInputStream → InputBuffer ChunkedInputStream
  | .input call, s => (call.perform s).2
  | .doDiscardInput k, s => (discardHere k s).2

/-- What a run may ask for: `do_discard_input` once all buffered bytes were consumed, for less than all of the
others; and no bulk read that leaves the read area. -/
def MayCall : StreamCall → InputBuffer ChunkedInputStream → Prop
  | .input (.requireInput n), _ => n ≤ minimumInputBufferSize
  | .input (.discardBuffered n), s => n ≤ s.buffer.length
  | .input (.bulkRead n), s => (bulkRead n s).1 ≠ .error .outOfBounds
  | .doDiscardInput k, s => s.buffer = [] ∧ k < s.inputSize

instance : ∀ call s, Decidable (MayCall call s)
  | .input (.requireInput n), _ => inferInstanceAs (Decidable (n ≤ minimumInputBufferSize))
  | .input (.discardBuffered n), s => inferInstanceAs (Decidable (n ≤ s.buffer.length))
  | .input (.bulkRead n), s => inferInstanceAs (Decidable ((bulkRead n s).1 ≠ .error .outOfBounds))
  | .doDiscardInput k, s => inferInstanceAs (Decidable (s.buffer = [] ∧ k < s.inputSize))

/-- Just `k` bytes are discarded: the next of all bytes is the one behind them. -/
def Drops (all : List UInt8) : StreamCall → InputBuffer ChunkedInputStream → Prop
  | .doDiscardInput k, s => ∃ t, discardHere k s = (.ok (), t) ∧ t.inputSize + k = s.inputSize ∧ t.buffer ≠ [] ∧
      t.buffer <+: all.drop (all.length - t.inputSize)
  | .input _, _ => True

/-- How many bytes the current chunk has behind those in the small buffer. -/
def restOfChunk (s : InputBuffer ChunkedInputStream) : Nat :=
  (s.derived.readArea.windowSize + s.derived.bufferStart - s.derived.extent).toNat

/-- What is discarded ends in front of the rest of the current chunk's end, where the small buffer is in use and
there is a rest, and not too far inside another chunk. -/
def SparesRest : StreamCall → InputBuffer ChunkedInputStream → Prop
  | .doDiscardInput k, s => (0 ≤ s.derived.bufferStart → restOfChunk s = 0 ∨ k < restOfChunk s) ∧
      ∀ chunk r post, EndsIn s k chunk r post → r < chunk.length → r < 2 ^ 31
  | .input _, _ => True

variable {s t : InputBuffer ChunkedInputStream} {all held remnants area left : List UInt8}
  {pending : List (List UInt8)} {consumed k n : Nat}

/-! ### Discarding chunk by chunk -/

/-- Where in the chunks an amount ends that is less than all of their bytes. -/
theorem AreChunks.ends_before (h : AreChunks pending) (hlt : k < pending.flatten.length) :
    ∃ front chunk post r, pending = front ++ chunk :: post ∧ k = front.flatten.length + r ∧ (front = [] ∨ 0 < r) ∧
      r ≤ chunk.length ∧ (r = chunk.length → post ≠ []) := by
  by_cases hzero : k = 0
  · subst hzero
    cases pending with
    | nil => cases hlt
    | cons chunk post =>
      have hne := (h chunk List.mem_cons_self).1
      exact ⟨[], chunk, post, 0, rfl, rfl, .inl rfl, Nat.zero_le _,
        fun heq => absurd (List.length_eq_zero_iff.mp heq.symm) hne⟩
  · obtain ⟨front, chunk, post, r, rfl, hk, hr, hle⟩ := h.ends k (Nat.pos_of_ne_zero hzero) hlt.le
    refine ⟨front, chunk, post, r, rfl, hk, .inr hr, hle, fun heq hpost => ?_⟩
    subst hpost
    rw [List.flatten_append, List.length_append, List.flatten_singleton] at hlt
    omega

theorem Plain.endsIn {front post : List (List UInt8)} {chunk : List UInt8} {r : Nat}
    (h : Plain s [] (front ++ chunk :: post)) (hr : 0 < r) (hle : r ≤ chunk.length) :
    EndsIn s (front.flatten.length + r) chunk r post :=
  ⟨hr, hle, 0, front, h.source, h.inputSize, (Nat.zero_add _).symm⟩

/-- Where nothing is held, the chunks to come are discarded from. -/
theorem Plain.readChunks_before (h : Plain s [] pending) (hk : k < s.inputSize)
    (hspared : ∀ chunk r post, EndsIn s k chunk r post → r < chunk.length → r < 2 ^ 31) :
    (readChunks k).Achieves s fun _ t => Leaves t (pending.flatten.drop k) ∧ t.buffer ≠ [] := by
  have hsize := h.inputSize
  rw [List.length_nil, Nat.zero_add] at hsize
  obtain ⟨front, chunk, post, r, rfl, rfl, hr, hle, hpost⟩ := h.chunks.ends_before (hsize ▸ hk)
  have hon : GoesOn chunk r post := by
    refine ⟨hpost, fun hlt => ?_⟩
    by_cases hpos : 0 < r
    · exact hspared chunk r post (h.endsIn hpos hle) hlt
    · omega
  refine (readChunks_goesOn h hr hle hon).mono fun bytes t ht => ?_
  obtain ⟨-, hleaves, hne⟩ := ht
  refine ⟨?_, hne⟩
  rwa [List.flatten_append, List.flatten_cons, List.drop_length_add_append, List.drop_append_of_le_length hle]

theorem consumeChunks_exhausts {rounds amount : Nat} (hsource : s.derived.source = pending.map .ok)
    (hchunks : AreChunks pending) (hsize : pending.flatten.length ≤ s.inputSize) (hfits : s.inputSize < wordLimit)
    (hlt : pending.flatten.length < amount) (hrounds : pending.length < rounds) :
    ∃ t, consumeChunks rounds amount s = (.error (.errc .endOfStream), t) := by
  induction pending generalizing s rounds amount with
  | nil =>
    obtain ⟨rounds, rfl⟩ : ∃ k, rounds = k + 1 := ⟨rounds - 1, by omega⟩
    exact ⟨s, Action.bind_error _ (acquireNextChunk_end hsource)⟩
  | cons chunk rest ih =>
    obtain ⟨rounds, rfl⟩ : ∃ k, rounds = k + 1 := ⟨rounds - 1, by omega⟩
    rw [List.flatten_cons, List.length_append] at hsize hlt
    have htake : chunk.take amount = chunk := List.take_of_length_le (by omega)
    have hwrap : wrapSub 64 s.inputSize chunk.length = s.inputSize - chunk.length := wrapSub_of_le (by omega) hfits
    have hmore : rest.flatten.length < amount - chunk.length := by omega
    obtain ⟨t, ht⟩ := ih (s := ⟨[], s.inputSize - chunk.length, {s.derived with
      readArea := (MemoryView.ofSpan chunk).moveConsumer (toSigned 32 chunk.length)
      source := rest.map .ok
      extent := 0}⟩) rfl (fun c hc => hchunks c (List.mem_cons_of_mem chunk hc))
        (Nat.le_sub_of_add_le' hsize) (by dsimp only; omega) hmore (Nat.lt_of_succ_lt_succ hrounds)
    rw [consumeChunks_succ hsource (hchunks chunk List.mem_cons_self).2 (by omega), htake, hwrap,
      if_pos (by omega)]
    exact ⟨t, Action.bind_error _ ht⟩

/-- Whatever is read of the chunks is counted. -/
theorem Plain.readChunks_count {bytes : List UInt8} (h : Plain s [] pending) (hpos : 0 < k)
    (hok : readChunks k s = (.ok bytes, t)) : t.inputSize + k = s.inputSize := by
  have hsize := h.inputSize
  rw [List.length_nil, Nat.zero_add] at hsize
  by_cases hle : k ≤ pending.flatten.length
  · obtain ⟨front, chunk, post, r, rfl, rfl, hr, hrle⟩ := h.chunks.ends k hpos hle
    by_cases hon : GoesOn chunk r post
    · obtain ⟨_, u, hu, -, hleaves, -⟩ := readChunks_goesOn h (.inr hr) hrle hon
      rw [hok] at hu
      cases hu
      rw [hleaves.inputSize, hsize, List.flatten_append, List.length_append, List.length_append, List.flatten_cons,
        List.length_append, List.length_drop]
      omega
    · obtain ⟨e, u, hu⟩ := readChunks_fails h hrle hon
      rw [hok] at hu
      cases hu
  · have hrounds : pending.length < s.derived.source.length + 1 := by
      rw [h.source, List.length_map]
      exact Nat.lt_succ_self _
    obtain ⟨u, hu⟩ := consumeChunks_exhausts h.source h.chunks hsize.ge h.fits (Nat.lt_of_not_le hle) hrounds
    have hfails : readChunks k s = (.error (.errc .endOfStream), u) := by
      rw [readChunks, Action.gets_bind_apply]
      exact Action.bind_error _ hu
    rw [hok] at hfails
    cases hfails

/-! ### `do_discard_input` -/

theorem discardHere_plain (h : Plain s held pending) :
    discardHere k s = (do let _ ← readChunks k : Input ChunkedInputStream Unit) s := by
  rw [discardHere, consumedSize, Action.gets_bind_apply, doDiscardInput, Action.bind_ok _ h.toInPlace.bufferStart_eq,
    if_neg (by decide)]

/-- Behind remnants that were all consumed, the rest of the chunk is discarded first. -/
theorem discardHere_fused (h : Fused s consumed remnants area held pending) (hempty : s.buffer = []) :
    restOfChunk s = held.length ∧ ∃ t, Plain t held pending ∧ discardHere k s = (if k < held.length then
        discardBuffered k
      else do
        discardBuffered held.length
        let _ ← readChunks k : Input ChunkedInputStream Unit) t := by
  have hconsumed := h.consumed_le
  rw [hempty, List.length_nil, Nat.add_zero] at hconsumed
  have hremnants := h.remnants_le
  have hextent := h.extent_le
  rw [List.length_append] at hextent
  have hrest : restOfChunk s = held.length := by
    rw [restOfChunk, h.start, MemoryView.windowSize_of_remaining h.readArea, h.held_eq, List.length_drop,
      List.length_append]
    omega
  obtain ⟨_, t, ht, hinplace, hsame⟩ := h.toFusing.retire (by omega)
  have hplain : Plain t held pending := .of_inPlace (h.toCounted.same hsame hinplace.small) hinplace
  refine ⟨hrest, t, hplain, ?_⟩
  rw [discardHere, Action.bind_ok _ h.toFusing.consumedSize_eq, doDiscardInput,
    Action.bind_ok _ h.toFusing.bufferStart_eq, if_pos (by omega)]
  apply (Action.bind_ok _ ht).trans
  rw [size, Action.gets_bind_apply, hplain.buffer]

/-- The bytes behind the amount are the ones left. -/
theorem discardHere_leaves (h : Leaves s left) (hempty : s.buffer = []) (hk : k < s.inputSize)
    (hspared : SparesRest (.doDiscardInput k) s) :
    (discardHere k).Achieves s fun _ t => Leaves t (left.drop k) ∧ t.buffer ≠ [] := by
  obtain ⟨held, pending, hholds, rfl⟩ := h
  rcases hholds with h | ⟨consumed, remnants, area, h⟩
  · obtain rfl : held = [] := h.buffer.symm.trans hempty
    exact .of_eq (discardHere_plain h)
      ((h.readChunks_before hk hspared.2).bind fun _ t ht => Action.achieves_pure ht)
  · obtain ⟨hrest, t, ht, heq⟩ := discardHere_fused (k := k) h hempty
    have hcase := hspared.1 (by rw [h.start]; exact Int.natCast_nonneg _)
    rw [hrest] at hcase
    refine .of_eq heq ?_
    by_cases hlt : k < held.length
    · have hdrop : held.drop k ≠ [] := by
        rw [Ne, List.drop_eq_nil_iff]
        omega
      have hle : k ≤ t.buffer.length := by
        rw [ht.buffer]
        exact hlt.le
      rw [if_pos hlt]
      refine ⟨(), _, discardBuffered_eq hle, ?_, ?_⟩
      · rw [List.drop_append_of_le_length hlt.le]
        exact Holds.leaves (.inl (ht.ahead hle))
      · show t.buffer.drop k ≠ []
        rwa [ht.buffer]
    · obtain rfl : held = [] := List.length_eq_zero_iff.mp (hcase.resolve_right hlt)
      have hzero : discardBuffered ([] : List UInt8).length t = (.ok (), advanced 0 t) :=
        discardBuffered_eq (Nat.zero_le _)
      have hahead : Plain (advanced 0 t) [] pending := ht.ahead (Nat.zero_le _)
      have hsize : (advanced 0 t).inputSize = s.inputSize := hahead.inputSize.trans h.inputSize.symm
      have hsame : ∀ chunk r post, EndsIn (advanced 0 t) k chunk r post → EndsIn s k chunk r post := by
        intro chunk r post hends
        obtain ⟨hr, hle, count, front, hsource, hcount, hn⟩ := hends
        exact ⟨hr, hle, count, front, (h.source.trans hahead.source.symm).trans hsource,
          hsize.symm.trans hcount, hn⟩
      have hk' : k < (advanced 0 t).inputSize := by rwa [hsize]
      rw [if_neg hlt]
      refine .step hzero ((hahead.readChunks_before hk' fun chunk r post hends =>
        hspared.2 chunk r post (hsame chunk r post hends)).bind fun _ t ht => Action.achieves_pure ht)

/-- Whenever the call succeeds and counts just these bytes, it spared the rest. -/
theorem sparesRest_of_drops (h : Leaves s left) (hempty : s.buffer = [])
    (hrun : discardHere k s = (.ok (), t)) (hcount : t.inputSize + k = s.inputSize) :
    SparesRest (.doDiscardInput k) s := by
  obtain ⟨held, pending, hholds, rfl⟩ := h
  have hsize := hholds.counted.inputSize
  -- where nothing is held, the amount ends in a chunk to come
  have hchunks : ∀ u, Plain u [] pending → held = [] → (∃ bytes v, readChunks k u = (.ok bytes, v)) →
      ∀ chunk r post, EndsIn s k chunk r post → r < chunk.length → r < 2 ^ 31 := by
    intro u hu hheld hok chunk r post hends hlt
    subst hheld
    by_contra hlarge
    obtain ⟨front, rfl, hn⟩ := EndsIn.pending_eq hholds.counted hends
    obtain ⟨v, hv⟩ := readChunks_slips hu hlt (Nat.le_of_not_lt hlarge)
    obtain ⟨bytes, w, hw⟩ := hok
    rw [List.length_nil, Nat.zero_add] at hn
    rw [← hn, hw] at hv
    cases hv
  rcases hholds with h | ⟨consumed, remnants, area, h⟩
  · obtain rfl : held = [] := h.buffer.symm.trans hempty
    rw [discardHere_plain h] at hrun
    obtain ⟨bytes, u, hu, -⟩ := Action.bind_eq_ok.mp hrun
    exact ⟨fun hstart => absurd hstart (by rw [h.start]; decide), hchunks s h rfl ⟨bytes, u, hu⟩⟩
  · obtain ⟨hrest, u, hu, heq⟩ := discardHere_fused (k := k) h hempty
    rw [heq] at hrun
    rw [SparesRest, hrest]
    by_cases hlt : k < held.length
    · refine ⟨fun _ => .inr hlt, fun chunk r post hends _ => ?_⟩
      obtain ⟨front, -, hn⟩ := EndsIn.pending_eq h.toCounted hends
      omega
    · have hheldle : held.length ≤ u.buffer.length := (congrArg List.length hu.buffer).ge
      have hahead := hu.ahead hheldle
      rw [List.drop_length] at hahead
      rw [if_neg hlt, Action.bind_ok _ (discardBuffered_eq hheldle)] at hrun
      obtain ⟨bytes, v, hv, hpure⟩ := Action.bind_eq_ok.mp hrun
      cases hpure
      have hheld : held = [] := by
        by_contra hne
        have hpos := List.length_pos_iff.mpr hne
        have hdropped := hahead.readChunks_count (by omega) hv
        rw [hahead.inputSize, List.length_nil] at hdropped
        omega
      exact ⟨fun _ => .inl (List.length_eq_zero_iff.mpr hheld), hchunks _ hahead hheld ⟨bytes, _, hv⟩⟩

/-! ### Runs -/

/-- The bytes left are the last of all; or nothing is left, and nothing buffered. -/
def Tracks (all : List UInt8) (s : InputBuffer ChunkedInputStream) : Prop :=
  (∃ left, Leaves s left ∧ left <:+ all) ∨ (s.inputSize = 0 ∧ s.buffer = [])

theorem drops_iff_sparesRest (h : Leaves s left) (hall : left <:+ all) (hmay : MayCall (.doDiscardInput k) s) :
    (Drops all (.doDiscardInput k) s ↔ SparesRest (.doDiscardInput k) s) ∧
      (Drops all (.doDiscardInput k) s → Tracks all (performCall (.doDiscardInput k) s)) := by
  obtain ⟨hempty, hk⟩ := hmay
  have hspares : Drops all (.doDiscardInput k) s → SparesRest (.doDiscardInput k) s := by
    intro hdrops
    obtain ⟨t, ht, hcount, -⟩ := hdrops
    exact sparesRest_of_drops h hempty ht hcount
  refine ⟨⟨hspares, fun hspared => ?_⟩, fun hdrops => ?_⟩
  · obtain ⟨_, t, ht, hleaves, hne⟩ := discardHere_leaves h hempty hk hspared
    have hsuffix : left.drop k <:+ all := (List.drop_suffix k left).trans hall
    have hsize := hleaves.inputSize
    rw [h.inputSize] at hk
    refine ⟨t, ht, ?_, hne, ?_⟩
    · rw [hsize, h.inputSize, List.length_drop]
      omega
    · rw [hsize, ← List.suffix_iff_eq_drop.mp hsuffix]
      exact hleaves.next
  · obtain ⟨_, t, ht, hleaves, -⟩ := discardHere_leaves h hempty hk (hspares hdrops)
    rw [performCall, ht]
    exact .inl ⟨left.drop k, hleaves, (List.drop_suffix k left).trans hall⟩

/-- In memory a call moves on in the bytes left, or stays. -/
theorem perform_memoryInput {call : InputCall} (hfits : left.length < wordLimit)
    (hcall : ∀ n, call = .discardBuffered n → n ≤ left.length) :
    ∃ n, (call.perform (memoryInput left)).2 = memoryInput (left.drop n) := by
  cases call with
  | requireInput n =>
    refine ⟨0, ?_⟩
    have hmemory := MemoryInputStream.requireInput_memory (b := left) n
    rw [List.drop_zero]
    split at hmemory
    · exact congrArg Prod.snd (Action.bind_ok _ hmemory)
    · exact congrArg Prod.snd (Action.bind_error _ hmemory)
  | discardBuffered n =>
    exact ⟨n, congrArg Prod.snd (Action.bind_ok _ (MemoryInputStream.discardBuffered_memory hfits (hcall n rfl)))⟩
  | bulkRead n =>
    have hmemory := MemoryInputStream.bulkRead_memory n hfits
    split at hmemory
    · exact ⟨n, congrArg Prod.snd hmemory⟩
    · exact ⟨0, congrArg Prod.snd hmemory⟩

theorem SameLeft.tracks {call : InputCall} (hsame : SameLeft (performOnBoth call (s, memoryInput left)))
    (hfits : left.length < wordLimit) (hcall : ∀ n, call = .discardBuffered n → n ≤ left.length)
    (hall : left <:+ all) : Tracks all (call.perform s).2 := by
  obtain ⟨rest, hleaves, hrest⟩ := hsame
  obtain ⟨n, hn⟩ := perform_memoryInput hfits hcall
  obtain rfl : left.drop n = rest := congrArg InputBuffer.buffer (hn.symm.trans hrest)
  exact .inl ⟨_, hleaves, (List.drop_suffix n left).trans hall⟩

/-- With nothing left, no call changes anything. -/
theorem Tracks.drained {call : InputCall} (hsize : s.inputSize = 0) (hempty : s.buffer = [])
    (hmay : MayCall (.input call) s) : Tracks all (call.perform s).2 := by
  have hlen : s.buffer.length = 0 := congrArg List.length hempty
  cases call with
  | requireInput n =>
    have hrun : ∃ r, requireInput n s = (r, s) := by
      rw [requireInput, hsize, hlen]
      by_cases hn : 0 < n
      · exact ⟨_, if_pos hn⟩
      · exact ⟨_, (if_neg hn).trans (if_neg hn)⟩
    obtain ⟨r, hr⟩ := hrun
    refine .inr ?_
    cases r with
    | ok =>
      rw [show (InputCall.requireInput n).perform s = _ from Action.bind_ok _ hr]
      exact ⟨hsize, hempty⟩
    | error =>
      rw [show (InputCall.requireInput n).perform s = _ from Action.bind_error _ hr]
      exact ⟨hsize, hempty⟩
  | discardBuffered n =>
    have hn : n ≤ s.buffer.length := hmay
    rw [show (InputCall.discardBuffered n).perform s = _ from Action.bind_ok _ (discardBuffered_eq hn)]
    obtain rfl : n = 0 := by omega
    refine .inr ⟨?_, ?_⟩
    · have hfits : s.inputSize < 2 ^ 64 := hsize ▸ Nat.two_pow_pos 64
      exact (wrapSub_of_le (Nat.zero_le _) hfits).trans hsize
    · show (advanced 0 s).buffer = []
      rw [advanced, hempty, List.drop_nil]
  | bulkRead n =>
    have hrun : ∃ r, bulkRead n s = (r, s) := by
      rw [bulkRead, hsize]
      by_cases hn : n = 0
      · exact ⟨_, if_pos hn⟩
      · exact ⟨_, (if_neg hn).trans (if_pos (Nat.pos_of_ne_zero hn))⟩
    obtain ⟨r, hr⟩ := hrun
    rw [show (InputCall.bulkRead n).perform s = _ from hr]
    exact .inr ⟨hsize, hempty⟩

theorem Tracks.input {call : InputCall} (h : Tracks all s) (hmay : MayCall (.input call) s) :
    Tracks all (call.perform s).2 := by
  rcases h with ⟨left, h, hall⟩ | ⟨hsize, hempty⟩
  · cases call with
    | requireInput n => exact (requireInput_refines h hmay).2.tracks h.fits (fun m hm => by cases hm) hall
    | discardBuffered n =>
      refine (discardBuffered_refines h hmay).2.tracks h.fits (fun m hm => ?_) hall
      cases hm
      exact hmay.trans h.next.length_le
    | bulkRead n =>
      by_cases hspared : Spared (.bulkRead n) (s, memoryInput left)
      · exact (bulkRead_refines h hspared).2.tracks h.fits (fun m hm => by cases hm) hall
      · -- all bytes are read, and the stream cannot go on
        rw [Spared] at hspared
        push Not at hspared
        obtain ⟨chunk, r, post, hends, hoff⟩ := hspared
        obtain ⟨-, held, front, t, ht, heq⟩ := hends.bulk h
        rcases Nat.lt_or_eq_of_le hends.2.1 with hlt | rfl
        · have hlarge : 2 ^ 31 ≤ r := by
            by_contra hsmall
            exact hoff ⟨fun heq => absurd heq (Nat.ne_of_lt hlt), fun _ => Nat.lt_of_not_le hsmall⟩
          obtain ⟨u, hu⟩ := readChunks_slips ht hlt hlarge
          exact absurd (congrArg Prod.fst (heq.trans (Action.bind_error _ hu))) hmay
        · obtain rfl : post = [] := by
            by_contra hne
            exact hoff ⟨fun _ => hne, fun hlt => absurd hlt (Nat.lt_irrefl _)⟩
          obtain ⟨u, hu, hsize, hempty⟩ := readChunks_drains ht
          rw [show (InputCall.bulkRead n).perform s = _ from heq.trans (Action.bind_error _ hu)]
          exact .inr ⟨hsize, hempty⟩
  · exact .drained hsize hempty hmay

/-- A run in which every `do_discard_input` drops just its bytes is one in which each spares the rest of the
current chunk. -/
theorem doDiscardInput_drops_iff {first : List UInt8} {chunks : List (List UInt8)} {calls : List StreamCall}
    (hchunks : AreChunks chunks) (hfits : (first ++ chunks.flatten).length < wordLimit)
    (hmay : EveryStep performCall MayCall calls
      (chunkedInput first (first ++ chunks.flatten).length (chunks.map .ok))) :
    EveryStep performCall (Drops (first ++ chunks.flatten)) calls
        (chunkedInput first (first ++ chunks.flatten).length (chunks.map .ok)) ↔
      EveryStep performCall SparesRest calls
        (chunkedInput first (first ++ chunks.flatten).length (chunks.map .ok)) := by
  have hopened : Holds (chunkedInput first (first ++ chunks.flatten).length (chunks.map .ok)) first chunks :=
    .inl ⟨⟨hchunks, rfl, List.length_replicate, List.length_append, hfits⟩, rfl, rfl⟩
  refine hmay.iff_of_invariant (Tracks (first ++ chunks.flatten))
    (.inl ⟨_, hopened.leaves, List.suffix_refl _⟩) ?_ ?_
  · intro call s hs hcall
    cases call with
    | input => exact Iff.rfl
    | doDiscardInput k =>
      rcases hs with ⟨left, h, hall⟩ | ⟨hsize, -⟩
      · exact (drops_iff_sparesRest h hall hcall).1
      · exact absurd hcall.2 (by rw [hsize]; exact Nat.not_lt_zero k)
  · intro call s hs hcall hdrops
    cases call with
    | input => exact hs.input hcall
    | doDiscardInput k =>
      rcases hs with ⟨left, h, hall⟩ | ⟨hsize, -⟩
      · exact (drops_iff_sparesRest h hall hcall).2 hdrops
      · exact absurd hcall.2 (by rw [hsize]; exact Nat.not_lt_zero k)

/-- Two chunks are fused, and there is no rest of the second one. -/
theorem doDiscardInput_drops_fused :
    EveryStep performCall (Drops [1, 2, 3, 4, 5, 6])
      [.input (.requireInput 2), .input (.discardBuffered 3), .doDiscardInput 1]
      (chunkedInput [1] 6 [.ok [2, 3], .ok [4, 5, 6]]) := by
  refine (@doDiscardInput_drops_iff [1] [[2, 3], [4, 5, 6]] _ (by decide) (by decide) (by decide)).mpr
    ⟨trivial, trivial, ⟨fun _ => .inl (by decide), fun chunk r post hends hlt => ?_⟩, trivial⟩
  obtain ⟨-, -, _, front, hsource, -⟩ := hends
  -- one chunk is left
  have hone : [[4, 5, 6]] = front ++ chunk :: post := by
    refine (List.map_inj_right fun _ _ => Except.ok.inj).mp (Eq.trans ?_ hsource)
    decide
  have hmem : chunk ∈ [[4, 5, 6]] := hone ▸ List.mem_append_right front List.mem_cons_self
  obtain rfl := List.mem_singleton.mp hmem
  exact hlt.trans (by decide)

/-- Of a chunk that is fused with one byte 23 bytes are behind the small buffer: twice as many are discarded. -/
theorem doDiscardInput_drops_twice : ¬ ∀ first chunks calls, AreChunks chunks →
    (first ++ chunks.flatten).length < wordLimit →
    EveryStep performCall MayCall calls (chunkedInput first (first ++ chunks.flatten).length (chunks.map .ok)) →
    EveryStep performCall (Drops (first ++ chunks.flatten)) calls
      (chunkedInput first (first ++ chunks.flatten).length (chunks.map .ok)) := by
  intro h
  have hdrops := (h [0] [List.replicate 100 1, List.replicate 30 2]
    [.input (.requireInput 2), .input (.discardBuffered 78), .doDiscardInput 23] (by decide +kernel)
    (by decide +kernel) (by decide +kernel)).2.2.1
  generalize hs : performCall (.input (.discardBuffered 78)) _ = s at hdrops
  obtain ⟨t, ht, hcount, -⟩ := hdrops
  have hbefore : s.inputSize = 53 := by
    rw [← hs]
    decide +kernel
  have hafter : (discardHere 23 s).2.inputSize = 7 := by
    rw [← hs]
    decide +kernel
  have hstate : (discardHere 23 s).2 = t := congrArg Prod.snd ht
  rw [hstate] at hafter
  omega

end ChunkedInputStream
end DeepPack
