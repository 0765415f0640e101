import DeepPack.Streams.ChunkedPatches

/-! A stream over chunks is truthful.

What is held and what is to be handed out is all that is left of the stream, also where
chunks are empty. From such a state the calls give the next bytes whenever they give any:
what a bulk read slips on is an error. -/
namespace DeepPack
open Library InputBuffer

theorem MemoryView.remaining_moveConsumer_eq {memory bytes : List UInt8} {k : Nat} (hmemory : memory.length < 2 ^ 32)
    (hk : k ≤ memory.length) (h : ((ofSpan memory).moveConsumer (toSigned 32 k)).remaining = some bytes) :
    bytes = memory.drop k := by
  by_cases hsmall : k < 2 ^ 31
  · have hsigned : toSigned 32 k = k := toSigned_of_fits (by omega) (by omega)
    rw [hsigned, remaining_moveConsumer (remaining_ofSpan hmemory) hmemory hk] at h
    exact (Option.some.inj h).symm
  · -- the window begins in front of the memory
    have hsigned : toSigned 32 k = (k : Int) - (2 ^ 32 : Nat) := toSigned_of_large (by omega) (by omega)
    have hout : ¬ (0 ≤ ((ofSpan memory).moveConsumer (toSigned 32 k)).windowBegin) := by
      rw [hsigned]
      show ¬ (0 : Int) ≤ 0 + (k - (2 ^ 32 : Nat))
      omega
    rw [remaining, if_neg fun hin => hout hin.1] at h
    cases h

namespace ChunkedInputStream
variable {s t u : InputBuffer ChunkedInputStream} {held left : List UInt8} {pending : List (List UInt8)} {n : Nat}

/-- What is held and what is to be handed out is all that is left. -/
structure Lists (s : InputBuffer ChunkedInputStream) (held : List UInt8) (pending : List (List UInt8)) : Prop where
  located : Located s held
  source : s.derived.source = pending.map .ok
  sized : ∀ c ∈ pending, c.length < 2 ^ 32
  inputSize : s.inputSize = held.length + pending.flatten.length
  fits : s.inputSize < wordLimit

theorem Lists.held_le (h : Lists s held pending) : held.length ≤ s.inputSize := by
  rw [h.inputSize]
  exact Nat.le_add_right _ _

theorem Lists.areSized (h : Lists s held pending) : AreSized s.derived.source := by
  intro chunk hchunk
  rw [h.source] at hchunk
  obtain ⟨c, hc, heq⟩ := List.mem_map.mp hchunk
  cases heq
  exact h.sized chunk hc

/-- What was acquired is held, and the rest is to be handed out. -/
theorem Lists.acquired (h : Lists s held pending) (ht : Acquired held s t) :
    ∃ front rest, pending = front ++ rest ∧ Lists t (held ++ front.flatten) rest := by
  obtain ⟨hsize, front, hsource, hlocated⟩ := ht
  rw [h.source] at hsource
  obtain ⟨pre, rest, rfl, rfl, hrest⟩ := List.map_eq_append_iff.mp hsource
  have hcount := h.inputSize
  rw [List.flatten_append, List.length_append] at hcount
  have hall : (held ++ pre.flatten).take s.inputSize = held ++ pre.flatten := by
    apply List.take_of_length_le
    rw [List.length_append]
    omega
  rw [arrivals_map, hall] at hlocated
  refine ⟨pre, rest, rfl, hlocated, hrest.symm, fun c hc => h.sized c (List.mem_append_right pre hc), ?_, hsize ▸ h.fits⟩
  rw [hsize, hcount, List.length_append, Nat.add_assoc]

theorem Lists.drop {k : Nat} (h : Lists s held pending) (hk : k ≤ held.length) (hlocated : Located t (held.drop k))
    (hspent : Spent k s t) : Lists t (held.drop k) pending := by
  obtain ⟨hsize, hsource⟩ := hspent
  have hcount := h.inputSize
  have hfits := h.fits
  refine ⟨hlocated, hsource.trans h.source, h.sized, ?_, by omega⟩
  rw [List.length_drop]
  omega

theorem Lists.require (h : Lists s held pending) (hsmall : n ≤ minimumInputBufferSize)
    (hrun : requireInput n s = (.ok (), t)) :
    ∃ front rest, pending = front ++ rest ∧ Lists t (held ++ front.flatten) rest ∧ n ≤ t.buffer.length := by
  by_cases hn : n ≤ s.inputSize
  · have hsupplies : Supplies n s.inputSize held.length s.derived.source := by
      rw [h.source, h.inputSize]
      exact supplies_chunks (h.inputSize ▸ hn)
    have hask : Askable n s held := ⟨hn, hsmall, h.held_le, h.areSized, hsupplies⟩
    have hserved := h.located.require hask (show s.derived.source.length + 1 < rounds s by rw [rounds]; omega)
    rw [Action.Meets, ← requireInput_rounds, hrun] at hserved
    obtain ⟨front, rest, hpending, hlists⟩ := h.acquired hserved.acquired
    exact ⟨front, rest, hpending, hlists, hserved.enough rfl⟩
  · rw [requireInput, if_pos (Nat.lt_of_not_le hn)] at hrun
    cases hrun

/-! ### Reading chunk by chunk -/

/-- What reading so many bytes of the chunks leaves: the rest of a chunk, unless the read area was left for good,
and the chunks behind it. -/
structure LeftBy (amount : Nat) (s t : InputBuffer ChunkedInputStream) (rest : List UInt8) (more : List (List UInt8)) :
    Prop where
  inPlace : InPlace t []
  source : t.derived.source = more.map .ok
  inputSize : t.inputSize + amount = s.inputSize
  windowSize : t.derived.readArea.windowSize = rest.length
  remaining : ∀ bytes, t.derived.readArea.remaining = some bytes → bytes = rest

theorem consumeChunks_lists (rounds amount : Nat) (h : Lists s [] pending) (hinplace : InPlace s [])
    (hle : amount ≤ s.inputSize) : (consumeChunks rounds amount).Meets s fun r t => ∀ bytes, r = .ok bytes →
      bytes.length = amount ∧ ∃ rest more, pending.flatten = bytes ++ (rest ++ more.flatten) ∧
        (∀ c ∈ more, c.length < 2 ^ 32) ∧ LeftBy amount s t rest more := by
  induction rounds generalizing s amount pending with
  | zero =>
    intro _ hok
    cases hok
  | succ rounds ih =>
    cases pending with
    | nil => exact .stop (acquireNextChunk_end h.source) (by rintro _ ⟨⟩)
    | cons chunk pending =>
      have hchunk := h.sized chunk List.mem_cons_self
      have hsized : ∀ c ∈ pending, c.length < 2 ^ 32 := fun c hc => h.sized c (List.mem_cons_of_mem _ hc)
      have hcount := h.inputSize
      have hfits := h.fits
      rw [List.flatten_cons, List.length_nil, List.length_append, Nat.zero_add] at hcount
      refine .of_eq (consumeChunks_succ h.source hchunk (by omega)) ?_
      have hwrap : wrapSub 64 s.inputSize (chunk.take amount).length = s.inputSize - (chunk.take amount).length :=
        wrapSub_of_le (by rw [List.length_take]; omega) hfits
      by_cases hend : amount ≤ chunk.length
      · have htaken : (chunk.take amount).length = amount := List.length_take_of_le hend
        refine .ite_neg (by omega) (Action.meets_of_eq rfl fun bytes hok => ?_)
        cases hok
        refine ⟨htaken, chunk.drop amount, pending, ?_, hsized, ⟨hinplace.small, hinplace.start, rfl⟩, rfl, ?_, ?_, ?_⟩
        · rw [← List.append_assoc, List.take_append_drop, List.flatten_cons]
        · show wrapSub 64 s.inputSize (chunk.take amount).length + amount = _
          omega
        · rw [htaken]
          exact (MemoryView.windowSize_moveConsumer hchunk hend).trans List.length_drop.symm
        · intro bytes hbytes
          rw [htaken] at hbytes
          exact MemoryView.remaining_moveConsumer_eq hchunk hend hbytes
      · -- all of the chunk is read
        have htake : chunk.take amount = chunk := List.take_of_length_le (by omega)
        rw [htake] at hwrap ⊢
        refine .ite_pos (by omega) ?_
        generalize ht : (⟨[], wrapSub 64 s.inputSize chunk.length, _⟩ : InputBuffer ChunkedInputStream) = t
        have htsize : t.inputSize = s.inputSize - chunk.length := ht ▸ hwrap
        have htinplace : InPlace t [] := ht ▸ ⟨hinplace.small, hinplace.start, rfl⟩
        have htsource : t.derived.source = pending.map .ok := ht ▸ rfl
        have htlists : Lists t [] pending := ⟨.inl htinplace, htsource, hsized, by rw [htsize, List.length_nil]; omega, by omega⟩
        have hrest := ih (amount - chunk.length) htlists htinplace (by omega)
        rcases hrun : consumeChunks rounds (amount - chunk.length) t with ⟨e | bytes, u⟩ <;>
          rw [Action.Meets, hrun] at hrest
        · exact .stop hrun (by rintro _ ⟨⟩)
        · obtain ⟨hlen, rest, more, hflatten, hmore, hleaves⟩ := hrest bytes rfl
          refine .step hrun (Action.meets_of_eq rfl fun bytes' hok => ?_)
          cases hok
          have hcount' : u.inputSize + (amount - chunk.length) = t.inputSize := hleaves.inputSize
          have husize : u.inputSize + amount = s.inputSize := by omega
          refine ⟨by rw [List.length_append]; omega, rest, more, ?_, hmore, hleaves.inPlace, hleaves.source,
            husize, hleaves.windowSize, hleaves.remaining⟩
          rw [List.flatten_cons, hflatten, List.append_assoc]

theorem readChunks_lists (amount : Nat) (h : Lists s [] pending) (hinplace : InPlace s []) (hle : amount ≤ s.inputSize) :
    (readChunks amount).Meets s fun r t => ∀ bytes, r = .ok bytes → bytes.length = amount ∧ t.inputSize + amount = s.inputSize ∧
      ∃ held more, pending.flatten = bytes ++ (held ++ more.flatten) ∧ Lists t held more := by
  have hconsume := consumeChunks_lists (s.derived.source.length + 1) amount h hinplace hle
  have hfits := h.fits
  refine .step (x := Action.gets _) rfl ?_
  rcases hrun : consumeChunks (s.derived.source.length + 1) amount s with ⟨e | bytes, t⟩ <;>
    rw [Action.Meets, hrun] at hconsume
  · exact .stop hrun (by rintro _ ⟨⟩)
  obtain ⟨hlen, rest, more, hflatten, hmore, hleft⟩ := hconsume bytes rfl
  dsimp only at hleft
  have hcount := h.inputSize
  have hsize := hleft.inputSize
  rw [List.length_nil, hflatten, List.length_append, List.length_append] at hcount
  refine .step hrun (.step (x := Action.gets _) rfl ?_)
  by_cases hrest : rest = []
  · subst hrest
    have hlists : Lists t [] more := ⟨.inl hleft.inPlace, hleft.source, hmore, by omega, by omega⟩
    refine .ite_pos hleft.windowSize ?_
    rcases hleft.inPlace.acquire hlists.areSized with ⟨e, u, hu, -⟩ | ⟨chunk, u, hnext, husize, huinplace, heq⟩
    · exact .stop hu (by rintro _ ⟨⟩)
    · have hheld : Acquired (chunk.take t.inputSize) u u :=
        .refl (.inl huinplace) (by rw [husize]; exact List.length_take_le _ _)
      obtain ⟨front, rest, rfl, hulists⟩ := hlists.acquired (.next hnext husize hheld)
      refine .of_eq (heq _ _) (Action.meets_of_eq rfl fun bytes' hok => ?_)
      cases hok
      refine ⟨hlen, by omega, _, rest, ?_, hulists⟩
      rw [hflatten, List.flatten_append]
      rfl
  · refine .ite_neg (fun hzero => hrest (List.length_eq_zero_iff.mp (hleft.windowSize.symm.trans hzero))) ?_
    rcases hremaining : t.derived.readArea.remaining with _ | area
    · exact .stop (resetToReadArea_out hremaining) (by rintro _ ⟨⟩)
    · obtain rfl := hleft.remaining area hremaining
      refine .step (resetToReadArea_eq hremaining) (Action.meets_of_eq rfl fun bytes' hok => ?_)
      cases hok
      have hin : InPlace ⟨area, t.inputSize, {t.derived with extent := area.length}⟩ area :=
        ⟨hleft.inPlace.small, hleft.inPlace.start, rfl⟩
      exact ⟨hlen, hsize, area, more, hflatten, .inl hin, hleft.source, hmore, by dsimp only; omega, by dsimp only; omega⟩

theorem Lists.bulk (h : Lists s held pending) {bytes : List UInt8} (hn : n ≤ s.inputSize)
    (hrun : bulkRead n s = (.ok bytes, t)) :
    bytes.length = n ∧ t.inputSize + n = s.inputSize ∧ ∃ held' more,
      held ++ pending.flatten = bytes ++ (held' ++ more.flatten) ∧ Lists t held' more := by
  rw [bulkRead_rounds] at hrun
  by_cases hle : n ≤ held.length
  · obtain ⟨bytes', u, hu, rfl, hlocated, hspent⟩ := h.located.bulk_held hle h.held_le h.fits
    cases hrun.symm.trans hu
    refine ⟨List.length_take_of_le hle, hspent.1, _, pending, ?_, h.drop hle hlocated hspent⟩
    rw [← List.append_assoc, List.take_append_drop]
  · have hlt := Nat.lt_of_not_le hle
    obtain ⟨u, hinplace, hspent, heq⟩ := h.located.bulk_beyond hn hlt h.fits
    have hsize := hspent.1
    have hdrop := h.drop (t := u) (Nat.le_refl _) (by rw [List.drop_length]; exact .inl hinplace) hspent
    rw [List.drop_length] at hdrop
    have hread := readChunks_lists (n - held.length) hdrop hinplace (by omega)
    rw [heq] at hrun
    rcases hchunks : readChunks (n - held.length) u with ⟨e | rest, w⟩ <;> rw [Action.Meets, hchunks] at hread
    · rw [Action.bind_error _ hchunks] at hrun
      cases hrun
    · rw [Action.bind_ok _ hchunks] at hrun
      cases hrun
      obtain ⟨hlen, hcount, held', more, hflatten, hlists⟩ := hread rest rfl
      dsimp only at hcount
      refine ⟨by rw [List.length_append]; omega, by omega, held', more, ?_, hlists⟩
      rw [hflatten, List.append_assoc]

/-! ### The contract -/

/-- So much of the bytes the stream was opened over is left. -/
def ListsRest (stream : List UInt8) (s : InputBuffer ChunkedInputStream) : Prop :=
  ∃ held pending, Lists s held pending ∧ s.inputSize ≤ stream.length ∧
    held ++ pending.flatten = rest stream stream.length s

theorem ListsRest.inputSize_eq {stream : List UInt8} (h : ListsRest stream s) :
    s.inputSize = (rest stream stream.length s).length := by
  obtain ⟨-, -, -, hle, -⟩ := h
  rw [rest, List.length_drop]
  omega

/-- A call that moves on by `k` bytes. -/
theorem ListsRest.next {stream : List UInt8} (h : ListsRest stream s) {k : Nat} (hsize : t.inputSize + k = s.inputSize) :
    rest stream stream.length t = (rest stream stream.length s).drop k := by
  obtain ⟨-, -, -, hle, -⟩ := h
  rw [rest, rest, List.drop_drop]
  congr 1
  omega

/-- A stream over chunks is truthful about the bytes it was opened over. -/
def truthfulAbout (stream : List UInt8) : TruthfulInput ChunkedInputStream where
  Valid := ListsRest stream
  unread := rest stream stream.length
  inputSize_eq := ListsRest.inputSize_eq
  inputSize_lt := by
    intro s hs
    rw [← hs.inputSize_eq]
    obtain ⟨held, pending, hlists, -⟩ := hs
    exact hlists.fits
  buffer_starts := by
    intro s hs
    obtain ⟨held, pending, hlists, -, hrest⟩ := hs
    rw [← hrest]
    exact hlists.located.buffer_starts.trans (List.prefix_append _ _)
  discard := by
    intro s n hs hn
    have hvalid := hs
    obtain ⟨held, pending, hlists, hle, hrest⟩ := hs
    have hheld : n ≤ held.length := hn.trans hlists.located.buffer_starts.length_le
    have hspent := spent_advanced (hheld.trans hlists.held_le) hlists.fits
    have hnext := hvalid.next hspent.1
    refine ⟨_, discardBuffered_eq hn, ⟨held.drop n, pending, hlists.drop hheld (hlists.located.ahead hn) hspent, ?_, ?_⟩, hnext⟩
    · have hsize := hspent.1
      omega
    · rw [hnext, ← hrest, List.drop_append_of_le_length hheld]
  require := by
    intro s n t hs hn hrun
    have hvalid := hs
    obtain ⟨held, pending, hlists, hle, hrest⟩ := hs
    have hsmall : n ≤ minimumInputBufferSize := hn.trans (by decide)
    obtain ⟨front, more, rfl, htlists, henough⟩ := hlists.require hsmall hrun
    have hsize : t.inputSize + 0 = s.inputSize := by
      have hs := hlists.inputSize
      have ht := htlists.inputSize
      rw [List.flatten_append, List.length_append] at hs
      rw [List.length_append] at ht
      omega
    have hnext := hvalid.next hsize
    refine ⟨⟨_, more, htlists, by omega, ?_⟩, hnext, henough⟩
    rw [hnext, List.drop_zero, ← hrest, List.flatten_append, List.append_assoc]
  bulk := by
    intro s n bytes t hs hn hrun
    have hvalid := hs
    rw [← hs.inputSize_eq] at hn
    obtain ⟨held, pending, hlists, hle, hrest⟩ := hs
    obtain ⟨hlen, hsize, held', more, hflatten, htlists⟩ := hlists.bulk hn hrun
    have hnext := hvalid.next hsize
    rw [hrest] at hflatten
    rw [hflatten, List.drop_left' hlen] at hnext
    refine ⟨?_, ⟨held', more, htlists, by omega, hnext.symm⟩, ?_⟩
    · rw [hflatten, List.take_left' hlen]
    · rw [hnext, hflatten, List.drop_left' hlen]

/-! ### Chunks that were handed out -/

section Opened
variable {first : List UInt8} {source : List (Except Errc (List UInt8))}

theorem flatten_patched : (source.map patchedChunk).flatten = arrivals source := by
  induction source with
  | nil => rfl
  | cons r source ih =>
    rw [List.map_cons, List.flatten_cons, ih]
    cases r <;> rfl

theorem lists_patched (hsized : AreSized source) (hfits : (first ++ arrivals source).length < wordLimit) :
    Lists ((chunkedInput first (first ++ arrivals source).length source).map patched) first (source.map patchedChunk) where
  located := .inl ⟨List.length_replicate, rfl, rfl⟩
  source := by
    show source.map (fun r => Except.ok (patchedChunk r)) = _
    rw [List.map_map]
    rfl
  sized := by
    intro c hc
    obtain ⟨r, hr, rfl⟩ := List.mem_map.mp hc
    cases r with
    | ok chunk => exact hsized chunk hr
    | error e => exact Nat.two_pow_pos 32
  inputSize := by
    rw [flatten_patched, ← List.length_append]
    rfl
  fits := hfits

/-- A stream over chunks is truthful about these bytes, also if its source may fail. -/
def truthfulOver (stream : List UInt8) : TruthfulInput ChunkedInputStream := (truthfulAbout stream).comap patch

theorem valid_chunkedInput (hsized : AreSized source) (hfits : (first ++ arrivals source).length < wordLimit) :
    (truthfulOver (first ++ arrivals source)).Valid (chunkedInput first (first ++ arrivals source).length source) := by
  refine ⟨first, _, lists_patched hsized hfits, Nat.le_refl _, ?_⟩
  rw [flatten_patched]
  exact (congrArg (List.drop · _) (Nat.sub_self _)).symm

theorem unread_chunkedInput (first : List UInt8) (source : List (Except Errc (List UInt8))) :
    (truthfulOver (first ++ arrivals source)).unread (chunkedInput first (first ++ arrivals source).length source) =
      first ++ arrivals source := congrArg (List.drop · _) (Nat.sub_self _)

end Opened

end ChunkedInputStream
end DeepPack
