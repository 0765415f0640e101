import DeepPack.Streams.ChunkedRefinement

/-! A stream over chunks, whatever the source hands out.

A source may fail, and its chunks may be empty or go on behind the end of the stream. What is
left of the stream are the bytes held and those to arrive, up to its size. As long as a chunk
that is fused with remnants arrives and ends where the stream does, each call keeps these
bytes, or moves on in them, and what is buffered is the beginning of them. -/
namespace DeepPack
open Library InputBuffer

namespace ChunkedInputStream

/-- How many bytes are held: what is buffered, and what the small buffer does not have of the read area. -/
def heldSize (s : InputBuffer ChunkedInputStream) : Nat :=
  if s.derived.bufferStart < 0 then s.buffer.length
  else s.derived.bufferStart.toNat + s.derived.readArea.windowSize + s.buffer.length - s.derived.extent

/-- So many bytes of the chunks do not end 2³¹ or more bytes behind the beginning of a chunk, inside it. -/
def ReadsOn : Nat → Nat → List (Except Errc (List UInt8)) → Prop
  | amount, inputSize, .ok chunk :: source =>
    (amount < min chunk.length inputSize → amount < 2 ^ 31) ∧
      (min chunk.length inputSize < amount →
        ReadsOn (amount - min chunk.length inputSize) (inputSize - min chunk.length inputSize) source)
  | _, _, _ => True

instance decidableReadsOn : ∀ amount inputSize source, Decidable (ReadsOn amount inputSize source)
  | amount, inputSize, .ok chunk :: source =>
    have := decidableReadsOn (amount - min chunk.length inputSize) (inputSize - min chunk.length inputSize) source
    inferInstanceAs (Decidable ((_ → _) ∧ (_ → _)))
  | _, _, .error _ :: _ => isTrue trivial
  | _, _, [] => isTrue trivial

/-- What the call needs of the source is there. -/
def IsSupplied : InputCall → InputBuffer ChunkedInputStream → Prop
  | .requireInput n, s => n ≤ s.inputSize → Supplies n s.inputSize (heldSize s) s.derived.source
  | .discardBuffered _, _ => True
  | .bulkRead n, s => n ≤ s.inputSize → ReadsOn (n - heldSize s) (s.inputSize - heldSize s) s.derived.source

instance : ∀ call s, Decidable (IsSupplied call s)
  | .requireInput n, s => inferInstanceAs (Decidable (n ≤ s.inputSize → Supplies n _ _ _))
  | .discardBuffered _, _ => isTrue trivial
  | .bulkRead n, s => inferInstanceAs (Decidable (n ≤ s.inputSize → ReadsOn _ _ _))

/-- What is held is of the stream. -/
structure Bounded (s : InputBuffer ChunkedInputStream) (held : List UInt8) : Prop where
  located : Located s held
  held_le : held.length ≤ s.inputSize
  fits : s.inputSize < wordLimit
  sized : AreSized s.derived.source

/-- These are the bytes the stream has still to give. -/
def Yields (s : InputBuffer ChunkedInputStream) (left : List UInt8) : Prop :=
  ∃ held, Bounded s held ∧ (held ++ arrivals s.derived.source).take s.inputSize = left

/-- The stream moves on by so many bytes. -/
def Advances (k : Nat) (left : List UInt8) (s t : InputBuffer ChunkedInputStream) : Prop :=
  Yields t (left.drop k) ∧ t.inputSize + k = s.inputSize

/-- The bytes read are the next ones; a read that fails moves on no further than it would have. -/
def Delivers (n : Nat) (left : List UInt8) (s : InputBuffer ChunkedInputStream) (r : Except Fault (List UInt8))
    (t : InputBuffer ChunkedInputStream) : Prop :=
  ∃ k ≤ n, Advances k left s t ∧ ∀ bytes, r = .ok bytes → k = n ∧ bytes = left.take n ∧ bytes.length = n

variable {s t u : InputBuffer ChunkedInputStream} {held left rest front chunk : List UInt8} {n k amount : Nat}

theorem Located.heldSize_eq (h : Located s held) : heldSize s = held.length := by
  rcases h with h | ⟨consumed, remnants, area, h⟩
  · rw [heldSize, h.start, if_pos (by decide), h.buffer]
  · have hconsumed := h.consumed_le
    rw [heldSize, h.start, if_neg (by omega), MemoryView.windowSize_of_remaining h.readArea, h.held_eq,
      List.length_drop, List.length_append]
    omega

theorem Bounded.yields (h : Bounded s held) : Yields s ((held ++ arrivals s.derived.source).take s.inputSize) :=
  ⟨held, h, rfl⟩

theorem Yields.buffer_starts (h : Yields s left) : s.buffer <+: left := by
  obtain ⟨held, h, rfl⟩ := h
  rw [List.take_append, List.take_of_length_le h.held_le]
  exact h.located.buffer_starts.trans (List.prefix_append _ _)

theorem Yields.left_le (h : Yields s left) : left.length ≤ s.inputSize := by
  obtain ⟨held, h, rfl⟩ := h
  exact List.length_take_le _ _

theorem Yields.fits (h : Yields s left) : s.inputSize < wordLimit := by
  obtain ⟨held, h, -⟩ := h
  exact h.fits

theorem Yields.stays (h : Yields s left) : Advances 0 left s s := ⟨h, rfl⟩

/-- Whatever is acquired was among the bytes left. -/
theorem Acquired.yields (h : Acquired held s t) (hbounded : Bounded s held) :
    Yields t ((held ++ arrivals s.derived.source).take s.inputSize) := by
  obtain ⟨hsize, front, hsource, hlocated⟩ := h
  have hsized : AreSized t.derived.source := fun chunk hchunk =>
    hbounded.sized chunk (hsource ▸ List.mem_append_right front hchunk)
  refine ⟨_, ⟨hlocated, ?_, hsize ▸ hbounded.fits, hsized⟩, ?_⟩
  · rw [hsize]
    exact List.length_take_le _ _
  · rw [hsize, take_append_take, List.append_assoc, ← arrivals_append, ← hsource]

theorem Bounded.drop (h : Bounded s held) (hk : k ≤ held.length) (hlocated : Located t (held.drop k))
    (hspent : Spent k s t) : Advances k ((held ++ arrivals s.derived.source).take s.inputSize) s t := by
  obtain ⟨hsize, hsource⟩ := hspent
  have hheld := h.held_le
  have hfits := h.fits
  refine ⟨⟨held.drop k, ⟨hlocated, ?_, by omega, hsource ▸ h.sized⟩, ?_⟩, hsize⟩
  · rw [List.length_drop]
    omega
  · rw [hsource, List.drop_take, List.drop_append_of_le_length hk]
    congr 1
    omega

/-! ### Requiring input and consuming what is buffered -/

theorem Yields.require (h : Yields s left) (hsmall : n ≤ minimumInputBufferSize)
    (hsupplied : IsSupplied (.requireInput n) s) :
    (requireInput n).Meets s fun r t => Advances 0 left s t ∧ (r = .ok () → n ≤ t.buffer.length) ∧
      ∀ e, r = .error e → t.buffer = s.buffer := by
  by_cases hn : n ≤ s.inputSize
  · obtain ⟨held, hbounded, rfl⟩ := h
    have hsupplies := hsupplied hn
    rw [hbounded.located.heldSize_eq] at hsupplies
    have hask : Askable n s held := ⟨hn, hsmall, hbounded.held_le, hbounded.sized, hsupplies⟩
    refine .of_eq (requireInput_rounds n s)
      ((hbounded.located.require hask (by rw [rounds]; omega)).mono fun r t ht => ?_)
    refine ⟨⟨ht.acquired.yields hbounded, ht.acquired.1⟩, ht.enough, fun e he => ?_⟩
    obtain ⟨rfl, hinplace, -⟩ := ht.fails e he
    exact hinplace.buffer.trans (List.prefix_nil.mp hbounded.located.buffer_starts).symm
  · have hshort : requireInput n s = (.error (.errc .endOfStream), s) := by
      rw [requireInput, if_pos (Nat.lt_of_not_le hn)]
    exact Action.meets_of_eq hshort ⟨h.stays, fun hok => (by cases hok), fun _ _ => rfl⟩

theorem Yields.discardBuffered (h : Yields s left) (hn : n ≤ s.buffer.length) :
    Advances n left s (advanced n s) := by
  obtain ⟨held, hbounded, rfl⟩ := h
  have hle := hn.trans hbounded.located.buffer_starts.length_le
  exact hbounded.drop hle (hbounded.located.ahead hn) (spent_advanced (hle.trans hbounded.held_le) hbounded.fits)

/-! ### Reading chunk by chunk -/

/-- What reading so many bytes of the chunks leaves in the read area. -/
structure Drawn (amount : Nat) (s t : InputBuffer ChunkedInputStream) (rest : List UInt8) : Prop where
  inPlace : InPlace t []
  inputSize : t.inputSize + amount = s.inputSize
  windowSize : t.derived.readArea.windowSize = rest.length
  remaining : rest ≠ [] → t.derived.readArea.remaining = some rest
  rest_le : rest.length ≤ t.inputSize
  sized : AreSized t.derived.source
  next : (rest ++ arrivals t.derived.source).take t.inputSize =
    ((arrivals s.derived.source).take s.inputSize).drop amount

theorem InPlace.advances (h : InPlace t held) (hheld : held.length ≤ t.inputSize) (hfits : s.inputSize < wordLimit)
    (hsized : AreSized t.derived.source) (hsize : t.inputSize + k = s.inputSize)
    (hnext : (held ++ arrivals t.derived.source).take t.inputSize = left.drop k) : Advances k left s t :=
  ⟨⟨held, ⟨.inl h, hheld, by omega, hsized⟩, hnext⟩, hsize⟩

/-- Behind bytes that were read. -/
theorem Advances.behind (hsize : t.inputSize + front.length = s.inputSize) (h : Advances k left t u) :
    Advances (front.length + k) (front ++ left) s u := by
  obtain ⟨hyields, hcount⟩ := h
  refine ⟨?_, by omega⟩
  rwa [List.drop_length_add_append]

theorem take_chunk {chunk more : List UInt8} {size : Nat} (hle : chunk.length ≤ size) :
    (chunk ++ more).take size = chunk ++ more.take (size - chunk.length) := by
  rw [List.take_append, List.take_of_length_le hle]

theorem Drawn.behind (hsource : s.derived.source = .ok chunk :: t.derived.source)
    (hsize : t.inputSize + chunk.length = s.inputSize) (h : Drawn k t u rest) :
    Drawn (chunk.length + k) s u rest := by
  refine ⟨h.inPlace, ?_, h.windowSize, h.remaining, h.rest_le, h.sized, ?_⟩
  · have hcount := h.inputSize
    omega
  · have htsize : s.inputSize - chunk.length = t.inputSize := by omega
    rw [h.next, hsource, arrivals_ok, take_chunk (by omega), htsize, List.drop_length_add_append]

/-- The bytes taken of a chunk that is cut off are among those left. -/
theorem take_cut (chunk more : List UInt8) {size amount : Nat} (hle : amount ≤ (chunk.take size).length) :
    (chunk.take size).take amount = ((chunk ++ more).take size).take amount ∧
      ((chunk.take size).drop amount ++ more).take (size - amount) = ((chunk ++ more).take size).drop amount := by
  have hsize : (chunk.take size).length ≤ size := List.length_take_le _ _
  rw [← take_append_take size chunk more]
  generalize chunk.take size = cut at hle hsize ⊢
  constructor
  · rw [List.take_take, Nat.min_eq_left (hle.trans hsize), List.take_append_of_le_length hle]
  · rw [List.drop_take, List.drop_append_of_le_length hle]

/-- The last round takes its bytes off the front of a chunk. -/
theorem InPlace.drawn {amount : Nat} {cut : List UInt8} {source : List (Except Errc (List UInt8))}
    (h : InPlace s [])
    (hfits : s.inputSize < wordLimit) (hsized : AreSized source) (hcut : cut.length < 2 ^ 32)
    (hcutle : cut.length ≤ s.inputSize) (hle : amount ≤ cut.length)
    (hbound : amount < cut.length → amount < 2 ^ 31)
    (hnext : (cut.drop amount ++ arrivals source).take (s.inputSize - amount) =
      ((arrivals s.derived.source).take s.inputSize).drop amount) :
    Drawn amount s ⟨[], wrapSub 64 s.inputSize amount, {s.derived with
      readArea := (MemoryView.ofSpan cut).moveConsumer (toSigned 32 amount), source, extent := 0}⟩
      (cut.drop amount) := by
  have hwrap : wrapSub 64 s.inputSize amount = s.inputSize - amount := wrapSub_of_le (by omega) hfits
  constructor
  · exact ⟨h.small, h.start, rfl⟩
  · show wrapSub 64 s.inputSize amount + amount = s.inputSize
    omega
  · exact (MemoryView.windowSize_moveConsumer hcut hle).trans List.length_drop.symm
  · intro hrest
    have hlt : amount < cut.length := by
      rw [Ne, List.drop_eq_nil_iff] at hrest
      omega
    have hsigned : toSigned 32 amount = amount := by
      have hsmall := hbound hlt
      exact toSigned_of_fits (by omega) (by omega)
    show ((MemoryView.ofSpan cut).moveConsumer (toSigned 32 amount)).remaining = _
    rw [hsigned]
    exact MemoryView.remaining_moveConsumer (MemoryView.remaining_ofSpan hcut) hcut hle
  · show (cut.drop amount).length ≤ wrapSub 64 s.inputSize amount
    rw [List.length_drop, hwrap]
    omega
  · exact hsized
  · show (cut.drop amount ++ arrivals source).take (wrapSub 64 s.inputSize amount) = _
    rw [hwrap, hnext]

theorem consumeChunks_meets {rounds amount : Nat} (h : InPlace s []) (hfits : s.inputSize < wordLimit)
    (hsized : AreSized s.derived.source) (hle : amount ≤ s.inputSize)
    (hreads : ReadsOn amount s.inputSize s.derived.source) (hrounds : s.derived.source.length < rounds) :
    (consumeChunks rounds amount).Meets s fun r t =>
      (∀ bytes, r = .ok bytes → (bytes = ((arrivals s.derived.source).take s.inputSize).take amount ∧
        bytes.length = amount) ∧ ∃ rest, Drawn amount s t rest) ∧
      ∀ e, r = .error e → ∃ k ≤ amount, Advances k ((arrivals s.derived.source).take s.inputSize) s t := by
  induction rounds generalizing s amount with
  | zero => omega
  | succ rounds ih =>
    rcases hsource : s.derived.source with _ | ⟨e | chunk, source⟩
    · have hstays : Advances 0 ((arrivals s.derived.source).take s.inputSize) s s :=
        h.advances (Nat.zero_le _) hfits hsized rfl rfl
      exact .stop (acquireNextChunk_end hsource)
        ⟨fun _ hok => (by cases hok), fun _ _ => ⟨0, Nat.zero_le _, hsource ▸ hstays⟩⟩
    · have hfailed : InPlace {s with derived := {s.derived with source}} [] := ⟨h.small, h.start, h.buffer⟩
      refine .stop (acquireNextChunk_error hsource)
        ⟨fun _ hok => (by cases hok), fun _ _ => ⟨0, Nat.zero_le _, ?_⟩⟩
      exact hfailed.advances (Nat.zero_le _) hfits
        (fun c hc => hsized c (hsource ▸ List.mem_cons_of_mem _ hc)) rfl rfl
    · have hchunk : chunk.length < 2 ^ 32 := hsized chunk (hsource ▸ List.mem_cons_self)
      have hrest : AreSized source := fun c hc => hsized c (hsource ▸ List.mem_cons_of_mem _ hc)
      have hcutlen : (chunk.take s.inputSize).length = min chunk.length s.inputSize := by
        rw [List.length_take, Nat.min_comm]
      rw [hsource] at hreads
      obtain ⟨hbound, hmore⟩ := hreads
      refine .of_eq (consumeChunks_cut hsource hchunk) ?_
      by_cases hend : amount ≤ (chunk.take s.inputSize).length
      · have htaken : ((chunk.take s.inputSize).take amount).length = amount := List.length_take_of_le hend
        obtain ⟨hbytes, hnext⟩ := take_cut chunk (arrivals source) hend
        rw [htaken, if_neg (by omega)]
        refine Action.meets_of_eq rfl ⟨fun bytes hok => ?_, fun _ he => (by cases he)⟩
        cases hok
        refine ⟨⟨hbytes, htaken⟩, _, h.drawn hfits hrest (by omega) (by omega) hend (hcutlen ▸ hbound) ?_⟩
        rw [hnext, hsource, arrivals_ok]
      · -- all of the chunk is read
        have hfit : chunk.length ≤ s.inputSize := by omega
        have hcut : chunk.take s.inputSize = chunk := List.take_of_length_le hfit
        have htake : chunk.take amount = chunk := List.take_of_length_le (by omega)
        have hwrap : wrapSub 64 s.inputSize chunk.length = s.inputSize - chunk.length := wrapSub_of_le hfit hfits
        rw [Nat.min_eq_left hfit] at hmore
        rw [hcut, htake, if_pos (by omega), arrivals_ok, take_chunk hfit]
        generalize ht : (⟨[], wrapSub 64 s.inputSize chunk.length, _⟩ : InputBuffer ChunkedInputStream) = t
        have htsize : t.inputSize = s.inputSize - chunk.length := ht ▸ hwrap
        have htsource : t.derived.source = source := ht ▸ rfl
        have hinplace : InPlace t [] := ht ▸ ⟨h.small, h.start, rfl⟩
        have htreads : ReadsOn (amount - chunk.length) t.inputSize t.derived.source := by
          rw [htsize, htsource]
          exact hmore (by omega)
        have htrounds : t.derived.source.length < rounds := by
          rw [hsource, List.length_cons] at hrounds
          rw [htsource]
          omega
        obtain ⟨hok, herror⟩ := ih hinplace (by omega) (htsource ▸ hrest) (by omega) htreads htrounds
        have hbefore : t.inputSize + chunk.length = s.inputSize := by omega
        have hamount : chunk.length + (amount - chunk.length) = amount := by omega
        rw [← htsize, ← htsource]
        rcases hrun : consumeChunks rounds (amount - chunk.length) t with ⟨e | bytes, u⟩ <;>
          rw [hrun] at hok herror
        · obtain ⟨k, hk, hadvances⟩ := herror e rfl
          exact .stop hrun ⟨fun _ hok => (by cases hok), fun _ _ =>
            ⟨chunk.length + k, by omega, hadvances.behind hbefore⟩⟩
        · obtain ⟨⟨rfl, hlen⟩, rest, hdrawn⟩ := hok bytes rfl
          have hall := hdrawn.behind (htsource ▸ hsource) hbefore
          rw [hamount] at hall
          refine .step hrun (Action.meets_of_eq rfl ⟨fun bytes hok => ?_, fun _ he => (by cases he)⟩)
          cases hok
          refine ⟨⟨?_, ?_⟩, rest, hall⟩
          · rw [← hamount, List.take_length_add_append, hamount]
          · rw [List.length_append, hlen, hamount]

theorem Drawn.bounded (h : Drawn amount s t []) (hfits : s.inputSize < wordLimit) : Bounded t [] := by
  have hsize := h.inputSize
  exact ⟨.inl h.inPlace, Nat.zero_le _, by omega, h.sized⟩

/-- Once the amount was read, what is acquired is behind it. -/
theorem Drawn.acquired (h : Drawn amount s t []) (hfits : s.inputSize < wordLimit) (hu : Acquired [] t u) :
    Advances amount ((arrivals s.derived.source).take s.inputSize) s u := by
  have hyields := hu.yields (h.bounded hfits)
  rw [h.next] at hyields
  exact ⟨hyields, hu.1 ▸ h.inputSize⟩

theorem readChunks_delivers (h : InPlace s []) (hfits : s.inputSize < wordLimit)
    (hsized : AreSized s.derived.source) (hle : amount ≤ s.inputSize)
    (hreads : ReadsOn amount s.inputSize s.derived.source) :
    (readChunks amount).Meets s (Delivers amount ((arrivals s.derived.source).take s.inputSize) s) := by
  obtain ⟨hok, herror⟩ := consumeChunks_meets h hfits hsized hle hreads (Nat.lt_succ_self _)
  refine .step (x := Action.gets _) rfl ?_
  rcases hrun : consumeChunks (s.derived.source.length + 1) amount s with ⟨e | bytes, t⟩ <;>
    rw [hrun] at hok herror
  · obtain ⟨k, hk, hadvances⟩ := herror e rfl
    exact .stop hrun ⟨k, hk, hadvances, fun _ hok => (by cases hok)⟩
  · obtain ⟨⟨rfl, hlen⟩, rest, hdrawn⟩ := hok bytes rfl
    have hwindow : t.derived.readArea.windowSize = rest.length := hdrawn.windowSize
    refine .step hrun (.step (x := Action.gets _) rfl ?_)
    by_cases hrest : rest = []
    · subst hrest
      refine .ite_pos hwindow ?_
      rcases hdrawn.inPlace.acquire hdrawn.sized with ⟨e, u, hu, hacquired, -⟩ |
        ⟨chunk, u, hnext, husize, hinplace, heq⟩
      · exact .stop hu ⟨amount, Nat.le_refl _, hdrawn.acquired hfits hacquired, fun _ hok => (by cases hok)⟩
      · have hheld : Acquired (chunk.take t.inputSize) u u :=
          .refl (.inl hinplace) (by rw [husize]; exact List.length_take_le _ _)
        refine .of_eq (heq _ _) (Action.meets_of_eq rfl ⟨amount, Nat.le_refl _, ?_, fun _ hok => ?_⟩)
        · exact hdrawn.acquired hfits (.next hnext husize hheld)
        · cases hok
          exact ⟨rfl, rfl, hlen⟩
    · refine .ite_neg (fun hlen => hrest (List.length_eq_zero_iff.mp (hwindow.symm.trans hlen))) ?_
      refine .step (resetToReadArea_eq (hdrawn.remaining hrest))
        (Action.meets_of_eq rfl ⟨amount, Nat.le_refl _, ?_, fun _ hok => ?_⟩)
      · have hinplace : InPlace ⟨rest, t.inputSize, {t.derived with extent := rest.length}⟩ rest :=
          ⟨hdrawn.inPlace.small, hdrawn.inPlace.start, rfl⟩
        exact hinplace.advances hdrawn.rest_le hfits hdrawn.sized hdrawn.inputSize hdrawn.next
      · cases hok
        exact ⟨rfl, rfl, hlen⟩

theorem Yields.bulkRead (h : Yields s left) (hsupplied : IsSupplied (.bulkRead n) s) :
    (bulkRead n).Meets s (Delivers n left s) := by
  by_cases hn : n ≤ s.inputSize
  · obtain ⟨held, hbounded, rfl⟩ := h
    have hheld := hbounded.held_le
    by_cases hle : n ≤ held.length
    · obtain ⟨bytes, t, ht, rfl, hrest, hspent⟩ := hbounded.located.bulk_held hle hheld hbounded.fits
      refine .of_eq (bulkRead_rounds n s)
        (Action.meets_of_eq ht ⟨n, Nat.le_refl _, hbounded.drop hle hrest hspent, fun _ hok => ?_⟩)
      cases hok
      rw [take_chunk hheld, List.take_append_of_le_length hle]
      exact ⟨rfl, rfl, List.length_take_of_le hle⟩
    · have hlt := Nat.lt_of_not_le hle
      obtain ⟨t, hinplace, ⟨hsize, hsource⟩, heq⟩ := hbounded.located.bulk_beyond hn hlt hbounded.fits
      have hreads := hsupplied hn
      have hleft : s.inputSize - held.length = t.inputSize := by omega
      have hfits := hbounded.fits
      rw [hbounded.located.heldSize_eq, hleft, ← hsource] at hreads
      obtain ⟨k, hk, hadvances, hok⟩ :=
        readChunks_delivers hinplace (by omega) (hsource ▸ hbounded.sized) (by omega) hreads
      have hbehind := hadvances.behind hsize
      have hamount : held.length + (n - held.length) = n := by omega
      rw [take_chunk hheld, hleft, ← hsource]
      refine .of_eq ((bulkRead_rounds n s).trans heq) ?_
      rcases hrun : readChunks (n - held.length) t with ⟨e | bytes, u⟩ <;> rw [hrun] at hok hbehind
      · exact .stop hrun ⟨held.length + k, by omega, hbehind, fun _ hok => (by cases hok)⟩
      · obtain ⟨rfl, rfl, hlen⟩ := hok bytes rfl
        refine .step hrun (Action.meets_of_eq rfl ⟨_, hamount.le, hbehind, fun _ hok => ?_⟩)
        cases hok
        refine ⟨hamount, ?_, ?_⟩
        · rw [List.take_append, List.take_of_length_le hlt.le]
        · rw [List.length_append, hlen, hamount]
  · have hshort : InputBuffer.bulkRead n s = (.error (.errc .endOfStream), s) := by
      rw [InputBuffer.bulkRead, if_neg (by omega), if_pos (by omega)]
    exact Action.meets_of_eq hshort ⟨0, Nat.zero_le _, h.stays, fun _ hok => (by cases hok)⟩

/-! ### Runs -/

def performOn (call : InputCall) (s : InputBuffer ChunkedInputStream) : InputBuffer ChunkedInputStream :=
  (call.perform s).2

/-- What a call may ask for. -/
def MayAsk : InputCall → InputBuffer ChunkedInputStream → Prop
  | .requireInput n, _ => n ≤ minimumInputBufferSize
  | .discardBuffered n, s => n ≤ s.buffer.length
  | .bulkRead _, _ => True

instance : ∀ call s, Decidable (MayAsk call s)
  | .requireInput n, _ => inferInstanceAs (Decidable (n ≤ minimumInputBufferSize))
  | .discardBuffered n, s => inferInstanceAs (Decidable (n ≤ s.buffer.length))
  | .bulkRead _, _ => isTrue trivial

/-- No more is buffered than what is left of the stream, and what is delivered is counted off. -/
structure StaysWithin (call : InputCall) (s : InputBuffer ChunkedInputStream) : Prop where
  buffers : (performOn call s).buffer.length ≤ (performOn call s).inputSize
  counts : (performOn call s).inputSize ≤ s.inputSize
  delivers : ∀ bytes, (call.perform s).1 = .ok bytes → (performOn call s).inputSize + bytes.length ≤ s.inputSize

/-- A call that is supplied keeps the bytes left, or moves on in them. -/
theorem Yields.call {call : InputCall} (h : Yields s left) (hmay : MayAsk call s) (hsupplied : IsSupplied call s) :
    call.perform.Meets s fun r t => ∃ k, Advances k left s t ∧ ∀ bytes, r = .ok bytes → bytes.length ≤ k := by
  cases call with
  | requireInput n =>
    refine .replace ((h.require hmay hsupplied).mono fun r t ht => ⟨0, ht.1, fun bytes hok => ?_⟩)
    cases r <;> cases hok
    exact Nat.le_refl _
  | discardBuffered n =>
    refine .replace (Action.meets_of_eq (discardBuffered_eq hmay) ⟨n, h.discardBuffered hmay, fun bytes hok => ?_⟩)
    cases hok
    exact Nat.zero_le n
  | bulkRead n =>
    refine (h.bulkRead hsupplied).mono fun r t ht => ?_
    obtain ⟨k, -, hadvances, hok⟩ := ht
    refine ⟨k, hadvances, fun bytes hbytes => ?_⟩
    obtain ⟨rfl, -, hlen⟩ := hok bytes hbytes
    exact hlen.le

theorem Yields.staysWithin {call : InputCall} (h : Yields s left) (hmay : MayAsk call s)
    (hsupplied : IsSupplied call s) : StaysWithin call s ∧ ∃ rest, Yields (performOn call s) rest := by
  obtain ⟨k, ⟨hyields, hsize⟩, hdelivers⟩ := h.call hmay hsupplied
  refine ⟨⟨hyields.buffer_starts.length_le.trans hyields.left_le, ?_, fun bytes hok => ?_⟩, _, hyields⟩
  · exact Nat.le.intro hsize
  · have hlen := hdelivers bytes hok
    rw [← hsize]
    exact Nat.add_le_add_left hlen _

theorem yields_chunkedInput {first : List UInt8} {size : Nat} {source : List (Except Errc (List UInt8))}
    (hfirst : first.length ≤ size) (hfits : size < wordLimit) (hsized : AreSized source) :
    Yields (chunkedInput first size source) ((first ++ arrivals source).take size) :=
  ⟨first, ⟨.inl ⟨List.length_replicate, rfl, rfl⟩, hfirst, hfits, hsized⟩, rfl⟩

/-- As long as every call is supplied, no byte behind the end of the stream is buffered or delivered. -/
theorem chunked_stays_within {first : List UInt8} {size : Nat} {source : List (Except Errc (List UInt8))}
    {calls : List InputCall} (hfirst : first.length ≤ size) (hfits : size < wordLimit) (hsized : AreSized source)
    (hmay : EveryStep performOn MayAsk calls (chunkedInput first size source))
    (hsupplied : EveryStep performOn IsSupplied calls (chunkedInput first size source)) :
    EveryStep performOn StaysWithin calls (chunkedInput first size source) := by
  refine (hmay.and hsupplied).of_invariant (fun s => ∃ left, Yields s left)
    ⟨_, yields_chunkedInput hfirst hfits hsized⟩ fun call s hs hcall => ?_
  obtain ⟨left, hleft⟩ := hs
  exact hleft.staysWithin hcall.1 hcall.2

/-- The last chunk is longer than the stream, and cut off where nothing is held. -/
theorem chunked_stays_within_cut :
    EveryStep performOn StaysWithin [.bulkRead 2, .requireInput 1, .discardBuffered 1]
      (chunkedInput [] 3 [.ok [1, 2], .ok [3, 4, 5]]) :=
  chunked_stays_within (by decide) (by decide) (by decide) (by decide) (by decide)

/-- Behind two remnants the chunk is cut off to three bytes, though one byte is left of the stream. -/
theorem overlong_chunk_is_exposed : ¬ ∀ first size source calls, first.length ≤ size → size < wordLimit →
    AreSized source → EveryStep performOn MayAsk calls (chunkedInput first size source) →
    EveryStep performOn StaysWithin calls (chunkedInput first size source) := by
  intro h
  have hwithin := (h [] 3 [.ok [1, 2], .ok [3, 4, 5]] [.requireInput 1, .requireInput 3] (by decide) (by decide)
    (by decide) (by decide)).2.1.buffers
  have hexposed : ¬ (performOn (.requireInput 3) (performOn (.requireInput 1)
      (chunkedInput [] 3 [.ok [1, 2], .ok [3, 4, 5]]))).buffer.length ≤ (performOn (.requireInput 3)
      (performOn (.requireInput 1) (chunkedInput [] 3 [.ok [1, 2], .ok [3, 4, 5]]))).inputSize := by decide
  exact hexposed hwithin

end ChunkedInputStream
end DeepPack
