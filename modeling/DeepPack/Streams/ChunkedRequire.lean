import DeepPack.Streams.ChunkedInvariant

/-! Requiring input from a stream over chunks.

More is required than what is held, and one chunk after the other is acquired. With remnants
held the next chunk has to arrive, and to end where the stream ends at the latest: a chunk is
cut off as if nothing of the stream was held, and the remnants are fused before the chunk is
there. -/
namespace DeepPack
open Library InputBuffer

namespace ChunkedInputStream

/-- All the bytes of the chunks that are handed out. -/
def arrivals (source : List (Except Errc (List UInt8))) : List UInt8 :=
  source.flatMap fun
    | .ok chunk => chunk
    | .error _ => []

/-- The sizes of the chunks are 32 bit words. -/
def AreSized (source : List (Except Errc (List UInt8))) : Prop :=
  ∀ chunk, .ok chunk ∈ source → chunk.length < 2 ^ 32

theorem areSized_iff {source : List (Except Errc (List UInt8))} :
    (∀ r ∈ source, ∀ chunk ∈ r.toOption, chunk.length < 2 ^ 32) ↔ AreSized source := by
  constructor
  · intro h chunk hchunk
    exact h (.ok chunk) hchunk chunk rfl
  · intro h r hr chunk hchunk
    cases r with
    | error => cases hchunk
    | ok =>
      cases hchunk
      exact h chunk hr

instance (source : List (Except Errc (List UInt8))) : Decidable (AreSized source) :=
  decidable_of_iff _ areSized_iff

/-- While fewer than `n` bytes are held the next chunk arrives, and ends where the stream does; where nothing is
held it may be longer, or missing. -/
def Supplies (n inputSize : Nat) : Nat → List (Except Errc (List UInt8)) → Prop
  | held, .ok chunk :: source => held < n →
      (held = 0 ∨ held + chunk.length ≤ inputSize) ∧
      Supplies n inputSize (min (held + chunk.length) inputSize) source
  | held, .error _ :: _ => held < n → held = 0
  | held, [] => held < n → held = 0

instance decidableSupplies (n inputSize : Nat) : ∀ held source, Decidable (Supplies n inputSize held source)
  | held, .ok chunk :: source =>
    have := decidableSupplies n inputSize (min (held + chunk.length) inputSize) source
    inferInstanceAs (Decidable (held < n → _ ∧ _))
  | held, .error _ :: _ => inferInstanceAs (Decidable (held < n → held = 0))
  | held, [] => inferInstanceAs (Decidable (held < n → held = 0))

/-- The bytes left, whatever of them was acquired. -/
def Leaves (s : InputBuffer ChunkedInputStream) (left : List UInt8) : Prop :=
  ∃ held pending, Holds s held pending ∧ held ++ pending.flatten = left

/-- So many bytes are buffered, and those left are the same as before. -/
def Ready (n : Nat) (left : List UInt8) (_ : Unit) (s : InputBuffer ChunkedInputStream) : Prop :=
  Leaves s left ∧ n ≤ s.buffer.length

/-- What the source handed out since is held, as far as the stream goes. -/
def Acquired (held : List UInt8) (s t : InputBuffer ChunkedInputStream) : Prop :=
  t.inputSize = s.inputSize ∧ ∃ front, s.derived.source = front ++ t.derived.source ∧
    Located t ((held ++ arrivals front).take s.inputSize)

/-- So many bytes can be required. -/
structure Askable (n : Nat) (s : InputBuffer ChunkedInputStream) (held : List UInt8) : Prop where
  size : n ≤ s.inputSize
  small : n ≤ minimumInputBufferSize
  held_le : held.length ≤ s.inputSize
  sized : AreSized s.derived.source
  supplies : Supplies n s.inputSize held.length s.derived.source

variable {s t u : InputBuffer ChunkedInputStream} {held remnants area left chunk : List UInt8}
  {pending : List (List UInt8)} {source more : List (Except Errc (List UInt8))} {consumed n : Nat}

/-! ### What is acquired -/

@[simp] theorem arrivals_ok : arrivals (.ok chunk :: source) = chunk ++ arrivals source := rfl

@[simp] theorem arrivals_error {e : Errc} : arrivals (.error e :: source) = arrivals source := rfl

theorem arrivals_append : arrivals (source ++ more) = arrivals source ++ arrivals more := List.flatMap_append

theorem arrivals_map : arrivals (pending.map .ok) = pending.flatten := by
  induction pending with
  | nil => rfl
  | cons chunk rest ih => exact congrArg (chunk ++ ·) ih

theorem take_append_take (n : Nat) (a b : List UInt8) : (a.take n ++ b).take n = (a ++ b).take n := by
  have hrest : n - min n a.length = n - a.length := by omega
  rw [List.take_append, List.take_append, List.take_take, Nat.min_self, List.length_take, hrest]

theorem Acquired.refl (h : Located s held) (hle : held.length ≤ s.inputSize) : Acquired held s s := by
  refine ⟨rfl, [], rfl, ?_⟩
  rwa [show arrivals [] = [] from rfl, List.append_nil, List.take_of_length_le hle]

theorem Acquired.same (hsame : SameInput s t) (h : Acquired held t u) : Acquired held s u := by
  obtain ⟨hsize, front, hsource, hlocated⟩ := h
  rw [hsame.1] at hsize hlocated
  exact ⟨hsize, front, hsame.2.symm.trans hsource, hlocated⟩

theorem Acquired.next (hsource : s.derived.source = .ok chunk :: t.derived.source)
    (hsize : t.inputSize = s.inputSize) (h : Acquired ((held ++ chunk).take s.inputSize) t u) :
    Acquired held s u := by
  obtain ⟨hsize', front, hfront, hlocated⟩ := h
  refine ⟨hsize'.trans hsize, .ok chunk :: front, ?_, ?_⟩
  · rw [hsource, hfront, List.cons_append]
  · rwa [hsize, take_append_take, List.append_assoc] at hlocated

theorem Askable.same (h : Askable n s held) (hsame : SameInput s t) : Askable n t held := by
  obtain ⟨hsize, hsource⟩ := hsame
  refine ⟨hsize ▸ h.size, h.small, hsize ▸ h.held_le, hsource ▸ h.sized, ?_⟩
  rw [hsize, hsource]
  exact h.supplies

theorem Askable.next (h : Askable n s held) (hsource : s.derived.source = .ok chunk :: t.derived.source)
    (hsize : t.inputSize = s.inputSize) (hlt : held.length < n) :
    Askable n t ((held ++ chunk).take s.inputSize) := by
  have hsupplies := h.supplies
  rw [hsource] at hsupplies
  have hlen : ((held ++ chunk).take s.inputSize).length = min (held.length + chunk.length) s.inputSize := by
    rw [List.length_take, List.length_append, Nat.min_comm]
  refine ⟨hsize ▸ h.size, h.small, ?_, fun c hc => h.sized c (hsource ▸ List.mem_cons_of_mem _ hc), ?_⟩
  · rw [hlen, hsize]
    exact Nat.min_le_right _ _
  · rw [hlen, hsize]
    exact (hsupplies hlt).2

/-- Behind remnants there is a chunk of the stream. -/
theorem Askable.uncons (h : Askable n s held) (hpos : 0 < held.length) (hlt : held.length < n) :
    ∃ chunk source, s.derived.source = .ok chunk :: source ∧ chunk.length < 2 ^ 32 ∧
      held.length + chunk.length ≤ s.inputSize := by
  have hsupplies := h.supplies
  rcases hsource : s.derived.source with _ | ⟨e | chunk, source⟩ <;> rw [hsource] at hsupplies
  · exact absurd (hsupplies hlt) hpos.ne'
  · exact absurd (hsupplies hlt) hpos.ne'
  · exact ⟨chunk, source, rfl, h.sized chunk (hsource ▸ List.mem_cons_self),
      (hsupplies hlt).1.resolve_left hpos.ne'⟩

/-! ### Requiring input -/

theorem requireInput_buffered {base : InputStream ChunkedInputStream} (hn : n ≤ s.inputSize)
    (hlen : n ≤ s.buffer.length) :
    requireInput n s = (.ok (), s) := by
  rw [requireInput, if_neg (Nat.not_lt.mpr hn), if_neg (Nat.not_lt.mpr hlen)]

theorem requireInput_do {base : InputStream ChunkedInputStream} (hn : n ≤ s.inputSize)
    (hlen : s.buffer.length < n) :
    requireInput n s = base.doRequireInput n s := by
  rw [requireInput, if_neg (Nat.not_lt.mpr hn), if_pos hlen]

theorem requireInput_unbuffered {rounds : Nat} {Q : Unit → InputBuffer ChunkedInputStream → Prop}
    (hn : n ≤ s.inputSize)
    (hlen : s.buffer.length < n) (h : (doRequireInput (virtuals rounds) n).Achieves s Q) :
    (@requireInput _ (virtuals (rounds + 1)) n).Achieves s Q := by
  refine .of_eq (y := doRequireInput (virtuals rounds) n) ?_ h
  exact requireInput_do hn hlen

/-- So much is buffered of what was acquired. -/
def Supplied (n : Nat) (held : List UInt8) (s : InputBuffer ChunkedInputStream) (_ : Unit)
    (t : InputBuffer ChunkedInputStream) : Prop := Acquired held s t ∧ n ≤ t.buffer.length

/-- Remnants are fused with one chunk after the other. -/
theorem Fusing.require {rounds : Nat} (h : Fusing s consumed remnants area held) (hlt : consumed < remnants.length)
    (hask : Askable n s held) (hrounds : s.derived.source.length < rounds) :
    (@requireInput _ (virtuals rounds) n).Achieves s (Supplied n held s) := by
  induction rounds generalizing s consumed remnants area held with
  | zero => omega
  | succ rounds ih =>
    have hsmall := hask.small
    have hminimum : minimumInputBufferSize = 40 := rfl
    have hsize : smallBufferSize = 78 := rfl
    by_cases hlen : n ≤ s.buffer.length
    · have hsame : Acquired held s s := .refl (.inr ⟨consumed, remnants, area, h⟩) hask.held_le
      exact ⟨(), s, requireInput_buffered hask.size hlen, hsame, hlen⟩
    · apply requireInput_unbuffered hask.size (Nat.lt_of_not_le hlen)
      rw [doRequireInput]
      refine .step h.bufferStart_eq (.ite_neg (by omega)
        (.step h.bufferStart_eq (.step h.consumedSize_eq (.ite_neg (by omega) (.ite_neg (by omega) ?_)))))
      refine (h.toFront hlt.le).bind fun _ t ht => ?_
      obtain ⟨hfront, htsame, htlen⟩ := ht
      refine (hfront.append ?_).bind fun _ u hu => ?_
      · rw [htlen, List.length_drop]
      obtain ⟨hfused, husame, hbuffered⟩ := hu
      have hsame : SameInput s u := ⟨husame.1.trans htsame.1, husame.2.trans htsame.2⟩
      have husask := hask.same hsame
      by_cases henough : n ≤ u.buffer.length
      · have hheld : Acquired held u u := .refl (.inr ⟨_, _, _, hfused⟩) husask.held_le
        exact .step rfl (.ite_pos henough ⟨(), u, rfl, hheld.same hsame, henough⟩)
      · -- all of the read area is among the remnants
        have hall : u.buffer.length = held.length := by omega
        have hpos : 0 < held.length := by
          have hheld := congrArg List.length hfused.held_eq
          rw [List.drop_zero, List.length_append, List.length_drop] at hheld
          omega
        obtain ⟨chunk, source, hsource, hchunk, hfits⟩ := husask.uncons hpos (by omega)
        obtain ⟨w, hw, hwsize, hwsource, hwlen, heq⟩ := hfused.acquire hall hsource hchunk (by omega)
        rw [← hwsource] at hsource
        have hcut : (held ++ chunk).take u.inputSize = held ++ chunk := by
          apply List.take_of_length_le
          rwa [List.length_append]
        have hwask := husask.next hsource hwsize (by omega)
        rw [hcut] at hwask
        have hwrounds : w.derived.source.length < rounds := by
          rw [← hsame.2, hsource, List.length_cons] at hrounds
          omega
        refine .step rfl (.ite_neg henough (.of_eq (heq _) ((ih hw hpos hwask hwrounds).mono fun _ x hx => ?_)))
        exact ⟨.same hsame (.next hsource hwsize (hcut.symm ▸ hx.1)), hx.2⟩

/-- What is buffered of a chunk is fused with the next one. -/
theorem InPlace.require_some {rounds : Nat} (h : InPlace s held) (hpos : 0 < held.length) (hask : Askable n s held)
    (hrounds : s.derived.source.length < rounds) :
    (@requireInput _ (virtuals rounds) n).Achieves s (Supplied n held s) := by
  have hlen : s.buffer.length = held.length := congrArg List.length h.buffer
  have hsmall := hask.small
  have hminimum : minimumInputBufferSize = 40 := rfl
  have hsize : smallBufferSize = 78 := rfl
  by_cases hle : n ≤ held.length
  · exact ⟨(), s, requireInput_buffered hask.size (by omega), .refl (.inl h) hask.held_le, by omega⟩
  · obtain ⟨chunk, source, hsource, hchunk, hfits⟩ := hask.uncons hpos (Nat.lt_of_not_le hle)
    obtain ⟨rounds, rfl⟩ : ∃ r, rounds = r + 1 := ⟨rounds - 1, by omega⟩
    apply requireInput_unbuffered hask.size (by omega)
    rw [doRequireInput]
    have hne : ¬ s.buffer.length = 0 := by omega
    refine .step h.bufferStart_eq (.ite_pos (by decide) (.step rfl (.ite_neg hne (.ite_neg (by omega) ?_))))
    obtain ⟨t, ht, htsize, htsource, htlen, heq⟩ := h.save (by omega) hsource hchunk (by omega)
    rw [← htsource] at hsource
    have hcut : (held ++ chunk).take s.inputSize = held ++ chunk := by
      apply List.take_of_length_le
      rwa [List.length_append]
    have htask := hask.next hsource htsize (Nat.lt_of_not_le hle)
    rw [hcut] at htask
    refine .of_eq (heq _) ((ht.append htlen).bind fun _ u hu => ?_)
    obtain ⟨hfused, hsame, -⟩ := hu
    have huask := htask.same hsame
    by_cases henough : n ≤ u.buffer.length
    · have hheld : Acquired (held ++ chunk) u u := .refl (.inr ⟨_, _, _, hfused⟩) huask.held_le
      refine .step rfl (.ite_pos henough ⟨(), u, rfl, ?_, henough⟩)
      exact .next hsource htsize (hcut.symm ▸ hheld.same hsame)
    · have hurounds : u.derived.source.length < rounds := by
        rw [hsource, List.length_cons] at hrounds
        rw [hsame.2]
        omega
      refine .step rfl (.ite_neg henough ((hfused.require hpos huask hurounds).mono fun _ x hx => ?_))
      exact ⟨.next hsource htsize (hcut.symm ▸ hx.1.same hsame), hx.2⟩

/-- Requiring input buffers so much of what was acquired; or it fails where nothing was held, and nothing is. -/
structure Served (n : Nat) (held : List UInt8) (s : InputBuffer ChunkedInputStream) (r : Except Fault Unit)
    (t : InputBuffer ChunkedInputStream) : Prop where
  acquired : Acquired held s t
  enough : r = .ok () → n ≤ t.buffer.length
  fails : ∀ e, r = .error e → held = [] ∧ InPlace t [] ∧
    (t.derived.source = [] ∨ ∃ e', .error e' ∈ s.derived.source)

theorem Served.of_supplied {x : Input ChunkedInputStream Unit} (h : x.Achieves s (Supplied n held s)) :
    x.Meets s (Served n held s) := by
  obtain ⟨_, t, ht, hacquired, hlen⟩ := h
  exact Action.meets_of_eq ht ⟨hacquired, fun _ => hlen, fun _ he => (by cases he)⟩

theorem Served.same {r : Except Fault Unit} (hsame : SameInput s t) (h : Served n held t r u) :
    Served n held s r u := by
  refine ⟨.same hsame h.acquired, h.enough, fun e he => ?_⟩
  rw [← hsame.2]
  exact h.fails e he

theorem Served.of_failed {e : Fault} (hacquired : Acquired [] s t) (hinplace : InPlace t [])
    (hdry : t.derived.source = [] ∨ ∃ e', .error e' ∈ s.derived.source) : Served n [] s (.error e) t :=
  ⟨hacquired, fun hok => (by cases hok), fun _ _ => ⟨rfl, hinplace, hdry⟩⟩

theorem Served.next {r : Except Fault Unit} (hsource : s.derived.source = .ok chunk :: t.derived.source)
    (hsize : t.inputSize = s.inputSize) (h : Served n (chunk.take s.inputSize) t r u) : Served n [] s r u := by
  refine ⟨.next hsource hsize h.acquired, h.enough, fun e he => ?_⟩
  obtain ⟨-, hinplace, hdry⟩ := h.fails e he
  refine ⟨rfl, hinplace, hdry.imp_right fun herror => ?_⟩
  obtain ⟨e', he'⟩ := herror
  exact ⟨e', hsource ▸ List.mem_cons_of_mem _ he'⟩

/-- Where a chunk ends the next one is buffered where it is, unless the source fails. -/
theorem InPlace.acquire (h : InPlace s []) (hsized : AreSized s.derived.source) :
    (∃ e t, acquireNextChunk s = (.error e, t) ∧ Acquired [] s t ∧ InPlace t [] ∧
      (t.derived.source = [] ∨ ∃ e', .error e' ∈ s.derived.source)) ∨
    ∃ chunk t, s.derived.source = .ok chunk :: t.derived.source ∧ t.inputSize = s.inputSize ∧
      InPlace t (chunk.take s.inputSize) ∧ ∀ (α : Type) (f : Unit → Input ChunkedInputStream α),
        (acquireNextChunk >>= fun _ => resetToReadArea >>= f) s = f () t := by
  rcases hsource : s.derived.source with _ | ⟨e | chunk, source⟩
  · exact .inl ⟨_, s, acquireNextChunk_end hsource, .refl (.inl h) (Nat.zero_le _), h, .inl hsource⟩
  · have hinplace : InPlace {s with derived := {s.derived with source}} [] := ⟨h.small, h.start, h.buffer⟩
    refine .inl ⟨_, _, acquireNextChunk_error hsource, ⟨rfl, [.error e], hsource, ?_⟩, hinplace, ?_⟩
    · exact List.take_nil.symm ▸ .inl hinplace
    · exact .inr ⟨e, List.mem_cons_self⟩
  · have hchunk : chunk.length < 2 ^ 32 := hsized chunk (hsource ▸ List.mem_cons_self)
    have hcut : (chunk.take s.inputSize).length < 2 ^ 32 := (List.take_sublist _ _).length_le.trans_lt hchunk
    refine .inr ⟨chunk, ⟨chunk.take s.inputSize, s.inputSize, {s.derived with
      readArea := .ofSpan (chunk.take s.inputSize), source,
      extent := (chunk.take s.inputSize).length}⟩, rfl, rfl, ⟨h.small, h.start, rfl⟩, fun α f => ?_⟩
    rw [Action.bind_ok _ (acquireNextChunk_cut hsource hchunk)]
    exact Action.bind_ok _ (resetToReadArea_eq (MemoryView.remaining_ofSpan hcut))

theorem InPlace.require {rounds : Nat} (h : InPlace s held) (hask : Askable n s held)
    (hrounds : s.derived.source.length < rounds) :
    (@requireInput _ (virtuals rounds) n).Meets s (Served n held s) := by
  induction rounds generalizing s held with
  | zero => omega
  | succ rounds ih =>
    by_cases hpos : 0 < held.length
    · exact .of_supplied (h.require_some hpos hask hrounds)
    obtain rfl : held = [] := List.length_eq_zero_iff.mp (by omega)
    have hlen : s.buffer.length = 0 := congrArg List.length h.buffer
    by_cases h0 : n = 0
    · have hle : n ≤ s.buffer.length := by omega
      exact .of_supplied ⟨(), s, requireInput_buffered hask.size hle, .refl (.inl h) hask.held_le, hle⟩
    · refine .of_eq (requireInput_do hask.size (by omega)) ?_
      show (doRequireInput (virtuals rounds) n).Meets s _
      rw [doRequireInput]
      refine .step h.bufferStart_eq (.ite_pos (by decide) (.step rfl (.ite_pos hlen ?_)))
      rcases h.acquire hask.sized with ⟨e, t, ht, hacquired, hinplace, hdry⟩ |
        ⟨chunk, t, hnext, hsize, hinplace, heq⟩
      · exact .stop ht (.of_failed hacquired hinplace hdry)
      · have htask : Askable n t (chunk.take s.inputSize) := hask.next hnext hsize (by rw [List.length_nil]; omega)
        refine .of_eq (heq _ _) (.step rfl ?_)
        by_cases henough : n ≤ t.buffer.length
        · have hheld : Acquired (chunk.take s.inputSize) t t := .refl (.inl hinplace) htask.held_le
          exact .ite_neg (Nat.not_lt.mpr henough) (.next hnext hsize (.of_supplied ⟨(), t, rfl, hheld, henough⟩))
        · have htrounds : t.derived.source.length < rounds := by
            rw [hnext, List.length_cons] at hrounds
            omega
          exact .ite_pos (Nat.lt_of_not_le henough)
            ((ih hinplace htask htrounds).mono fun _ _ hu => .next hnext hsize hu)

/-- Whatever was acquired, input can be required. -/
theorem Located.require {rounds : Nat} (h : Located s held) (hask : Askable n s held)
    (hrounds : s.derived.source.length + 1 < rounds) :
    (@requireInput _ (virtuals rounds) n).Meets s (Served n held s) := by
  rcases h with h | ⟨consumed, remnants, area, h⟩
  · exact h.require hask (Nat.lt_of_succ_lt hrounds)
  · by_cases hlt : consumed < remnants.length
    · exact .of_supplied (h.require hlt hask (Nat.lt_of_succ_lt hrounds))
    · by_cases hlen : n ≤ s.buffer.length
      · have hsame : Acquired held s s := .refl (.inr ⟨consumed, remnants, area, h⟩) hask.held_le
        exact .of_supplied ⟨(), s, requireInput_buffered hask.size hlen, hsame, hlen⟩
      · obtain ⟨rounds, rfl⟩ : ∃ r, rounds = r + 1 := ⟨rounds - 1, by omega⟩
        refine .of_eq (requireInput_do hask.size (Nat.lt_of_not_le hlen)) ?_
        show (doRequireInput (virtuals rounds) n).Meets s _
        rw [doRequireInput]
        refine .step h.bufferStart_eq (.ite_neg (by omega)
          (.step h.bufferStart_eq (.step h.consumedSize_eq (.ite_pos (by omega)
          (.step h.consumedSize_eq ?_)))))
        obtain ⟨_, t, ht, hinplace, hsame⟩ := h.retire (Nat.le_of_not_lt hlt)
        have htask := hask.same hsame
        refine .step ht (.step rfl ?_)
        by_cases henough : n ≤ t.buffer.length
        · have hheld : Acquired held t t := .refl (.inl hinplace) htask.held_le
          exact .ite_neg (Nat.not_lt.mpr henough) (.same hsame (.of_supplied ⟨(), t, rfl, hheld, henough⟩))
        · have htrounds : t.derived.source.length < rounds := by
            rw [hsame.2]
            omega
          exact .ite_pos (Nat.lt_of_not_le henough)
            ((hinplace.require htask htrounds).mono fun _ _ hu => .same hsame hu)

/-! ### Requiring input that the stream has -/

theorem Holds.leaves (h : Holds s held pending) : Leaves s (held ++ pending.flatten) :=
  ⟨held, pending, h, rfl⟩

theorem Holds.ready (h : Holds s held pending) (hlen : n ≤ s.buffer.length) :
    Ready n (held ++ pending.flatten) () s :=
  ⟨h.leaves, hlen⟩

theorem supplies_chunks {k : Nat} (hn : n ≤ k + pending.flatten.length) :
    Supplies n (k + pending.flatten.length) k (pending.map .ok) := by
  induction pending generalizing k with
  | nil =>
    intro hlt
    rw [List.flatten_nil, List.length_nil] at hn
    omega
  | cons chunk rest ih =>
    intro _
    rw [List.flatten_cons, List.length_append, ← Nat.add_assoc] at hn ⊢
    rw [Nat.min_eq_left (Nat.le_add_right _ _)]
    exact ⟨.inr (Nat.le_add_right _ _), ih hn⟩

theorem Counted.askable (h : Counted s held pending) (hn : n ≤ s.inputSize) (hsmall : n ≤ minimumInputBufferSize) :
    Askable n s held := by
  have hsize := h.inputSize
  refine ⟨hn, hsmall, by omega, fun chunk hchunk => ?_, ?_⟩
  · rw [h.source] at hchunk
    obtain ⟨c, hc, hok⟩ := List.mem_map.mp hchunk
    obtain rfl := Except.ok.inj hok
    exact (h.chunks c hc).2
  · rw [h.source, hsize]
    exact supplies_chunks (hsize ▸ hn)

/-- What is acquired of counted chunks is counted. -/
theorem Acquired.holds (h : Acquired held s t) (hcounted : Counted s held pending) :
    ∃ front rest, pending = front ++ rest ∧ t.derived.source = rest.map .ok ∧
    Holds t (held ++ front.flatten) rest := by
  obtain ⟨hsize, front, hsource, hlocated⟩ := h
  rw [hcounted.source] at hsource
  obtain ⟨pre, rest, rfl, rfl, hrest⟩ := List.map_eq_append_iff.mp hsource
  have hcount := hcounted.inputSize
  rw [List.flatten_append, List.length_append] at hcount
  have hall : (held ++ pre.flatten).take s.inputSize = held ++ pre.flatten := by
    apply List.take_of_length_le
    rw [List.length_append]
    omega
  rw [arrivals_map, hall] at hlocated
  have hchunks : AreChunks rest := fun c hc => hcounted.chunks c (List.mem_append_right pre hc)
  refine ⟨pre, rest, rfl, hrest.symm, holds_iff.mpr ⟨⟨hchunks, hrest.symm, hlocated.small, ?_, ?_⟩, hlocated⟩⟩
  · rw [hsize, hcount, List.length_append, Nat.add_assoc]
  · exact hsize ▸ hcounted.fits

/-- Where nothing is buffered in place, nothing is held. -/
theorem Located.eq_nil (h : Located s held) (hinplace : InPlace s []) : held = [] := by
  rcases h with h | ⟨consumed, remnants, area, h⟩
  · exact h.buffer.symm.trans hinplace.buffer
  · have hstart := h.start.symm.trans hinplace.start
    omega

/-- Requiring input that the stream has succeeds, as far as a small buffer goes. -/
theorem Holds.require {rounds : Nat} (h : Holds s held pending) (hn : n ≤ s.inputSize)
    (hsmall : n ≤ minimumInputBufferSize) (hrounds : pending.length + 1 < rounds) :
    (@requireInput _ (virtuals rounds) n).Achieves s (Ready n (held ++ pending.flatten)) := by
  obtain ⟨hcounted, hlocated⟩ := holds_iff.mp h
  have hlen : s.derived.source.length = pending.length := by rw [hcounted.source, List.length_map]
  have hserved := hlocated.require (hcounted.askable hn hsmall) (hlen ▸ hrounds)
  obtain ⟨front, rest, rfl, hrest, hholds⟩ := hserved.acquired.holds hcounted
  unfold Action.Meets at hserved
  rcases hrun : @requireInput _ (virtuals rounds) n s with ⟨e | _, t⟩ <;> rw [hrun] at hserved hholds hrest
  · -- a stream that ran dry had nothing left
    obtain ⟨rfl, hinplace, hdry⟩ := hserved.fails e rfl
    have hdrained : t.derived.source = [] := by
      refine hdry.resolve_right fun herror => ?_
      obtain ⟨e', he'⟩ := herror
      rw [hcounted.source] at he'
      obtain ⟨c, -, hc⟩ := List.mem_map.mp he'
      cases hc
    obtain rfl : rest = [] := List.map_eq_nil_iff.mp (hrest.symm.trans hdrained)
    have hnil := (holds_iff.mp hholds).2.eq_nil hinplace
    have hsize := hcounted.inputSize
    rw [List.nil_append] at hnil
    rw [List.append_nil, hnil, List.length_nil] at hsize
    rw [requireInput_buffered hn (by omega)] at hrun
    cases hrun
  · refine ⟨(), t, hrun, ?_⟩
    have hready := hholds.ready (hserved.enough rfl)
    rwa [List.append_assoc, ← List.flatten_append] at hready

theorem requireInput_rounds (n : Nat) (s : InputBuffer ChunkedInputStream) :
    requireInput n s = @requireInput _ (virtuals (rounds s)) n s := by
  unfold requireInput
  rfl

end ChunkedInputStream
end DeepPack
