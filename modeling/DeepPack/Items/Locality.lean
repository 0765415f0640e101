import DeepPack.Library.Locality
import DeepPack.Items.Keeping
import DeepPack.Items.RoundTrip

/-! The parsers look at no more of the input than they take.

On a memory stream a parser that succeeds would have come to the same result in front of
any other rest of the input, and in front of none. Sizes are checked against all that is
left of the input, but not for more than is then read; and the number of rounds a loop
over chunks is given makes no difference, as long as there are enough. -/
namespace DeepPack
open Library InputBuffer

variable {δ α β : Type}

/-- The input parser is local. -/
abbrev InputLocal (L : α → List UInt8 → Prop) (x : Input MemoryInputStream α) : Prop :=
  Action.LocalWordWhen wordLimit memoryInput (fun _ => True) L (fun _ => 0) x

/-- The parser is local. -/
abbrev ParseLocal (L : α → List UInt8 → Prop) (x : Parse MemoryInputStream δ α) : Prop :=
  Action.Local wordLimit (Action.placeFst memoryInput) L x

open Library.Action (AtLeast LocalWhen)

section Parts
variable {j k : Nat}

theorem local_err {σ γ ρ : Type} {place : ρ → List UInt8 → σ} {P : γ → Prop} {L : γ → List UInt8 → Prop}
    {ahead : γ → Nat} (e : Errc) : LocalWhen wordLimit place P L ahead (err e : Action Fault σ γ) :=
  Action.local_fail _

/-- What is taken by two parsers adds up. -/
theorem local_bind {σ γ ρ : Type} {place : ρ → List UInt8 → σ} {x : Action Fault σ α} {f : α → Action Fault σ γ}
    (hx : Action.Local wordLimit place (AtLeast j) x) (hf : ∀ a, Action.Local wordLimit place (AtLeast k) (f a)) :
    Action.Local wordLimit place (AtLeast (j + k)) (x >>= f) :=
  LocalWhen.andThen hx fun a _ hu => (hf a).mono (fun _ h => h) fun _ _ _ hv => hu.append hv

theorem local_less {σ γ ρ : Type} {place : ρ → List UInt8 → σ} {x : Action Fault σ γ}
    (hx : Action.Local wordLimit place (AtLeast j) x) (hkj : k ≤ j) : Action.Local wordLimit place (AtLeast k) x :=
  hx.mono (fun _ h => h) fun _ _ _ hu => hkj.trans hu

theorem local_assign (v : δ) : ParseLocal (AtLeast 0) (assign v) := Action.local_onSnd fun _ => Nat.zero_le _

/-- A size that is checked for no more than is read. -/
theorem local_sized {σ γ ρ : Type} {place : ρ → List UInt8 → σ} {P : γ → Prop} {L : γ → List UInt8 → Prop}
    {ahead : γ → Nat} {size : Action Fault σ Nat} (hsize : ∀ d w, size (place d w) = (.ok w.length, place d w))
    (tooSmall : Nat → Prop) [DecidablePred tooSmall] (hsmall : ∀ m n, m ≤ n → tooSmall n → tooSmall m) {e : Errc}
    {f : Action Fault σ γ} (hf : LocalWhen wordLimit place P L ahead f)
    (hread : ∀ a u, P a → L a u → ¬ tooSmall (u.length + ahead a)) :
    LocalWhen wordLimit place P L ahead (size >>= fun n => if tooSmall n then err e else f) := by
  intro d w hw a s hx ha
  rw [Action.bind_ok _ (hsize d w)] at hx
  split at hx
  · cases hx
  · obtain ⟨u, rest, d', rfl, rfl, hu, htakes⟩ := hf d w hw a s hx ha
    refine ⟨u, rest, d', rfl, rfl, hu, fun w' hahead hw' => (Action.bind_ok _ (hsize d (u ++ w'))).trans ?_⟩
    have hlen : u.length + ahead a ≤ (u ++ w').length := by
      rw [List.length_append]
      exact Nat.add_le_add_left hahead _
    rw [if_neg fun hbad => hread a u ha hu (hsmall _ _ hlen hbad)]
    exact htakes w' hahead hw'

end Parts

/-! ### The buffer and heads -/

theorem local_bulkRead (n : Nat) : InputLocal (AtLeast n) (bulkRead n) := by
  intro _ b hb bytes t hx _
  rw [MemoryInputStream.bulkRead_memory n hb] at hx
  split at hx
  · rename_i hn
    cases hx
    refine ⟨b.take n, b.drop n, (), (List.take_append_drop n b).symm, rfl, (List.length_take_of_le hn).ge, ?_⟩
    have htakes := takes_bulkRead (b.take n)
    rwa [List.length_take_of_le hn] at htakes
  · cases hx

theorem local_parseItemHead : InputLocal (AtLeast 1) parseItemHead := by
  intro _ b hb h t hx _
  obtain ⟨p, rest, rfl, ⟨rfl, -⟩, hread⟩ := accepts_parseItemHead _ b ⟨rfl, hb⟩ h t hx
  refine ⟨p, rest, (), rfl, rfl, ?_, fun w _ hw => ?_⟩
  · have hmem := hread.length_mem
    simp only [List.mem_cons, List.not_mem_nil, or_false] at hmem
    show 1 ≤ p.length
    omega
  · rw [parseItemHead_memory hw (hread.headOf w), hread.encodedLength_eq, List.drop_left]

theorem local_expectItemHead (type : TypeCode) (value : Nat) : InputLocal (AtLeast 1) (expectItemHead type value) := by
  have hdone : InputLocal (AtLeast 0) (pure ()) := Action.local_pure (Nat.zero_le _)
  refine local_bind (j := 1) (k := 0) local_parseItemHead fun _ =>
    .ite (fun _ => local_err _) fun _ => .ite (fun _ => ?_) fun _ => ?_
  · exact .ite (fun _ => .ite (fun _ => hdone) fun _ => local_err _) fun _ => local_err _
  · exact .ite (fun _ => local_err _) fun _ => hdone

/-- A byte that is peeked at is taken, or the result does not count. -/
theorem local_peekByte {P : α → Prop} {L : α → List UInt8 → Prop} {ahead : α → Nat} {c : UInt8}
    {x y : Input MemoryInputStream α} (hx : ∀ s a t, x s = (.ok a, t) → ¬ P a)
    (hy : Action.LocalWordWhen wordLimit memoryInput P (fun a u => L a (c :: u)) ahead y) :
    Action.LocalWordWhen wordLimit memoryInput P L ahead
      (peekByte >>= fun next => if next ≠ c then x else discardBuffered 1 >>= fun _ => y) := by
  intro _ b hb a t hrun ha
  cases b with
  | nil => cases hrun
  | cons next b =>
    rw [Action.bind_ok _ peekByte_memory] at hrun
    by_cases hnext : next ≠ c
    · rw [if_pos hnext] at hrun
      exact absurd ha (hx _ _ _ hrun)
    · rw [if_neg hnext, Action.bind_ok _ (takeByte_memory hb)] at hrun
      obtain ⟨u, rest, _, rfl, rfl, hu, htakes⟩ := hy () b (Nat.lt_of_succ_lt hb) a t hrun ha
      obtain rfl := not_not.mp hnext
      exact ⟨next :: u, rest, (), rfl, rfl, hu, takes_peekByte htakes⟩

/-! ### Scalars -/

theorem local_parseUnsignedInteger (t : IntType) (limit : Nat) :
    ParseLocal (AtLeast 1) (parseUnsignedInteger t limit) :=
  local_bind (j := 1) (k := 0) local_parseItemHead.onFst fun _ =>
    .ite (fun _ => local_err _) fun _ => .ite (fun _ => local_err _) fun _ => local_assign _

theorem local_parseInteger (t : IntType) : ParseLocal (AtLeast 1) (parseInteger t) := by
  refine .ite (fun _ => ?_) fun _ => local_parseUnsignedInteger t _
  exact local_bind (j := 1) (k := 0) local_parseItemHead.onFst fun _ =>
    .ite (fun _ => local_err _) fun _ => .ite (fun _ => local_err _) fun _ => local_assign _

theorem local_parseFloatingPoint (t : FloatType) : ParseLocal (AtLeast 1) (parseFloatingPoint t) := by
  refine local_bind (j := 1) (k := 0) local_parseItemHead.onFst fun _ =>
    .ite (fun _ => local_err _) fun _ => .ite (fun _ => ?_) fun _ => ?_
  · exact .ite (fun _ => local_assign _) fun _ => local_err _
  · exact .ite (fun _ => local_assign _) fun _ => local_assign _

theorem local_parseBoolean : ParseLocal (AtLeast 1) (parseBoolean : Parse MemoryInputStream Bool Unit) := by
  intro v b hb _ t hx _
  replace hx : parseBoolean (memoryInput b, v) = _ := hx
  cases b with
  | nil => cases hx
  | cons c b =>
    rw [parseBoolean_memory hb] at hx
    split at hx
    · cases hx
    · rename_i hc
      cases hx
      refine ⟨[c], b, _, rfl, rfl, Nat.le_refl 1, fun w _ hw => ?_⟩
      exact (parseBoolean_memory hw v).trans (if_neg hc)

/-! ### Strings -/

section Strings
variable (B : BlobContainer δ) (maxSize : Nat) (expectedType : TypeCode)

theorem local_readTo (i n : Nat) : ParseLocal (AtLeast n) (Detail.readTo B i n) :=
  (local_bind (j := n) (k := 0) (local_bulkRead n).onFst fun _ => Action.local_onSnd fun _ => Nat.zero_le _).spoiling

theorem local_parseBlobChunks (rounds size : Nat) :
    ParseLocal (AtLeast 1) (Detail.parseBlobChunks B maxSize expectedType rounds size) := by
  induction rounds generalizing size with
  | zero => exact Action.local_fail _
  | succ rounds ih =>
    refine local_bind (j := 1) (k := 0) local_parseItemHead.onFst fun chunkItem => ?_
    refine .ite (fun _ => Action.local_pure (Nat.zero_le _)) fun _ => .ite (fun _ => local_err _) fun _ => ?_
    refine (local_sized (P := fun _ => True) (L := AtLeast chunkItem.value) (fun _ _ => rfl) (· < chunkItem.value)
      (fun _ _ hmn hlt => hmn.trans_lt hlt) (.ite (fun _ => local_err _) fun _ => ?_)
      fun _ _ _ hu => Nat.not_lt.mpr hu).mono (fun _ h => h) fun _ _ _ _ => Nat.zero_le _
    refine local_less (local_bind (j := 0) (Action.local_onSnd fun _ => Nat.zero_le _) fun _ =>
      local_bind (local_readTo B _ chunkItem.value) fun _ => ih _) ?_
    omega

/-- The same state, of an input ahead of these bytes. -/
def SameAhead {σ : Type} [InputStream σ] (C : InputContract σ) (b : List UInt8) (s t : InputBuffer σ) : Prop :=
  s = t ∧ Ahead C b s

section Rounds
variable {σ : Type} [InputStream σ] {C : InputContract σ} {b : List UInt8}

/-- An input parser agrees with itself, and moves on. -/
theorem InputKeeps.agree {Q : α → Prop} {x : Input σ α} (h : InputKeeps (fun _ => True) C b Q x) :
    Action.Agree (SameAhead C b) (SameAhead C b) (fun s t => s = t) x x :=
  Action.Agree.weakenError (h.mono (fun _ hs => hs) (fun _ _ hs => hs.2) fun _ _ hs => hs.2).agree fun _ _ hst => hst.1

/-- The rounds do not matter, if they are more than the bytes of the input. -/
theorem parseBlobChunks_rounds {rounds rounds' : Nat} (hrounds : b.length < rounds) (hrounds' : b.length < rounds')
    (size : Nat) :
    Action.Agree (Action.Beside (SameAhead C b)) (Action.Beside fun s t => s = t) (Action.Beside fun s t => s = t)
      (Detail.parseBlobChunks B maxSize expectedType rounds size)
      (Detail.parseBlobChunks B maxSize expectedType rounds' size) := by
  have hG : ReturnsErrors fun _ => True := fun _ => trivial
  induction rounds generalizing b rounds' size with
  | zero => exact absurd hrounds (Nat.not_lt_zero _)
  | succ rounds ih =>
    obtain ⟨rounds', rfl⟩ := Nat.exists_eq_succ_of_ne_zero (Nat.ne_zero_of_lt hrounds')
    have hhead : Action.Agree (SameAhead C b) (fun s t => b ≠ [] ∧ SameAhead C b.tail s t) (fun s t => s = t)
        parseItemHead parseItemHead := by
      intro s t hst
      obtain ⟨hr, hok, herr⟩ := Action.Agree.weakenError (Action.Triple.agree (E := fun _ => True)
        ((keeps_headByte hG).mono (fun _ hs => hs) (fun _ _ hs => hs) fun _ _ _ => trivial)) (fun _ _ h => h.1) s t hst
      exact ⟨hr, fun a ha => ⟨(hok a ha).2.1, (hok a ha).1, (hok a ha).2.2⟩, herr⟩
    refine hhead.onFst.bind fun chunkItem => ?_
    by_cases hne : b ≠ []
    · refine Action.Agree.weaken (P := Action.Beside (SameAhead C b.tail)) ?_ fun _ _ hst => ⟨hst.1.2, hst.2⟩
      have herr : ∀ e, Action.Agree (Action.Beside (SameAhead C b.tail)) (Action.Beside fun s t => s = t)
          (Action.Beside fun s t => s = t) (err e : Parse σ δ Nat) (err e : Parse σ δ Nat) := fun e =>
        Action.agree_fail _ fun _ _ hst => ⟨hst.1.1, hst.2⟩
      refine .ite ((Action.agree_pure _).weaken fun _ _ hst => ⟨hst.1.1, hst.2⟩) ((herr _).ite ?_)
      refine (keeps_inputSizeNow.agree).onFst.bind fun _ => (herr _).ite ((herr _).ite ?_)
      have honSnd : ∀ {γ : Type} (x : Action Fault δ γ), Action.Agree (Action.Beside (SameAhead C b.tail))
          (Action.Beside (SameAhead C b.tail)) (Action.Beside fun s t => s = t) (Action.onSnd x) (Action.onSnd x) :=
        fun x => (Action.agree_onSnd x).weakenError fun _ _ hst => ⟨hst.1.1, hst.2⟩
      refine (honSnd _).bind fun _ => Action.Agree.bind (Action.Agree.spoiling
        ((keeps_bulkRead hG _).agree.onFst.bind fun _ => honSnd _) fun s t e s' t' hst _ _ hend => ⟨hend.1, ?_⟩) fun _ => ?_
      · show B.overwrite size (bulkCopied chunkItem.value s.1) s'.2 = B.overwrite size (bulkCopied chunkItem.value t.1) t'.2
        rw [hst.1.1, hend.2]
      have hpos := List.length_pos_of_ne_nil hne
      exact ih (by rw [List.length_tail]; omega) (by rw [List.length_tail]; omega) _
    · exact fun _ _ hst => absurd hst.1.1 hne

end Rounds

theorem local_parseBlobIndefinite : ParseLocal (AtLeast 1) (Detail.parseBlobIndefinite B maxSize expectedType) := by
  refine LocalWhen.of_eq (y := Action.onSnd (B.containerResize 0) >>= fun _ =>
    Detail.parseBlobChunks B maxSize expectedType wordLimit 0) ?_ fun d w hw => ?_
  · exact local_less (local_bind (j := 0) (k := 1) (Action.local_onSnd fun _ => Nat.zero_le _) fun _ =>
      local_parseBlobChunks B maxSize expectedType _ _) (Nat.le_refl 1)
  · rw [Detail.parseBlobIndefinite, Action.placeFst, Action.bind_apply, Action.bind_apply, Action.onSnd_apply]
    rcases B.containerResize 0 d with ⟨e | _, d'⟩
    · rfl
    have hvalid := MemoryInputStream.valid_memory hw
    have hsame := parseBlobChunks_rounds B maxSize expectedType (C := MemoryInputStream.contract) (b := w)
      (Nat.lt_succ_self _) hw 0 (memoryInput w, d') (memoryInput w, d') ⟨⟨rfl, hvalid, List.suffix_refl _⟩, rfl⟩
    obtain ⟨hr, hok, herr⟩ := hsame
    refine Prod.ext hr ?_
    rcases hx : (Detail.parseBlobChunks B maxSize expectedType (w.length + 1) 0 (memoryInput w, d')).1 with e | a
    · exact Prod.ext (herr e hx).1 (herr e hx).2
    · exact Prod.ext (hok a hx).1 (hok a hx).2

theorem local_parseBlob (allow : Bool) :
    ParseLocal (AtLeast 1) (Detail.parseBlob B allow maxSize expectedType) := by
  refine local_bind (j := 1) (k := 0) local_parseItemHead.onFst fun head =>
    .ite (fun _ => local_err _) fun _ => .ite (fun _ => .ite (fun _ => ?_) fun _ => local_err _) fun _ => ?_
  · exact local_less (local_parseBlobIndefinite B maxSize expectedType) (Nat.zero_le 1)
  · refine LocalWhen.mono (Q := fun _ => True) (local_sized (L := AtLeast head.value) (fun _ _ => rfl) (· < head.value)
      (fun _ _ hmn hlt => hmn.trans_lt hlt) (.ite (fun _ => local_err _) fun _ => ?_) fun _ _ _ hu => Nat.not_lt.mpr hu)
      (fun _ h => h) fun _ _ _ _ => Nat.zero_le _
    refine local_less (local_bind (j := 0) (k := head.value) (Action.local_onSnd fun _ => Nat.zero_le _) fun _ =>
      local_bind (j := head.value) (k := 0) (local_readTo B _ head.value) fun _ => Action.local_pure (Nat.zero_le _)) ?_
    omega

end Strings

/-! ### Ranges -/

section Ranges
variable {f : Nat → Parse MemoryInputStream δ Unit} {k : Nat}

/-- What stands where a break could is taken, if it is no break. -/
theorem local_endAtBreak (i : Nat) {more : Parse MemoryInputStream δ Nat} (h : ParseLocal (AtLeast 1) more) :
    ParseLocal (AtLeast 1) (Detail.endAtBreak i more) := by
  intro d b hb n t hx _
  replace hx : Detail.endAtBreak i more (memoryInput b, d) = _ := hx
  cases b with
  | nil => cases hx
  | cons c b =>
    rw [endAtBreak_memory hb] at hx
    by_cases hc : c = breakByte
    · rw [if_pos hc] at hx
      cases hx
      refine ⟨[c], b, d, rfl, rfl, Nat.le_refl 1, fun w _ hw => ?_⟩
      exact (endAtBreak_memory hw i more d).trans (if_pos hc)
    · rw [if_neg hc] at hx
      obtain ⟨u, rest, d', hwu, rfl, hu, htakes⟩ := h d _ hb n t hx trivial
      refine ⟨u, rest, d', hwu, rfl, hu, fun w _ hw => ?_⟩
      obtain ⟨c', u, rfl⟩ := List.exists_cons_of_ne_nil (List.ne_nil_of_length_pos hu)
      obtain ⟨rfl, -⟩ := List.cons.inj hwu
      exact (endAtBreak_memory hw i more d).trans ((if_neg hc).trans (htakes w (Nat.zero_le _) hw))

theorem local_parseIndefiniteElements (hf : ∀ i, ParseLocal (AtLeast 1) (f i)) (maxSize left i : Nat) :
    ParseLocal (AtLeast 1) (Detail.parseIndefiniteElements maxSize f left i) := by
  induction left generalizing i with
  | zero => exact local_endAtBreak i (local_err _)
  | succ left ih =>
    refine local_endAtBreak i (.ite (fun _ => local_err _) fun _ => ?_)
    exact local_less (local_bind (hf i) fun _ => ih (i + 1)) (Nat.le_add_right 1 1)

/-- The size of a map is halved before it is checked, but its elements are pairs. -/
theorem local_parseArrayLike (hf : ∀ i, ParseLocal (AtLeast k) (f i)) (allow : Bool) (maxSize : Nat)
    {expectedType : TypeCode} (hk : (if expectedType = .map then 2 else 1) ≤ k) :
    ParseLocal (AtLeast 1) (Detail.parseArrayLike allow maxSize expectedType f) := by
  have hpos : 1 ≤ k := by
    split at hk <;> omega
  refine local_bind (j := 1) (k := 0) local_parseItemHead.onFst fun head =>
    .ite (fun _ => local_err _) fun _ => .ite (fun _ => .ite (fun _ => ?_) fun _ => local_err _) fun _ => ?_
  · exact local_less (local_parseIndefiniteElements (fun i => local_less (hf i) hpos) maxSize _ _) (Nat.zero_le 1)
  · refine LocalWhen.mono (Q := fun _ => True) (local_sized (L := AtLeast (head.value * k)) (fun _ _ => rfl)
      (fun size => size >>> (if expectedType = .map then 1 else 0) < head.value) (fun m n hmn hlt => ?_)
      (.ite (fun _ => local_err _) fun _ => ?_) fun _ u _ hu => ?_) (fun _ h => h) fun _ _ _ _ => Nat.zero_le _
    · refine Nat.lt_of_le_of_lt ?_ hlt
      rw [Nat.shiftRight_eq_div_pow, Nat.shiftRight_eq_div_pow]
      exact Nat.div_le_div_right hmn
    · exact local_bind (k := 0) (Action.local_forRange hf 0 head.value) fun _ => Action.local_pure (Nat.zero_le _)
    · have hread : head.value * (if expectedType = .map then 2 else 1) ≤ u.length :=
        (Nat.mul_le_mul_left _ hk).trans hu
      rw [Nat.add_zero, Nat.shiftRight_eq_div_pow, Nat.not_lt]
      split at hread
      · rw [if_pos ‹_›]
        omega
      · rw [if_neg ‹_›]
        omega

end Ranges

/-! ### More of the input -/

open Library.Action (Lasts)

/-- With more behind its input the parser goes on to succeed, and it still writes past the end of an array where it
did. -/
abbrev InputLasts (x : Input MemoryInputStream α) : Prop :=
  Lasts wordLimit (fun _ : Unit => memoryInput) (· = .outOfBounds) x

abbrev ParseLasts (x : Parse MemoryInputStream δ α) : Prop :=
  Lasts wordLimit (Action.placeFst memoryInput) (· = .outOfBounds) x

theorem returnsErrors_within : ReturnsErrors (· ≠ .outOfBounds) := fun _ => nofun

theorem lasts_of_keeps {L : α → List UInt8 → Prop} {Q : α → Prop} {x : Input MemoryInputStream α} (hx : InputLocal L x)
    (hkeeps : ∀ b, InputKeeps (· ≠ .outOfBounds) MemoryInputStream.contract b Q x) : InputLasts x := by
  refine hx.lasts fun _ w hw e he => ?_
  have hvalid := MemoryInputStream.valid_memory hw
  exact ((hkeeps w).error ⟨hvalid, List.suffix_refl _⟩ (Prod.ext he rfl)).1

theorem lasts_of_parseKeeps {L : α → List UInt8 → Prop} {W : α → δ → Prop} {x : Parse MemoryInputStream δ α}
    (hx : ParseLocal L x) (hkeeps : ∀ b, ParseKeeps (· ≠ .outOfBounds) MemoryInputStream.contract b (fun _ => True) W
      (fun _ => True) x) : ParseLasts x := by
  refine hx.lasts fun _ w hw e he => ?_
  have hvalid := MemoryInputStream.valid_memory hw
  exact ((hkeeps w).error ⟨⟨hvalid, List.suffix_refl _⟩, trivial⟩ (Prod.ext he rfl)).1.1

theorem lasts_parseItemHead : InputLasts parseItemHead :=
  lasts_of_keeps local_parseItemHead fun _ => keeps_parseItemHead returnsErrors_within

/-- A byte that is peeked at stays the same. -/
theorem lasts_peekByte {c : UInt8} {x y : Input MemoryInputStream α} (hx : InputLasts x) (hy : InputLasts y) :
    InputLasts (peekByte >>= fun next => if next ≠ c then x else discardBuffered 1 >>= fun _ => y) := by
  intro d b more hlen
  cases b with
  | nil => exact ⟨nofun, fun e he hout => by cases he; cases hout⟩
  | cons next b =>
    rw [List.cons_append] at hlen ⊢
    rw [Action.bind_ok _ peekByte_memory, Action.bind_ok _ peekByte_memory]
    by_cases hnext : next ≠ c
    · rw [if_pos hnext]
      exact hx d (next :: b) more hlen
    · have hb : (next :: b).length < wordLimit :=
        Nat.lt_of_le_of_lt (Nat.succ_le_succ (List.sublist_append_left b more).length_le) hlen
      rw [if_neg hnext, Action.bind_ok _ (takeByte_memory hb), Action.bind_ok _ (takeByte_memory hlen)]
      obtain ⟨hok, herr⟩ := hy d b more (Nat.lt_of_succ_lt hlen)
      refine ⟨fun a t ht => ?_, herr⟩
      obtain ⟨d', rest, hs, hle, hmore⟩ := hok a t ht
      exact ⟨d', rest, hs, hle.trans (Nat.le_succ _), hmore⟩

section Ranges
variable {f : Nat → Parse MemoryInputStream δ Unit}

theorem lasts_endAtBreak (i : Nat) {g : Parse MemoryInputStream δ Nat} (hg : ParseLasts g) :
    ParseLasts (Detail.endAtBreak i g) := by
  intro d b more hlen
  cases b with
  | nil => exact ⟨nofun, fun e he hout => by cases he; cases hout⟩
  | cons c b =>
    have hb : (c :: b).length < wordLimit :=
      Nat.lt_of_le_of_lt (Nat.succ_le_succ (List.sublist_append_left b more).length_le) hlen
    obtain ⟨hok, herr⟩ := hg d (c :: b) more hlen
    rw [List.cons_append] at hlen ⊢
    rw [Action.placeFst, endAtBreak_memory hb, Action.placeFst, endAtBreak_memory hlen]
    by_cases hc : c = breakByte
    · rw [if_pos hc, if_pos hc]
      refine ⟨fun n t ht => ?_, nofun⟩
      cases ht
      exact ⟨d, b, rfl, Nat.le_succ _, rfl⟩
    · rw [if_neg hc, if_neg hc]
      exact ⟨hok, herr⟩

theorem lasts_parseIndefiniteElements (hf : ∀ i, ParseLasts (f i)) (maxSize left i : Nat) :
    ParseLasts (Detail.parseIndefiniteElements maxSize f left i) := by
  induction left generalizing i with
  | zero => exact lasts_endAtBreak i (Action.lasts_fail _)
  | succ left ih => exact lasts_endAtBreak i (.ite (Action.lasts_fail _) ((hf i).bind fun _ => ih (i + 1)))

theorem lasts_parseArrayLike (hf : ∀ i, ParseLasts (f i)) (allow : Bool) (maxSize : Nat) (expectedType : TypeCode) :
    ParseLasts (Detail.parseArrayLike allow maxSize expectedType f) := by
  refine lasts_parseItemHead.onFst.bind fun head => .ite (Action.lasts_fail _) (.ite ?_ ?_)
  · exact .ite (lasts_parseIndefiniteElements hf maxSize _ _) (Action.lasts_fail _)
  · refine Action.lasts_sized (fun _ _ => rfl)
      (fun size => size >>> (if expectedType = .map then 1 else 0) < head.value) (fun m n hmn hlt => ?_) nofun
      (.ite (Action.lasts_fail _) ((Action.lasts_forRange hf 0 head.value).bind fun _ => Action.lasts_pure _))
    rw [Nat.shiftRight_eq_div_pow] at hlt ⊢
    exact (Nat.div_le_div_right hmn).trans_lt hlt

end Ranges
end DeepPack
