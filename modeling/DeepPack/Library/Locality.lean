import DeepPack.Library.Language

/-! Computations that look at no more of a word than they take.

A local action that succeeds has taken some word off the front, and takes that word in
front of any other rest as well, to the same result. Locality composes along binds; an
action may ask for letters behind what it takes, if the actions after it take as many.
Where an action is followed by one that fails for some of its results, these results do
not count. -/
namespace DeepPack.Library.Action
variable {ε σ τ ρ α β γ : Type} {limit : Nat} {place : ρ → List β → σ} {P : α → Prop} {P' : γ → Prop}
  {L : α → List β → Prop} {M : γ → List β → Prop} {ahead : α → Nat} {ahead' : γ → Nat}

/-- If the action succeeds with a result that counts, it has taken a word of `L` off the front, as it would have
in front of any other word of `ahead` letters at least. -/
def LocalWhen (limit : Nat) (place : ρ → List β → σ) (P : α → Prop) (L : α → List β → Prop) (ahead : α → Nat)
    (x : Action ε σ α) : Prop :=
  ∀ d w, w.length < limit → ∀ a s, x (place d w) = (.ok a, s) → P a →
    ∃ u rest d', w = u ++ rest ∧ s = place d' rest ∧ L a u ∧ TakesAhead limit place (ahead a) x u a d d'

/-- Every result counts, and nothing is asked for beyond the word. -/
abbrev Local (limit : Nat) (place : ρ → List β → σ) (L : α → List β → Prop) (x : Action ε σ α) : Prop :=
  LocalWhen limit place (fun _ => True) L (fun _ => 0) x

/-- It does not succeed. -/
def Fails (x : Action ε σ α) : Prop := ∀ s a t, x s ≠ (.ok a, t)

theorem fails_fail (e : ε) : Fails (fail e : Action ε σ α) := nofun

theorem Fails.local {x : Action ε σ α} (h : Fails x) : LocalWhen limit place P L ahead x :=
  fun _ _ _ _ _ hx _ => absurd hx (h _ _ _)

theorem Fails.bind {x : Action ε σ α} {f : α → Action ε σ γ} (h : ∀ a, Fails (f a)) : Fails (x >>= f) := by
  intro s b t hx
  obtain ⟨a, u, -, hf⟩ := bind_eq_ok.mp hx
  exact h a u b t hf

theorem local_pure {a : α} (h : L a []) : LocalWhen limit place P L ahead (pure a : Action ε σ α) := by
  intro d w _ _ _ hx _
  cases hx
  exact ⟨[], w, d, rfl, rfl, h, takes_pure a⟩

theorem local_fail (e : ε) : LocalWhen limit place P L ahead (fail e : Action ε σ α) := (fails_fail e).local

theorem LocalWhen.mono {Q : α → Prop} {K : α → List β → Prop} {x : Action ε σ α}
    (hx : LocalWhen limit place Q K ahead x) (hP : ∀ a, P a → Q a) (hL : ∀ a u, P a → K a u → L a u) :
    LocalWhen limit place P L ahead x := by
  intro d w hw a s hxs ha
  obtain ⟨u, rest, d', hwu, hs, hu, htakes⟩ := hx d w hw a s hxs (hP a ha)
  exact ⟨u, rest, d', hwu, hs, hL a u ha hu, htakes⟩

/-- What the action does to words is all that counts. -/
theorem LocalWhen.of_eq {x y : Action ε σ α} (hy : LocalWhen limit place P L ahead y)
    (h : ∀ d w, w.length < limit → x (place d w) = y (place d w)) : LocalWhen limit place P L ahead x := by
  intro d w hw a s hx ha
  obtain ⟨u, rest, d', hwu, hs, hu, htakes⟩ := hy d w hw a s ((h d w hw).symm.trans hx) ha
  exact ⟨u, rest, d', hwu, hs, hu, fun w' hahead hw' => (h d (u ++ w') hw').trans (htakes w' hahead hw')⟩

/-- What the first action asks for beyond its word the second takes. -/
theorem LocalWhen.bind {x : Action ε σ α} {f : α → Action ε σ γ} (hx : LocalWhen limit place P L ahead x)
    (hf : ∀ a u, P a → L a u → LocalWhen limit place P'
      (fun b v => M b (u ++ v) ∧ ahead a ≤ v.length + ahead' b) ahead' (f a))
    (hno : ∀ a, ¬ P a → Fails (f a)) : LocalWhen limit place P' M ahead' (x >>= f) := by
  intro d w hw b t hxf hb
  obtain ⟨a, s, hxs, hfs⟩ := bind_eq_ok.mp hxf
  by_cases ha : P a
  · obtain ⟨u, w', d', rfl, rfl, hu, htakes⟩ := hx d w hw a s hxs ha
    have hw' : w'.length < limit := Nat.lt_of_le_of_lt (List.sublist_append_right u w').length_le hw
    obtain ⟨v, rest, d'', rfl, rfl, hv, htakes'⟩ := hf a u ha hu d' w' hw' b t hfs hb
    exact ⟨u ++ v, rest, d'', (List.append_assoc u v rest).symm, rfl, hv.1, htakes.bindAhead htakes' hv.2⟩
  · exact absurd hfs (hno a ha _ _ _)

/-- Actions that count all results and ask for nothing. -/
theorem LocalWhen.andThen {x : Action ε σ α} {f : α → Action ε σ γ} (hx : Local limit place L x)
    (hf : ∀ a u, L a u → LocalWhen limit place P' (fun b v => M b (u ++ v)) ahead' (f a)) :
    LocalWhen limit place P' M ahead' (x >>= f) :=
  LocalWhen.bind hx (fun a u _ hu => (hf a u hu).mono (fun _ hb => hb) fun _ _ _ hv => ⟨hv, Nat.zero_le _⟩)
    fun _ ha => absurd trivial ha

theorem LocalWhen.ite {c : Prop} [Decidable c] {x y : Action ε σ α} (hx : c → LocalWhen limit place P L ahead x)
    (hy : ¬ c → LocalWhen limit place P L ahead y) : LocalWhen limit place P L ahead (if c then x else y) := by
  split
  · rename_i h
    exact hx h
  · rename_i h
    exact hy h

theorem LocalWhen.spoiling {f : σ → σ → σ} {x : Action ε σ α} (hx : LocalWhen limit place P L ahead x) :
    LocalWhen limit place P L ahead (spoiling f x) := by
  intro d w hw a s hxs ha
  obtain ⟨u, rest, d', hwu, hs, hu, htakes⟩ := hx d w hw a s (spoiling_eq_ok hxs) ha
  exact ⟨u, rest, d', hwu, hs, hu, htakes.spoiling⟩

/-! ### Loops -/

/-- So many letters at least, however they were come by. -/
def AtLeast (k : Nat) (_ : α) (u : List β) : Prop := k ≤ u.length

theorem AtLeast.append {j k : Nat} {a : α} {b : γ} {u v : List β} (hu : AtLeast j a u) (hv : AtLeast k b v) :
    AtLeast (j + k) b (u ++ v) := by
  rw [AtLeast, List.length_append]
  exact Nat.add_le_add hu hv

theorem local_forList {f : τ → Action ε σ Unit} {k : Nat} (h : ∀ a, Local limit place (AtLeast k) (f a)) (l : List τ) :
    Local limit place (AtLeast (l.length * k)) (forList f l) := by
  induction l with
  | nil => exact local_pure (by rw [AtLeast, List.length_nil, Nat.zero_mul]; exact Nat.zero_le _)
  | cons a rest ih =>
    refine (h a).andThen fun _ u hu => ih.mono (fun _ h => h) fun _ v _ hv => ?_
    rw [List.length_cons, Nat.succ_mul, Nat.add_comm]
    exact hu.append hv

theorem local_forRange {f : Nat → Action ε σ Unit} {k : Nat} (h : ∀ i, Local limit place (AtLeast k) (f i)) (i n : Nat) :
    Local limit place (AtLeast (n * k)) (forRange f i n) := by
  induction n generalizing i with
  | zero => exact local_pure (by rw [AtLeast, Nat.zero_mul]; exact Nat.zero_le _)
  | succ n ih =>
    refine (h i).andThen fun _ u hu => (ih (i + 1)).mono (fun _ h => h) fun _ v _ hv => ?_
    rw [Nat.succ_mul, Nat.add_comm]
    exact hu.append hv

/-! ### Two states -/

section Pairs
variable {place : List β → σ}

/-- Actions on the word alone. -/
abbrev LocalWordWhen (limit : Nat) (place : List β → σ) (P : α → Prop) (L : α → List β → Prop) (ahead : α → Nat)
    (x : Action ε σ α) : Prop :=
  LocalWhen limit (fun _ : Unit => place) P L ahead x

theorem LocalWhen.onFst {x : Action ε σ α} (h : LocalWordWhen limit place P L ahead x) :
    LocalWhen limit (placeFst (τ := τ) place) P L ahead (onFst x) := by
  intro d w hw a s hx ha
  obtain ⟨hfst, hsnd⟩ := onFst_eq_ok.mp hx
  obtain ⟨u, rest, _, rfl, hs, hu, htakes⟩ := h () w hw a s.1 hfst ha
  exact ⟨u, rest, d, rfl, Prod.ext hs hsnd, hu, htakes.onFst d⟩

theorem local_onSnd {x : Action ε τ α} (h : ∀ a, L a []) :
    LocalWhen limit (placeFst place) P L ahead (onSnd (σ := σ) x) := by
  intro d w _ a s hx _
  obtain ⟨hsnd, hfst⟩ := onSnd_eq_ok.mp hx
  refine ⟨[], w, s.2, rfl, Prod.ext hfst rfl, h a, ?_⟩
  exact fun w' _ hw' => takes_onSnd hsnd w' (Nat.zero_le _) hw'

theorem LocalWhen.within {get : ρ → τ} {set : τ → ρ → ρ} {x : Action ε (σ × τ) α}
    (h : Local limit (placeFst place) L x) : Local limit (placeFst place) L (within get set x) := by
  intro d w hw a s hx _
  obtain ⟨v, hv, hs⟩ := within_eq_ok hx
  obtain ⟨u, rest, v', rfl, heq, hu, htakes⟩ := h (get d) w hw a _ hv trivial
  obtain ⟨hfst, rfl⟩ := Prod.mk.inj heq
  exact ⟨u, rest, set v d, rfl, Prod.ext hfst hs, hu, htakes.within⟩

theorem LocalWhen.fresh {k : Nat} {init : τ} {x : Action ε (σ × τ) Unit}
    (h : Local limit (placeFst place) (AtLeast k) x) :
    LocalWordWhen limit place (fun _ => True) (AtLeast k) (fun _ => 0) (fresh init x) := by
  intro d w hw v s hx _
  obtain ⟨u, rest, v', rfl, heq, hu, htakes⟩ := h init w hw () _ (fresh_eq_ok hx) trivial
  obtain ⟨hfst, rfl⟩ := Prod.mk.inj heq
  exact ⟨u, rest, (), rfl, hfst, hu, htakes.fresh⟩

end Pairs

/-! ### More letters behind the word -/

section Lasting
variable {F : ε → Prop}

/-- With more letters behind the word the action succeeds where it did, to the same result, and leaves these as well;
and where it failed in a way of `F` it fails again. -/
def Lasts (limit : Nat) (place : ρ → List β → σ) (F : ε → Prop) (x : Action ε σ α) : Prop :=
  ∀ d w more, (w ++ more).length < limit →
    (∀ a s, x (place d w) = (.ok a, s) → ∃ d' rest, s = place d' rest ∧ rest.length ≤ w.length ∧
      x (place d (w ++ more)) = (.ok a, place d' (rest ++ more))) ∧
    ∀ e, (x (place d w)).1 = .error e → F e → (x (place d (w ++ more))).1 = .error e

theorem lasts_pure (a : α) : Lasts limit place F (pure a : Action ε σ α) := by
  refine fun d w more _ => ⟨fun _ _ hx => ?_, fun _ hx => by cases hx⟩
  cases hx
  exact ⟨d, w, rfl, Nat.le_refl _, rfl⟩

theorem lasts_fail (e : ε) : Lasts limit place F (fail e : Action ε σ α) :=
  fun _ _ _ _ => ⟨nofun, fun _ hx _ => hx⟩

/-- An action that is local goes on to succeed. -/
theorem LocalWhen.lasts {x : Action ε σ α} (h : Local limit place L x)
    (hF : ∀ d w, w.length < limit → ∀ e, (x (place d w)).1 = .error e → ¬ F e) : Lasts limit place F x := by
  intro d w more hlen
  have hw : w.length < limit := Nat.lt_of_le_of_lt (List.sublist_append_left w more).length_le hlen
  refine ⟨fun a s hx => ?_, fun e hx he => absurd he (hF d w hw e hx)⟩
  obtain ⟨u, rest, d', rfl, rfl, -, htakes⟩ := h d w hw a s hx trivial
  rw [List.append_assoc] at hlen ⊢
  exact ⟨d', rest, rfl, (List.sublist_append_right u rest).length_le, htakes _ (Nat.zero_le _) hlen⟩

theorem Lasts.bind {x : Action ε σ α} {f : α → Action ε σ γ} (hx : Lasts limit place F x)
    (hf : ∀ a, Lasts limit place F (f a)) : Lasts limit place F (x >>= f) := by
  intro d w more hlen
  have hrest : ∀ {rest : List β}, rest.length ≤ w.length → (rest ++ more).length < limit := by
    intro rest hle
    rw [List.length_append] at hlen ⊢
    exact Nat.lt_of_le_of_lt (Nat.add_le_add_right hle _) hlen
  obtain ⟨hok, herr⟩ := hx d w more hlen
  constructor
  · intro b s hxf
    obtain ⟨a, t, hxt, hft⟩ := bind_eq_ok.mp hxf
    obtain ⟨d', rest, rfl, hle, hmore⟩ := hok a t hxt
    obtain ⟨d'', rest', rfl, hle', hmore'⟩ := (hf a d' rest more (hrest hle)).1 b s hft
    exact ⟨d'', rest', rfl, Nat.le_trans hle' hle, (bind_ok f hmore).trans hmore'⟩
  · intro e hxf he
    rcases hxt : x (place d w) with ⟨e' | a, t⟩
    · rw [bind_error f hxt] at hxf
      cases hxf
      have hmore := herr e (congrArg Prod.fst hxt) he
      rw [bind_error f (Prod.ext hmore rfl : x (place d (w ++ more)) = (.error e, _))]
    · rw [bind_ok f hxt] at hxf
      obtain ⟨d', rest, rfl, hle, hmore⟩ := hok a t hxt
      rw [bind_ok f hmore]
      exact (hf a d' rest more (hrest hle)).2 e hxf he

theorem Lasts.ite {c : Prop} [Decidable c] {x y : Action ε σ α} (hx : Lasts limit place F x)
    (hy : Lasts limit place F y) : Lasts limit place F (if c then x else y) := by
  split
  · exact hx
  · exact hy

theorem lasts_forList {f : τ → Action ε σ Unit} (h : ∀ a, Lasts limit place F (f a)) (l : List τ) :
    Lasts limit place F (forList f l) := by
  induction l with
  | nil => exact lasts_pure ()
  | cons a rest ih => exact (h a).bind fun _ => ih

theorem lasts_forRange {f : Nat → Action ε σ Unit} (h : ∀ i, Lasts limit place F (f i)) (i n : Nat) :
    Lasts limit place F (forRange f i n) := by
  induction n generalizing i with
  | zero => exact lasts_pure ()
  | succ n ih => exact (h i).bind fun _ => ih (i + 1)

/-- A size that is checked: with more letters it is no smaller. -/
theorem lasts_sized {size : Action ε σ Nat} (hsize : ∀ d w, size (place d w) = (.ok w.length, place d w))
    (tooSmall : Nat → Prop) [DecidablePred tooSmall] (hsmall : ∀ m n, m ≤ n → tooSmall n → tooSmall m) {e : ε}
    (he : ¬ F e) {f : Action ε σ α} (hf : Lasts limit place F f) :
    Lasts limit place F (size >>= fun n => if tooSmall n then fail e else f) := by
  intro d w more hlen
  have hle : w.length ≤ (w ++ more).length := (List.sublist_append_left w more).length_le
  rw [bind_ok _ (hsize d w), bind_ok _ (hsize d (w ++ more))]
  by_cases hbad : tooSmall w.length
  · rw [if_pos hbad]
    refine ⟨nofun, fun e' hx he' => ?_⟩
    cases hx
    exact absurd he' he
  · rw [if_neg hbad, if_neg fun h => hbad (hsmall _ _ hle h)]
    exact hf d w more hlen

section Pairs
variable {place : List β → σ}

theorem Lasts.onFst {x : Action ε σ α} (h : Lasts limit (fun _ : Unit => place) F x) :
    Lasts limit (placeFst (τ := τ) place) F (onFst x) := by
  intro d w more hlen
  obtain ⟨hok, herr⟩ := h () w more hlen
  refine ⟨fun a s hx => ?_, herr⟩
  obtain ⟨hfst, hsnd⟩ := onFst_eq_ok.mp hx
  obtain ⟨_, rest, hs, hle, hmore⟩ := hok a s.1 hfst
  exact ⟨d, rest, Prod.ext hs hsnd, hle, onFst_ok hmore d⟩

/-- What is done to the second state alone. -/
theorem lasts_onSnd (x : Action ε τ α) : Lasts limit (placeFst place) F (onSnd (σ := σ) x) := by
  intro d w more _
  refine ⟨fun a s hx => ?_, fun _ hx _ => hx⟩
  obtain ⟨hsnd, hfst⟩ := onSnd_eq_ok.mp hx
  exact ⟨s.2, w, Prod.ext hfst rfl, Nat.le_refl _, onSnd_eq_ok.mpr ⟨hsnd, rfl⟩⟩

theorem Lasts.within {get : ρ → τ} {set : τ → ρ → ρ} {x : Action ε (σ × τ) α} (h : Lasts limit (placeFst place) F x) :
    Lasts limit (placeFst place) F (within get set x) := by
  intro d w more hlen
  obtain ⟨hok, herr⟩ := h (get d) w more hlen
  refine ⟨fun a s hx => ?_, herr⟩
  obtain ⟨v, hv, hs⟩ := within_eq_ok hx
  obtain ⟨v', rest, heq, hle, hmore⟩ := hok a _ hv
  obtain ⟨hfst, rfl⟩ := Prod.mk.inj heq
  exact ⟨set v d, rest, Prod.ext hfst hs, hle, within_ok hmore⟩

theorem fresh_fst_error {init : τ} {x : Action ε (σ × τ) Unit} {s : σ} {e : ε} :
    (fresh init x s).1 = .error e ↔ (x (s, init)).1 = .error e := by
  show ((x (s, init)).1.map fun _ => (x (s, init)).2.2) = _ ↔ _
  cases (x (s, init)).1 with
  | error e' => exact ⟨fun h => by cases h; rfl, fun h => by cases h; rfl⟩
  | ok a => exact ⟨nofun, nofun⟩

theorem Lasts.fresh {init : τ} {x : Action ε (σ × τ) Unit} (h : Lasts limit (placeFst place) F x) :
    Lasts limit (fun _ : Unit => place) F (fresh init x) := by
  intro _ w more hlen
  obtain ⟨hok, herr⟩ := h init w more hlen
  refine ⟨fun v s hx => ?_, fun e hx he => fresh_fst_error.mpr (herr e (fresh_fst_error.mp hx) he)⟩
  obtain ⟨v', rest, heq, hle, hmore⟩ := hok () _ (fresh_eq_ok hx)
  obtain ⟨hfst, rfl⟩ := Prod.mk.inj heq
  exact ⟨(), rest, hfst, hle, fresh_ok hmore⟩

end Pairs
end Lasting

end DeepPack.Library.Action
