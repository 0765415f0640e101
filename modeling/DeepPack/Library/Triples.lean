import DeepPack.Library.Action

/-! Computations by what holds before and after them.

A triple has two conditions for afterwards, one if the action succeeds and one if it
fails. Triples compose along binds and loops; on a pair of states, what is said of the
part an action does not work on is kept. -/
namespace DeepPack.Library.Action
variable {ε σ τ ρ α β : Type}

/-- From a state in `P` the action succeeds in `Q` or fails in `E`. -/
def Triple (P : σ → Prop) (x : Action ε σ α) (Q : α → σ → Prop) (E : ε → σ → Prop) : Prop :=
  ∀ s, P s → (∀ a t, x s = (.ok a, t) → Q a t) ∧ ∀ e t, x s = (.error e, t) → E e t

/-- One thing of the first of two states, another of the second. -/
def Both (P : σ → Prop) (V : τ → Prop) (s : σ × τ) : Prop := P s.1 ∧ V s.2

section Rules
variable {P : σ → Prop} {Q : α → σ → Prop} {R : β → σ → Prop} {E : ε → σ → Prop} {x y : Action ε σ α}

theorem Triple.ok (h : Triple P x Q E) {s t : σ} (hs : P s) {a : α} (hx : x s = (.ok a, t)) : Q a t :=
  (h s hs).1 a t hx

theorem Triple.error (h : Triple P x Q E) {s t : σ} (hs : P s) {e : ε} (hx : x s = (.error e, t)) : E e t :=
  (h s hs).2 e t hx

theorem triple_pure {a : α} (h : ∀ s, P s → Q a s) : Triple P (pure a : Action ε σ α) Q E := by
  intro s hs
  refine ⟨fun _ _ hx => ?_, nofun⟩
  cases hx
  exact h s hs

theorem triple_fail {e : ε} (h : ∀ s, P s → E e s) : Triple P (fail e : Action ε σ α) Q E := by
  intro s hs
  refine ⟨nofun, fun _ _ hx => ?_⟩
  cases hx
  exact h s hs

theorem triple_gets {f : σ → α} (h : ∀ s, P s → Q (f s) s) : Triple P (gets f : Action ε σ α) Q E := by
  intro s hs
  refine ⟨fun _ _ hx => ?_, nofun⟩
  cases hx
  exact h s hs

theorem triple_modify {f : σ → σ} {Q : Unit → σ → Prop} (h : ∀ s, P s → Q () (f s)) :
    Triple P (modify f : Action ε σ Unit) Q E := by
  intro s hs
  refine ⟨fun _ _ hx => ?_, nofun⟩
  cases hx
  exact h s hs

theorem Triple.mono {P' : σ → Prop} {Q' : α → σ → Prop} {E' : ε → σ → Prop} (h : Triple P x Q E)
    (hP : ∀ s, P' s → P s) (hQ : ∀ a s, Q a s → Q' a s) (hE : ∀ e s, E e s → E' e s) : Triple P' x Q' E' :=
  fun s hs => ⟨fun a t hx => hQ a t (h.ok (hP s hs) hx), fun e t hx => hE e t (h.error (hP s hs) hx)⟩

theorem Triple.weaken {P' : σ → Prop} (h : Triple P x Q E) (hP : ∀ s, P' s → P s) : Triple P' x Q E :=
  h.mono hP (fun _ _ hq => hq) fun _ _ he => he

theorem Triple.after {Q' : α → σ → Prop} (h : Triple P x Q E) (hQ : ∀ a s, Q a s → Q' a s) : Triple P x Q' E :=
  h.mono (fun _ hp => hp) hQ fun _ _ he => he

theorem Triple.bind {f : α → Action ε σ β} (hx : Triple P x Q E) (hf : ∀ a, Triple (Q a) (f a) R E) :
    Triple P (x >>= f) R E := by
  intro s hs
  rcases hrun : x s with ⟨e | a, t⟩
  · rw [bind_error f hrun]
    refine ⟨nofun, fun _ _ he => ?_⟩
    cases he
    exact hx.error hs hrun
  · rw [bind_ok f hrun]
    exact hf a t (hx.ok hs hrun)

theorem Triple.ite {c : Prop} [Decidable c] (hx : c → Triple P x Q E) (hy : ¬ c → Triple P y Q E) :
    Triple P (if c then x else y) Q E := by
  split
  · rename_i h
    exact hx h
  · rename_i h
    exact hy h

/-- After a failure the condition is one on what that leaves changed. -/
theorem Triple.spoiling {E' : ε → σ → Prop} {f : σ → σ → σ} (h : Triple P x Q E)
    (hf : ∀ e s t, P s → E e t → E' e (f s t)) : Triple P (spoiling f x) Q E' := by
  intro s hs
  rcases hx : x s with ⟨e | a, t⟩
  · rw [spoiling_error hx]
    refine ⟨nofun, fun _ _ he => ?_⟩
    cases he
    exact hf e s t hs (h.error hs hx)
  · rw [spoiling_ok hx]
    refine ⟨fun _ _ ha => ?_, nofun⟩
    cases ha
    exact h.ok hs hx

/-- A fact that holds before can be taken out. -/
theorem Triple.given {φ : Prop} (h : φ → Triple P x Q E) : Triple (fun s => φ ∧ P s) x Q E :=
  fun s hs => h hs.1 s hs.2

/-- What the two runs are is all that counts. -/
theorem Triple.of_eq (h : Triple P y Q E) (heq : ∀ s, P s → x s = y s) : Triple P x Q E := by
  intro s hs
  rw [heq s hs]
  exact h s hs

theorem Triple.forList {P : σ → Prop} {f : τ → Action ε σ Unit} (h : ∀ a, Triple P (f a) (fun _ => P) E)
    (l : List τ) : Triple P (forList f l) (fun _ => P) E := by
  induction l with
  | nil => exact triple_pure fun _ hs => hs
  | cons a rest ih => exact (h a).bind fun _ => ih

/-- A loop over indices takes what holds at the first index to what holds behind the last. -/
theorem Triple.forRange (Inv : Nat → σ → Prop) {f : Nat → Action ε σ Unit} {i n : Nat}
    (h : ∀ k, i ≤ k → k < i + n → Triple (Inv k) (f k) (fun _ => Inv (k + 1)) E) :
    Triple (Inv i) (forRange f i n) (fun _ => Inv (i + n)) E := by
  induction n generalizing i with
  | zero => exact triple_pure fun _ hs => hs
  | succ n ih =>
    refine (h i (Nat.le_refl i) (by omega)).bind fun _ => ?_
    have hrest := ih (i := i + 1) fun k hle hlt => h k (by omega) (by omega)
    rwa [Nat.add_assoc, Nat.add_comm 1] at hrest

/-- An action agrees with itself on one state. -/
theorem Triple.agree {Q E : σ → Prop} (h : Triple P x (fun _ => Q) fun _ => E) :
    Agree (fun s t => s = t ∧ P s) (fun s t => s = t ∧ Q s) (fun s t => s = t ∧ E s) x x := by
  intro s _ hst
  obtain ⟨rfl, hs⟩ := hst
  exact ⟨rfl, fun a hx => ⟨rfl, h.ok hs (Prod.ext hx rfl)⟩, fun e hx => ⟨rfl, h.error hs (Prod.ext hx rfl)⟩⟩

end Rules

section Pairs
variable {P : σ → Prop} {Q : α → σ → Prop} {E : ε → σ → Prop} {V : τ → Prop}

theorem Triple.onFst {x : Action ε σ α} (h : Triple P x Q E) :
    Triple (Both P V) (onFst x) (fun a => Both (Q a) V) fun e => Both (E e) V := by
  intro p hp
  obtain ⟨s, d⟩ := p
  obtain ⟨hs, hd⟩ := hp
  rcases hrun : x s with ⟨r, t⟩
  rw [onFst_apply, hrun]
  refine ⟨fun a _ hx => ?_, fun e _ hx => ?_⟩
  · cases hx
    exact ⟨h.ok hs hrun, hd⟩
  · cases hx
    exact ⟨h.error hs hrun, hd⟩

theorem Triple.onSnd {W : α → τ → Prop} {F : ε → τ → Prop} {x : Action ε τ α} (h : Triple V x W F) :
    Triple (Both P V) (onSnd x) (fun a => Both P (W a)) fun e => Both P (F e) := by
  intro p hp
  obtain ⟨s, d⟩ := p
  obtain ⟨hs, hd⟩ := hp
  rcases hrun : x d with ⟨r, d'⟩
  rw [onSnd_apply, hrun]
  refine ⟨fun a _ hx => ?_, fun e _ hx => ?_⟩
  · cases hx
    exact ⟨hs, h.ok hd hrun⟩
  · cases hx
    exact ⟨hs, h.error hd hrun⟩

/-- On a part of the second state, the rest of it is as it was. -/
theorem Triple.within {get : ρ → τ} {set : τ → ρ → ρ} {x : Action ε (σ × τ) α} {U : ρ → Prop}
    {Q' : α → σ × τ → Prop} {E' : ε → σ × τ → Prop} (h : Triple (Both P V) x Q' E') (hget : ∀ d, U d → V (get d)) :
    Triple (Both P U) (within get set x) (fun a s => ∃ v d, Q' a (s.1, v) ∧ U d ∧ s.2 = set v d)
      fun e s => ∃ v d, E' e (s.1, v) ∧ U d ∧ s.2 = set v d := by
  intro p hp
  obtain ⟨s, d⟩ := p
  obtain ⟨hs, hd⟩ := hp
  rcases hrun : x (s, get d) with ⟨r, t, v⟩
  have hpart : Both P V (s, get d) := ⟨hs, hget d hd⟩
  simp only [Action.within, hrun]
  refine ⟨fun a _ hx => ?_, fun e _ hx => ?_⟩
  · cases hx
    exact ⟨v, d, h.ok hpart hrun, hd, rfl⟩
  · cases hx
    exact ⟨v, d, h.error hpart hrun, hd, rfl⟩

/-- A second state of its own comes back as the result. -/
theorem Triple.fresh {init : τ} {x : Action ε (σ × τ) Unit} {Q' : Unit → σ × τ → Prop} {E' : ε → σ × τ → Prop}
    (h : Triple (Both P V) x Q' E') (hinit : V init) :
    Triple P (fresh init x) (fun v s => Q' () (s, v)) fun e s => ∃ v, E' e (s, v) := by
  intro s hs
  have hboth : Both P V (s, init) := ⟨hs, hinit⟩
  rcases hrun : x (s, init) with ⟨e | _, t, v⟩ <;> simp only [Action.fresh, hrun]
  · constructor
    · intro _ _ hx
      cases hx
    · intro _ _ hx
      cases hx
      exact ⟨v, h.error hboth hrun⟩
  · constructor
    · intro _ _ hx
      cases hx
      exact h.ok hboth hrun
    · intro _ _ hx
      cases hx

end Pairs

end DeepPack.Library.Action
