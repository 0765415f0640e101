import DeepPack.Library.Locality

/-! Computations carried over to other states.

An action is carried over along a map of states if the other action does on the images
what it does, wherever it succeeds. Where it fails nothing is said of the other one, so
that the other may be the same program on better means. -/
namespace DeepPack.Library.Action
variable {ε σ τ ρ α β : Type} {f : σ → τ}

/-- Wherever `x` succeeds, `y` does on the image: with the same result, and in the image of the state it ends in. -/
def Carries (f : σ → τ) (x : Action ε σ α) (y : Action ε τ α) : Prop :=
  ∀ s a t, x s = (.ok a, t) → y (f s) = (.ok a, f t)

theorem carries_pure (a : α) : Carries f (pure a : Action ε σ α) (pure a) := by
  intro s b t hx
  cases hx
  rfl

theorem Fails.carries {x : Action ε σ α} {y : Action ε τ α} (h : Fails x) : Carries f x y :=
  fun _ _ _ hx => absurd hx (h _ _ _)

theorem carries_fail (e : ε) (y : Action ε τ α) : Carries f (fail e : Action ε σ α) y := (fails_fail e).carries

theorem carries_gets (g : σ → α) (h : τ → α) (hgh : ∀ s, g s = h (f s)) :
    Carries f (gets g : Action ε σ α) (gets h : Action ε τ α) := by
  intro s a t hx
  cases hx
  rw [hgh]
  rfl

theorem Carries.bind {x : Action ε σ α} {y : Action ε τ α} {k : α → Action ε σ β} {l : α → Action ε τ β}
    (hxy : Carries f x y) (hkl : ∀ a, Carries f (k a) (l a)) : Carries f (x >>= k) (y >>= l) := by
  intro s b t hx
  obtain ⟨a, u, hu, hk⟩ := bind_eq_ok.mp hx
  exact bind_eq_ok.mpr ⟨a, f u, hxy s a u hu, hkl a u b t hk⟩

theorem Carries.ite {c : Prop} [Decidable c] {x x' : Action ε σ α} {y y' : Action ε τ α} (h : Carries f x y)
    (h' : Carries f x' y') : Carries f (if c then x else x') (if c then y else y') := by
  split
  · exact h
  · exact h'

/-- What a failure changes does not count. -/
theorem Carries.spoiling {g : σ → σ → σ} {h : τ → τ → τ} {x : Action ε σ α} {y : Action ε τ α} (hxy : Carries f x y) :
    Carries f (spoiling g x) (spoiling h y) :=
  fun s a t hx => spoiling_ok (hxy s a t (spoiling_eq_ok hx))

theorem Carries.forList {g : ρ → Action ε σ Unit} {h : ρ → Action ε τ Unit} (hgh : ∀ a, Carries f (g a) (h a))
    (l : List ρ) : Carries f (forList g l) (forList h l) := by
  induction l with
  | nil => exact carries_pure ()
  | cons a rest ih => exact (hgh a).bind fun _ => ih

theorem Carries.forRange {g : Nat → Action ε σ Unit} {h : Nat → Action ε τ Unit} (hgh : ∀ i, Carries f (g i) (h i))
    (i n : Nat) : Carries f (forRange g i n) (forRange h i n) := by
  induction n generalizing i with
  | zero => exact carries_pure ()
  | succ n ih => exact (hgh i).bind fun _ => ih (i + 1)

/-! ### Two states -/

/-- The other state is left as it is. -/
def mapFst (f : σ → τ) (p : σ × ρ) : τ × ρ := (f p.1, p.2)

theorem Carries.onFst {x : Action ε σ α} {y : Action ε τ α} (h : Carries f x y) :
    Carries (mapFst (ρ := ρ) f) (onFst x) (onFst y) := by
  intro p a q hx
  obtain ⟨hfst, hsnd⟩ := onFst_eq_ok.mp hx
  exact onFst_eq_ok.mpr ⟨h _ _ _ hfst, hsnd⟩

theorem carries_onSnd (x : Action ε ρ α) : Carries (mapFst f) (onSnd (σ := σ) x) (onSnd x) := by
  intro p a q hx
  obtain ⟨hsnd, hfst⟩ := onSnd_eq_ok.mp hx
  exact onSnd_eq_ok.mpr ⟨hsnd, congrArg f hfst⟩

theorem Carries.within {υ : Type} {get : υ → ρ} {set : ρ → υ → υ} {x : Action ε (σ × ρ) α} {y : Action ε (τ × ρ) α}
    (h : Carries (mapFst f) x y) : Carries (mapFst f) (within get set x) (within get set y) := by
  intro p a q hx
  obtain ⟨v, hv, hq⟩ := within_eq_ok hx
  have hy : y (f p.1, get p.2) = (.ok a, (f q.1, v)) := h _ _ _ hv
  exact (within_ok hy).trans (congrArg (fun d => (Except.ok a, (f q.1, d))) hq.symm)

theorem Carries.fresh {init : ρ} {x : Action ε (σ × ρ) Unit} {y : Action ε (τ × ρ) Unit}
    (h : Carries (mapFst f) x y) : Carries f (fresh init x) (fresh init y) :=
  fun _ _ _ hx => fresh_ok (h _ _ _ (fresh_eq_ok hx))

end DeepPack.Library.Action
