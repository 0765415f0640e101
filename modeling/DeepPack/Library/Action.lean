import Mathlib.Logic.Basic

/-! Computations that read and write a state and may fail.

An `Action` fails with an `ε` and keeps the state the failure was met in, the way
a function that takes its arguments by reference leaves them behind. Sequencing is
the monad's bind; what a sequence does is read off `bind_ok`, `bind_error` and
`bind_eq_ok`. Two computations on different states that cannot be told apart
through a relation are `Agree`ing, and agreement is closed under everything an
action is built from. -/
namespace DeepPack.Library

/-- A computation on a state `σ` with a result in `α` and failures in `ε`. -/
def Action (ε σ α : Type) : Type := σ → Except ε α × σ

namespace Action
variable {ε σ τ ρ α β : Type}

instance : Monad (Action ε σ) where
  pure a := fun s => (.ok a, s)
  bind x f := fun s => match x s with
    | (.ok a, t) => f a t
    | (.error e, t) => (.error e, t)

/-- Fails and changes nothing. -/
def fail (e : ε) : Action ε σ α := fun s => (.error e, s)

/-- Reads something off the state. -/
def gets (f : σ → α) : Action ε σ α := fun s => (.ok (f s), s)

/-- Changes the state. -/
def modify (f : σ → σ) : Action ε σ Unit := fun s => (.ok (), f s)

/-- Runs on the first of two states. -/
def onFst (x : Action ε σ α) : Action ε (σ × τ) α := fun s =>
  ((x s.1).1, ((x s.1).2, s.2))

/-- Runs on the second of two states. -/
def onSnd (x : Action ε τ α) : Action ε (σ × τ) α := fun s =>
  ((x s.2).1, (s.1, (x s.2).2))

/-- Runs on a part of the second of two states: `get` finds it, `set` puts it back. -/
def within (get : ρ → τ) (set : τ → ρ → ρ) (x : Action ε (σ × τ) α) : Action ε (σ × ρ) α := fun s =>
  ((x (s.1, get s.2)).1, ((x (s.1, get s.2)).2.1, set (x (s.1, get s.2)).2.2 s.2))

/-- Runs on a second state of its own, and hands that over. -/
def fresh (init : τ) (x : Action ε (σ × τ) Unit) : Action ε σ τ := fun s =>
  (((x (s, init)).1).map fun _ => (x (s, init)).2.2, (x (s, init)).2.1)

/-- Where the action fails, what it leaves is changed, by the state it started in. -/
def spoiling (f : σ → σ → σ) (x : Action ε σ α) : Action ε σ α := fun s =>
  match x s with
  | (.ok a, t) => (.ok a, t)
  | (.error e, t) => (.error e, f s t)

/-- One action after the other for the members of a list; the first failure ends it. -/
def forList (f : τ → Action ε σ Unit) : List τ → Action ε σ Unit
  | [] => pure ()
  | a :: rest => do
    f a
    forList f rest

/-- One action for each of the `n` indices from `i` on. -/
def forRange (f : Nat → Action ε σ Unit) : Nat → Nat → Action ε σ Unit
  | _, 0 => pure ()
  | i, n + 1 => do
    f i
    forRange f (i + 1) n

/-- A loop that may go on for so many rounds: given enough of them it comes to `r`. -/
def Returns (x : Nat → Action ε σ α) (s : σ) (r : Except ε α × σ) : Prop :=
  ∃ n, ∀ m, n ≤ m → x m s = r

/-! ### What a sequence does -/

@[simp] theorem pure_apply (a : α) (s : σ) : (pure a : Action ε σ α) s = (.ok a, s) := rfl

@[simp] theorem onFst_apply (x : Action ε σ α) (s : σ) (t : τ) :
    onFst x (s, t) = ((x s).1, ((x s).2, t)) := rfl

@[simp] theorem onSnd_apply (x : Action ε τ α) (s : σ) (t : τ) :
    onSnd x (s, t) = ((x t).1, (s, (x t).2)) := rfl

theorem bind_apply (x : Action ε σ α) (f : α → Action ε σ β) (s : σ) :
    (x >>= f) s = match x s with
      | (.ok a, t) => f a t
      | (.error e, t) => (.error e, t) := rfl

theorem bind_ok {x : Action ε σ α} {s t : σ} {a : α} (f : α → Action ε σ β) (h : x s = (.ok a, t)) :
    (x >>= f) s = f a t := by
  rw [bind_apply, h]

theorem bind_error {x : Action ε σ α} {s t : σ} {e : ε} (f : α → Action ε σ β)
    (h : x s = (.error e, t)) : (x >>= f) s = (.error e, t) := by
  rw [bind_apply, h]

@[simp] theorem gets_bind_apply (g : σ → α) (f : α → Action ε σ β) (s : σ) :
    ((gets g : Action ε σ α) >>= f) s = f (g s) s := rfl

/-- A sequence succeeds when both of its parts do. -/
theorem bind_eq_ok {x : Action ε σ α} {f : α → Action ε σ β} {s t : σ} {b : β} :
    (x >>= f) s = (.ok b, t) ↔ ∃ a u, x s = (.ok a, u) ∧ f a u = (.ok b, t) := by
  rw [bind_apply]
  constructor
  · intro h
    rcases hx : x s with ⟨e | a, u⟩
    · rw [hx] at h
      cases h
    · rw [hx] at h
      exact ⟨a, u, rfl, h⟩
  · intro hex
    obtain ⟨a, u, hx, hf⟩ := hex
    rw [hx]
    exact hf

theorem onFst_ok {x : Action ε σ α} {s t : σ} {a : α} (h : x s = (.ok a, t)) (d : τ) :
    onFst x (s, d) = (.ok a, (t, d)) := by
  rw [onFst_apply, h]

theorem onFst_eq_ok {x : Action ε σ α} {s : σ × τ} {t : σ × τ} {a : α} :
    onFst x s = (.ok a, t) ↔ x s.1 = (.ok a, t.1) ∧ t.2 = s.2 := by
  obtain ⟨s, d⟩ := s
  obtain ⟨t, d'⟩ := t
  rcases hx : x s with ⟨e | a', u⟩
  · simp [hx]
  · simp only [onFst_apply, hx, Prod.mk.injEq]
    constructor
    · intro hboth
      obtain ⟨h, ht, rfl⟩ := hboth
      exact ⟨⟨h, ht⟩, rfl⟩
    · intro hboth
      obtain ⟨⟨h, ht⟩, rfl⟩ := hboth
      exact ⟨h, ht, rfl⟩

theorem onSnd_eq_ok {x : Action ε τ α} {s t : σ × τ} {a : α} :
    onSnd x s = (.ok a, t) ↔ x s.2 = (.ok a, t.2) ∧ t.1 = s.1 := by
  obtain ⟨s, d⟩ := s
  obtain ⟨t, d'⟩ := t
  simp only [onSnd_apply, Prod.ext_iff]
  constructor
  · intro hboth
    obtain ⟨h, ht, hd⟩ := hboth
    exact ⟨⟨h, hd⟩, ht.symm⟩
  · intro hboth
    obtain ⟨⟨h, hd⟩, ht⟩ := hboth
    exact ⟨h, ht.symm, hd⟩

theorem within_ok {get : ρ → τ} {set : τ → ρ → ρ} {x : Action ε (σ × τ) α} {s t : σ} {d : ρ} {v : τ} {a : α}
    (h : x (s, get d) = (.ok a, (t, v))) : within get set x (s, d) = (.ok a, (t, set v d)) := by
  simp only [within, h]

theorem within_eq_ok {get : ρ → τ} {set : τ → ρ → ρ} {x : Action ε (σ × τ) α} {s t : σ × ρ} {a : α}
    (h : within get set x s = (.ok a, t)) : ∃ v, x (s.1, get s.2) = (.ok a, (t.1, v)) ∧ t.2 = set v s.2 := by
  rcases hx : x (s.1, get s.2) with ⟨r, u, v⟩
  simp only [within, hx, Prod.ext_iff] at h
  obtain ⟨rfl, rfl, ht⟩ := h
  exact ⟨v, rfl, ht.symm⟩

theorem fresh_ok {init v : τ} {x : Action ε (σ × τ) Unit} {s t : σ} (h : x (s, init) = (.ok (), (t, v))) :
    fresh init x s = (.ok v, t) := by
  rw [fresh, h]
  rfl

theorem fresh_eq_ok {init v : τ} {x : Action ε (σ × τ) Unit} {s t : σ} (h : fresh init x s = (.ok v, t)) :
    x (s, init) = (.ok (), (t, v)) := by
  rcases hx : x (s, init) with ⟨e | _, u, w⟩ <;> rw [fresh, hx] at h <;> cases h
  rfl

theorem spoiling_ok {f : σ → σ → σ} {x : Action ε σ α} {s t : σ} {a : α} (h : x s = (.ok a, t)) :
    spoiling f x s = (.ok a, t) := by
  rw [spoiling, h]

theorem spoiling_error {f : σ → σ → σ} {x : Action ε σ α} {s t : σ} {e : ε} (h : x s = (.error e, t)) :
    spoiling f x s = (.error e, f s t) := by
  rw [spoiling, h]

theorem spoiling_eq_ok {f : σ → σ → σ} {x : Action ε σ α} {s t : σ} {a : α}
    (h : spoiling f x s = (.ok a, t)) : x s = (.ok a, t) := by
  rcases hx : x s with ⟨e | b, u⟩
  · rw [spoiling_error hx] at h
    cases h
  · rw [← h, spoiling_ok hx]

/-! ### Two computations side by side -/

/-- From states related by `P`, both succeed with one result and end in states
related by `Q`, or both fail in one way and end in states related by `E`. -/
def Agree (P Q E : σ → τ → Prop) (x : Action ε σ α) (y : Action ε τ α) : Prop :=
  ∀ s t, P s t → (x s).1 = (y t).1 ∧
    (∀ a, (x s).1 = .ok a → Q (x s).2 (y t).2) ∧ (∀ e, (x s).1 = .error e → E (x s).2 (y t).2)

section Agree
variable {P Q R E : σ → τ → Prop}

theorem Agree.weaken {P' : σ → τ → Prop} {x : Action ε σ α} {y : Action ε τ α}
    (h : Agree P Q E x y) (hp : ∀ s t, P' s t → P s t) : Agree P' Q E x y :=
  fun s t hst => h s t (hp s t hst)

theorem Agree.weakenError {E' : σ → τ → Prop} {x : Action ε σ α} {y : Action ε τ α}
    (h : Agree P Q E x y) (he : ∀ s t, E s t → E' s t) : Agree P Q E' x y :=
  fun s t hst => ⟨(h s t hst).1, (h s t hst).2.1, fun e hx => he _ _ ((h s t hst).2.2 e hx)⟩

theorem agree_pure (a : α) : Agree Q Q E (pure a : Action ε σ α) (pure a : Action ε τ α) :=
  fun _ _ h => ⟨rfl, fun _ _ => h, fun _ he => nomatch he⟩

theorem agree_fail (e : ε) (hE : ∀ s t, P s t → E s t) :
    Agree P Q E (fail e : Action ε σ α) (fail e : Action ε τ α) :=
  fun s t h => ⟨rfl, fun _ ha => (nomatch ha), fun _ _ => hE s t h⟩

theorem agree_gets (f : σ → α) (g : τ → α) (h : ∀ s t, P s t → f s = g t) :
    Agree P P E (gets f : Action ε σ α) (gets g : Action ε τ α) :=
  fun s t hst => ⟨congrArg Except.ok (h s t hst), fun _ _ => hst, fun _ he => nomatch he⟩

theorem Agree.bind {x : Action ε σ α} {y : Action ε τ α} {f : α → Action ε σ β} {g : α → Action ε τ β}
    (hxy : Agree P Q E x y) (hfg : ∀ a, Agree Q R E (f a) (g a)) : Agree P R E (x >>= f) (y >>= g) := by
  intro s t hst
  obtain ⟨hr, hok, herr⟩ := hxy s t hst
  rw [bind_apply, bind_apply]
  rcases hx : x s with ⟨e | a, s'⟩ <;> rcases hy : y t with ⟨e' | a', t'⟩ <;> rw [hx, hy] at hr hok herr
  · cases hr
    exact ⟨rfl, fun _ ha => (nomatch ha), fun _ _ => herr _ rfl⟩
  · cases hr
  · cases hr
  · cases hr
    exact hfg a s' t' (hok a rfl)

theorem Agree.ite {c : Prop} [Decidable c] {x x' : Action ε σ α} {y y' : Action ε τ α}
    (h : Agree P Q E x y) (h' : Agree P Q E x' y') :
    Agree P Q E (if c then x else x') (if c then y else y') := by
  split
  · exact h
  · exact h'

/-- What two failures change has to agree as well. -/
theorem Agree.spoiling {f : σ → σ → σ} {g : τ → τ → τ} {x : Action ε σ α} {y : Action ε τ α}
    (h : Agree P Q E x y)
    (hfg : ∀ s t e s' t', P s t → x s = (.error e, s') → y t = (.error e, t') → E s' t' → E (f s s') (g t t')) :
    Agree P Q E (spoiling f x) (spoiling g y) := by
  intro s t hst
  obtain ⟨hr, hok, herr⟩ := h s t hst
  rcases hx : x s with ⟨e | a, s'⟩ <;> rcases hy : y t with ⟨e' | a', t'⟩ <;> rw [hx, hy] at hr hok herr
  · cases hr
    rw [spoiling_error hx, spoiling_error hy]
    exact ⟨rfl, nofun, fun _ _ => hfg s t e s' t' hst hx hy (herr e rfl)⟩
  · cases hr
  · cases hr
  · cases hr
    rw [spoiling_ok hx, spoiling_ok hy]
    exact ⟨rfl, fun _ _ => hok a rfl, nofun⟩

/-- The states agree in one part and are the same in the other. -/
def Beside (R : σ → τ → Prop) (s : σ × ρ) (t : τ × ρ) : Prop := R s.1 t.1 ∧ s.2 = t.2

theorem Agree.onFst {x : Action ε σ α} {y : Action ε τ α} (h : Agree P Q E x y) :
    Agree (Beside P) (Beside Q) (Beside E) (onFst (τ := ρ) x) (onFst y) := by
  intro p q hpq
  obtain ⟨s, d⟩ := p
  obtain ⟨t, _⟩ := q
  obtain ⟨hst, rfl⟩ := hpq
  obtain ⟨hr, hok, herr⟩ := h s t hst
  exact ⟨hr, fun a ha => ⟨hok a ha, rfl⟩, fun e he => ⟨herr e he, rfl⟩⟩

theorem agree_onSnd (x : Action ε ρ α) :
    Agree (Beside P) (Beside P) (Beside P) (onSnd (σ := σ) x) (onSnd (σ := τ) x) := by
  intro p q hpq
  obtain ⟨s, d⟩ := p
  obtain ⟨t, _⟩ := q
  obtain ⟨hst, rfl⟩ := hpq
  exact ⟨rfl, fun _ _ => ⟨hst, rfl⟩, fun _ _ => ⟨hst, rfl⟩⟩

theorem Agree.within {υ : Type} {get : υ → ρ} {set : ρ → υ → υ} {x : Action ε (σ × ρ) α}
    {y : Action ε (τ × ρ) α} (h : Agree (Beside P) (Beside Q) (Beside E) x y) :
    Agree (Beside P) (Beside Q) (Beside E) (within get set x) (within get set y) := by
  intro p q hpq
  obtain ⟨s, d⟩ := p
  obtain ⟨t, _⟩ := q
  obtain ⟨hst, rfl⟩ := hpq
  obtain ⟨hr, hok, herr⟩ := h (s, get d) (t, get d) ⟨hst, rfl⟩
  exact ⟨hr, fun a ha => ⟨(hok a ha).1, congrArg (set · d) (hok a ha).2⟩,
    fun e he => ⟨(herr e he).1, congrArg (set · d) (herr e he).2⟩⟩

theorem Agree.fresh {init : ρ} {x : Action ε (σ × ρ) Unit} {y : Action ε (τ × ρ) Unit}
    (h : Agree (Beside P) (Beside Q) (Beside E) x y) : Agree P Q E (fresh init x) (fresh init y) := by
  intro s t hst
  obtain ⟨hr, hok, herr⟩ := h (s, init) (t, init) ⟨hst, rfl⟩
  rcases hx : x (s, init) with ⟨e | _, s', d⟩ <;> rcases hy : y (t, init) with ⟨e' | _, t', d'⟩ <;>
    rw [hx, hy] at hr hok herr <;> simp only [Action.fresh, hx, hy]
  · cases hr
    exact ⟨rfl, fun _ ha => (nomatch ha), fun _ _ => (herr _ rfl).1⟩
  · cases hr
  · cases hr
  · obtain ⟨hq, rfl⟩ := hok _ rfl
    exact ⟨rfl, fun _ _ => hq, fun _ he => nomatch he⟩

theorem Agree.forList {f : ρ → Action ε σ Unit} {g : ρ → Action ε τ Unit}
    (h : ∀ a, Agree P P E (f a) (g a)) (l : List ρ) :
    Agree P P E (forList f l) (forList g l) := by
  induction l with
  | nil => exact agree_pure ()
  | cons a rest ih => exact (h a).bind fun _ => ih

theorem Agree.forRange {f : Nat → Action ε σ Unit} {g : Nat → Action ε τ Unit}
    (h : ∀ i, Agree P P E (f i) (g i)) (i n : Nat) :
    Agree P P E (forRange f i n) (forRange g i n) := by
  induction n generalizing i with
  | zero => exact agree_pure ()
  | succ n ih => exact (h i).bind fun _ => ih (i + 1)

end Agree

/-! ### A computation and the function it computes -/

/-- From `s` the action does what `r` says: it succeeds with the same result in a state that
represents what is left, or fails in the same way. -/
def Computes (R : σ → τ → Prop) (x : Action ε σ α) (s : σ) : Except ε (α × τ) → Prop
  | .ok (a, t) => ∃ s', x s = (.ok a, s') ∧ R s' t
  | .error e => (x s).1 = .error e

/-- From every state that represents a `t`, the action does what the function says of `t`. -/
def Simulates (R : σ → τ → Prop) (x : Action ε σ α) (f : τ → Except ε (α × τ)) : Prop :=
  ∀ s t, R s t → Computes R x s (f t)

section Simulates
variable {R : σ → τ → Prop} {x : Action ε σ α} {f : τ → Except ε (α × τ)} {s : σ} {r : Except ε (α × τ)}

theorem Computes.bind (hx : Computes R x s r) {y : α → Action ε σ β} {g : α → τ → Except ε (β × τ)}
    (hy : ∀ a s' t, r = .ok (a, t) → R s' t → Computes R (y a) s' (g a t)) :
    Computes R (x >>= y) s (r >>= fun p => g p.1 p.2) := by
  rcases r with e | ⟨a, t⟩
  · rcases hr : x s with ⟨e' | a, s'⟩ <;> rw [Computes, hr] at hx <;> cases hx
    exact congrArg Prod.fst (bind_error y hr)
  · obtain ⟨s', hs', ht⟩ := hx
    have hya := hy a s' t rfl ht
    show Computes R (x >>= y) s (g a t)
    unfold Computes at hya ⊢
    rw [bind_ok y hs']
    exact hya

theorem Computes.congr (hx : Computes R x s r) {r' : Except ε (α × τ)} (hr : r = r') :
    Computes R x s r' := hr ▸ hx

/-- A step that is known to succeed. -/
theorem Computes.after {a : α} {s' : σ} {y : α → Action ε σ β} {r : Except ε (β × τ)}
    (hx : x s = (.ok a, s')) (hy : Computes R (y a) s' r) : Computes R (x >>= y) s r := by
  unfold Computes at hy ⊢
  rw [bind_ok y hx]
  exact hy

/-- What succeeded was computed. -/
theorem Computes.of_ok (h : Computes R x s r) {s' : σ} {a : α} (hx : x s = (.ok a, s')) :
    ∃ t, r = .ok (a, t) ∧ R s' t := by
  rcases r with e | ⟨b, t⟩
  · rw [Computes, hx] at h
    cases h
  · obtain ⟨s'', hs'', ht⟩ := h
    rw [hx] at hs''
    cases hs''
    exact ⟨t, rfl, ht⟩

/-- The two succeed or fail together, and in the same way. -/
theorem Computes.fst_eq (h : Computes R x s r) : (x s).1 = r.map Prod.fst := by
  rcases r with e | ⟨a, t⟩
  · exact h
  · obtain ⟨s', hs', -⟩ := h
    rw [hs']
    rfl

theorem simulates_pure (a : α) : Simulates R (pure a : Action ε σ α) fun t => .ok (a, t) :=
  fun s _ h => ⟨s, rfl, h⟩

theorem simulates_fail (e : ε) : Simulates R (fail e : Action ε σ α) fun _ => .error e :=
  fun _ _ _ => rfl

theorem Simulates.congr (h : Simulates R x f) {g : τ → Except ε (α × τ)} (hfg : ∀ t, f t = g t) :
    Simulates R x g := by
  rwa [← funext hfg]

theorem Simulates.bind (hx : Simulates R x f) {y : α → Action ε σ β} {g : α → τ → Except ε (β × τ)}
    (hy : ∀ a, Simulates R (y a) (g a)) : Simulates R (x >>= y) fun t => f t >>= fun p => g p.1 p.2 :=
  fun s t hst => (hx s t hst).bind fun a s' t' _ hst' => hy a s' t' hst'

theorem Simulates.ite {c : Prop} [Decidable c] {y : Action ε σ α} {g : τ → Except ε (α × τ)}
    (hx : Simulates R x f) (hy : Simulates R y g) :
    Simulates R (if c then x else y) fun t => if c then f t else g t := by
  split
  · exact hx
  · exact hy

end Simulates

end Action
end DeepPack.Library
