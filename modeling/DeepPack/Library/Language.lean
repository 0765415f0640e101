import DeepPack.Library.Action

/-! Computations that read a word from its front.

`Left s w` says that in state `s` the word `w` is still to be read. An action accepts
a language if all it takes off the front, whenever it succeeds, is a word of it.
Languages concatenate along binds, and a loop accepts its body's language repeated.
The other way about, an action takes a given word if it succeeds wherever that word
stands in front, and words concatenate along binds as well. -/
namespace DeepPack.Library

/-- So many words of a language in a row. -/
def Repeated {β : Type} (E : List β → Prop) (n : Nat) (w : List β) : Prop :=
  ∃ us : List (List β), us.length = n ∧ (∀ u ∈ us, E u) ∧ us.flatten = w

namespace Repeated
variable {β : Type} {E : List β → Prop} {m n : Nat} {u w : List β}

theorem none : Repeated E 0 [] := ⟨[], rfl, nofun, rfl⟩

theorem eq_nil (h : Repeated E 0 w) : w = [] := by
  obtain ⟨us, hlen, -, rfl⟩ := h
  rw [List.eq_nil_of_length_eq_zero hlen]
  rfl

theorem cons (hu : E u) : Repeated E n w → Repeated E (n + 1) (u ++ w) := by
  intro hw
  obtain ⟨us, rfl, hus, rfl⟩ := hw
  refine ⟨u :: us, rfl, ?_, rfl⟩
  intro u' hu'
  rcases List.mem_cons.mp hu' with rfl | hmem
  · exact hu
  · exact hus u' hmem

theorem one (hu : E u) : Repeated E 1 u := by
  have h := cons hu none
  rwa [List.append_nil] at h

theorem uncons (h : Repeated E (n + 1) w) : ∃ u v, w = u ++ v ∧ E u ∧ Repeated E n v := by
  obtain ⟨us, hlen, hus, rfl⟩ := h
  obtain ⟨u, us, rfl⟩ := List.exists_cons_of_length_eq_add_one hlen
  refine ⟨u, us.flatten, rfl, hus u List.mem_cons_self, us, Nat.succ.inj hlen, ?_, rfl⟩
  exact fun u' hu' => hus u' (List.mem_cons_of_mem u hu')

theorem append : Repeated E m u → Repeated E n w → Repeated E (m + n) (u ++ w) := by
  intro hu hw
  obtain ⟨us, rfl, hus, rfl⟩ := hu
  obtain ⟨ws, rfl, hws, rfl⟩ := hw
  refine ⟨us ++ ws, List.length_append, ?_, List.flatten_append⟩
  intro x hx
  exact (List.mem_append.mp hx).elim (hus x) (hws x)

theorem flatMap {α : Type} {l : List α} {word : α → List β} (h : ∀ a ∈ l, E (word a)) :
    Repeated E l.length (l.flatMap word) := by
  refine ⟨l.map word, List.length_map _, ?_, List.flatMap_def.symm⟩
  intro u hu
  obtain ⟨a, ha, rfl⟩ := List.mem_map.mp hu
  exact h a ha

end Repeated

namespace Action
variable {ε σ τ ρ α γ β : Type} {Left : σ → List β → Prop} {L : α → List β → Prop} {M : γ → List β → Prop}

def Accepts (Left : σ → List β → Prop) (L : α → List β → Prop) (x : Action ε σ α) : Prop :=
  ∀ s w, Left s w → ∀ a t, x s = (.ok a, t) → ∃ u rest, w = u ++ rest ∧ Left t rest ∧ L a u

/-- The word is left in the first of two states. -/
def LeftFst (Left : σ → List β → Prop) (s : σ × τ) (w : List β) : Prop := Left s.1 w

theorem accepts_pure {a : α} (h : L a []) : Accepts Left L (pure a : Action ε σ α) := by
  intro s w hw _ _ hx
  cases hx
  exact ⟨[], w, rfl, hw, h⟩

theorem accepts_fail (e : ε) : Accepts Left L (fail e : Action ε σ α) := by
  intro s w hw a t h
  cases h

theorem accepts_gets {f : σ → α} (h : ∀ a, L a []) : Accepts Left L (gets f : Action ε σ α) := by
  intro s w hw _ _ hx
  cases hx
  exact ⟨[], w, rfl, hw, h _⟩

theorem Accepts.mono {L' : α → List β → Prop} {x : Action ε σ α} (hx : Accepts Left L x)
    (h : ∀ a u, L a u → L' a u) : Accepts Left L' x := by
  intro s w hw a t hxs
  obtain ⟨u, rest, hwu, ht, hu⟩ := hx s w hw a t hxs
  exact ⟨u, rest, hwu, ht, h a u hu⟩

theorem Accepts.bind {x : Action ε σ α} {f : α → Action ε σ γ} (hx : Accepts Left L x)
    (hf : ∀ a u, L a u → Accepts Left (fun b w => M b (u ++ w)) (f a)) : Accepts Left M (x >>= f) := by
  intro s w hw b t hxf
  obtain ⟨a, s', hxs, hfs⟩ := bind_eq_ok.mp hxf
  obtain ⟨u, w', rfl, hw', hu⟩ := hx s w hw a s' hxs
  obtain ⟨u', rest, rfl, ht, hu'⟩ := hf a u hu s' w' hw' b t hfs
  exact ⟨u ++ u', rest, (List.append_assoc _ _ _).symm, ht, hu'⟩

/-- An action that takes nothing, before another. -/
theorem Accepts.before {x : Action ε σ α} {f : α → Action ε σ γ} (hx : Accepts Left (fun _ u => u = []) x)
    (hf : ∀ a, Accepts Left M (f a)) : Accepts Left M (x >>= f) := by
  refine hx.bind fun a u hu => ?_
  subst hu
  exact hf a

/-- An action, before one that takes nothing. -/
theorem Accepts.after {E : List β → Prop} {x : Action ε σ α} {f : α → Action ε σ γ}
    (hx : Accepts Left (fun _ => E) x) (hf : ∀ a, Accepts Left (fun _ u => u = []) (f a)) :
    Accepts Left (fun _ => E) (x >>= f) := by
  refine hx.bind fun a u hu => (hf a).mono ?_
  intro _ w hw
  rwa [hw, List.append_nil]

theorem Accepts.ite {c : Prop} [Decidable c] {x y : Action ε σ α} (hx : c → Accepts Left L x)
    (hy : ¬ c → Accepts Left L y) : Accepts Left L (if c then x else y) := by
  split
  · rename_i h
    exact hx h
  · rename_i h
    exact hy h

theorem Accepts.spoiling {f : σ → σ → σ} {x : Action ε σ α} (hx : Accepts Left L x) :
    Accepts Left L (spoiling f x) :=
  fun s w hw a t hxs => hx s w hw a t (spoiling_eq_ok hxs)

theorem Accepts.onFst {x : Action ε σ α} (hx : Accepts Left L x) :
    Accepts (LeftFst Left) L (onFst (τ := τ) x) := by
  intro s w hw a t hxs
  exact hx s.1 w hw a t.1 (onFst_eq_ok.mp hxs).1

theorem accepts_onSnd {x : Action ε τ α} (h : ∀ a, L a []) : Accepts (LeftFst Left) L (onSnd (σ := σ) x) := by
  intro s w hw a t hxs
  refine ⟨[], w, rfl, ?_, h a⟩
  rw [LeftFst, (onSnd_eq_ok.mp hxs).2]
  exact hw

theorem Accepts.within {get : ρ → τ} {set : τ → ρ → ρ} {x : Action ε (σ × τ) α}
    (hx : Accepts (LeftFst Left) L x) : Accepts (LeftFst Left) L (within get set x) := by
  intro s w hw a t hxs
  obtain ⟨v, hv, -⟩ := within_eq_ok hxs
  exact hx _ w hw a _ hv

theorem Accepts.fresh {E : List β → Prop} {init : τ} {x : Action ε (σ × τ) Unit}
    (hx : Accepts (LeftFst Left) (fun _ => E) x) : Accepts Left (fun _ => E) (fresh init x) := by
  intro s w hw v t hxs
  exact hx (s, init) w hw () _ (fresh_eq_ok hxs)

theorem Accepts.forList {E : List β → Prop} {f : τ → Action ε σ Unit} (hf : ∀ a, Accepts Left (fun _ => E) (f a))
    (l : List τ) : Accepts Left (fun _ => Repeated E l.length) (forList f l) := by
  induction l with
  | nil => exact accepts_pure .none
  | cons a rest ih => exact (hf a).bind fun _ _ hu => ih.mono fun _ _ hw => .cons hu hw

theorem Accepts.forRange {E : List β → Prop} {f : Nat → Action ε σ Unit}
    (hf : ∀ i, Accepts Left (fun _ => E) (f i)) (i n : Nat) :
    Accepts Left (fun _ => Repeated E n) (forRange f i n) := by
  induction n generalizing i with
  | zero => exact accepts_pure .none
  | succ n ih => exact (hf i).bind fun _ _ hu => (ih (i + 1)).mono fun _ _ hw => .cons hu hw

/-! ### Taking a given word -/

section Takes
variable {limit need ahead : Nat} {place : ρ → List β → σ} {d d' d'' : ρ} {u v : List β}

/-- The action takes `u` off the front of whatever is left, as long as words are shorter than `limit`
and `ahead` letters at least stand behind `u`, and comes to `a`. On the way it changes `d`, which the
state has beside the word, to `d'`. -/
def TakesAhead (limit : Nat) (place : ρ → List β → σ) (ahead : Nat) (x : Action ε σ α) (u : List β) (a : α)
    (d d' : ρ) : Prop :=
  ∀ w, ahead ≤ w.length → (u ++ w).length < limit → x (place d (u ++ w)) = (.ok a, place d' w)

/-- It does so whatever stands behind. -/
abbrev Takes (limit : Nat) (place : ρ → List β → σ) (x : Action ε σ α) (u : List β) (a : α) (d d' : ρ) : Prop :=
  TakesAhead limit place 0 x u a d d'

theorem takes_pure (a : α) : TakesAhead limit place ahead (pure a : Action ε σ α) [] a d d := fun _ _ _ => rfl

theorem TakesAhead.bindAhead {x : Action ε σ α} {f : α → Action ε σ γ} {a : α} {c : γ}
    (hx : TakesAhead limit place need x u a d d') (hf : TakesAhead limit place ahead (f a) v c d' d'')
    (hneed : need ≤ v.length + ahead) : TakesAhead limit place ahead (x >>= f) (u ++ v) c d d'' := by
  intro w hahead hw
  rw [List.append_assoc] at hw ⊢
  have hvw : need ≤ (v ++ w).length := by
    rw [List.length_append]
    omega
  have hlen : (v ++ w).length ≤ (u ++ (v ++ w)).length := (List.sublist_append_right u (v ++ w)).length_le
  rw [bind_ok f (hx (v ++ w) hvw hw)]
  exact hf w hahead (Nat.lt_of_le_of_lt hlen hw)

theorem TakesAhead.bind {x : Action ε σ α} {f : α → Action ε σ γ} {a : α} {c : γ} (hx : Takes limit place x u a d d')
    (hf : TakesAhead limit place ahead (f a) v c d' d'') : TakesAhead limit place ahead (x >>= f) (u ++ v) c d d'' :=
  TakesAhead.bindAhead hx hf (Nat.zero_le _)

/-- An action that takes nothing, before another. -/
theorem TakesAhead.before {x : Action ε σ α} {f : α → Action ε σ γ} {a : α} {c : γ}
    (hx : Takes limit place x [] a d d') (hf : TakesAhead limit place ahead (f a) u c d' d'') :
    TakesAhead limit place ahead (x >>= f) u c d d'' := hx.bind hf

/-- What is left to do takes nothing. -/
theorem TakesAhead.after {x : Action ε σ α} {f : α → Action ε σ γ} {a : α} {c : γ}
    (hx : Takes limit place x u a d d') (hf : TakesAhead limit place ahead (f a) [] c d' d'') :
    TakesAhead limit place ahead (x >>= f) u c d d'' := by
  have h := hx.bind hf
  rwa [List.append_nil] at h

theorem TakesAhead.ite_pos {c : Prop} [Decidable c] {x y : Action ε σ α} {a : α} (hc : c)
    (hx : TakesAhead limit place ahead x u a d d') :
    TakesAhead limit place ahead (if c then x else y) u a d d' := by
  rwa [if_pos hc]

theorem TakesAhead.ite_neg {c : Prop} [Decidable c] {x y : Action ε σ α} {a : α} (hc : ¬ c)
    (hy : TakesAhead limit place ahead y u a d d') :
    TakesAhead limit place ahead (if c then x else y) u a d d' := by
  rwa [if_neg hc]

theorem TakesAhead.spoiling {f : σ → σ → σ} {x : Action ε σ α} {a : α} (hx : TakesAhead limit place ahead x u a d d') :
    TakesAhead limit place ahead (spoiling f x) u a d d' :=
  fun w hahead hw => spoiling_ok (hx w hahead hw)

/-- A loop over the members of a list takes their words one after the other; `dest` is what the
members so far have made. -/
theorem takes_forList {f : τ → Action ε σ Unit} {word : τ → List β} {l : List τ} (dest : List τ → ρ)
    (h : ∀ pre a post, l = pre ++ a :: post →
      Takes limit place (f a) (word a) () (dest pre) (dest (pre ++ [a]))) :
    Takes limit place (forList f l) (l.flatMap word) () (dest []) (dest l) := by
  suffices hsuffix : ∀ post pre, l = pre ++ post →
      Takes limit place (forList f post) (post.flatMap word) () (dest pre) (dest l) from hsuffix l [] rfl
  intro post
  induction post with
  | nil =>
    intro pre heq
    subst heq
    rw [List.append_nil]
    exact takes_pure ()
  | cons a post ih =>
    intro pre hl
    exact (h pre a post hl).bind (ih (pre ++ [a]) (by rw [hl, List.append_assoc]; rfl))

/-- A loop over indices takes the words of a list's members one after the other. -/
theorem takes_forRange {f : Nat → Action ε σ Unit} {word : τ → List β} {l : List τ} (dest : List τ → ρ)
    (h : ∀ pre a post, l = pre ++ a :: post →
      Takes limit place (f pre.length) (word a) () (dest pre) (dest (pre ++ [a]))) :
    Takes limit place (forRange f 0 l.length) (l.flatMap word) () (dest []) (dest l) := by
  suffices hsuffix : ∀ post pre, l = pre ++ post →
      Takes limit place (forRange f pre.length post.length) (post.flatMap word) () (dest pre) (dest l) from
    hsuffix l [] rfl
  intro post
  induction post with
  | nil =>
    intro pre heq
    subst heq
    rw [List.append_nil]
    exact takes_pure ()
  | cons a post ih =>
    intro pre hl
    have hrest := ih (pre ++ [a]) (by rw [hl, List.append_assoc]; rfl)
    rw [List.length_append, List.length_singleton] at hrest
    exact (h pre a post hl).bind hrest

end Takes

/-- The word is left in the first of two states, beside the second. -/
def placeFst (place : List β → σ) (d : τ) (w : List β) : σ × τ := (place w, d)

section TakesFst
variable {limit ahead : Nat} {place : List β → σ} {u : List β} {a : α}

/-- Actions on the word alone. -/
abbrev TakesWord (limit : Nat) (place : List β → σ) (ahead : Nat) (x : Action ε σ α) (u : List β) (a : α) : Prop :=
  TakesAhead limit (fun _ : Unit => place) ahead x u a () ()

theorem TakesAhead.onFst {x : Action ε σ α} (h : TakesWord limit place ahead x u a) (d : τ) :
    TakesAhead limit (placeFst place) ahead (onFst x) u a d d :=
  fun w hahead hw => onFst_ok (h w hahead hw) d

theorem takes_onSnd {x : Action ε τ α} {d d' : τ} (h : x d = (.ok a, d')) :
    Takes limit (placeFst place) (onSnd x) [] a d d' := by
  intro w _ _
  show onSnd x (place w, d) = _
  rw [onSnd_apply, h]
  rfl

theorem TakesAhead.within {get : ρ → τ} {set : τ → ρ → ρ} {x : Action ε (σ × τ) α} {d : ρ} {v : τ}
    (h : Takes limit (placeFst place) x u a (get d) v) :
    Takes limit (placeFst place) (within get set x) u a d (set v d) :=
  fun w hahead hw => within_ok (h w hahead hw)

theorem TakesAhead.fresh {x : Action ε (σ × τ) Unit} {init v : τ}
    (h : Takes limit (placeFst place) x u () init v) : TakesWord limit place 0 (fresh init x) u v :=
  fun w hahead hw => fresh_ok (h w hahead hw)

end TakesFst

end Action
end DeepPack.Library
