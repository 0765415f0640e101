import DeepPack.Library.Language

/-! Computations that meet a word, or only the beginning of it.

Two words are comparable if one of them starts the other. An action takes a word whole
if on everything comparable with it, and with what stands behind it, the action takes
just the word or fails in a way `Gives` allows; so it never succeeds where the word was
cut short. Words concatenate along binds, and a loop takes what its body takes in a row. -/
namespace DeepPack.Library

/-- One of the two starts with the other. -/
def Comparable {β : Type} (u b : List β) : Prop := u <+: b ∨ b <+: u

namespace Comparable
variable {β : Type} {u v w b : List β}

theorem nil : Comparable [] b := .inl List.nil_prefix

theorem left (h : Comparable (u ++ v) b) : Comparable u b := by
  rcases h with hle | hge
  · exact .inl ((List.prefix_append u v).trans hle)
  · exact List.prefix_or_prefix_of_prefix (List.prefix_append u v) hge

theorem rest (h : Comparable (u ++ v) (u ++ w)) : Comparable v w := by
  rcases h with hle | hge
  · exact .inl ((List.prefix_append_right_inj u).mp hle)
  · exact .inr ((List.prefix_append_right_inj u).mp hge)

theorem tail {a c : β} (h : Comparable (a :: u) (c :: b)) : c = a ∧ Comparable u b := by
  rcases h with hle | hge
  · obtain ⟨hac, hub⟩ := List.cons_prefix_cons.mp hle
    exact ⟨hac.symm, .inl hub⟩
  · obtain ⟨hca, hbu⟩ := List.cons_prefix_cons.mp hge
    exact ⟨hca, .inr hbu⟩

/-- What is as long as the word starts with it. -/
theorem exists_append (h : Comparable u b) (hlen : u.length ≤ b.length) : ∃ w, b = u ++ w := by
  rcases h with hle | hge
  · obtain ⟨w, rfl⟩ := hle
    exact ⟨w, rfl⟩
  · exact ⟨[], by rw [hge.eq_of_length_le hlen, List.append_nil]⟩

end Comparable

namespace Action
variable {ε σ τ ρ α γ β : Type} {Left : σ → List β → Prop} {Gives : ε → Prop} {P : α → Prop} {Q : γ → Prop}
  {u v behind : List β}

/-- The action takes `u`, all of it, with a result in `P`, or fails in a way that `Gives` allows, where
`u` and what is `behind` it are to be read, or their beginning. -/
def TakesWhole (Left : σ → List β → Prop) (Gives : ε → Prop) (behind : List β) (P : α → Prop) (x : Action ε σ α)
    (u : List β) : Prop :=
  ∀ s b, Left s b → Comparable (u ++ behind) b →
    (∃ a t w, x s = (.ok a, t) ∧ b = u ++ w ∧ Left t w ∧ P a) ∨ ∃ e t, x s = (.error e, t) ∧ Gives e

/-- The word was cut short. -/
theorem TakesWhole.fails {x : Action ε σ α} (h : TakesWhole Left Gives behind P x u) {s : σ} {b : List β} (hs : Left s b)
    (hb : b <+: u) (hne : b ≠ u) : ∃ e t, x s = (.error e, t) ∧ Gives e := by
  rcases h s b hs (.inr (hb.trans (List.prefix_append u behind))) with ⟨a, t, w, -, rfl, -, -⟩ | hfail
  · exact absurd (hb.eq_of_length_le (List.length_append ▸ Nat.le_add_right _ _)) hne
  · exact hfail

theorem whole_pure {a : α} (ha : P a) : TakesWhole Left Gives behind P (pure a : Action ε σ α) [] :=
  fun s b hs _ => .inl ⟨a, s, b, rfl, rfl, hs, ha⟩

theorem whole_fail {e : ε} (he : Gives e) : TakesWhole Left Gives behind P (fail e : Action ε σ α) u :=
  fun s _ _ _ => .inr ⟨e, s, rfl, he⟩

theorem whole_gets {f : σ → α} (hf : ∀ s, P (f s)) : TakesWhole Left Gives behind P (gets f : Action ε σ α) [] :=
  fun s b hs _ => .inl ⟨f s, s, b, rfl, rfl, hs, hf s⟩

/-- Not all that stands behind need be known. -/
theorem TakesWhole.further {x : Action ε σ α} (hx : TakesWhole Left Gives v P x u) :
    TakesWhole Left Gives (v ++ behind) P x u := by
  intro s b hs hb
  rw [← List.append_assoc] at hb
  exact hx s b hs hb.left

theorem TakesWhole.alone {x : Action ε σ α} (hx : TakesWhole Left Gives [] P x u) :
    TakesWhole Left Gives behind P x u := hx.further

theorem TakesWhole.mono {P' : α → Prop} {x : Action ε σ α} (hx : TakesWhole Left Gives behind P x u)
    (h : ∀ a, P a → P' a) : TakesWhole Left Gives behind P' x u := by
  intro s b hs hb
  rcases hx s b hs hb with ⟨a, t, w, ht, hw, hleft, ha⟩ | hfail
  · exact .inl ⟨a, t, w, ht, hw, hleft, h a ha⟩
  · exact .inr hfail

theorem TakesWhole.bind {x : Action ε σ α} {f : α → Action ε σ γ} (hx : TakesWhole Left Gives (v ++ behind) P x u)
    (hf : ∀ a, P a → TakesWhole Left Gives behind Q (f a) v) : TakesWhole Left Gives behind Q (x >>= f) (u ++ v) := by
  intro s b hs hb
  rw [List.append_assoc] at hb
  rcases hx s b hs hb with ⟨a, t, w, ht, rfl, hleft, ha⟩ | ⟨e, t, ht, he⟩
  · rw [bind_ok f ht]
    rcases hf a ha t w hleft hb.rest with ⟨c, t', w', ht', rfl, hleft', hc⟩ | hfail
    · exact .inl ⟨c, t', w', ht', (List.append_assoc _ _ _).symm, hleft', hc⟩
    · exact .inr hfail
  · exact .inr ⟨e, t, bind_error f ht, he⟩

/-- An action that takes nothing, before another. -/
theorem TakesWhole.before {x : Action ε σ α} {f : α → Action ε σ γ} (hx : TakesWhole Left Gives (u ++ behind) P x [])
    (hf : ∀ a, P a → TakesWhole Left Gives behind Q (f a) u) : TakesWhole Left Gives behind Q (x >>= f) u := hx.bind hf

/-- An action, before one that takes nothing. -/
theorem TakesWhole.after {x : Action ε σ α} {f : α → Action ε σ γ} (hx : TakesWhole Left Gives behind P x u)
    (hf : ∀ a, P a → TakesWhole Left Gives behind Q (f a) []) : TakesWhole Left Gives behind Q (x >>= f) u := by
  have h := hx.bind hf
  rwa [List.append_nil] at h

theorem TakesWhole.ite {c : Prop} [Decidable c] {x y : Action ε σ α} (hx : c → TakesWhole Left Gives behind P x u)
    (hy : ¬ c → TakesWhole Left Gives behind P y u) : TakesWhole Left Gives behind P (if c then x else y) u := by
  split
  · rename_i h
    exact hx h
  · rename_i h
    exact hy h

theorem TakesWhole.spoiling {f : σ → σ → σ} {x : Action ε σ α} (hx : TakesWhole Left Gives behind P x u) :
    TakesWhole Left Gives behind P (spoiling f x) u := by
  intro s b hs hb
  rcases hx s b hs hb with ⟨a, t, w, ht, hw⟩ | ⟨e, t, ht, he⟩
  · exact .inl ⟨a, t, w, spoiling_ok ht, hw⟩
  · exact .inr ⟨e, f s t, spoiling_error ht, he⟩

theorem TakesWhole.onFst {x : Action ε σ α} (hx : TakesWhole Left Gives behind P x u) :
    TakesWhole (LeftFst Left) Gives behind P (onFst (τ := τ) x) u := by
  intro s b hs hb
  rcases hx s.1 b hs hb with ⟨a, t, w, ht, hw, hleft, ha⟩ | ⟨e, t, ht, he⟩
  · exact .inl ⟨a, (t, s.2), w, onFst_ok ht s.2, hw, hleft, ha⟩
  · exact .inr ⟨e, (t, s.2), by rw [Action.onFst, ht], he⟩

/-- What happens beside the word. -/
theorem whole_onSnd {x : Action ε τ α}
    (h : ∀ d, (∃ a t, x d = (.ok a, t) ∧ P a) ∨ ∃ e t, x d = (.error e, t) ∧ Gives e) :
    TakesWhole (LeftFst Left) Gives behind P (onSnd (σ := σ) x) [] := by
  intro s b hs _
  rcases h s.2 with ⟨a, t, ht, ha⟩ | ⟨e, t, ht, he⟩
  · exact .inl ⟨a, (s.1, t), b, by rw [onSnd, ht], rfl, hs, ha⟩
  · exact .inr ⟨e, (s.1, t), by rw [onSnd, ht], he⟩

theorem TakesWhole.within {get : ρ → τ} {set : τ → ρ → ρ} {x : Action ε (σ × τ) α}
    (hx : TakesWhole (LeftFst Left) Gives behind P x u) : TakesWhole (LeftFst Left) Gives behind P (within get set x) u := by
  intro s b hs hb
  rcases hx (s.1, get s.2) b hs hb with ⟨a, t, w, ht, hw, hleft, ha⟩ | ⟨e, t, ht, he⟩
  · exact .inl ⟨a, (t.1, set t.2 s.2), w, within_ok ht, hw, hleft, ha⟩
  · exact .inr ⟨e, (t.1, set t.2 s.2), by rw [Action.within, ht], he⟩

theorem TakesWhole.fresh {init : τ} {x : Action ε (σ × τ) Unit}
    (hx : TakesWhole (LeftFst Left) Gives behind (fun _ => True) x u) :
    TakesWhole Left Gives behind (fun _ => True) (fresh init x) u := by
  intro s b hs hb
  rcases hx (s, init) b hs hb with ⟨a, t, w, ht, hw, hleft, -⟩ | ⟨e, t, ht, he⟩
  · exact .inl ⟨t.2, t.1, w, fresh_ok ht, hw, hleft, trivial⟩
  · exact .inr ⟨e, t.1, by rw [Action.fresh, ht]; rfl, he⟩

theorem whole_forList {E : List β → Prop} {f : τ → Action ε σ Unit}
    (hf : ∀ a u, E u → TakesWhole Left Gives [] (fun _ => True) (f a) u) (l : List τ) (h : Repeated E l.length u) :
    TakesWhole Left Gives behind (fun _ => True) (forList f l) u := by
  obtain ⟨us, hlen, hus, rfl⟩ := h
  induction us generalizing l with
  | nil =>
    obtain rfl := List.eq_nil_of_length_eq_zero hlen.symm
    exact whole_pure trivial
  | cons u us ih =>
    obtain ⟨a, l, rfl⟩ := List.exists_cons_of_length_eq_add_one hlen.symm
    exact (hf a u (hus u List.mem_cons_self)).alone.bind fun _ _ =>
      ih l (Nat.succ.inj hlen) fun u' hu' => hus u' (List.mem_cons_of_mem u hu')

theorem whole_forRange {E : List β → Prop} {f : Nat → Action ε σ Unit} {i n : Nat}
    (hf : ∀ j u, j < i + n → E u → TakesWhole Left Gives [] (fun _ => True) (f j) u) (h : Repeated E n u) :
    TakesWhole Left Gives behind (fun _ => True) (forRange f i n) u := by
  obtain ⟨us, rfl, hus, rfl⟩ := h
  induction us generalizing i with
  | nil => exact whole_pure trivial
  | cons u us ih =>
    refine (hf i u (Nat.lt_add_of_pos_right (Nat.succ_pos _)) (hus u List.mem_cons_self)).alone.bind fun _ _ => ?_
    refine ih (fun j u' hj => hf j u' ?_) fun u' hu' => hus u' (List.mem_cons_of_mem u hu')
    rw [List.length_cons]
    omega

end Action
end DeepPack.Library
