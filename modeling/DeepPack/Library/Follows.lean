import DeepPack.Library.Action

/-! Computations that follow a function until something stops them.

`Computes` says that an action does what a function says. An action that works on a
resource of its own may also be stopped where the function goes on; how it is stopped is
then a property of the state it is stopped in. -/
namespace DeepPack.Library.Action

variable {ε σ τ α β : Type} {R : σ → τ → Prop} {Failed Stopped : σ → Prop} {x : Action ε σ α} {s : σ} {t : τ}
  {r : Except ε (α × τ)}

/-- From `s` the action does what `r` says and represents what is left, or it fails where `r` does
or is stopped. -/
def Follows (R : σ → τ → Prop) (Failed Stopped : σ → Prop) (x : Action ε σ α) (s : σ)
    (r : Except ε (α × τ)) : Prop :=
  (∃ a s' t, x s = (.ok a, s') ∧ r = .ok (a, t) ∧ R s' t) ∨
    ∃ e s', x s = (.error e, s') ∧ (r = .error e ∧ Failed s' ∨ Stopped s')

theorem follows_pure (a : α) (h : R s t) : Follows R Failed Stopped (pure a : Action ε σ α) s (.ok (a, t)) :=
  Or.inl ⟨a, s, t, rfl, rfl, h⟩

theorem follows_fail (e : ε) (h : Failed s) : Follows R Failed Stopped (fail e : Action ε σ α) s (.error e) :=
  Or.inr ⟨e, s, rfl, Or.inl ⟨rfl, h⟩⟩

/-- An action that is stopped here and now. -/
theorem follows_stopped {e : ε} {s' : σ} (hx : x s = (.error e, s')) (h : Stopped s') :
    Follows R Failed Stopped x s r :=
  Or.inr ⟨e, s', hx, Or.inr h⟩

theorem Follows.congr (h : Follows R Failed Stopped x s r) {r' : Except ε (α × τ)} (hr : r = r') :
    Follows R Failed Stopped x s r' := hr ▸ h

/-- A step that is known to succeed. -/
theorem Follows.after {a : α} {s' : σ} {y : α → Action ε σ β} {r : Except ε (β × τ)}
    (hx : x s = (.ok a, s')) (hy : Follows R Failed Stopped (y a) s' r) :
    Follows R Failed Stopped (x >>= y) s r := by
  unfold Follows at hy ⊢
  rw [bind_ok y hx]
  exact hy

theorem Follows.bind (hx : Follows R Failed Stopped x s r) {y : α → Action ε σ β}
    {g : α → τ → Except ε (β × τ)}
    (hy : ∀ a s' t, r = .ok (a, t) → R s' t → Follows R Failed Stopped (y a) s' (g a t)) :
    Follows R Failed Stopped (x >>= y) s (r >>= fun p => g p.1 p.2) := by
  rcases hx with ⟨a, s', t, hx, rfl, hs'⟩ | ⟨e, s', hx, ⟨rfl, hfailed⟩ | hstopped⟩
  · exact .after hx (hy a s' t rfl hs')
  · exact Or.inr ⟨e, s', bind_error y hx, Or.inl ⟨rfl, hfailed⟩⟩
  · exact follows_stopped (bind_error y hx) hstopped

/-- Where nothing stops it the action computes the function. -/
theorem Follows.computes (h : Follows R Failed Stopped x s r) (hgo : ∀ s, ¬ Stopped s) : Computes R x s r := by
  rcases h with ⟨a, s', t, hx, rfl, hs'⟩ | ⟨e, s', hx, ⟨rfl, -⟩ | hstopped⟩
  · exact ⟨s', hx, hs'⟩
  · rw [Computes, hx]
  · exact absurd hstopped (hgo s')

/-- What another action computes from another state, if the two come to the same. -/
theorem Computes.of_run {y : Action ε σ α} {s' : σ} (h : Computes R y s' r) (hrun : x s = y s') :
    Computes R x s r := by
  unfold Computes at h ⊢
  rwa [hrun]

/-- An action that computes the function follows it. -/
theorem Computes.follows (h : Computes R x s r) (hfailed : ∀ s, Failed s) : Follows R Failed Stopped x s r := by
  rcases r with e | ⟨a, t⟩
  · rcases hx : x s with ⟨e' | a, s'⟩
    · rw [Computes, hx] at h
      cases h
      exact Or.inr ⟨e, s', hx, Or.inl ⟨rfl, hfailed s'⟩⟩
    · rw [Computes, hx] at h
      cases h
  · obtain ⟨s', hx, hs'⟩ := h
    exact Or.inl ⟨a, s', t, hx, rfl, hs'⟩

end DeepPack.Library.Action
