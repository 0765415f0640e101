import Mathlib.Logic.Function.Iterate
import Mathlib.Data.Finset.Card
import Mathlib.Data.Finset.Range
import Mathlib.Data.Fintype.Card

/-! Loops that run while a condition holds.

What such a loop comes to is read off the states its body passes through. A loop
over a bounded number of states ends within so many rounds or not at all, and that it
never comes to a state is shown by searching backwards from it. -/
namespace DeepPack.Library

section WhileLoop
variable {σ : Type} {cond : σ → Bool} {body : σ → σ} {s t : σ} {n k : Nat}

/-- The loop, for so many rounds: none of them is left for the test that ends it. -/
def whileLoop (cond : σ → Bool) (body : σ → σ) : Nat → σ → Option σ
  | 0, _ => none
  | rounds + 1, s => if cond s then whileLoop cond body rounds (body s) else some s

theorem whileLoop_eq_some :
    whileLoop cond body n s = some t ↔
      ∃ k, k < n ∧ body^[k] s = t ∧ cond t = false ∧ ∀ j, j < k → cond (body^[j] s) = true := by
  induction n generalizing s with
  | zero => simp [whileLoop]
  | succ n ih =>
    rw [whileLoop]
    by_cases hs : cond s = true
    · rw [if_pos hs, ih]
      constructor
      · intro h
        obtain ⟨k, hk, ht, hend, hbefore⟩ := h
        refine ⟨k + 1, by omega, ht, hend, ?_⟩
        intro j hj
        cases j with
        | zero => exact hs
        | succ j => exact hbefore j (by omega)
      · intro h
        obtain ⟨k, hk, ht, hend, hbefore⟩ := h
        cases k with
        | zero =>
          obtain rfl : s = t := ht
          simp [hs] at hend
        | succ k => exact ⟨k, by omega, ht, hend, fun j hj => hbefore (j + 1) (by omega)⟩
    · have hfalse : cond s = false := by simpa using hs
      rw [if_neg hs]
      constructor
      · intro h
        obtain rfl := Option.some.inj h
        exact ⟨0, by omega, rfl, hfalse, fun j hj => by omega⟩
      · intro h
        obtain ⟨k, hk, ht, hend, hbefore⟩ := h
        cases k with
        | zero => exact congrArg some ht
        | succ k => exact absurd (hbefore 0 (by omega)) hs

/-- What the loop returns does not satisfy its condition. -/
theorem whileLoop_exit (h : whileLoop cond body n s = some t) : cond t = false := by
  obtain ⟨-, -, -, hend, -⟩ := whileLoop_eq_some.mp h
  exact hend

/-- What the loop returns is a state the body passes through. -/
theorem whileLoop_iterate (h : whileLoop cond body n s = some t) : ∃ k, body^[k] s = t := by
  obtain ⟨k, -, ht, -, -⟩ := whileLoop_eq_some.mp h
  exact ⟨k, ht⟩

/-- The loop ends at the first state that does not satisfy the condition. -/
theorem whileLoop_of_exit (h : cond (body^[k] s) = false) : ∃ t, whileLoop cond body (k + 1) s = some t := by
  have hex : ∃ k, cond (body^[k] s) = false := ⟨k, h⟩
  refine ⟨_, whileLoop_eq_some.mpr ⟨Nat.find hex, ?_, rfl, Nat.find_spec hex, ?_⟩⟩
  · exact Nat.lt_succ_of_le (Nat.find_min' hex h)
  · intro j hj
    simpa using Nat.find_min hex hj

/-- A condition that always holds keeps the loop going. -/
theorem whileLoop_endless (h : ∀ k, cond (body^[k] s) = true) (n : Nat) : whileLoop cond body n s = none := by
  rw [Option.eq_none_iff_forall_ne_some]
  intro t ht
  obtain ⟨k, -, rfl, hend, -⟩ := whileLoop_eq_some.mp ht
  simp [h k] at hend

/-- More rounds do not change what is returned. -/
theorem whileLoop_mono {m : Nat} (h : whileLoop cond body n s = some t) (hm : n ≤ m) :
    whileLoop cond body m s = some t := by
  obtain ⟨k, hk, hrest⟩ := whileLoop_eq_some.mp h
  exact whileLoop_eq_some.mpr ⟨k, by omega, hrest⟩

end WhileLoop

/-- A loop over the numbers below `bound` has seen all its states after so many rounds. -/
theorem whileLoop_bounded {cond : Nat → Bool} {body : Nat → Nat} {s t n bound : Nat}
    (hbound : ∀ k, body^[k] s < bound) (h : whileLoop cond body n s = some t) :
    whileLoop cond body bound s = some t := by
  obtain ⟨k, -, ht, hend, hbefore⟩ := whileLoop_eq_some.mp h
  refine whileLoop_eq_some.mpr ⟨k, ?_, ht, hend, hbefore⟩
  by_contra hk
  have hle : bound ≤ k := Nat.not_lt.mp hk
  -- two of the states up to the last one are the same
  obtain ⟨i, hi, j, hj, hne, heq⟩ : ∃ i ∈ Finset.range (k + 1), ∃ j ∈ Finset.range (k + 1), i ≠ j ∧
      body^[i] s = body^[j] s := by
    apply Finset.exists_ne_map_eq_of_card_lt_of_maps_to (t := Finset.range bound)
    · simpa using Nat.lt_succ_of_le hle
    · intro i _
      simpa using hbound i
  wlog hij : i < j generalizing i j
  · exact this j hj i hi hne.symm heq.symm (by omega)
  -- so that the last one was passed before
  have hjk : j ≤ k := by simpa [Nat.lt_succ_iff] using hj
  have hearlier : body^[k - j + i] s = t := by
    rw [Function.iterate_add_apply, heq, ← Function.iterate_add_apply, Nat.sub_add_cancel hjk]
    exact ht
  have hcond := hbefore (k - j + i) (by omega)
  simp [hearlier, hend] at hcond

section Backward
variable {σ : Type} {step : σ → σ} {before : σ → List σ} {Inv : σ → Prop} {s : σ} {d k : Nat}

/-- The states from which `d` steps may lead into the list. -/
def ancestors (before : σ → List σ) : Nat → List σ → List σ
  | 0, targets => targets
  | d + 1, targets => ancestors before d (targets.flatMap before)

theorem mem_ancestors (hinv : ∀ s, Inv s → Inv (step s)) (hbefore : ∀ s, Inv s → s ∈ before (step s))
    {targets : List σ} (hs : Inv s) (h : step^[d] s ∈ targets) : s ∈ ancestors before d targets := by
  induction d generalizing targets with
  | zero => exact h
  | succ d ih =>
    apply ih
    rw [Function.iterate_succ_apply'] at h
    apply List.mem_flatMap.mpr
    exact ⟨_, h, hbefore _ (Function.Iterate.rec Inv hs hinv d)⟩

/-- A state without ancestors of some depth is reached early or never. -/
theorem never_reached (hinv : ∀ s, Inv s → Inv (step s)) (hbefore : ∀ s, Inv s → s ∈ before (step s))
    (hs : Inv s) {target : σ} (hnone : ancestors before d [target] = [])
    (hearly : ∀ k, k < d → step^[k] s ≠ target) : step^[k] s ≠ target := by
  rcases Nat.lt_or_ge k d with hk | hk
  · exact hearly k hk
  · intro heq
    have hreach : step^[d] (step^[k - d] s) ∈ [target] := by
      rw [← Function.iterate_add_apply, Nat.add_sub_cancel' hk, heq]
      exact List.mem_singleton.mpr rfl
    have hmem := mem_ancestors hinv hbefore (Function.Iterate.rec Inv hs hinv (k - d)) hreach
    simp [hnone] at hmem

end Backward
end DeepPack.Library
