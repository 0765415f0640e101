import Mathlib.Logic.Basic

/-! Runs of a machine that makes one step for each member of a list. -/
namespace DeepPack.Library

section Runs
variable {ι : Type*} {σ : Type} {step : ι → σ → σ} {P Q R : ι → σ → Prop}

/-- `P` holds of every step of the run, and of the state it is made in. -/
def EveryStep (step : ι → σ → σ) (P : ι → σ → Prop) : List ι → σ → Prop
  | [], _ => True
  | i :: rest, s => P i s ∧ EveryStep step P rest (step i s)

/-- The state after the run. -/
def runSteps (step : ι → σ → σ) : List ι → σ → σ
  | [], s => s
  | i :: rest, s => runSteps step rest (step i s)

theorem runSteps_append {s : σ} {steps more : List ι} :
    runSteps step (steps ++ more) s = runSteps step more (runSteps step steps s) := by
  induction steps generalizing s with
  | nil => rfl
  | cons i rest ih => exact ih

theorem everyStep_append {s : σ} {steps more : List ι} :
    EveryStep step P (steps ++ more) s ↔
      EveryStep step P steps s ∧ EveryStep step P more (runSteps step steps s) := by
  induction steps generalizing s with
  | nil => exact ⟨fun h => ⟨trivial, h⟩, fun h => h.2⟩
  | cons i rest ih => exact (and_congr_right fun _ => ih).trans and_assoc.symm

theorem EveryStep.and {s : σ} {steps : List ι} (hP : EveryStep step P steps s)
    (hQ : EveryStep step Q steps s) :
    EveryStep step (fun i s => P i s ∧ Q i s) steps s := by
  induction steps generalizing s with
  | nil => trivial
  | cons i rest ih => exact ⟨⟨hP.1, hQ.1⟩, ih hP.2 hQ.2⟩

/-- An invariant that the steps of the run keep holds at its end. -/
theorem EveryStep.reaches (Inv : σ → Prop) {s : σ} {steps : List ι} (hP : EveryStep step P steps s)
    (hs : Inv s)
    (hkeeps : ∀ i s, Inv s → P i s → Inv (step i s)) : Inv (runSteps step steps s) := by
  induction steps generalizing s with
  | nil => exact hs
  | cons i rest ih => exact ih hP.2 (hkeeps i s hs hP.1)

/-- What the steps of the run do, as long as an invariant is kept by them. -/
theorem EveryStep.of_invariant (Inv : σ → Prop) {s : σ} {steps : List ι} (hP : EveryStep step P steps s) (hs : Inv s)
    (hstep : ∀ i s, Inv s → P i s → Q i s ∧ Inv (step i s)) : EveryStep step Q steps s := by
  induction steps generalizing s with
  | nil => trivial
  | cons i rest ih =>
    obtain ⟨hQ, hnext⟩ := hstep i s hs hP.1
    exact ⟨hQ, ih hP.2 hnext⟩

instance decidableEveryStep [∀ i s, Decidable (P i s)] : ∀ steps s, Decidable (EveryStep step P steps s)
  | [], _ => isTrue trivial
  | i :: rest, s =>
    have := decidableEveryStep rest (step i s)
    inferInstanceAs (Decidable (P i s ∧ EveryStep step P rest (step i s)))

/-- What two conditions on a step have in common, as long as an invariant is kept by one of them. -/
theorem EveryStep.iff_of_invariant (Inv : σ → Prop) {s : σ} {steps : List ι} (hP : EveryStep step P steps s)
    (hs : Inv s)
    (hiff : ∀ i s, Inv s → P i s → (Q i s ↔ R i s)) (hkeeps : ∀ i s, Inv s → P i s → Q i s → Inv (step i s)) :
    EveryStep step Q steps s ↔ EveryStep step R steps s := by
  induction steps generalizing s with
  | nil => exact Iff.rfl
  | cons i rest ih =>
    constructor
    · intro h
      exact ⟨(hiff i s hs hP.1).mp h.1, (ih hP.2 (hkeeps i s hs hP.1 h.1)).mp h.2⟩
    · intro h
      have hQ := (hiff i s hs hP.1).mpr h.1
      exact ⟨hQ, (ih hP.2 (hkeeps i s hs hP.1 hQ)).mpr h.2⟩

end Runs
end DeepPack.Library
