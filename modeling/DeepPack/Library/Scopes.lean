import Mathlib.Data.List.Basic

/-! Scopes that put back, on leaving, what they changed on entering.

One law about a single scope is owed: leaving what was just entered undoes it. A well
nested run then amounts to having entered the scopes that are still open, in their
order, and nothing else. -/
namespace DeepPack.Library

/-- Entering a scope changes the store and makes a record; leaving takes that record. -/
structure Scoping (σ ε ρ : Type) where
  enter : ε → σ → ρ × σ
  leave : ρ → σ → σ
  leave_enter : ∀ e s, leave (enter e s).1 (enter e s).2 = s

inductive ScopeEvent (ε : Type) where
  | enter (e : ε)
  | leave

section Runs
variable {σ ε ρ : Type} (S : Scoping σ ε ρ)

/-- The scopes open after the events, innermost first. There is none where a scope is left
that was never entered. -/
def openScopes : List (ScopeEvent ε) → List ε → Option (List ε)
  | [], scopes => some scopes
  | .enter e :: events, scopes => openScopes events (e :: scopes)
  | .leave :: _, [] => none
  | .leave :: events, _ :: scopes => openScopes events scopes

/-- The events, on the records of the open scopes and the store. -/
def runScopes : List (ScopeEvent ε) → List ρ × σ → Option (List ρ × σ)
  | [], now => some now
  | .enter e :: events, (records, s) => runScopes events ((S.enter e s).1 :: records, (S.enter e s).2)
  | .leave :: _, ([], _) => none
  | .leave :: events, (record :: records, s) => runScopes events (records, S.leave record s)

/-- Scopes entered one after the other, the outermost first. -/
def enterAll (s : σ) : List ε → List ρ × σ
  | [] => ([], s)
  | e :: scopes =>
    ((S.enter e (enterAll s scopes).2).1 :: (enterAll s scopes).1, (S.enter e (enterAll s scopes).2).2)

@[simp] theorem enterAll_nil (s : σ) : enterAll S s [] = ([], s) := rfl

/-- A run amounts to having entered what is still open. -/
theorem runScopes_enterAll (events : List (ScopeEvent ε)) (s : σ) (scopes : List ε) :
    runScopes S events (enterAll S s scopes) = (openScopes events scopes).map (enterAll S s) := by
  induction events generalizing scopes with
  | nil => simp [runScopes, openScopes]
  | cons event events ih =>
    cases event with
    | enter e =>
      simp only [runScopes, openScopes]
      exact ih (e :: scopes)
    | leave =>
      cases scopes with
      | nil => simp [runScopes, openScopes]
      | cons e scopes =>
        simp only [runScopes, openScopes, enterAll, S.leave_enter]
        exact ih scopes

end Runs
end DeepPack.Library
