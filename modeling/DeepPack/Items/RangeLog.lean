import DeepPack.Items.Buffering

/-! How a range calls the parser of its elements.

`logged` lets the parser of a range write down with which indices it calls the parser
of its elements, and changes nothing else. -/
namespace DeepPack
open Library InputBuffer

variable {σ δ α : Type}

/-- The parser of elements, with a log of the indices it is called with. -/
def logged (f : Nat → Parse σ δ Unit) (i : Nat) : Parse σ (δ × List Nat) Unit := fun s =>
  ((f i (s.1, s.2.1)).1, ((f i (s.1, s.2.1)).2.1, ((f i (s.1, s.2.1)).2.2, s.2.2 ++ [i])))

section Logged
variable {f : Nat → Parse σ δ Unit}

theorem logged_ok {i : Nat} {s t : InputBuffer σ} {d d' : δ} {l : List Nat} (h : f i (s, d) = (.ok (), (t, d'))) :
    logged f i (s, (d, l)) = (.ok (), (t, (d', l ++ [i]))) := by
  simp only [logged, h]

theorem logged_error {i : Nat} {s t : InputBuffer σ} {d d' : δ} {l : List Nat} {e : Fault}
    (h : f i (s, d) = (.error e, (t, d'))) : logged f i (s, (d, l)) = (.error e, (t, (d', l ++ [i]))) := by
  simp only [logged, h]

theorem log_forRange (n i : Nat) (s : InputBuffer σ) (d : δ) (l : List Nat) :
    ∀ j ∈ (Action.forRange (logged f) i n (s, (d, l))).2.2.2, j ∈ l ∨ j < i + n := by
  induction n generalizing i s d l with
  | zero => exact fun j hj => .inl hj
  | succ n ih =>
    intro j hj
    have hone : j ∈ l ++ [i] → j ∈ l ∨ j < i + (n + 1) := by
      intro hj
      rcases List.mem_append.mp hj with hj | hj
      · exact .inl hj
      · rw [List.mem_singleton.mp hj]
        exact .inr (by omega)
    rw [Action.forRange] at hj
    rcases hf : f i (s, d) with ⟨e | _, u, d'⟩
    · rw [Action.bind_error _ (logged_error hf)] at hj
      exact hone hj
    · rw [Action.bind_ok _ (logged_ok hf)] at hj
      rcases ih (i + 1) u d' (l ++ [i]) j hj with hj | hj
      · exact hone hj
      · exact .inr (by omega)

/-- The same state but for the log. -/
def SameButLog (s : InputBuffer σ × (δ × List Nat)) (t : InputBuffer σ × δ) : Prop := s.1 = t.1 ∧ s.2.1 = t.2

/-- Parsers that differ in nothing but the log. -/
abbrev AgreeButLog (x : Parse σ (δ × List Nat) α) (y : Parse σ δ α) : Prop :=
  Action.Agree SameButLog SameButLog SameButLog x y

theorem agree_onFst_log (x : Input σ α) : AgreeButLog (Action.onFst (τ := δ × List Nat) x) (Action.onFst x) := by
  intro s t h
  obtain ⟨s, d, l⟩ := s
  obtain ⟨t, d'⟩ := t
  obtain ⟨rfl, rfl⟩ := h
  exact ⟨rfl, fun _ _ => ⟨rfl, rfl⟩, fun _ _ => ⟨rfl, rfl⟩⟩

theorem agree_logged (f : Nat → Parse σ δ Unit) (i : Nat) : AgreeButLog (logged f i) (f i) := by
  intro s t h
  obtain ⟨s, d, l⟩ := s
  obtain ⟨t, d'⟩ := t
  obtain ⟨rfl, rfl⟩ := h
  exact ⟨rfl, fun _ _ => ⟨rfl, rfl⟩, fun _ _ => ⟨rfl, rfl⟩⟩

/-- Keeping the log changes nothing about a range. -/
theorem agree_parseArrayLike_log [InputStream σ] (f : Nat → Parse σ δ Unit) (allow : Bool) (maxSize : Nat) (type : TypeCode) :
    AgreeButLog (Detail.parseArrayLike allow maxSize type (logged f)) (Detail.parseArrayLike allow maxSize type f) := by
  have hend : ∀ i x y, AgreeButLog (σ := σ) (δ := δ) x y → AgreeButLog (Detail.endAtBreak i x) (Detail.endAtBreak i y) :=
    fun i x y h => (agree_onFst_log _).bind fun _ =>
      .ite ((agree_onFst_log _).bind fun _ => Action.agree_pure _) h
  have helements : ∀ left i, AgreeButLog (Detail.parseIndefiniteElements maxSize (logged f) left i)
      (Detail.parseIndefiniteElements maxSize f left i) := by
    intro left
    induction left with
    | zero => exact fun i => hend i _ _ (agree_err _)
    | succ left ih =>
      exact fun i => hend i _ _ ((agree_err _).ite ((agree_logged f i).bind fun _ => ih (i + 1)))
  refine (agree_onFst_log _).bind fun head => (agree_err _).ite (.ite (.ite ?_ (agree_err _)) ?_)
  · exact helements _ 0
  · refine (agree_onFst_log _).bind fun _ => (agree_err _).ite ((agree_err _).ite ?_)
    exact (Action.Agree.forRange (agree_logged f) 0 _).bind fun _ => Action.agree_pure _

end Logged

end DeepPack
