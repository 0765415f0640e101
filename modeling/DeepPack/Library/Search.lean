import Mathlib.Order.Bounds.Basic

/-! Searches for the least number that passes a test.

In an increasing list it is the first one, and where all numbers from some point on pass, it
is between two bounds that are moved together. -/
namespace DeepPack.Library

theorem find?_isLeast {l : List Nat} {p : Nat → Bool} {a : Nat} (hl : l.Pairwise (· < ·))
    (h : l.find? p = some a) :
    IsLeast {b | b ∈ l ∧ p b = true} a := by
  induction l with
  | nil => simp at h
  | cons c l ih =>
    obtain ⟨hc, hl⟩ := List.pairwise_cons.mp hl
    rw [List.find?_cons] at h
    split at h
    · rename_i hp
      obtain rfl := Option.some.inj h
      refine ⟨⟨List.mem_cons_self, hp⟩, fun b hb => ?_⟩
      rcases List.mem_cons.mp hb.1 with rfl | hmem
      · exact le_rfl
      · exact (hc b hmem).le
    · rename_i hnot
      have hleast := ih hl h
      refine ⟨⟨List.mem_cons_of_mem _ hleast.1.1, hleast.1.2⟩, fun b hb => ?_⟩
      rcases List.mem_cons.mp hb.1 with rfl | hmem
      · simp [hb.2] at hnot
      · exact hleast.2 ⟨hmem, hb.2⟩

section Bisection
variable {p q : Nat → Bool} {l r : Nat}

/-- One of the bounds comes to the middle: the upper one if it passes, and otherwise the lower one
behind it. -/
def bisect (p : Nat → Bool) (l r : Nat) : Nat :=
  if l < r then
    if p ((l + r) / 2) then bisect p l ((l + r) / 2) else bisect p ((l + r) / 2 + 1) r
  else r
termination_by r - l

theorem bisect_mem (hle : l ≤ r) : l ≤ bisect p l r ∧ bisect p l r ≤ r := by
  fun_induction bisect p l r with
  | case1 l r _ _ ih =>
    have hbounds := ih (by omega)
    omega
  | case2 l r _ _ ih =>
    have hbounds := ih (by omega)
    omega
  | case3 => exact ⟨hle, le_rfl⟩

/-- Only what stands between the bounds is tested. -/
theorem bisect_congr (h : ∀ m, l ≤ m → m < r → p m = q m) : bisect p l r = bisect q l r := by
  fun_induction bisect p l r with
  | case1 l r hlt hpass ih =>
    have hmid := h ((l + r) / 2) (by omega) (by omega)
    rw [bisect.eq_def q l r, if_pos hlt, if_pos (hmid ▸ hpass)]
    exact ih fun m hl hr => h m hl (by omega)
  | case2 l r hlt hfail ih =>
    have hmid := h ((l + r) / 2) (by omega) (by omega)
    rw [bisect.eq_def q l r, if_pos hlt, if_neg (hmid ▸ hfail)]
    exact ih fun m hl hr => h m (by omega) hr
  | case3 l r hnot => rw [bisect.eq_def q l r, if_neg hnot]

/-- A search for the first number from which on all pass finds it. -/
theorem bisect_isLeast (hmono : ∀ a b, a ≤ b → p a = true → p b = true) (hle : l ≤ r) (hr : p r = true) :
    IsLeast {m | l ≤ m ∧ p m = true} (bisect p l r) := by
  fun_induction bisect p l r with
  | case1 l r _ hpass ih => exact ih (by omega) hpass
  | case2 l r hlt hfail ih =>
    have hleast := ih (by omega) hr
    refine ⟨⟨by have hl := hleast.1.1; omega, hleast.1.2⟩, fun m hm => hleast.2 ⟨?_, hm.2⟩⟩
    by_contra hbelow
    exact hfail (hmono m _ (by omega) hm.2)
  | case3 l r hnot => exact ⟨⟨hle, hr⟩, fun m hm => by have hl := hm.1; omega⟩

end Bisection
end DeepPack.Library
