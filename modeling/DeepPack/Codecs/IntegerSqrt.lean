import DeepPack.Codecs.PerfectHasher
import DeepPack.Library.Loops
import DeepPack.Library.Search
import DeepPack.Library.Words

/-! The integer square root of the perfect hasher.

A bisection in words of 64 bits, which ends when its bounds meet. They never do for 0, where
they begin the wrong way round, and the square of the first middle for 2^33 - 1 wraps to 0, so
that its root is searched for among numbers that are too large. -/
namespace DeepPack.Detail
open Library

namespace Word

/-- A round of the bisection of `approx_integer_sqrt`, on its bounds `l` and `r`. -/
def sqrtRound (v : UInt64) (s : UInt64 × UInt64) : UInt64 × UInt64 :=
  let mid := (s.1 + s.2) / 2
  if mid * mid ≥ v then (s.1, mid) else (mid + 1, s.2)

/-- The bounds it begins with. -/
def sqrtStart (v : UInt64) : UInt64 × UInt64 :=
  let x := (1 : UInt64) <<< 32
  (1, if v / 2 < x then v else x - 1)

/-- `approx_integer_sqrt`, for so many rounds. -/
def approxIntegerSqrt (rounds : Nat) (v : UInt64) : Option UInt64 :=
  (whileLoop (fun s => s.1 != s.2) (sqrtRound v) rounds (sqrtStart v)).map Prod.snd

example : approxIntegerSqrt 6 10 = some 4 := by decide

end Word

/-! ### The search among the numbers -/

section Numbers
variable {v l r : Nat}

/-- The test of the search. -/
def sqrtTest (v mid : Nat) : Bool := mid * mid % wordLimit ≥ v

theorem approxSqrtSearch_eq_bisect (v l r : Nat) : approxSqrtSearch v l r = bisect (sqrtTest v) l r := by
  fun_induction approxSqrtSearch v l r with
  | case1 l r hlt mid hpass ih =>
    have htest : sqrtTest v ((l + r) / 2) = true := decide_eq_true hpass
    rw [bisect, if_pos hlt, if_pos htest, ih]
  | case2 l r hlt mid hfail ih =>
    have htest : ¬ sqrtTest v ((l + r) / 2) = true := by simpa [sqrtTest] using hfail
    rw [bisect, if_pos hlt, if_neg htest, ih]
  | case3 l r hnot => rw [bisect, if_neg hnot]

/-- As long as no square wraps, the search finds the root. -/
theorem approxSqrtSearch_isLeast (hr : r < 2 ^ 32) (hle : l ≤ r) (hv : v ≤ r * r) :
    IsLeast {q | l ≤ q ∧ v ≤ q * q} (approxSqrtSearch v l r) := by
  have hexact : ∀ m, l ≤ m → m < r → sqrtTest v m = decide (v ≤ m * m) := by
    intro m _ hm
    have hsquare : m * m ≤ (2 ^ 32 - 1) * (2 ^ 32 - 1) := Nat.mul_le_mul (by omega) (by omega)
    rw [sqrtTest, Nat.mod_eq_of_lt (show m * m < 2 ^ 64 by omega)]
  have hleast := bisect_isLeast (p := fun m => decide (v ≤ m * m)) (l := l) (r := r) (by
    intro a b hab ha
    have hmono : a * a ≤ b * b := Nat.mul_le_mul hab hab
    simp only [decide_eq_true_eq] at ha ⊢
    omega) hle (by simpa using hv)
  rw [approxSqrtSearch_eq_bisect, bisect_congr hexact]
  simpa using hleast

/-- A square that does not wrap and is large enough ends the first round with the middle. -/
theorem approxSqrtSearch_lower (hlt : l < r) (hmid : (l + r) / 2 < 2 ^ 32)
    (hv : v ≤ (l + r) / 2 * ((l + r) / 2)) :
    approxSqrtSearch v l r = approxSqrtSearch v l ((l + r) / 2) := by
  have hsquare : (l + r) / 2 * ((l + r) / 2) ≤ (2 ^ 32 - 1) * (2 ^ 32 - 1) :=
    Nat.mul_le_mul (by omega) (by omega)
  have hexact : (l + r) / 2 * ((l + r) / 2) % wordLimit = (l + r) / 2 * ((l + r) / 2) :=
    Nat.mod_eq_of_lt (show (l + r) / 2 * ((l + r) / 2) < 2 ^ 64 by omega)
  rw [approxSqrtSearch.eq_def v l r, if_pos hlt, if_pos (hexact.symm ▸ hv)]

/-- The square of the first middle is 2^64 for 2^33 - 1. -/
theorem lt_approxIntegerSqrt : 2 ^ 32 < approxIntegerSqrt (2 ^ 33 - 1) := by
  have hupper : approxIntegerSqrt (2 ^ 33 - 1) = approxSqrtSearch (2 ^ 33 - 1) (2 ^ 32 + 1) (2 ^ 33 - 1) := by
    have hmid : (1 + (2 ^ 33 - 1)) / 2 + 1 = 2 ^ 32 + 1 := by decide
    rw [approxIntegerSqrt, if_pos (by decide), approxSqrtSearch.eq_def _ 1, if_pos (by decide),
      if_neg (by decide), hmid]
  rw [hupper, approxSqrtSearch_eq_bisect]
  exact (bisect_mem (by decide)).1

theorem approxIntegerSqrt_lt (hpos : 0 < v) : approxIntegerSqrt v < 2 ^ 33 := by
  rw [approxIntegerSqrt, approxSqrtSearch_eq_bisect]
  by_cases hsmall : v / 2 < 2 ^ 32
  · rw [if_pos hsmall]
    have hbounds := bisect_mem (p := sqrtTest v) (show 1 ≤ v by omega)
    omega
  · rw [if_neg hsmall]
    have hbounds := bisect_mem (p := sqrtTest v) (show 1 ≤ 2 ^ 32 - 1 by decide)
    omega

/-- The root is found for all positive numbers up to (2^32 - 1)^2 but 2^33 - 1. -/
theorem approxIntegerSqrt_isLeast_iff (hpos : 0 < v) (hmax : v ≤ (2 ^ 32 - 1) ^ 2) :
    IsLeast {q | 1 ≤ q ∧ v ≤ q * q} (approxIntegerSqrt v) ↔ v ≠ 2 ^ 33 - 1 := by
  constructor
  · rintro hleast rfl
    have hle : approxIntegerSqrt (2 ^ 33 - 1) ≤ 2 ^ 32 := hleast.2 ⟨by decide, by decide⟩
    have hlt := lt_approxIntegerSqrt
    omega
  · intro hne
    have hself : v ≤ v * v := Nat.le_mul_self v
    rw [approxIntegerSqrt]
    by_cases hsmall : v / 2 < 2 ^ 32
    · rw [if_pos hsmall]
      by_cases hword : v < 2 ^ 32
      · exact approxSqrtSearch_isLeast hword hpos hself
      · -- the first middle is a word of 32 bits, and above the root
        have hmid : (1 + v) / 2 < 2 ^ 32 := by omega
        have hsquare : 2 ^ 31 * 2 ^ 31 ≤ (1 + v) / 2 * ((1 + v) / 2) := Nat.mul_le_mul (by omega) (by omega)
        rw [approxSqrtSearch_lower (by omega) hmid (by omega)]
        exact approxSqrtSearch_isLeast hmid (by omega) (by omega)
    · rw [if_neg hsmall]
      exact approxSqrtSearch_isLeast (by decide) (by decide) (by omega)

end Numbers

/-! ### The search in words -/

namespace Word

section Loop
variable {v l r : UInt64} {rounds : Nat}

/-- The bisection comes to the result of the one over numbers, if its bounds are the right way round. -/
theorem sqrtLoop_eq (hle : l.toNat ≤ r.toNat) (hr : r.toNat < 2 ^ 63) (hrounds : r.toNat - l.toNat < rounds) :
    (whileLoop (fun s => s.1 != s.2) (sqrtRound v) rounds (l, r)).map Prod.snd =
      some (UInt64.ofNat (approxSqrtSearch v.toNat l.toNat r.toNat)) := by
  induction rounds generalizing l r with
  | zero => omega
  | succ rounds ih =>
    rw [whileLoop, approxSqrtSearch]
    by_cases hmeet : l = r
    · subst hmeet
      simp
    · have hlt : l.toNat < r.toNat := by
        have hne : l.toNat ≠ r.toNat := fun h => hmeet (UInt64.toNat_inj.mp h)
        omega
      have hmid : ((l + r) / 2).toNat = (l.toNat + r.toNat) / 2 := by
        rw [UInt64.toNat_div, toNat_add_of_lt (by omega)]
        rfl
      have hsquare : (l + r) / 2 * ((l + r) / 2) ≥ v ↔
          (l.toNat + r.toNat) / 2 * ((l.toNat + r.toNat) / 2) % wordLimit ≥ v.toNat := by
        rw [ge_iff_le, UInt64.le_iff_toNat_le, UInt64.toNat_mul, hmid]
      rw [if_pos (by simpa using hmeet), if_pos hlt]
      show (whileLoop _ (sqrtRound v) rounds (if (l + r) / 2 * ((l + r) / 2) ≥ v then (l, (l + r) / 2)
        else ((l + r) / 2 + 1, r))).map Prod.snd = _
      by_cases hpass : (l + r) / 2 * ((l + r) / 2) ≥ v
      · rw [if_pos hpass, if_pos (hsquare.mp hpass), ← hmid]
        exact ih (by omega) (by omega) (by omega)
      · have hnext : ((l + r) / 2 + 1).toNat = (l.toNat + r.toNat) / 2 + 1 := by
          rw [toNat_add_of_lt (show ((l + r) / 2).toNat + 1 < 2 ^ 64 by omega), hmid]
          rfl
        rw [if_neg hpass, if_neg (hsquare.not.mp hpass), ← hnext]
        exact ih (by omega) (by omega) (by omega)

/-- The search in words is the one among the numbers, as long as it does not begin with 0. -/
theorem approxIntegerSqrt_eq (hpos : 0 < v.toNat) (hrounds : 2 ^ 33 ≤ rounds) :
    approxIntegerSqrt rounds v = some (UInt64.ofNat (Detail.approxIntegerSqrt v.toNat)) := by
  have hdiv : v / 2 < (1 : UInt64) <<< (32 : UInt64) ↔ v.toNat / 2 < 2 ^ 32 := by
    rw [UInt64.lt_iff_toNat_lt, UInt64.toNat_div]
    rfl
  rw [approxIntegerSqrt, sqrtStart, Detail.approxIntegerSqrt]
  by_cases hsmall : v.toNat / 2 < 2 ^ 32
  · rw [if_pos (hdiv.mpr hsmall), if_pos hsmall]
    exact sqrtLoop_eq hpos (by omega) (show v.toNat - 1 < rounds by omega)
  · rw [if_neg (hdiv.not.mpr hsmall), if_neg hsmall]
    exact sqrtLoop_eq (by decide) (by decide) (show 2 ^ 32 - 1 - 1 < rounds by omega)

/-- The bounds 1 and 0 stay as they are. -/
theorem approxIntegerSqrt_zero (rounds : Nat) : approxIntegerSqrt rounds 0 = none := by
  have hstays : ∀ k, (sqrtRound 0)^[k] (sqrtStart 0) = (1, 0) := Function.iterate_fixed (by decide)
  rw [approxIntegerSqrt, whileLoop_endless, Option.map_none]
  intro k
  rw [hstays k]
  decide

/-- What the loop returns after however many rounds. -/
theorem approxIntegerSqrt_toNat {result : UInt64} (hpos : 0 < v.toNat)
    (h : approxIntegerSqrt rounds v = some result) :
    result.toNat = Detail.approxIntegerSqrt v.toNat := by
  obtain ⟨s, hs, rfl⟩ := Option.map_eq_some_iff.mp h
  have hlong := whileLoop_mono hs (Nat.le_add_right rounds (2 ^ 33))
  have heq := approxIntegerSqrt_eq hpos (Nat.le_add_left (2 ^ 33) rounds)
  rw [approxIntegerSqrt, hlong, Option.map_some, Option.some_inj] at heq
  have hlt := approxIntegerSqrt_lt hpos
  rw [heq]
  exact UInt64.toNat_ofNat_of_lt' (show Detail.approxIntegerSqrt v.toNat < 2 ^ 64 by omega)

/-- The loop ends with the least number whose square is not smaller, but for 0 and 2^33 - 1. -/
theorem approxIntegerSqrt_exact_iff (hv : v.toNat ≤ (2 ^ 32 - 1) ^ 2) :
    (∃ r, (∃ rounds, approxIntegerSqrt rounds v = some r) ∧
      IsLeast {q | 1 ≤ q ∧ v.toNat ≤ q * q} r.toNat) ↔ v ≠ 0 ∧ v ≠ 0x1ffffffff := by
  have hlarge : v ≠ 0x1ffffffff ↔ v.toNat ≠ 2 ^ 33 - 1 := UInt64.toNat_inj.symm.not
  constructor
  · rintro ⟨r, ⟨rounds, hr⟩, hleast⟩
    have hne : v ≠ 0 := by
      rintro rfl
      rw [approxIntegerSqrt_zero] at hr
      exact absurd hr (by simp)
    have hpos : 0 < v.toNat := Nat.pos_of_ne_zero fun h => hne (UInt64.toNat_inj.mp h)
    rw [approxIntegerSqrt_toNat hpos hr] at hleast
    exact ⟨hne, hlarge.mpr ((approxIntegerSqrt_isLeast_iff hpos hv).mp hleast)⟩
  · rintro ⟨hne, hroot⟩
    have hpos : 0 < v.toNat := Nat.pos_of_ne_zero fun h => hne (UInt64.toNat_inj.mp h)
    have hr := approxIntegerSqrt_eq hpos (le_refl (2 ^ 33))
    refine ⟨_, ⟨2 ^ 33, hr⟩, ?_⟩
    rw [approxIntegerSqrt_toNat hpos hr]
    exact (approxIntegerSqrt_isLeast_iff hpos hv).mpr (hlarge.mp hroot)

theorem approxIntegerSqrt_exact_iff_ten :
    (∃ r, (∃ rounds, approxIntegerSqrt rounds 10 = some r) ∧
      IsLeast {q | 1 ≤ q ∧ (10 : UInt64).toNat ≤ q * q} r.toNat) ↔ (10 : UInt64) ≠ 0 ∧ (10 : UInt64) ≠ 0x1ffffffff :=
  approxIntegerSqrt_exact_iff (by decide)

/-- For 0 the loop does not end, and for 2^33 - 1 it ends with too large a number. -/
theorem approxIntegerSqrt_not_exact : ¬ ∀ v : UInt64, v.toNat ≤ (2 ^ 32 - 1) ^ 2 →
    ∃ r, (∃ rounds, approxIntegerSqrt rounds v = some r) ∧ IsLeast {q | 1 ≤ q ∧ v.toNat ≤ q * q} r.toNat := by
  intro h
  obtain ⟨r, ⟨rounds, hr⟩, -⟩ := h 0 (by decide)
  rw [approxIntegerSqrt_zero] at hr
  exact absurd hr (by simp)

end Loop
end Word
end DeepPack.Detail
