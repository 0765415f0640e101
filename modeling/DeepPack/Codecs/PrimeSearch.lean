import DeepPack.Codecs.PerfectHasher
import DeepPack.Library.Search
import DeepPack.Library.Words
import Mathlib.NumberTheory.Bertrand

/-! The primes of the perfect hasher.

Numbers not divisible by 2 and 3 are next to a multiple of 6, and the smallest divisor of a
number that is no prime is one of those whose square is not larger. The search is done in
words of 64 bits; a prime is found before these overflow. -/
namespace DeepPack.Detail
open Library

/-! ### Numbers -/

section Numbers
variable {i divisor q : Nat}

/-- The loop's bound is a square. -/
theorem square_pred (hdivisor : 2 ≤ divisor) :
    divisor * divisor - 2 * divisor + 1 = (divisor - 1) * (divisor - 1) := by
  obtain ⟨d, rfl⟩ := Nat.exists_eq_add_of_le' hdivisor
  have hsquare : (d + 2) * (d + 2) = (d + 1) * (d + 1) + 2 * d + 3 := by ring
  have hpred : d + 2 - 1 = d + 1 := rfl
  have hpos : 0 < (d + 1) * (d + 1) := Nat.mul_pos (by omega) (by omega)
  rw [hsquare, hpred]
  omega

/-- What the loop has let pass has no divisor of the form it tries. -/
theorem not_dvd_of_divisorSearch (h : divisorSearch i divisor = true) (hdivisor : divisor % 6 = 0)
    (hpos : 0 < divisor)
    (hq : q % 6 = 1 ∨ q % 6 = 5) (hle : divisor ≤ q + 1) (hsquare : q * q ≤ i) : ¬ q ∣ i := by
  fun_induction divisorSearch i divisor with
  | case1 => exact absurd h (by decide)
  | case2 divisor _ hnone ih =>
    by_cases hnext : divisor + 6 ≤ q + 1
    · exact ih h (by omega) (by omega) hnext
    · intro hdvd
      have hmod := Nat.mod_eq_zero_of_dvd hdvd
      have hnear : q = divisor - 1 ∨ q = divisor + 1 := by omega
      rcases hnear with rfl | rfl
      · exact hnone (.inl hmod)
      · exact hnone (.inr hmod)
  | case3 divisor hend =>
    rw [square_pred (by omega)] at hend
    have hmono : (divisor - 1) * (divisor - 1) ≤ q * q := Nat.mul_le_mul (by omega) (by omega)
    omega

theorem isPrime_iff (h3 : 3 < i) : isPrime i = true ↔ i.Prime := by
  refine ⟨fun h => ?_, fun hi => isPrime_prime hi h3⟩
  have h23 : ¬ (i % 2 = 0 ∨ i % 3 = 0) := by
    intro hdvd
    rw [isPrime, if_pos hdvd] at h
    exact absurd h (by decide)
  rw [isPrime, if_neg h23] at h
  by_contra hi
  have hdvd : i.minFac ∣ i := Nat.minFac_dvd i
  have hsquare : i.minFac * i.minFac ≤ i := by
    rw [← pow_two]
    exact Nat.minFac_sq_le_self (by omega) hi
  have htwo : 2 ≤ i.minFac := (Nat.minFac_prime (by omega)).two_le
  have hcoprime : i.minFac % 2 ≠ 0 ∧ i.minFac % 3 ≠ 0 := by
    constructor
    · exact fun h2 => h23 (.inl (Nat.mod_eq_zero_of_dvd ((Nat.dvd_of_mod_eq_zero h2).trans hdvd)))
    · exact fun h3 => h23 (.inr (Nat.mod_eq_zero_of_dvd ((Nat.dvd_of_mod_eq_zero h3).trans hdvd)))
  exact not_dvd_of_divisorSearch h rfl (by decide) (by omega) (by omega) hsquare hdvd

/-- The table has all primes there are up to its last entry. -/
theorem mem_smallPrimes_iff (hq : q ≤ 53) : q ∈ smallPrimes ↔ q.Prime := by
  interval_cases q <;> norm_num [smallPrimes]

/-- The search starts at the next odd number. -/
theorem or_one_eq (i : Nat) : i ||| 1 = 2 * (i / 2) + 1 := by
  have hhalf : (i ||| 1) / 2 = i / 2 := by rw [Nat.or_div_two, Nat.or_zero]
  have hodd : (i ||| 1) % 2 = 1 := by simp
  omega

/-- The result is in the table, or the first number behind it that passes the test. -/
theorem nextPrime_cases (i : Nat) :
    (∃ p, smallPrimes.find? (fun p => i ≤ p) = some p ∧ nextPrime i = p) ∨
      (smallPrimes.find? (fun p => i ≤ p) = none ∧ ∃ k, nextPrime i = (i ||| 1) + 2 * k ∧
        isPrime ((i ||| 1) + 2 * k) = true ∧ ∀ m, m < k → isPrime ((i ||| 1) + 2 * m) = false) := by
  rw [nextPrime]
  rcases hfind : smallPrimes.find? fun p => i ≤ p with - | p
  · refine .inr ⟨rfl, Nat.find (exists_isPrime i), rfl, Nat.find_spec (exists_isPrime i), ?_⟩
    intro m hm
    simpa using Nat.find_min (exists_isPrime i) hm
  · exact .inl ⟨p, rfl, rfl⟩

theorem nextPrime_isLeast (i : Nat) : IsLeast {q | q.Prime ∧ i ≤ q} (nextPrime i) := by
  rcases nextPrime_cases i with ⟨p, hfind, heq⟩ | ⟨hnone, k, heq, hfound, hbefore⟩
  · have hmem := List.mem_of_find?_eq_some hfind
    have hle : i ≤ p := by simpa using List.find?_some hfind
    have hlast : p ≤ 53 := (show ∀ p ∈ smallPrimes, p ≤ 53 by decide) p hmem
    rw [heq]
    refine ⟨⟨(mem_smallPrimes_iff hlast).mp hmem, hle⟩, fun q hq => ?_⟩
    rcases Nat.le_total q 53 with hq53 | hq53
    · exact (find?_isLeast (by decide) hfind).2 ⟨(mem_smallPrimes_iff hq53).mpr hq.1, by simpa using hq.2⟩
    · exact hlast.trans hq53
  · have hlarge : 53 < i := by simpa using List.find?_eq_none.mp hnone 53 (by decide)
    have hstart := or_one_eq i
    rw [heq]
    refine ⟨⟨(isPrime_iff (by omega)).mp hfound, by omega⟩, fun q hq => ?_⟩
    obtain ⟨hprime, hle⟩ := hq
    have hodd : q % 2 = 1 := hprime.eq_two_or_odd.resolve_left (by omega)
    obtain ⟨m, hm⟩ : ∃ m, q = (i ||| 1) + 2 * m := ⟨(q - (i ||| 1)) / 2, by omega⟩
    by_contra hbelow
    have hnot := hbefore m (by omega)
    rw [← hm, isPrime_prime hprime (by omega)] at hnot
    exact absurd hnot (by decide)

/-- There is a prime between a number and its double. -/
theorem nextPrime_le {bound : Nat} (hi : i ≤ bound) (hbound : 0 < bound) : nextPrime i ≤ 2 * bound := by
  obtain ⟨p, hp, hlt, hle⟩ := Nat.exists_prime_lt_and_le_two_mul bound (by omega)
  exact ((nextPrime_isLeast i).2 ⟨hp, by omega⟩).trans hle

end Numbers

/-! ### Words -/

namespace Word

/-- The loop of `is_prime`, for so many divisors. -/
def divisorLoop (i : UInt64) : Nat → UInt64 → Option Bool
  | 0, _ => none
  | rounds + 1, divisor =>
    if divisor * divisor - 2 * divisor + 1 ≤ i then
      if i % (divisor - 1) = 0 ∨ i % (divisor + 1) = 0 then some false else divisorLoop i rounds (divisor + 6)
    else some true

def isPrime (rounds : Nat) (i : UInt64) : Option Bool :=
  if i % 2 = 0 ∨ i % 3 = 0 then some false else divisorLoop i rounds 6

/-- The loop of `next_prime`, for so many numbers. -/
def primeLoop (rounds : Nat) : Nat → UInt64 → Option UInt64
  | 0, _ => none
  | tries + 1, j =>
    match isPrime rounds j with
    | none => none
    | some true => some j
    | some false => primeLoop rounds tries (j + 2)

def nextPrime (rounds : Nat) (i : UInt64) : Option UInt64 :=
  match smallPrimes.find? fun p => i ≤ UInt64.ofNat p with
  | some p => some (UInt64.ofNat p)
  | none => primeLoop rounds rounds (i ||| 1)

/-- The divisors with which the loop of `is_prime` evaluates its condition. -/
inductive Visited (i : UInt64) : UInt64 → Prop where
  | first : ¬ (i % 2 = 0 ∨ i % 3 = 0) → Visited i 6
  | next {divisor : UInt64} : Visited i divisor → divisor * divisor - 2 * divisor + 1 ≤ i →
      ¬ (i % (divisor - 1) = 0 ∨ i % (divisor + 1) = 0) → Visited i (divisor + 6)

/-- What a round computes, and where the next one begins, is what it is among the numbers. -/
structure Exact (divisor : UInt64) : Prop where
  square : (divisor * divisor).toNat = divisor.toNat * divisor.toNat
  double : (2 * divisor).toNat = 2 * divisor.toNat
  difference : (divisor * divisor - 2 * divisor).toNat = divisor.toNat * divisor.toNat - 2 * divisor.toNat
  nonneg : 2 * divisor.toNat ≤ divisor.toNat * divisor.toNat
  bound : (divisor * divisor - 2 * divisor + 1).toNat = divisor.toNat * divisor.toNat - 2 * divisor.toNat + 1
  below : (divisor - 1).toNat + 1 = divisor.toNat
  above : (divisor + 1).toNat = divisor.toNat + 1
  next : (divisor + 6).toNat = divisor.toNat + 6

section Loops
variable {i j divisor : UInt64} {rounds tries : Nat}

theorem exact_of_lt (hmin : 2 ≤ divisor.toNat) (hmax : divisor.toNat < 2 ^ 32) : Exact divisor := by
  have hsquare : divisor.toNat * divisor.toNat ≤ (2 ^ 32 - 1) * (2 ^ 32 - 1) :=
    Nat.mul_le_mul (by omega) (by omega)
  have hdouble : 2 * divisor.toNat ≤ divisor.toNat * divisor.toNat := Nat.mul_le_mul_right _ hmin
  have hmul : (divisor * divisor).toNat = divisor.toNat * divisor.toNat := by
    rw [UInt64.toNat_mul]
    exact Nat.mod_eq_of_lt (by omega)
  have htwo : (2 * divisor).toNat = 2 * divisor.toNat := by
    rw [UInt64.toNat_mul]
    exact Nat.mod_eq_of_lt (show 2 * divisor.toNat < 2 ^ 64 by omega)
  have hsub : (divisor * divisor - 2 * divisor).toNat = divisor.toNat * divisor.toNat - 2 * divisor.toNat := by
    rw [UInt64.toNat_sub_of_le, hmul, htwo]
    rw [UInt64.le_iff_toNat_le, hmul, htwo]
    exact hdouble
  constructor
  · exact hmul
  · exact htwo
  · exact hsub
  · exact hdouble
  · rw [toNat_add_of_lt, hsub]
    · rfl
    · show (divisor * divisor - 2 * divisor).toNat + 1 < 2 ^ 64
      omega
  · rw [UInt64.toNat_sub_of_le]
    · exact Nat.sub_add_cancel (show 1 ≤ divisor.toNat by omega)
    · rw [UInt64.le_iff_toNat_le]
      show 1 ≤ divisor.toNat
      omega
  · exact toNat_add_of_lt (show divisor.toNat + 1 < 2 ^ 64 by omega)
  · exact toNat_add_of_lt (show divisor.toNat + 6 < 2 ^ 64 by omega)

/-- The loop's condition is the one on the numbers. -/
theorem Exact.le_iff (hexact : Exact divisor) : divisor * divisor - 2 * divisor + 1 ≤ i ↔
    divisor.toNat * divisor.toNat - 2 * divisor.toNat + 1 ≤ i.toNat := by
  rw [UInt64.le_iff_toNat_le, hexact.bound]

theorem Exact.dvd_iff (hexact : Exact divisor) : i % (divisor - 1) = 0 ∨ i % (divisor + 1) = 0 ↔
    i.toNat % (divisor.toNat - 1) = 0 ∨ i.toNat % (divisor.toNat + 1) = 0 := by
  have hbelow := hexact.below
  rw [mod_eq_zero_iff, mod_eq_zero_iff, hexact.above, show (divisor - 1).toNat = divisor.toNat - 1 by omega]

/-- A divisor whose round is not the last one is small. -/
theorem next_lt (hi : i.toNat ≤ 2 ^ 63) (hmin : 2 ≤ divisor.toNat)
    (hle : divisor.toNat * divisor.toNat - 2 * divisor.toNat + 1 ≤ i.toNat) : divisor.toNat + 6 < 2 ^ 32 := by
  rw [square_pred hmin] at hle
  by_contra hlarge
  have hsquare : (2 ^ 32 - 7) * (2 ^ 32 - 7) ≤ (divisor.toNat - 1) * (divisor.toNat - 1) :=
    Nat.mul_le_mul (by omega) (by omega)
  omega

/-- The loop comes to the result of the one over numbers. -/
theorem divisorLoop_eq (hi : i.toNat ≤ 2 ^ 63) (hmin : 6 ≤ divisor.toNat) (hmax : divisor.toNat < 2 ^ 32)
    (hrounds : 2 ^ 32 ≤ rounds + divisor.toNat) :
    divisorLoop i rounds divisor = some (divisorSearch i.toNat divisor.toNat) := by
  induction rounds generalizing divisor with
  | zero => omega
  | succ rounds ih =>
    have hexact := exact_of_lt (show 2 ≤ divisor.toNat by omega) hmax
    rw [divisorLoop, divisorSearch]
    by_cases hle : divisor.toNat * divisor.toNat - 2 * divisor.toNat + 1 ≤ i.toNat
    · rw [if_pos (hexact.le_iff.mpr hle), if_pos hle]
      by_cases hdvd : i.toNat % (divisor.toNat - 1) = 0 ∨ i.toNat % (divisor.toNat + 1) = 0
      · rw [if_pos (hexact.dvd_iff.mpr hdvd), if_pos hdvd]
      · have hnext := hexact.next
        have hlt := next_lt hi (by omega) hle
        rw [if_neg (hexact.dvd_iff.not.mpr hdvd), if_neg hdvd, ← hnext]
        exact ih (by omega) (by omega) (by omega)
    · rw [if_neg (hexact.le_iff.not.mpr hle), if_neg hle]

theorem isPrime_eq (hi : i.toNat ≤ 2 ^ 63) (hrounds : 2 ^ 32 ≤ rounds) :
    isPrime rounds i = some (Detail.isPrime i.toNat) := by
  have hsmall : i % 2 = 0 ∨ i % 3 = 0 ↔ i.toNat % 2 = 0 ∨ i.toNat % 3 = 0 :=
    or_congr mod_eq_zero_iff mod_eq_zero_iff
  rw [isPrime, Detail.isPrime]
  by_cases hdvd : i.toNat % 2 = 0 ∨ i.toNat % 3 = 0
  · rw [if_pos (hsmall.mpr hdvd), if_pos hdvd]
  · rw [if_neg (hsmall.not.mpr hdvd), if_neg hdvd]
    exact divisorLoop_eq hi (by decide) (by decide) (by omega)

/-- Every divisor the loop comes to is small. -/
theorem Visited.lt (hi : i.toNat ≤ 2 ^ 63) (h : Visited i divisor) :
    6 ≤ divisor.toNat ∧ divisor.toNat < 2 ^ 32 := by
  induction h with
  | first => decide
  | next _ hle _ ih =>
    have hexact := exact_of_lt (by omega) ih.2
    have hlt := next_lt hi (by omega) (hexact.le_iff.mp hle)
    rw [hexact.next]
    omega

/-- The search comes to the first number that passes the test. -/
theorem primeLoop_eq {k : Nat} (hrounds : 2 ^ 32 ≤ rounds) (hmax : j.toNat + 2 * k ≤ 2 ^ 63)
    (hfound : Detail.isPrime (j.toNat + 2 * k) = true)
    (hbefore : ∀ m, m < k → Detail.isPrime (j.toNat + 2 * m) = false) (htries : k < tries) :
    primeLoop rounds tries j = some (UInt64.ofNat (j.toNat + 2 * k)) := by
  induction k generalizing j tries with
  | zero =>
    obtain ⟨tries, rfl⟩ := Nat.exists_eq_add_of_lt htries
    rw [primeLoop, isPrime_eq (by omega) hrounds, show Detail.isPrime j.toNat = true from hfound]
    simp
  | succ k ih =>
    obtain ⟨tries, rfl⟩ := Nat.exists_eq_add_of_lt htries
    have hnext : (j + 2).toNat = j.toNat + 2 := toNat_add_of_lt (show j.toNat + 2 < 2 ^ 64 by omega)
    have hsum : ∀ m, (j + 2).toNat + 2 * m = j.toNat + 2 * (m + 1) := by omega
    rw [primeLoop, isPrime_eq (by omega) hrounds, show Detail.isPrime j.toNat = false from hbefore 0 (by omega),
      ← hsum k]
    apply ih
    · rw [hsum k]
      exact hmax
    · rw [hsum k]
      exact hfound
    · intro m hm
      rw [hsum m]
      exact hbefore (m + 1) (by omega)
    · omega

theorem find?_smallPrimes (i : UInt64) :
    smallPrimes.find? (fun p => i ≤ UInt64.ofNat p) = smallPrimes.find? (fun p => i.toNat ≤ p) := by
  apply List.find?_congr
  intro p hp
  have hlt : p < 2 ^ 64 := (show ∀ p ∈ smallPrimes, p < 2 ^ 64 by decide) p hp
  simp only [UInt64.le_iff_toNat_le, UInt64.toNat_ofNat_of_lt' hlt]

/-- The search in words is the search among the numbers. -/
theorem nextPrime_eq (hi : i.toNat ≤ 2 ^ 62) (hrounds : 2 ^ 62 ≤ rounds) :
    nextPrime rounds i = some (UInt64.ofNat (Detail.nextPrime i.toNat)) := by
  have hle : Detail.nextPrime i.toNat ≤ 2 * 2 ^ 62 := nextPrime_le hi (by decide)
  rw [nextPrime, find?_smallPrimes]
  rcases nextPrime_cases i.toNat with ⟨p, hfind, heq⟩ | ⟨hnone, k, heq, hfound, hbefore⟩
  · rw [hfind, heq]
  · have hlarge : 53 < i.toNat := by simpa using List.find?_eq_none.mp hnone 53 (by decide)
    have hor : (i ||| 1).toNat = i.toNat ||| 1 := UInt64.toNat_or i 1
    have hstart := or_one_eq i.toNat
    rw [heq] at hle
    rw [hnone, heq, ← hor]
    rw [← hor] at hfound hbefore hle
    exact primeLoop_eq (by omega) (by omega) hfound hbefore (by omega)

/-- For numbers up to 2^62, what `next_prime` returns is the least prime that is not smaller, and the
divisors of its tests overflow nowhere. -/
theorem nextPrime_exact (hi : i.toNat ≤ 2 ^ 62) :
    ∃ p, (∀ rounds, 2 ^ 62 ≤ rounds → nextPrime rounds i = some p) ∧
      IsLeast {q | q.Prime ∧ i.toNat ≤ q} p.toNat ∧
      ∀ j, j ≤ p → ∀ divisor, Visited j divisor → Exact divisor := by
  have hle : Detail.nextPrime i.toNat ≤ 2 * 2 ^ 62 := nextPrime_le hi (by decide)
  have htoNat : (UInt64.ofNat (Detail.nextPrime i.toNat)).toNat = Detail.nextPrime i.toNat :=
    UInt64.toNat_ofNat_of_lt' (show Detail.nextPrime i.toNat < 2 ^ 64 by omega)
  refine ⟨_, fun rounds hrounds => nextPrime_eq hi hrounds, ?_, ?_⟩
  · rw [htoNat]
    exact nextPrime_isLeast i.toNat
  · intro j hj divisor hvisited
    rw [UInt64.le_iff_toNat_le, htoNat] at hj
    have hlt := hvisited.lt (by omega)
    exact exact_of_lt (by omega) hlt.2

/-- The number behind the table's last entry. -/
theorem nextPrime_exact_54 : ∃ p, (∀ rounds, 2 ^ 62 ≤ rounds → nextPrime rounds 54 = some p) ∧
    IsLeast {q | q.Prime ∧ (54 : UInt64).toNat ≤ q} p.toNat ∧
    ∀ j, j ≤ p → ∀ divisor, Visited j divisor → Exact divisor :=
  nextPrime_exact (by decide)

example : nextPrime 3 54 = some 59 := by decide

end Loops
end Word
end DeepPack.Detail
