import Mathlib.Data.BitVec
import Mathlib.Data.Int.GCD

/-! The steps of which hash functions on words are made, and what they tell apart.

A step that can be undone tells all words apart. The difference of two rotations cannot:
it is the same for a word and its complement, and for no other words as long as the
distance between the two is prime to the width. -/
namespace DeepPack.Library

section Mixing
variable {w : Nat} {a b c d x : BitVec w} {k m n : Nat}

theorem xor_exchange : a ^^^ c = b ^^^ d ↔ a ^^^ b = c ^^^ d := by
  have hsame : a ^^^ c ^^^ (b ^^^ d) = a ^^^ b ^^^ (c ^^^ d) := by ac_rfl
  rw [← BitVec.xor_eq_zero_iff, hsame, BitVec.xor_eq_zero_iff]

/-! ### Rotations -/

/-- A rotation moves bit `i` to where `i + n` is, around the word. -/
theorem getLsbD_rotateLeft_add (x : BitVec w) (n i : Nat) (hw : 0 < w) :
    (x.rotateLeft n).getLsbD ((i + n) % w) = x.getLsbD (i % w) := by
  rw [BitVec.getLsbD_rotateLeft, Nat.add_mod]
  have hi := Nat.mod_lt i hw
  have hn := Nat.mod_lt n hw
  generalize i % w = i at hi
  generalize n % w = n at hn
  rcases Nat.lt_or_ge (i + n) w with hlt | hge
  · rw [Nat.mod_eq_of_lt hlt, decide_eq_false (by omega), decide_eq_true hlt]
    simp
  · have hmod : (i + n) % w = i + n - w := by rw [Nat.mod_eq_sub_mod hge, Nat.mod_eq_of_lt (by omega)]
    have hback : w - n + (i + n - w) = i := by omega
    rw [hmod, decide_eq_true (by omega), cond_true, hback]

theorem rotateLeft_inj : a.rotateLeft n = b.rotateLeft n ↔ a = b := by
  constructor
  · intro h
    apply BitVec.eq_of_getLsbD_eq
    intro i hi
    have hbits : ∀ x : BitVec w, (x.rotateLeft n).getLsbD ((i + n) % w) = x.getLsbD i := by
      intro x
      rw [getLsbD_rotateLeft_add x n i (by omega), Nat.mod_eq_of_lt hi]
    rw [← hbits a, h, hbits b]
  · rintro rfl
    rfl

/-- Two rotations of a word agree only if all of its bits do. -/
theorem eq_of_rotateLeft_eq (h : x.rotateLeft m = x.rotateLeft n) (hle : n ≤ m) (hcoprime : (m - n).Coprime w) :
    x = 0 ∨ x = BitVec.allOnes w := by
  rcases Nat.eq_zero_or_pos w with rfl | hw
  · exact .inl (Subsingleton.elim _ _)
  have hstep : ∀ i, x.getLsbD (i % w) = x.getLsbD ((i + (m - n)) % w) := by
    intro i
    have hsum : i + m = i + (m - n) + n := by omega
    rw [← getLsbD_rotateLeft_add x m i hw, ← getLsbD_rotateLeft_add x n _ hw, h, hsum]
  have hsteps : ∀ k, x.getLsbD ((m - n) * k % w) = x.getLsbD 0 := by
    intro k
    induction k with
    | zero => simp
    | succ k ih => rw [Nat.mul_succ, ← hstep, ih]
  have hall : ∀ i, i < w → x.getLsbD i = x.getLsbD 0 := by
    intro i hi
    rcases Nat.eq_or_lt_of_le (Nat.succ_le_of_lt hw) with hone | hone
    · rw [show i = 0 by omega]
    · obtain ⟨k, -, hk⟩ := Nat.exists_mul_mod_eq_one_of_coprime hcoprime hone
      have hreach : (m - n) * (k * i) % w = i := by
        rw [← Nat.mul_assoc, Nat.mul_mod, hk, Nat.one_mul, Nat.mod_mod, Nat.mod_eq_of_lt hi]
      rw [← hsteps (k * i), hreach]
  cases hzero : x.getLsbD 0 with
  | false =>
    left
    apply BitVec.eq_of_getLsbD_eq
    intro i hi
    rw [hall i hi, hzero]
    simp
  | true =>
    right
    apply BitVec.eq_of_getLsbD_eq
    intro i hi
    rw [hall i hi, hzero]
    simp [hi]

/-- A rotation does not mix with what it is xored to. -/
theorem rotateLeft_xor (a b : BitVec w) (n : Nat) :
    (a ^^^ b).rotateLeft n = a.rotateLeft n ^^^ b.rotateLeft n := by
  apply BitVec.eq_of_getLsbD_eq
  intro i hi
  simp only [BitVec.getLsbD_xor, BitVec.getLsbD_rotateLeft]
  cases decide (i < n % w) <;> simp [hi]

/-- A rotation does not turn anything into what it was the complement of. -/
theorem rotateLeft_not (a : BitVec w) (n : Nat) : (~~~a).rotateLeft n = ~~~a.rotateLeft n := by
  apply BitVec.eq_of_getLsbD_eq
  intro i hi
  have hw : n % w < w := Nat.mod_lt n (by omega)
  simp only [BitVec.getLsbD_not, BitVec.getLsbD_rotateLeft]
  by_cases hlt : i < n % w
  · simp [hlt, hi]
    omega
  · simp [hlt, hi]
    omega

/-- The difference of two rotations tells words apart that are not each other's complement. -/
theorem rotateLeft_xor_rotateLeft_inj (hle : n ≤ m) (hcoprime : (m - n).Coprime w) :
    a.rotateLeft m ^^^ a.rotateLeft n = b.rotateLeft m ^^^ b.rotateLeft n ↔ a = b ∨ b = ~~~a := by
  constructor
  · intro h
    have hsame : (a ^^^ b).rotateLeft m = (a ^^^ b).rotateLeft n := by
      rw [rotateLeft_xor, rotateLeft_xor]
      exact xor_exchange.mp h
    rcases eq_of_rotateLeft_eq hsame hle hcoprime with hzero | hones
    · exact .inl (BitVec.xor_eq_zero_iff.mp hzero)
    · right
      rw [← BitVec.xor_allOnes, ← hones, ← BitVec.xor_assoc, BitVec.xor_self, BitVec.zero_xor]
  · rintro (rfl | rfl)
    · rfl
    · rw [rotateLeft_not, rotateLeft_not, ← BitVec.not_xor_left, ← BitVec.not_xor_right, BitVec.not_not]

/-! ### Steps that can be undone -/

theorem mul_inj_of_inverse (hc : c * d = 1) : a * c = b * c ↔ a = b := (IsUnit.of_mul_eq_one d hc).mul_left_inj

/-- What is xored to the lower bits, and depends on the upper ones alone, can be taken off again. -/
theorem xor_lower_inj {f : BitVec w → BitVec w} (hf : ∀ x : BitVec w, f (x >>> k) >>> k = 0) :
    a ^^^ f (a >>> k) = b ^^^ f (b >>> k) ↔ a = b := by
  constructor
  · intro h
    have hupper : ∀ x : BitVec w, (x ^^^ f (x >>> k)) >>> k = x >>> k := by
      intro x
      rw [BitVec.ushiftRight_xor_distrib, hf]
      exact BitVec.xor_zero
    have hsame : a >>> k = b >>> k := by rw [← hupper a, ← hupper b, h]
    rwa [hsame, BitVec.xor_left_inj] at h
  · rintro rfl
    rfl

/-- A word is xored to itself without its lowest bits. -/
theorem xorShift_inj (hk : 0 < k) : a ^^^ (a >>> k) = b ^^^ (b >>> k) ↔ a = b := by
  constructor
  · intro h
    have hshift : a ^^^ b = (a ^^^ b) >>> k := by
      rw [BitVec.ushiftRight_xor_distrib]
      exact xor_exchange.mp h
    have hshifts : ∀ n, a ^^^ b = (a ^^^ b) >>> (k * n) := by
      intro n
      induction n with
      | zero => simp
      | succ n ih => rw [Nat.mul_succ, BitVec.shiftRight_add, ← ih, ← hshift]
    have hgone : w ≤ k * w := Nat.le_mul_of_pos_left w hk
    rw [← BitVec.xor_eq_zero_iff, hshifts w, BitVec.ushiftRight_eq_zero hgone]
  · rintro rfl
    rfl

end Mixing
end DeepPack.Library
