import Mathlib.Algebra.Order.Ring.Nat
import Mathlib.Algebra.Field.Rat
import Mathlib.Algebra.GroupWithZero.Units.Basic
import Mathlib.Tactic.Ring
import Mathlib.Tactic.NormNum

/-! Binary floating point formats.

A format says how many bits of a pattern are the exponent and how many the significand; the
bit in front of both is the sign. What a pattern stands for is a number of one of three
kinds, and the number is a rational. -/
namespace DeepPack.Library

/-- What a pattern stands for. Zero has two signs; the payload of what is not a number does not count. -/
inductive FloatValue where
  | finite (negative : Bool) (magnitude : ℚ)
  | infinite (negative : Bool)
  | nan

def FloatValue.neg : FloatValue → FloatValue
  | finite negative magnitude => finite (!negative) magnitude
  | infinite negative => infinite (!negative)
  | nan => nan

structure FloatFormat where
  exponentBits : Nat
  significandBits : Nat

namespace FloatFormat

def half : FloatFormat := ⟨5, 10⟩
def single : FloatFormat := ⟨8, 23⟩
def double : FloatFormat := ⟨11, 52⟩

variable (F : FloatFormat) {negative : Bool} {exponent significand bits : Nat}

def bias : Nat := 2 ^ (F.exponentBits - 1) - 1

/-- The bits behind the sign. -/
def magnitudeBits : Nat := F.exponentBits + F.significandBits

/-- The unit of the last place of the significand at an exponent. -/
def ulp (exponent : Nat) : ℚ := 2 ^ ((exponent : Int) - F.bias - F.significandBits)

/-- The number without its sign. The subnormal numbers have no leading one, and the exponent of the smallest normal
ones. -/
def magnitude (exponent significand : Nat) : FloatValue :=
  if exponent = 0 then .finite false (significand * F.ulp 1)
  else if exponent ≠ 2 ^ F.exponentBits - 1 then .finite false ((2 ^ F.significandBits + significand) * F.ulp exponent)
  else if significand = 0 then .infinite false
  else .nan

/-- What the pattern stands for. -/
def denote (bits : Nat) : FloatValue :=
  let value := F.magnitude (bits / 2 ^ F.significandBits % 2 ^ F.exponentBits) (bits % 2 ^ F.significandBits)
  if bits / 2 ^ F.magnitudeBits % 2 = 0 then value else value.neg

/-! ### Patterns -/

theorem pack_lt (hexponent : exponent < 2 ^ F.exponentBits) (hsignificand : significand < 2 ^ F.significandBits) :
    exponent * 2 ^ F.significandBits + significand < 2 ^ F.magnitudeBits := by
  rw [magnitudeBits, pow_add]
  calc exponent * 2 ^ F.significandBits + significand
      < (exponent + 1) * 2 ^ F.significandBits := by rw [Nat.succ_mul]; omega
    _ ≤ _ := Nat.mul_le_mul_right _ hexponent

/-- The pattern of an exponent and a significand. -/
theorem denote_pack (hexponent : exponent < 2 ^ F.exponentBits) (hsignificand : significand < 2 ^ F.significandBits) :
    F.denote (exponent * 2 ^ F.significandBits + significand) = F.magnitude exponent significand := by
  have hpos := Nat.two_pow_pos F.significandBits
  have hlt := F.pack_lt hexponent hsignificand
  have hdiv : (exponent * 2 ^ F.significandBits + significand) / 2 ^ F.significandBits = exponent := by
    rw [Nat.mul_comm, Nat.mul_add_div hpos, Nat.div_eq_of_lt hsignificand, Nat.add_zero]
  have hmod : (exponent * 2 ^ F.significandBits + significand) % 2 ^ F.significandBits = significand := by
    rw [Nat.mul_comm, Nat.mul_add_mod, Nat.mod_eq_of_lt hsignificand]
  simp only [denote, hdiv, hmod, Nat.mod_eq_of_lt hexponent, Nat.div_eq_of_lt hlt, Nat.zero_mod, if_true]

/-- A field is not changed by what is in front of it. -/
theorem field_mod {low width k : Nat} (h : low + width ≤ k) (bits : Nat) :
    bits % 2 ^ k / 2 ^ low % 2 ^ width = bits / 2 ^ low % 2 ^ width := by
  refine Nat.eq_of_testBit_eq fun i => ?_
  simp only [Nat.testBit_mod_two_pow, Nat.testBit_div_two_pow]
  by_cases hi : i < width
  · rw [decide_eq_true (show i + low < k by omega), Bool.true_and]
  · rw [decide_eq_false hi, Bool.false_and, Bool.false_and]

/-- A pattern is its sign in front of the pattern without it. -/
theorem denote_eq (bits : Nat) :
    F.denote bits = if bits / 2 ^ F.magnitudeBits % 2 = 0 then F.denote (bits % 2 ^ F.magnitudeBits)
      else (F.denote (bits % 2 ^ F.magnitudeBits)).neg := by
  have hsig : bits % 2 ^ F.magnitudeBits % 2 ^ F.significandBits = bits % 2 ^ F.significandBits :=
    Nat.mod_mod_of_dvd _ (pow_dvd_pow 2 (Nat.le_add_left _ _))
  have hexp := field_mod (Nat.le_of_eq (Nat.add_comm F.significandBits F.exponentBits)) bits
  have hsign : bits % 2 ^ F.magnitudeBits / 2 ^ F.magnitudeBits % 2 = 0 := by
    rw [Nat.div_eq_of_lt (Nat.mod_lt _ (Nat.two_pow_pos _))]
  rw [← magnitudeBits] at hexp
  simp only [denote, hsig, hexp, hsign, if_true]

/-- A pattern has no more bits than its sign and those behind it. -/
theorem denote_mod (bits : Nat) : F.denote (bits % 2 ^ (F.magnitudeBits + 1)) = F.denote bits := by
  have hsig : bits % 2 ^ (F.magnitudeBits + 1) % 2 ^ F.significandBits = bits % 2 ^ F.significandBits :=
    Nat.mod_mod_of_dvd _ (pow_dvd_pow 2 (Nat.le_succ_of_le (Nat.le_add_left _ _)))
  have hexp := field_mod (Nat.le_succ_of_le (Nat.le_of_eq (Nat.add_comm F.significandBits F.exponentBits))) bits
  have hsign := field_mod (Nat.le_refl (F.magnitudeBits + 1)) bits
  rw [← magnitudeBits] at hexp
  rw [pow_one] at hsign
  simp only [denote, hsig, hexp, hsign]

/-- The sign is added in front. -/
theorem denote_add_sign (hbits : bits < 2 ^ F.magnitudeBits) :
    F.denote (bits + 2 ^ F.magnitudeBits) = (F.denote bits).neg := by
  have hpos := Nat.two_pow_pos F.magnitudeBits
  rw [F.denote_eq, Nat.add_mod_right, Nat.mod_eq_of_lt hbits, Nat.add_div_right _ hpos,
    Nat.div_eq_of_lt hbits]
  rfl

/-- The pattern of an exponent and a significand behind a sign. -/
theorem denote_ite (hexponent : exponent < 2 ^ F.exponentBits) (hsignificand : significand < 2 ^ F.significandBits)
    (positive : Prop) [Decidable positive] :
    F.denote (if positive then exponent * 2 ^ F.significandBits + significand
      else exponent * 2 ^ F.significandBits + significand + 2 ^ F.magnitudeBits) =
      if positive then F.magnitude exponent significand else (F.magnitude exponent significand).neg := by
  split
  · exact F.denote_pack hexponent hsignificand
  · rw [F.denote_add_sign (F.pack_lt hexponent hsignificand), F.denote_pack hexponent hsignificand]

/-! ### Numbers -/

theorem magnitude_subnormal (significand : Nat) : F.magnitude 0 significand = .finite false (significand * F.ulp 1) :=
  if_pos rfl

theorem magnitude_zero : F.magnitude 0 0 = .finite false 0 := by
  rw [magnitude_subnormal, Nat.cast_zero, zero_mul]

theorem magnitude_normal (hpos : exponent ≠ 0) (hlt : exponent ≠ 2 ^ F.exponentBits - 1) :
    F.magnitude exponent significand = .finite false ((2 ^ F.significandBits + significand) * F.ulp exponent) := by
  rw [magnitude, if_neg hpos, if_pos hlt]

theorem magnitude_infinite (hpos : 0 < F.exponentBits) : F.magnitude (2 ^ F.exponentBits - 1) 0 = .infinite false := by
  have hone : 2 ^ 1 ≤ 2 ^ F.exponentBits := Nat.pow_le_pow_right (by decide) hpos
  rw [magnitude, if_neg (by omega), if_neg (by simp), if_pos rfl]

theorem magnitude_nan (hpos : 0 < F.exponentBits) (hne : significand ≠ 0) :
    F.magnitude (2 ^ F.exponentBits - 1) significand = .nan := by
  have hone : 2 ^ 1 ≤ 2 ^ F.exponentBits := Nat.pow_le_pow_right (by decide) hpos
  rw [magnitude, if_neg (by omega), if_neg (by simp), if_neg hne]

/-- A normal number moved to a wider format. -/
theorem magnitude_widen {G : FloatFormat} {exponent' : Nat} (hpos : exponent ≠ 0) (hlt : exponent ≠ 2 ^ F.exponentBits - 1)
    (hpos' : exponent' ≠ 0) (hlt' : exponent' ≠ 2 ^ G.exponentBits - 1)
    (hbias : (exponent' : Int) - G.bias = exponent - F.bias) {extra : Nat} (hextra : G.significandBits = F.significandBits + extra) :
    G.magnitude exponent' (significand * 2 ^ extra) = F.magnitude exponent significand := by
  have hulp : F.ulp exponent = 2 ^ extra * G.ulp exponent' := by
    rw [ulp, ulp, hbias, hextra, ← zpow_natCast, ← zpow_add₀ (by decide)]
    congr 1
    push_cast
    ring
  rw [F.magnitude_normal hpos hlt, G.magnitude_normal hpos' hlt', hulp, hextra]
  congr 1
  push_cast
  ring

end FloatFormat
end DeepPack.Library
