import Mathlib.Algebra.Order.Ring.Nat
import Mathlib.Data.Nat.Log
import Mathlib.Tactic.Ring
import Mathlib.Tactic.Linarith

/-! Unsigned words: subtraction that wraps, words as big-endian bytes, and what words of 64 bits
have in common with numbers. -/
namespace DeepPack.Library

/-- Subtraction of `w` bit words. -/
def wrapSub (w a b : Nat) : Nat := (a + 2 ^ w - b) % 2 ^ w

/-- The number a list of bytes denotes, most significant byte first. -/
def ofBytes (bs : List UInt8) : Nat := bs.foldl (fun acc b => acc * 256 + b.toNat) 0

/-- The low `n` bytes of a number, most significant byte first. -/
def toBytes : Nat → Nat → List UInt8
  | 0, _ => []
  | n + 1, v => UInt8.ofNat (v / 256 ^ n) :: toBytes n v

theorem wrapSub_of_lt {w a b : Nat} (h : a < b) : wrapSub w a b = a + 2 ^ w - b := by
  have hpos := Nat.two_pow_pos w
  exact Nat.mod_eq_of_lt (by omega)

theorem wrapSub_of_le {w a b : Nat} (hb : b ≤ a) (ha : a < 2 ^ w) : wrapSub w a b = a - b := by
  have h : a + 2 ^ w - b = (a - b) + 2 ^ w := by omega
  rw [wrapSub, h, Nat.add_mod_right]
  exact Nat.mod_eq_of_lt (by omega)

theorem ofBytes_foldl (bs : List UInt8) (acc : Nat) :
    bs.foldl (fun acc b => acc * 256 + b.toNat) acc = acc * 256 ^ bs.length + ofBytes bs := by
  induction bs generalizing acc with
  | nil => simp [ofBytes]
  | cons b rest ih =>
    simp only [ofBytes, List.foldl_cons, List.length_cons]
    rw [ih, ih (0 * 256 + b.toNat), pow_succ]
    ring

@[simp] theorem ofBytes_nil : ofBytes [] = 0 := rfl

theorem ofBytes_cons (b : UInt8) (bs : List UInt8) :
    ofBytes (b :: bs) = b.toNat * 256 ^ bs.length + ofBytes bs := by
  have h := ofBytes_foldl bs (0 * 256 + b.toNat)
  rw [Nat.zero_mul, Nat.zero_add] at h
  rw [← h, ofBytes, List.foldl_cons, Nat.zero_mul, Nat.zero_add]

theorem ofBytes_lt (bs : List UInt8) : ofBytes bs < 256 ^ bs.length := by
  induction bs with
  | nil => simp
  | cons b rest ih =>
    have hb : b.toNat < 256 := b.toNat_lt
    rw [ofBytes_cons, List.length_cons, pow_succ]
    nlinarith

theorem ofBytes_append (a b : List UInt8) :
    ofBytes (a ++ b) = ofBytes a * 256 ^ b.length + ofBytes b := by
  induction a with
  | nil => simp
  | cons x rest ih =>
    rw [List.cons_append, ofBytes_cons, ih, ofBytes_cons, List.length_append, pow_add]
    ring

/-- Dropping the low bytes of a number keeps the number its high bytes denote. -/
theorem ofBytes_append_div (a b : List UInt8) : ofBytes (a ++ b) / 256 ^ b.length = ofBytes a := by
  rw [ofBytes_append, Nat.add_comm, Nat.add_mul_div_right _ _ (by positivity),
    Nat.div_eq_of_lt (ofBytes_lt b), Nat.zero_add]

@[simp] theorem toBytes_length (n v : Nat) : (toBytes n v).length = n := by
  induction n with
  | zero => rfl
  | succ n ih => rw [toBytes, List.length_cons, ih]

theorem ofBytes_toBytes (n v : Nat) : ofBytes (toBytes n v) = v % 256 ^ n := by
  induction n with
  | zero => simp [toBytes, Nat.mod_one]
  | succ n ih =>
    have hbyte : (UInt8.ofNat (v / 256 ^ n)).toNat = v / 256 ^ n % 256 := by rw [UInt8.toNat_ofNat']
    rw [toBytes, ofBytes_cons, toBytes_length, ih, hbyte, pow_succ, Nat.mod_mul, Nat.add_comm,
      Nat.mul_comm]

theorem ofBytes_toBytes_of_lt {n v : Nat} (h : v < 256 ^ n) : ofBytes (toBytes n v) = v := by
  rw [ofBytes_toBytes, Nat.mod_eq_of_lt h]

/-- The high bytes of a word are the bytes of the number shifted down. -/
theorem toBytes_add (n m v : Nat) : toBytes (n + m) v = toBytes n (v / 256 ^ m) ++ toBytes m v := by
  induction n with
  | zero => simp [toBytes]
  | succ n ih =>
    rw [Nat.add_right_comm, toBytes, ih, toBytes, List.cons_append, Nat.div_div_eq_div_mul, ← pow_add,
      Nat.add_comm n m]

theorem toBytes_take (n m v : Nat) : (toBytes (n + m) v).take n = toBytes n (v / 256 ^ m) := by
  rw [toBytes_add, List.take_append_of_le_length (by simp), List.take_of_length_le (by simp)]

/-- Only the low bytes of a number count. -/
theorem toBytes_mod {n w : Nat} (h : n ≤ w) (v : Nat) : toBytes n (v % 256 ^ w) = toBytes n v := by
  induction n with
  | zero => rfl
  | succ n ih =>
    rw [toBytes, toBytes, ih (by omega)]
    congr 1
    obtain ⟨k, rfl⟩ : ∃ k, w = n + 1 + k := ⟨w - (n + 1), by omega⟩
    rw [← UInt8.toNat_inj, UInt8.toNat_ofNat', UInt8.toNat_ofNat',
      show n + 1 + k = n + (1 + k) by omega, pow_add, Nat.mod_mul_right_div_self, pow_add]
    exact Nat.mod_mul_right_mod _ (256 ^ 1) (256 ^ k)

/-! ### Words of 64 bits -/

section UInt64
variable {a b : UInt64}

theorem toNat_add_of_lt (h : a.toNat + b.toNat < 2 ^ 64) : (a + b).toNat = a.toNat + b.toNat := by
  rw [UInt64.toNat_add]
  exact Nat.mod_eq_of_lt h

theorem mod_eq_zero_iff : a % b = 0 ↔ a.toNat % b.toNat = 0 := by
  rw [← UInt64.toNat_inj, UInt64.toNat_mod]
  rfl

end UInt64
end DeepPack.Library
