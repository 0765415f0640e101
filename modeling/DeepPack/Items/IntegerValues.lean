import DeepPack.Items.HeadContract
import DeepPack.Items.RoundTrip
import DeepPack.Items.ItemSize

/-! The integers heads denote, and what the parser of integers makes of them.

`posint` and `negint` heads denote the integers `n` and `-1 - n`. `denoted` is that
integer, where a type can have it at all, and `Represents` says that it is one of the
type's. The parser's one comparison and its padding decide and compute just this. -/
namespace DeepPack
open Library

namespace IntType

/-- The integer a head denotes to a parser of this type. -/
def denoted (t : IntType) (h : ItemHead) : Option Int :=
  if h.type = .posint then some h.value
  else if h.type = .negint ∧ t.signed then some (-1 - h.value)
  else none

/-- The integers of the type. -/
def Represents (t : IntType) (n : Int) : Prop :=
  if t.signed then -2 ^ (t.width - 1) ≤ n ∧ n < 2 ^ (t.width - 1) else 0 ≤ n ∧ n < 2 ^ t.width

/-- The integer a pattern of the type stands for. -/
def value (t : IntType) (v : BitVec t.width) : Int := if t.signed then v.toInt else v.toNat

variable {t : IntType} {n : Nat}

/-- The largest additional information belongs to the largest integer and to the smallest. -/
theorem represents_signed (hsigned : t.signed) :
    (t.Represents n ↔ n ≤ t.maxValue) ∧ (t.Represents (-1 - n) ↔ n ≤ t.maxValue) := by
  have hpos : 0 < 2 ^ (t.width - 1) := Nat.two_pow_pos _
  have hcast : ((2 ^ (t.width - 1) : Nat) : Int) = 2 ^ (t.width - 1) := by push_cast; rfl
  simp only [Represents, maxValue, hsigned, if_true]
  rw [← hcast]
  constructor <;> constructor <;> intro h <;> omega

theorem represents_unsigned (hsigned : ¬ t.signed) : t.Represents n ↔ n ≤ t.maxValue := by
  have hpos : 0 < 2 ^ t.width := Nat.two_pow_pos _
  have hcast : ((2 ^ t.width : Nat) : Int) = 2 ^ t.width := by push_cast; rfl
  rw [Represents, maxValue, if_neg hsigned, if_neg hsigned, ← hcast]
  constructor <;> intro h <;> omega

/-- Below the sign bit a word and its complement denote `n` and `-1 - n`. -/
theorem toInt_padded (ht : t.EncodableInt) (hsigned : t.signed) (h : n ≤ t.maxValue) {m : Nat} (hm : m = 0 ∨ m = 1) :
    ((BitVec.ofNat 64 n ^^^ (BitVec.ofNat 64 (TypeCode.ofMajor m).toByte.toNat <<< 58).sshiftRight 63).setWidth
      t.width).toInt = if m = 0 then (n : Int) else -1 - n := by
  have hpow : 2 ^ t.width = 2 * 2 ^ (t.width - 1) := by rw [← pow_succ', Nat.sub_add_cancel ht.width_pos]
  have hpos : 0 < 2 ^ (t.width - 1) := Nat.two_pow_pos _
  rw [maxValue, if_pos hsigned] at h
  have hword : (BitVec.ofNat 64 n).setWidth t.width = BitVec.ofNat t.width n :=
    BitVec.setWidth_ofNat_of_le ht.width_le n
  have hnat : (BitVec.ofNat t.width n).toNat = n := by
    rw [BitVec.toNat_ofNat]
    exact Nat.mod_eq_of_lt (by omega)
  rcases hm with rfl | rfl
  · rw [if_pos rfl, show (BitVec.ofNat 64 (TypeCode.ofMajor 0).toByte.toNat <<< 58).sshiftRight 63 = 0#64 by decide,
      BitVec.xor_zero, hword, BitVec.toInt_eq_toNat_of_lt (by rw [hnat]; omega), hnat]
  · rw [if_neg (by decide), show (BitVec.ofNat 64 (TypeCode.ofMajor 1).toByte.toNat <<< 58).sshiftRight 63 =
        BitVec.allOnes 64 by decide, BitVec.xor_allOnes, BitVec.setWidth_not ht.width_le, hword,
      BitVec.toInt_eq_toNat_cond, BitVec.toNat_not, hnat, if_neg (by omega)]
    omega

end IntType

namespace RequireContract
variable {σ : Type} [InputStream σ] {R : RequireContract σ} {t : IntType} {s : InputBuffer σ}
  {h : ItemHead} {p rest : List UInt8}

/-- The destination holds the integer, or is untouched and the error says why. -/
def Denotes (R : RequireContract σ) (t : IntType) (x : Parse σ (BitVec t.width) Unit) (s : InputBuffer σ)
    (d : BitVec t.width) (Fits : Int → Prop) (rest : List UInt8) : Option Int → Prop
  | none => R.Parses x s d (.error (.errc .itemTypeMismatch)) d rest
  | some n => (Fits n → ∃ v, t.value v = n ∧ R.Parses x s d (.ok ()) v rest) ∧
      (¬ Fits n → R.Parses x s d (.error (.errc .itemValueOutOfRange)) d rest)

/-- What is left to do when the head is read. -/
theorem Denotes.head {f : ItemHead → Parse σ (BitVec t.width) Unit} {d : BitVec t.width} {Fits : Int → Prop}
    {n : Option Int} (hs : R.Valid s) (hread : ReadFrom h p) (hu : R.unread s = p ++ rest)
    (hf : ∀ s', R.Valid s' → R.unread s' = rest → R.Denotes t (f h) s' d Fits rest n) :
    R.Denotes t (Action.onFst parseItemHead >>= f) s d Fits rest n := by
  cases n with
  | none => exact Parses.head hs hread hu hf
  | some n =>
    constructor
    · intro hfits
      obtain ⟨⟨s', hs', hvs', hus'⟩, -⟩ := does_readFrom hs hread hu
      obtain ⟨v, hv, u, hu, hvu, huu⟩ := (hf s' hvs' hus').1 hfits
      exact ⟨v, hv, u, (Action.bind_ok _ (Action.onFst_ok hs' d)).trans hu, hvu, huu⟩
    · exact fun hno => Parses.head hs hread hu fun s' hvs' hus' => (hf s' hvs' hus').2 hno

theorem denotes_parseSignedInteger (ht : t.EncodableInt) (hsigned : t.signed) (hs : R.Valid s)
    (hread : ReadFrom h p) (hu : R.unread s = p ++ rest) (d : BitVec t.width) :
    R.Denotes t (parseSignedInteger t) s d t.Represents rest (t.denoted h) := by
  refine Denotes.head hs hread hu fun s' hvs' hus' => ?_
  by_cases hinteger : h.type ≠ .posint ∧ h.type ≠ .negint
  · have hnone : t.denoted h = none := by
      rw [IntType.denoted, if_neg hinteger.1, if_neg fun hboth => hinteger.2 hboth.1]
    rw [if_pos hinteger, hnone]
    exact ⟨s', rfl, hvs', hus'⟩
  -- `n` and `-1 - n` go through the same check, so that one argument serves both signs
  obtain ⟨m, hm, htype, hdenoted⟩ : ∃ m, (m = 0 ∨ m = 1) ∧ h.type = .ofMajor m ∧
      t.denoted h = some (if m = 0 then (h.value : Int) else -1 - h.value) := by
    by_cases hpos : h.type = .posint
    · exact ⟨0, .inl rfl, hpos, by rw [IntType.denoted, if_pos hpos, if_pos rfl]⟩
    · have hneg : h.type = .negint := not_not.mp fun hneg => hinteger ⟨hpos, hneg⟩
      exact ⟨1, .inr rfl, hneg, by rw [IntType.denoted, if_neg hpos, if_pos ⟨hneg, hsigned⟩, if_neg (by decide)]⟩
  have hrange : t.Represents (if m = 0 then (h.value : Int) else -1 - h.value) ↔ h.value ≤ t.maxValue := by
    rcases hm with rfl | rfl
    · exact (IntType.represents_signed hsigned).1
    · exact (IntType.represents_signed hsigned).2
  rw [if_neg hinteger, hdenoted]
  constructor
  · intro hfits
    have hle := hrange.mp hfits
    rw [if_neg (Nat.not_lt.mpr hle)]
    refine ⟨BitVec.setWidth t.width _, ?_, s', rfl, hvs', hus'⟩
    rw [IntType.value, if_pos hsigned, htype, IntType.toInt_padded ht hsigned hle hm]
  · intro hno
    rw [if_pos (Nat.lt_of_not_le fun hle => hno (hrange.mpr hle))]
    exact ⟨s', rfl, hvs', hus'⟩

theorem denotes_parseUnsignedInteger (hsigned : ¬ t.signed) {limit : Nat} (hlimit : limit ≤ t.maxValue) (hs : R.Valid s)
    (hread : ReadFrom h p) (hu : R.unread s = p ++ rest) (d : BitVec t.width) :
    R.Denotes t (parseUnsignedInteger t limit) s d (fun n => t.Represents n ∧ n ≤ limit) rest (t.denoted h) := by
  refine Denotes.head hs hread hu fun s' hvs' hus' => ?_
  by_cases hpos : h.type ≠ .posint
  · have hnone : t.denoted h = none := by
      rw [IntType.denoted, if_neg hpos, if_neg fun hboth => hsigned hboth.2]
    rw [if_pos hpos, hnone]
    exact ⟨s', rfl, hvs', hus'⟩
  have hdenoted : t.denoted h = some (h.value : Int) := by
    rw [IntType.denoted, if_pos (not_not.mp hpos)]
  have hrange : t.Represents h.value ∧ (h.value : Int) ≤ limit ↔ h.value ≤ limit := by
    rw [IntType.represents_unsigned hsigned]
    omega
  rw [if_neg hpos, hdenoted]
  constructor
  · intro hfits
    have hle := hrange.mp hfits
    have hlt : h.value < 2 ^ t.width := by
      have hmax : t.maxValue = 2 ^ t.width - 1 := by rw [IntType.maxValue, if_neg hsigned]
      have := Nat.two_pow_pos t.width
      omega
    rw [if_neg (Nat.not_lt.mpr hle)]
    refine ⟨BitVec.ofNat t.width h.value, ?_, s', rfl, hvs', hus'⟩
    rw [IntType.value, if_neg hsigned, BitVec.toNat_ofNat, Nat.mod_eq_of_lt hlt]
  · intro hno
    rw [if_pos (Nat.lt_of_not_le fun hle => hno (hrange.mpr hle))]
    exact ⟨s', rfl, hvs', hus'⟩

/-- What the emitter of an integer puts out is parsed as that integer. -/
theorem parses_emitInteger (ht : t.EncodableInt) (v : BitVec t.width) (hs : R.Valid s)
    (hu : R.unread s = Detail.varUintHead (t.category v) (t.uvalue v).toNat ++ rest) (d : BitVec t.width) :
    R.Parses (parseInteger t) s d (.ok ()) v rest := by
  obtain ⟨m, hm, hcategory⟩ := t.category_eq v
  rw [hcategory] at hu
  obtain ⟨info, hhead⟩ := Detail.head_varUintHead (m := m) (by omega) (IntType.uvalue_lt ht v)
  have hread : ReadFrom ⟨.ofMajor m, 0, _, (t.uvalue v).toNat⟩ _ := .definite (by omega) hhead fun hbad => by
    have := hbad.1
    omega
  have hle := IntType.uvalue_le ht v
  rw [parseInteger]
  by_cases hsigned : t.signed
  · rw [if_pos hsigned]
    refine Parses.head hs hread hu fun s' hvs' hus' => ?_
    have hinteger : ¬ (TypeCode.ofMajor m ≠ .posint ∧ TypeCode.ofMajor m ≠ .negint) := by
      intro hboth
      rcases hm with rfl | rfl
      · exact hboth.1 rfl
      · exact hboth.2 rfl
    have hxor := IntType.uvalue_xor ht hsigned v
    rw [hcategory] at hxor
    dsimp only
    rw [if_neg hinteger, if_neg (Nat.not_lt.mpr hle), hxor]
    exact ⟨s', rfl, hvs', hus'⟩
  · rw [if_neg hsigned]
    refine Parses.head hs hread hu fun s' hvs' hus' => ?_
    have hpos : TypeCode.ofMajor m = .posint := by rw [← hcategory, IntType.category, if_neg fun h => hsigned h.1]
    have huvalue : t.uvalue v = v := if_neg hsigned
    dsimp only
    rw [if_neg (not_not.mpr hpos), if_neg (Nat.not_lt.mpr hle), huvalue, BitVec.ofNat_toNat, BitVec.setWidth_eq]
    exact ⟨s', rfl, hvs', hus'⟩

end RequireContract

/-- The parser of integers denotes the mathematical integer, and undoes the emitter. -/
theorem parseInteger_denotes {t : IntType} (ht : t.EncodableInt) :
    (∀ {σ : Type} [InputStream σ] (R : RequireContract σ) (s : InputBuffer σ) (h : ItemHead) (p rest : List UInt8)
      (d : BitVec t.width), R.Valid s → ReadFrom h p → R.unread s = p ++ rest →
      (t.signed → R.Denotes t (parseInteger t) s d t.Represents rest (t.denoted h)) ∧
      (¬ t.signed → ∀ limit, limit ≤ t.maxValue →
        R.Denotes t (parseUnsignedInteger t limit) s d (fun n => t.Represents n ∧ n ≤ limit) rest (t.denoted h))) ∧
    (∀ v : BitVec t.width,
      (∀ {σ : Type} [OutputStream σ] (C : OutputContract σ),
        Emits C (emitInteger t v) (Emitter.bytes fun _ _ => emitInteger t v)) ∧
      ∀ {σ : Type} [InputStream σ] (R : RequireContract σ) (s : InputBuffer σ) (rest : List UInt8) (d : BitVec t.width),
        R.Valid s → R.unread s = (Emitter.bytes fun _ _ => emitInteger t v) ++ rest →
        R.Parses (parseInteger t) s d (.ok ()) v rest) := by
  constructor
  · intro σ _ R s h p rest d hs hread hu
    constructor
    · intro hsigned
      rw [parseInteger, if_pos hsigned]
      exact RequireContract.denotes_parseSignedInteger ht hsigned hs hread hu d
    · exact fun hsigned limit hlimit => RequireContract.denotes_parseUnsignedInteger hsigned hlimit hs hread hu d
  · intro v
    have hputs := puts_emitInteger ht v
    refine ⟨fun C => hputs.self.emits C, fun R s rest d hs hu => ?_⟩
    rw [hputs.bytes_eq] at hu
    exact RequireContract.parses_emitInteger ht v hs hu d

/-- The smallest number of 8 bits. -/
theorem parseInteger_denotes_min :
    MemoryInputStream.contract.toRequire.Parses (parseInteger ⟨8, true⟩) (memoryInput [0x38, 0x7f]) 0#8 (.ok ())
      0x80#8 [] :=
  ((parseInteger_denotes (t := ⟨8, true⟩) (.inl rfl)).2 0x80#8).2 MemoryInputStream.contract.toRequire
    (memoryInput [0x38, 0x7f]) [] 0#8 (MemoryInputStream.valid_memory (by decide)) (by decide +kernel)

end DeepPack
