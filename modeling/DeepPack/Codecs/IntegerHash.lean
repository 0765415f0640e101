import DeepPack.Codecs.PerfectLookup
import DeepPack.Library.Mixing

/-! The seeded hash of integers.

The value is xored to a pad made from the seed, and then mixed. All steps of the mixer can
be undone but the first: it is the difference of two rotations of the word, without the
word itself, and so the same for a word and its complement. -/
namespace DeepPack.Detail
open Library

def rotl (v n : UInt64) : UInt64 := v <<< n ||| v >>> (64 - n)

def byteSwapU32 (x : UInt32) : UInt32 :=
  let step16 := x <<< 16 ||| x >>> 16
  ((step16 <<< 8) &&& (0xff00ff00 : UInt32)) ||| ((step16 >>> 8) &&& (0x00ff00ff : UInt32))

/-- What the value is xored to, before it is mixed. -/
def xorpad (seed : UInt64) : UInt64 :=
  let iv0 : UInt64 := 0x1cad212c81f7017c
  let iv1 : UInt64 := 0xdb979083e96dd4de
  let ivx := iv0 ^^^ iv1
  let mixedSeed := seed ^^^ ((byteSwapU32 seed.toUInt32).toUInt64 <<< 32)
  ivx - mixedSeed

def rrmxmx (spread length : UInt64) : UInt64 :=
  let r1 := rotl spread 49
  let r2 := rotl spread 24
  let rx := r1 ^^^ r2
  let m1 := rx * 0x9fb21c651e98df25
  let x1 := m1 ^^^ ((m1 >>> 35) + length)
  let m2 := x1 * 0x9fb21c651e98df25
  m2 ^^^ (m2 >>> 28)

def xxhash3FixedImpl (val seed length : UInt64) : UInt64 := rrmxmx (val ^^^ xorpad seed) length

def stretched (value : UInt32) : UInt64 := value.toUInt64 ||| (value.toUInt64 <<< 32)

def xxhash3Ui32 (value : UInt32) (seed : UInt64) : UInt64 :=
  xxhash3FixedImpl (stretched value) seed 4

def swapped (value : UInt64) : UInt64 := (value <<< 32) ||| (value >>> 32)

def xxhash3Ui64 (value seed : UInt64) : UInt64 :=
  xxhash3FixedImpl (swapped value) seed 8

/-! ### The mixer -/

section Mixer
variable {a b length : UInt64}

theorem rotations_inj : rotl a 49 ^^^ rotl a 24 = rotl b 49 ^^^ rotl b 24 ↔ a = b ∨ b = ~~~a := by
  have hrotl : ∀ v : UInt64, (rotl v 49).toBitVec = v.toBitVec.rotateLeft 49 ∧
      (rotl v 24).toBitVec = v.toBitVec.rotateLeft 24 := by
    intro v
    simp [rotl, BitVec.rotateLeft_def]
  rw [← UInt64.toBitVec_inj, ← UInt64.toBitVec_inj, ← UInt64.toBitVec_inj, UInt64.toBitVec_xor, UInt64.toBitVec_xor,
    UInt64.toBitVec_not, (hrotl a).1, (hrotl a).2, (hrotl b).1, (hrotl b).2]
  exact rotateLeft_xor_rotateLeft_inj (by decide) (by decide)

theorem multiply_inj : a * 0x9fb21c651e98df25 = b * 0x9fb21c651e98df25 ↔ a = b := by
  rw [← UInt64.toBitVec_inj, ← UInt64.toBitVec_inj, UInt64.toBitVec_mul, UInt64.toBitVec_mul]
  exact mul_inj_of_inverse (d := 0x02ab9c720d1024ad) (by decide)

theorem xorShiftLength_inj (hlength : length.toNat < 2 ^ 34) :
    a ^^^ ((a >>> 35) + length) = b ^^^ ((b >>> 35) + length) ↔ a = b := by
  rw [← UInt64.toBitVec_inj, ← UInt64.toBitVec_inj]
  have hlower : ∀ x : BitVec 64, ((x >>> 35) + length.toBitVec) >>> 35 = 0 := by
    intro x
    apply BitVec.eq_of_toNat_eq
    simp
    omega
  exact xor_lower_inj (f := fun x => x + length.toBitVec) hlower

theorem xorShift28_inj : a ^^^ (a >>> 28) = b ^^^ (b >>> 28) ↔ a = b := by
  rw [← UInt64.toBitVec_inj, ← UInt64.toBitVec_inj]
  exact xorShift_inj (k := 28) (by decide)

/-- The mixer tells words apart that are not each other's complement. -/
theorem rrmxmx_inj (hlength : length.toNat < 2 ^ 34) : rrmxmx a length = rrmxmx b length ↔ a = b ∨ b = ~~~a := by
  unfold rrmxmx
  rw [xorShift28_inj, multiply_inj, xorShiftLength_inj hlength, multiply_inj, rotations_inj]

theorem xxhash3FixedImpl_inj (seed : UInt64) (hlength : length.toNat < 2 ^ 34) :
    xxhash3FixedImpl a seed length = xxhash3FixedImpl b seed length ↔ a = b ∨ b = ~~~a := by
  unfold xxhash3FixedImpl
  rw [rrmxmx_inj hlength, ← UInt64.not_xor, UInt64.xor_left_inj, UInt64.xor_left_inj]

end Mixer

theorem toBitVec_stretched (a : UInt32) : (stretched a).toBitVec = a.toBitVec ++ a.toBitVec := by
  apply BitVec.eq_of_getLsbD_eq
  intro i hi
  rw [BitVec.getLsbD_append]
  by_cases hlow : i < 32
  · simp only [stretched, UInt64.toBitVec_or, UInt64.toBitVec_shiftLeft, UInt32.toBitVec_toUInt64]
    simp [hlow, hi]
  · have hnone : a.toBitVec.getLsbD i = false := BitVec.getLsbD_of_ge _ _ (by omega)
    simp [stretched, hlow, hi, hnone]

theorem stretched_inj {a b : UInt32} : stretched a = stretched b ↔ a = b := by
  constructor
  · intro h
    have hlow : ∀ v : UInt32, (stretched v).toUInt32 = v := by
      intro v
      apply UInt32.toBitVec_inj.mp
      apply BitVec.eq_of_getLsbD_eq
      intro i hi
      simp [stretched, hi]
    rw [← hlow a, h, hlow b]
  · rintro rfl
    rfl

theorem stretched_not (a : UInt32) : stretched (~~~a) = ~~~stretched a := by
  rw [← UInt64.toBitVec_inj, UInt64.toBitVec_not, toBitVec_stretched, toBitVec_stretched, UInt32.toBitVec_not,
    BitVec.not_append]

theorem toBitVec_swapped (a : UInt64) : (swapped a).toBitVec = a.toBitVec.rotateLeft 32 := by
  simp [swapped, BitVec.rotateLeft_def]

theorem swapped_inj {a b : UInt64} : swapped a = swapped b ↔ a = b := by
  rw [← UInt64.toBitVec_inj, ← UInt64.toBitVec_inj, toBitVec_swapped, toBitVec_swapped]
  exact rotateLeft_inj

theorem swapped_not (a : UInt64) : swapped (~~~a) = ~~~swapped a := by
  rw [← UInt64.toBitVec_inj, UInt64.toBitVec_not, toBitVec_swapped, toBitVec_swapped, UInt64.toBitVec_not]
  exact rotateLeft_not a.toBitVec 32

/-! ### The values the hash tells apart -/

theorem xxhash3Ui32_inj {a b : UInt32} (seed : UInt64) :
    xxhash3Ui32 a seed = xxhash3Ui32 b seed ↔ a = b ∨ b = ~~~a := by
  unfold xxhash3Ui32
  rw [xxhash3FixedImpl_inj seed (by decide), ← stretched_not, stretched_inj, stretched_inj]

theorem xxhash3Ui64_inj {a b : UInt64} (seed : UInt64) :
    xxhash3Ui64 a seed = xxhash3Ui64 b seed ↔ a = b ∨ b = ~~~a := by
  unfold xxhash3Ui64
  rw [xxhash3FixedImpl_inj seed (by decide), ← swapped_not, swapped_inj, swapped_inj]

theorem only_equal_iff {α : Type} {a b other : α} (hother : other ≠ a) :
    (a = b ∨ b = other → a = b) ↔ b ≠ other := by
  constructor
  · rintro h rfl
    exact hother (h (.inr rfl)).symm
  · rintro hne (h | h)
    · exact h
    · exact absurd h hne

/-- The keys are hashed as integers, and these two as one and its complement. -/
def HashedComplements {T : Type} (H : KeyHash T) (a b : T) : Prop :=
  (∃ id : T → UInt64, H.seeded = (fun key => xxhash3Ui64 (id key)) ∧ id b = ~~~id a) ∨
    ∃ id : T → UInt32, H.seeded = (fun key => xxhash3Ui32 (id key)) ∧ id b = ~~~id a

theorem HashedComplements.seeded_eq {T : Type} {H : KeyHash T} {a b : T} (h : HashedComplements H a b) :
    H.seeded a = H.seeded b ∧ a ≠ b := by
  rcases h with ⟨id, hseeded, hid⟩ | ⟨id, hseeded, hid⟩
  · constructor
    · funext seed
      rw [hseeded]
      exact (xxhash3Ui64_inj seed).mpr (.inr hid)
    · rintro rfl
      exact UInt64.not_ne_self hid.symm
  · constructor
    · funext seed
      rw [hseeded]
      exact (xxhash3Ui32_inj seed).mpr (.inr hid)
    · rintro rfl
      exact UInt32.not_ne_self hid.symm

/-- Whatever the seed, the hash tells two values apart exactly if they are not each other's
complement; and a perfect hasher with two such ids in one bucket is never made. -/
theorem xxhash3_separates_iff (seed : UInt64) :
    (∀ a b : UInt64, (xxhash3Ui64 a seed = xxhash3Ui64 b seed → a = b) ↔ b ≠ ~~~a) ∧
    (∀ a b : UInt32, (xxhash3Ui32 a seed = xxhash3Ui32 b seed → a = b) ↔ b ≠ ~~~a) ∧
    ∀ (T : Type) [LinearOrder T] (H : KeyHash T) (S : Sorting largerPattern) (K : PerfectHasher.KeySet T)
      (rerolls i j : Nat) (hi : i < K.keys.length) (hj : j < K.keys.length), rerolls < 2 ^ 32 →
      PerfectHasher.flhash H K.keys K.keys[i] = PerfectHasher.flhash H K.keys K.keys[j] →
      HashedComplements H K.keys[i] K.keys[j] → PerfectHasher.construct H K.keys S rerolls = .error .running := by
  refine ⟨?_, ?_, ?_⟩
  · intro a b
    rw [xxhash3Ui64_inj]
    exact only_equal_iff UInt64.not_ne_self
  · intro a b
    rw [xxhash3Ui32_inj]
    exact only_equal_iff UInt32.not_ne_self
  · intro T _ H S K rerolls i j hi hj hrerolls hbucket hcomplements
    obtain ⟨hseeds, hkeys⟩ := hcomplements.seeded_eq
    have hne : i ≠ j := by
      rintro rfl
      exact hkeys rfl
    exact PerfectHasher.construct_collision H S K hrerolls hi hj hne hbucket hseeds

/-- The ids 0 and `2 ^ 64 - 1`, with three others, as a property's ids are hashed. -/
theorem xxhash3_separates_iff_five :
    PerfectHasher.construct ⟨UInt64.ofNat, fun id => xxhash3Ui64 (UInt64.ofNat id)⟩ [0, 1, 2, 3, 2 ^ 64 - 1]
      PerfectHasher.sortPatterns 1000000 = .error .running := by
  apply (xxhash3_separates_iff 0).2.2 Nat _ PerfectHasher.sortPatterns
    ⟨[0, 1, 2, 3, 2 ^ 64 - 1], by decide, by decide, by decide⟩ 1000000 0 4 (by decide) (by decide) (by decide)
  · decide +kernel
  · exact .inl ⟨UInt64.ofNat, rfl, by decide⟩

theorem xxhash3_not_injective :
    ¬ ∀ seed, Function.Injective (fun value => xxhash3Ui64 value seed) ∧
      Function.Injective (fun value => xxhash3Ui32 value seed) := by
  intro h
  have hsame : xxhash3Ui32 0 0 = xxhash3Ui32 0xffffffff 0 := by decide +kernel
  exact absurd ((h 0).2 hsame) (by decide)

end DeepPack.Detail
