import DeepPack.Items.WellFormed
import DeepPack.Streams.OutputContract

/-! The emitters of heads and scalar items.

A head is written in one of two ways. With enough memory in front of it the whole
word is stored behind the first byte, the argument shifted to its top, and only the
bytes that count are committed; near the end of a buffer each width is stored by
itself. Both put out `varUintHead`. -/
namespace DeepPack
open Library OutputBuffer

namespace Detail
variable {σ : Type} [OutputStream σ]

/-- `find_last_set_bit`. -/
def findLastSetBit (value : Nat) : Nat := Nat.log2 value

/-- The end-of-stream path: exactly `byteSize` bytes are asked for and written. -/
def storeVarUintEos (value category bytePowerPlus2 byteSize : Nat) : Output σ Unit := do
  reserve byteSize
  match bytePowerPlus2 with
  | 1 => do
    store 0 [UInt8.ofNat value]
    commitWritten byteSize
  | 2 => do
    store 0 [UInt8.ofNat (category ||| 24)]
    store 1 [UInt8.ofNat value]
    commitWritten byteSize
  | 3 => do
    store 0 [UInt8.ofNat (category ||| 25)]
    store 1 (toBytes 2 value)
    commitWritten byteSize
  | 4 => do
    store 0 [UInt8.ofNat (category ||| 26)]
    store 1 (toBytes 4 value)
    commitWritten byteSize
  | 5 => do
    store 0 [UInt8.ofNat (category ||| 27)]
    store 1 (toBytes 8 value)
    commitWritten byteSize
  | _ => commitWritten byteSize

/-- Stores a head whose width is known, in the way the free memory allows. -/
def storeCoded (digits value rcategory bytePowerPlus2 bitSize byteSize : Nat) : Output σ Unit := do
  if (← size) < 1 + digits / 8 then storeVarUintEos value rcategory bytePowerPlus2 byteSize
  else do
    store 0 [UInt8.ofNat (rcategory + inlineValueMax + bytePowerPlus2 - 1)]
    store 1 (toBytes (digits / 8) ((value <<< (digits - bitSize)) % 2 ^ digits))
    commitWritten byteSize

/-- `store_var_uint` for an unsigned type of `digits` bits. -/
def storeVarUint (digits value : Nat) (category : TypeCode) : Output σ Unit :=
  let rcategory := category.toByte.toNat
  if value ≤ inlineValueMax then
    let value := value + rcategory
    storeCoded digits value (wrapSub 32 value inlineValueMax) 1 1 1
  else
    let lastSetBitIndex := findLastSetBit value
    let bytePowerPlus2 := findLastSetBit lastSetBitIndex
    let bitSize := 2 <<< bytePowerPlus2
    storeCoded digits value rcategory bytePowerPlus2 bitSize (1 + bitSize >>> 3)

def storeInlineValue (value : Nat) (category : TypeCode) : Output σ Unit := do
  reserve 1
  store 0 [UInt8.ofNat (value ||| category.toByte.toNat)]
  commitWritten 1

/-- The emitters of the two floating point types: a first byte and the pattern. -/
def emitFloat (category : TypeCode) (byteSize pattern : Nat) : Output σ Unit := do
  reserve (1 + byteSize)
  store 0 [category.toByte]
  store 1 (toBytes byteSize pattern)
  commitWritten (1 + byteSize)

/-! ### The bytes of a head -/

/-- How many bytes an argument above 23 takes, as a power of two. -/
def bytePower (value : Nat) : Nat := findLastSetBit (findLastSetBit value) - 2

/-- The shortest head for a value. -/
def varUintHead (category : TypeCode) (value : Nat) : List UInt8 :=
  if value ≤ inlineValueMax then [UInt8.ofNat (category.toByte.toNat + value)]
  else UInt8.ofNat (category.toByte.toNat + 24 + bytePower value) :: toBytes (2 ^ bytePower value) value

theorem findLastSetBit_bounds {value : Nat} (h : inlineValueMax < value) :
    findLastSetBit (findLastSetBit value) = bytePower value + 2 ∧ value < 256 ^ 2 ^ bytePower value := by
  simp only [inlineValueMax] at h
  have h4 : 4 ≤ Nat.log2 value := (Nat.le_log2 (by omega)).mpr (by omega)
  have h2 : 2 ≤ Nat.log2 (Nat.log2 value) := (Nat.le_log2 (by omega)).mpr (by omega)
  have hsum : Nat.log2 (Nat.log2 value) = bytePower value + 2 := by
    simp only [bytePower, findLastSetBit]
    omega
  refine ⟨hsum, ?_⟩
  have hlog : Nat.log2 value < 2 ^ (bytePower value + 2 + 1) := by
    rw [← hsum]
    exact Nat.lt_log2_self
  have hvalue : value < 2 ^ (Nat.log2 value + 1) := Nat.lt_log2_self
  calc value < 2 ^ (Nat.log2 value + 1) := hvalue
    _ ≤ 2 ^ 2 ^ (bytePower value + 3) := Nat.pow_le_pow_right (by decide) hlog
    _ = 256 ^ 2 ^ bytePower value := by
      rw [show (256 : Nat) = 2 ^ 2 ^ 3 by decide, ← pow_mul, ← pow_add, Nat.add_comm]

/-- A value of so many bits takes at most so many bytes. -/
theorem bytePower_le {value p : Nat} (h : value < 256 ^ 2 ^ p) : bytePower value ≤ p := by
  by_cases hsmall : Nat.log2 value = 0
  · simp [bytePower, findLastSetBit, hsmall]
  have hne : value ≠ 0 := by
    intro heq
    subst heq
    exact hsmall rfl
  have hlog : Nat.log2 value < 2 ^ (p + 3) := by
    rw [Nat.log2_lt hne, pow_add, pow_mul', ← show (256 : Nat) = 2 ^ 2 ^ 3 by decide]
    exact h
  have hloglog : Nat.log2 (Nat.log2 value) < p + 3 := (Nat.log2_lt hsmall).mpr hlog
  simp only [bytePower, findLastSetBit]
  omega

theorem varUintHead_length_le {value digits : Nat} (hd : digits = 32 ∨ digits = 64) (hv : value < 2 ^ digits)
    (category : TypeCode) : (varUintHead category value).length ≤ 1 + digits / 8 := by
  rw [varUintHead]
  split
  · simp
  · rw [List.length_cons, toBytes_length, Nat.add_comm]
    rcases hd with rfl | rfl
    · have hp : 2 ^ bytePower value ≤ 2 ^ 2 := Nat.pow_le_pow_right (by decide) (bytePower_le hv)
      omega
    · have hp : 2 ^ bytePower value ≤ 2 ^ 3 := Nat.pow_le_pow_right (by decide) (bytePower_le hv)
      omega

/-! ### What the emitters put out -/

section Emits
variable {C : OutputContract σ} {value digits : Nat} {category : TypeCode}

theorem or_category (hcat : category.toByte.toNat % 32 = 0) {p : Nat} (hp : p ≤ 3) :
    category.toByte.toNat ||| (24 + p) = category.toByte.toNat + 24 + p := by
  revert hcat
  interval_cases p <;> cases category <;> decide

/-- Asking for the bytes of a head, writing and committing them. -/
theorem emits_head {c : UInt8} {tail : List UInt8} {n : Nat} (hn : n = 1 + tail.length) (h9 : n ≤ 9) :
    Emits C (do
      reserve n
      store 0 [c]
      store 1 tail
      commitWritten n) (c :: tail) := by
  subst hn
  apply OutputContract.emits_reserve (h9.trans (by decide)) (by rw [List.length_cons, Nat.add_comm])
  intro s out hs hroom
  have hstore := OutputContract.store_pair_commit hs c le_rfl hroom
  have hall : (c :: tail).take (1 + tail.length) = c :: tail := by
    rw [Nat.add_comm, ← List.length_cons (a := c), List.take_length]
  rwa [hall] at hstore

theorem emits_byte (c : UInt8) : Emits C (do
    reserve 1
    store 0 [c]
    commitWritten 1) [c] :=
  OutputContract.emits_reserve (by decide) rfl fun _ _ hs hroom => OutputContract.store_byte_commit hs c hroom

theorem emits_storeVarUintEos (hcat : category.toByte.toNat % 32 = 0) {p : Nat} (hp : p ≤ 3) :
    Emits C (storeVarUintEos value category.toByte.toNat (p + 2) (1 + 2 ^ p))
      (UInt8.ofNat (category.toByte.toNat + 24 + p) :: toBytes (2 ^ p) value) := by
  rw [← or_category hcat hp]
  have hbyte : [UInt8.ofNat value] = toBytes 1 value := by rw [toBytes, toBytes, pow_zero, Nat.div_one]
  unfold storeVarUintEos
  interval_cases p
  · rw [pow_zero, ← hbyte]
    exact emits_head rfl (by decide)
  · exact emits_head rfl (by decide)
  · exact emits_head rfl (by decide)
  · exact emits_head rfl (by decide)

/-- With enough memory or with little, the same bytes are committed. -/
theorem emits_storeCoded {rcategory bytePowerPlus2 bitSize byteSize : Nat} {tail : List UInt8}
    (hlen : byteSize = 1 + tail.length) (hle : byteSize ≤ 1 + digits / 8)
    (htail : (toBytes (digits / 8) ((value <<< (digits - bitSize)) % 2 ^ digits)).take tail.length = tail)
    (heos : Emits C (storeVarUintEos value rcategory bytePowerPlus2 byteSize)
      (UInt8.ofNat (rcategory + inlineValueMax + bytePowerPlus2 - 1) :: tail)) :
    Emits C (storeCoded digits value rcategory bytePowerPlus2 bitSize byteSize)
      (UInt8.ofNat (rcategory + inlineValueMax + bytePowerPlus2 - 1) :: tail) := by
  intro s out hs
  unfold storeCoded
  rw [size, Action.gets_bind_apply]
  by_cases hsmall : s.free.length < 1 + digits / 8
  · rw [if_pos hsmall]
    exact heos s out hs
  rw [if_neg hsmall]
  have hword : (toBytes (digits / 8) ((value <<< (digits - bitSize)) % 2 ^ digits)).length = digits / 8 :=
    toBytes_length _ _
  have hstore := OutputContract.store_pair_commit hs (UInt8.ofNat (rcategory + inlineValueMax + bytePowerPlus2 - 1))
    (k := byteSize) (by rw [hword]; exact hle) (by rw [hword]; omega)
  rw [hlen, Nat.add_comm 1, List.take_succ_cons, htail, Nat.add_comm _ 1, ← hlen] at hstore
  have hfits : C.limit.Fits
      (out.length + (UInt8.ofNat (rcategory + inlineValueMax + bytePowerPlus2 - 1) :: tail).length) :=
    (C.room hs).mono (by rw [List.length_cons]; omega)
  exact ⟨fun _ => hstore, fun hno => absurd hfits hno⟩

/-- The argument at the top of a word is what its first bytes denote. -/
theorem toBytes_shifted {p : Nat} (hle : 8 * 2 ^ p ≤ digits) (hd : digits % 8 = 0) :
    (toBytes (digits / 8) ((value <<< (digits - 8 * 2 ^ p)) % 2 ^ digits)).take (2 ^ p) = toBytes (2 ^ p) value := by
  obtain ⟨k, hk⟩ : ∃ k, digits / 8 = 2 ^ p + k := ⟨digits / 8 - 2 ^ p, by omega⟩
  have hdigits : digits = 8 * (2 ^ p + k) := by omega
  have hshift : digits - 8 * 2 ^ p = 8 * k := by omega
  rw [hk, hshift, toBytes_take, Nat.shiftLeft_eq, hdigits, pow_mul, pow_mul,
    show (2 : Nat) ^ 8 = 256 by decide, pow_add, Nat.mul_comm value, Nat.mul_comm (256 ^ 2 ^ p),
    Nat.mul_mod_mul_left, Nat.mul_div_cancel_left _ (by positivity), toBytes_mod le_rfl]

theorem emits_storeVarUint (hd : digits = 32 ∨ digits = 64) (hv : value < 2 ^ digits)
    (hcat : category.toByte.toNat % 32 = 0) :
    Emits C (storeVarUint digits value category) (varUintHead category value) := by
  unfold storeVarUint varUintHead
  dsimp only
  by_cases hinline : value ≤ inlineValueMax
  · rw [if_pos hinline, if_pos hinline]
    have hfirst : UInt8.ofNat (wrapSub 32 (value + category.toByte.toNat) inlineValueMax + inlineValueMax + 1 - 1) =
        UInt8.ofNat (category.toByte.toNat + value) := by
      have hbyte := category.toByte.toNat_lt
      rw [← UInt8.toNat_inj, UInt8.toNat_ofNat', UInt8.toNat_ofNat']
      simp only [wrapSub, inlineValueMax] at *
      omega
    rw [← hfirst]
    refine emits_storeCoded rfl (by omega) rfl ?_
    rw [hfirst, Nat.add_comm category.toByte.toNat]
    exact emits_byte _
  · rw [if_neg hinline, if_neg hinline]
    obtain ⟨hpower, -⟩ := findLastSetBit_bounds (Nat.lt_of_not_le hinline)
    rw [hpower]
    generalize hp : bytePower value = p
    have hfirst : category.toByte.toNat + 24 + p = category.toByte.toNat + inlineValueMax + (p + 2) - 1 := by
      simp only [inlineValueMax]
      omega
    have hbits : 2 <<< (p + 2) = 8 * 2 ^ p := by
      rw [Nat.shiftLeft_eq, pow_add]
      ring
    have hsize : 1 + (8 * 2 ^ p) >>> 3 = 1 + 2 ^ p := by
      rw [Nat.shiftRight_eq_div_pow]
      omega
    have hp3 : p ≤ 3 := by
      rw [← hp]
      rcases hd with rfl | rfl
      · exact (bytePower_le (p := 2) hv).trans (by decide)
      · exact bytePower_le (p := 3) hv
    have hwide : 8 * 2 ^ p ≤ digits := by
      rcases hd with rfl | rfl
      · have h2 : p ≤ 2 := by rw [← hp]; exact bytePower_le (p := 2) hv
        have := Nat.pow_le_pow_right (show 0 < 2 by decide) h2
        omega
      · have := Nat.pow_le_pow_right (show 0 < 2 by decide) hp3
        omega
    rw [hbits, hsize, hfirst]
    refine emits_storeCoded (by rw [toBytes_length]) (by omega) ?_ ?_
    · rw [toBytes_length]
      exact toBytes_shifted hwide (by omega)
    · rw [← hfirst]
      exact emits_storeVarUintEos hcat hp3

theorem emits_storeInlineValue (value : Nat) (category : TypeCode) :
    Emits C (storeInlineValue value category) [UInt8.ofNat (value ||| category.toByte.toNat)] :=
  emits_byte _

theorem emits_emitFloat {byteSize pattern : Nat} (h : byteSize ≤ 8) :
    Emits C (emitFloat category byteSize pattern) (category.toByte :: toBytes byteSize pattern) :=
  emits_head (by rw [toBytes_length]) (by omega)

end Emits

/-! ### A shortest head is a head of the grammar -/

theorem toByte_ofMajor {m : Nat} (hm : m < 8) : (TypeCode.ofMajor m).toByte.toNat = m * 32 := by
  interval_cases m <;> rfl

theorem head_varUintHead {m v : Nat} (hm : m < 8) (hv : v < wordLimit) :
    ∃ info, Head m info v (varUintHead (.ofMajor m) v) := by
  rw [varUintHead, toByte_ofMajor hm]
  by_cases hinline : v ≤ inlineValueMax
  · rw [if_pos hinline]
    exact ⟨v, .inline hinline⟩
  · rw [if_neg hinline]
    obtain ⟨-, hbytes⟩ := findLastSetBit_bounds (Nat.lt_of_not_le hinline)
    have hp : bytePower v ≤ 3 := bytePower_le (p := 3) hv
    have hhead : Head m (24 + bytePower v) _ _ := .payload hp (toBytes_length (2 ^ bytePower v) v)
    rw [ofBytes_toBytes_of_lt hbytes, initialByte, ← Nat.add_assoc] at hhead
    exact ⟨_, hhead⟩

end Detail

/-! ### The emitters of `emit_core` -/

/-- `encodable_int`: the integer types with an encoding. -/
def IntType.EncodableInt (t : IntType) : Prop := t.width = 8 ∨ t.width = 16 ∨ t.width = 32 ∨ t.width = 64

/-- `encoder_uint_t`: the digits of the unsigned type an integer is coded as. -/
def IntType.encoderDigits (t : IntType) : Nat := if t.width ≤ 32 then 32 else 64

/-- All bits are the sign bit. -/
def IntType.signmask (t : IntType) (value : BitVec t.width) : BitVec t.width := value.sshiftRight (t.width - 1)

/-- The argument of an integer's head: negative numbers are complemented. -/
def IntType.uvalue (t : IntType) (value : BitVec t.width) : BitVec t.width :=
  if t.signed then t.signmask value ^^^ value else value

def IntType.category (t : IntType) (value : BitVec t.width) : TypeCode :=
  if t.signed ∧ t.signmask value &&& BitVec.ofNat t.width TypeCode.negint.toByte.toNat ≠ 0 then .negint
  else .posint

theorem IntType.category_eq (t : IntType) (value : BitVec t.width) :
    ∃ m, (m = 0 ∨ m = 1) ∧ t.category value = .ofMajor m := by
  rw [IntType.category]
  split
  · exact ⟨1, .inr rfl, rfl⟩
  · exact ⟨0, .inl rfl, rfl⟩

theorem IntType.uvalue_lt {t : IntType} (ht : t.EncodableInt) (value : BitVec t.width) :
    (t.uvalue value).toNat < wordLimit := by
  refine (t.uvalue value).isLt.trans_le (Nat.pow_le_pow_right (by decide) ?_)
  rcases ht with h | h | h | h <;> omega

section Emitters
variable {σ : Type} [OutputStream σ]

def emitInteger (t : IntType) (value : BitVec t.width) : Output σ Unit :=
  Detail.storeVarUint t.encoderDigits (t.uvalue value).toNat (t.category value)

def emitBinary (data : List UInt8) : Output σ Unit := do
  Detail.storeVarUint 64 data.length .binary
  bulkWrite data

def emitU8string (data : List UInt8) : Output σ Unit := do
  Detail.storeVarUint 64 data.length .text
  bulkWrite data

def emitArray (numElements : Nat) : Output σ Unit := Detail.storeVarUint 64 numElements .array

def emitMap (numElements : Nat) : Output σ Unit := Detail.storeVarUint 64 numElements .map

def emitBoolean (value : Bool) : Output σ Unit := Detail.storeInlineValue value.toNat .boolFalse

def emitFloatSingle (value : BitVec 32) : Output σ Unit := Detail.emitFloat .floatSingle 4 value.toNat

def emitFloatDouble (value : BitVec 64) : Output σ Unit := Detail.emitFloat .floatDouble 8 value.toNat

def emitNull : Output σ Unit := Detail.storeInlineValue 0 .null

def emitBreak : Output σ Unit := Detail.storeInlineValue 0 .specialBreak

variable {C : OutputContract σ}

theorem emits_emitInteger {t : IntType} (ht : t.EncodableInt) (value : BitVec t.width) :
    Emits C (emitInteger t value) (Detail.varUintHead (t.category value) (t.uvalue value).toNat) := by
  refine Detail.emits_storeVarUint ?_ ?_ ?_
  · rw [IntType.encoderDigits]
    split
    · exact .inl rfl
    · exact .inr rfl
  · refine (t.uvalue value).isLt.trans_le (Nat.pow_le_pow_right (by decide) ?_)
    rw [IntType.encoderDigits]
    rcases ht with h | h | h | h <;> rw [h] <;> decide
  · rw [IntType.category]
    split <;> rfl

theorem emits_emitBinary {data : List UInt8} (h : data.length < wordLimit) :
    Emits C (emitBinary data) (Detail.varUintHead .binary data.length ++ data) :=
  OutputContract.emits_bind (Detail.emits_storeVarUint (.inr rfl) h rfl) (OutputContract.emits_bulkWrite data)

theorem emits_emitU8string {data : List UInt8} (h : data.length < wordLimit) :
    Emits C (emitU8string data) (Detail.varUintHead .text data.length ++ data) :=
  OutputContract.emits_bind (Detail.emits_storeVarUint (.inr rfl) h rfl) (OutputContract.emits_bulkWrite data)

theorem emits_emitArray {n : Nat} (h : n < wordLimit) : Emits C (emitArray n) (Detail.varUintHead .array n) :=
  Detail.emits_storeVarUint (.inr rfl) h rfl

theorem emits_emitMap {n : Nat} (h : n < wordLimit) : Emits C (emitMap n) (Detail.varUintHead .map n) :=
  Detail.emits_storeVarUint (.inr rfl) h rfl

end Emitters
end DeepPack
