import DeepPack.Items.EmitCore
import DeepPack.Streams.DocumentedOutput

/-! The sizes of items, as the library computes them next to its emitters.

Sizes are 64 bit words and wrap. The size of a head is computed twice in the
library, by a bit scan and by comparisons, and both agree with what the emitter
writes. -/
namespace DeepPack
open Library

namespace Detail

/-- `var_uint_encoded_size_ct`: by a bit scan. -/
def varUintEncodedSizeCt (value : Nat) : Nat :=
  if value ≤ inlineValueMax then 1
  else
    let lastSetBitIndex := findLastSetBit value
    let bytePower := findLastSetBit lastSetBitIndex - 2
    1 + 1 <<< bytePower

/-- `var_uint_encoded_size_branching`: by comparisons, for constants. -/
def varUintEncodedSizeBranching (value : Nat) : Nat :=
  if value ≤ inlineValueMax then 1
  else if value ≤ 0xff then 2
  else if value ≤ 0xffff then 3
  else if value ≤ 0xffffffff then 5
  else 9

theorem bytePower_le_iff {value : Nat} (h : inlineValueMax < value) (p : Nat) :
    bytePower value ≤ p ↔ value < 256 ^ 2 ^ p := by
  refine ⟨fun hp => ?_, bytePower_le⟩
  obtain ⟨-, hbytes⟩ := findLastSetBit_bounds h
  exact hbytes.trans_le (Nat.pow_le_pow_right (by decide) (Nat.pow_le_pow_right (by decide) hp))

/-- The two computations agree on 64 bit values. -/
theorem varUintEncodedSize_agree {value : Nat} (h : value < wordLimit) :
    varUintEncodedSizeBranching value = varUintEncodedSizeCt value := by
  unfold varUintEncodedSizeBranching varUintEncodedSizeCt
  by_cases hinline : value ≤ inlineValueMax
  · rw [if_pos hinline, if_pos hinline]
  rw [if_neg hinline, if_neg hinline]
  show _ = 1 + 1 <<< bytePower value
  have h0 := bytePower_le_iff (Nat.lt_of_not_le hinline) 0
  have h1 := bytePower_le_iff (Nat.lt_of_not_le hinline) 1
  have h2 := bytePower_le_iff (Nat.lt_of_not_le hinline) 2
  have h3 : bytePower value ≤ 3 := bytePower_le (p := 3) h
  norm_num at h0 h1 h2
  generalize bytePower value = p at *
  interval_cases p
  · rw [if_pos (by omega)]
    rfl
  · rw [if_neg (by omega), if_pos (by omega)]
    rfl
  · rw [if_neg (by omega), if_neg (by omega), if_pos (by omega)]
    rfl
  · rw [if_neg (by omega), if_neg (by omega), if_neg (by omega)]
    rfl

theorem varUintEncodedSizeCt_eq (category : TypeCode) (value : Nat) :
    varUintEncodedSizeCt value = (varUintHead category value).length := by
  rw [varUintEncodedSizeCt, varUintHead]
  by_cases hinline : value ≤ inlineValueMax
  · rw [if_pos hinline, if_pos hinline, List.length_singleton]
  · rw [if_neg hinline, if_neg hinline, List.length_cons, toBytes_length, Nat.add_comm _ 1]
    show 1 + 1 <<< bytePower value = _
    rw [Nat.shiftLeft_eq, Nat.one_mul]

end Detail

def encodedItemHeadSize (type : TypeCode) (additionalInformationValue : Nat) : UInt64 :=
  match type with
  | .boolFalse | .boolTrue | .null | .undefined | .specialBreak => 1
  | .floatHalf => 3
  | .floatSingle => 5
  | .floatDouble => 9
  -- no item starts with this code alone; the source has no case for it
  | .specialExtended => 0
  | _ => UInt64.ofNat (Detail.varUintEncodedSizeCt additionalInformationValue)

def itemSizeOfInteger (t : IntType) (value : BitVec t.width) : UInt64 :=
  encodedItemHeadSize .posint (t.uvalue value).toNat

def itemSizeOfBinary (byteSize : Nat) : UInt64 := encodedItemHeadSize .binary byteSize + UInt64.ofNat byteSize

def itemSizeOfU8string (numCodeUnits : Nat) : UInt64 :=
  encodedItemHeadSize .text numCodeUnits + UInt64.ofNat numCodeUnits

def itemSizeOfBoolean (_ : Bool) : UInt64 := 1

def itemSizeOfFloatSingle (_ : BitVec 32) : UInt64 := 5

def itemSizeOfFloatDouble (_ : BitVec 64) : UInt64 := 9

def itemSizeOfNull : UInt64 := 1

/-- The types whose heads carry a number. -/
theorem encodedItemHeadSize_eq {m : Nat} (hm : m < 8) (category : TypeCode) (value : Nat) :
    encodedItemHeadSize (.ofMajor m) value = UInt64.ofNat (Detail.varUintHead category value).length := by
  rw [← Detail.varUintEncodedSizeCt_eq]
  interval_cases m <;> rfl

/-- The sign makes no difference to the size. -/
theorem itemSizeOfInteger_eq (t : IntType) (value : BitVec t.width) :
    itemSizeOfInteger t value =
      UInt64.ofNat (Detail.varUintHead (t.category value) (t.uvalue value).toNat).length :=
  encodedItemHeadSize_eq (m := 0) (by decide) _ _

theorem itemSizeOfBinary_eq (data : List UInt8) :
    itemSizeOfBinary data.length = UInt64.ofNat (Detail.varUintHead .binary data.length ++ data).length := by
  rw [List.length_append, UInt64.ofNat_add]
  exact congrArg (· + _) (encodedItemHeadSize_eq (m := 2) (by decide) _ _)

theorem itemSizeOfU8string_eq (data : List UInt8) :
    itemSizeOfU8string data.length = UInt64.ofNat (Detail.varUintHead .text data.length ++ data).length := by
  rw [List.length_append, UInt64.ofNat_add]
  exact congrArg (· + _) (encodedItemHeadSize_eq (m := 3) (by decide) _ _)

/-! ### An emitter and its size -/

/-- An emitter, for every stream. -/
abbrev Emitter : Type 1 := ∀ (σ : Type) [OutputStream σ], Output σ Unit

/-- What is committed to a stream that never ends. -/
def Emitter.bytes (x : Emitter) : List UInt8 := EndlessStream.output (x EndlessStream EndlessStream.fresh).2

/-- The emitter puts out these bytes on every stream, and the size is their number. -/
structure Puts (x : Emitter) (size : UInt64) (bytes : List UInt8) : Prop where
  emits : ∀ {σ : Type} [OutputStream σ] (C : OutputContract σ), Emits C (x σ) bytes
  size_eq : size = UInt64.ofNat bytes.length

namespace Puts
variable {x y : Emitter} {size size' : UInt64} {a b : List UInt8}

theorem bytes_eq (h : Puts x size a) : x.bytes = a := by
  obtain ⟨t, ht, -, hout⟩ := (h.emits EndlessStream.documented.contract).documented
    (s := EndlessStream.fresh) trivial
  rw [Emitter.bytes, ht]
  exact hout

/-- What is put out is what an endless stream takes. -/
theorem self (h : Puts x size a) : Puts x size x.bytes := by
  rwa [h.bytes_eq]

theorem nothing : Puts (fun _ _ => pure ()) 0 [] := ⟨fun _ => OutputContract.emits_pure, rfl⟩

theorem bind (hx : Puts x size a) (hy : Puts y size' b) :
    Puts (fun σ _ => x σ >>= fun _ => y σ) (size + size') (a ++ b) where
  emits C := OutputContract.emits_bind (hx.emits C) (hy.emits C)
  size_eq := by rw [hx.size_eq, hy.size_eq, List.length_append, UInt64.ofNat_add]

end Puts

theorem puts_emitInteger {t : IntType} (ht : t.EncodableInt) (value : BitVec t.width) :
    Puts (fun _ _ => emitInteger t value) (itemSizeOfInteger t value)
      (Detail.varUintHead (t.category value) (t.uvalue value).toNat) :=
  ⟨fun _ => emits_emitInteger ht value, itemSizeOfInteger_eq t value⟩

theorem puts_emitBinary {data : List UInt8} (h : data.length < wordLimit) :
    Puts (fun _ _ => emitBinary data) (itemSizeOfBinary data.length)
      (Detail.varUintHead .binary data.length ++ data) :=
  ⟨fun _ => emits_emitBinary h, itemSizeOfBinary_eq data⟩

theorem puts_emitU8string {data : List UInt8} (h : data.length < wordLimit) :
    Puts (fun _ _ => emitU8string data) (itemSizeOfU8string data.length)
      (Detail.varUintHead .text data.length ++ data) :=
  ⟨fun _ => emits_emitU8string h, itemSizeOfU8string_eq data⟩

theorem puts_emitArray {n : Nat} (h : n < wordLimit) :
    Puts (fun _ _ => emitArray n) (encodedItemHeadSize .array n) (Detail.varUintHead .array n) :=
  ⟨fun _ => emits_emitArray h, encodedItemHeadSize_eq (m := 4) (by decide) _ _⟩

theorem puts_emitMap {n : Nat} (h : n < wordLimit) :
    Puts (fun _ _ => emitMap n) (encodedItemHeadSize .map n) (Detail.varUintHead .map n) :=
  ⟨fun _ => emits_emitMap h, encodedItemHeadSize_eq (m := 5) (by decide) _ _⟩

theorem puts_emitBoolean (value : Bool) :
    Puts (fun _ _ => emitBoolean value) (itemSizeOfBoolean value) [initialByte 7 (20 + value.toNat)] := by
  have hbyte : UInt8.ofNat (value.toNat ||| TypeCode.boolFalse.toByte.toNat) = initialByte 7 (20 + value.toNat) := by
    cases value <;> rfl
  rw [← hbyte]
  exact ⟨fun _ => Detail.emits_storeInlineValue _ _, rfl⟩

theorem puts_emitNull : Puts (fun _ _ => emitNull) itemSizeOfNull [initialByte 7 22] :=
  ⟨fun _ => Detail.emits_storeInlineValue _ _, rfl⟩

theorem puts_emitBreak : Puts (fun _ _ => emitBreak) 1 [breakByte] :=
  ⟨fun _ => Detail.emits_storeInlineValue _ _, rfl⟩

theorem puts_emitFloatSingle (value : BitVec 32) :
    Puts (fun _ _ => emitFloatSingle value) (itemSizeOfFloatSingle value)
      (initialByte 7 26 :: toBytes 4 value.toNat) :=
  ⟨fun _ => Detail.emits_emitFloat (by decide), by rw [List.length_cons, toBytes_length]; rfl⟩

theorem puts_emitFloatDouble (value : BitVec 64) :
    Puts (fun _ _ => emitFloatDouble value) (itemSizeOfFloatDouble value)
      (initialByte 7 27 :: toBytes 8 value.toNat) :=
  ⟨fun _ => Detail.emits_emitFloat (by decide), by rw [List.length_cons, toBytes_length]; rfl⟩

end DeepPack
