import DeepPack.Codecs.Codec

/-! The codecs of scalars, strings and byte ranges. -/
namespace DeepPack
open Library

/-! ### `core` -/

def nullEncoder : Encoder Unit where
  IsValue _ := True
  sizeOf _ := itemSizeOfNull
  encode _ _ := emitNull

def integerEncoder (t : IntType) : Encoder (BitVec t.width) where
  IsValue _ := True
  sizeOf := itemSizeOfInteger t
  encode value _ := emitInteger t value

def integerDecoder (t : IntType) : Decoder (BitVec t.width) where
  init := 0
  decode _ := parseInteger t

def boolEncoder : Encoder Bool where
  IsValue _ := True
  sizeOf := itemSizeOfBoolean
  encode value _ := emitBoolean value

def boolDecoder : Decoder Bool where
  init := false
  decode _ := parseBoolean

def floatEncoder : Encoder (BitVec 32) where
  IsValue _ := True
  sizeOf := itemSizeOfFloatSingle
  encode value _ := emitFloatSingle value

def floatDecoder : Decoder (BitVec 32) where
  init := 0
  decode _ := parseFloatingPoint .single

def doubleEncoder : Encoder (BitVec 64) where
  IsValue _ := True
  sizeOf := itemSizeOfFloatDouble
  encode value _ := emitFloatDouble value

def doubleDecoder : Decoder (BitVec 64) where
  init := 0
  decode _ := parseFloatingPoint .double

/-! ### Strings -/

/-- `std::u8string`, `std::string`, and the views of them. -/
def stringEncoder : Encoder (List UInt8) where
  IsValue value := value.length < wordLimit
  sizeOf value := itemSizeOfU8string value.length
  encode value _ := emitU8string value

def stringDecoder : Decoder (List UInt8) where
  init := []
  decode _ := do
    let _ ← parseText .growable sizeMax

/-- `fixed_u8string<N>`: so many of the code units are the string. -/
structure FixedU8string where
  numCodeUnits : Nat
  codeUnits : List UInt8
  deriving DecidableEq, Repr

namespace FixedU8string

/-- `operator std::u8string_view`. -/
def view (s : FixedU8string) : List UInt8 := s.codeUnits.take s.numCodeUnits

/-- The string of these code units in an array of `capacity`. -/
def ofUnits (capacity : Nat) (units : List UInt8) : FixedU8string where
  numCodeUnits := units.length
  codeUnits := units ++ List.replicate (capacity - units.length) 0

/-- A string of a capacity an `unsigned` counts. -/
def Fits (capacity : Nat) (s : FixedU8string) : Prop :=
  capacity < 2 ^ 32 ∧ s.codeUnits.length = capacity ∧ s.numCodeUnits ≤ capacity

end FixedU8string

def fixedU8stringEncoder (capacity : Nat) : Encoder FixedU8string where
  IsValue := FixedU8string.Fits capacity
  sizeOf value := itemSizeOfU8string value.view.length
  encode value _ := emitU8string value.view

namespace Detail

/-- `decode_fixed_u8string`: the length is 0 until all has been read. -/
def decodeFixedU8string (maxlen : Nat) (σ : Type) [InputStream σ] : Parse σ FixedU8string Unit := do
  Action.onSnd (Action.modify fun s => {s with numCodeUnits := 0})
  let len ← Action.within FixedU8string.codeUnits (fun units s => {s with codeUnits := units})
    (parseTextFinite .span maxlen)
  Action.onSnd (Action.modify fun s => {s with numCodeUnits := len})

end Detail

def fixedU8stringDecoder (capacity : Nat) : Decoder FixedU8string where
  init := .ofUnits capacity []
  decode := Detail.decodeFixedU8string (capacity % 2 ^ 32)

/-! ### Byte ranges -/

/-- The contiguous ranges of bytes. -/
def blobEncoder : Encoder (List UInt8) where
  IsValue value := value.length < wordLimit
  sizeOf value := itemSizeOfBinary value.length
  encode value _ := emitBinary value

/-- The outcome of an action as its result; it is for the caller to fail. -/
def attempt {σ α : Type} (x : Action Fault σ α) : Action Fault σ (Except Errc α) := fun s =>
  match x s with
  | (.ok a, t) => (.ok (.ok a), t)
  | (.error (.errc e), t) => (.ok (.error e), t)
  | (.error f, t) => (.error f, t)

/-- What could not be read whole is cleared. -/
def blobDecoder : Decoder (List UInt8) where
  init := []
  decode _ := do
    match ← attempt (parseBinary .growable sizeMax) with
    | .ok _ => pure ()
    | .error e => do
      Action.onSnd (Action.modify fun _ => [])
      err e

namespace Detail

/-- `decode` of a span of bytes: all of it is read or it is zeroed. -/
def decodeByteSpan (σ : Type) [InputStream σ] : Parse σ (List UInt8) Unit := do
  match ← attempt (parseBinary .span sizeMax) with
  | .ok size => do
    if size ≠ (← Action.onSnd (Action.gets List.length)) then do
      Action.onSnd (Action.modify fun value => List.replicate value.length 0)
      err .tupleSizeMismatch
    else pure ()
  | .error e => do
    Action.onSnd (Action.modify fun value => List.replicate value.length 0)
    err e

end Detail

/-- `std::array<std::byte, N>`. -/
abbrev ByteArrayOf (n : Nat) : Type := {bytes : List UInt8 // bytes.length = n}

/-- The array, after its span was written to; that is as long as it was. -/
def ByteArrayOf.assign {n : Nat} (bytes : List UInt8) (value : ByteArrayOf n) : ByteArrayOf n :=
  if h : bytes.length = n then ⟨bytes, h⟩ else value

def byteArrayDecoder (n : Nat) : Decoder (ByteArrayOf n) where
  init := ⟨List.replicate n 0, List.length_replicate⟩
  decode σ := Action.within Subtype.val ByteArrayOf.assign (Detail.decodeByteSpan σ)

def byteArrayEncoder (n : Nat) : Encoder (ByteArrayOf n) where
  IsValue _ := n < wordLimit
  sizeOf value := itemSizeOfBinary value.val.length
  encode value _ := emitBinary value.val

/-! ### Wrappers -/

/-- Enumerations are encoded as their underlying integers. -/
def enumEncoder {ε : Type} (t : IntType) (underlying : ε → BitVec t.width) : Encoder ε :=
  (integerEncoder t).via underlying

/-- A `duration` is encoded as its count. -/
def durationEncoder {δ : Type} (rep : IntType) (count : δ → BitVec rep.width) : Encoder δ :=
  (integerEncoder rep).via count

/-- The size of a uuid in bytes. -/
def uuidStateSize : Nat := 16

def uuidEncoder {υ : Type} (canonical : υ → ByteArrayOf uuidStateSize) : Encoder υ where
  IsValue _ := True
  sizeOf _ := itemSizeOfBinary uuidStateSize
  encode value _ := emitBinary (canonical value).val

/-- A `path` is encoded as its generic string. -/
def pathEncoder {π : Type} (genericU8string : π → List UInt8) : Encoder π := stringEncoder.via genericU8string

/-- `string_ref`s. -/
def stringRefEncoder {ρ : Type} (data : ρ → List UInt8) : Encoder ρ := stringEncoder.via data

/-! ### What they put out -/

theorem nullEncoder_exact : nullEncoder.Exact :=
  Encoder.exact_of fun _ _ => ⟨puts_emitNull, wellFormed_inlineSimple (by decide)⟩

theorem boolEncoder_exact : boolEncoder.Exact :=
  Encoder.exact_of fun v _ => ⟨puts_emitBoolean v, wellFormed_inlineSimple (by cases v <;> decide)⟩

theorem integerEncoder_exact {t : IntType} (ht : t.EncodableInt) : (integerEncoder t).Exact := by
  refine Encoder.exact_of fun v _ => ⟨puts_emitInteger ht v, ?_⟩
  obtain ⟨m, hm, hcategory⟩ := t.category_eq v
  rw [hcategory]
  exact wellFormed_int hm (t.uvalue_lt ht v)

theorem floatEncoder_exact : floatEncoder.Exact :=
  Encoder.exact_of fun v _ =>
    ⟨puts_emitFloatSingle v, wellFormed_float (p := 2) (by decide) (by decide) (toBytes_length _ _)⟩

theorem doubleEncoder_exact : doubleEncoder.Exact :=
  Encoder.exact_of fun v _ =>
    ⟨puts_emitFloatDouble v, wellFormed_float (p := 3) (by decide) (by decide) (toBytes_length _ _)⟩

theorem stringEncoder_exact : stringEncoder.Exact :=
  Encoder.exact_of fun _ hv => ⟨puts_emitU8string hv, wellFormed_string (m := 3) (.inr rfl) hv⟩

theorem blobEncoder_exact : blobEncoder.Exact :=
  Encoder.exact_of fun _ hv => ⟨puts_emitBinary hv, wellFormed_string (m := 2) (.inl rfl) hv⟩

theorem byteArrayEncoder_exact (n : Nat) : (byteArrayEncoder n).Exact :=
  fun v hv => blobEncoder_exact v.val (show v.val.length < wordLimit from v.property.symm ▸ hv)

theorem fixedU8stringEncoder_exact (capacity : Nat) : (fixedU8stringEncoder capacity).Exact := by
  intro v h
  obtain ⟨hcapacity, hlen, -⟩ := h
  apply stringEncoder_exact v.view
  show v.view.length < wordLimit
  rw [FixedU8string.view, List.length_take, hlen]
  exact (Nat.min_le_right _ _).trans_lt (hcapacity.trans (by decide))

theorem uuidEncoder_exact {υ : Type} (canonical : υ → ByteArrayOf uuidStateSize) :
    (uuidEncoder canonical).Exact := by
  intro v _
  have hlen := (canonical v).property
  have hexact := blobEncoder_exact (canonical v).val (show _ < wordLimit by rw [hlen]; decide)
  have hsize : blobEncoder.sizeOf (canonical v).val = (uuidEncoder canonical).sizeOf v :=
    congrArg itemSizeOfBinary hlen
  rw [hsize] at hexact
  exact hexact

end DeepPack
