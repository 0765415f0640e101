import DeepPack.Codecs.Tuples

/-! Packable objects: classes whose members are stored under property ids.

Decoding an object is a loop over the properties of the input. Each id is looked up
among the definition's, integers below 24 apart from the others, and the properties
found are kept in a bit set if some of them may be missing. -/
namespace DeepPack
open Library

/-- `object_def`: the ids of the members, and which of them an input must have. -/
structure ObjectDef (ι : Type) (n : Nat) where
  version : BitVec 32
  ids : Fin n → ι
  required : Fin n → Bool

variable {n : Nat} {ι : Type} {α : Fin n → Type}

def ObjectDef.hasOptionalProperties (D : ObjectDef ι n) : Bool := !(List.finRange n).all D.required

/-! ### Encoding -/

/-- `encode_object` and `size_of_object`. -/
def objectEncoder (D : ObjectDef ι n) (key : Encoder ι) (c : ∀ i, Encoder (α i)) : Encoder (∀ i, α i) where
  IsValue v := ∀ i, (c i).IsValue (v i)
  sizeOf v :=
    let prefixSize :=
      if D.version = nullDefVersion then encodedItemHeadSize .map n
      else
        encodedItemHeadSize .map (n + 1) + itemSizeOfInteger versionType 0 +
          itemSizeOfInteger versionType D.version
    prefixSize + mpMapFoldLeft (fun i => key.sizeOf (D.ids i) + (c i).sizeOf (v i)) 0
  encode v σ := do
    if D.version = nullDefVersion then emitMap n
    else do
      emitMap (n + 1)
      Detail.storeInlineValue 0 .posint
      emitInteger versionType D.version
    mpForDots fun i => do
      key.encode (D.ids i) σ
      (c i).encode (v i) σ

/-! ### Finding a property -/

namespace Detail

/-- `linear_search_efficiency_threshold`. -/
def linearSearchEfficiencyThreshold : Nat := 64

/-- `property_id_lookup_fn`: a short list of ids is searched through, in a long one the id can only
stand at its lower bound. -/
def propertyIdLookup [DecidableEq ι] (lt : ι → ι → Bool) (ids : List ι) (id : ι) : Option Nat :=
  let position :=
    if ids.length ≤ linearSearchEfficiencyThreshold then ids.findIdx fun e => e == id
    else ids.findIdx fun e => !lt e id
  if ids[position]? = some id then some position else none

/-- `index_of_limit`: how many ids at the front are below the limit. -/
def indexOfLimit {w : Nat} (limit : Nat) (ids : List (BitVec w)) : Nat := ids.findIdx fun e => limit ≤ e.toNat

def smallIdLimit : Nat := inlineValueMax + 1

section Decode
variable {σ : Type} [InputStream σ]

/-- `decode_prop_by_index_fn`: decodes the member at an index, which it returns. -/
def decodePropByIndex (d : ∀ i, Decoder (α i)) (position : Option Nat) : Parse σ (∀ i, α i) Nat :=
  match position with
  | none => err .unknownProperty
  | some idx =>
    if h : idx < n then do
      onMember ⟨idx, h⟩ ((d ⟨idx, h⟩).decode σ)
      pure idx
    else Action.fail .outOfBounds

theorem decodePropByIndex_of_lt (d : ∀ i, Decoder (α i)) {idx : Nat} (h : idx < n) :
    decodePropByIndex (σ := σ) d (some idx) = (onMember ⟨idx, h⟩ ((d ⟨idx, h⟩).decode σ) >>= fun _ => pure idx) :=
  dif_pos h

theorem decodePropByIndex_of_not_lt (d : ∀ i, Decoder (α i)) {idx : Nat} (h : ¬ idx < n) :
    decodePropByIndex (σ := σ) d (some idx) = Action.fail .outOfBounds :=
  dif_neg h

/-- `decode_object_property` for ids of any type. -/
def decodeObjectProperty [DecidableEq ι] (lt : ι → ι → Bool) (D : ObjectDef ι n) (key : Decoder ι)
    (d : ∀ i, Decoder (α i)) : Parse σ (∀ i, α i) Nat := do
  let id ← Action.onFst (key.asValue σ)
  decodePropByIndex d (propertyIdLookup lt (List.ofFn D.ids) id)

/-- Where an integer id stands: the small ones are found by an index of their own. -/
def unsignedIdLookup {w : Nat} (ids : List (BitVec w)) (id : BitVec w) : Option Nat :=
  let smallIdsEnd := indexOfLimit smallIdLimit ids
  if smallIdsEnd ≠ 0 ∧ id.toNat < smallIdLimit then
    let propPos := (ids.take smallIdsEnd).findIdx fun e => e == id
    if propPos = smallIdsEnd then none else some propPos
  else if smallIdsEnd ≠ ids.length then
    (propertyIdLookup (fun a b => a < b) (ids.drop smallIdsEnd) id).map fun idx => idx + smallIdsEnd
  else none

/-- `decode_object_property` for unsigned integer ids. -/
def decodeUnsignedObjectProperty {w : Nat} (D : ObjectDef (BitVec w) n) (d : ∀ i, Decoder (α i)) :
    Parse σ (∀ i, α i) Nat := do
  let id ← Action.onFst (Action.fresh (0 : BitVec w)
    (parseUnsignedInteger ⟨w, false⟩ (IntType.maxValue ⟨w, false⟩)))
  decodePropByIndex d (unsignedIdLookup (List.ofFn D.ids) id)

end Decode

/-! ### The bit set of properties -/

/-- The digits of a bucket. -/
def bucketDigits : Nat := 64

/-- Bucket `i / 64` with bit `i % 64` set to `v` if it is not set. -/
def markProperty (buckets : List (BitVec 64)) (i : Nat) (v : Bool) : List (BitVec 64) :=
  buckets.modify (i / bucketDigits) fun b => b ||| (BitVec.ofBool v).setWidth 64 <<< (i % bucketDigits)

/-- No property. -/
def noProperties (n : Nat) : List (BitVec 64) := List.replicate ((n + bucketDigits - 1) / bucketDigits) 0

/-- The loop of `compress_bitset`, at a shift in the bucket at an offset. -/
def compressFrom : List Bool → Nat → Nat → List (BitVec 64) → List (BitVec 64)
  | [], _, _, buckets => buckets
  | v :: rest, shift, offset, buckets =>
    let (shift, offset) := if shift = bucketDigits then (0, offset + 1) else (shift, offset)
    compressFrom rest (shift + 1) offset
      (buckets.modify offset fun b => b ||| (BitVec.ofBool v).setWidth 64 <<< shift)

/-- `compress_bitset`. -/
def compressBitset (numBits : Nat) (vs : List Bool) : List (BitVec 64) := compressFrom vs 0 0 (noProperties numBits)

/-- `required_prop_mask_for`. -/
def requiredPropMask (D : ObjectDef ι n) : List (BitVec 64) := compressBitset n (List.ofFn D.required)

/-- How many buckets have all of their required properties. -/
def completeBuckets (foundProps required : List (BitVec 64)) : Nat :=
  (List.zipWith (fun found req => decide (found &&& req = req)) foundProps required).count true

end Detail

/-! ### Decoding -/

section Decode
variable {σ : Type} [InputStream σ]

def decodeObjectHead (isVersioned : Bool) : Input σ HeadInfo := do
  let mapInfo ← parseItemHead
  if mapInfo.type ≠ .map ∨ mapInfo.indefinite then err .itemTypeMismatch
  else if mapInfo.value = 0 then pure ⟨0, nullDefVersion⟩
  else if (← InputBuffer.inputSizeNow) / 2 < mapInfo.value then err .endOfStream
  else if int32Max / 2 ≤ mapInfo.value then err .tooManyProperties
  else if isVersioned then do
    -- the version's property id is always encoded as a single byte
    if (← peekByte) ≠ 0 then pure ⟨mapInfo.value, nullDefVersion⟩
    else do
      InputBuffer.discardBuffered 1
      let version ← parseVersion
      pure ⟨mapInfo.value - 1, version⟩
  else pure ⟨mapInfo.value, nullDefVersion⟩

/-- The loop over the properties of an input, with the set of those found. -/
def decodeFoundProperties (property : Parse σ (∀ i, α i) Nat) :
    Nat → List (BitVec 64) → Parse σ (∀ i, α i) (List (BitVec 64))
  | 0, foundProps => pure foundProps
  | k + 1, foundProps => do
    let which ← property
    decodeFoundProperties property k (Detail.markProperty foundProps which true)

def decodeObjectProperties (D : ObjectDef ι n) (property : Parse σ (∀ i, α i) Nat) (numProperties : Nat) :
    Parse σ (∀ i, α i) Unit :=
  if D.hasOptionalProperties then do
    let foundProps ← decodeFoundProperties property numProperties (Detail.noProperties n)
    if Detail.completeBuckets foundProps (Detail.requiredPropMask D) ≠ foundProps.length then
      err .requiredObjectPropertyMissing
    else pure ()
  else if n ≠ numProperties then err .requiredObjectPropertyMissing
  else Action.forRange (fun _ => do let _ ← property) 0 numProperties

/-- `decode_object`, given how a property is decoded. -/
def decodeObject (D : ObjectDef ι n) (property : Parse σ (∀ i, α i) Nat) : Parse σ (∀ i, α i) Unit := do
  let headInfo ← Action.onFst (decodeObjectHead (D.version != nullDefVersion))
  if D.version ≠ nullDefVersion ∧ D.version ≠ headInfo.version then err .itemVersionMismatch
  else decodeObjectProperties D property headInfo.numProperties

end Decode

/-- Objects with ids of any type. -/
def objectDecoder [DecidableEq ι] (lt : ι → ι → Bool) (D : ObjectDef ι n) (key : Decoder ι)
    (d : ∀ i, Decoder (α i)) : Decoder (∀ i, α i) where
  init i := (d i).init
  decode _ := decodeObject D (Detail.decodeObjectProperty lt D key d)

/-- Objects with unsigned integer ids. -/
def unsignedObjectDecoder {w : Nat} (D : ObjectDef (BitVec w) n) (d : ∀ i, Decoder (α i)) :
    Decoder (∀ i, α i) where
  init i := (d i).init
  decode _ := decodeObject D (Detail.decodeUnsignedObjectProperty D d)

/-! ### What the encoder puts out -/

section Exact
variable {D : ObjectDef ι n} {key : Encoder ι} {c : ∀ i, Encoder (α i)}

/-- The encodings of the properties. -/
def propertyBytes (D : ObjectDef ι n) (key : Encoder ι) (c : ∀ i, Encoder (α i)) (v : ∀ i, α i) : List UInt8 :=
  (List.finRange n).flatMap fun i => key.bytes (D.ids i) ++ (c i).bytes (v i)

/-- What stands in front of the properties. -/
def objectPrefix (n : Nat) (version : BitVec 32) : List UInt8 :=
  if version = nullDefVersion then Detail.varUintHead .map n
  else Detail.varUintHead .map (n + 1) ++ (initialByte 0 0 :: versionBytes version)

theorem puts_versionKey :
    Puts (fun _ _ => Detail.storeInlineValue 0 .posint) (itemSizeOfInteger versionType 0) [initialByte 0 0] :=
  ⟨fun _ => Detail.emits_storeInlineValue _ _, by decide⟩

theorem objectEncoder_puts (hn : n + 1 < wordLimit) (hkey : key.Exact) (hids : ∀ i, key.IsValue (D.ids i))
    (h : ∀ i, (c i).Exact) {v : ∀ i, α i} (hv : ∀ i, (c i).IsValue (v i)) :
    Puts ((objectEncoder D key c).encode v) ((objectEncoder D key c).sizeOf v)
      (objectPrefix n D.version ++ propertyBytes D key c v) := by
  have hmembers := puts_mpForDots fun i => (hkey (D.ids i) (hids i)).1.bind (h i (v i) (hv i)).1
  simp only [objectEncoder, objectPrefix]
  by_cases hnull : D.version = nullDefVersion
  · simp only [if_pos hnull]
    exact (puts_emitMap (by omega)).bind hmembers
  · simp only [if_neg hnull]
    rw [UInt64.add_assoc, UInt64.add_assoc, List.append_assoc]
    exact (puts_emitMap hn).bind (puts_versionKey.bind ((puts_version D.version).bind hmembers))

theorem wellFormed_properties {key value : Fin n → List UInt8} (hkey : ∀ i, WellFormed .item (key i))
    (hvalue : ∀ i, WellFormed .item (value i)) :
    WellFormed (.items (2 * n)) ((List.finRange n).flatMap fun i => key i ++ value i) := by
  have hpairs : WellFormed (.items (2 * (List.finRange n).length))
      ((List.finRange n).flatMap fun i => key i ++ value i) :=
    wellFormed_pairs fun i _ => ⟨_, _, rfl, hkey i, hvalue i⟩
  rwa [List.length_finRange] at hpairs

theorem objectEncoder_exact (hn : n + 1 < wordLimit) (hkey : key.Exact) (hids : ∀ i, key.IsValue (D.ids i))
    (h : ∀ i, (c i).Exact) : (objectEncoder D key c).Exact := by
  refine Encoder.exact_of fun v hv => ⟨objectEncoder_puts hn hkey hids h hv, ?_⟩
  have hmembers : WellFormed (.items (2 * n)) (propertyBytes D key c v) :=
    wellFormed_properties (fun i => (hkey (D.ids i) (hids i)).2) fun i => (h i (v i) (hv i)).2
  rw [objectPrefix]
  split
  · exact wellFormed_map (by omega) hmembers
  · rw [List.append_assoc]
    apply wellFormed_map hn
    show WellFormed (.items (2 * n + 2)) ([initialByte 0 0] ++ (versionBytes D.version ++ _))
    exact .more (.int (.inl rfl) (.inline (Nat.zero_le 23))) (.more (wellFormed_version _) hmembers)

end Exact
end DeepPack
