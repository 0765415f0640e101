import DeepPack.Codecs.Containers
import Mathlib.Data.Fintype.Basic

/-! Tuples: `std::tuple`, and the classes a tuple definition packs.

A class is the function from its members' indices to their values. -/
namespace DeepPack
open Library

/-- The version of a definition that has none. -/
def nullDefVersion : BitVec 32 := 0xffffffff

/-- `version_type`. -/
def versionType : IntType := ⟨32, false⟩

/-- `numeric_limits<int32_t>::max()`. -/
def int32Max : Nat := 2 ^ 31 - 1

/-- `tuple_head_info` and `object_head_info`. -/
structure HeadInfo where
  numProperties : Nat
  version : BitVec 32
  deriving DecidableEq, Repr

variable {n : Nat} {α : Fin n → Type}

/-- `mp_for_dots`: the members in order, up to the first failure. -/
def mpForDots {σ : Type} (f : Fin n → Action Fault σ Unit) : Action Fault σ Unit :=
  Action.forList f (List.finRange n)

/-- `mp_map_fold_left`: the sum over the members. -/
def mpMapFoldLeft (f : Fin n → UInt64) (start : UInt64) : UInt64 :=
  (List.finRange n).foldl (fun acc i => acc + f i) start

/-- Works on one member. -/
def onMember {σ β : Type} (i : Fin n) (x : Parse σ (α i) β) : Parse σ (∀ i, α i) β :=
  Action.within (fun v => v i) (fun w v => Function.update v i w) x

/-! ### `std::tuple` -/

def tupleEncoder (c : ∀ i, Encoder (α i)) : Encoder (∀ i, α i) where
  IsValue v := ∀ i, (c i).IsValue (v i)
  sizeOf v := mpMapFoldLeft (fun i => (c i).sizeOf (v i)) (encodedItemHeadSize .array n)
  encode v σ := do
    emitArray n
    mpForDots fun i => (c i).encode (v i) σ

def tupleDecoder (d : ∀ i, Decoder (α i)) : Decoder (∀ i, α i) where
  init i := (d i).init
  decode σ := do
    Action.onFst (expectItemHead .array n)
    mpForDots fun i => onMember i ((d i).decode σ)

/-! ### Packable tuples -/

/-- `encode_tuple` and `size_of_tuple`. -/
def packableTupleEncoder (version : BitVec 32) (c : ∀ i, Encoder (α i)) : Encoder (∀ i, α i) where
  IsValue v := ∀ i, (c i).IsValue (v i)
  sizeOf v :=
    let prefixSize :=
      if version = nullDefVersion then encodedItemHeadSize .array n
      else encodedItemHeadSize .array (n + 1) + itemSizeOfInteger versionType version
    prefixSize + mpMapFoldLeft (fun i => (c i).sizeOf (v i)) 0
  encode v σ := do
    if version = nullDefVersion then emitArray n
    else do
      emitArray (n + 1)
      emitInteger versionType version
    mpForDots fun i => (c i).encode (v i) σ

section Decode
variable {σ : Type} [InputStream σ]

/-- A version, which is never that of a definition that has none. -/
def parseVersion : Input σ (BitVec 32) :=
  Action.fresh (0 : BitVec 32) (parseUnsignedInteger versionType (nullDefVersion.toNat - 1))

def decodeTupleHead (isVersioned : Bool) : Input σ HeadInfo := do
  let arrayInfo ← parseItemHead
  if arrayInfo.type ≠ .array ∨ arrayInfo.indefinite then err .itemTypeMismatch
  else if (← InputBuffer.inputSizeNow) < arrayInfo.value then err .endOfStream
  else if int32Max < arrayInfo.value then err .tooManyProperties
  else if isVersioned then
    if arrayInfo.value < 1 then err .itemVersionPropertyMissing
    else do
      let version ← parseVersion
      pure ⟨arrayInfo.value - 1, version⟩
  else pure ⟨arrayInfo.value, nullDefVersion⟩

def decodeTupleProperties (d : ∀ i, Decoder (α i)) (numProperties : Nat) : Parse σ (∀ i, α i) Unit :=
  if numProperties ≠ n then err .tupleSizeMismatch
  else mpForDots fun i => onMember i ((d i).decode σ)

end Decode

/-- `decode_tuple`. -/
def packableTupleDecoder (version : BitVec 32) (d : ∀ i, Decoder (α i)) : Decoder (∀ i, α i) where
  init i := (d i).init
  decode _ := do
    let headInfo ← Action.onFst (decodeTupleHead (version != nullDefVersion))
    if version ≠ nullDefVersion ∧ version ≠ headInfo.version then err .itemVersionMismatch
    else decodeTupleProperties d headInfo.numProperties

/-! ### What the encoders put out -/

section Exact

theorem encodableInt_versionType : versionType.EncodableInt := .inr (.inr (.inl rfl))

/-- The encoding of a version. -/
def versionBytes (version : BitVec 32) : List UInt8 := (integerEncoder versionType).bytes version

theorem puts_version (version : BitVec 32) :
    Puts (fun _ _ => emitInteger versionType version) (itemSizeOfInteger versionType version)
      (versionBytes version) :=
  (integerEncoder_exact encodableInt_versionType version trivial).1

theorem wellFormed_version (version : BitVec 32) : WellFormed .item (versionBytes version) :=
  (integerEncoder_exact encodableInt_versionType version trivial).2

theorem puts_mpForDots {f : Fin n → Emitter} {size : Fin n → UInt64} {bytes : Fin n → List UInt8}
    (h : ∀ i, Puts (f i) (size i) (bytes i)) :
    Puts (fun σ _ => mpForDots fun i => f i σ) (mpMapFoldLeft size 0) ((List.finRange n).flatMap bytes) :=
  puts_forList fun i _ => h i

/-- A sum over members can start anywhere. -/
theorem mpMapFoldLeft_from {f : Fin n → Emitter} {size : Fin n → UInt64} {bytes : Fin n → List UInt8}
    (h : ∀ i, Puts (f i) (size i) (bytes i)) (start : UInt64) :
    mpMapFoldLeft size start = start + mpMapFoldLeft size 0 :=
  foldl_size_from (fun i _ => h i) start

theorem wellFormed_members {bytes : Fin n → List UInt8} (h : ∀ i, WellFormed .item (bytes i)) :
    WellFormed (.items n) ((List.finRange n).flatMap bytes) := by
  have hitems : WellFormed (.items (List.finRange n).length) ((List.finRange n).flatMap bytes) :=
    wellFormed_items fun i _ => h i
  rwa [List.length_finRange] at hitems

variable {c : ∀ i, Encoder (α i)}

/-- The encodings of the members. -/
def memberBytes (c : ∀ i, Encoder (α i)) (v : ∀ i, α i) : List UInt8 :=
  (List.finRange n).flatMap fun i => (c i).bytes (v i)

theorem tupleEncoder_puts (hn : n < wordLimit) (h : ∀ i, (c i).Exact) {v : ∀ i, α i}
    (hv : ∀ i, (c i).IsValue (v i)) :
    Puts ((tupleEncoder c).encode v) ((tupleEncoder c).sizeOf v)
      (Detail.varUintHead .array n ++ memberBytes c v) := by
  have hmembers := fun i => (h i (v i) (hv i)).1
  have hputs := (puts_emitArray hn).bind (puts_mpForDots hmembers)
  rwa [← mpMapFoldLeft_from hmembers] at hputs

theorem tupleEncoder_exact (hn : n < wordLimit) (h : ∀ i, (c i).Exact) : (tupleEncoder c).Exact :=
  Encoder.exact_of fun v hv => ⟨tupleEncoder_puts hn h hv,
    wellFormed_array hn (wellFormed_members fun i => (h i (v i) (hv i)).2)⟩

/-- What stands in front of the members of a packable tuple. -/
def tuplePrefix (n : Nat) (version : BitVec 32) : List UInt8 :=
  if version = nullDefVersion then Detail.varUintHead .array n
  else Detail.varUintHead .array (n + 1) ++ versionBytes version

theorem packableTupleEncoder_puts (hn : n + 1 < wordLimit) (version : BitVec 32) (h : ∀ i, (c i).Exact)
    {v : ∀ i, α i} (hv : ∀ i, (c i).IsValue (v i)) :
    Puts ((packableTupleEncoder version c).encode v) ((packableTupleEncoder version c).sizeOf v)
      (tuplePrefix n version ++ memberBytes c v) := by
  have hmembers := puts_mpForDots fun i => (h i (v i) (hv i)).1
  simp only [packableTupleEncoder, tuplePrefix]
  by_cases hnull : version = nullDefVersion
  · simp only [if_pos hnull]
    exact (puts_emitArray (by omega)).bind hmembers
  · simp only [if_neg hnull]
    rw [UInt64.add_assoc, List.append_assoc]
    exact (puts_emitArray hn).bind ((puts_version version).bind hmembers)

theorem packableTupleEncoder_exact (hn : n + 1 < wordLimit) (version : BitVec 32) (h : ∀ i, (c i).Exact) :
    (packableTupleEncoder version c).Exact := by
  refine Encoder.exact_of fun v hv => ⟨packableTupleEncoder_puts hn version h hv, ?_⟩
  have hmembers := wellFormed_members fun i => (h i (v i) (hv i)).2
  rw [tuplePrefix]
  split
  · exact wellFormed_array (by omega) hmembers
  · rw [List.append_assoc]
    exact wellFormed_array hn (.more (wellFormed_version version) hmembers)

end Exact
end DeepPack
