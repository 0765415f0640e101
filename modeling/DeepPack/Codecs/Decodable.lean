import DeepPack.Codecs.Objects

/-! How decoders are built.

The library's containers, tuples and objects build decoders from decoders. What
the smallest of them are is a parameter: some properties of decoding hold for fewer
leaves than others. -/
namespace DeepPack
open Library

/-- The leaves of a fixed size in memory. -/
inductive Leaf : {α : Type} → Decoder α → Prop where
  | bool : Leaf boolDecoder
  | integer {t : IntType} : t.EncodableInt → Leaf (integerDecoder t)
  | float : Leaf floatDecoder
  | double : Leaf doubleDecoder
  | fixedU8string (capacity : Nat) : Leaf (fixedU8stringDecoder capacity)

/-- These, and the strings and byte ranges that grow with the input. -/
inductive StringLeaf : {α : Type} → Decoder α → Prop where
  | leaf {α : Type} {d : Decoder α} : Leaf d → StringLeaf d
  | string : StringLeaf stringDecoder
  | blob : StringLeaf blobDecoder
  | byteArray (n : Nat) : StringLeaf (byteArrayDecoder n)

inductive Decodable (leaf : ∀ {α : Type}, Decoder α → Prop) : {α : Type} → Decoder α → Prop where
  | leaf {α : Type} {d : Decoder α} : leaf d → Decodable leaf d
  | vector {α : Type} {d : Decoder α} : Decodable leaf d → Decodable leaf (vectorDecoder d)
  | set {κ : Type} {k : Decoder κ} (lt : κ → κ → Bool) : Decodable leaf k → Decodable leaf (setDecoder lt k)
  | map {κ ν : Type} {k : Decoder κ} {d : Decoder ν} (lt : κ → κ → Bool) : Decodable leaf k →
      Decodable leaf d → Decodable leaf (mapDecoder lt k d)
  | array {α : Type} {d : Decoder α} (n : Nat) : Decodable leaf d → Decodable leaf (arrayDecoder n d)
  | tuple {n : Nat} {α : Fin n → Type} {d : ∀ i, Decoder (α i)} : (∀ i, Decodable leaf (d i)) →
      Decodable leaf (tupleDecoder d)
  | packableTuple {n : Nat} {α : Fin n → Type} {d : ∀ i, Decoder (α i)} (version : BitVec 32) :
      (∀ i, Decodable leaf (d i)) → Decodable leaf (packableTupleDecoder version d)
  | object {n : Nat} {ι : Type} [DecidableEq ι] {α : Fin n → Type} (lt : ι → ι → Bool) (D : ObjectDef ι n)
      {key : Decoder ι} {d : ∀ i, Decoder (α i)} : Decodable leaf key → (∀ i, Decodable leaf (d i)) →
      Decodable leaf (objectDecoder lt D key d)
  | unsignedObject {n w : Nat} {α : Fin n → Type} (D : ObjectDef (BitVec w) n) {d : ∀ i, Decoder (α i)} :
      (∀ i, Decodable leaf (d i)) → Decodable leaf (unsignedObjectDecoder D d)

end DeepPack
