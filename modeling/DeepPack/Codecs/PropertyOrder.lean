import DeepPack.Codecs.Codable

/-! Objects are decoded from their entries in any order.

Each entry is dispatched by its id and writes one member. So an object comes back from its
entries in whatever order they stand, and where properties are optional, entries may be left out:
their members keep what they held. -/
namespace DeepPack
open Library

section Entries
variable {n : Nat} {ι : Type} {α : Fin n → Type}

/-- An object encoded with the entries of a list, in its order. A version stays in front of them. -/
def objectBytes (D : ObjectDef ι n) (key : Encoder ι) (c : ∀ i, Encoder (α i)) (v : ∀ i, α i) (l : List (Fin n)) :
    List UInt8 :=
  objectPrefix l.length D.version ++ l.flatMap fun i => key.bytes (D.ids i) ++ (c i).bytes (v i)

/-- Objects are decoded from their entries in any order, and without some that are optional: the members of
these are left as they were. -/
def AnyOrder (D : ObjectDef ι n) (key : Encoder ι) (c : ∀ i, Encoder (α i)) (d : Decoder (∀ i, α i)) : Prop :=
  ∀ v, (∀ i, (c i).IsValue (v i)) →
    (n + 1 < wordLimit → (objectEncoder D key c).bytes v = objectBytes D key c v (List.finRange n)) ∧
    ∀ (l : List (Fin n)) (w : ∀ i, α i) (s : List UInt8), numEntries l.length D.version < 2 ^ 30 - 1 →
      (objectBytes D key c v l ++ s).length < wordLimit →
      (l.Perm (List.finRange n) →
        d.decode MemoryInputStream (memoryInput (objectBytes D key c v l ++ s), w) =
        (.ok (), (memoryInput s, v))) ∧
      (D.hasOptionalProperties = true → l.Nodup → (∀ i, D.required i = true → i ∈ l) →
        d.decode MemoryInputStream (memoryInput (objectBytes D key c v l ++ s), w) =
          (.ok (), (memoryInput s, assigned v w l)))

variable {D : ObjectDef ι n} {key : Encoder ι} {c : ∀ i, Encoder (α i)} {d : ∀ i, Decoder (α i)}

/-- What was encoded is the object with its entries in the order of the definition. -/
theorem objectEncoder_bytes (hn : n + 1 < wordLimit) (hkey : key.Exact) (hids : ∀ i, key.IsValue (D.ids i))
    (hc : ∀ i, (c i).Exact) {v : ∀ i, α i} (hv : ∀ i, (c i).IsValue (v i)) :
    (objectEncoder D key c).bytes v = objectBytes D key c v (List.finRange n) := by
  rw [show (objectEncoder D key c).bytes v = _ from (objectEncoder_puts hn hkey hids hc hv).bytes_eq, objectBytes,
    List.length_finRange]
  rfl

/-- The order does not matter where ids come back and are found. -/
theorem anyOrder (hkey : key.Exact) (hids : ∀ i, key.IsValue (D.ids i)) (h : ∀ i, Codable (c i) (d i))
    {readId : Input MemoryInputStream ι} {lookup : ι → Option Nat}
    (hread : ∀ i, InputTakes readId (key.bytes (D.ids i)) (D.ids i)) (hlookup : ∀ i, lookup (D.ids i) = some i.val)
    {object : Decoder (∀ i, α i)} (hobject : object.decode MemoryInputStream = decodeObject D do
      let id ← Action.onFst readId
      Detail.decodePropByIndex d (lookup id)) : AnyOrder D key c object := by
  intro v hv
  have hexact : ∀ i, (c i).Exact := fun i => (h i).exact
  refine ⟨fun hn => objectEncoder_bytes hn hkey hids hexact hv, fun l w s hn hfits => ?_⟩
  have hdecode : l.Nodup → (∀ i, D.required i = true → i ∈ l) →
      object.decode MemoryInputStream (memoryInput (objectBytes D key c v l ++ s), w) =
        (.ok (), (memoryInput s, assigned v w l)) := by
    intro hnodup hrequired
    rw [hobject]
    exact takes_objectEntries hkey hids hexact (fun i => (h i).restores) hread hlookup hv hn hnodup hrequired w s
      (Nat.zero_le _) hfits
  refine ⟨fun hperm => ?_, fun _ hnodup hrequired => hdecode hnodup hrequired⟩
  have hall : ∀ i, i ∈ l := fun i => hperm.mem_iff.mpr (List.mem_finRange i)
  have hv' := hdecode (hperm.nodup_iff.mpr (List.nodup_finRange n)) fun i _ => hall i
  rwa [assigned_all hall] at hv'

end Entries

/-- Whatever kind of ids an object has, it is decoded from its entries in any order. -/
theorem decodeObject_anyOrder {n : Nat} {α : Fin n → Type} {c : ∀ i, Encoder (α i)} {d : ∀ i, Decoder (α i)}
    (h : ∀ i, Codable (c i) (d i)) :
    (∀ {ι : Type} [DecidableEq ι] {lt : ι → ι → Bool} {D : ObjectDef ι n} {key : Encoder ι} {kd : Decoder ι},
      (∀ a, lt a a = false) → (∀ i j, i < j → lt (D.ids i) (D.ids j)) → Codable key kd →
      (∀ i, key.IsValue (D.ids i)) → AnyOrder D key c (objectDecoder lt D kd d)) ∧
    (∀ {capacity : Nat} {lt : FixedU8string → FixedU8string → Bool} {D : ObjectDef FixedU8string n}
        {names : Fin n → List UInt8},
      (∀ a, lt a a = false) → (∀ i j, i < j → lt (D.ids i) (D.ids j)) → capacity < 2 ^ 32 →
      (∀ i, (names i).length ≤ capacity ∧ D.ids i = .ofUnits capacity (names i)) →
      AnyOrder D (fixedU8stringEncoder capacity) c (objectDecoder lt D (fixedU8stringDecoder capacity) d)) ∧
    (∀ {w : Nat} {D : ObjectDef (BitVec w) n}, IntType.EncodableInt ⟨w, false⟩ →
    (∀ i j, i < j → D.ids i < D.ids j) →
      AnyOrder D (integerEncoder ⟨w, false⟩) c (unsignedObjectDecoder D d)) := by
  refine ⟨fun hirr hasc hkey hids => ?_, fun hirr hasc hcapacity hnames => ?_, fun ht hasc => ?_⟩
  · exact anyOrder hkey.exact hids h (fun i => hkey.restores.asValue (hids i))
      (propertyIdLookup_ofFn hirr hasc) rfl
  · refine anyOrder (fixedU8stringEncoder_exact _) (isValue_name hcapacity hnames) h (fun i => ?_)
      (propertyIdLookup_ofFn hirr hasc) rfl
    rw [(hnames i).2]
    exact takes_fixedU8string hcapacity (hnames i).1
  · exact anyOrder (integerEncoder_exact ht) (fun _ => trivial) h (fun _ => (restores_integer ht).asValue trivial)
      (unsignedIdLookup_ofFn hasc) rfl

/-- Two booleans under the ids 1 and 2, the second of them first. -/
theorem decodeObject_swapped :
    (unsignedObjectDecoder (⟨3, fun i => [1, 2].get i, fun _ => true⟩ : ObjectDef (BitVec 8) 2)
        fun _ => boolDecoder).decode MemoryInputStream (memoryInput [0xa3, 0x00, 0x03, 0x02, 0xf5, 0x01, 0xf4], fun _ => false) =
      (.ok (), (memoryInput [], fun i => decide (i = 1))) := by
  have horder : AnyOrder (⟨3, fun i => [1, 2].get i, fun _ => true⟩ : ObjectDef (BitVec 8) 2)
      (integerEncoder ⟨8, false⟩) (fun _ => boolEncoder) (unsignedObjectDecoder _ fun _ => boolDecoder) :=
    (decodeObject_anyOrder fun _ => .leaf .bool).2.2 (.inl rfl) (by decide)
  have hbytes : objectBytes (⟨3, fun i => [1, 2].get i, fun _ => true⟩ : ObjectDef (BitVec 8) 2)
      (integerEncoder ⟨8, false⟩) (fun _ => boolEncoder) (fun i => decide (i = 1)) [1, 0] =
        [0xa3, 0x00, 0x03, 0x02, 0xf5, 0x01, 0xf4] := by decide +kernel
  have hdecode := ((horder (fun i => decide (i = 1)) fun _ => trivial).2 [1, 0] (fun _ => false) [] (by decide)
    (by rw [hbytes]; decide)).1 (by decide)
  rwa [hbytes] at hdecode

/-- With a version, so many properties are too many entries, in the order of the definition already. -/
theorem objectBytes_tooMany {n : Nat} {D : ObjectDef (BitVec 32) n} (hversion : D.version ≠ nullDefVersion)
    (hmin : int32Max / 2 ≤ n + 1) (hmax : n < 2 ^ 32) (v : Fin n → Bool) :
    (objectBytes D (integerEncoder ⟨32, false⟩) (fun _ => boolEncoder) v (List.finRange n)).length < wordLimit ∧
      ((unsignedObjectDecoder D fun _ => boolDecoder).decode MemoryInputStream
        (memoryInput (objectBytes D (integerEncoder ⟨32, false⟩) (fun _ => boolEncoder) v (List.finRange n)),
          v)).1 = .error (.errc .tooManyProperties) := by
  have hlimit : 2 ^ 40 < wordLimit := by decide
  have ht : IntType.EncodableInt ⟨32, false⟩ := .inr (.inr (.inl rfl))
  have htooMany := unsignedObject_tooMany hversion hmin hmax v
  rwa [objectEncoder_bytes (by omega) (integerEncoder_exact ht) (fun _ => trivial) (fun _ => boolEncoder_exact)
    fun _ => trivial] at htooMany

theorem decodeObject_notAnyOrder :
    let D : ObjectDef (BitVec 32) (2 ^ 30 - 2) := ⟨0, fun i => BitVec.ofNat 32 i.val, fun _ => true⟩
    (∀ i j, i < j → D.ids i < D.ids j) ∧
      ∃ l : List (Fin (2 ^ 30 - 2)), l.Perm (List.finRange _) ∧
        (objectBytes D (integerEncoder ⟨32, false⟩) (fun _ => boolEncoder) (fun _ => false) l).length < wordLimit ∧
        ((unsignedObjectDecoder D fun _ => boolDecoder).decode MemoryInputStream
          (memoryInput (objectBytes D (integerEncoder ⟨32, false⟩) (fun _ => boolEncoder) (fun _ => false) l),
            fun _ => false)).1 = .error (.errc .tooManyProperties) := by
  intro D
  refine ⟨fun i j hij => ?_, List.finRange _, .refl _, ?_⟩
  · have hi : i.val < 2 ^ 32 := i.isLt.trans (by decide)
    have hj : j.val < 2 ^ 32 := j.isLt.trans (by decide)
    rw [BitVec.lt_def, BitVec.toNat_ofNat, BitVec.toNat_ofNat, Nat.mod_eq_of_lt hi, Nat.mod_eq_of_lt hj]
    exact hij
  · exact objectBytes_tooMany (D := D) (by decide) (by decide) (by decide) fun _ => false

end DeepPack
