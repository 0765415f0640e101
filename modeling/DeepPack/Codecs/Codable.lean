import DeepPack.Codecs.Wrappers

/-! Round trips, for the types that are built from codecs which restore their values.

`BuiltFrom` is how encoders and decoders are built side by side, from leaves that are a
parameter. Ids of objects come back like any other value and are found again, because
they ascend. The entries of an object, the version among them, are fewer than the head
of an object may count. The strings in an array of their own are no leaf here: they keep
what their array held behind the text. -/
namespace DeepPack
open Library

/-! ### Ids -/

section Ids
variable {n : Nat} {ι : Type}

theorem ascending_ofFn {r : ι → ι → Prop} {ids : Fin n → ι} (h : ∀ i j, i < j → r (ids i) (ids j)) :
    (List.ofFn ids).Pairwise r :=
  List.pairwise_ofFn.mpr fun i j hij => h i j hij

theorem propertyIdLookup_ofFn [DecidableEq ι] {lt : ι → ι → Bool} (hirr : ∀ a, lt a a = false) {ids : Fin n → ι}
    (hasc : ∀ i j, i < j → lt (ids i) (ids j)) (i : Fin n) :
    Detail.propertyIdLookup lt (List.ofFn ids) (ids i) = some i.val := by
  have hi : i.val < (List.ofFn ids).length := by
    rw [List.length_ofFn]
    exact i.isLt
  have hlookup := Detail.propertyIdLookup_getElem hirr (ascending_ofFn hasc) hi
  rwa [List.getElem_ofFn] at hlookup

theorem unsignedIdLookup_ofFn {w : Nat} {ids : Fin n → BitVec w} (hasc : ∀ i j, i < j → ids i < ids j) (i : Fin n) :
    Detail.unsignedIdLookup (List.ofFn ids) (ids i) = some i.val := by
  have hi : i.val < (List.ofFn ids).length := by
    rw [List.length_ofFn]
    exact i.isLt
  have hlookup := Detail.unsignedIdLookup_getElem (ascending_ofFn hasc) hi
  rwa [List.getElem_ofFn] at hlookup

end Ids

namespace FixedU8string
variable {capacity : Nat} {units : List UInt8}

theorem view_ofUnits : (ofUnits capacity units).view = units := List.take_left

theorem fits_ofUnits (hcapacity : capacity < 2 ^ 32) (hlen : units.length ≤ capacity) :
    Fits capacity (ofUnits capacity units) := by
  refine ⟨hcapacity, ?_, hlen⟩
  rw [ofUnits, List.length_append, List.length_replicate]
  omega

/-- Units written over zeros are followed by zeros. -/
theorem overwrite_zeros :
    BlobContainer.span.overwrite 0 units (ofUnits capacity []).codeUnits = (ofUnits capacity units).codeUnits := by
  show BlobContainer.putAt 0 units ([] ++ List.replicate (capacity - 0) 0) = _
  rw [BlobContainer.putAt, List.take_zero, List.nil_append, List.nil_append, Nat.zero_add, Nat.sub_zero,
    List.drop_replicate]
  rfl

end FixedU8string

/-- A fixed string that was read into a new one is padded with zeros. -/
theorem takes_fixedU8string {capacity : Nat} {units : List UInt8} (hcapacity : capacity < 2 ^ 32)
    (hlen : units.length ≤ capacity) :
    InputTakes ((fixedU8stringDecoder capacity).asValue MemoryInputStream)
      ((fixedU8stringEncoder capacity).bytes (.ofUnits capacity units)) (.ofUnits capacity units) := by
  have hwords : units.length < wordLimit := (hlen.trans_lt hcapacity).trans (by decide)
  have hbytes : (fixedU8stringEncoder capacity).bytes (.ofUnits capacity units) =
      Detail.varUintHead .text units.length ++ units := by
    show (Emitter.bytes fun _ _ => emitU8string (FixedU8string.ofUnits capacity units).view) = _
    rw [FixedU8string.view_ofUnits, (puts_emitU8string hwords).bytes_eq]
  have hresize : BlobContainer.span.resize units.length (FixedU8string.ofUnits capacity []).codeUnits =
      some (FixedU8string.ofUnits capacity []).codeUnits := by
    apply if_pos
    show units.length ≤ ([] ++ List.replicate (capacity - 0) 0 : List UInt8).length
    rwa [List.nil_append, List.length_replicate]
  have hmax : units.length ≤ capacity % 2 ^ 32 := by rwa [Nat.mod_eq_of_lt hcapacity]
  have htext := takes_parseBlob (m := 3) (.inr rfl) .span false hwords hmax hresize
  rw [FixedU8string.overwrite_zeros] at htext
  have hinit : ParseTakes (Action.onSnd (Action.modify fun s : FixedU8string => {s with numCodeUnits := 0})) [] ()
      (fixedU8stringDecoder capacity).init (.ofUnits capacity []) := Action.takes_onSnd rfl
  rw [hbytes]
  refine Action.TakesAhead.fresh (hinit.before ?_)
  exact (Action.TakesAhead.within htext).after (Action.takes_onSnd rfl)

/-! ### Too many properties -/

section TooMany
variable {n : Nat} {ι : Type} {β : Fin n → Type}

/-- The head of an object is not read past if it counts as many entries as that. -/
theorem decodeObject_tooMany {D : ObjectDef ι n} (property : Parse MemoryInputStream (∀ i, β i) Nat) {entries : Nat}
    (hentries : int32Max / 2 ≤ entries) (hlimit : entries < wordLimit) {rest : List UInt8}
    (hrest : 2 * entries ≤ rest.length) (hfits : (Detail.varUintHead .map entries ++ rest).length < wordLimit)
    (w : ∀ i, β i) :
    (decodeObject D property (memoryInput (Detail.varUintHead .map entries ++ rest), w)).1 =
      .error (.errc .tooManyProperties) := by
  have hread := takes_varUintHead (m := 5) (by decide) hlimit rest (Nat.zero_le _) hfits
  have hhead : decodeObjectHead (D.version != nullDefVersion)
      (memoryInput (Detail.varUintHead .map entries ++ rest)) =
        (.error (.errc .tooManyProperties), memoryInput rest) := by
    apply (Action.bind_ok _ hread).trans
    have hpos : 0 < int32Max / 2 := by decide
    rw [if_neg (not_or.mpr ⟨fun h => h rfl, by simp⟩), if_neg (show ¬ entries = 0 by omega), InputBuffer.inputSizeNow,
      Action.gets_bind_apply, if_neg (show ¬ (memoryInput rest).inputSize / 2 < entries by rw [memoryInput_inputSize]; omega),
      if_pos hentries, err_apply]
  have hfst : Action.onFst (decodeObjectHead (D.version != nullDefVersion))
      (memoryInput (Detail.varUintHead .map entries ++ rest), w) =
        (.error (.errc .tooManyProperties), (memoryInput rest, w)) := by
    rw [Action.onFst_apply, hhead]
  exact congrArg Prod.fst (Action.bind_error _ hfst)

theorem length_flatMap_le {α : Type} {word : α → List UInt8} {k : Nat} (h : ∀ a, (word a).length ≤ k) (l : List α) :
    (l.flatMap word).length ≤ l.length * k := by
  induction l with
  | nil => exact Nat.zero_le _
  | cons a l ih =>
    have ha := h a
    rw [List.flatMap_cons, List.length_append, List.length_cons, Nat.succ_mul]
    omega

/-- Objects of as many booleans, with a version. -/
theorem unsignedObject_tooMany {D : ObjectDef (BitVec 32) n} (hversion : D.version ≠ nullDefVersion)
    (hmin : int32Max / 2 ≤ n + 1) (hmax : n < 2 ^ 32) (v : Fin n → Bool) :
    ((objectEncoder D (integerEncoder ⟨32, false⟩) fun _ => boolEncoder).bytes v).length < wordLimit ∧
      ((unsignedObjectDecoder D fun _ => boolDecoder).decode MemoryInputStream
        (memoryInput ((objectEncoder D (integerEncoder ⟨32, false⟩) fun _ => boolEncoder).bytes v), v)).1 =
          .error (.errc .tooManyProperties) := by
  have hlimit : 2 ^ 40 < wordLimit := by decide
  have ht : IntType.EncodableInt ⟨32, false⟩ := .inr (.inr (.inl rfl))
  have hkey : ∀ id : BitVec 32, ((integerEncoder ⟨32, false⟩).bytes id).length ≤ 5 := fun id => by
    rw [show (integerEncoder ⟨32, false⟩).bytes id = _ from versionBytes_eq id]
    exact Detail.varUintHead_length_le (.inl rfl) id.isLt _
  have hvalue : ∀ b : Bool, (boolEncoder.bytes b).length = 1 := fun b =>
    congrArg List.length (puts_emitBoolean b).bytes_eq
  generalize hproperties : propertyBytes D (integerEncoder ⟨32, false⟩) (fun _ => boolEncoder) v = properties
  have hle : properties.length ≤ n * 6 := by
    have hproperty : ∀ i, ((integerEncoder ⟨32, false⟩).bytes (D.ids i) ++ boolEncoder.bytes (v i)).length ≤ 6 := by
      intro i
      rw [List.length_append, hvalue]
      exact Nat.add_le_add_right (hkey _) 1
    have hsum := length_flatMap_le hproperty (List.finRange n)
    rwa [List.length_finRange, show (List.finRange n).flatMap _ = properties from hproperties] at hsum
  have hge : 2 * n ≤ properties.length := by
    rw [← hproperties]
    exact (wellFormed_properties (fun i => (integerEncoder_exact ht (D.ids i) trivial).2)
      fun i => (boolEncoder_exact (v i) trivial).2).items_length
  have hbytes : ((objectEncoder D (integerEncoder ⟨32, false⟩) fun _ => boolEncoder).bytes v) =
      Detail.varUintHead .map (n + 1) ++ (initialByte 0 0 :: versionBytes D.version ++ properties) := by
    have hputs := objectEncoder_puts (D := D) (by omega) (integerEncoder_exact ht)
      (fun _ => trivial) (fun _ => boolEncoder_exact) (v := v) fun _ => trivial
    apply hputs.bytes_eq.trans
    rw [hproperties, objectPrefix, if_neg hversion, List.append_assoc]
  have hprefix := Detail.varUintHead_length_le (.inr rfl) (show n + 1 < 2 ^ 64 by omega) .map
  have hpos := versionBytes_length_pos D.version
  have hversionLength : (versionBytes D.version).length ≤ 5 := hkey D.version
  have hrest : (initialByte 0 0 :: versionBytes D.version ++ properties).length =
      1 + (versionBytes D.version).length + properties.length := by
    rw [List.length_append, List.length_cons, Nat.add_comm 1]
  have hfits : (Detail.varUintHead .map (n + 1) ++ (initialByte 0 0 :: versionBytes D.version ++ properties)).length <
      wordLimit := by
    rw [List.length_append, hrest]
    omega
  generalize (objectEncoder D (integerEncoder ⟨32, false⟩) fun _ => boolEncoder).bytes v = bytes at hbytes ⊢
  subst hbytes
  exact ⟨hfits, decodeObject_tooMany _ hmin (by omega) (by omega) hfits v⟩

end TooMany

/-! ### Codecs -/

/-- How encoders and decoders are built side by side: from these leaves, with containers ordered by such orders and
arrays of such sizes. -/
inductive BuiltFrom (leaf : ∀ {α : Type}, Encoder α → Decoder α → Prop) (sorted : ∀ {κ : Type}, (κ → κ → Bool) → Prop)
    (sized : Nat → Prop) : {α : Type} → Encoder α → Decoder α → Prop where
  | leaf {α : Type} {c : Encoder α} {d : Decoder α} : leaf c d → BuiltFrom leaf sorted sized c d
  | vector {α : Type} {c : Encoder α} {d : Decoder α} : BuiltFrom leaf sorted sized c d →
      BuiltFrom leaf sorted sized (rangeEncoder 64 c) (vectorDecoder d)
  | set {κ : Type} {k : Encoder κ} {kd : Decoder κ} (lt : κ → κ → Bool) : sorted lt →
      BuiltFrom leaf sorted sized k kd → BuiltFrom leaf sorted sized (setEncoder lt k) (setDecoder lt kd)
  | map {κ ν : Type} {k : Encoder κ} {kd : Decoder κ} {c : Encoder ν} {d : Decoder ν} (lt : κ → κ → Bool) : sorted lt →
      BuiltFrom leaf sorted sized k kd → BuiltFrom leaf sorted sized c d →
      BuiltFrom leaf sorted sized (orderedMapEncoder lt k c) (mapDecoder lt kd d)
  | array {α : Type} {c : Encoder α} {d : Decoder α} (n : Nat) : sized n → BuiltFrom leaf sorted sized c d →
      BuiltFrom leaf sorted sized (arrayEncoder n c) (arrayDecoder n d)
  | tuple {n : Nat} {α : Fin n → Type} {c : ∀ i, Encoder (α i)} {d : ∀ i, Decoder (α i)} : n < wordLimit →
      (∀ i, BuiltFrom leaf sorted sized (c i) (d i)) → BuiltFrom leaf sorted sized (tupleEncoder c) (tupleDecoder d)
  | packableTuple {n : Nat} {α : Fin n → Type} {c : ∀ i, Encoder (α i)} {d : ∀ i, Decoder (α i)}
      (version : BitVec 32) : n < int32Max → (∀ i, BuiltFrom leaf sorted sized (c i) (d i)) →
      BuiltFrom leaf sorted sized (packableTupleEncoder version c) (packableTupleDecoder version d)
  | object {n : Nat} {ι : Type} [DecidableEq ι] {α : Fin n → Type} {lt : ι → ι → Bool} {D : ObjectDef ι n}
      {key : Encoder ι} {kd : Decoder ι} {c : ∀ i, Encoder (α i)} {d : ∀ i, Decoder (α i)} :
      numEntries n D.version < 2 ^ 30 - 1 → (∀ a, lt a a = false) → (∀ i j, i < j → lt (D.ids i) (D.ids j)) →
      BuiltFrom leaf sorted sized key kd → (∀ i, key.IsValue (D.ids i)) →
      (∀ i, BuiltFrom leaf sorted sized (c i) (d i)) →
      BuiltFrom leaf sorted sized (objectEncoder D key c) (objectDecoder lt D kd d)
  | namedObject {n capacity : Nat} {α : Fin n → Type} {lt : FixedU8string → FixedU8string → Bool}
      {D : ObjectDef FixedU8string n} {names : Fin n → List UInt8} {c : ∀ i, Encoder (α i)}
      {d : ∀ i, Decoder (α i)} :
      numEntries n D.version < 2 ^ 30 - 1 → (∀ a, lt a a = false) → (∀ i j, i < j → lt (D.ids i) (D.ids j)) →
      capacity < 2 ^ 32 → (∀ i, (names i).length ≤ capacity ∧ D.ids i = .ofUnits capacity (names i)) →
      (∀ i, BuiltFrom leaf sorted sized (c i) (d i)) →
      BuiltFrom leaf sorted sized (objectEncoder D (fixedU8stringEncoder capacity) c)
        (objectDecoder lt D (fixedU8stringDecoder capacity) d)
  | unsignedObject {n w : Nat} {α : Fin n → Type} {D : ObjectDef (BitVec w) n} {c : ∀ i, Encoder (α i)}
      {d : ∀ i, Decoder (α i)} : numEntries n D.version < 2 ^ 30 - 1 → IntType.EncodableInt ⟨w, false⟩ →
      (∀ i j, i < j → D.ids i < D.ids j) → (∀ i, BuiltFrom leaf sorted sized (c i) (d i)) →
      BuiltFrom leaf sorted sized (objectEncoder D (integerEncoder ⟨w, false⟩) c) (unsignedObjectDecoder D d)

/-- The codecs of single values that are restored wherever they are decoded to. -/
inductive LibraryLeaf : {α : Type} → Encoder α → Decoder α → Prop where
  | bool : LibraryLeaf boolEncoder boolDecoder
  | integer {t : IntType} : t.EncodableInt → LibraryLeaf (integerEncoder t) (integerDecoder t)
  | float : LibraryLeaf floatEncoder floatDecoder
  | double : LibraryLeaf doubleEncoder doubleDecoder
  | string : LibraryLeaf stringEncoder stringDecoder
  | blob : LibraryLeaf blobEncoder blobDecoder
  | byteArray {n : Nat} : n < wordLimit → LibraryLeaf (byteArrayEncoder n) (byteArrayDecoder n)
  | enum {ε : Type} {t : IntType} {underlying : ε → BitVec t.width} {cast : BitVec t.width → ε} : t.EncodableInt →
      Function.LeftInverse cast underlying → LibraryLeaf (enumEncoder t underlying) (enumDecoder t cast)
  | duration {δ : Type} {rep : IntType} {count : δ → BitVec rep.width} {duration : BitVec rep.width → δ} :
      rep.EncodableInt → Function.LeftInverse duration count →
      LibraryLeaf (durationEncoder rep count) (durationDecoder rep duration)
  | path {π : Type} {genericU8string : π → List UInt8} {assign : List UInt8 → π} :
      Function.LeftInverse assign genericU8string → (∀ p, (genericU8string p).length < wordLimit) →
      LibraryLeaf (pathEncoder genericU8string) (pathDecoder assign)
  | uuid {υ : Type} {canonical : υ → ByteArrayOf uuidStateSize} {uuid : List UInt8 → υ} :
      (∀ u, uuid (canonical u).val = u) → LibraryLeaf (uuidEncoder canonical) (uuidDecoder uuid)

/-- The codecs built from these, with whatever orders and arrays. -/
abbrev Codable {α : Type} (c : Encoder α) (d : Decoder α) : Prop :=
  BuiltFrom LibraryLeaf (fun _ => True) (fun _ => True) c d

variable {α : Type} {c : Encoder α} {d : Decoder α}

theorem wordLimit_of_entries {n : Nat} {version : BitVec 32} (h : numEntries n version < 2 ^ 30 - 1) :
    n + 1 < wordLimit := by
  have hmax : 2 ^ 30 < wordLimit := by decide
  rw [numEntries] at h
  split at h <;> omega

theorem isValue_name {n capacity : Nat} {D : ObjectDef FixedU8string n} {names : Fin n → List UInt8}
    (hcapacity : capacity < 2 ^ 32) (hnames : ∀ i, (names i).length ≤ capacity ∧ D.ids i = .ofUnits capacity (names i))
    (i : Fin n) : (fixedU8stringEncoder capacity).IsValue (D.ids i) := by
  rw [(hnames i).2]
  exact FixedU8string.fits_ofUnits hcapacity (hnames i).1

theorem LibraryLeaf.encodable (h : LibraryLeaf c d) : Encodable c := by
  cases h with
  | bool => exact .bool
  | integer ht => exact .integer ht
  | float => exact .float
  | double => exact .double
  | string => exact .string
  | blob => exact .blob
  | byteArray _ => exact .byteArray _
  | enum ht _ => exact .enum _ ht
  | duration ht _ => exact .duration _ ht
  | path _ _ => exact .path _
  | uuid _ => exact .uuid _

theorem LibraryLeaf.restores (h : LibraryLeaf c d) : Restores c d := by
  cases h with
  | bool => exact restores_bool
  | integer ht => exact restores_integer ht
  | float => exact restores_float
  | double => exact restores_double
  | string => exact restores_string
  | blob => exact restores_blob
  | byteArray _ => exact restores_byteArray _
  | enum ht hcast => exact (restores_integer ht).via hcast
  | duration ht hduration => exact (restores_integer ht).via hduration
  | path hassign _ => exact restores_string.via hassign
  | uuid h => exact restores_uuid h

namespace BuiltFrom
variable {leaf : ∀ {α : Type}, Encoder α → Decoder α → Prop} {sorted : ∀ {κ : Type}, (κ → κ → Bool) → Prop}
  {sized : Nat → Prop}

/-- With more leaves, orders and sizes, more is built. -/
theorem mono {leaf' : ∀ {α : Type}, Encoder α → Decoder α → Prop} {sorted' : ∀ {κ : Type}, (κ → κ → Bool) → Prop}
    {sized' : Nat → Prop} (hleaf : ∀ {α : Type} {c : Encoder α} {d : Decoder α}, leaf c d → leaf' c d)
    (hsorted : ∀ {κ : Type} {lt : κ → κ → Bool}, sorted lt → sorted' lt) (hsized : ∀ n, sized n → sized' n)
    (h : BuiltFrom leaf sorted sized c d) : BuiltFrom leaf' sorted' sized' c d := by
  induction h with
  | leaf h => exact .leaf (hleaf h)
  | vector _ ih => exact .vector ih
  | set lt hlt _ ih => exact .set lt (hsorted hlt) ih
  | map lt hlt _ _ ihk ihc => exact .map lt (hsorted hlt) ihk ihc
  | array n hn _ ih => exact .array n (hsized n hn) ih
  | tuple hn _ ih => exact .tuple hn ih
  | packableTuple version hn _ ih => exact .packableTuple version hn ih
  | object hn hirr hasc _ hids _ ihkey ih => exact .object hn hirr hasc ihkey hids ih
  | namedObject hn hirr hasc hcapacity hnames _ ih => exact .namedObject hn hirr hasc hcapacity hnames ih
  | unsignedObject hn ht hasc _ ih => exact .unsignedObject hn ht hasc ih

/-- What can be decoded again is encoded in one of the ways known. -/
theorem encodable (hleaf : ∀ {α : Type} {c : Encoder α} {d : Decoder α}, leaf c d → Encodable c)
    (h : BuiltFrom leaf sorted sized c d) : Encodable c := by
  induction h with
  | leaf h => exact hleaf h
  | vector _ ih => exact .range (.inr rfl) ih
  | set lt _ _ ih => exact .set lt ih
  | map lt _ _ _ ihk ihc => exact .orderedMap lt ihk ihc
  | array n _ _ ih => exact .array n ih
  | tuple hn _ ih => exact .tuple hn ih
  | packableTuple version hn _ ih =>
    exact .packableTuple version (Nat.lt_of_le_of_lt hn (show int32Max < wordLimit by decide)) ih
  | object hn _ _ _ hids _ ihkey ih => exact .object (wordLimit_of_entries hn) ihkey hids ih
  | namedObject hn _ _ hcapacity hnames _ ih =>
    exact .object (wordLimit_of_entries hn) (.fixedU8string _) (isValue_name hcapacity hnames) ih
  | unsignedObject hn ht _ _ ih => exact .object (wordLimit_of_entries hn) (.integer ht) (fun _ => trivial) ih

theorem exact (h : BuiltFrom LibraryLeaf sorted sized c d) : c.Exact := (h.encodable LibraryLeaf.encodable).exact

theorem restores (h : BuiltFrom LibraryLeaf sorted sized c d) : Restores c d := by
  induction h with
  | leaf h => exact h.restores
  | vector hc ih => exact restores_vector hc.exact ih
  | set lt _ hk ih => exact restores_set lt hk.exact ih
  | map lt _ hk hc ihk ihc => exact restores_map lt hk.exact hc.exact ihk ihc
  | array n _ hc ih => exact restores_array n hc.exact ih
  | tuple hn hc ih => exact restores_tuple hn (fun i => (hc i).exact) ih
  | packableTuple version hn hc ih => exact restores_packableTuple hn version (fun i => (hc i).exact) ih
  | object hn hirr hasc hkey hids hc ihkey ih =>
    exact fun v hv w => restores_decodeObject hn hkey.exact hids (fun i => (hc i).exact) ih
      (fun i => ihkey.asValue (hids i)) (propertyIdLookup_ofFn hirr hasc) hv w
  | namedObject hn hirr hasc hcapacity hnames hc ih =>
    intro v hv w
    refine restores_decodeObject hn (fixedU8stringEncoder_exact _) (isValue_name hcapacity hnames)
      (fun i => (hc i).exact) ih (fun i => ?_) (propertyIdLookup_ofFn hirr hasc) hv w
    rw [(hnames i).2]
    exact takes_fixedU8string hcapacity (hnames i).1
  | unsignedObject hn ht hasc hc ih =>
    exact fun v hv w => restores_decodeObject hn (integerEncoder_exact ht) (fun _ => trivial) (fun i => (hc i).exact) ih
      (fun _ => (restores_integer ht).asValue trivial) (unsignedIdLookup_ofFn hasc) hv w

end BuiltFrom

/-- What was encoded can be decoded, into whatever destination: its value comes back, and what
stands behind the encoding is left. -/
theorem decode_encode (h : Codable c d) (v : c.Value) (s : List UInt8)
    (hfits : (c.bytes v.1 ++ s).length < wordLimit) (w : α) :
    (c.encode v.1 EndlessStream EndlessStream.fresh).1 = .ok () ∧
      d.decode MemoryInputStream (memoryInput (c.bytes v.1 ++ s), w) = (.ok (), (memoryInput s, v.1)) := by
  constructor
  · obtain ⟨t, ht, -, -⟩ := (((h.encodable LibraryLeaf.encodable).puts v).emits EndlessStream.documented.contract).documented
      (s := EndlessStream.fresh) trivial
    exact congrArg Prod.fst ht
  · exact h.restores v.1 v.2 w s (Nat.zero_le _) hfits

theorem decode_encode_object :
    (unsignedObjectDecoder (⟨3, fun _ => 7, fun _ => true⟩ : ObjectDef (BitVec 32) 1) fun _ => boolDecoder).decode
        MemoryInputStream (memoryInput [0xa2, 0x00, 0x03, 0x07, 0xf5, 0x2a], fun _ => false) =
      (.ok (), (memoryInput [0x2a], fun _ => true)) := by
  have h : Codable (objectEncoder (⟨3, fun _ => 7, fun _ => true⟩ : ObjectDef (BitVec 32) 1)
      (integerEncoder ⟨32, false⟩) fun _ => boolEncoder)
      (unsignedObjectDecoder ⟨3, fun _ => 7, fun _ => true⟩ fun _ => boolDecoder) :=
    .unsignedObject (by decide) (.inr (.inr (.inl rfl))) (by decide) fun _ => .leaf .bool
  have hbytes : (objectEncoder (⟨3, fun _ => 7, fun _ => true⟩ : ObjectDef (BitVec 32) 1)
      (integerEncoder ⟨32, false⟩) fun _ => boolEncoder).bytes (fun _ => true) = [0xa2, 0x00, 0x03, 0x07, 0xf5] := by
    decide
  have hlen := (congrArg List.length (congrArg (· ++ [0x2a]) hbytes)).trans_lt (show 6 < wordLimit by decide)
  have hdecode := (decode_encode h ⟨fun _ => true, fun _ => trivial⟩ [0x2a] hlen fun _ => false).2
  rwa [hbytes] at hdecode

/-- With a version, the largest number of properties below `2 ^ 30 - 1` is one too many: the head of
the object counts the version as well. -/
theorem decode_encode_tooMany :
    let D : ObjectDef (BitVec 32) (2 ^ 30 - 2) := ⟨0, fun i => BitVec.ofNat 32 i.val, fun _ => true⟩
    let c : Encoder (Fin (2 ^ 30 - 2) → Bool) := objectEncoder D (integerEncoder ⟨32, false⟩) fun _ => boolEncoder
    (∀ i j, i < j → D.ids i < D.ids j) ∧ c.IsValue (fun _ => false) ∧
      (c.bytes fun _ => false).length < wordLimit ∧
      ((unsignedObjectDecoder D fun _ => boolDecoder).decode MemoryInputStream
        (memoryInput (c.bytes fun _ => false), fun _ => false)).1 = .error (.errc .tooManyProperties) := by
  intro D c
  refine ⟨fun i j hij => ?_, fun _ => trivial, ?_⟩
  · have hi : i.val < 2 ^ 32 := i.isLt.trans (by decide)
    have hj : j.val < 2 ^ 32 := j.isLt.trans (by decide)
    rw [BitVec.lt_def, BitVec.toNat_ofNat, BitVec.toNat_ofNat, Nat.mod_eq_of_lt hi, Nat.mod_eq_of_lt hj]
    exact hij
  · exact unsignedObject_tooMany (D := D) (by decide) (by decide) (by decide) fun _ => false

end DeepPack
