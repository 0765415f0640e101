import DeepPack.Items.Definite
import DeepPack.Codecs.Encodable

/-! Encodings of definite length.

All but the indefinite ranges are: what the encoders of scalars, strings, sized
containers, tuples and objects put out are items that say in front how much there is
of them. -/
namespace DeepPack
open Library

variable {α κ ν ι : Type}

/-- The encoders that say in front how much there is of everything. -/
inductive DefiniteEncodable : {α : Type} → Encoder α → Prop where
  | bool : DefiniteEncodable boolEncoder
  | integer {t : IntType} : t.EncodableInt → DefiniteEncodable (integerEncoder t)
  | float : DefiniteEncodable floatEncoder
  | double : DefiniteEncodable doubleEncoder
  | string : DefiniteEncodable stringEncoder
  | fixedU8string (capacity : Nat) : DefiniteEncodable (fixedU8stringEncoder capacity)
  | blob : DefiniteEncodable blobEncoder
  | byteArray (n : Nat) : DefiniteEncodable (byteArrayEncoder n)
  | range {α : Type} {c : Encoder α} {digits : Nat} : digits = 32 ∨ digits = 64 → DefiniteEncodable c →
      DefiniteEncodable (rangeEncoder digits c)
  | map {κ ν : Type} {k : Encoder κ} {c : Encoder ν} {digits : Nat} : digits = 32 ∨ digits = 64 →
      DefiniteEncodable k → DefiniteEncodable c → DefiniteEncodable (mapEncoder digits k c)
  | set {κ : Type} {k : Encoder κ} (lt : κ → κ → Bool) : DefiniteEncodable k → DefiniteEncodable (setEncoder lt k)
  | orderedMap {κ ν : Type} {k : Encoder κ} {c : Encoder ν} (lt : κ → κ → Bool) : DefiniteEncodable k →
      DefiniteEncodable c → DefiniteEncodable (orderedMapEncoder lt k c)
  | array {α : Type} {c : Encoder α} (n : Nat) : DefiniteEncodable c → DefiniteEncodable (arrayEncoder n c)
  | tuple {n : Nat} {α : Fin n → Type} {c : ∀ i, Encoder (α i)} : n < wordLimit → (∀ i, DefiniteEncodable (c i)) →
      DefiniteEncodable (tupleEncoder c)
  | packableTuple {n : Nat} {α : Fin n → Type} {c : ∀ i, Encoder (α i)} (version : BitVec 32) : n + 1 < wordLimit →
      (∀ i, DefiniteEncodable (c i)) → DefiniteEncodable (packableTupleEncoder version c)
  | object {n : Nat} {ι : Type} {α : Fin n → Type} {D : ObjectDef ι n} {key : Encoder ι} {c : ∀ i, Encoder (α i)} :
      n + 1 < wordLimit → DefiniteEncodable key → (∀ i, key.IsValue (D.ids i)) → (∀ i, DefiniteEncodable (c i)) →
      DefiniteEncodable (objectEncoder D key c)

theorem DefiniteEncodable.encodable {c : Encoder α} (h : DefiniteEncodable c) : Encodable c := by
  induction h with
  | bool => exact .bool
  | integer ht => exact .integer ht
  | float => exact .float
  | double => exact .double
  | string => exact .string
  | fixedU8string capacity => exact .fixedU8string capacity
  | blob => exact .blob
  | byteArray n => exact .byteArray n
  | range hd _ ih => exact .range hd ih
  | map hd _ _ ihk ihc => exact .map hd ihk ihc
  | set lt _ ih => exact .set lt ih
  | orderedMap lt _ _ ihk ihc => exact .orderedMap lt ihk ihc
  | array n _ ih => exact .array n ih
  | tuple hn _ ih => exact .tuple hn ih
  | packableTuple version hn _ ih => exact .packableTuple version hn ih
  | object hn _ hids _ ihkey ih => exact .object hn ihkey hids ih

/-- What the encoder puts out is an item of definite length. -/
def Encoder.PutsDefinite (c : Encoder α) : Prop := ∀ v, c.IsValue v → Definite (c.bytes v)

section PutsDefinite
variable {c : Encoder α} {k : Encoder κ} {e : Encoder ν}

theorem putsDefinite_bool : boolEncoder.PutsDefinite := by
  intro v _
  rw [show boolEncoder.bytes v = _ from (puts_emitBoolean v).bytes_eq]
  exact definite_head (m := 7) (.inr (.inr rfl)) (.inline (by cases v <;> decide)) (by cases v <;> decide)

theorem putsDefinite_integer {t : IntType} (ht : t.EncodableInt) : (integerEncoder t).PutsDefinite := by
  intro v _
  rw [show (integerEncoder t).bytes v = _ from (puts_emitInteger ht v).bytes_eq]
  obtain ⟨m, hm, hcategory⟩ := t.category_eq v
  rw [hcategory]
  exact definite_int hm (t.uvalue_lt ht v)

theorem putsDefinite_float : floatEncoder.PutsDefinite := by
  intro v _
  rw [show floatEncoder.bytes v = _ from (puts_emitFloatSingle v).bytes_eq]
  exact definite_head (m := 7) (.inr (.inr rfl)) (.payload (p := 2) (by decide) (toBytes_length 4 _)) (by
    intro hbad
    exact absurd hbad.2.1 (by decide))

theorem putsDefinite_double : doubleEncoder.PutsDefinite := by
  intro v _
  rw [show doubleEncoder.bytes v = _ from (puts_emitFloatDouble v).bytes_eq]
  exact definite_head (m := 7) (.inr (.inr rfl)) (.payload (p := 3) (by decide) (toBytes_length 8 _)) (by
    intro hbad
    exact absurd hbad.2.1 (by decide))

theorem putsDefinite_string : stringEncoder.PutsDefinite := by
  intro v hv
  rw [show stringEncoder.bytes v = _ from (puts_emitU8string hv).bytes_eq]
  exact definite_string (m := 3) (.inr rfl) hv

theorem putsDefinite_blob : blobEncoder.PutsDefinite := by
  intro v hv
  rw [show blobEncoder.bytes v = _ from (puts_emitBinary hv).bytes_eq]
  exact definite_string (m := 2) (.inl rfl) hv

theorem putsDefinite_fixedU8string (capacity : Nat) : (fixedU8stringEncoder capacity).PutsDefinite := by
  intro v h
  obtain ⟨hcapacity, hlen, -⟩ := h
  apply putsDefinite_string v.view
  show v.view.length < wordLimit
  rw [FixedU8string.view, List.length_take, hlen]
  exact (Nat.min_le_right _ _).trans_lt (hcapacity.trans (by decide))

theorem putsDefinite_range {digits : Nat} (hd : digits = 32 ∨ digits = 64) (hc : c.Exact) (h : c.PutsDefinite) :
    (rangeEncoder digits c).PutsDefinite := by
  intro vs hvs
  rw [show (rangeEncoder digits c).bytes vs = _ from (puts_rangeEncoder hd hc hvs).bytes_eq]
  exact definite_array (digits_le hd hvs.1) (.flatMap fun v hv => h v (hvs.2 v hv))

theorem putsDefinite_map {digits : Nat} (hd : digits = 32 ∨ digits = 64) (hk : k.Exact) (he : e.Exact)
    (h : k.PutsDefinite) (h' : e.PutsDefinite) : (mapEncoder digits k e).PutsDefinite := by
  intro vs hvs
  rw [show (mapEncoder digits k e).bytes vs = _ from (puts_mapEncoder hd hk he hvs).bytes_eq]
  refine definite_map (digits_le hd hvs.1) (.flatMap fun v hv => ?_)
  obtain ⟨hkey, hvalue⟩ := hvs.2 v hv
  exact ⟨_, _, rfl, h v.1 hkey, h' v.2 hvalue⟩

theorem definite_version (version : BitVec 32) : Definite (versionBytes version) :=
  putsDefinite_integer encodableInt_versionType version trivial

section Members
variable {n : Nat} {β : Fin n → Type} {c : ∀ i, Encoder (β i)}

theorem repeated_members {E : List UInt8 → Prop} {word : Fin n → List UInt8} (h : ∀ i, E (word i)) :
    Repeated E n ((List.finRange n).flatMap word) := by
  have hmembers := Repeated.flatMap (l := List.finRange n) fun i _ => h i
  rwa [List.length_finRange] at hmembers

theorem putsDefinite_tuple (hn : n < wordLimit) (hc : ∀ i, (c i).Exact) (h : ∀ i, (c i).PutsDefinite) :
    (tupleEncoder c).PutsDefinite := by
  intro v hv
  rw [show (tupleEncoder c).bytes v = _ from (tupleEncoder_puts hn hc hv).bytes_eq]
  exact definite_array hn (repeated_members fun i => h i (v i) (hv i))

theorem putsDefinite_packableTuple (hn : n + 1 < wordLimit) (version : BitVec 32) (hc : ∀ i, (c i).Exact)
    (h : ∀ i, (c i).PutsDefinite) : (packableTupleEncoder version c).PutsDefinite := by
  intro v hv
  rw [show (packableTupleEncoder version c).bytes v = _ from (packableTupleEncoder_puts hn version hc hv).bytes_eq]
  have hmembers : Repeated Definite n (memberBytes c v) := repeated_members fun i => h i (v i) (hv i)
  rw [tuplePrefix]
  split
  · exact definite_array (Nat.lt_of_succ_lt hn) hmembers
  · rw [List.append_assoc]
    exact definite_array hn (.cons (definite_version version) hmembers)

theorem putsDefinite_object {D : ObjectDef ι n} {key : Encoder ι} (hn : n + 1 < wordLimit) (hkey : key.Exact)
    (hids : ∀ i, key.IsValue (D.ids i)) (hc : ∀ i, (c i).Exact) (hk : key.PutsDefinite)
    (h : ∀ i, (c i).PutsDefinite) : (objectEncoder D key c).PutsDefinite := by
  intro v hv
  rw [show (objectEncoder D key c).bytes v = _ from (objectEncoder_puts hn hkey hids hc hv).bytes_eq]
  have hproperties : Repeated DefinitePair n (propertyBytes D key c v) :=
    repeated_members fun i => ⟨_, _, rfl, hk (D.ids i) (hids i), h i (v i) (hv i)⟩
  have hversion : DefinitePair (initialByte 0 0 :: versionBytes D.version) :=
    ⟨[initialByte 0 0], _, rfl, definite_head (.inl rfl) (.inline (Nat.zero_le 23)) (by decide), definite_version _⟩
  rw [objectPrefix]
  split
  · exact definite_map (Nat.lt_of_succ_lt hn) hproperties
  · rw [List.append_assoc]
    exact definite_map hn (.cons hversion hproperties)

end Members
end PutsDefinite

theorem DefiniteEncodable.putsDefinite {c : Encoder α} (h : DefiniteEncodable c) : c.PutsDefinite := by
  induction h with
  | bool => exact putsDefinite_bool
  | integer ht => exact putsDefinite_integer ht
  | float => exact putsDefinite_float
  | double => exact putsDefinite_double
  | string => exact putsDefinite_string
  | fixedU8string capacity => exact putsDefinite_fixedU8string capacity
  | blob => exact putsDefinite_blob
  | byteArray n => exact fun v hv => putsDefinite_blob v.val (show v.val.length < wordLimit from v.property.symm ▸ hv)
  | range hd hc ih => exact putsDefinite_range hd hc.encodable.exact ih
  | map hd hk hc ihk ihc => exact putsDefinite_map hd hk.encodable.exact hc.encodable.exact ihk ihc
  | set lt hk ih => exact fun vs hvs => putsDefinite_range (.inr rfl) hk.encodable.exact ih vs hvs.1
  | orderedMap lt hk hc ihk ihc =>
    exact fun vs hvs => putsDefinite_map (.inr rfl) hk.encodable.exact hc.encodable.exact ihk ihc vs hvs.1
  | array n hc ih => exact fun v hv => putsDefinite_range (.inr rfl) hc.encodable.exact ih (List.ofFn v) hv
  | tuple hn hc ih => exact putsDefinite_tuple hn (fun i => (hc i).encodable.exact) ih
  | packableTuple version hn hc ih => exact putsDefinite_packableTuple hn version (fun i => (hc i).encodable.exact) ih
  | object hn hkey hids hc ihkey ih =>
    exact putsDefinite_object hn hkey.encodable.exact hids (fun i => (hc i).encodable.exact) ihkey ih

end DeepPack
