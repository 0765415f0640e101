import DeepPack.Items.Definite
import DeepPack.Codecs.Decodable
import DeepPack.Codecs.DefiniteEncodable
import DeepPack.Codecs.RequiredProperties

/-! Input that was cut short.

No decoder accepts the beginning of an item of definite length: each one takes such an
item whole if the decoders it is built from do. -/
namespace DeepPack
open Library

/-- Whole items of definite length are all the decoder takes, where one starts the input. -/
def Decoder.TakesWhole {α : Type} (d : Decoder α) : Prop :=
  ∀ u, Definite u → ParseWhole [] Any (d.decode MemoryInputStream) u

variable {α κ ν ι δ : Type} {behind u : List UInt8}

theorem Decoder.TakesWhole.asValue {d : Decoder α} (h : d.TakesWhole) (hu : Definite u) :
    InputWhole behind Any (d.asValue MemoryInputStream) u :=
  (Action.TakesWhole.fresh (h u hu)).alone

/-! ### Leaves -/

/-- An outcome that is looked at, where the caller fails if there was a failure. -/
theorem whole_attempt {γ : Type} {P : α → Prop} {Q : γ → Prop} {x : Parse MemoryInputStream δ α}
    {f : Except Errc α → Parse MemoryInputStream δ γ} (hx : ParseWhole behind P x u)
    (hok : ∀ a, P a → ParseWhole behind Q (f (.ok a)) []) (herr : ∀ e s, ∃ e' t, f (.error e) s = (.error (.errc e'), t)) :
    ParseWhole behind Q (attempt x >>= f) u := by
  intro s b hs hb
  rcases hx s b hs hb with ⟨a, t, -, ht, -⟩ | ⟨_, t, ht, e, rfl⟩
  · have hattempt : attempt x s = (.ok (.ok a), t) := by rw [attempt, ht]
    have heq : (attempt x >>= f) s = (x >>= fun a => f (.ok a)) s := by
      rw [Action.bind_ok f hattempt, Action.bind_ok _ ht]
    rw [heq]
    exact hx.after hok s b hs hb
  · have hattempt : attempt x s = (.ok (.error e), t) := by rw [attempt, ht]
    obtain ⟨e', t', ht'⟩ := herr e t
    exact .inr ⟨_, t', (Action.bind_ok f hattempt).trans ht', e', rfl⟩

theorem takesWhole_fixedU8string (capacity : Nat) : (fixedU8stringDecoder capacity).TakesWhole := by
  intro u hu
  refine (whole_modify _).before fun _ _ => ?_
  refine (whole_parseBlob (m := 3) (.inr rfl) _ false _ hu).within.after fun _ _ => ?_
  exact whole_modify _

theorem Leaf.takesWhole {d : Decoder α} (h : Leaf d) : d.TakesWhole := by
  cases h with
  | bool => exact fun _ hu => whole_parseBoolean hu
  | integer => exact fun _ hu => whole_parseInteger _ hu
  | float => exact fun _ hu => whole_parseFloatingPoint .single hu
  | double => exact fun _ hu => whole_parseFloatingPoint .double hu
  | fixedU8string capacity => exact takesWhole_fixedU8string capacity

theorem takesWhole_string : stringDecoder.TakesWhole := fun _ hu =>
  (whole_parseBlob (m := 3) (.inr rfl) _ true _ hu).after fun _ _ => Action.whole_pure trivial

theorem takesWhole_blob : blobDecoder.TakesWhole := fun _ hu =>
  whole_attempt (whole_parseBlob (m := 2) (.inl rfl) _ true _ hu) (fun _ _ => Action.whole_pure trivial)
    fun e _ => ⟨e, _, rfl⟩

theorem takesWhole_byteArray (n : Nat) : (byteArrayDecoder n).TakesWhole := by
  refine fun _ hu => Action.TakesWhole.within (whole_attempt (whole_parseBlob (m := 2) (.inl rfl) _ true _ hu)
    (fun size _ => ?_) fun e _ => ⟨e, _, rfl⟩)
  have hlength : ParseWhole [] Any (Action.onSnd (Action.gets List.length) : Parse MemoryInputStream (List UInt8) Nat) [] :=
    Action.whole_onSnd fun _ => .inl ⟨_, _, rfl, trivial⟩
  refine hlength.before fun _ _ => .ite (fun _ => ?_) fun _ => Action.whole_pure trivial
  exact (whole_modify _).before fun _ _ => whole_err _

theorem StringLeaf.takesWhole {d : Decoder α} (h : StringLeaf d) : d.TakesWhole := by
  cases h with
  | leaf h => exact h.takesWhole
  | string => exact takesWhole_string
  | blob => exact takesWhole_blob
  | byteArray n => exact takesWhole_byteArray n

/-! ### Containers -/

theorem whole_decodeElement {d : Decoder α} (h : d.TakesWhole) (hu : Definite u) :
    ParseWhole [] Any (Detail.decodeElement d) u :=
  (whole_modify _).before fun _ _ => .within (h u hu)

theorem whole_emplaceOrClear (lt : α → α → Bool) (v : α) :
    ParseWhole behind Any (Action.onSnd (Detail.emplaceOrClear lt v)) [] := by
  refine Action.whole_onSnd fun vs => ?_
  unfold Detail.emplaceOrClear
  cases Detail.emplace lt v vs with
  | some vs' => exact .inl ⟨(), vs', rfl, trivial⟩
  | none => exact .inr ⟨_, [], rfl, _, rfl⟩

theorem whole_decodeKey (lt : κ → κ → Bool) {k : Decoder κ} (h : k.TakesWhole) (hu : Definite u) :
    ParseWhole [] Any (Detail.decodeKey lt k) u :=
  (h.asValue hu).onFst.after fun _ _ => whole_emplaceOrClear _ _

theorem whole_decodePair (lt : κ → κ → Bool) {k : Decoder κ} {d : Decoder ν} (hk : k.TakesWhole) (hd : d.TakesWhole)
    (hu : DefinitePair u) : ParseWhole [] Any (Detail.decodePair lt k d) u := by
  obtain ⟨p, q, rfl, hp, hq⟩ := hu
  exact (hk.asValue hp).onFst.bind fun _ _ => (hd.asValue hq).onFst.after fun _ _ => whole_emplaceOrClear _ _

theorem whole_decodeAt {n i : Nat} {d : Decoder α} (h : d.TakesWhole) (hi : i < n) (hu : Definite u) :
    ParseWhole [] Any (Detail.decodeAt (n := n) d i) u := by
  unfold Detail.decodeAt
  rw [dif_pos hi]
  exact .within (h u hu)

theorem takesWhole_vector {d : Decoder α} (h : d.TakesWhole) : (vectorDecoder d).TakesWhole := fun _ hu =>
  (whole_assign _).before fun _ _ =>
    (whole_parseArrayLike (m := 4) (.inl rfl) (fun _ _ => Behind.array) (fun _ _ _ => whole_decodeElement h) hu).after
      fun _ _ => Action.whole_pure trivial

theorem takesWhole_set (lt : κ → κ → Bool) {k : Decoder κ} (h : k.TakesWhole) : (setDecoder lt k).TakesWhole :=
  fun _ hu => (whole_assign _).before fun _ _ =>
    (whole_parseArrayLike (m := 4) (.inl rfl) (fun _ _ => Behind.array) (fun _ _ _ => whole_decodeKey lt h) hu).after
      fun _ _ => Action.whole_pure trivial

theorem takesWhole_map (lt : κ → κ → Bool) {k : Decoder κ} {d : Decoder ν} (hk : k.TakesWhole) (hd : d.TakesWhole) :
    (mapDecoder lt k d).TakesWhole := fun _ hu =>
  (whole_assign _).before fun _ _ =>
    (whole_parseArrayLike (m := 5) (.inr rfl) (fun _ _ => Behind.map) (fun _ _ _ => whole_decodePair lt hk hd) hu).after
      fun _ _ => Action.whole_pure trivial

theorem takesWhole_array (n : Nat) {d : Decoder α} (h : d.TakesWhole) : (arrayDecoder n d).TakesWhole := fun _ hu =>
  (whole_parseArrayLike (m := 4) (.inl rfl) (fun _ _ => Behind.array) (fun _ _ hi => whole_decodeAt h hi) hu).after
    fun _ _ => .ite (fun _ => whole_err _) fun _ => Action.whole_pure trivial

/-! ### Tuples -/

section Members
variable {n : Nat} {β : Fin n → Type} {d : ∀ i, Decoder (β i)}

theorem whole_members (h : ∀ i, (d i).TakesWhole) (hu : Repeated Definite n u) :
    ParseWhole behind Any (mpForDots fun i => onMember i ((d i).decode MemoryInputStream)) u := by
  have hmember : ∀ i w, Definite w → ParseWhole [] Any (onMember i ((d i).decode MemoryInputStream)) w :=
    fun i w hw => .within (h i w hw)
  exact Action.whole_forList hmember _ (by rwa [List.length_finRange])

theorem whole_parseVersion (hu : Definite u) :
    InputWhole behind Any (parseVersion : Input MemoryInputStream (BitVec 32)) u :=
  (whole_parseUnsignedInteger versionType _ hu).fresh

/-- A head is taken before the items behind it. -/
theorem whole_expectArrayHead (hu : Definite u) :
    ∃ p q, u = p ++ q ∧ InputWhole q (fun _ => Repeated Definite n q) (expectItemHead .array n) p := by
  obtain ⟨m, info, v, head, r, rfl, hm, hhead, hgood, hr⟩ := hu.cases
  refine ⟨head, r, rfl, (whole_parseItemHead hm hhead hgood).after fun h hh => ?_⟩
  subst hh
  refine .ite (fun _ => whole_err _) fun htype => whole_definite (.ite (fun _ => whole_err _) fun hvalue => ?_)
  obtain rfl := (TypeCode.ofMajor_inj (n := 4) hm (by decide)).mp (not_not.mp htype)
  obtain rfl := not_not.mp hvalue
  exact Action.whole_pure hr.array

theorem takesWhole_tuple (h : ∀ i, (d i).TakesWhole) : (tupleDecoder d).TakesWhole := by
  intro u hu
  obtain ⟨p, q, rfl, hexpect⟩ := whole_expectArrayHead (n := n) hu
  exact hexpect.further.onFst.bind fun _ hq => whole_members h hq

/-- The head of a tuple, its version included, is taken before the members. -/
theorem whole_decodeTupleHead (isVersioned : Bool) (hu : Definite u) :
    ∃ p q, u = p ++ q ∧
      InputWhole q (fun info => Repeated Definite info.numProperties q) (decodeTupleHead isVersioned) p := by
  obtain ⟨m, info, v, head, r, rfl, hm, hhead, hgood, hr⟩ := hu.cases
  have hparse : ∀ q, InputWhole q (fun h => h = ⟨.ofMajor m, 0, head.length, v⟩) parseItemHead head := fun q =>
    whole_parseItemHead hm hhead hgood
  by_cases hversion : m = 4 ∧ isVersioned = true ∧ v ≠ 0
  · obtain ⟨rfl, rfl, hv⟩ := hversion
    obtain ⟨k, rfl⟩ := Nat.exists_eq_succ_of_ne_zero hv
    obtain ⟨version, q, rfl, hversion, hq⟩ := hr.array.uncons
    refine ⟨head ++ version, q, (List.append_assoc _ _ _).symm, (hparse _).bind fun h hh => ?_⟩
    subst hh
    refine .ite (fun _ => whole_err _) fun _ => whole_inputSizeNow.before fun _ _ => ?_
    refine .ite (fun _ => whole_err _) fun _ => .ite (fun _ => whole_err _) fun _ => .ite (fun _ => ?_) fun hno => ?_
    · refine .ite (fun _ => whole_err _) fun _ => (whole_parseVersion hversion).after fun _ _ => ?_
      exact Action.whole_pure hq
    · exact absurd rfl hno
  · refine ⟨head, r, rfl, (hparse _).after fun h hh => ?_⟩
    subst hh
    refine .ite (fun _ => whole_err _) fun htype => whole_inputSizeNow.before fun _ _ => ?_
    rw [not_or, not_not] at htype
    obtain rfl := (TypeCode.ofMajor_inj (n := 4) hm (by decide)).mp htype.1
    refine .ite (fun _ => whole_err _) fun _ => .ite (fun _ => whole_err _) fun _ => .ite (fun hyes => ?_) fun _ => ?_
    · refine .ite (fun _ => whole_err _) fun hpos => absurd ⟨rfl, hyes, ?_⟩ hversion
      exact Nat.one_le_iff_ne_zero.mp (Nat.not_lt.mp hpos)
    · exact Action.whole_pure hr.array

theorem takesWhole_packableTuple (version : BitVec 32) (h : ∀ i, (d i).TakesWhole) :
    (packableTupleDecoder version d).TakesWhole := by
  intro u hu
  obtain ⟨p, q, rfl, hhead⟩ := whole_decodeTupleHead (version != nullDefVersion) hu
  refine hhead.further.onFst.bind fun info hq => .ite (fun _ => whole_err _) fun _ => ?_
  refine .ite (fun _ => whole_err _) fun hn => whole_members h ?_
  rwa [← not_not.mp hn]

/-! ### Objects -/

/-- The first entry of a map, if its key is the version's. -/
theorem repeated_versionKey {v : Nat} {r : List UInt8} (hr : Repeated DefinitePair v (0 :: r)) :
    ∃ k version q, v = k + 1 ∧ r = version ++ q ∧ Definite version ∧ Repeated DefinitePair k q := by
  obtain _ | k := v
  · cases hr.eq_nil
  · obtain ⟨_, q, heq, ⟨key, version, rfl, hkey, hversion⟩, hq⟩ := hr.uncons
    obtain ⟨c, key, rfl⟩ := List.exists_cons_of_length_pos hkey.length_pos
    obtain ⟨rfl, rfl⟩ := List.cons.inj heq
    have hempty : key = [] := Definite.eq_inline (m := 0) (v := 0) (.inl rfl) (by decide) hkey
    exact ⟨k, version, q, rfl, by rw [hempty]; rfl, hversion, hq⟩

/-- The head of an object, its version included, is taken before the properties. -/
theorem whole_decodeObjectHead (isVersioned : Bool) (hu : Definite u) :
    ∃ p q, u = p ++ q ∧
      InputWhole q (fun info => Repeated DefinitePair info.numProperties q) (decodeObjectHead isVersioned) p := by
  obtain ⟨m, info, v, head, r, rfl, hm, hhead, hgood, hr⟩ := hu.cases
  have hparse : ∀ q, InputWhole q (fun h => h = ⟨.ofMajor m, 0, head.length, v⟩) parseItemHead head := fun q =>
    whole_parseItemHead hm hhead hgood
  by_cases hversion : m = 5 ∧ isVersioned = true ∧ ∃ r', r = 0 :: r'
  · obtain ⟨rfl, rfl, r, rfl⟩ := hversion
    obtain ⟨k, version, q, rfl, rfl, hversion, hq⟩ := repeated_versionKey hr.map
    refine ⟨head ++ 0 :: version, q, (List.append_assoc head (0 :: version) q).symm, (hparse _).bind fun h hh => ?_⟩
    subst hh
    refine .ite (fun _ => whole_err _) fun _ => .ite (fun hzero => absurd hzero (Nat.succ_ne_zero k)) fun _ => ?_
    refine whole_inputSizeNow.before fun _ _ => .ite (fun _ => whole_err _) fun _ => .ite (fun _ => whole_err _) fun _ => ?_
    refine .ite (fun _ => whole_takeByte ?_) fun hno => absurd rfl hno
    exact (whole_parseVersion hversion).after fun _ _ => Action.whole_pure hq
  · refine ⟨head, r, rfl, (hparse _).after fun h hh => ?_⟩
    subst hh
    refine .ite (fun _ => whole_err _) fun htype => ?_
    rw [not_or, not_not] at htype
    obtain rfl := (TypeCode.ofMajor_inj (n := 5) hm (by decide)).mp htype.1
    refine .ite (fun hzero => Action.whole_pure ?_) fun hne => ?_
    · obtain rfl : v = 0 := hzero
      exact hr.map
    refine whole_inputSizeNow.before fun _ _ => .ite (fun _ => whole_err _) fun _ => .ite (fun _ => whole_err _) fun _ => ?_
    refine .ite (fun hyes => ?_) fun _ => Action.whole_pure hr.map
    obtain ⟨c, r, rfl⟩ : ∃ c r', r = c :: r' := by
      obtain ⟨k, rfl⟩ := Nat.exists_eq_succ_of_ne_zero hne
      obtain ⟨_, q, rfl, ⟨key, value, rfl, hkey, -⟩, -⟩ := hr.map.uncons
      obtain ⟨c, key, rfl⟩ := List.exists_cons_of_length_pos hkey.length_pos
      exact ⟨c, _, rfl⟩
    refine whole_peekByte.before fun next hnext => .ite (fun _ => Action.whole_pure hr.map) fun hnot => ?_
    exact absurd ⟨rfl, hyes, r, by rw [← hnext, not_not.mp hnot]⟩ hversion

section Properties
variable {property : Parse MemoryInputStream (∀ i, β i) Nat} (D : ObjectDef ι n)

theorem whole_decodeFoundProperties (h : ∀ w, DefinitePair w → ParseWhole [] Any property w) (k : Nat)
    (found : List (BitVec 64)) (hu : Repeated DefinitePair k u) :
    ParseWhole behind Any (decodeFoundProperties property k found) u := by
  induction k generalizing found u with
  | zero =>
    rw [hu.eq_nil]
    exact Action.whole_pure trivial
  | succ k ih =>
    obtain ⟨p, q, rfl, hp, hq⟩ := hu.uncons
    exact (h p hp).alone.bind fun _ _ => ih _ hq

theorem whole_decodeObject (h : ∀ w, DefinitePair w → ParseWhole [] Any property w) (hu : Definite u) :
    ParseWhole [] Any (decodeObject D property) u := by
  obtain ⟨p, q, rfl, hhead⟩ := whole_decodeObjectHead (D.version != nullDefVersion) hu
  refine hhead.further.onFst.bind fun info hq => .ite (fun _ => whole_err _) fun _ => .ite (fun _ => ?_) fun _ => ?_
  · refine (whole_decodeFoundProperties h _ _ hq).after fun _ _ => .ite (fun _ => whole_err _) fun _ => ?_
    exact Action.whole_pure trivial
  · refine .ite (fun _ => whole_err _) fun _ => Action.whole_forRange (fun _ w _ hw => ?_) hq
    exact (h w hw).after fun _ _ => Action.whole_pure trivial

/-- A property is a key that is found and the member it is found for. -/
theorem whole_decodeEntry {readId : Input MemoryInputStream ι} {lookup : ι → Option Nat}
    (hread : ∀ w, Definite w → InputWhole [] Any readId w) (hlookup : FindsIds D lookup) (h : ∀ i, (d i).TakesWhole)
    (hu : DefinitePair u) : ParseWhole [] Any (decodeEntry readId lookup d) u := by
  obtain ⟨p, q, rfl, hp, hq⟩ := hu
  refine (hread p hp).alone.onFst.bind fun id _ => ?_
  cases hposition : lookup id with
  | none => exact whole_err _
  | some idx =>
    obtain ⟨i, -, rfl⟩ := hlookup.eq hposition
    rw [Detail.decodePropByIndex_of_lt d i.isLt]
    exact (h i q hq).within.after fun _ _ => Action.whole_pure trivial

end Properties

theorem takesWhole_object [DecidableEq ι] (lt : ι → ι → Bool) (D : ObjectDef ι n) {key : Decoder ι}
    (hkey : key.TakesWhole) (h : ∀ i, (d i).TakesWhole) : (objectDecoder lt D key d).TakesWhole := fun _ hu =>
  whole_decodeObject D (fun _ => whole_decodeEntry D (fun _ => hkey.asValue) (findsIds_propertyIdLookup lt D) h) hu

theorem takesWhole_unsignedObject {w : Nat} (D : ObjectDef (BitVec w) n) (h : ∀ i, (d i).TakesWhole) :
    (unsignedObjectDecoder D d).TakesWhole := by
  have hread : ∀ p, Definite p → InputWhole [] Any (readUnsignedId (σ := MemoryInputStream) w) p := fun p hp =>
    (whole_parseUnsignedInteger ⟨w, false⟩ (IntType.maxValue ⟨w, false⟩) hp).fresh
  exact fun _ hu => whole_decodeObject D (fun _ => whole_decodeEntry D hread (findsIds_unsignedIdLookup D) h) hu

end Members

theorem Decodable.takesWhole {leaf : ∀ {α : Type}, Decoder α → Prop}
    (hleaf : ∀ {α : Type} {d : Decoder α}, leaf d → d.TakesWhole) {d : Decoder α} (h : Decodable leaf d) :
    d.TakesWhole := by
  induction h with
  | leaf h => exact hleaf h
  | vector _ ih => exact takesWhole_vector ih
  | set lt _ ih => exact takesWhole_set lt ih
  | map lt _ _ ihk ihd => exact takesWhole_map lt ihk ihd
  | array n _ ih => exact takesWhole_array n ih
  | tuple _ ih => exact takesWhole_tuple ih
  | packableTuple version _ ih => exact takesWhole_packableTuple version ih
  | object lt D _ _ ihkey ih => exact takesWhole_object lt D ihkey ih
  | unsignedObject D _ ih => exact takesWhole_unsignedObject D ih

/-! ### The beginning of an encoding -/

/-- Input that was cut short is not accepted, and not read past its end: decoding a strict prefix of an
encoding returns an error, with any decoder of the type and into any destination. -/
theorem decode_truncated {c : Encoder α} {d : Decoder α} (h : DefiniteEncodable c) (h' : Decodable StringLeaf d)
    (v : c.Value) (p : ByteSpan) (hp : p.bytes <+: c.bytes v.1) (hne : p.bytes ≠ c.bytes v.1) (w : α) :
    ∃ e t, d.decode MemoryInputStream (memoryInput p.bytes, w) = (.error (.errc e), t) := by
  have hwhole := h'.takesWhole StringLeaf.takesWhole _ (h.putsDefinite v.1 v.2)
  obtain ⟨_, t, ht, e, rfl⟩ := hwhole.fails (s := (memoryInput p.bytes, w)) ⟨rfl, p.fits⟩ hp hne
  exact ⟨e, t, ht⟩

theorem decode_truncated_map :
    ∃ e t, (mapDecoder (fun _ _ => false) stringDecoder (vectorDecoder boolDecoder)).decode MemoryInputStream
      (memoryInput [0xa1, 0x61, 0x61, 0x82, 0xf5], []) = (.error (.errc e), t) := by
  have h : DefiniteEncodable (mapEncoder 64 stringEncoder (rangeEncoder 64 boolEncoder)) :=
    .map (.inr rfl) .string (.range (.inr rfl) .bool)
  have h' : Decodable StringLeaf (mapDecoder (fun _ _ => false) stringDecoder (vectorDecoder boolDecoder)) :=
    .map _ (.leaf .string) (.vector (.leaf (.leaf .bool)))
  have hv : (mapEncoder 64 stringEncoder (rangeEncoder 64 boolEncoder)).IsValue [([0x61], [true, false])] := by
    refine ⟨by decide, fun v hv => ?_⟩
    obtain rfl := List.mem_singleton.mp hv
    exact ⟨show 1 < wordLimit by decide, by decide, fun _ _ => trivial⟩
  have hbytes : (mapEncoder 64 stringEncoder (rangeEncoder 64 boolEncoder)).bytes [([0x61], [true, false])] =
      [0xa1, 0x61, 0x61, 0x82, 0xf5, 0xf4] := by decide
  exact decode_truncated h h' ⟨_, hv⟩ ⟨[0xa1, 0x61, 0x61, 0x82, 0xf5], by decide⟩ (by rw [hbytes]; decide)
    (by rw [hbytes]; decide) []

end DeepPack
