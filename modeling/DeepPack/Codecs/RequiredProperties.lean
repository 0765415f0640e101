import DeepPack.Codecs.PropertyLookup
import DeepPack.Codecs.RoundTrip

/-! Objects whose properties are all required.

Their decoder counts: it compares the number of entries with the number of properties and
then decodes one entry after the other. With as many entries as properties and every key
known, the entries cover the properties if no key comes twice, and only then. -/
namespace DeepPack
open Library

variable {σ : Type} [InputStream σ] {ι : Type} {n : Nat} {α : Fin n → Type}

/-- What both kinds of `decode_object_property` do: an id is read and looked up, the member decoded. -/
def decodeEntry (readId : Input σ ι) (lookup : ι → Option Nat) (d : ∀ i, Decoder (α i)) : Parse σ (∀ i, α i) Nat := do
  let id ← Action.onFst readId
  Detail.decodePropByIndex d (lookup id)

/-- Entries are decoded one after the other: their keys, and the members decoded from them. -/
inductive DecodedEntries (readId : Input σ ι) (lookup : ι → Option Nat) (d : ∀ i, Decoder (α i)) :
    List (ι × Nat) → InputBuffer σ × (∀ i, α i) → InputBuffer σ × (∀ i, α i) → Prop where
  | none {s : InputBuffer σ × (∀ i, α i)} : DecodedEntries readId lookup d [] s s
  | more {id : ι} {idx : Nat} {rest : List (ι × Nat)} {s t u v : InputBuffer σ × (∀ i, α i)} :
      Action.onFst readId s = (.ok id, t) → Detail.decodePropByIndex d (lookup id) t = (.ok idx, u) →
      DecodedEntries readId lookup d rest u v → DecodedEntries readId lookup d ((id, idx) :: rest) s v

/-- A head with the right version and so many entries behind it. -/
def DecodedObject (D : ObjectDef ι n) (readId : Input σ ι) (lookup : ι → Option Nat) (d : ∀ i, Decoder (α i))
    (entries : List (ι × Nat)) (s t : InputBuffer σ × (∀ i, α i)) : Prop :=
  ∃ info u, Action.onFst (decodeObjectHead (D.version != nullDefVersion)) s = (.ok info, u) ∧
    ¬ (D.version ≠ nullDefVersion ∧ D.version ≠ info.version) ∧ info.numProperties = entries.length ∧
    DecodedEntries readId lookup d entries u t

/-- Every property is the key of an entry, and its member is decoded from it. -/
def CoveredBy (D : ObjectDef ι n) (entries : List (ι × Nat)) : Prop := ∀ i, (D.ids i, i.val) ∈ entries

/-- An object that is decoded misses none of its properties. -/
def CoversOnSuccess (D : ObjectDef ι n) (readId : Input σ ι) (lookup : ι → Option Nat) (d : ∀ i, Decoder (α i))
    (decode : Parse σ (∀ i, α i) Unit) (s : InputBuffer σ × (∀ i, α i)) : Prop :=
  ∀ t, decode s = (.ok (), t) → ∃ entries, DecodedObject D readId lookup d entries s t ∧ CoveredBy D entries

/-- The input is an object with as many entries as there are properties, all of them known and decoded,
but with a key that comes twice. -/
def RepeatsKey (D : ObjectDef ι n) (readId : Input σ ι) (lookup : ι → Option Nat) (d : ∀ i, Decoder (α i))
    (s : InputBuffer σ × (∀ i, α i)) : Prop :=
  ∃ entries t, DecodedObject D readId lookup d entries s t ∧ entries.length = n ∧ ¬ (entries.map Prod.fst).Nodup

section Entries
variable {D : ObjectDef ι n} {readId : Input σ ι} {lookup : ι → Option Nat} {d : ∀ i, Decoder (α i)}
  {s t t' : InputBuffer σ × (∀ i, α i)} {entries entries' : List (ι × Nat)}

theorem decodePropByIndex_ok {position : Option Nat} {idx : Nat}
    (h : Detail.decodePropByIndex d position s = (.ok idx, t)) : position = some idx ∧ idx < n := by
  cases position with
  | none => cases h
  | some i =>
    by_cases hi : i < n
    · rw [Detail.decodePropByIndex_of_lt d hi] at h
      obtain ⟨_, u, -, hpure⟩ := Action.bind_eq_ok.mp h
      cases hpure
      exact ⟨rfl, hi⟩
    · rw [Detail.decodePropByIndex_of_not_lt d hi] at h
      cases h

theorem DecodedEntries.found (h : DecodedEntries readId lookup d entries s t) :
    ∀ e ∈ entries, lookup e.1 = some e.2 ∧ e.2 < n := by
  induction h with
  | none => exact nofun
  | more _ hdecode _ ih =>
    intro e he
    rcases List.mem_cons.mp he with rfl | he
    · exact decodePropByIndex_ok hdecode
    · exact ih e he

theorem DecodedEntries.unique (h : DecodedEntries readId lookup d entries s t)
    (h' : DecodedEntries readId lookup d entries' s t') (hlen : entries.length = entries'.length) : entries = entries' := by
  induction h generalizing entries' t' with
  | none => exact (List.length_eq_zero_iff.mp hlen.symm).symm
  | more hread hdecode _ ih =>
    cases h' with
    | none => cases hlen
    | more hread' hdecode' hrest' =>
      rw [hread] at hread'
      cases hread'
      rw [hdecode] at hdecode'
      cases hdecode'
      rw [ih hrest' (Nat.succ.inj hlen)]

theorem DecodedObject.unique (h : DecodedObject D readId lookup d entries s t)
    (h' : DecodedObject D readId lookup d entries' s t') : entries = entries' := by
  obtain ⟨info, u, hhead, -, hlen, hentries⟩ := h
  obtain ⟨info', u', hhead', -, hlen', hentries'⟩ := h'
  rw [hhead] at hhead'
  cases hhead'
  exact hentries.unique hentries' (hlen.symm.trans hlen')

/-- The loop over the properties decodes entries. -/
theorem forRange_decodeEntry (k i : Nat) :
    Action.forRange (fun _ => do let _ ← decodeEntry readId lookup d) i k s = (.ok (), t) ↔
      ∃ entries, entries.length = k ∧ DecodedEntries readId lookup d entries s t := by
  induction k generalizing i s with
  | zero =>
    constructor
    · intro h
      cases h
      exact ⟨[], rfl, .none⟩
    · intro h
      obtain ⟨entries, hlen, hentries⟩ := h
      cases List.length_eq_zero_iff.mp hlen
      cases hentries
      rfl
  | succ k ih =>
    rw [Action.forRange, Action.bind_eq_ok]
    constructor
    · intro h
      obtain ⟨_, u, hone, hrest⟩ := h
      obtain ⟨idx, u', hentry, hpure⟩ := Action.bind_eq_ok.mp hone
      cases hpure
      obtain ⟨id, v, hread, hdecode⟩ := Action.bind_eq_ok.mp hentry
      obtain ⟨entries, hlen, hentries⟩ := (ih (i + 1)).mp hrest
      exact ⟨(id, idx) :: entries, congrArg Nat.succ hlen, .more hread hdecode hentries⟩
    · intro h
      obtain ⟨entries, hlen, hentries⟩ := h
      cases hentries with
      | none => cases hlen
      | more hread hdecode hrest =>
        refine ⟨(), _, ?_, (ih (i + 1)).mpr ⟨_, Nat.succ.inj hlen, hrest⟩⟩
        exact (Action.bind_ok _ ((Action.bind_ok _ hread).trans hdecode)).trans rfl

/-- With all properties required, decoding an object is decoding as many entries. -/
theorem decodeObject_ok_iff (hrequired : ∀ i, D.required i) :
    decodeObject D (decodeEntry readId lookup d) s = (.ok (), t) ↔
      ∃ entries, entries.length = n ∧ DecodedObject D readId lookup d entries s t := by
  have hoptional : D.hasOptionalProperties = false := by
    rw [ObjectDef.hasOptionalProperties, List.all_eq_true.mpr fun i _ => hrequired i]
    rfl
  have hproperties : ∀ k u, decodeObjectProperties D (decodeEntry readId lookup d) k u = (.ok (), t) ↔
      n = k ∧ ∃ entries, entries.length = k ∧ DecodedEntries readId lookup d entries u t := by
    intro k u
    rw [decodeObjectProperties, hoptional, if_neg Bool.false_ne_true]
    by_cases hcount : n ≠ k
    · rw [if_pos hcount]
      exact iff_of_false (fun h => by cases h) fun h => hcount h.1
    · rw [if_neg hcount, forRange_decodeEntry]
      exact ⟨fun h => ⟨not_not.mp hcount, h⟩, fun h => h.2⟩
  rw [decodeObject, Action.bind_eq_ok]
  constructor
  · intro h
    obtain ⟨info, u, hhead, hrest⟩ := h
    by_cases hversion : D.version ≠ nullDefVersion ∧ D.version ≠ info.version
    · rw [if_pos hversion] at hrest
      cases hrest
    rw [if_neg hversion, hproperties] at hrest
    obtain ⟨hn, entries, hlen, hentries⟩ := hrest
    exact ⟨entries, hlen.trans hn.symm, info, u, hhead, hversion, hlen.symm, hentries⟩
  · intro h
    obtain ⟨entries, hn, info, u, hhead, hversion, hlen, hentries⟩ := h
    refine ⟨info, u, hhead, ?_⟩
    rw [if_neg hversion, hproperties]
    exact ⟨hn.symm.trans hlen.symm, entries, hlen.symm, hentries⟩

/-! ### Counting -/

/-- `n` keys among `n` ids are all of them exactly if none comes twice. -/
theorem nodup_iff_covers {ids : Fin n → ι} (hids : Function.Injective ids) {keys : List ι} (hlen : keys.length = n)
    (hknown : ∀ k ∈ keys, ∃ i, ids i = k) : keys.Nodup ↔ ∀ i, ids i ∈ keys := by
  have hall : (List.ofFn ids).length = n := List.length_ofFn
  have hnodup : (List.ofFn ids).Nodup := List.nodup_ofFn.mpr hids
  constructor
  · intro h i
    have hsub : keys ⊆ List.ofFn ids := by
      intro k hk
      obtain ⟨i, rfl⟩ := hknown k hk
      exact List.mem_ofFn.mpr ⟨i, rfl⟩
    have hperm := (List.subperm_of_subset h hsub).perm_of_length_le (by rw [hall, hlen])
    exact hperm.symm.subset (List.mem_ofFn.mpr ⟨i, rfl⟩)
  · intro h
    have hsub : List.ofFn ids ⊆ keys := by
      intro k hk
      obtain ⟨i, rfl⟩ := List.mem_ofFn.mp hk
      exact h i
    have hperm := (List.subperm_of_subset hnodup hsub).perm_of_length_le (by rw [hall, hlen])
    exact hperm.nodup_iff.mp hnodup

/-- An id that is found stands where it was found. -/
def FindsIds (D : ObjectDef ι n) (lookup : ι → Option Nat) : Prop :=
  ∀ id idx, lookup id = some idx → (List.ofFn D.ids)[idx]? = some id

theorem FindsIds.eq (hlookup : FindsIds D lookup) {id : ι} {idx : Nat} (h : lookup id = some idx) :
    ∃ i : Fin n, D.ids i = id ∧ i.val = idx := by
  have hget := hlookup id idx h
  obtain ⟨hlt, hval⟩ := List.getElem?_eq_some_iff.mp hget
  rw [List.length_ofFn] at hlt
  rw [List.getElem_ofFn] at hval
  exact ⟨⟨idx, hlt⟩, hval, rfl⟩

theorem coveredBy_iff (hids : Function.Injective D.ids) (hlookup : FindsIds D lookup)
    (h : DecodedEntries readId lookup d entries s t) (hlen : entries.length = n) :
    CoveredBy D entries ↔ (entries.map Prod.fst).Nodup := by
  have hknown : ∀ k ∈ entries.map Prod.fst, ∃ i, D.ids i = k := by
    intro k hk
    obtain ⟨e, he, rfl⟩ := List.mem_map.mp hk
    obtain ⟨i, hi, -⟩ := hlookup.eq (h.found e he).1
    exact ⟨i, hi⟩
  rw [nodup_iff_covers hids (by rw [List.length_map, hlen]) hknown]
  refine forall_congr' fun i => ?_
  constructor
  · exact fun hi => List.mem_map.mpr ⟨_, hi, rfl⟩
  · intro hi
    obtain ⟨e, he, heq⟩ := List.mem_map.mp hi
    obtain ⟨j, hj, hval⟩ := hlookup.eq (h.found e he).1
    obtain rfl : j = i := hids (hj.trans heq)
    rwa [hval, ← heq]

/-- The decoder of an object covers the properties exactly if no key is repeated. -/
theorem coversOnSuccess_iff (hrequired : ∀ i, D.required i) (hids : Function.Injective D.ids)
    (hlookup : FindsIds D lookup) :
    CoversOnSuccess D readId lookup d (decodeObject D (decodeEntry readId lookup d)) s ↔
      ¬ RepeatsKey D readId lookup d s := by
  constructor
  · intro hcovers hrepeats
    obtain ⟨entries, t, hobject, hlen, hdup⟩ := hrepeats
    obtain ⟨entries', hobject', hcovered⟩ := hcovers t ((decodeObject_ok_iff hrequired).mpr ⟨entries, hlen, hobject⟩)
    obtain rfl := hobject.unique hobject'
    obtain ⟨info, u, -, -, -, hentries⟩ := hobject
    exact hdup ((coveredBy_iff hids hlookup hentries hlen).mp hcovered)
  · intro hno t hrun
    obtain ⟨entries, hlen, hobject⟩ := (decodeObject_ok_iff hrequired).mp hrun
    have hnodup : (entries.map Prod.fst).Nodup := by
      by_contra hdup
      exact hno ⟨entries, t, hobject, hlen, hdup⟩
    have hentries := hobject
    obtain ⟨info, u, -, -, -, hentries⟩ := hentries
    exact ⟨entries, hobject, (coveredBy_iff hids hlookup hentries hlen).mpr hnodup⟩

end Entries

/-! ### The two lookups -/

/-- How an unsigned integer id is read. -/
def readUnsignedId {σ : Type} [InputStream σ] (w : Nat) : Input σ (BitVec w) :=
  Action.fresh 0 (parseUnsignedInteger ⟨w, false⟩ (IntType.maxValue ⟨w, false⟩))

theorem propertyIdLookup_found [DecidableEq ι] {lt : ι → ι → Bool} {ids : List ι} {id : ι} {idx : Nat}
    (h : Detail.propertyIdLookup lt ids id = some idx) : ids[idx]? = some id := by
  obtain ⟨position, hposition⟩ : ∃ position, Detail.propertyIdLookup lt ids id =
      if ids[position]? = some id then some position else none := ⟨_, rfl⟩
  rw [hposition] at h
  split at h
  · rename_i hfound
    cases h
    exact hfound
  · cases h

theorem findsIds_propertyIdLookup [DecidableEq ι] (lt : ι → ι → Bool) (D : ObjectDef ι n) :
    FindsIds D (Detail.propertyIdLookup lt (List.ofFn D.ids)) :=
  fun _ _ h => propertyIdLookup_found h

theorem findsIds_unsignedIdLookup {w : Nat} (D : ObjectDef (BitVec w) n) :
    FindsIds D (Detail.unsignedIdLookup (List.ofFn D.ids)) := by
  intro id idx h
  generalize List.ofFn D.ids = ids at h ⊢
  have hk : Detail.indexOfLimit Detail.smallIdLimit ids ≤ ids.length := List.findIdx_le_length
  rw [Detail.unsignedIdLookup] at h
  generalize Detail.indexOfLimit Detail.smallIdLimit ids = k at h hk
  dsimp only at h
  split at h
  · split at h
    · cases h
    · rename_i hne
      cases h
      have htake : (ids.take k).length = k := List.length_take_of_le hk
      have hle : (ids.take k).findIdx (fun e => e == id) ≤ k := List.findIdx_le_length.trans htake.le
      have hlt : (ids.take k).findIdx (fun e => e == id) < (ids.take k).length := by omega
      have hfound := List.findIdx_getElem (w := hlt)
      rw [beq_iff_eq, List.getElem_take] at hfound
      exact List.getElem?_eq_some_iff.mpr ⟨by omega, hfound⟩
  · split at h
    · obtain ⟨idx', hidx, rfl⟩ := Option.map_eq_some_iff.mp h
      have hfound := propertyIdLookup_found hidx
      rw [List.getElem?_drop] at hfound
      rwa [Nat.add_comm]
    · cases h

/-- An object whose properties are all required is decoded without missing one exactly if the input does not
repeat a key. -/
theorem decodeObject_covers_iff {n : Nat} {α : Fin n → Type} (d : ∀ i, Decoder (α i)) {σ : Type} [InputStream σ]
    (s : InputBuffer σ × (∀ i, α i)) :
    (∀ {ι : Type} [DecidableEq ι] (lt : ι → ι → Bool) (D : ObjectDef ι n) (key : Decoder ι), (∀ i, D.required i) →
      Function.Injective D.ids →
      (CoversOnSuccess D (key.asValue σ) (Detail.propertyIdLookup lt (List.ofFn D.ids)) d
          ((objectDecoder lt D key d).decode σ) s ↔
        ¬ RepeatsKey D (key.asValue σ) (Detail.propertyIdLookup lt (List.ofFn D.ids)) d s)) ∧
    (∀ {w : Nat} (D : ObjectDef (BitVec w) n), (∀ i, D.required i) → Function.Injective D.ids →
      (CoversOnSuccess D (readUnsignedId w) (Detail.unsignedIdLookup (List.ofFn D.ids)) d
          ((unsignedObjectDecoder D d).decode σ) s ↔
        ¬ RepeatsKey D (readUnsignedId w) (Detail.unsignedIdLookup (List.ofFn D.ids)) d s)) :=
  ⟨fun lt D _ hrequired hids => coversOnSuccess_iff hrequired hids (findsIds_propertyIdLookup lt D),
    fun D hrequired hids => coversOnSuccess_iff hrequired hids (findsIds_unsignedIdLookup D)⟩

/-! ### Two booleans under the ids 1 and 2 -/

def boolPair : ObjectDef (BitVec 8) 2 where
  version := nullDefVersion
  ids i := if i = 0 then 1 else 2
  required _ := true

theorem boolPair_ids : Function.Injective boolPair.ids := by
  have hall : ∀ i j : Fin 2, boolPair.ids i = boolPair.ids j → i = j := by decide
  exact fun i j => hall i j

/-- How their ids are written and found. -/
theorem boolPair_key : ∀ i : Fin 2, Detail.varUintHead .posint (i.val + 1) = [initialByte 0 (i.val + 1)] ∧
    BitVec.ofNat 8 (i.val + 1) = boolPair.ids i ∧
      Detail.unsignedIdLookup (List.ofFn boolPair.ids) (boolPair.ids i) = some i.val := by decide

/-- An entry for one of them. -/
theorem decodedEntry_boolPair (i : Fin 2) (value : Bool) (u : Fin 2 → Bool) {entries : List (BitVec 8 × Nat)}
    (rest : List UInt8) (hlen : rest.length + 2 < wordLimit) {t : InputBuffer MemoryInputStream × (Fin 2 → Bool)}
    (h : DecodedEntries (readUnsignedId 8) (Detail.unsignedIdLookup (List.ofFn boolPair.ids)) (fun _ => boolDecoder)
      entries (memoryInput rest, Function.update u i value) t) :
    DecodedEntries (readUnsignedId 8) (Detail.unsignedIdLookup (List.ofFn boolPair.ids)) (fun _ => boolDecoder)
      ((boolPair.ids i, i.val) :: entries)
      (memoryInput (initialByte 0 (i.val + 1) :: initialByte 7 (20 + value.toNat) :: rest), u) t := by
  obtain ⟨hhead, hid, hlookup⟩ := boolPair_key i
  have hkey : ParseTakes (parseUnsignedInteger ⟨8, false⟩ 255) (Detail.varUintHead .posint (i.val + 1)) () 0#8
      (BitVec.ofNat 8 (i.val + 1)) := takes_parseUnsignedInteger (by omega) (by omega) 0
  rw [hhead, hid] at hkey
  have hread : readUnsignedId 8
      (memoryInput ([initialByte 0 (i.val + 1)] ++ (initialByte 7 (20 + value.toNat) :: rest))) =
        (.ok (boolPair.ids i), memoryInput (initialByte 7 (20 + value.toNat) :: rest)) :=
    Action.fresh_ok (hkey _ (Nat.zero_le _) hlen)
  have hvalue := takes_parseBoolean (u i) value rest (Nat.zero_le _) (Nat.lt_of_succ_lt hlen)
  refine .more (Action.onFst_ok hread u) ?_ h
  rw [hlookup, Detail.decodePropByIndex_of_lt _ i.isLt]
  exact Action.bind_ok _ (Action.within_ok hvalue)

/-- Two entries behind the head of an object that has no version. -/
theorem decodedObject_boolPair (i j : Fin 2) (value value' : Bool) (u : Fin 2 → Bool) :
    ∃ t, DecodedObject boolPair (readUnsignedId 8) (Detail.unsignedIdLookup (List.ofFn boolPair.ids))
      (fun _ => boolDecoder) [(boolPair.ids i, i.val), (boolPair.ids j, j.val)]
      (memoryInput (0xa2 :: initialByte 0 (i.val + 1) :: initialByte 7 (20 + value.toNat) ::
        initialByte 0 (j.val + 1) :: [initialByte 7 (20 + value'.toNat)]), u) t := by
  have hhead : InputTakesAhead (2 * 2) (decodeObjectHead (nullDefVersion != nullDefVersion))
      (objectPrefix 2 nullDefVersion) ⟨2, nullDefVersion⟩ := takes_decodeObjectHead (by decide)
  have hstart : objectPrefix 2 nullDefVersion = [0xa2] := by decide +kernel
  rw [hstart] at hhead
  have hlimit : 5 < wordLimit := by decide
  have hdecoded := hhead (initialByte 0 (i.val + 1) :: initialByte 7 (20 + value.toNat) ::
    initialByte 0 (j.val + 1) :: [initialByte 7 (20 + value'.toNat)]) (Nat.le_refl 4) hlimit
  have hsecond := decodedEntry_boolPair j value' (Function.update u i value) [] (by decide) .none
  have hfirst := decodedEntry_boolPair i value u (initialByte 0 (j.val + 1) :: [initialByte 7 (20 + value'.toNat)])
    (Nat.lt_of_succ_lt hlimit) hsecond
  exact ⟨_, ⟨2, nullDefVersion⟩, _, Action.onFst_ok hdecoded _, by decide, rfl, hfirst⟩

theorem repeatsKey_boolPair :
    RepeatsKey boolPair (readUnsignedId 8) (Detail.unsignedIdLookup (List.ofFn boolPair.ids)) (fun _ => boolDecoder)
      (memoryInput [0xa2, 0x01, 0xf5, 0x01, 0xf5], fun _ : Fin 2 => false) := by
  obtain ⟨t, ht⟩ := decodedObject_boolPair 0 0 true true fun _ => false
  exact ⟨_, t, ht, rfl, by decide⟩

/-- The first of them twice and the second not at all: it is decoded. -/
theorem boolPair_notCovered :
    ¬ CoversOnSuccess boolPair (readUnsignedId 8) (Detail.unsignedIdLookup (List.ofFn boolPair.ids)) (fun _ => boolDecoder)
      ((unsignedObjectDecoder boolPair fun _ => boolDecoder).decode MemoryInputStream)
      (memoryInput [0xa2, 0x01, 0xf5, 0x01, 0xf5], fun _ : Fin 2 => false) :=
  fun h => (coversOnSuccess_iff (fun _ => rfl) boolPair_ids (findsIds_unsignedIdLookup boolPair)).mp h repeatsKey_boolPair

/-- Both of them, the second in front: neither key is repeated. -/
theorem decodeObject_covers_boolPair :
    CoversOnSuccess boolPair (readUnsignedId 8) (Detail.unsignedIdLookup (List.ofFn boolPair.ids)) (fun _ => boolDecoder)
      ((unsignedObjectDecoder boolPair fun _ => boolDecoder).decode MemoryInputStream)
      (memoryInput [0xa2, 0x02, 0xf4, 0x01, 0xf5], fun _ : Fin 2 => false) := by
  refine ((decodeObject_covers_iff (fun _ => boolDecoder) _).2 boolPair (fun _ => rfl) boolPair_ids).mpr fun hrepeats => ?_
  obtain ⟨entries, t, hobject, -, hdup⟩ := hrepeats
  obtain ⟨u, hu⟩ := decodedObject_boolPair 1 0 false true fun _ => false
  rw [hobject.unique hu] at hdup
  exact hdup (by decide)

end DeepPack
