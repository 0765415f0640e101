import DeepPack.Codecs.Decodable
import DeepPack.Items.Accepting

/-! Decoders accept only well-formed items.

Each decoder takes one item of the grammar if the decoders it is built from do. So
what was decoded can also be skipped, which ends behind the same byte. -/
namespace DeepPack
open Library

/-- On a memory stream the decoder takes nothing but items. -/
def Decoder.TakesItems {α : Type} (d : Decoder α) : Prop := ParseAccepts OneItem (d.decode MemoryInputStream)

variable {α κ ν ι : Type}

theorem Decoder.TakesItems.asValue {d : Decoder α} (h : d.TakesItems) :
    InputAccepts OneItem (d.asValue MemoryInputStream) :=
  Action.Accepts.fresh h

/-! ### Leaves -/

theorem takesItems_fixedU8string (capacity : Nat) : (fixedU8stringDecoder capacity).TakesItems := by
  refine Action.Accepts.before (Action.accepts_onSnd fun _ => rfl) fun _ => ?_
  exact (accepts_parseBlob (m := 3) (.inr rfl) _ _).within.after fun _ => Action.accepts_onSnd fun _ => rfl

theorem Leaf.takesItems {d : Decoder α} (h : Leaf d) : d.TakesItems := by
  cases h with
  | bool => exact accepts_parseBoolean
  | integer => exact accepts_parseInteger _
  | float => exact accepts_parseFloatingPoint .single
  | double => exact accepts_parseFloatingPoint .double
  | fixedU8string capacity => exact takesItems_fixedU8string capacity

/-! ### Containers -/

theorem accepts_decodeElement {d : Decoder α} (h : d.TakesItems) : ParseAccepts OneItem (Detail.decodeElement d) :=
  .before (Action.accepts_onSnd fun _ => rfl) fun _ => .within h

theorem accepts_decodeKey (lt : κ → κ → Bool) {k : Decoder κ} (h : k.TakesItems) :
    ParseAccepts OneItem (Detail.decodeKey lt k) :=
  h.asValue.onFst.after fun _ => Action.accepts_onSnd fun _ => rfl

theorem accepts_decodePair (lt : κ → κ → Bool) {k : Decoder κ} {d : Decoder ν} (hk : k.TakesItems)
    (hd : d.TakesItems) : ParseAccepts (fun _ => IsPair) (Detail.decodePair lt k d) := by
  refine hk.asValue.onFst.bind fun _ p hp => hd.asValue.onFst.bind fun _ q hq => Action.accepts_onSnd fun _ => ?_
  exact ⟨p, q, by rw [List.append_nil], hp, hq⟩

theorem accepts_decodeAt {n : Nat} {d : Decoder α} (h : d.TakesItems) (i : Nat) :
    ParseAccepts OneItem (Detail.decodeAt (n := n) d i) := by
  unfold Detail.decodeAt
  split
  · exact .within h
  · exact Action.accepts_fail _

theorem takesItems_vector {d : Decoder α} (h : d.TakesItems) : (vectorDecoder d).TakesItems :=
  .before (accepts_assign _ rfl) fun _ =>
    (accepts_parseArray (fun _ => accepts_decodeElement h) _).after fun _ => Action.accepts_pure rfl

theorem takesItems_set (lt : κ → κ → Bool) {k : Decoder κ} (h : k.TakesItems) : (setDecoder lt k).TakesItems :=
  .before (accepts_assign _ rfl) fun _ =>
    (accepts_parseArray (fun _ => accepts_decodeKey lt h) _).after fun _ => Action.accepts_pure rfl

theorem takesItems_map (lt : κ → κ → Bool) {k : Decoder κ} {d : Decoder ν} (hk : k.TakesItems)
    (hd : d.TakesItems) : (mapDecoder lt k d).TakesItems :=
  .before (accepts_assign _ rfl) fun _ =>
    (accepts_parseMap (fun _ => accepts_decodePair lt hk hd) _).after fun _ => Action.accepts_pure rfl

theorem takesItems_array (n : Nat) {d : Decoder α} (h : d.TakesItems) : (arrayDecoder n d).TakesItems :=
  (accepts_parseArray (accepts_decodeAt h) _).after fun _ => .ite (fun _ => accepts_err _) fun _ =>
    Action.accepts_pure rfl

/-! ### Tuples and objects -/

/-- The head of a container, and so many of its parts that as many as `info` says are still to come. -/
def Opens (m : Nat) (E : List UInt8 → Prop) (info : HeadInfo) (p : List UInt8) : Prop :=
  ∃ i v k head q, p = head ++ q ∧ Head m i v head ∧ Repeated E k q ∧ v = k + info.numProperties

section Opens
variable {E : List UInt8 → Prop} {info : HeadInfo} {m i v k : Nat} {p q head : List UInt8}

theorem opens (hhead : Head m i v head) (hq : Repeated E k q) (hv : v = k + info.numProperties) :
    Opens m E info (head ++ q) :=
  ⟨i, v, k, head, q, rfl, hhead, hq, hv⟩

/-- Nothing but the head was taken. -/
theorem opens_head (hhead : Head m i info.numProperties head) : Opens m E info head := by
  have h : Opens m E info (head ++ []) := opens hhead .none (Nat.zero_add _).symm
  rwa [List.append_nil] at h

theorem wellFormed_of_opened (h : Opens m E info p) (hq : Repeated E info.numProperties q) :
    ∃ i v head r, p ++ q = head ++ r ∧ Head m i v head ∧ Repeated E v r := by
  obtain ⟨i, v, k, head, q', rfl, hhead, hq', rfl⟩ := h
  exact ⟨i, _, head, q' ++ q, List.append_assoc _ _ _, hhead, hq'.append hq⟩

theorem wellFormed_opened_array (h : Opens 4 (WellFormed .item) info p)
    (hq : Repeated (WellFormed .item) info.numProperties q) : WellFormed .item (p ++ q) := by
  obtain ⟨i, v, head, r, heq, hhead, hr⟩ := wellFormed_of_opened h hq
  rw [heq]
  exact .array hhead (wellFormed_of_items hr)

theorem wellFormed_opened_map (h : Opens 5 IsPair info p) (hq : Repeated IsPair info.numProperties q) :
    WellFormed .item (p ++ q) := by
  obtain ⟨i, v, head, r, heq, hhead, hr⟩ := wellFormed_of_opened h hq
  rw [heq]
  exact .map hhead (wellFormed_of_pairs hr)

end Opens

section Members
variable {n : Nat} {β : Fin n → Type} {d : ∀ i, Decoder (β i)}

theorem accepts_members (h : ∀ i, (d i).TakesItems) :
    ParseAccepts (fun _ => Repeated (WellFormed .item) n)
      (mpForDots fun i => onMember i ((d i).decode MemoryInputStream)) := by
  have hmember : ∀ i, ParseAccepts OneItem (onMember i ((d i).decode MemoryInputStream)) := fun i => .within (h i)
  have hmembers := Action.Accepts.forList hmember (List.finRange n)
  rwa [List.length_finRange] at hmembers

theorem accepts_parseVersion : InputAccepts OneItem (parseVersion : Input MemoryInputStream (BitVec 32)) :=
  Action.Accepts.fresh (accepts_parseUnsignedInteger versionType _)

theorem accepts_expectArrayHead (n : Nat) :
    InputAccepts (fun _ p => ∃ i, Head 4 i n p) (expectItemHead (σ := MemoryInputStream) .array n) := by
  refine accepts_parseItemHead.bind fun head p hread => .ite (fun _ => accepts_err _) fun htype => ?_
  refine .ite (fun _ => accepts_err _) fun hdefinite => .ite (fun _ => accepts_err _) fun hvalue => ?_
  obtain ⟨i, hhead, -⟩ := hread.head (m := 4) (by decide) (not_not.mp htype) hdefinite
  rw [not_not] at hvalue
  exact Action.accepts_pure ⟨i, by rwa [List.append_nil, ← hvalue]⟩

theorem takesItems_tuple (h : ∀ i, (d i).TakesItems) : (tupleDecoder d).TakesItems := by
  refine (accepts_expectArrayHead n).onFst.bind fun _ p ⟨i, hhead⟩ => (accepts_members h).mono fun _ q hq => ?_
  exact .array hhead (wellFormed_of_items hq)

theorem accepts_decodeTupleHead (isVersioned : Bool) :
    InputAccepts (Opens 4 (WellFormed .item)) (decodeTupleHead (σ := MemoryInputStream) isVersioned) := by
  refine accepts_parseItemHead.bind fun arrayInfo p hread => .ite (fun _ => accepts_err _) fun htype => ?_
  rw [not_or, not_not] at htype
  obtain ⟨i, hhead, -⟩ := hread.head (m := 4) (by decide) htype.1 htype.2
  refine accepts_inputSizeNow.before fun _ => .ite (fun _ => accepts_err _) fun _ => ?_
  refine .ite (fun _ => accepts_err _) fun _ => .ite (fun _ => ?_) fun _ => Action.accepts_pure ?_
  · refine .ite (fun _ => accepts_err _) fun hvalue => accepts_parseVersion.bind fun version q hq => ?_
    apply Action.accepts_pure
    rw [List.append_nil]
    exact opens hhead (.one hq) (Nat.add_sub_cancel' (Nat.not_lt.mp hvalue)).symm
  · rw [List.append_nil]
    exact opens_head hhead

theorem takesItems_packableTuple (version : BitVec 32) (h : ∀ i, (d i).TakesItems) :
    (packableTupleDecoder version d).TakesItems := by
  refine (accepts_decodeTupleHead _).onFst.bind fun info p hp => .ite (fun _ => accepts_err _) fun _ => ?_
  refine .ite (fun _ => accepts_err _) fun hn => (accepts_members h).mono fun _ q hq => ?_
  rw [← not_not.mp hn] at hq
  exact wellFormed_opened_array hp hq

theorem accepts_decodeObjectHead (isVersioned : Bool) :
    InputAccepts (Opens 5 IsPair) (decodeObjectHead (σ := MemoryInputStream) isVersioned) := by
  refine accepts_parseItemHead.bind fun mapInfo p hread => .ite (fun _ => accepts_err _) fun htype => ?_
  rw [not_or, not_not] at htype
  obtain ⟨i, hhead, -⟩ := hread.head (m := 5) (by decide) htype.1 htype.2
  have hopens : ∀ version, Opens 5 IsPair ⟨mapInfo.value, version⟩ (p ++ []) := fun version => by
    rw [List.append_nil]
    exact opens_head hhead
  refine .ite (fun hzero => Action.accepts_pure (hzero ▸ hopens _)) fun hvalue => ?_
  refine accepts_inputSizeNow.before fun _ => .ite (fun _ => accepts_err _) fun _ => ?_
  refine .ite (fun _ => accepts_err _) fun _ => .ite (fun _ => ?_) fun _ => Action.accepts_pure (hopens _)
  refine accepts_peekByte (Action.accepts_pure (hopens _)) (accepts_parseVersion.bind fun version q hq => ?_)
  apply Action.accepts_pure
  -- the version's key and the version are the first of the map's pairs
  have hkey : WellFormed .item [0] := .int (.inl rfl) (.inline (Nat.zero_le 23))
  have hpair : IsPair (0 :: q) := ⟨[0], q, rfl, hkey, hq⟩
  rw [List.append_nil]
  exact opens hhead (.one hpair) (Nat.add_sub_cancel' (Nat.one_le_iff_ne_zero.mpr hvalue)).symm

theorem accepts_decodePropByIndex (h : ∀ i, (d i).TakesItems) (position : Option Nat) :
    ParseAccepts OneItem (Detail.decodePropByIndex (σ := MemoryInputStream) d position) := by
  cases position with
  | none => exact accepts_err _
  | some idx =>
    by_cases hidx : idx < n
    · rw [Detail.decodePropByIndex_of_lt d hidx]
      exact (h _).within.after fun _ => Action.accepts_pure rfl
    · rw [Detail.decodePropByIndex_of_not_lt d hidx]
      exact Action.accepts_fail _

section Properties
variable {property : Parse MemoryInputStream (∀ i, β i) Nat} (D : ObjectDef ι n)

theorem accepts_decodeFoundProperties (h : ParseAccepts (fun _ => IsPair) property) (k : Nat)
    (found : List (BitVec 64)) :
    ParseAccepts (fun _ => Repeated IsPair k) (decodeFoundProperties property k found) := by
  induction k generalizing found with
  | zero => exact Action.accepts_pure .none
  | succ k ih => exact h.bind fun _ _ hu => (ih _).mono fun _ _ hw => .cons hu hw

theorem accepts_decodeObjectProperties (h : ParseAccepts (fun _ => IsPair) property) (k : Nat) :
    ParseAccepts (fun _ => Repeated IsPair k) (decodeObjectProperties D property k) := by
  refine .ite (fun _ => ?_) fun _ => .ite (fun _ => accepts_err _) fun _ => ?_
  · refine (accepts_decodeFoundProperties h k _).after fun _ => .ite (fun _ => accepts_err _) fun _ => ?_
    exact Action.accepts_pure rfl
  · exact Action.Accepts.forRange (fun _ => h.after fun _ => Action.accepts_pure rfl) 0 k

theorem accepts_decodeObject (h : ParseAccepts (fun _ => IsPair) property) :
    ParseAccepts OneItem (decodeObject D property) := by
  refine (accepts_decodeObjectHead _).onFst.bind fun info p hp => .ite (fun _ => accepts_err _) fun _ => ?_
  exact (accepts_decodeObjectProperties D h _).mono fun _ q hq => wellFormed_opened_map hp hq

end Properties

theorem takesItems_object [DecidableEq ι] (lt : ι → ι → Bool) (D : ObjectDef ι n) {key : Decoder ι}
    (hkey : key.TakesItems) (h : ∀ i, (d i).TakesItems) : (objectDecoder lt D key d).TakesItems :=
  accepts_decodeObject D (hkey.asValue.onFst.bind fun _ p hp =>
    (accepts_decodePropByIndex h _).mono fun _ q hq => ⟨p, q, rfl, hp, hq⟩)

theorem takesItems_unsignedObject {w : Nat} (D : ObjectDef (BitVec w) n) (h : ∀ i, (d i).TakesItems) :
    (unsignedObjectDecoder D d).TakesItems :=
  accepts_decodeObject D ((accepts_parseUnsignedInteger _ _).fresh.onFst.bind fun _ p hp =>
    (accepts_decodePropByIndex h _).mono fun _ q hq => ⟨p, q, rfl, hp, hq⟩)

end Members

theorem Decodable.takesItems {leaf : ∀ {α : Type}, Decoder α → Prop}
    (hleaf : ∀ {α : Type} {d : Decoder α}, leaf d → d.TakesItems) {d : Decoder α} (h : Decodable leaf d) :
    d.TakesItems := by
  induction h with
  | leaf h => exact hleaf h
  | vector _ ih => exact takesItems_vector ih
  | set lt _ ih => exact takesItems_set lt ih
  | map lt _ _ ihk ihd => exact takesItems_map lt ihk ihd
  | array n _ ih => exact takesItems_array n ih
  | tuple _ ih => exact takesItems_tuple ih
  | packableTuple version _ ih => exact takesItems_packableTuple version ih
  | object lt D _ _ ihkey ih => exact takesItems_object lt D ihkey ih
  | unsignedObject D _ ih => exact takesItems_unsignedObject D ih

/-- What was decoded was one item, and skipping it would have taken the same bytes. -/
theorem skipItem_of_decode {d : Decoder α} (h : Decodable Leaf d) (b : ByteSpan) {v w : α}
    {s : InputBuffer MemoryInputStream}
    (hd : d.decode MemoryInputStream (memoryInput b.bytes, v) = (.ok (), (s, w))) :
    ∃ p rest, b.bytes = p ++ rest ∧ s = memoryInput rest ∧
      Action.Returns skipItem (memoryInput b.bytes) (.ok (), memoryInput rest) := by
  obtain ⟨p, rest, hb, ⟨rfl, -⟩, hp⟩ := h.takesItems Leaf.takesItems (_, v) b.bytes ⟨rfl, b.fits⟩ () _ hd
  exact ⟨p, rest, hb, rfl, (skipItem_accepts b _).mpr ⟨p, rest, hb, hp, rfl⟩⟩

theorem skipItem_of_decode_vector :
    Action.Returns skipItem (memoryInput [0x9f, 0x18, 0x01, 0xff, 0x07]) (.ok (), memoryInput [0x07]) := by
  have h : Decodable Leaf (vectorDecoder (integerDecoder ⟨8, false⟩)) := .vector (.leaf (.integer (.inl rfl)))
  have hok : ((vectorDecoder (integerDecoder ⟨8, false⟩)).decode MemoryInputStream
      (memoryInput [0x9f, 0x18, 0x01, 0xff, 0x07], [])).1 = .ok () := by decide +kernel
  have hleft : ((vectorDecoder (integerDecoder ⟨8, false⟩)).decode MemoryInputStream
      (memoryInput [0x9f, 0x18, 0x01, 0xff, 0x07], [])).2.1.buffer = [0x07] := by decide +kernel
  rcases hrun : (vectorDecoder (integerDecoder ⟨8, false⟩)).decode MemoryInputStream
    (memoryInput [0x9f, 0x18, 0x01, 0xff, 0x07], []) with ⟨r, s, w⟩
  rw [hrun] at hok hleft
  cases hok
  obtain ⟨p, rest, -, rfl, hskip⟩ := skipItem_of_decode h ⟨[0x9f, 0x18, 0x01, 0xff, 0x07], by decide⟩ hrun
  cases hleft
  exact hskip

end DeepPack
