import DeepPack.Codecs.Locality

/-! Input that is cut off.

What a decoder accepts it does not accept without its end, however it is encoded. It
fails there with an error code: more of the input would not keep it from writing past
the end of an array, and with the rest of it no array was overrun. -/
namespace DeepPack
open Library

open Library.Action (Lasts)

/-- A decoder that goes on with more of its input. -/
def Decoder.Lasts {α : Type} (d : Decoder α) : Prop := ParseLasts (d.decode MemoryInputStream)

variable {α β κ ν ι : Type}

theorem Decoder.Lasts.asValue {d : Decoder α} (h : d.Lasts) : InputLasts (d.asValue MemoryInputStream) :=
  Action.Lasts.fresh h

/-! ### Leaves -/

/-- Whatever is in the destination, decoding a single value ends with it or with an error code. -/
theorem LibraryLeaf.keepsAny {G : Fault → Prop} (hG : ReturnsErrors G) {c : Encoder α} {d : Decoder α}
    (h : LibraryLeaf c d) : d.Keeps G fun _ => True := by
  have hinteger : ∀ t, (integerDecoder t).Keeps G fun _ => True := fun t => ⟨trivial, fun _ _ => keeps_parseInteger hG t⟩
  have hstring : stringDecoder.Keeps G fun _ => True :=
    ⟨trivial, fun _ _ => keeps_decodeString hG (keeps_anyContainer _)⟩
  cases h with
  | bool => exact ⟨trivial, fun _ _ => keeps_parseBoolean hG⟩
  | integer _ => exact hinteger _
  | float => exact ⟨trivial, fun _ _ => keeps_parseFloatingPoint hG .single⟩
  | double => exact ⟨trivial, fun _ _ => keeps_parseFloatingPoint hG .double⟩
  | string => exact hstring
  | blob => exact ⟨trivial, fun _ _ => keeps_decodeBlob hG (keeps_anyContainer _) trivial⟩
  | byteArray _ =>
    refine ⟨trivial, fun _ _ => ?_⟩
    exact keeps_within (keeps_decodeByteSpan hG (keeps_anyContainer _) fun _ _ => trivial) (fun _ _ => trivial)
      (fun _ _ _ _ _ => trivial) fun _ _ _ _ => trivial
  | enum _ _ => exact (hinteger _).via fun _ _ => trivial
  | duration _ _ => exact (hinteger _).via fun _ _ => trivial
  | path _ _ => exact hstring.via fun _ _ => trivial
  | uuid _ => exact keeps_uuid hG _

theorem keepsAny_fixedU8string {G : Fault → Prop} (hG : ReturnsErrors G) (capacity : Nat) :
    (fixedU8stringDecoder capacity).Keeps G fun _ => True := by
  refine ⟨trivial, fun C b => ?_⟩
  refine Action.Triple.bind (keeps_modify (W := fun _ _ => True) fun _ _ => trivial) fun _ => ?_
  have htext := keeps_parseBlob (C := C) (b := b) hG (keeps_anyContainer .span) false (capacity % 2 ^ 32) .text
  refine Action.Triple.bind (keeps_within (Z := fun _ _ => True) (F := fun _ => True) htext (fun _ _ => trivial)
    (fun _ _ _ _ _ => trivial) fun _ _ _ _ => trivial) fun len => ?_
  exact keeps_modify fun _ _ => trivial

theorem lasts_fixedU8string (capacity : Nat) : (fixedU8stringDecoder capacity).Lasts :=
  lasts_of_parseKeeps (isLocal_fixedU8string capacity) ((keepsAny_fixedU8string returnsErrors_within capacity).decode _)

theorem FixedLeaf.lasts {c : Encoder α} {d : Decoder α} (h : FixedLeaf c d) : d.Lasts := by
  cases h with
  | leaf h => exact lasts_of_parseKeeps h.isLocal ((h.keepsAny returnsErrors_within).decode _)
  | fixedU8string _ => exact lasts_fixedU8string _

/-! ### Containers -/

theorem lasts_vector {d : Decoder α} (h : d.Lasts) : (vectorDecoder d).Lasts :=
  Lasts.bind (Action.lasts_onSnd _) fun _ => Lasts.bind
    (lasts_parseArrayLike (fun _ => Lasts.bind (Action.lasts_onSnd _) fun _ => Lasts.within h) true sizeMax _) fun _ =>
      Action.lasts_pure _

theorem lasts_set (lt : κ → κ → Bool) {k : Decoder κ} (h : k.Lasts) : (setDecoder lt k).Lasts :=
  Lasts.bind (Action.lasts_onSnd _) fun _ => Lasts.bind
    (lasts_parseArrayLike (fun _ => Lasts.bind h.asValue.onFst fun _ => Action.lasts_onSnd _) true sizeMax _) fun _ =>
      Action.lasts_pure _

theorem lasts_map (lt : κ → κ → Bool) {k : Decoder κ} {d : Decoder ν} (hk : k.Lasts) (h : d.Lasts) :
    (mapDecoder lt k d).Lasts :=
  Lasts.bind (Action.lasts_onSnd _) fun _ => Lasts.bind
    (lasts_parseArrayLike (fun _ => Lasts.bind hk.asValue.onFst fun _ => Lasts.bind h.asValue.onFst fun _ =>
      Action.lasts_onSnd _) true sizeMax _) fun _ => Action.lasts_pure _

/-- An element past the end is no element with more of the input either. -/
theorem lasts_array (n : Nat) {d : Decoder α} (h : d.Lasts) : (arrayDecoder n d).Lasts := by
  have hat : ∀ i : Nat, ParseLasts (Detail.decodeAt (n := n) d i) := by
    intro i
    unfold Detail.decodeAt
    split
    · exact Lasts.within h
    · exact Action.lasts_fail _
  exact (lasts_parseArrayLike hat true n _).bind fun _ => .ite (Action.lasts_fail _) (Action.lasts_pure _)

/-! ### Tuples and objects -/

section Members
variable {n : Nat} {δ : Fin n → Type} {d : ∀ i, Decoder (δ i)}

theorem lasts_mpForDots (h : ∀ i, (d i).Lasts) :
    ParseLasts (mpForDots fun i => onMember i ((d i).decode MemoryInputStream)) :=
  Action.lasts_forList (fun i => Lasts.within (h i)) _

theorem lasts_tuple (h : ∀ i, (d i).Lasts) : (tupleDecoder d).Lasts :=
  (lasts_of_keeps (local_expectItemHead _ _) fun _ => keeps_expectItemHead returnsErrors_within _ _).onFst.bind fun _ =>
    lasts_mpForDots h

theorem lasts_readUnsigned (t : IntType) (limit : Nat) :
    InputLasts (Action.fresh (0 : BitVec t.width) (parseUnsignedInteger t limit)) :=
  Action.Lasts.fresh
    (lasts_of_parseKeeps (local_parseUnsignedInteger t limit) fun _ => keeps_parseUnsignedInteger returnsErrors_within t limit)

theorem lasts_parseVersion : InputLasts (parseVersion : Input MemoryInputStream (BitVec 32)) :=
  lasts_readUnsigned versionType (nullDefVersion.toNat - 1)

theorem lasts_decodeTupleHead (isVersioned : Bool) : InputLasts (decodeTupleHead isVersioned) := by
  refine lasts_parseItemHead.bind fun head => .ite (Action.lasts_fail _) ?_
  refine Action.lasts_sized (fun _ _ => rfl) (· < head.value) (fun _ _ hmn hlt => hmn.trans_lt hlt) nofun
    (.ite (Action.lasts_fail _) (.ite (.ite (Action.lasts_fail _) ?_) (Action.lasts_pure _)))
  exact lasts_parseVersion.bind fun _ => Action.lasts_pure _

theorem lasts_packableTuple (version : BitVec 32) (h : ∀ i, (d i).Lasts) : (packableTupleDecoder version d).Lasts :=
  (lasts_decodeTupleHead _).onFst.bind fun _ =>
    .ite (Action.lasts_fail _) (.ite (Action.lasts_fail _) (lasts_mpForDots h))

theorem lasts_decodeObjectHead (isVersioned : Bool) : InputLasts (decodeObjectHead isVersioned) := by
  refine lasts_parseItemHead.bind fun head => .ite (Action.lasts_fail _) (.ite (Action.lasts_pure _) ?_)
  refine Action.lasts_sized (fun _ _ => rfl) (fun size => size / 2 < head.value)
    (fun _ _ hmn hlt => (Nat.div_le_div_right hmn).trans_lt hlt) nofun
    (.ite (Action.lasts_fail _) (.ite (lasts_peekByte (Action.lasts_pure _) ?_) (Action.lasts_pure _)))
  exact lasts_parseVersion.bind fun _ => Action.lasts_pure _

theorem lasts_decodeEntry {readId : Input MemoryInputStream ι} {lookup : ι → Option Nat} (hread : InputLasts readId)
    (h : ∀ i, (d i).Lasts) : ParseLasts (decodeEntry readId lookup d) := by
  refine hread.onFst.bind fun id => ?_
  rcases lookup id with _ | idx
  · exact Action.lasts_fail _
  · by_cases hidx : idx < n
    · rw [Detail.decodePropByIndex_of_lt d hidx]
      exact Lasts.bind (Lasts.within (h _)) fun _ => Action.lasts_pure _
    · rw [Detail.decodePropByIndex_of_not_lt d hidx]
      exact Action.lasts_fail _

theorem lasts_decodeFoundProperties {property : Parse MemoryInputStream (∀ i, δ i) Nat} (h : ParseLasts property)
    (k : Nat) (foundProps : List (BitVec 64)) : ParseLasts (decodeFoundProperties property k foundProps) := by
  induction k generalizing foundProps with
  | zero => exact Action.lasts_pure _
  | succ k ih => exact h.bind fun which => ih _

theorem lasts_decodeObject (D : ObjectDef ι n) {property : Parse MemoryInputStream (∀ i, δ i) Nat}
    (h : ParseLasts property) : ParseLasts (decodeObject D property) := by
  refine (lasts_decodeObjectHead _).onFst.bind fun info => .ite (Action.lasts_fail _) ?_
  refine .ite ((lasts_decodeFoundProperties h _ _).bind fun _ => .ite (Action.lasts_fail _) (Action.lasts_pure _))
    (.ite (Action.lasts_fail _) ?_)
  exact Action.lasts_forRange (fun _ => h.bind fun _ => Action.lasts_pure _) 0 info.numProperties

theorem lasts_object [DecidableEq ι] (lt : ι → ι → Bool) (D : ObjectDef ι n) {kd : Decoder ι} (hkey : kd.Lasts)
    (h : ∀ i, (d i).Lasts) : (objectDecoder lt D kd d).Lasts :=
  lasts_decodeObject D (lasts_decodeEntry hkey.asValue h)

theorem lasts_unsignedObject {w : Nat} (D : ObjectDef (BitVec w) n) (h : ∀ i, (d i).Lasts) :
    (unsignedObjectDecoder D d).Lasts :=
  lasts_decodeObject D (lasts_decodeEntry (lasts_readUnsigned ⟨w, false⟩ (IntType.maxValue ⟨w, false⟩)) h)

end Members

theorem Decodable.lasts {leaf : ∀ {α : Type}, Decoder α → Prop}
    (hleaf : ∀ {α : Type} {d : Decoder α}, leaf d → d.Lasts) {d : Decoder α} (h : Decodable leaf d) : d.Lasts := by
  induction h with
  | leaf h => exact hleaf h
  | vector _ ih => exact lasts_vector ih
  | set lt _ ih => exact lasts_set lt ih
  | map lt _ _ ihk ihd => exact lasts_map lt ihk ihd
  | array n _ ih => exact lasts_array n ih
  | tuple _ ih => exact lasts_tuple ih
  | packableTuple version _ ih => exact lasts_packableTuple version ih
  | object lt D _ _ ihkey ih => exact lasts_object lt D ihkey ih
  | unsignedObject D _ ih => exact lasts_unsignedObject D ih

/-! ### Cut off -/

section CutOff
variable {σ τ : Type} [InputStream σ] [InputStream τ] {c : Encoder α} {d : Decoder α} {arrays : Prop}
  {s t : InputBuffer σ} {v w : α}

theorem LibraryCodec.lasts (h : LibraryCodec FixedLeaf arrays c d) : d.Lasts :=
  (h.decodable Decoder.Lasts FixedLeaf.lasts lasts_fixedU8string).lasts fun h => h

/-- What runs past the end of an array does so with more of the input as well. -/
theorem Decoder.Lasts.outOfBounds (h : d.Lasts) (hd : d.Independent) (C : InputContract σ) (hs : C.Valid s)
    (D : InputContract τ) {i : InputBuffer τ} (hi : D.Valid i) {more : List UInt8} (hmore : C.unread s = D.unread i ++ more)
    (hrun : (d.decode τ (i, v)).1 = .error .outOfBounds) : (d.decode σ (s, v)).1 = .error .outOfBounds := by
  obtain ⟨r, rest, w, hmemory, -, i', hi', -⟩ := hd.memory D hi v
  obtain ⟨r', rest', w', hmemory', -, t', ht', -⟩ := hd.memory C hs v
  rw [hi'] at hrun
  obtain rfl : r = .error .outOfBounds := hrun
  have hlen : (D.unread i ++ more).length < wordLimit := hmore ▸ C.inputSize_lt hs
  have hlonger := (h v (D.unread i) more hlen).2 .outOfBounds (congrArg Prod.fst hmemory) rfl
  rw [← hmore] at hlonger
  rw [ht']
  exact (congrArg Prod.fst hmemory').symm.trans hlonger

theorem LibraryCodec.cutOff (h : LibraryCodec FixedLeaf arrays c d) (C : InputContract σ) (hs : C.Valid s)
    (hv : c.IsValue v) (hrun : d.decode σ (s, v) = (.ok (), (t, w))) (D : InputContract τ) {i : InputBuffer τ}
    (hi : D.Valid i) (hcut : ∃ missing, missing ≠ [] ∧ C.unread s = D.unread i ++ missing ++ C.unread t) :
    ∃ e i' w', d.decode τ (i, v) = (.error (.errc e), (i', w')) := by
  have hindependent : d.Independent := h.independent FixedLeaf.independent
  obtain ⟨f, i', w', hx⟩ := (h.isLocal FixedLeaf.isLocal).cutOff hindependent C hs hrun D hi hcut
  rcases (h.kept D hi hv hx).1 f rfl with ⟨e, rfl⟩ | ⟨-, rfl⟩
  · exact ⟨e, i', w', hx⟩
  · obtain ⟨missing, -, hunread⟩ := hcut
    rw [List.append_assoc] at hunread
    have hoverrun := h.lasts.outOfBounds hindependent C hs D hi hunread (congrArg Prod.fst hx)
    rw [hrun] at hoverrun
    cases hoverrun

/-- What a decoder accepts it does not accept cut off: from any input that ends before what was taken does, decoding
returns an error code. -/
theorem decode_cutOff (h : LibraryCodec FixedLeaf arrays c d) (C : InputContract σ) (hs : C.Valid s) (hv : c.IsValue v)
    (hrun : d.decode σ (s, v) = (.ok (), (t, w))) {τ : Type} [InputStream τ] (D : InputContract τ) {i : InputBuffer τ}
    (hi : D.Valid i) (hcut : ∃ missing, missing ≠ [] ∧ C.unread s = D.unread i ++ missing ++ C.unread t) :
    ∃ e, (d.decode τ (i, v)).1 = .error (.errc e) := by
  obtain ⟨e, i', w', hx⟩ := h.cutOff C hs hv hrun D hi hcut
  exact ⟨e, congrArg Prod.fst hx⟩

/-- An array of one element without its break: nothing was written behind it. -/
theorem decode_cutOff_array :
    ∃ e, ((arrayDecoder 1 boolDecoder).decode MemoryInputStream (memoryInput [0x9f, 0xf5], fun _ => false)).1 =
      .error (.errc e) := by
  have h : LibraryCodec FixedLeaf True (arrayEncoder 1 boolEncoder) (arrayDecoder 1 boolDecoder) :=
    .array 1 ⟨trivial, by decide⟩ (.leaf (.leaf .bool))
  have hvalue : (arrayEncoder 1 boolEncoder).IsValue fun _ => false := ⟨by decide, fun _ _ => trivial⟩
  obtain ⟨t, hrun, hleft⟩ : ∃ t, (arrayDecoder 1 boolDecoder).decode MemoryInputStream
      (memoryInput [0x9f, 0xf5, 0xff], fun _ => false) = (.ok (), (t, fun _ => true)) ∧ t.buffer = [] :=
    ⟨_, run_eq_ok (by decide +kernel) (by decide +kernel), by decide +kernel⟩
  refine decode_cutOff h MemoryInputStream.contract
    (MemoryInputStream.valid_memory (b := [0x9f, 0xf5, 0xff]) (by decide)) hvalue hrun MemoryInputStream.contract
    (MemoryInputStream.valid_memory (by decide)) ⟨[0xff], by decide, ?_⟩
  show [0x9f, 0xf5, 0xff] = [0x9f, 0xf5] ++ [0xff] ++ t.buffer
  rw [hleft]
  rfl

end CutOff
end DeepPack
