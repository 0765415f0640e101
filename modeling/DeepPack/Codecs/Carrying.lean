import DeepPack.Codecs.Locality
import DeepPack.Items.Carrying

/-! The decoders, carried over along a map of streams.

They are carried over as the parsers are: a decoder looks at the outcome of a parser only
to fail in another way. -/
namespace DeepPack
open Library

/-- A decoder that is carried over along every map of streams. -/
def Decoder.Carried {α : Type} (d : Decoder α) : Prop :=
  ∀ {σ τ : Type} [InputStream σ] [InputStream τ] (M : StreamMap σ τ), ParseCarries M (d.decode σ) (d.decode τ)

variable {σ τ : Type} [InputStream σ] [InputStream τ] {M : StreamMap σ τ}
variable {α β κ ν ι : Type}

theorem Decoder.Carried.asValue {d : Decoder α} (h : d.Carried) : InputCarries M (d.asValue σ) (d.asValue τ) :=
  (h M).fresh

/-! ### Leaves -/

/-- A failure that is looked at, and still is a failure. -/
theorem carries_attempt {δ γ : Type} {x : Parse σ δ α} {y : Parse τ δ α} {k : Except Errc α → Parse σ δ γ}
    {l : Except Errc α → Parse τ δ γ} (h : ParseCarries M x y) (hok : ∀ a, ParseCarries M (k (.ok a)) (l (.ok a)))
    (herr : ∀ e, Action.Fails (k (.error e))) : ParseCarries M (attempt x >>= k) (attempt y >>= l) := by
  intro s b t hx
  obtain ⟨r, u, hu, hk⟩ := Action.bind_eq_ok.mp hx
  cases r with
  | error e => exact absurd hk (herr e _ _ _)
  | ok a =>
    have hxa : x s = (.ok a, u) := by
      unfold attempt at hu
      split at hu <;> cases hu
      assumption
    have hya := h s a u hxa
    have hattempt : attempt y (Action.mapFst (InputBuffer.map M.onDerived) s) =
        (.ok (.ok a), Action.mapFst (InputBuffer.map M.onDerived) u) := by
      rw [attempt, hya]
    exact (Action.bind_ok l hattempt).trans (hok a u b t hk)

theorem fails_clear {ρ δ : Type} (f : δ → δ) (e : Errc) :
    Action.Fails (Action.onSnd (Action.modify f) >>= fun _ => err e : Parse ρ δ α) :=
  .bind fun _ => Action.fails_fail _

theorem carried_string : stringDecoder.Carried := fun _ =>
  (carries_parseBlob _ _ _ _).bind fun _ => Action.carries_pure _

theorem carried_fixedU8string (capacity : Nat) : (fixedU8stringDecoder capacity).Carried := fun _ =>
  (Action.carries_onSnd _).bind fun _ => (carries_parseBlob _ _ _ _).within.bind fun _ => Action.carries_onSnd _

theorem carried_blob : blobDecoder.Carried := fun _ =>
  carries_attempt (carries_parseBlob _ _ _ _) (fun _ => Action.carries_pure _) (fails_clear _)

theorem carried_byteArray (n : Nat) : (byteArrayDecoder n).Carried := fun _ =>
  Action.Carries.within (carries_attempt (carries_parseBlob _ _ _ _)
    (fun _ => (Action.carries_onSnd _).bind fun _ => .ite (fails_clear _ _).carries (Action.carries_pure _))
    (fails_clear _))

theorem Decoder.Carried.via {d : Decoder α} (h : d.Carried) (f : α → β) : (d.via f).Carried := fun _ =>
  h.asValue.onFst.bind fun _ => carries_assign _

theorem carried_uuid {υ : Type} (uuid : List UInt8 → υ) : (uuidDecoder uuid).Carried := fun M =>
  (carries_expectItemHead _ _).onFst.bind fun _ => (M.bulk _).onFst.bind fun _ => carries_assign _

theorem carried_integer (t : IntType) : (integerDecoder t).Carried := fun _ => carries_parseInteger t

theorem LibraryLeaf.carried {c : Encoder α} {d : Decoder α} (h : LibraryLeaf c d) : d.Carried := by
  cases h with
  | bool => exact fun _ => carries_parseBoolean
  | integer _ => exact carried_integer _
  | float => exact fun _ => carries_parseFloatingPoint _
  | double => exact fun _ => carries_parseFloatingPoint _
  | string => exact carried_string
  | blob => exact carried_blob
  | byteArray _ => exact carried_byteArray _
  | enum _ _ => exact Decoder.Carried.via (carried_integer _) _
  | duration _ _ => exact Decoder.Carried.via (carried_integer _) _
  | path _ _ => exact carried_string.via _
  | uuid _ => exact carried_uuid _

theorem FixedLeaf.carried {c : Encoder α} {d : Decoder α} (h : FixedLeaf c d) : d.Carried := by
  cases h with
  | leaf h => exact h.carried
  | fixedU8string _ => exact carried_fixedU8string _

/-! ### Containers -/

theorem carries_decodeElement {d : Decoder α} (h : d.Carried) :
    ParseCarries M (Detail.decodeElement d) (Detail.decodeElement d) :=
  (Action.carries_onSnd _).bind fun _ => (h M).within

theorem carries_decodeKey (lt : κ → κ → Bool) {k : Decoder κ} (h : k.Carried) :
    ParseCarries M (Detail.decodeKey lt k) (Detail.decodeKey lt k) :=
  h.asValue.onFst.bind fun _ => Action.carries_onSnd _

theorem carries_decodePair (lt : κ → κ → Bool) {k : Decoder κ} {d : Decoder ν} (hk : k.Carried) (hd : d.Carried) :
    ParseCarries M (Detail.decodePair lt k d) (Detail.decodePair lt k d) :=
  hk.asValue.onFst.bind fun _ => hd.asValue.onFst.bind fun _ => Action.carries_onSnd _

theorem carries_decodeAt {n : Nat} {d : Decoder α} (h : d.Carried) (i : Nat) :
    ParseCarries M (Detail.decodeAt (n := n) d i) (Detail.decodeAt d i) := by
  unfold Detail.decodeAt
  split
  · exact (h M).within
  · exact Action.carries_fail _ _

theorem carried_vector {d : Decoder α} (h : d.Carried) : (vectorDecoder d).Carried := fun _ =>
  (carries_assign _).bind fun _ =>
    (carries_parseArrayLike (fun _ => carries_decodeElement h) _ _ _).bind fun _ => Action.carries_pure _

theorem carried_set (lt : κ → κ → Bool) {k : Decoder κ} (h : k.Carried) : (setDecoder lt k).Carried := fun _ =>
  (carries_assign _).bind fun _ =>
    (carries_parseArrayLike (fun _ => carries_decodeKey lt h) _ _ _).bind fun _ => Action.carries_pure _

theorem carried_map (lt : κ → κ → Bool) {k : Decoder κ} {d : Decoder ν} (hk : k.Carried) (hd : d.Carried) :
    (mapDecoder lt k d).Carried := fun _ =>
  (carries_assign _).bind fun _ =>
    (carries_parseArrayLike (fun _ => carries_decodePair lt hk hd) _ _ _).bind fun _ => Action.carries_pure _

theorem carried_array (n : Nat) {d : Decoder α} (h : d.Carried) : (arrayDecoder n d).Carried := fun _ =>
  (carries_parseArrayLike (carries_decodeAt h) _ _ _).bind fun _ => .ite (carries_err _ _) (Action.carries_pure _)

/-! ### Tuples and objects -/

section Members
variable {n : Nat} {δ : Fin n → Type} {d : ∀ i, Decoder (δ i)}

theorem carries_onMember (h : ∀ i, (d i).Carried) (i : Fin n) :
    ParseCarries M (onMember i ((d i).decode σ)) (onMember i ((d i).decode τ)) := (h i M).within

theorem carries_members (h : ∀ i, (d i).Carried) :
    ParseCarries M (mpForDots fun i => onMember i ((d i).decode σ)) (mpForDots fun i => onMember i ((d i).decode τ)) :=
  Action.Carries.forList (carries_onMember h) _

theorem carried_tuple (h : ∀ i, (d i).Carried) : (tupleDecoder d).Carried := fun _ =>
  (carries_expectItemHead _ _).onFst.bind fun _ => carries_members h

theorem carries_parseVersion : InputCarries M parseVersion parseVersion := (carries_parseUnsignedInteger _ _).fresh

theorem carries_decodeTupleHead (isVersioned : Bool) :
    InputCarries M (decodeTupleHead isVersioned) (decodeTupleHead isVersioned) := by
  refine carries_parseItemHead.bind fun _ => .ite (carries_err _ _) (carries_inputSizeNow.bind fun _ => ?_)
  refine .ite (carries_err _ _) (.ite (carries_err _ _) (.ite (.ite (carries_err _ _) ?_) (Action.carries_pure _)))
  exact carries_parseVersion.bind fun _ => Action.carries_pure _

theorem carried_packableTuple (version : BitVec 32) (h : ∀ i, (d i).Carried) :
    (packableTupleDecoder version d).Carried := fun _ =>
  (carries_decodeTupleHead _).onFst.bind fun _ =>
    .ite (carries_err _ _) (.ite (carries_err _ _) (carries_members h))

theorem carries_decodeObjectHead (isVersioned : Bool) :
    InputCarries M (decodeObjectHead isVersioned) (decodeObjectHead isVersioned) := by
  refine carries_parseItemHead.bind fun _ => .ite (carries_err _ _) (.ite (Action.carries_pure _) ?_)
  refine carries_inputSizeNow.bind fun _ =>
    .ite (carries_err _ _) (.ite (carries_err _ _) (.ite ?_ (Action.carries_pure _)))
  refine carries_peekByte.bind fun _ => .ite (Action.carries_pure _) ?_
  exact (carries_discardBuffered 1).bind fun _ => carries_parseVersion.bind fun _ => Action.carries_pure _

theorem carries_decodePropByIndex (h : ∀ i, (d i).Carried) (position : Option Nat) :
    ParseCarries M (Detail.decodePropByIndex d position) (Detail.decodePropByIndex d position) := by
  cases position with
  | none => exact carries_err _ _
  | some idx =>
    by_cases hidx : idx < n
    · rw [Detail.decodePropByIndex_of_lt d hidx, Detail.decodePropByIndex_of_lt d hidx]
      exact (carries_onMember h _).bind fun _ => Action.carries_pure _
    · rw [Detail.decodePropByIndex_of_not_lt d hidx]
      exact Action.carries_fail _ _

section Properties
variable {x : Parse σ (∀ i, δ i) Nat} {y : Parse τ (∀ i, δ i) Nat} (D : ObjectDef ι n)

theorem carries_decodeFoundProperties (h : ParseCarries M x y) (k : Nat) (found : List (BitVec 64)) :
    ParseCarries M (decodeFoundProperties x k found) (decodeFoundProperties y k found) := by
  induction k generalizing found with
  | zero => exact Action.carries_pure _
  | succ k ih => exact h.bind fun _ => ih _

theorem carries_decodeObject (h : ParseCarries M x y) : ParseCarries M (decodeObject D x) (decodeObject D y) := by
  refine (carries_decodeObjectHead _).onFst.bind fun _ => .ite (carries_err _ _) (.ite ?_ (.ite (carries_err _ _) ?_))
  · exact (carries_decodeFoundProperties h _ _).bind fun _ => .ite (carries_err _ _) (Action.carries_pure _)
  · exact Action.Carries.forRange (fun _ => h.bind fun _ => Action.carries_pure _) _ _

end Properties

theorem carried_object [DecidableEq ι] (lt : ι → ι → Bool) (D : ObjectDef ι n) {key : Decoder ι} (hkey : key.Carried)
    (h : ∀ i, (d i).Carried) : (objectDecoder lt D key d).Carried := fun _ =>
  carries_decodeObject D (hkey.asValue.onFst.bind fun _ => carries_decodePropByIndex h _)

theorem carried_unsignedObject {w : Nat} (D : ObjectDef (BitVec w) n) (h : ∀ i, (d i).Carried) :
    (unsignedObjectDecoder D d).Carried := fun _ =>
  carries_decodeObject D ((carries_parseUnsignedInteger _ _).fresh.onFst.bind fun _ => carries_decodePropByIndex h _)

end Members

theorem Decodable.carried {leaf : ∀ {α : Type}, Decoder α → Prop}
    (hleaf : ∀ {α : Type} {d : Decoder α}, leaf d → d.Carried) {d : Decoder α} (h : Decodable leaf d) : d.Carried := by
  induction h with
  | leaf h => exact hleaf h
  | vector _ ih => exact carried_vector ih
  | set lt _ ih => exact carried_set lt ih
  | map lt _ _ ihk ihd => exact carried_map lt ihk ihd
  | array n _ ih => exact carried_array n ih
  | tuple _ ih => exact carried_tuple ih
  | packableTuple version _ ih => exact carried_packableTuple version ih
  | object lt D _ _ ihkey ih => exact carried_object lt D ihkey ih
  | unsignedObject D _ ih => exact carried_unsignedObject D ih

theorem LibraryCodec.carried {leaf : ∀ {α : Type}, Encoder α → Decoder α → Prop} {arrays : Prop}
    (hleaf : ∀ {α : Type} {c : Encoder α} {d : Decoder α}, leaf c d → d.Carried) {c : Encoder α} {d : Decoder α}
    (h : LibraryCodec leaf arrays c d) : d.Carried :=
  (h.decodable Decoder.Carried hleaf carried_fixedU8string).carried fun h => h

end DeepPack
