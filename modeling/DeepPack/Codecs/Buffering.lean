import DeepPack.Codecs.Decodable
import DeepPack.Items.Buffering
import DeepPack.Streams.ChunkedTruthful

/-! Decoding does not depend on how the input is buffered.

Each decoder agrees with itself on any two inputs with the same unread bytes if the
decoders it is built from do, and so all of them agree. -/
namespace DeepPack
open Library

/-- A decoder that makes the same of the same input, on any two streams. -/
def Decoder.Independent {α : Type} (d : Decoder α) : Prop :=
  ∀ {σ τ : Type} [InputStream σ] [InputStream τ] (C : InputContract σ) (D : InputContract τ),
    ParseAgree C D (d.decode σ) (d.decode τ)

variable {σ τ : Type} [InputStream σ] [InputStream τ] {C : InputContract σ} {D : InputContract τ}
variable {α κ ν ι : Type}

theorem Decoder.Independent.asValue {d : Decoder α} (h : d.Independent) :
    InputAgree C D (d.asValue σ) (d.asValue τ) := (h C D).fresh

/-! ### Leaves -/

theorem independent_string : stringDecoder.Independent := fun _ _ =>
  (agree_parseBlob _ _ _ _).bind fun _ => Action.agree_pure _

theorem independent_fixedU8string (capacity : Nat) : (fixedU8stringDecoder capacity).Independent := fun _ _ =>
  (Action.agree_onSnd _).bind fun _ => (agree_parseBlob _ _ _ _).within.bind fun _ => Action.agree_onSnd _

/-- A failure that is looked at is the same failure on both sides. -/
theorem agree_attempt {δ : Type} {x : Parse σ δ α} {y : Parse τ δ α} (h : ParseAgree C D x y) :
    ParseAgree C D (attempt x) (attempt y) := by
  intro s t hst
  obtain ⟨hr, hok, herr⟩ := h s t hst
  unfold attempt
  rcases hx : x s with ⟨e | a, s'⟩ <;> rcases hy : y t with ⟨e' | a', t'⟩ <;> rw [hx, hy] at hr hok herr
  · cases hr
    have hst' := herr _ rfl
    cases e with
    | errc e => exact ⟨rfl, fun _ _ => hst', nofun⟩
    | outOfBounds => exact ⟨rfl, nofun, fun _ _ => hst'⟩
    | terminated => exact ⟨rfl, nofun, fun _ _ => hst'⟩
    | running => exact ⟨rfl, nofun, fun _ _ => hst'⟩
  · cases hr
  · cases hr
  · cases hr
    have hst' := hok _ rfl
    exact ⟨rfl, fun _ _ => hst', nofun⟩

theorem independent_blob : blobDecoder.Independent := by
  intro σ τ _ _ C D
  refine (agree_attempt (agree_parseBlob _ _ _ _)).bind fun r => ?_
  cases r with
  | ok size => exact Action.agree_pure _
  | error e => exact (Action.agree_onSnd _).bind fun _ => agree_err e

theorem independent_byteArray (n : Nat) : (byteArrayDecoder n).Independent := by
  intro σ τ _ _ C D
  refine Action.Agree.within ((agree_attempt (agree_parseBlob _ _ _ _)).bind fun r => ?_)
  cases r with
  | ok size =>
    refine (Action.agree_onSnd _).bind fun _ => .ite ?_ (Action.agree_pure _)
    exact (Action.agree_onSnd _).bind fun _ => agree_err _
  | error e => exact (Action.agree_onSnd _).bind fun _ => agree_err e

theorem Leaf.independent {d : Decoder α} (h : Leaf d) : d.Independent := by
  cases h with
  | bool => exact fun _ _ => agree_parseBoolean
  | integer => exact fun _ _ => agree_parseInteger _
  | float => exact fun _ _ => agree_parseFloatingPoint _
  | double => exact fun _ _ => agree_parseFloatingPoint _
  | fixedU8string capacity => exact independent_fixedU8string capacity

theorem StringLeaf.independent {d : Decoder α} (h : StringLeaf d) : d.Independent := by
  cases h with
  | leaf h => exact h.independent
  | string => exact independent_string
  | blob => exact independent_blob
  | byteArray n => exact independent_byteArray n

/-! ### Containers -/

theorem agree_decodeElement {d : Decoder α} (h : d.Independent) :
    ParseAgree C D (Detail.decodeElement d) (Detail.decodeElement d) :=
  (Action.agree_onSnd _).bind fun _ => (h C D).within

theorem agree_decodeKey (lt : κ → κ → Bool) {k : Decoder κ} (h : k.Independent) :
    ParseAgree C D (Detail.decodeKey lt k) (Detail.decodeKey lt k) :=
  h.asValue.onFst.bind fun _ => Action.agree_onSnd _

theorem agree_decodePair (lt : κ → κ → Bool) {k : Decoder κ} {d : Decoder ν} (hk : k.Independent)
    (hd : d.Independent) : ParseAgree C D (Detail.decodePair lt k d) (Detail.decodePair lt k d) :=
  hk.asValue.onFst.bind fun _ => hd.asValue.onFst.bind fun _ => Action.agree_onSnd _

theorem agree_decodeAt {n : Nat} {d : Decoder α} (h : d.Independent) (i : Nat) :
    ParseAgree C D (Detail.decodeAt (n := n) d i) (Detail.decodeAt d i) := by
  unfold Detail.decodeAt
  split
  · exact (h C D).within
  · exact Action.agree_fail _ fun _ _ hst => hst

theorem independent_vector {d : Decoder α} (h : d.Independent) : (vectorDecoder d).Independent := fun _ _ =>
  (agree_assign _).bind fun _ =>
    (agree_parseArrayLike (fun _ => agree_decodeElement h) _ _ _).bind fun _ => Action.agree_pure _

theorem independent_set (lt : κ → κ → Bool) {k : Decoder κ} (h : k.Independent) :
    (setDecoder lt k).Independent := fun _ _ =>
  (agree_assign _).bind fun _ =>
    (agree_parseArrayLike (fun _ => agree_decodeKey lt h) _ _ _).bind fun _ => Action.agree_pure _

theorem independent_map (lt : κ → κ → Bool) {k : Decoder κ} {d : Decoder ν} (hk : k.Independent)
    (hd : d.Independent) : (mapDecoder lt k d).Independent := fun _ _ =>
  (agree_assign _).bind fun _ =>
    (agree_parseArrayLike (fun _ => agree_decodePair lt hk hd) _ _ _).bind fun _ => Action.agree_pure _

theorem independent_array (n : Nat) {d : Decoder α} (h : d.Independent) :
    (arrayDecoder n d).Independent := fun _ _ =>
  (agree_parseArrayLike (agree_decodeAt h) _ _ _).bind fun _ => .ite (agree_err _) (Action.agree_pure _)

/-! ### Tuples and objects -/

section Members
variable {n : Nat} {β : Fin n → Type} {d : ∀ i, Decoder (β i)}

theorem agree_onMember (h : ∀ i, (d i).Independent) (i : Fin n) :
    ParseAgree C D (onMember i ((d i).decode σ)) (onMember i ((d i).decode τ)) := (h i C D).within

theorem agree_members (h : ∀ i, (d i).Independent) :
    ParseAgree C D (mpForDots fun i => onMember i ((d i).decode σ)) (mpForDots fun i => onMember i ((d i).decode τ)) :=
  Action.Agree.forList (agree_onMember h) _

theorem independent_tuple (h : ∀ i, (d i).Independent) : (tupleDecoder d).Independent := fun _ _ =>
  (agree_expectItemHead _ _).onFst.bind fun _ => agree_members h

theorem agree_parseVersion : InputAgree C D parseVersion parseVersion := (agree_parseUnsignedInteger _ _).fresh

theorem agree_decodeTupleHead (isVersioned : Bool) :
    InputAgree C D (decodeTupleHead isVersioned) (decodeTupleHead isVersioned) := by
  refine agree_parseItemHead.bind fun _ => (agree_err _).ite (agree_inputSizeNow.bind fun _ => ?_)
  refine (agree_err _).ite ((agree_err _).ite (.ite ((agree_err _).ite ?_) (Action.agree_pure _)))
  exact agree_parseVersion.bind fun _ => Action.agree_pure _

theorem independent_packableTuple (version : BitVec 32) (h : ∀ i, (d i).Independent) :
    (packableTupleDecoder version d).Independent := fun _ _ =>
  (agree_decodeTupleHead _).onFst.bind fun _ =>
    (agree_err _).ite ((agree_err _).ite (agree_members h))

theorem agree_decodeObjectHead (isVersioned : Bool) :
    InputAgree C D (decodeObjectHead isVersioned) (decodeObjectHead isVersioned) := by
  refine agree_parseItemHead.bind fun _ => (agree_err _).ite ((Action.agree_pure _).ite ?_)
  refine agree_inputSizeNow.bind fun _ => (agree_err _).ite ((agree_err _).ite (.ite ?_ (Action.agree_pure _)))
  refine agree_peekByte.bind fun _ => .ite ((Action.agree_pure _).weaken fun _ _ hst => hst.1) ?_
  exact (agree_discardBuffered 1).bind fun _ => agree_parseVersion.bind fun _ => Action.agree_pure _

theorem agree_decodePropByIndex (h : ∀ i, (d i).Independent) (position : Option Nat) :
    ParseAgree C D (Detail.decodePropByIndex d position) (Detail.decodePropByIndex d position) := by
  cases position with
  | none => exact agree_err _
  | some idx =>
    by_cases hidx : idx < n
    · rw [Detail.decodePropByIndex_of_lt d hidx, Detail.decodePropByIndex_of_lt d hidx]
      exact (agree_onMember h _).bind fun _ => Action.agree_pure _
    · rw [Detail.decodePropByIndex_of_not_lt d hidx, Detail.decodePropByIndex_of_not_lt d hidx]
      exact Action.agree_fail _ fun _ _ hst => hst

section Properties
variable {x : Parse σ (∀ i, β i) Nat} {y : Parse τ (∀ i, β i) Nat} (O : ObjectDef ι n)

theorem agree_decodeFoundProperties (h : ParseAgree C D x y) (k : Nat) (found : List (BitVec 64)) :
    ParseAgree C D (decodeFoundProperties x k found) (decodeFoundProperties y k found) := by
  induction k generalizing found with
  | zero => exact Action.agree_pure _
  | succ k ih => exact h.bind fun _ => ih _

theorem agree_decodeObject (h : ParseAgree C D x y) : ParseAgree C D (decodeObject O x) (decodeObject O y) := by
  refine (agree_decodeObjectHead _).onFst.bind fun _ => (agree_err _).ite (.ite ?_ ((agree_err _).ite ?_))
  · exact (agree_decodeFoundProperties h _ _).bind fun _ => .ite (agree_err _) (Action.agree_pure _)
  · exact Action.Agree.forRange (fun _ => h.bind fun _ => Action.agree_pure _) _ _

end Properties

theorem independent_object [DecidableEq ι] (lt : ι → ι → Bool) (O : ObjectDef ι n) {key : Decoder ι}
    (hkey : key.Independent) (h : ∀ i, (d i).Independent) : (objectDecoder lt O key d).Independent := fun _ _ =>
  agree_decodeObject O (hkey.asValue.onFst.bind fun _ => agree_decodePropByIndex h _)

theorem independent_unsignedObject {w : Nat} (O : ObjectDef (BitVec w) n) (h : ∀ i, (d i).Independent) :
    (unsignedObjectDecoder O d).Independent := fun _ _ =>
  agree_decodeObject O ((agree_parseUnsignedInteger _ _).fresh.onFst.bind fun _ => agree_decodePropByIndex h _)

end Members

theorem Decodable.independent {leaf : ∀ {α : Type}, Decoder α → Prop}
    (hleaf : ∀ {α : Type} {d : Decoder α}, leaf d → d.Independent) {d : Decoder α} (h : Decodable leaf d) :
    d.Independent := by
  induction h with
  | leaf h => exact hleaf h
  | vector _ ih => exact independent_vector ih
  | set lt _ ih => exact independent_set lt ih
  | map lt _ _ ihk ihd => exact independent_map lt ihk ihd
  | array n _ ih => exact independent_array n ih
  | tuple _ ih => exact independent_tuple ih
  | packableTuple version _ ih => exact independent_packableTuple version ih
  | object lt D _ _ ihkey ih => exact independent_object lt D ihkey ih
  | unsignedObject D _ ih => exact independent_unsignedObject D ih

/-- From the same bytes, however buffered, a decoder comes to the same outcome, with the same value
in its destination, and leaves the same bytes. -/
theorem decode_buffering {d : Decoder α} (h : Decodable StringLeaf d) (C : InputContract σ) (D : InputContract τ)
    {s : InputBuffer σ} {t : InputBuffer τ} (hs : C.Valid s) (ht : D.Valid t) (hst : C.unread s = D.unread t)
    (v : α) :
    (d.decode σ (s, v)).1 = (d.decode τ (t, v)).1 ∧
      (d.decode σ (s, v)).2.2 = (d.decode τ (t, v)).2.2 ∧
      C.unread (d.decode σ (s, v)).2.1 = D.unread (d.decode τ (t, v)).2.1 := by
  obtain ⟨hr, hok, herr⟩ := h.independent StringLeaf.independent C D (s, v) (t, v) ⟨⟨hs, ht, hst⟩, rfl⟩
  refine ⟨hr, ?_⟩
  rcases hx : (d.decode σ (s, v)).1 with e | a
  · obtain ⟨⟨-, -, hu⟩, hv⟩ := herr e hx
    exact ⟨hv, hu⟩
  · obtain ⟨⟨-, -, hu⟩, hv⟩ := hok a hx
    exact ⟨hv, hu⟩

/-- The head of a vector and its element in two chunks, and in memory. -/
theorem decode_buffering_vector :
    let T := ChunkedInputStream.truthfulOver [0x81, 0xf5, 0x07]
    let _ := T.rescued
    let run := (vectorDecoder boolDecoder).decode (Rescued ChunkedInputStream)
      ((chunkedInput [0x81] 3 [.ok [0xf5, 0x07]]).map .stream, [])
    run.1 = .ok () ∧ run.2.2 = [true] ∧ T.honest.unread run.2.1 = [0x07] := by
  intro T _ run
  have h : Decodable StringLeaf (vectorDecoder boolDecoder) := .vector (.leaf (.leaf .bool))
  have hsized : ChunkedInputStream.AreSized [.ok [0xf5, 0x07]] := by decide
  have hchunks : T.Valid (chunkedInput [0x81] 3 [.ok [0xf5, 0x07]]) :=
    ChunkedInputStream.valid_chunkedInput hsized (show 3 < wordLimit by decide)
  have hmemory := MemoryInputStream.valid_memory (b := [0x81, 0xf5, 0x07]) (by decide)
  obtain ⟨hresult, hvalue, hunread⟩ := decode_buffering h T.honest MemoryInputStream.contract
    (s := (chunkedInput [0x81] 3 [.ok [0xf5, 0x07]]).map .stream) hchunks hmemory rfl []
  exact ⟨hresult.trans (by decide +kernel), hvalue.trans (by decide +kernel), hunread.trans (by decide +kernel)⟩

end DeepPack
