import DeepPack.Codecs.LibraryCodec
import DeepPack.Items.Locality

/-! Decoders look at no more of the input than they take.

Whatever a decoder accepts it accepts in front of any other rest, with the same value:
the bytes it took are all it has seen. So no input that is accepted is the beginning of
another, and what is cut off is never accepted, canonically encoded or not. -/
namespace DeepPack
open Library

open Library.Action (AtLeast LocalWhen)

/-- A decoder that takes a byte at least and sees no more than it takes. -/
def Decoder.IsLocal {α : Type} (d : Decoder α) : Prop := ParseLocal (AtLeast 1) (d.decode MemoryInputStream)

variable {α β κ ν ι : Type}

theorem Decoder.IsLocal.asValue {d : Decoder α} (h : d.IsLocal) : InputLocal (AtLeast 1) (d.asValue MemoryInputStream) :=
  LocalWhen.fresh h

theorem Decoder.IsLocal.via {d : Decoder α} (h : d.IsLocal) (f : α → β) : (d.via f).IsLocal :=
  local_bind (j := 1) (k := 0) h.asValue.onFst fun _ => local_assign _

/-! ### Leaves -/

theorem isLocal_string : stringDecoder.IsLocal :=
  local_bind (j := 1) (k := 0) (local_parseBlob _ _ _ _) fun _ => Action.local_pure (Nat.zero_le _)

theorem isLocal_fixedU8string (capacity : Nat) : (fixedU8stringDecoder capacity).IsLocal :=
  local_bind (j := 0) (k := 1) (Action.local_onSnd fun _ => Nat.zero_le _) fun _ =>
    local_bind (j := 1) (k := 0) (LocalWhen.within (local_parseBlob _ _ _ _)) fun _ =>
      Action.local_onSnd fun _ => Nat.zero_le _

theorem isLocal_uuid {υ : Type} (uuid : List UInt8 → υ) : (uuidDecoder uuid).IsLocal :=
  local_bind (j := 1) (k := 0) (local_expectItemHead _ _).onFst fun _ =>
    local_less (local_bind (j := uuidStateSize) (k := 0) (local_bulkRead _).onFst fun _ => local_assign _) (Nat.zero_le _)

/-- A success that is looked at. -/
theorem local_attempt {δ : Type} {k : Nat} {x : Parse MemoryInputStream δ α} (h : ParseLocal (AtLeast k) x) :
    LocalWhen wordLimit (Action.placeFst memoryInput) (fun r => ∃ a, r = .ok a) (AtLeast k) (fun _ => 0) (attempt x) := by
  intro d w hw _ s hx hr
  obtain ⟨a, rfl⟩ := hr
  have hrun : x (Action.placeFst memoryInput d w) = (.ok a, s) := by
    unfold attempt at hx
    rcases hxs : x (Action.placeFst memoryInput d w) with ⟨f | a', t⟩
    · rw [hxs] at hx
      cases f <;> cases hx
    · rw [hxs] at hx
      cases hx
      rfl
  obtain ⟨u, rest, d', rfl, rfl, hu, htakes⟩ := h d w hw a s hrun trivial
  refine ⟨u, rest, d', rfl, rfl, hu, fun w' hahead hw' => ?_⟩
  unfold attempt
  rw [htakes w' hahead hw']

theorem fails_onSnd_err {σ τ : Type} (x : Action Fault τ Unit) (e : Errc) :
    Action.Fails (Action.onSnd (σ := σ) x >>= fun _ => (err e : Action Fault (σ × τ) Unit)) :=
  Action.Fails.bind fun _ => Action.fails_fail _

theorem isLocal_blob : blobDecoder.IsLocal := by
  refine LocalWhen.bind (local_attempt (local_parseBlob _ _ _ _)) (fun r u hr hu => ?_) fun r hr => ?_
  · obtain ⟨size, rfl⟩ := hr
    refine Action.local_pure ⟨?_, Nat.zero_le _⟩
    rwa [List.append_nil]
  · cases r with
    | ok size => exact absurd ⟨size, rfl⟩ hr
    | error e => exact fails_onSnd_err _ e

theorem isLocal_byteArray (n : Nat) : (byteArrayDecoder n).IsLocal := by
  refine LocalWhen.within ?_
  refine LocalWhen.bind (local_attempt (local_parseBlob _ _ _ _)) (fun r u hr hu => ?_) fun r hr => ?_
  · obtain ⟨size, rfl⟩ := hr
    refine LocalWhen.mono (local_bind (j := 0) (k := 0) (Action.local_onSnd fun _ => Nat.zero_le _) fun len =>
      .ite (fun _ => (fails_onSnd_err _ _).local) fun _ => Action.local_pure (Nat.zero_le _)) (fun _ h => h) fun _ v _ _ => ?_
    refine ⟨hu.trans ?_, Nat.zero_le _⟩
    rw [List.length_append]
    exact Nat.le_add_right _ _
  · cases r with
    | ok size => exact absurd ⟨size, rfl⟩ hr
    | error e => exact fails_onSnd_err _ e

theorem isLocal_integer (t : IntType) : (integerDecoder t).IsLocal := local_parseInteger t

theorem LibraryLeaf.isLocal {c : Encoder α} {d : Decoder α} (h : LibraryLeaf c d) : d.IsLocal := by
  cases h with
  | bool => exact local_parseBoolean
  | integer _ => exact isLocal_integer _
  | float => exact local_parseFloatingPoint .single
  | double => exact local_parseFloatingPoint .double
  | string => exact isLocal_string
  | blob => exact isLocal_blob
  | byteArray _ => exact isLocal_byteArray _
  | enum _ _ => exact (isLocal_integer _).via _
  | duration _ _ => exact (isLocal_integer _).via _
  | path _ _ => exact isLocal_string.via _
  | uuid _ => exact isLocal_uuid _

theorem FixedLeaf.isLocal {c : Encoder α} {d : Decoder α} (h : FixedLeaf c d) : d.IsLocal := by
  cases h with
  | leaf h => exact h.isLocal
  | fixedU8string _ => exact isLocal_fixedU8string _

/-! ### Containers -/

theorem isLocal_vector {d : Decoder α} (h : d.IsLocal) : (vectorDecoder d).IsLocal := by
  have helement : ∀ i : Nat, ParseLocal (AtLeast 1) ((fun _ => Detail.decodeElement d) i) := fun _ =>
    local_bind (j := 0) (k := 1) (Action.local_onSnd fun _ => Nat.zero_le _) fun _ => LocalWhen.within h
  exact local_bind (j := 0) (k := 1) (local_assign _) fun _ =>
    local_bind (j := 1) (k := 0) (local_parseArrayLike helement true sizeMax (by decide)) fun _ =>
      Action.local_pure (Nat.zero_le _)

theorem isLocal_set (lt : κ → κ → Bool) {k : Decoder κ} (h : k.IsLocal) : (setDecoder lt k).IsLocal := by
  have hkey : ∀ i : Nat, ParseLocal (AtLeast 1) ((fun _ => Detail.decodeKey lt k) i) := fun _ =>
    local_bind (j := 1) (k := 0) h.asValue.onFst fun _ => Action.local_onSnd fun _ => Nat.zero_le _
  exact local_bind (j := 0) (k := 1) (local_assign _) fun _ =>
    local_bind (j := 1) (k := 0) (local_parseArrayLike hkey true sizeMax (by decide)) fun _ =>
      Action.local_pure (Nat.zero_le _)

theorem isLocal_map (lt : κ → κ → Bool) {k : Decoder κ} {d : Decoder ν} (hk : k.IsLocal) (h : d.IsLocal) :
    (mapDecoder lt k d).IsLocal := by
  have hpair : ∀ i : Nat, ParseLocal (AtLeast 2) ((fun _ => Detail.decodePair lt k d) i) := fun _ =>
    local_bind (j := 1) (k := 1) hk.asValue.onFst fun _ =>
      local_bind (j := 1) (k := 0) h.asValue.onFst fun _ => Action.local_onSnd fun _ => Nat.zero_le _
  exact local_bind (j := 0) (k := 1) (local_assign _) fun _ =>
    local_bind (j := 1) (k := 0) (local_parseArrayLike hpair true sizeMax (by decide)) fun _ =>
      Action.local_pure (Nat.zero_le _)

theorem isLocal_array (n : Nat) {d : Decoder α} (h : d.IsLocal) : (arrayDecoder n d).IsLocal := by
  have hat : ∀ i : Nat, ParseLocal (AtLeast 1) (Detail.decodeAt (n := n) d i) := by
    intro i
    unfold Detail.decodeAt
    split
    · exact LocalWhen.within h
    · exact Action.local_fail _
  exact local_bind (j := 1) (k := 0) (local_parseArrayLike hat true n (by decide)) fun _ =>
    .ite (fun _ => local_err _) fun _ => Action.local_pure (Nat.zero_le _)

/-! ### Tuples and objects -/

section Members
variable {n : Nat} {δ : Fin n → Type} {d : ∀ i, Decoder (δ i)}

theorem local_mpForDots (h : ∀ i, (d i).IsLocal) :
    ParseLocal (AtLeast n) (mpForDots fun i => onMember i ((d i).decode MemoryInputStream)) := by
  have hmember : ∀ i, ParseLocal (AtLeast 1) (onMember i ((d i).decode MemoryInputStream)) := fun i =>
    LocalWhen.within (h i)
  have hloop := Action.local_forList hmember (List.finRange n)
  rwa [List.length_finRange, Nat.mul_one] at hloop

theorem isLocal_tuple (h : ∀ i, (d i).IsLocal) : (tupleDecoder d).IsLocal :=
  local_bind (j := 1) (k := 0) (local_expectItemHead _ _).onFst fun _ => local_less (local_mpForDots h) (Nat.zero_le _)

theorem local_readUnsigned (t : IntType) (limit : Nat) :
    InputLocal (AtLeast 1) (Action.fresh (0 : BitVec t.width) (parseUnsignedInteger t limit)) :=
  LocalWhen.fresh (local_parseUnsignedInteger t limit)

theorem local_parseVersion : InputLocal (AtLeast 1) (parseVersion : Input MemoryInputStream (BitVec 32)) :=
  local_readUnsigned versionType (nullDefVersion.toNat - 1)

/-- The head of a tuple asks for as many bytes as there are properties. -/
theorem local_decodeTupleHead (isVersioned : Bool) :
    Action.LocalWordWhen wordLimit memoryInput (fun _ => True) (AtLeast 1) HeadInfo.numProperties
      (decodeTupleHead isVersioned) := by
  refine LocalWhen.andThen local_parseItemHead fun head u hu => ?_
  have hdone : ∀ v : List UInt8, 1 ≤ (u ++ v).length := fun v => by
    rw [List.length_append]
    exact hu.trans (Nat.le_add_right _ _)
  refine .ite (fun _ => local_err _) fun _ => ?_
  refine LocalWhen.mono (Q := fun _ => True) (local_sized (L := fun info v => head.value ≤ v.length + info.numProperties)
    (fun _ _ => rfl) (· < head.value) (fun _ _ hmn hlt => hmn.trans_lt hlt) (.ite (fun _ => local_err _) fun _ => ?_)
    fun _ _ _ hv => Nat.not_lt.mpr hv) (fun _ h => h) fun _ v _ _ => hdone v
  refine .ite (fun _ => .ite (fun _ => local_err _) fun _ => ?_) fun _ => Action.local_pure (Nat.le_add_left _ _)
  refine LocalWhen.andThen local_parseVersion fun version v hv => Action.local_pure ?_
  show head.value ≤ (v ++ []).length + (head.value - 1)
  have hlen : 1 ≤ v.length := hv
  rw [List.append_nil]
  omega

theorem isLocal_packableTuple (version : BitVec 32) (h : ∀ i, (d i).IsLocal) : (packableTupleDecoder version d).IsLocal := by
  refine LocalWhen.bind (local_decodeTupleHead _).onFst (fun info u _ hu => ?_) fun _ ha => absurd trivial ha
  refine .ite (fun _ => local_err _) fun _ => .ite (fun _ => local_err _) fun hn => ?_
  refine (local_mpForDots h).mono (fun _ h => h) fun _ v _ hv => ⟨?_, ?_⟩
  · rw [AtLeast, List.length_append]
    exact hu.trans (Nat.le_add_right _ _)
  · rw [not_not.mp hn]
    exact hv

/-- The head of an object asks for two bytes a property. A version that is expected and not there is none that counts. -/
theorem local_decodeObjectHead (isVersioned : Bool) :
    Action.LocalWordWhen wordLimit memoryInput (fun info => isVersioned = true → info.version ≠ nullDefVersion) (AtLeast 1)
      (fun info => 2 * info.numProperties) (decodeObjectHead isVersioned) := by
  refine LocalWhen.andThen local_parseItemHead fun head u hu => ?_
  have hdone : ∀ v : List UInt8, 1 ≤ (u ++ v).length := fun v => by
    rw [List.length_append]
    exact hu.trans (Nat.le_add_right _ _)
  refine .ite (fun _ => local_err _) fun _ => .ite (fun _ => Action.local_pure (hdone [])) fun _ => ?_
  refine LocalWhen.mono (local_sized (L := fun info v => 2 * head.value ≤ v.length + 2 * info.numProperties)
    (fun _ _ => rfl) (fun size => size / 2 < head.value) (fun m n hmn hlt => ?_) (.ite (fun _ => local_err _) fun _ => ?_)
    fun _ _ _ hv => ?_) (fun _ h => h) fun _ v _ _ => hdone v
  · exact (Nat.div_le_div_right hmn).trans_lt hlt
  · refine .ite (fun hversioned => local_peekByte ?_ ?_) fun _ => Action.local_pure (Nat.le_add_left _ _)
    · intro _ _ _ hx hversion
      cases hx
      exact hversion hversioned rfl
    · refine LocalWhen.andThen local_parseVersion fun version v hv => Action.local_pure ?_
      show 2 * head.value ≤ (0 :: (v ++ [])).length + 2 * (head.value - 1)
      have hlen : 1 ≤ v.length := hv
      rw [List.length_cons, List.append_nil]
      omega
  · omega

theorem local_decodeEntry {readId : Input MemoryInputStream ι} {lookup : ι → Option Nat}
    (hread : InputLocal (AtLeast 1) readId) (h : ∀ i, (d i).IsLocal) :
    ParseLocal (AtLeast 2) (decodeEntry readId lookup d) := by
  refine local_bind (j := 1) (k := 1) hread.onFst fun id => ?_
  rcases lookup id with _ | idx
  · exact local_err _
  · by_cases hidx : idx < n
    · rw [Detail.decodePropByIndex_of_lt d hidx]
      exact local_bind (j := 1) (k := 0) (LocalWhen.within (h _)) fun _ => Action.local_pure (Nat.zero_le _)
    · rw [Detail.decodePropByIndex_of_not_lt d hidx]
      exact Action.local_fail _

theorem local_decodeFoundProperties {property : Parse MemoryInputStream (∀ i, δ i) Nat}
    (h : ParseLocal (AtLeast 2) property) (k : Nat) (foundProps : List (BitVec 64)) :
    ParseLocal (AtLeast (2 * k)) (decodeFoundProperties property k foundProps) := by
  induction k generalizing foundProps with
  | zero => exact Action.local_pure (Nat.zero_le _)
  | succ k ih => exact local_less (local_bind h fun which => ih _) (by omega)

theorem local_decodeObject (D : ObjectDef ι n) {property : Parse MemoryInputStream (∀ i, δ i) Nat}
    (h : ParseLocal (AtLeast 2) property) : ParseLocal (AtLeast 1) (decodeObject D property) := by
  refine LocalWhen.bind (local_decodeObjectHead _).onFst (fun info u _ hu => ?_) fun info hinfo => ?_
  · have hdone : ∀ v : List UInt8, 1 ≤ (u ++ v).length := fun v => by
      rw [List.length_append]
      exact Nat.le_trans hu (Nat.le_add_right _ _)
    refine .ite (fun _ => local_err _) fun _ => LocalWhen.mono (Q := fun _ => True)
      (K := AtLeast (2 * info.numProperties)) ?_ (fun _ h => h) fun _ v _ hv => ⟨hdone v, hv⟩
    refine .ite (fun _ => ?_) fun _ => .ite (fun _ => local_err _) fun _ => ?_
    · exact local_bind (k := 0) (local_decodeFoundProperties h _ _) fun _ =>
        .ite (fun _ => local_err _) fun _ => Action.local_pure (Nat.zero_le _)
    · refine local_less (Action.local_forRange (k := 2) (fun _ => ?_) 0 info.numProperties) (by omega)
      exact local_bind (k := 0) h fun _ => Action.local_pure (Nat.zero_le _)
  · -- a version was expected and there was none
    rw [Classical.not_imp, not_not] at hinfo
    obtain ⟨hversioned, hnull⟩ := hinfo
    rw [bne_iff_ne] at hversioned
    rw [if_pos ⟨hversioned, fun heq => hversioned (heq.trans hnull)⟩]
    exact Action.fails_fail _

theorem isLocal_object [DecidableEq ι] (lt : ι → ι → Bool) (D : ObjectDef ι n) {kd : Decoder ι} (hkey : kd.IsLocal)
    (h : ∀ i, (d i).IsLocal) : (objectDecoder lt D kd d).IsLocal :=
  local_decodeObject D (local_decodeEntry hkey.asValue h)

theorem isLocal_unsignedObject {w : Nat} (D : ObjectDef (BitVec w) n) (h : ∀ i, (d i).IsLocal) :
    (unsignedObjectDecoder D d).IsLocal :=
  local_decodeObject D (local_decodeEntry (local_readUnsigned ⟨w, false⟩ (IntType.maxValue ⟨w, false⟩)) h)

end Members

theorem Decodable.isLocal {leaf : ∀ {α : Type}, Decoder α → Prop}
    (hleaf : ∀ {α : Type} {d : Decoder α}, leaf d → d.IsLocal) {d : Decoder α} (h : Decodable leaf d) : d.IsLocal := by
  induction h with
  | leaf h => exact hleaf h
  | vector _ ih => exact isLocal_vector ih
  | set lt _ ih => exact isLocal_set lt ih
  | map lt _ _ ihk ihd => exact isLocal_map lt ihk ihd
  | array n _ ih => exact isLocal_array n ih
  | tuple _ ih => exact isLocal_tuple ih
  | packableTuple version _ ih => exact isLocal_packableTuple version ih
  | object lt D _ _ ihkey ih => exact isLocal_object lt D ihkey ih
  | unsignedObject D _ ih => exact isLocal_unsignedObject D ih

theorem LibraryCodec.isLocal {leaf : ∀ {α : Type}, Encoder α → Decoder α → Prop} {arrays : Prop}
    (hleaf : ∀ {α : Type} {c : Encoder α} {d : Decoder α}, leaf c d → d.IsLocal) {c : Encoder α} {d : Decoder α}
    (h : LibraryCodec leaf arrays c d) : d.IsLocal :=
  (h.decodable Decoder.IsLocal hleaf isLocal_fixedU8string).isLocal fun h => h

/-! ### Whatever is accepted -/

section Accepted
variable {σ τ : Type} [InputStream σ] [InputStream τ] {c : Encoder α} {d : Decoder α} {arrays : Prop}
  {s t : InputBuffer σ} {v w : α}

/-- On an honest input a decoder does what it does on a memory stream. -/
theorem Decoder.Independent.memory (h : d.Independent) (C : InputContract σ) (hs : C.Valid s) (v : α) :
    ∃ r rest w, d.decode MemoryInputStream (memoryInput (C.unread s), v) = (r, (memoryInput rest, w)) ∧
      rest.length < wordLimit ∧ ∃ t, d.decode σ (s, v) = (r, (t, w)) ∧ C.Valid t ∧ C.unread t = rest := by
  have hvalid := MemoryInputStream.valid_memory (C.inputSize_lt hs)
  obtain ⟨hr, hok, herr⟩ := h C MemoryInputStream.contract (s, v) (memoryInput (C.unread s), v) ⟨⟨hs, hvalid, rfl⟩, rfl⟩
  have hafter : Action.Beside (Same C MemoryInputStream.contract) (d.decode σ (s, v)).2
      (d.decode MemoryInputStream (memoryInput (C.unread s), v)).2 := by
    rcases hx : (d.decode σ (s, v)).1 with e | a
    · exact herr e hx
    · exact hok a hx
  obtain ⟨⟨hvt, ⟨rest, hm, hlen⟩, hu⟩, hw⟩ := hafter
  refine ⟨_, rest, _, Prod.ext rfl (Prod.ext hm rfl), hlen, _, Prod.ext hr (Prod.ext rfl hw), hvt, ?_⟩
  rw [hu, hm]
  rfl

/-- A decoder that succeeds on one honest input succeeds on every other that starts with the bytes it took. -/
theorem Decoder.IsLocal.decodes (h : d.IsLocal) (hd : d.Independent) (C : InputContract σ) (hs : C.Valid s)
    (hrun : d.decode σ (s, v) = (.ok (), (t, w))) :
    ∃ u, u ≠ [] ∧ C.unread s = u ++ C.unread t ∧ ∀ {τ : Type} [InputStream τ] (D : InputContract τ) {i : InputBuffer τ}
      {rest : List UInt8}, D.Valid i → D.unread i = u ++ rest →
        ∃ i', d.decode τ (i, v) = (.ok (), (i', w)) ∧ D.Valid i' ∧ D.unread i' = rest := by
  obtain ⟨r, rest, w', hmemory, -, t', ht', hvt, hut⟩ := hd.memory C hs v
  rw [hrun] at ht'
  cases ht'
  obtain ⟨u, rest', w', hsplit, hleft, hu, htakes⟩ := h v (C.unread s) (C.inputSize_lt hs) () _ hmemory trivial
  obtain ⟨hbuffer, rfl⟩ := Prod.mk.inj hleft
  obtain rfl : rest = rest' := congrArg InputBuffer.buffer hbuffer
  refine ⟨u, List.ne_nil_of_length_pos hu, by rw [hsplit, hut], fun D i rest' hi hunread => ?_⟩
  obtain ⟨r, left, w', hmemory', -, i', hi', hvi, hui⟩ := hd.memory D hi v
  have hlen : (u ++ rest').length < wordLimit := hunread ▸ D.inputSize_lt hi
  rw [hunread] at hmemory'
  have hagain : d.decode MemoryInputStream (memoryInput (u ++ rest'), v) = (.ok (), (memoryInput rest', w)) :=
    htakes rest' (Nat.zero_le _) hlen
  rw [hagain] at hmemory'
  obtain ⟨hr, hbuffer', hw⟩ := Prod.mk.inj hmemory' |>.imp id Prod.mk.inj
  obtain rfl : rest' = left := congrArg InputBuffer.buffer hbuffer'
  exact ⟨i', hi'.trans (Prod.ext hr.symm (Prod.ext rfl hw.symm)), hvi, hui⟩

/-- It fails on every one that ends before these bytes do. -/
theorem Decoder.IsLocal.cutOff (h : d.IsLocal) (hd : d.Independent) (C : InputContract σ) (hs : C.Valid s)
    (hrun : d.decode σ (s, v) = (.ok (), (t, w))) (D : InputContract τ) {i : InputBuffer τ} (hi : D.Valid i)
    (hcut : ∃ missing, missing ≠ [] ∧ C.unread s = D.unread i ++ missing ++ C.unread t) :
    ∃ f i' w', d.decode τ (i, v) = (.error f, (i', w')) := by
  obtain ⟨missing, hne, hcut⟩ := hcut
  rcases hx : d.decode τ (i, v) with ⟨f | _, i', w'⟩
  · exact ⟨f, i', w', rfl⟩
  · -- what was taken of the shorter input would have been all that is taken of the longer one
    obtain ⟨u, -, hu, hagain⟩ := h.decodes hd D hi hx
    have hunread : C.unread s = u ++ (D.unread i' ++ missing ++ C.unread t) := by
      rw [hcut, hu]
      simp only [List.append_assoc]
    obtain ⟨t', ht', -, hut⟩ := hagain C hs hunread
    rw [hrun] at ht'
    cases ht'
    have hlen := congrArg List.length hut
    have hpos := List.length_pos_of_ne_nil hne
    rw [List.length_append, List.length_append] at hlen
    omega

/-- What a decoder accepts, however it is encoded, it accepts in front of anything else and from any honest input: it
has seen no more than it took. -/
theorem decode_local (h : LibraryCodec FixedLeaf arrays c d) (C : InputContract σ) (hs : C.Valid s)
    (hrun : d.decode σ (s, v) = (.ok (), (t, w))) :
    ∃ u, u ≠ [] ∧ C.unread s = u ++ C.unread t ∧ ∀ {τ : Type} [InputStream τ] (D : InputContract τ) {i : InputBuffer τ}
      {rest : List UInt8}, D.Valid i → D.unread i = u ++ rest →
        ∃ i', d.decode τ (i, v) = (.ok (), (i', w)) ∧ D.Valid i' ∧ D.unread i' = rest :=
  (h.isLocal FixedLeaf.isLocal).decodes (h.independent FixedLeaf.independent) C hs hrun

/-- An indefinite array of one boolean, in front of 7 and then of 42. -/
theorem decode_local_indefinite :
    ∃ i', (vectorDecoder boolDecoder).decode MemoryInputStream (memoryInput [0x9f, 0xf5, 0xff, 0x18, 0x2a], []) =
      (.ok (), (i', [true])) ∧ MemoryInputStream.contract.unread i' = [0x18, 0x2a] := by
  have h : LibraryCodec FixedLeaf False (rangeEncoder 64 boolEncoder) (vectorDecoder boolDecoder) :=
    .vector (.leaf (.leaf .bool))
  obtain ⟨t, hrun, hleft⟩ : ∃ t, (vectorDecoder boolDecoder).decode MemoryInputStream
      (memoryInput [0x9f, 0xf5, 0xff, 0x07], []) = (.ok (), (t, [true])) ∧ t.buffer = [0x07] :=
    ⟨_, run_eq_ok (by decide +kernel) (by decide +kernel), by decide +kernel⟩
  obtain ⟨u, -, hu, hagain⟩ := decode_local h MemoryInputStream.contract
    (MemoryInputStream.valid_memory (b := [0x9f, 0xf5, 0xff, 0x07]) (by decide)) hrun
  replace hu : [0x9f, 0xf5, 0xff] ++ [0x07] = u ++ t.buffer := hu
  rw [hleft] at hu
  obtain rfl := List.append_cancel_right hu
  have hvalid := MemoryInputStream.valid_memory (b := [0x9f, 0xf5, 0xff, 0x18, 0x2a]) (by decide)
  have hunread : MemoryInputStream.contract.unread (memoryInput [0x9f, 0xf5, 0xff, 0x18, 0x2a]) =
    [0x9f, 0xf5, 0xff] ++ [0x18, 0x2a] := rfl
  obtain ⟨i', hi', -, hrest⟩ := hagain MemoryInputStream.contract hvalid hunread
  exact ⟨i', hi', hrest⟩

end Accepted
end DeepPack
