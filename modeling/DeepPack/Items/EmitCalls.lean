import DeepPack.Items.CopyAgreement
import DeepPack.Items.ItemSize

/-! Items out of calls.

A codec puts its items together from the emitters, call by call: a head announces what
the calls behind it have to put out, an indefinite head is closed by a break. The calls
put out one well-formed item exactly if they are nested as their heads announce. -/
namespace DeepPack
open Library

variable {σ : Type} [OutputStream σ]

/-! ### The emitters that no codec calls -/

/-- `emit_tag`, for a tag that is not negative. -/
def emitTag (t : IntType) (tagValue : BitVec t.width) : Output σ Unit :=
  Detail.storeVarUint t.encoderDigits tagValue.toNat .tag

def emitUndefined : Output σ Unit := Detail.storeInlineValue 0 .undefined

def emitBinaryIndefinite : Output σ Unit := Detail.storeInlineValue indefiniteAddInfo .binary

def emitU8stringIndefinite : Output σ Unit := Detail.storeInlineValue indefiniteAddInfo .text

def emitArrayIndefinite : Output σ Unit := Detail.storeInlineValue indefiniteAddInfo .array

def emitMapIndefinite : Output σ Unit := Detail.storeInlineValue indefiniteAddInfo .map

/-! ### Calls -/

/-- A call of an emitter; binary data and text are put out together with their heads. -/
inductive EmitCall where
  | integer (t : IntType) (value : BitVec t.width)
  | binary (data : List UInt8)
  | binaryIndefinite
  | u8string (data : List UInt8)
  | u8stringIndefinite
  | array (numElements : Nat)
  | arrayIndefinite
  | map (numElements : Nat)
  | mapIndefinite
  | tag (t : IntType) (tagValue : BitVec t.width)
  | boolean (value : Bool)
  | floatSingle (value : BitVec 32)
  | floatDouble (value : BitVec 64)
  | null
  | undefined
  | close

namespace EmitCall

def emit : EmitCall → Emitter
  | integer t value, _, _ => emitInteger t value
  | binary data, _, _ => emitBinary data
  | binaryIndefinite, _, _ => emitBinaryIndefinite
  | u8string data, _, _ => emitU8string data
  | u8stringIndefinite, _, _ => emitU8stringIndefinite
  | array numElements, _, _ => emitArray numElements
  | arrayIndefinite, _, _ => emitArrayIndefinite
  | map numElements, _, _ => emitMap numElements
  | mapIndefinite, _, _ => emitMapIndefinite
  | tag t tagValue, _, _ => emitTag t tagValue
  | boolean value, _, _ => emitBoolean value
  | floatSingle value, _, _ => emitFloatSingle value
  | floatDouble value, _, _ => emitFloatDouble value
  | null, _, _ => emitNull
  | undefined, _, _ => emitUndefined
  | close, _, _ => emitBreak

/-- What the emitters assert, and what their types hold. -/
def Permitted : EmitCall → Prop
  | integer t _ => t.EncodableInt
  | binary data | u8string data => data.length < wordLimit
  | array numElements | map numElements => numElements < wordLimit
  | tag t tagValue => t.EncodableInt ∧ (t.signed = true → tagValue.msb = false)
  | _ => True

/-- The bytes of one call. -/
def bytes : EmitCall → List UInt8
  | integer t value => Detail.varUintHead (t.category value) (t.uvalue value).toNat
  | binary data => Detail.varUintHead .binary data.length ++ data
  | binaryIndefinite => [initialByte 2 31]
  | u8string data => Detail.varUintHead .text data.length ++ data
  | u8stringIndefinite => [initialByte 3 31]
  | array numElements => Detail.varUintHead .array numElements
  | arrayIndefinite => [initialByte 4 31]
  | map numElements => Detail.varUintHead .map numElements
  | mapIndefinite => [initialByte 5 31]
  | tag _ tagValue => Detail.varUintHead .tag tagValue.toNat
  | boolean value => [initialByte 7 (20 + value.toNat)]
  | floatSingle value => initialByte 7 26 :: toBytes 4 value.toNat
  | floatDouble value => initialByte 7 27 :: toBytes 8 value.toNat
  | null => [initialByte 7 22]
  | undefined => [initialByte 7 23]
  | close => [breakByte]

theorem word_lt {t : IntType} (ht : t.EncodableInt) (value : BitVec t.width) : value.toNat < wordLimit := by
  refine value.isLt.trans_le (Nat.pow_le_pow_right (by decide) ?_)
  rcases ht with h | h | h | h <;> rw [h] <;> decide

theorem emits {C : OutputContract σ} {call : EmitCall} (h : call.Permitted) :
    Emits C (call.emit σ) call.bytes := by
  cases call with
  | integer t value => exact emits_emitInteger h value
  | binary data => exact emits_emitBinary h
  | u8string data => exact emits_emitU8string h
  | array numElements => exact emits_emitArray h
  | map numElements => exact emits_emitMap h
  | tag t tagValue =>
    refine Detail.emits_storeVarUint ?_ (tagValue.isLt.trans_le (Nat.pow_le_pow_right (by decide) ?_)) rfl
    · rw [IntType.encoderDigits]
      split
      · exact .inl rfl
      · exact .inr rfl
    · rw [IntType.encoderDigits]
      rcases h.1 with ht | ht | ht | ht <;> rw [ht] <;> decide
  | boolean value => exact (puts_emitBoolean value).emits C
  | floatSingle value => exact (puts_emitFloatSingle value).emits C
  | floatDouble value => exact (puts_emitFloatDouble value).emits C
  | binaryIndefinite | u8stringIndefinite | arrayIndefinite | mapIndefinite | null | undefined | close =>
    exact Detail.emits_storeInlineValue _ _

/-! ### The head of a call -/

/-- The head that a call puts out. -/
def head : EmitCall → ItemHead
  | integer t value =>
    ⟨t.category value, 0, (Detail.varUintHead (t.category value) (t.uvalue value).toNat).length, (t.uvalue value).toNat⟩
  | binary data => ⟨.binary, 0, (Detail.varUintHead .binary data.length).length, data.length⟩
  | binaryIndefinite => ⟨.binary, 1, 1, 31⟩
  | u8string data => ⟨.text, 0, (Detail.varUintHead .text data.length).length, data.length⟩
  | u8stringIndefinite => ⟨.text, 1, 1, 31⟩
  | array numElements => ⟨.array, 0, (Detail.varUintHead .array numElements).length, numElements⟩
  | arrayIndefinite => ⟨.array, 1, 1, 31⟩
  | map numElements => ⟨.map, 0, (Detail.varUintHead .map numElements).length, numElements⟩
  | mapIndefinite => ⟨.map, 1, 1, 31⟩
  | tag _ tagValue => ⟨.tag, 0, (Detail.varUintHead .tag tagValue.toNat).length, tagValue.toNat⟩
  | boolean value => ⟨.special, 0, 1, 20 + value.toNat⟩
  | floatSingle value => ⟨.special, 0, (initialByte 7 26 :: toBytes 4 value.toNat).length, ofBytes (toBytes 4 value.toNat)⟩
  | floatDouble value => ⟨.special, 0, (initialByte 7 27 :: toBytes 8 value.toNat).length, ofBytes (toBytes 8 value.toNat)⟩
  | null => ⟨.special, 0, 1, 22⟩
  | undefined => ⟨.special, 0, 1, 23⟩
  | close => ⟨.special, 1, 1, 31⟩

/-- The bytes behind it. -/
def content : EmitCall → List UInt8
  | binary data | u8string data => data
  | _ => []

theorem category_cases (t : IntType) (value : BitVec t.width) :
    ∃ m, (m = 0 ∨ m = 1) ∧ t.category value = .ofMajor m := by
  rw [IntType.category]
  split
  · exact ⟨1, .inr rfl, rfl⟩
  · exact ⟨0, .inl rfl, rfl⟩

/-- A head of the grammar, with some content behind it. -/
theorem headOf_content {m info v : Nat} {p : List UInt8} (hhead : Head m info v p) (hm : m < 8)
    (hgood : ¬ BadSimple m info v) (content tail : List UInt8) :
    headOf (p ++ content ++ tail) = .ok ⟨.ofMajor m, 0, p.length, v⟩ ∧
      (p ++ content ++ tail).drop p.length = content ++ tail := by
  rw [List.append_assoc, List.drop_left]
  exact ⟨hhead.headOf hm hgood _, rfl⟩

theorem headOf_varUintHead {m v : Nat} (hm : m < 7) (hv : v < wordLimit) (content tail : List UInt8) :
    headOf (Detail.varUintHead (.ofMajor m) v ++ content ++ tail) =
        .ok ⟨.ofMajor m, 0, (Detail.varUintHead (.ofMajor m) v).length, v⟩ ∧
      (Detail.varUintHead (.ofMajor m) v ++ content ++ tail).drop (Detail.varUintHead (.ofMajor m) v).length =
        content ++ tail := by
  obtain ⟨info, hhead⟩ := Detail.head_varUintHead (m := m) (by omega) hv
  exact headOf_content hhead (by omega) (ItemMachine.notBadSimple (by omega)) content tail

/-- A call puts out its head, and its content behind it. -/
theorem headOf_bytes {call : EmitCall} (h : call.Permitted) (tail : List UInt8) :
    headOf (call.bytes ++ tail) = .ok call.head ∧
      (call.bytes ++ tail).drop call.head.encodedLength = call.content ++ tail := by
  cases call with
  | integer t value =>
    obtain ⟨m, hm, hcategory⟩ := category_cases t value
    have hboth := headOf_varUintHead (m := m) (by omega) (word_lt h (t.uvalue value)) [] tail
    rw [List.append_nil, ← hcategory] at hboth
    exact hboth
  | binary data => exact headOf_varUintHead (m := 2) (by decide) h data tail
  | u8string data => exact headOf_varUintHead (m := 3) (by decide) h data tail
  | array numElements =>
    have hboth := headOf_varUintHead (m := 4) (by decide) h [] tail
    rwa [List.append_nil] at hboth
  | map numElements =>
    have hboth := headOf_varUintHead (m := 5) (by decide) h [] tail
    rwa [List.append_nil] at hboth
  | tag t tagValue =>
    have hboth := headOf_varUintHead (m := 6) (by decide) (word_lt h.1 tagValue) [] tail
    rwa [List.append_nil] at hboth
  | binaryIndefinite => exact ⟨headOf_indefinite (m := 2) (by decide) (by decide) tail, rfl⟩
  | u8stringIndefinite => exact ⟨headOf_indefinite (m := 3) (by decide) (by decide) tail, rfl⟩
  | arrayIndefinite => exact ⟨headOf_indefinite (m := 4) (by decide) (by decide) tail, rfl⟩
  | mapIndefinite => exact ⟨headOf_indefinite (m := 5) (by decide) (by decide) tail, rfl⟩
  | boolean value =>
    have hhead : Head 7 (20 + value.toNat) _ [initialByte 7 (20 + value.toNat)] := .inline (by cases value <;> decide)
    exact headOf_content hhead (by decide) (fun hbad => absurd hbad.2.1 (by cases value <;> decide)) [] tail
  | floatSingle value =>
    have hhead : Head 7 26 _ (initialByte 7 26 :: toBytes 4 value.toNat) :=
      .payload (p := 2) (by decide) (toBytes_length _ _)
    have hboth := headOf_content hhead (by decide) (fun hbad => absurd hbad.2.1 (by decide)) [] tail
    rwa [List.append_nil] at hboth
  | floatDouble value =>
    have hhead : Head 7 27 _ (initialByte 7 27 :: toBytes 8 value.toNat) :=
      .payload (p := 3) (by decide) (toBytes_length _ _)
    have hboth := headOf_content hhead (by decide) (fun hbad => absurd hbad.2.1 (by decide)) [] tail
    rwa [List.append_nil] at hboth
  | null =>
    have hhead : Head 7 22 22 [initialByte 7 22] := .inline (by decide)
    exact headOf_content hhead (by decide) (by decide) [] tail
  | undefined =>
    have hhead : Head 7 23 23 [initialByte 7 23] := .inline (by decide)
    exact headOf_content hhead (by decide) (by decide) [] tail
  | close => exact ⟨headOf_indefinite (m := 7) (by decide) (by decide) tail, rfl⟩

end EmitCall

/-- One call after the other. -/
def emitAll (calls : List EmitCall) : Emitter := fun σ _ => Action.forList (fun call => call.emit σ) calls

theorem emits_emitAll {C : OutputContract σ} {calls : List EmitCall} (h : ∀ call ∈ calls, call.Permitted) :
    Emits C (emitAll calls σ) (calls.flatMap EmitCall.bytes) :=
  OutputContract.emits_forList fun call hcall => EmitCall.emits (h call hcall)

/-! ### Nesting -/

/-- A call that puts out an item by itself. -/
def EmitCall.IsItem : EmitCall → Prop
  | integer _ _ | binary _ | u8string _ | boolean _ | floatSingle _ | floatDouble _ | null | undefined => True
  | _ => False

/-- The calls that put out one part. -/
inductive Nested : Part → List EmitCall → Prop where
  | call {call : EmitCall} : call.IsItem → Nested .item [call]
  | binaryIndefinite {calls : List EmitCall} : Nested (.chunks 2) calls → Nested .item (.binaryIndefinite :: calls)
  | u8stringIndefinite {calls : List EmitCall} : Nested (.chunks 3) calls → Nested .item (.u8stringIndefinite :: calls)
  | array {n : Nat} {calls : List EmitCall} : Nested (.items n) calls → Nested .item (.array n :: calls)
  | arrayIndefinite {calls : List EmitCall} : Nested .elements calls → Nested .item (.arrayIndefinite :: calls)
  | map {n : Nat} {calls : List EmitCall} : Nested (.items (2 * n)) calls → Nested .item (.map n :: calls)
  | mapIndefinite {calls : List EmitCall} : Nested .entries calls → Nested .item (.mapIndefinite :: calls)
  | tag {t : IntType} {tagValue : BitVec t.width} {calls : List EmitCall} : Nested .item calls →
      Nested .item (.tag t tagValue :: calls)
  | none : Nested (.items 0) []
  | more {n : Nat} {first rest : List EmitCall} : Nested .item first → Nested (.items n) rest →
      Nested (.items (n + 1)) (first ++ rest)
  | lastChunk {m : Nat} : Nested (.chunks m) [.close]
  | binaryChunk {data : List UInt8} {calls : List EmitCall} : Nested (.chunks 2) calls →
      Nested (.chunks 2) (.binary data :: calls)
  | u8stringChunk {data : List UInt8} {calls : List EmitCall} : Nested (.chunks 3) calls →
      Nested (.chunks 3) (.u8string data :: calls)
  | lastElement : Nested .elements [.close]
  | element {first rest : List EmitCall} : Nested .item first → Nested .elements rest →
      Nested .elements (first ++ rest)
  | lastEntry : Nested .entries [.close]
  | entry {key value rest : List EmitCall} : Nested .item key → Nested .item value → Nested .entries rest →
      Nested .entries (key ++ (value ++ rest))

section Nesting
variable {part : Part} {call : EmitCall} {calls front back : List EmitCall} {p rest : List UInt8}

/-- What nested calls put out is well formed. -/
theorem Nested.wellFormed (h : Nested part calls) (hpermitted : ∀ call ∈ calls, call.Permitted) :
    WellFormed part (calls.flatMap EmitCall.bytes) := by
  induction h with
  | none => exact .none
  | lastChunk => exact .lastChunk
  | lastElement => exact .lastElement
  | lastEntry => exact .lastEntry
  | @call call hitem =>
    have hcall := hpermitted call List.mem_cons_self
    rw [List.flatMap_cons, List.flatMap_nil, List.append_nil]
    cases call with
    | integer t value =>
      obtain ⟨m, hm, hcategory⟩ := EmitCall.category_cases t value
      obtain ⟨info, hhead⟩ := Detail.head_varUintHead (m := m) (by omega) (EmitCall.word_lt hcall (t.uvalue value))
      rw [EmitCall.bytes, hcategory]
      exact .int hm hhead
    | binary data =>
      obtain ⟨info, hhead⟩ := Detail.head_varUintHead (m := 2) (by decide) hcall
      exact .string (.inl rfl) hhead rfl
    | u8string data =>
      obtain ⟨info, hhead⟩ := Detail.head_varUintHead (m := 3) (by decide) hcall
      exact .string (.inr rfl) hhead rfl
    | boolean value =>
      exact .simple (.inline (by cases value <;> decide)) fun hbad => absurd hbad.1 (by cases value <;> decide)
    | floatSingle value =>
      exact .simple (.payload (p := 2) (by decide) (toBytes_length _ _)) fun hbad => absurd hbad.1 (by decide)
    | floatDouble value =>
      exact .simple (.payload (p := 3) (by decide) (toBytes_length _ _)) fun hbad => absurd hbad.1 (by decide)
    | null => exact .simple (v := 22) (.inline (by decide)) (by decide)
    | undefined => exact .simple (v := 23) (.inline (by decide)) (by decide)
    | _ => exact hitem.elim
  | binaryIndefinite _ ih => exact .stringIndefinite (.inl rfl) (ih (List.forall_mem_cons.mp hpermitted).2)
  | u8stringIndefinite _ ih => exact .stringIndefinite (.inr rfl) (ih (List.forall_mem_cons.mp hpermitted).2)
  | array _ ih =>
    obtain ⟨hcall, hcalls⟩ := List.forall_mem_cons.mp hpermitted
    obtain ⟨info, hhead⟩ := Detail.head_varUintHead (m := 4) (by decide) hcall
    exact .array hhead (ih hcalls)
  | arrayIndefinite _ ih => exact .arrayIndefinite (ih (List.forall_mem_cons.mp hpermitted).2)
  | map _ ih =>
    obtain ⟨hcall, hcalls⟩ := List.forall_mem_cons.mp hpermitted
    obtain ⟨info, hhead⟩ := Detail.head_varUintHead (m := 5) (by decide) hcall
    exact .map hhead (ih hcalls)
  | mapIndefinite _ ih => exact .mapIndefinite (ih (List.forall_mem_cons.mp hpermitted).2)
  | tag _ ih =>
    obtain ⟨hcall, hcalls⟩ := List.forall_mem_cons.mp hpermitted
    obtain ⟨info, hhead⟩ := Detail.head_varUintHead (m := 6) (by decide) (EmitCall.word_lt hcall.1 _)
    exact .tag hhead (ih hcalls)
  | more _ _ ihfirst ihrest =>
    obtain ⟨hfirst, hrest⟩ := List.forall_mem_append.mp hpermitted
    rw [List.flatMap_append]
    exact .more (ihfirst hfirst) (ihrest hrest)
  | binaryChunk _ ih =>
    obtain ⟨hcall, hcalls⟩ := List.forall_mem_cons.mp hpermitted
    obtain ⟨info, hhead⟩ := Detail.head_varUintHead (m := 2) (by decide) hcall
    rw [List.flatMap_cons, EmitCall.bytes, List.append_assoc]
    exact .chunk hhead rfl (ih hcalls)
  | u8stringChunk _ ih =>
    obtain ⟨hcall, hcalls⟩ := List.forall_mem_cons.mp hpermitted
    obtain ⟨info, hhead⟩ := Detail.head_varUintHead (m := 3) (by decide) hcall
    rw [List.flatMap_cons, EmitCall.bytes, List.append_assoc]
    exact .chunk hhead rfl (ih hcalls)
  | element _ _ ihfirst ihrest =>
    obtain ⟨hfirst, hrest⟩ := List.forall_mem_append.mp hpermitted
    rw [List.flatMap_append]
    exact .element (ihfirst hfirst) (ihrest hrest)
  | entry _ _ _ ihkey ihvalue ihrest =>
    obtain ⟨hkey, hboth⟩ := List.forall_mem_append.mp hpermitted
    obtain ⟨hvalue, hrest⟩ := List.forall_mem_append.mp hboth
    rw [List.flatMap_append, List.flatMap_append]
    exact .entry (ihkey hkey) (ihvalue hvalue) (ihrest hrest)

/-! ### Calls behind well-formed bytes -/

/-- The calls that put out a definite head of this major type and value. -/
def EmitCall.WithHead (call : EmitCall) (v : Nat) : Nat → Prop
  | 2 => ∃ data, call = .binary data ∧ data.length = v
  | 3 => ∃ data, call = .u8string data ∧ data.length = v
  | 4 => call = .array v
  | 5 => call = .map v
  | 6 => ∃ t tagValue, call = .tag t tagValue
  | _ => call.IsItem ∧ call.content = []

/-- The call that puts out the indefinite head of this major type, or the break. -/
def EmitCall.openHead : Nat → EmitCall
  | 2 => .binaryIndefinite
  | 3 => .u8stringIndefinite
  | 4 => .arrayIndefinite
  | 5 => .mapIndefinite
  | _ => .close

theorem EmitCall.type_unique {m k : Nat} {flags : UInt8} {len v : Nat} (hm : m < 8) (h : call.head = ⟨.ofMajor m, flags, len, v⟩)
    (hk : k < 8) (hcall : call.head.type = .ofMajor k) : k = m :=
  (TypeCode.ofMajor_inj hk hm).mp (hcall.symm.trans (congrArg ItemHead.type h))

theorem EmitCall.withHead {m v len : Nat} (hm : m < 8) (h : call.head = ⟨.ofMajor m, 0, len, v⟩) :
    call.WithHead v m := by
  have hmajor := fun {k : Nat} => EmitCall.type_unique (k := k) hm h
  have hflags : call.head.flags = 0 := congrArg ItemHead.flags h
  have hvalue : call.head.value = v := congrArg ItemHead.value h
  cases call with
  | integer t value =>
    obtain ⟨k, hk, hcategory⟩ := EmitCall.category_cases t value
    obtain rfl := hmajor (by omega) hcategory
    rcases hk with rfl | rfl <;> exact ⟨trivial, rfl⟩
  | binary data => exact hmajor (k := 2) (by decide) rfl ▸ ⟨data, rfl, hvalue⟩
  | u8string data => exact hmajor (k := 3) (by decide) rfl ▸ ⟨data, rfl, hvalue⟩
  | array n => exact hmajor (k := 4) (by decide) rfl ▸ congrArg _ hvalue
  | map n => exact hmajor (k := 5) (by decide) rfl ▸ congrArg _ hvalue
  | tag t tagValue => exact hmajor (k := 6) (by decide) rfl ▸ ⟨t, tagValue, rfl⟩
  | boolean _ | floatSingle _ | floatDouble _ | null | undefined =>
    exact hmajor (k := 7) (by decide) rfl ▸ ⟨trivial, rfl⟩
  | binaryIndefinite | u8stringIndefinite | arrayIndefinite | mapIndefinite | close => exact absurd hflags (by decide)

theorem EmitCall.eq_openHead {m : Nat} (hm : m < 8) (h : call.head = ⟨.ofMajor m, 1, 1, 31⟩) : call = openHead m := by
  have hmajor := fun {k : Nat} => EmitCall.type_unique (k := k) hm h
  have hflags : call.head.flags = 1 := congrArg ItemHead.flags h
  cases call with
  | binaryIndefinite => exact hmajor (k := 2) (by decide) rfl ▸ rfl
  | u8stringIndefinite => exact hmajor (k := 3) (by decide) rfl ▸ rfl
  | arrayIndefinite => exact hmajor (k := 4) (by decide) rfl ▸ rfl
  | mapIndefinite => exact hmajor (k := 5) (by decide) rfl ▸ rfl
  | close => exact hmajor (k := 7) (by decide) rfl ▸ rfl
  | _ => exact absurd (show (0 : UInt8) = 1 from hflags) (by decide)

/-- Behind bytes there is a first call. -/
theorem exists_call (hne : p ≠ []) (h : calls.flatMap EmitCall.bytes = p ++ rest) :
    ∃ call back, calls = call :: back ∧ call.bytes ++ back.flatMap EmitCall.bytes = p ++ rest := by
  cases calls with
  | nil => exact absurd (List.append_eq_nil_iff.mp h.symm).1 hne
  | cons call back => exact ⟨call, back, rfl, h⟩

/-- The call behind a definite head. -/
theorem call_of_head {m info v : Nat} (hpermitted : ∀ call ∈ calls, call.Permitted) (hm : m < 8)
    (hgood : ¬ BadSimple m info v) (hhead : Head m info v p) (h : calls.flatMap EmitCall.bytes = p ++ rest) :
    ∃ call back, calls = call :: back ∧ call.WithHead v m ∧ call.content ++ back.flatMap EmitCall.bytes = rest := by
  obtain ⟨call, back, rfl, hbytes⟩ := exists_call (List.ne_nil_of_length_pos hhead.length_pos) h
  obtain ⟨hread, hdrop⟩ := EmitCall.headOf_bytes (hpermitted call List.mem_cons_self) (back.flatMap EmitCall.bytes)
  rw [hbytes, hhead.headOf hm hgood] at hread
  have hcall := (Except.ok.inj hread).symm
  rw [hbytes, hcall, List.drop_left] at hdrop
  exact ⟨call, back, rfl, EmitCall.withHead hm hcall, hdrop.symm⟩

/-- The call behind an indefinite head or a break. -/
theorem call_of_openHead {m : Nat} (hpermitted : ∀ call ∈ calls, call.Permitted) (hm : m < 8)
    (hmay : m ≠ 0 ∧ m ≠ 1 ∧ m ≠ 6) (h : calls.flatMap EmitCall.bytes = initialByte m 31 :: rest) :
    ∃ back, calls = EmitCall.openHead m :: back ∧ (EmitCall.openHead m).content ++ back.flatMap EmitCall.bytes = rest := by
  obtain ⟨call, back, rfl, hbytes⟩ := exists_call (p := [initialByte m 31]) (List.cons_ne_nil _ _) h
  obtain ⟨hread, hdrop⟩ := EmitCall.headOf_bytes (hpermitted call List.mem_cons_self) (back.flatMap EmitCall.bytes)
  rw [hbytes, List.singleton_append, headOf_indefinite hm hmay] at hread
  have hcall := (Except.ok.inj hread).symm
  rw [hbytes, hcall] at hdrop
  obtain rfl := EmitCall.eq_openHead hm hcall
  exact ⟨back, rfl, hdrop.symm⟩

/-- Calls that put out a part and something behind it begin with calls nested as the
part asks. -/
theorem nested_of_wellFormed (hw : WellFormed part p) :
    (∀ m, part = .chunks m → m = 2 ∨ m = 3) → ∀ {calls : List EmitCall} {rest : List UInt8},
      (∀ call ∈ calls, call.Permitted) → calls.flatMap EmitCall.bytes = p ++ rest →
      ∃ front back, calls = front ++ back ∧ Nested part front ∧ back.flatMap EmitCall.bytes = rest := by
  induction hw with
  | int hm hhead =>
    intro _ calls rest hpermitted h
    obtain ⟨call, back, rfl, hcall, hrest⟩ :=
      call_of_head hpermitted (by omega) (ItemMachine.notBadSimple (by omega)) hhead h
    obtain ⟨hitem, hcontent⟩ : call.IsItem ∧ call.content = [] := by rcases hm with rfl | rfl <;> exact hcall
    rw [hcontent, List.nil_append] at hrest
    exact ⟨[call], back, rfl, .call hitem, hrest⟩
  | simple hhead hgood =>
    intro _ calls rest hpermitted h
    obtain ⟨call, back, rfl, hcall, hrest⟩ :=
      call_of_head hpermitted (by decide) (fun hbad => hgood hbad.2) hhead h
    obtain ⟨hitem, hcontent⟩ := hcall
    rw [hcontent, List.nil_append] at hrest
    exact ⟨[call], back, rfl, .call hitem, hrest⟩
  | string hm hhead hlen =>
    intro _ calls rest hpermitted h
    rw [List.append_assoc] at h
    obtain ⟨call, back, rfl, hcall, hrest⟩ :=
      call_of_head hpermitted (by omega) (ItemMachine.notBadSimple (by omega)) hhead h
    rcases hm with rfl | rfl
    · obtain ⟨data, rfl, hdata⟩ := hcall
      exact ⟨[.binary data], back, rfl, .call trivial, (List.append_inj hrest (hdata.trans hlen.symm)).2⟩
    · obtain ⟨data, rfl, hdata⟩ := hcall
      exact ⟨[.u8string data], back, rfl, .call trivial, (List.append_inj hrest (hdata.trans hlen.symm)).2⟩
  | stringIndefinite hm _ ih =>
    intro _ calls rest hpermitted h
    obtain ⟨back, rfl, hrest⟩ := call_of_openHead hpermitted (by omega) (by omega) h
    rcases hm with rfl | rfl
    · obtain ⟨front, back, rfl, hnested, hback⟩ :=
        ih (fun m hm => .inl (Part.chunks.inj hm).symm) (List.forall_mem_cons.mp hpermitted).2 hrest
      exact ⟨.binaryIndefinite :: front, back, rfl, .binaryIndefinite hnested, hback⟩
    · obtain ⟨front, back, rfl, hnested, hback⟩ :=
        ih (fun m hm => .inr (Part.chunks.inj hm).symm) (List.forall_mem_cons.mp hpermitted).2 hrest
      exact ⟨.u8stringIndefinite :: front, back, rfl, .u8stringIndefinite hnested, hback⟩
  | array hhead _ ih =>
    intro _ calls rest hpermitted h
    rw [List.append_assoc] at h
    obtain ⟨call, back, rfl, hcall, hrest⟩ :=
      call_of_head hpermitted (by decide) (ItemMachine.notBadSimple (by decide)) hhead h
    obtain rfl := hcall
    obtain ⟨front, back, rfl, hnested, hback⟩ := ih nofun (List.forall_mem_cons.mp hpermitted).2 hrest
    exact ⟨.array _ :: front, back, rfl, .array hnested, hback⟩
  | arrayIndefinite _ ih =>
    intro _ calls rest hpermitted h
    obtain ⟨back, rfl, hrest⟩ := call_of_openHead hpermitted (by decide) (by decide) h
    obtain ⟨front, back, rfl, hnested, hback⟩ := ih nofun (List.forall_mem_cons.mp hpermitted).2 hrest
    exact ⟨.arrayIndefinite :: front, back, rfl, .arrayIndefinite hnested, hback⟩
  | map hhead _ ih =>
    intro _ calls rest hpermitted h
    rw [List.append_assoc] at h
    obtain ⟨call, back, rfl, hcall, hrest⟩ :=
      call_of_head hpermitted (by decide) (ItemMachine.notBadSimple (by decide)) hhead h
    obtain rfl := hcall
    obtain ⟨front, back, rfl, hnested, hback⟩ := ih nofun (List.forall_mem_cons.mp hpermitted).2 hrest
    exact ⟨.map _ :: front, back, rfl, .map hnested, hback⟩
  | mapIndefinite _ ih =>
    intro _ calls rest hpermitted h
    obtain ⟨back, rfl, hrest⟩ := call_of_openHead hpermitted (by decide) (by decide) h
    obtain ⟨front, back, rfl, hnested, hback⟩ := ih nofun (List.forall_mem_cons.mp hpermitted).2 hrest
    exact ⟨.mapIndefinite :: front, back, rfl, .mapIndefinite hnested, hback⟩
  | tag hhead _ ih =>
    intro _ calls rest hpermitted h
    rw [List.append_assoc] at h
    obtain ⟨call, back, rfl, hcall, hrest⟩ :=
      call_of_head hpermitted (by decide) (ItemMachine.notBadSimple (by decide)) hhead h
    obtain ⟨t, tagValue, rfl⟩ := hcall
    obtain ⟨front, back, rfl, hnested, hback⟩ := ih nofun (List.forall_mem_cons.mp hpermitted).2 hrest
    exact ⟨.tag t tagValue :: front, back, rfl, .tag hnested, hback⟩
  | none => exact fun _ {calls _} _ h => ⟨[], calls, rfl, .none, h⟩
  | more _ _ ihfirst ihrest =>
    intro _ calls rest hpermitted h
    rw [List.append_assoc] at h
    obtain ⟨first, back, rfl, hfirst, hrest⟩ := ihfirst nofun hpermitted h
    obtain ⟨front, back, rfl, hfront, hback⟩ := ihrest nofun (List.forall_mem_append.mp hpermitted).2 hrest
    exact ⟨first ++ front, back, (List.append_assoc _ _ _).symm, .more hfirst hfront, hback⟩
  | lastChunk =>
    intro _ calls rest hpermitted h
    obtain ⟨back, rfl, hrest⟩ := call_of_openHead (m := 7) hpermitted (by decide) (by decide) h
    exact ⟨[.close], back, rfl, .lastChunk, hrest⟩
  | chunk hhead hlen _ ih =>
    intro hpart calls rest hpermitted h
    have hm := hpart _ rfl
    rw [List.append_assoc, List.append_assoc] at h
    obtain ⟨call, back, rfl, hcall, hrest⟩ :=
      call_of_head hpermitted (by omega) (ItemMachine.notBadSimple (by omega)) hhead h
    have hback := (List.forall_mem_cons.mp hpermitted).2
    rcases hm with rfl | rfl
    · obtain ⟨data, rfl, hdata⟩ := hcall
      obtain ⟨front, back, rfl, hnested, hback⟩ := ih hpart hback (List.append_inj hrest (hdata.trans hlen.symm)).2
      exact ⟨.binary data :: front, back, rfl, .binaryChunk hnested, hback⟩
    · obtain ⟨data, rfl, hdata⟩ := hcall
      obtain ⟨front, back, rfl, hnested, hback⟩ := ih hpart hback (List.append_inj hrest (hdata.trans hlen.symm)).2
      exact ⟨.u8string data :: front, back, rfl, .u8stringChunk hnested, hback⟩
  | lastElement =>
    intro _ calls rest hpermitted h
    obtain ⟨back, rfl, hrest⟩ := call_of_openHead (m := 7) hpermitted (by decide) (by decide) h
    exact ⟨[.close], back, rfl, .lastElement, hrest⟩
  | element _ _ ihfirst ihrest =>
    intro _ calls rest hpermitted h
    rw [List.append_assoc] at h
    obtain ⟨first, back, rfl, hfirst, hrest⟩ := ihfirst nofun hpermitted h
    obtain ⟨front, back, rfl, hfront, hback⟩ := ihrest nofun (List.forall_mem_append.mp hpermitted).2 hrest
    exact ⟨first ++ front, back, (List.append_assoc _ _ _).symm, .element hfirst hfront, hback⟩
  | lastEntry =>
    intro _ calls rest hpermitted h
    obtain ⟨back, rfl, hrest⟩ := call_of_openHead (m := 7) hpermitted (by decide) (by decide) h
    exact ⟨[.close], back, rfl, .lastEntry, hrest⟩
  | entry _ _ _ ihkey ihvalue ihrest =>
    intro _ calls rest hpermitted h
    rw [List.append_assoc, List.append_assoc] at h
    obtain ⟨key, back, rfl, hkey, hrest⟩ := ihkey nofun hpermitted h
    have hpermitted := (List.forall_mem_append.mp hpermitted).2
    obtain ⟨value, back, rfl, hvalue, hrest⟩ := ihvalue nofun hpermitted hrest
    obtain ⟨front, back, rfl, hfront, hback⟩ := ihrest nofun (List.forall_mem_append.mp hpermitted).2 hrest
    refine ⟨key ++ (value ++ front), back, ?_, .entry hkey hvalue hfront, hback⟩
    rw [List.append_assoc, List.append_assoc]

/-- Every call puts out a byte at least. -/
theorem eq_nil_of_bytes (hpermitted : ∀ call ∈ calls, call.Permitted) (h : calls.flatMap EmitCall.bytes = []) :
    calls = [] := by
  cases calls with
  | nil => rfl
  | cons call back =>
    have hread := (EmitCall.headOf_bytes (hpermitted call List.mem_cons_self) []).1
    rw [(List.append_eq_nil_iff.mp h).1] at hread
    cases hread

end Nesting

/-- Emitters called one after the other put out their bytes on every output, as far as these
fit. `skip_item` takes exactly these bytes, whatever stands behind them, if and only if the
calls are nested. -/
theorem emitAll_nested (calls : List EmitCall) (hpermitted : ∀ call ∈ calls, call.Permitted) :
    (∀ (σ : Type) [OutputStream σ] (C : OutputContract σ),
      Emits C (emitAll calls σ) (calls.flatMap EmitCall.bytes)) ∧
    ∀ rest : List UInt8, (calls.flatMap EmitCall.bytes ++ rest).length < wordLimit →
      (Action.Returns skipItem (memoryInput (calls.flatMap EmitCall.bytes ++ rest)) (.ok (), memoryInput rest) ↔
        Nested .item calls) := by
  refine ⟨fun σ _ C => emits_emitAll hpermitted, fun rest hfits => ?_⟩
  rw [skipItem_accepts ⟨_, hfits⟩]
  constructor
  · intro h
    obtain ⟨p, tail, hp, hw, hs⟩ := h
    obtain rfl : rest = tail := congrArg InputBuffer.buffer hs
    have hbytes : calls.flatMap EmitCall.bytes = p ++ [] := by
      rw [List.append_nil]
      exact List.append_cancel_right hp
    obtain ⟨front, back, rfl, hnested, hback⟩ := nested_of_wellFormed hw nofun hpermitted hbytes
    rw [eq_nil_of_bytes (List.forall_mem_append.mp hpermitted).2 hback, List.append_nil]
    exact hnested
  · intro h
    exact ⟨_, rest, rfl, h.wellFormed hpermitted, rfl⟩

/-- An indefinite array of a boolean and a map, in front of another item. -/
theorem emitAll_nested_array :
    Action.Returns skipItem (memoryInput [0x9f, 0xf5, 0xa1, 0xf6, 0x61, 0x61, 0xff, 0x20])
      (.ok (), memoryInput [0x20]) := by
  have hpermitted : ∀ call ∈ [.arrayIndefinite, .boolean true, .map 1, .null, .u8string [0x61], .close],
      EmitCall.Permitted call := by
    simp [EmitCall.Permitted, wordLimit]
  have hboolean : Nested .item [.boolean true] := .call trivial
  have hnull : Nested .item [.null] := .call trivial
  have hstring : Nested .item [.u8string [0x61]] := .call trivial
  have hmap : Nested .item [.map 1, .null, .u8string [0x61]] := .map (hnull.more (hstring.more .none))
  have harray := Nested.arrayIndefinite (hboolean.element (hmap.element .lastElement))
  exact ((emitAll_nested _ hpermitted).2 [0x20] (by decide)).mpr harray

end DeepPack
