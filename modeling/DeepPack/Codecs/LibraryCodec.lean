import DeepPack.Codecs.Keeping

/-! The types the library encodes and decodes, and what decoding them comes to.

`LibraryCodec` is how encoders and decoders are built side by side where the containers
are ordered by strict weak orders and arrays fit in the memory. Its leaves are a
parameter: some results hold for more of them than others. -/
namespace DeepPack
open Library

/-- The codecs of single values, and the strings in an array of their own. -/
inductive FixedLeaf : {α : Type} → Encoder α → Decoder α → Prop where
  | leaf {α : Type} {c : Encoder α} {d : Decoder α} : LibraryLeaf c d → FixedLeaf c d
  | fixedU8string {capacity : Nat} : capacity < 2 ^ 32 →
      FixedLeaf (fixedU8stringEncoder capacity) (fixedU8stringDecoder capacity)

/-- The codecs built from such leaves, with arrays among them or not. -/
abbrev LibraryCodec (leaf : ∀ {α : Type}, Encoder α → Decoder α → Prop) (arrays : Prop) {α : Type} (c : Encoder α)
    (d : Decoder α) : Prop :=
  BuiltFrom leaf (fun {κ} lt => IsStrictWeakOrder κ fun a b => lt a b = true) (fun n => arrays ∧ n < wordLimit) c d

variable {α : Type} {c : Encoder α} {d : Decoder α} {leaf : ∀ {α : Type}, Encoder α → Decoder α → Prop}
  {arrays : Prop}

/-- More leaves are the leaves of more codecs. -/
theorem LibraryCodec.withLeaves {leaf' : ∀ {α : Type}, Encoder α → Decoder α → Prop}
    (hleaf : ∀ {α : Type} {c : Encoder α} {d : Decoder α}, leaf c d → leaf' c d) (h : LibraryCodec leaf arrays c d) :
    LibraryCodec leaf' arrays c d := h.mono hleaf (fun hlt => hlt) fun _ hn => hn

/-! ### Buffering -/

theorem LibraryLeaf.independent (h : LibraryLeaf c d) : d.Independent := by
  cases h with
  | bool => exact (StringLeaf.leaf .bool).independent
  | integer ht => exact (StringLeaf.leaf (.integer ht)).independent
  | float => exact (StringLeaf.leaf .float).independent
  | double => exact (StringLeaf.leaf .double).independent
  | string => exact independent_string
  | blob => exact independent_blob
  | byteArray _ => exact independent_byteArray _
  | enum ht _ => exact Decoder.Independent.via (Leaf.integer ht).independent _
  | duration ht _ => exact Decoder.Independent.via (Leaf.integer ht).independent _
  | path _ _ => exact independent_string.via _
  | uuid _ => exact independent_uuid _

theorem FixedLeaf.independent (h : FixedLeaf c d) : d.Independent := by
  cases h with
  | leaf h => exact h.independent
  | fixedU8string _ => exact independent_fixedU8string _

/-- A decoder is built from decoders. -/
theorem BuiltFrom.decodable {sorted : ∀ {κ : Type}, (κ → κ → Bool) → Prop} {sized : Nat → Prop}
    (leaf' : ∀ {α : Type}, Decoder α → Prop)
    (hleaf : ∀ {α : Type} {c : Encoder α} {d : Decoder α}, leaf c d → leaf' d)
    (hname : ∀ capacity, leaf' (fixedU8stringDecoder capacity)) (h : BuiltFrom leaf sorted sized c d) :
    Decodable leaf' d := by
  induction h with
  | leaf h => exact .leaf (hleaf h)
  | vector _ ih => exact .vector ih
  | set lt _ _ ih => exact .set lt ih
  | map lt _ _ _ ihk ihd => exact .map lt ihk ihd
  | array n _ _ ih => exact .array n ih
  | tuple _ _ ih => exact .tuple ih
  | packableTuple version _ _ ih => exact .packableTuple version ih
  | object _ _ _ _ _ _ ihkey ih => exact .object _ _ ihkey ih
  | namedObject _ _ _ _ _ _ ih => exact .object _ _ (.leaf (hname _)) ih
  | unsignedObject _ _ _ _ ih => exact .unsignedObject _ ih

theorem LibraryCodec.independent (hleaf : ∀ {α : Type} {c : Encoder α} {d : Decoder α}, leaf c d → d.Independent)
    (h : LibraryCodec leaf arrays c d) : d.Independent :=
  (h.decodable Decoder.Independent hleaf independent_fixedU8string).independent fun h => h

/-! ### Keeping -/

theorem LibraryLeaf.keeps {G : Fault → Prop} (hG : ReturnsErrors G) (h : LibraryLeaf c d) : d.Keeps G c.IsValue := by
  have hinteger : ∀ t, (integerDecoder t).Keeps G (integerEncoder t).IsValue := fun t =>
    ⟨trivial, fun _ _ => keeps_parseInteger hG t⟩
  cases h with
  | bool => exact ⟨trivial, fun _ _ => keeps_parseBoolean hG⟩
  | integer _ => exact hinteger _
  | float => exact ⟨trivial, fun _ _ => keeps_parseFloatingPoint hG .single⟩
  | double => exact ⟨trivial, fun _ _ => keeps_parseFloatingPoint hG .double⟩
  | string => exact keeps_string hG
  | blob => exact keeps_blob hG
  | byteArray hn => exact keeps_byteArray hG hn
  | enum _ _ => exact (hinteger _).via fun _ _ => trivial
  | duration _ _ => exact (hinteger _).via fun _ _ => trivial
  | path _ hlen => exact (keeps_string hG).via fun _ _ => hlen _
  | uuid _ => exact keeps_uuid hG _

theorem FixedLeaf.keeps {G : Fault → Prop} (hG : ReturnsErrors G) (h : FixedLeaf c d) : d.Keeps G c.IsValue := by
  cases h with
  | leaf h => exact h.keeps hG
  | fixedU8string hcapacity => exact keeps_fixedU8string hG hcapacity

theorem LibraryCodec.keeps {G : Fault → Prop} (hG : ReturnsErrors G) (hout : arrays → G .outOfBounds)
    (hleaf : ∀ {α : Type} {c : Encoder α} {d : Decoder α}, leaf c d → d.Keeps G c.IsValue)
    (h : LibraryCodec leaf arrays c d) : d.Keeps G c.IsValue := by
  induction h with
  | leaf h => exact hleaf h
  | vector _ ih => exact keeps_vector hG ih
  | set _ horder _ ih => exact keeps_set hG ih
  | map _ horder _ _ ihk ihc => exact keeps_map hG ihk ihc
  | array _ hn _ ih => exact keeps_array hG (hout hn.1) hn.2 ih
  | tuple _ _ ih => exact keeps_tuple hG ih
  | packableTuple version _ _ ih => exact keeps_packableTuple hG version ih
  | object _ _ _ _ _ _ ihkey ih => exact keeps_object hG _ _ ihkey ih
  | namedObject _ _ _ hcapacity _ _ ih => exact keeps_object hG _ _ (keeps_fixedU8string hG hcapacity) ih
  | unsignedObject _ _ _ _ ih => exact keeps_unsignedObject hG _ ih

/-! ### Decoding anything -/

section Anything
variable {σ τ : Type} [InputStream σ] [OutputStream τ] {C : InputContract σ} {s t : InputBuffer σ} {v w : α}

/-- What a decoder keeps, whatever the input and the outcome. -/
theorem LibraryCodec.kept (h : LibraryCodec FixedLeaf arrays c d) (C : InputContract σ) (hs : C.Valid s) (hv : c.IsValue v)
    {r : Except Fault Unit} (hrun : d.decode σ (s, v) = (r, (t, w))) :
    (∀ f, r = .error f → IsErrc f ∨ arrays ∧ f = .outOfBounds) ∧
      (C.Valid t ∧ C.unread t <:+ C.unread s) ∧ c.IsValue w := by
  have hG : ReturnsErrors fun f => IsErrc f ∨ arrays ∧ f = .outOfBounds := fun e => .inl ⟨e, rfl⟩
  have hkeeps := (h.keeps hG (fun harrays => .inr ⟨harrays, rfl⟩) (FixedLeaf.keeps hG)).decode C (C.unread s)
  have hstart : Action.Both (Ahead C (C.unread s)) c.IsValue (s, v) := ⟨⟨hs, List.suffix_refl _⟩, hv⟩
  cases r with
  | ok _ => exact ⟨nofun, hkeeps.ok hstart hrun⟩
  | error f =>
    have herror := hkeeps.error hstart hrun
    refine ⟨fun _ heq => ?_, herror.1.2, herror.2⟩
    cases heq
    exact herror.1.1

/-- Whatever the input, decoding ends: it succeeds or returns an error code, or an array is left at its end. The
input has moved on and can be read further. -/
theorem decode_ends (h : LibraryCodec FixedLeaf arrays c d) (C : InputContract σ) (hs : C.Valid s) (hv : c.IsValue v)
    {r : Except Fault Unit} (hrun : d.decode σ (s, v) = (r, (t, w))) :
    (∀ f, r = .error f → IsErrc f ∨ arrays ∧ f = .outOfBounds) ∧ C.Valid t ∧ C.unread t <:+ C.unread s :=
  ⟨(h.kept C hs hv hrun).1, (h.kept C hs hv hrun).2.1⟩

/-- Two strings are announced, and the second is cut off. -/
theorem decode_ends_truncated :
    let run := (vectorDecoder stringDecoder).decode MemoryInputStream (memoryInput [0x82, 0x61, 0x41, 0x62, 0x42], [])
    (∀ f, run.1 = .error f → IsErrc f ∨ False ∧ f = .outOfBounds) ∧ MemoryInputStream.contract.Valid run.2.1 ∧
      MemoryInputStream.contract.unread run.2.1 <:+ [0x82, 0x61, 0x41, 0x62, 0x42] := by
  intro run
  have h : LibraryCodec FixedLeaf False (rangeEncoder 64 stringEncoder) (vectorDecoder stringDecoder) :=
    .vector (.leaf (.leaf .string))
  have hvalid := MemoryInputStream.valid_memory (b := [0x82, 0x61, 0x41, 0x62, 0x42]) (by decide)
  have hvalue : (rangeEncoder 64 stringEncoder).IsValue [] := ⟨Nat.two_pow_pos 64, nofun⟩
  exact decode_ends h MemoryInputStream.contract hvalid hvalue (r := run.1) (t := run.2.1) (w := run.2.2) rfl

/-- Whatever the input and the outcome, the destination is a value of its type again, unless an array was written
beyond its end: what stands behind it is a member of something else. -/
theorem decode_isValue (h : LibraryCodec FixedLeaf arrays c d) (C : InputContract σ) (hs : C.Valid s) (hv : c.IsValue v)
    {r : Except Fault Unit} (hrun : d.decode σ (s, v) = (r, (t, w))) (_ : r ≠ .error .outOfBounds) : c.IsValue w :=
  (h.kept C hs hv hrun).2.2

/-! ### Decoding what was encoded -/

/-- An encoding is decoded to its value from any input it is at the front of. -/
theorem LibraryCodec.decodes (h : LibraryCodec LibraryLeaf arrays c d) (C : InputContract σ) (hs : C.Valid s)
    (hw : c.IsValue w) {rest : List UInt8} (hunread : C.unread s = c.bytes w ++ rest) (v : α) :
    ∃ t, d.decode σ (s, v) = (.ok (), (t, w)) ∧ C.Valid t ∧ C.unread t = rest := by
  have hlen : (c.bytes w ++ rest).length < wordLimit := hunread ▸ C.inputSize_lt hs
  have hmemory : d.decode MemoryInputStream (memoryInput (c.bytes w ++ rest), v) = (.ok (), (memoryInput rest, w)) :=
    h.restores w hw v rest (Nat.zero_le _) hlen
  have hsame : C.unread s = MemoryInputStream.contract.unread (memoryInput (c.bytes w ++ rest)) := hunread
  obtain ⟨hr, hok, -⟩ := h.independent LibraryLeaf.independent C MemoryInputStream.contract (s, v)
    (memoryInput (c.bytes w ++ rest), v) ⟨⟨hs, MemoryInputStream.valid_memory hlen, hsame⟩, rfl⟩
  rw [hmemory] at hr hok
  obtain ⟨⟨hvt, -, hut⟩, hval⟩ := hok () hr
  refine ⟨(d.decode σ (s, v)).2.1, ?_, hvt, hut⟩
  exact Prod.ext hr (Prod.ext rfl hval)

/-- What was decoded, from whatever encoding, can be encoded on any stream with room for it, and is decoded to the
same again from any input that is given these bytes. -/
theorem decode_encode_decode (h : LibraryCodec LibraryLeaf arrays c d) (C : InputContract σ) (hs : C.Valid s)
    (hv : c.IsValue v) (hrun : d.decode σ (s, v) = (.ok (), (t, w))) (E : OutputContract τ) {o : OutputBuffer τ}
    {out : List UInt8} (ho : E.Holds o out) (hfits : E.limit.Fits (out.length + (c.bytes w).length)) :
    ∃ o', c.encode w τ o = (.ok (), o') ∧ E.Holds o' (out ++ c.bytes w) ∧
      ∀ {υ : Type} [InputStream υ] (F : InputContract υ) {i : InputBuffer υ} {rest : List UInt8}, F.Valid i →
        F.unread i = c.bytes w ++ rest → ∀ x, ∃ i', d.decode υ (i, x) = (.ok (), (i', w)) ∧ F.Valid i' ∧
          F.unread i' = rest := by
  have hw : c.IsValue w := ((h.withLeaves .leaf).kept C hs hv hrun).2.2
  obtain ⟨o', ho', hout⟩ := (((h.encodable LibraryLeaf.encodable).puts ⟨w, hw⟩).emits E o out ho).1 hfits
  exact ⟨o', ho', hout, fun F _ _ hi hunread x => h.decodes F hi hw hunread x⟩

end Anything

/-! ### Bytes as keys -/

theorem bitVec_order (w : Nat) : IsStrictWeakOrder (BitVec w) fun a b => decide (a < b) = true where
  irrefl a h := BitVec.lt_irrefl a (of_decide_eq_true h)
  trans a b c hab hbc := decide_eq_true (BitVec.lt_trans (of_decide_eq_true hab) (of_decide_eq_true hbc))
  incomp_trans a b c hab hbc := by
    simp only [decide_eq_true_iff, BitVec.lt_def] at hab hbc ⊢
    omega

/-- The sets of bytes. -/
theorem byteSet {leaf : ∀ {α : Type}, Encoder α → Decoder α → Prop} {arrays : Prop}
    (h : leaf (integerEncoder ⟨8, false⟩) (integerDecoder ⟨8, false⟩)) :
    LibraryCodec leaf arrays (setEncoder (fun a b : BitVec 8 => decide (a < b)) (integerEncoder ⟨8, false⟩))
      (setDecoder (fun a b : BitVec 8 => decide (a < b)) (integerDecoder ⟨8, false⟩)) := .set _ (bitVec_order 8) (.leaf h)

/-- The keys 5 and 1 and the beginning of a third: those that were there are left in order. -/
theorem decode_isValue_set :
    let run := (setDecoder (fun a b : BitVec 8 => decide (a < b)) (integerDecoder ⟨8, false⟩)).decode MemoryInputStream
      (memoryInput [0x83, 0x05, 0x01, 0x18], [7])
    (setEncoder (fun a b : BitVec 8 => decide (a < b)) (integerEncoder ⟨8, false⟩)).IsValue run.2.2 := by
  intro run
  have hvalid := MemoryInputStream.valid_memory (b := [0x83, 0x05, 0x01, 0x18]) (by decide)
  have hvalue : (setEncoder (fun a b : BitVec 8 => decide (a < b)) (integerEncoder ⟨8, false⟩)).IsValue [7] :=
    ⟨⟨by decide, fun _ _ => trivial⟩, List.pairwise_singleton _ _⟩
  have hset : LibraryCodec FixedLeaf False (setEncoder (fun a b : BitVec 8 => decide (a < b)) _) _ :=
    byteSet (.leaf (.integer (.inl rfl)))
  exact decode_isValue hset MemoryInputStream.contract hvalid hvalue (r := run.1) (t := run.2.1) rfl (by decide +kernel)

/-- What a run that succeeds is. -/
theorem run_eq_ok {ρ α : Type} {run : Except Fault Unit × ρ × α} {w : α} (hok : run.1 = .ok ()) (hvalue : run.2.2 = w) :
    run = (.ok (), (run.2.1, w)) := Prod.ext hok (Prod.ext rfl hvalue)

/-- The keys 5 and 1, of an indefinite array and with a long head: as a set they are encoded in order. -/
theorem decode_encode_decode_set :
    ∃ o', (setEncoder (fun a b : BitVec 8 => decide (a < b)) (integerEncoder ⟨8, false⟩)).encode [1, 5] EndlessStream
        EndlessStream.fresh = (.ok (), o') ∧ EndlessStream.output o' = [0x82, 0x01, 0x05] ∧
      ∀ x, ∃ i', (setDecoder (fun a b : BitVec 8 => decide (a < b)) (integerDecoder ⟨8, false⟩)).decode MemoryInputStream
        (memoryInput [0x82, 0x01, 0x05], x) = (.ok (), (i', [1, 5])) := by
  have hvalid := MemoryInputStream.valid_memory (b := [0x9f, 0x18, 0x05, 0x01, 0xff]) (by decide)
  have hvalue : (setEncoder (fun a b : BitVec 8 => decide (a < b)) (integerEncoder ⟨8, false⟩)).IsValue [] :=
    ⟨⟨Nat.two_pow_pos 64, nofun⟩, .nil⟩
  obtain ⟨t, hrun⟩ : ∃ t, (setDecoder (fun a b : BitVec 8 => decide (a < b)) (integerDecoder ⟨8, false⟩)).decode
      MemoryInputStream (memoryInput [0x9f, 0x18, 0x05, 0x01, 0xff], []) = (.ok (), (t, [1, 5])) :=
    ⟨_, run_eq_ok (by decide +kernel) (by decide +kernel)⟩
  have hbytes : (setEncoder (fun a b : BitVec 8 => decide (a < b)) (integerEncoder ⟨8, false⟩)).bytes [1, 5] =
      [0x82, 0x01, 0x05] := by
    decide
  have hempty : EndlessStream.documented.contract.Holds EndlessStream.fresh [] := ⟨trivial, rfl⟩
  have hbyteSet : LibraryCodec LibraryLeaf False (setEncoder (fun a b : BitVec 8 => decide (a < b)) _) _ :=
    byteSet (.integer (.inl rfl))
  obtain ⟨o', ho', hout, hagain⟩ := decode_encode_decode hbyteSet
    MemoryInputStream.contract hvalid hvalue hrun EndlessStream.documented.contract hempty (Limit.fits_none _)
  rw [hbytes] at hout hagain
  refine ⟨o', ho', hout.2, fun x => ?_⟩
  have hinput := MemoryInputStream.valid_memory (b := [0x82, 0x01, 0x05]) (by decide)
  have hunread : MemoryInputStream.contract.unread (memoryInput [0x82, 0x01, 0x05]) = [0x82, 0x01, 0x05] ++ [] := rfl
  obtain ⟨i', hi', -⟩ := hagain MemoryInputStream.contract hinput hunread x
  exact ⟨i', hi'⟩

end DeepPack
