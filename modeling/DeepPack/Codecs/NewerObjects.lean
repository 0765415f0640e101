import DeepPack.Codecs.Compatibility
import DeepPack.Codecs.PropertyDispatch

/-! What a decoder of objects makes of what a newer one wrote.

Nothing is skipped: an object of another version is refused before any of its members is
touched, and one with a property the reader does not know is refused at that property, or
at once if the number of properties tells. -/
namespace DeepPack
open Library

variable {α γ δ : Type}

/-- Whatever follows the bytes, the parser fails with the error and leaves `d'` in the destination. -/
def ParseFails (x : Parse MemoryInputStream δ α) (p : List UInt8) (e : Errc) (d d' : δ) : Prop :=
  ∀ rest, (p ++ rest).length < wordLimit → ∃ t, x (memoryInput (p ++ rest), d) = (.error (.errc e), (t, d'))

section Rules
variable {x : Parse MemoryInputStream δ α} {f : α → Parse MemoryInputStream δ γ} {p q : List UInt8} {e : Errc} {a : α}
  {d d' d'' : δ}

theorem fails_err : ParseFails (err e : Parse MemoryInputStream δ α) [] e d d := fun _ _ => ⟨_, rfl⟩

/-- What comes after a failure is not parsed. -/
theorem ParseFails.before (h : ParseFails x p e d d') (f : α → Parse MemoryInputStream δ γ) : ParseFails (x >>= f) p e d d' := by
  intro rest hlen
  obtain ⟨t, ht⟩ := h rest hlen
  exact ⟨t, Action.bind_error f ht⟩

theorem ParseFails.append (h : ParseFails x p e d d') (q : List UInt8) : ParseFails x (p ++ q) e d d' := by
  intro rest hlen
  rw [List.append_assoc] at hlen ⊢
  exact h (q ++ rest) hlen

theorem fails_bindAhead {need : Nat} (hx : Action.TakesAhead wordLimit (Action.placeFst memoryInput) need x p a d d')
    (hf : ParseFails (f a) q e d' d'') (hneed : need ≤ q.length) : ParseFails (x >>= f) (p ++ q) e d d'' := by
  intro rest hlen
  rw [List.append_assoc] at hlen ⊢
  have hrest : (q ++ rest).length < wordLimit := by
    rw [List.length_append] at hlen
    omega
  obtain ⟨t, ht⟩ := hf rest hrest
  refine ⟨t, (Action.bind_ok f (hx (q ++ rest) ?_ hlen)).trans ht⟩
  rw [List.length_append]
  omega

theorem fails_bind (hx : ParseTakes x p a d d') (hf : ParseFails (f a) q e d' d'') : ParseFails (x >>= f) (p ++ q) e d d'' :=
  fails_bindAhead hx hf (Nat.zero_le _)

end Rules

/-! ### The loops over the properties -/

section Loops
variable {m : Nat} {ε : Fin m → Type} {τ : Type} {property : Parse MemoryInputStream (∀ j, ε j) Nat}
  {word : τ → List UInt8} {place : τ → Nat} {upd : τ → (∀ j, ε j) → ∀ j, ε j} {bad : List UInt8}

theorem fails_foundProperties (h : ∀ i w, ParseTakes property (word i) (place i) w (upd i w))
    (hbad : ∀ w, ParseFails property bad .unknownProperty w w) (l : List τ) (more : Nat) (found : List (BitVec 64))
    (w : ∀ j, ε j) :
    ParseFails (decodeFoundProperties property (l.length + (more + 1)) found) (l.flatMap word ++ bad) .unknownProperty w
      (l.foldl (fun w i => upd i w) w) := by
  induction l generalizing found w with
  | nil =>
    rw [List.length_nil, Nat.zero_add]
    exact (hbad w).before _
  | cons i l ih =>
    rw [List.length_cons, Nat.add_right_comm, List.flatMap_cons, List.append_assoc]
    exact fails_bind (h i w) (ih _ _)

theorem fails_forRange (h : ∀ i w, ParseTakes property (word i) (place i) w (upd i w))
    (hbad : ∀ w, ParseFails property bad .unknownProperty w w) (l : List τ) (more i : Nat) (w : ∀ j, ε j) :
    ParseFails (Action.forRange (fun _ => do let _ ← property) i (l.length + (more + 1))) (l.flatMap word ++ bad)
      .unknownProperty w (l.foldl (fun w i => upd i w) w) := by
  induction l generalizing i w with
  | nil =>
    rw [List.length_nil, Nat.zero_add]
    exact ((hbad w).before _).before _
  | cons a l ih =>
    rw [List.length_cons, Nat.add_right_comm, List.flatMap_cons, List.append_assoc]
    exact fails_bind ((h a w).after (Action.takes_pure ())) (ih _ _)

end Loops

/-! ### The first property that is not known -/

/-- The members before `k`, `k`, and those after it. -/
theorem finRange_eq {n : Nat} (k : Fin n) :
    List.finRange n = (List.finRange k.val).map (Fin.castLE k.isLt.le) ++ k :: (List.finRange n).drop (k.val + 1) := by
  have hbefore : (List.finRange n).take k.val = (List.finRange k.val).map (Fin.castLE k.isLt.le) := by
    refine List.ext_getElem (by simp) fun i hi hi' => ?_
    simp
  have hat : (List.finRange n).drop k.val = k :: (List.finRange n).drop (k.val + 1) := by
    rw [List.drop_eq_getElem_cons (by rw [List.length_finRange]; exact k.isLt), List.getElem_finRange]
    rfl
  rw [← hbefore, ← hat, List.take_append_drop]

section Newer
variable {n m w : Nat} {δ : Fin n → Type} {ε : Fin m → Type} {D : ObjectDef (BitVec w) n} {D' : ObjectDef (BitVec w) m}
  {c : ∀ i, Encoder (δ i)} {d : ∀ j, Decoder (ε j)} {k : Fin n} {e : Fin k.val → Fin m}
  {f : ∀ i : Fin k.val, δ (i.castLE k.isLt.le) → ε (e i) → ε (e i)} {v : ∀ i, δ i}

/-- An id that is not the reader's. -/
theorem fails_unknown (ht : IntType.EncodableInt ⟨w, false⟩) {id : BitVec w} (hunknown : ∀ j, D'.ids j ≠ id) (x : ∀ j, ε j) :
    ParseFails (Detail.decodeUnsignedObjectProperty D' d) ((integerEncoder ⟨w, false⟩).bytes id) .unknownProperty x x := by
  have hread : InputTakes (readUnsignedId w) ((integerEncoder ⟨w, false⟩).bytes id) id :=
    (restores_integer ht).asValue trivial
  rw [← List.append_nil ((integerEncoder ⟨w, false⟩).bytes id)]
  refine fails_bind (hread.onFst x) ?_
  rw [Detail.unsignedIdLookup_eq_none fun hmem => by
    obtain ⟨j, hj⟩ := List.mem_ofFn.mp hmem
    exact hunknown j hj]
  exact fails_err

theorem takes_known (ht : IntType.EncodableInt ⟨w, false⟩) (hasc : ∀ i j, i < j → D'.ids i < D'.ids j)
    (hsame : ∀ i, D'.ids (e i) = D.ids (i.castLE k.isLt.le))
    (h : ∀ i, Evolves (c (i.castLE k.isLt.le)) (d (e i)) (f i)) (hv : ∀ i, (c i).IsValue (v i)) (i : Fin k.val)
    (x : ∀ j, ε j) :
    ParseTakes (Detail.decodeUnsignedObjectProperty D' d)
      ((integerEncoder ⟨w, false⟩).bytes (D.ids (i.castLE k.isLt.le)) ++ (c (i.castLE k.isLt.le)).bytes (v (i.castLE k.isLt.le)))
      (e i).val x (Function.update x (e i) (f i (v (i.castLE k.isLt.le)) (x (e i)))) := by
  have hread : InputTakes (readUnsignedId w) ((integerEncoder ⟨w, false⟩).bytes (D'.ids (e i))) (D'.ids (e i)) :=
    (restores_integer ht).asValue trivial
  rw [hsame] at hread
  refine (hread.onFst x).bind ?_
  rw [← hsame, unsignedIdLookup_ofFn hasc, Detail.decodePropByIndex_of_lt d (e i).isLt]
  exact Action.TakesAhead.after (Action.TakesAhead.within ((h i).reads _ (hv _) (x (e i)))) (Action.takes_pure _)

theorem propertyBytes_eq {key : Encoder (BitVec w)} :
    ∃ rest, propertyBytes D key c v = ((List.finRange k.val).flatMap fun i => key.bytes (D.ids (i.castLE k.isLt.le)) ++
      (c (i.castLE k.isLt.le)).bytes (v (i.castLE k.isLt.le))) ++ key.bytes (D.ids k) ++ rest := by
  refine ⟨(c k).bytes (v k) ++ ((List.finRange n).drop (k.val + 1)).flatMap fun i => key.bytes (D.ids i) ++ (c i).bytes (v i), ?_⟩
  conv_lhs => rw [propertyBytes, finRange_eq k]
  rw [List.flatMap_append, List.flatMap_map, List.flatMap_cons, List.append_assoc, List.append_assoc]

theorem fails_objectProperties (ht : IntType.EncodableInt ⟨w, false⟩) (hasc : ∀ i j, i < j → D'.ids i < D'.ids j)
    (hsame : ∀ i, D'.ids (e i) = D.ids (i.castLE k.isLt.le))
    (h : ∀ i, Evolves (c (i.castLE k.isLt.le)) (d (e i)) (f i)) (hunknown : ∀ j, D'.ids j ≠ D.ids k)
    (hv : ∀ i, (c i).IsValue (v i)) (x : ∀ j, ε j) :
    (D'.hasOptionalProperties = true ∨ m = n →
      ParseFails (decodeObjectProperties D' (Detail.decodeUnsignedObjectProperty D' d) n)
        (propertyBytes D (integerEncoder ⟨w, false⟩) c v) .unknownProperty x
        (merged e f (fun i => v (i.castLE k.isLt.le)) x)) ∧
    (¬ (D'.hasOptionalProperties = true ∨ m = n) →
      ParseFails (decodeObjectProperties D' (Detail.decodeUnsignedObjectProperty D' d) n)
        (propertyBytes D (integerEncoder ⟨w, false⟩) c v) .requiredObjectPropertyMissing x x) := by
  obtain ⟨more, hmore⟩ : ∃ more, n = (List.finRange k.val).length + (more + 1) := ⟨n - k.val - 1, by
    rw [List.length_finRange]
    have := k.isLt
    omega⟩
  have hknown := takes_known (f := f) ht hasc hsame h hv
  have hbad := fails_unknown (d := d) ht hunknown
  obtain ⟨rest, hrest⟩ := propertyBytes_eq (D := D) (c := c) (v := v) (k := k)
  rw [hrest]
  unfold decodeObjectProperties
  by_cases hoptional : D'.hasOptionalProperties
  · rw [if_pos hoptional]
    refine ⟨fun _ => ?_, fun hno => absurd (.inl hoptional) hno⟩
    have hfound := fails_foundProperties hknown hbad (List.finRange k.val) more (Detail.noProperties m) x
    rw [← hmore] at hfound
    exact (hfound.append rest).before _
  · rw [if_neg hoptional]
    constructor
    · intro hsize
      rw [if_neg (not_not.mpr (hsize.resolve_left hoptional))]
      have hloop := fails_forRange hknown hbad (List.finRange k.val) more 0 x
      rw [← hmore] at hloop
      exact hloop.append rest
    · intro hno
      rw [if_pos fun heq => hno (.inr heq)]
      exact (fails_err (e := .requiredObjectPropertyMissing)).append _

/-- Members are only touched if the versions agree. -/
theorem fails_version (hn : numEntries n D.version < int32Max / 2) (hold : D'.version ≠ nullDefVersion)
    (hnew : D.version ≠ nullDefVersion) (hdiffer : D'.version ≠ D.version) (body : List UInt8) (hlen : 2 * n ≤ body.length)
    (property : Parse MemoryInputStream (∀ j, ε j) Nat) (x : ∀ j, ε j) :
    ParseFails (decodeObject D' property) (objectPrefix n D.version ++ body) .itemVersionMismatch x x := by
  have hversioned : (D'.version != nullDefVersion) = (D.version != nullDefVersion) :=
    (bne_iff_ne.mpr hold).trans (bne_iff_ne.mpr hnew).symm
  unfold decodeObject
  rw [hversioned]
  refine fails_bindAhead ((takes_decodeObjectHead hn).onFst x) ?_ hlen
  rw [if_pos ⟨hold, hdiffer⟩]
  exact (fails_err (e := .itemVersionMismatch)).append body

variable {σ : Type} [InputStream σ] {s : InputBuffer σ} {rest : List UInt8}

/-- What fails on memory fails on any input, and leaves the same. -/
theorem ParseFails.decoder {β : Type} {d : Decoder β} {p : List UInt8} {error : Errc} {x y : β}
    (h : ParseFails (d.decode MemoryInputStream) p error x y) (hd : d.Independent) (C : InputContract σ) (hs : C.Valid s)
    (hunread : C.unread s = p ++ rest) : ∃ t, d.decode σ (s, x) = (.error (.errc error), (t, y)) ∧ C.Valid t := by
  obtain ⟨r, rest', w', hmemory, -, t, hrun, hvt, -⟩ := hd.memory C hs x
  have hlen := C.inputSize_lt hs
  rw [hunread] at hmemory hlen
  obtain ⟨u, hu⟩ := h rest hlen
  cases hmemory.symm.trans hu
  exact ⟨t, hrun, hvt⟩

/-- An object a newer program wrote is refused. If its version is another, nothing is read of it. If `k` is its first
property that is not known, the members before it are read, unless the reader can tell from the number of properties:
then none is. -/
theorem decode_newer (D' : ObjectDef (BitVec w) m) (hn : numEntries n D.version < 2 ^ 30 - 1) (ht : IntType.EncodableInt ⟨w, false⟩)
    (hc : ∀ i, (c i).Exact) (hv : ∀ i, (c i).IsValue (v i)) {c' : ∀ j, Encoder (ε j)} {arrays : Prop}
    (hd : ∀ j, LibraryCodec FixedLeaf arrays (c' j) (d j)) (C : InputContract σ) (hs : C.Valid s)
    (hunread : C.unread s = (objectEncoder D (integerEncoder ⟨w, false⟩) c).bytes v ++ rest) (x : ∀ j, ε j) :
    (D'.version ≠ nullDefVersion → D.version ≠ nullDefVersion → D'.version ≠ D.version →
      ∃ t, (unsignedObjectDecoder D' d).decode σ (s, x) = (.error (.errc .itemVersionMismatch), (t, x)) ∧ C.Valid t) ∧
    (D'.version = D.version → (∀ i j, i < j → D'.ids i < D'.ids j) → (∀ j, D'.ids j ≠ D.ids k) →
      (∀ i, D'.ids (e i) = D.ids (i.castLE k.isLt.le)) → (∀ i, Evolves (c (i.castLE k.isLt.le)) (d (e i)) (f i)) →
      (D'.hasOptionalProperties = true ∨ m = n →
        ∃ t, (unsignedObjectDecoder D' d).decode σ (s, x) =
          (.error (.errc .unknownProperty), (t, merged e f (fun i => v (i.castLE k.isLt.le)) x)) ∧ C.Valid t) ∧
      (¬ (D'.hasOptionalProperties = true ∨ m = n) →
        ∃ t, (unsignedObjectDecoder D' d).decode σ (s, x) =
          (.error (.errc .requiredObjectPropertyMissing), (t, x)) ∧ C.Valid t)) := by
  have hindependent : (unsignedObjectDecoder D' d).Independent :=
    independent_unsignedObject D' fun j => (hd j).independent FixedLeaf.independent
  have hlen : 2 * n ≤ (propertyBytes D (integerEncoder ⟨w, false⟩) c v).length :=
    (wellFormed_properties (fun i => (integerEncoder_exact ht (D.ids i) trivial).2) fun i => (hc i (v i) (hv i)).2).items_length
  have hbytes : (objectEncoder D (integerEncoder ⟨w, false⟩) c).bytes v = _ :=
    (objectEncoder_puts (wordLimit_of_entries hn) (integerEncoder_exact ht) (fun _ => trivial) hc hv).bytes_eq
  rw [hbytes] at hunread
  constructor
  · intro hold hnew hdiffer
    have hfails := fails_version hn hold hnew hdiffer _ hlen (Detail.decodeUnsignedObjectProperty D' d) x
    exact ParseFails.decoder (d := unsignedObjectDecoder D' d) hfails hindependent C hs hunread
  · intro hversion hasc hunknown hsame h
    obtain ⟨hone, hmany⟩ := fails_objectProperties ht hasc hsame h hunknown hv x
    have hhead : ∀ {error y}, ParseFails (decodeObjectProperties D' (Detail.decodeUnsignedObjectProperty D' d) n)
        (propertyBytes D (integerEncoder ⟨w, false⟩) c v) error x y →
        ParseFails ((unsignedObjectDecoder D' d).decode MemoryInputStream)
          (objectPrefix n D.version ++ propertyBytes D (integerEncoder ⟨w, false⟩) c v) error x y := by
      intro error y hfails
      rw [← hversion] at hn ⊢
      refine fails_bindAhead ((takes_decodeObjectHead hn).onFst x) ?_ hlen
      rw [if_neg fun hdiffer => hdiffer.2 rfl]
      exact hfails
    exact ⟨fun hsize => (hhead (hone hsize)).decoder hindependent C hs hunread,
      fun hsize => (hhead (hmany hsize)).decoder hindependent C hs hunread⟩

end Newer

/-- Of the ids 1, 2 and 3 the reader knows 1 and 3, and 3 need not be there. -/
theorem decode_newer_object :
    ∃ t, (unsignedObjectDecoder (⟨nullDefVersion, ![1, 3], fun j => j = 0⟩ : ObjectDef (BitVec 8) 2) fun _ => boolDecoder).decode
      MemoryInputStream (memoryInput [0xa3, 0x01, 0xf5, 0x02, 0xf5, 0x03, 0xf5], fun _ => false) =
        (.error (.errc .unknownProperty), (t, ![true, false])) := by
  have hword : IntType.EncodableInt ⟨8, false⟩ := .inl rfl
  have hbytes : (objectEncoder (⟨nullDefVersion, ![1, 2, 3], fun _ => true⟩ : ObjectDef (BitVec 8) 3) (integerEncoder ⟨8, false⟩)
      fun _ => boolEncoder).bytes (fun _ => true) = [0xa3, 0x01, 0xf5, 0x02, 0xf5, 0x03, 0xf5] := rfl
  have hunread : MemoryInputStream.contract.unread (memoryInput [0xa3, 0x01, 0xf5, 0x02, 0xf5, 0x03, 0xf5]) = _ ++ [] :=
    (List.append_nil _).symm
  rw [← hbytes] at hunread
  obtain ⟨t, hrun, -⟩ := ((decode_newer (k := 1) (e := fun _ => 0) (f := fun _ v _ => v)
    (⟨nullDefVersion, ![1, 3], fun j => j = 0⟩ : ObjectDef (BitVec 8) 2) (by decide) hword (fun _ => boolEncoder_exact)
    (fun _ => trivial) (fun _ => (.leaf (.leaf .bool) : LibraryCodec FixedLeaf False boolEncoder boolDecoder))
    MemoryInputStream.contract (MemoryInputStream.valid_memory (b := [0xa3, 0x01, 0xf5, 0x02, 0xf5, 0x03, 0xf5]) (by decide))
    hunread fun _ => false).2 rfl (by decide) (by decide) (by decide)
    fun _ => .same (.leaf .bool : LibraryCodec LibraryLeaf False boolEncoder boolDecoder)).1 (.inl (by decide))
  have hvalue : merged (fun _ => 0) (fun _ v _ => v) (fun _ : Fin 1 => true) (fun _ : Fin 2 => false) = ![true, false] := by
    decide
  exact ⟨t, hvalue ▸ hrun⟩

end DeepPack
