import DeepPack.Codecs.CutOff

/-! Values one after the other through streams.

Nothing stands between two encodings. What several calls of `encode` wrote, of whatever
types and on whatever stream, as many calls of `decode` read, from whatever stream is
given the bytes; if these are cut off, the calls before the cut read what was written. -/
namespace DeepPack
open Library

variable {n : Nat} {δ : Fin n → Type}

/-- One `encode` after the other. -/
def encodeAll (c : ∀ i, Encoder (δ i)) (v : ∀ i, δ i) : Emitter := fun σ _ => mpForDots fun i => (c i).encode (v i) σ

/-- One `decode` after the other, up to the first that fails. -/
def decodeAll (d : ∀ i, Decoder (δ i)) (σ : Type) [InputStream σ] : Parse σ (∀ i, δ i) Unit :=
  mpForDots fun i => onMember i ((d i).decode σ)

/-- The members in front of one are those with a smaller index. -/
theorem mem_front_iff {pre post : List (Fin n)} {i k : Fin n} (h : List.finRange n = pre ++ k :: post) :
    i ∈ pre ↔ i < k := by
  have hsorted := List.pairwise_lt_finRange n
  rw [h, List.pairwise_append] at hsorted
  obtain ⟨-, hpost, hpre⟩ := hsorted
  refine ⟨fun hi => hpre i hi k List.mem_cons_self, fun hi => ?_⟩
  have hmem : i ∈ pre ++ k :: post := h ▸ List.mem_finRange i
  rcases List.mem_append.mp hmem with hmem | hmem
  · exact hmem
  · rcases List.mem_cons.mp hmem with rfl | hmem
    · exact absurd hi (lt_irrefl i)
    · exact absurd hi (List.rel_of_pairwise_cons hpost hmem).not_gt

/-- The members of the list in front of one of them are as in `v`, and those behind it as before. -/
def ReadUpTo (l : List (Fin n)) (v x y : ∀ i, δ i) : Prop :=
  ∃ pre k post, l = pre ++ k :: post ∧ (∀ i ∈ pre, y i = v i) ∧ ∀ i, i ∉ pre → i ≠ k → y i = x i

theorem readUpTo_head (l : List (Fin n)) (v x : ∀ i, δ i) (i : Fin n) (w : δ i) :
    ReadUpTo (i :: l) v x (Function.update x i w) :=
  ⟨[], i, l, rfl, nofun, fun _ _ hj => Function.update_of_ne hj _ _⟩

theorem ReadUpTo.cons {l : List (Fin n)} {v x y : ∀ i, δ i} {i : Fin n} (hi : i ∉ l)
    (h : ReadUpTo l v (Function.update x i (v i)) y) : ReadUpTo (i :: l) v x y := by
  obtain ⟨pre, k, post, rfl, hdone, hkept⟩ := h
  have hpre : i ∉ pre := fun hmem => hi (List.mem_append_left _ hmem)
  have hk : i ≠ k := fun heq => hi (heq ▸ List.mem_append_right _ List.mem_cons_self)
  refine ⟨i :: pre, k, post, rfl, fun j hj => ?_, fun j hj hjk => ?_⟩
  · rcases List.mem_cons.mp hj with rfl | hj
    · rw [hkept _ hpre hk, Function.update_self]
    · exact hdone j hj
  · rw [List.mem_cons, not_or] at hj
    rw [hkept j hj.2 hjk, Function.update_of_ne hj.1]

theorem ReadUpTo.of_all {v x y : ∀ i, δ i} (h : ReadUpTo (List.finRange n) v x y) :
    ∃ k, (∀ i, i < k → y i = v i) ∧ ∀ i, k < i → y i = x i := by
  obtain ⟨pre, k, post, hsplit, hdone, hkept⟩ := h
  exact ⟨k, fun i hi => hdone i ((mem_front_iff hsplit).mpr hi),
    fun i hi => hkept i (fun hmem => ((mem_front_iff hsplit).mp hmem).not_gt hi) hi.ne'⟩

variable {c : ∀ i, Encoder (δ i)} {d : ∀ i, Decoder (δ i)} {arrays : Prop}

section Decode
variable {σ : Type} [InputStream σ] {C : InputContract σ}

/-- One decoder of several, at the front of its input. -/
theorem decode_member (h : ∀ i, LibraryCodec LibraryLeaf arrays (c i) (d i)) {s : InputBuffer σ} (hs : C.Valid s)
    {v : ∀ i, δ i} (hv : ∀ i, (c i).IsValue (v i)) (i : Fin n) {rest : List UInt8}
    (hunread : C.unread s = (c i).bytes (v i) ++ rest) (x : ∀ i, δ i) :
    ∃ t, onMember i ((d i).decode σ) (s, x) = (.ok (), (t, Function.update x i (v i))) ∧ C.Valid t ∧
      C.unread t = rest := by
  obtain ⟨t, ht, hvt, hut⟩ := (h i).decodes C hs (hv i) hunread (x i)
  exact ⟨t, Action.within_ok ht, hvt, hut⟩

theorem decode_members (h : ∀ i, LibraryCodec LibraryLeaf arrays (c i) (d i)) {v : ∀ i, δ i}
    (hv : ∀ i, (c i).IsValue (v i)) {rest : List UInt8} (l : List (Fin n)) {s : InputBuffer σ} (hs : C.Valid s)
    (hunread : C.unread s = (l.flatMap fun i => (c i).bytes (v i)) ++ rest) (x : ∀ i, δ i) :
    ∃ t y, Action.forList (fun i => onMember i ((d i).decode σ)) l (s, x) = (.ok (), (t, y)) ∧ C.Valid t ∧
      C.unread t = rest ∧ (∀ i ∈ l, y i = v i) ∧ ∀ i, i ∉ l → y i = x i := by
  induction l generalizing s x with
  | nil => exact ⟨s, x, rfl, hs, hunread, nofun, fun _ _ => rfl⟩
  | cons i l ih =>
    rw [List.flatMap_cons, List.append_assoc] at hunread
    obtain ⟨t, ht, hvt, hut⟩ := decode_member h hs hv i hunread x
    obtain ⟨u, y, hu, hvu, huu, hdone, hkept⟩ := ih hvt hut (Function.update x i (v i))
    refine ⟨u, y, (Action.bind_ok _ ht).trans hu, hvu, huu, fun j hj => ?_, fun j hj => ?_⟩
    · by_cases hmem : j ∈ l
      · exact hdone j hmem
      · obtain rfl := (List.mem_cons.mp hj).resolve_right hmem
        rw [hkept j hmem, Function.update_self]
    · rw [List.mem_cons, not_or] at hj
      rw [hkept j hj.2, Function.update_of_ne hj.1]

/-- The member at whose encoding the input is cut off fails, those before it are decoded. -/
theorem decode_members_cutOff (h : ∀ i, LibraryCodec LibraryLeaf arrays (c i) (d i)) {v : ∀ i, δ i}
    (hv : ∀ i, (c i).IsValue (v i)) {missing : List UInt8} (hne : missing ≠ []) {l : List (Fin n)} (hl : l.Nodup)
    (hlen : (l.flatMap fun i => (c i).bytes (v i)).length < wordLimit) {s : InputBuffer σ} (hs : C.Valid s)
    (hcut : (l.flatMap fun i => (c i).bytes (v i)) = C.unread s ++ missing) {x : ∀ i, δ i}
    (hx : ∀ i, (c i).IsValue (x i)) :
    ∃ e t y, Action.forList (fun i => onMember i ((d i).decode σ)) l (s, x) = (.error (.errc e), (t, y)) ∧
      ReadUpTo l v x y := by
  induction l generalizing s x with
  | nil => exact absurd (List.append_eq_nil_iff.mp hcut.symm).2 hne
  | cons i l ih =>
    rw [List.flatMap_cons] at hcut hlen
    rw [List.length_append] at hlen
    by_cases hthere : (c i).bytes (v i) <+: C.unread s
    · -- the member is all there
      obtain ⟨p, hp⟩ := hthere
      have hrest : (l.flatMap fun i => (c i).bytes (v i)) = p ++ missing := by
        rw [← hp, List.append_assoc] at hcut
        exact List.append_cancel_left hcut
      obtain ⟨t, ht, hvt, hut⟩ := decode_member h hs hv i hp.symm x
      have hx' : ∀ j, (c j).IsValue (Function.update x i (v i) j) := fun j => by
        by_cases hj : j = i
        · subst hj
          rw [Function.update_self]
          exact hv j
        · rw [Function.update_of_ne hj]
          exact hx j
      obtain ⟨hi, hnodup⟩ := List.nodup_cons.mp hl
      obtain ⟨e, u, y, hu, hread⟩ := ih hnodup (by omega) hvt (hut.symm ▸ hrest) hx'
      exact ⟨e, u, y, (Action.bind_ok _ ht).trans hu, hread.cons hi⟩
    · -- the input ends within the member
      obtain ⟨q, hq, -⟩ | ⟨q, hq, -⟩ := List.append_eq_append_iff.mp hcut
      · exact absurd ⟨q, hq.symm⟩ hthere
      have hfull : ((c i).bytes (v i) ++ []).length < wordLimit := by
        rw [List.append_nil]
        omega
      obtain ⟨t, ht, -, hut⟩ := (h i).decodes MemoryInputStream.contract (MemoryInputStream.valid_memory hfull) (hv i) rfl (x i)
      have hqne : q ≠ [] := fun hnil => hthere (by rw [hq, hnil, List.append_nil])
      obtain ⟨e, u, w, he⟩ := ((h i).withLeaves FixedLeaf.leaf).cutOff MemoryInputStream.contract
        (MemoryInputStream.valid_memory hfull) (hx i) ht C hs ⟨q, hqne, by rw [hut, ← hq]; rfl⟩
      have hmember : onMember i ((d i).decode σ) (s, x) = (.error (.errc e), (u, Function.update x i w)) := by
        simp only [onMember, Action.within, he]
      exact ⟨e, u, _, Action.bind_error _ hmember, readUpTo_head l v x i w⟩

end Decode

/-! ### Through any streams -/

theorem encodeAll_puts (h : ∀ i, LibraryCodec LibraryLeaf arrays (c i) (d i)) {v : ∀ i, δ i}
    (hv : ∀ i, (c i).IsValue (v i)) :
    Puts (encodeAll c v) (mpMapFoldLeft (fun i => (c i).sizeOf (v i)) 0) (memberBytes c v) :=
  puts_mpForDots fun i => ((h i).encodable LibraryLeaf.encodable).puts ⟨v i, hv i⟩

/-- What is encoded one after the other, on any stream with room for it, is decoded in the same order from any input
that is given these bytes, and no byte more is taken. -/
theorem decodeAll_encodeAll (h : ∀ i, LibraryCodec LibraryLeaf arrays (c i) (d i)) {v : ∀ i, δ i}
    (hv : ∀ i, (c i).IsValue (v i)) {τ : Type} [OutputStream τ] (E : OutputContract τ) {o : OutputBuffer τ}
    {out : List UInt8} (ho : E.Holds o out) (hfits : E.limit.Fits (out.length + (memberBytes c v).length)) :
    ∃ o' written, encodeAll c v τ o = (.ok (), o') ∧ E.Holds o' (out ++ written) ∧
      ∀ {σ : Type} [InputStream σ] (C : InputContract σ) {s : InputBuffer σ} {rest : List UInt8}, C.Valid s →
        C.unread s = written ++ rest → ∀ x, ∃ t, decodeAll d σ (s, x) = (.ok (), (t, v)) ∧ C.Valid t ∧
          C.unread t = rest := by
  obtain ⟨o', ho', hout⟩ := ((encodeAll_puts h hv).emits E o out ho).1 hfits
  refine ⟨o', memberBytes c v, ho', hout, fun C _ _ hs hunread x => ?_⟩
  obtain ⟨t, y, ht, hvt, hut, hdone, -⟩ := decode_members h hv (List.finRange n) hs hunread x
  obtain rfl : y = v := funext fun i => hdone i (List.mem_finRange i)
  exact ⟨t, ht, hvt, hut⟩

/-- Two strings. -/
def twoStrings (a b : List UInt8) (i : Fin 2) : List UInt8 := Fin.cases a (fun _ => b) i

theorem isValue_strings {v : Fin 2 → List UInt8} (h : ∀ i, (v i).length ≤ 1) (i : Fin 2) : stringEncoder.IsValue (v i) :=
  Nat.lt_of_le_of_lt (h i) (by decide : 1 < wordLimit)

/-- A string of one byte and an empty one, in front of 7. -/
theorem decodeAll_encodeAll_strings :
    ∃ t, decodeAll (fun _ : Fin 2 => stringDecoder) MemoryInputStream (memoryInput [0x61, 0x41, 0x60, 0x07], fun _ => []) =
      (.ok (), (t, twoStrings [0x41] [])) ∧ MemoryInputStream.contract.unread t = [0x07] := by
  have h : ∀ _ : Fin 2, LibraryCodec LibraryLeaf False stringEncoder stringDecoder := fun _ => .leaf .string
  have hempty : EndlessStream.documented.contract.Holds EndlessStream.fresh [] := ⟨trivial, rfl⟩
  obtain ⟨o', written, ho', hout, hdecode⟩ := decodeAll_encodeAll h (v := twoStrings [0x41] []) (isValue_strings (by decide))
    EndlessStream.documented.contract hempty (Limit.fits_none _)
  have hwritten : EndlessStream.output (encodeAll (fun _ : Fin 2 => stringEncoder) (twoStrings [0x41] []) EndlessStream
      EndlessStream.fresh).2 = [0x61, 0x41, 0x60] := rfl
  rw [ho'] at hwritten
  obtain rfl : written = [0x61, 0x41, 0x60] := hout.2.symm.trans hwritten
  have hvalid := MemoryInputStream.valid_memory (b := [0x61, 0x41, 0x60, 0x07]) (by decide)
  have hunread : MemoryInputStream.contract.unread (memoryInput [0x61, 0x41, 0x60, 0x07]) =
    [0x61, 0x41, 0x60] ++ [0x07] := rfl
  obtain ⟨t, ht, -, hut⟩ := hdecode MemoryInputStream.contract hvalid hunread fun _ => []
  exact ⟨t, ht, hut⟩

/-- If what was encoded one after the other is cut off anywhere, decoding it fails with an error code; what was
encoded before the value that is cut off has been decoded then, and what comes after it is untouched. -/
theorem decodeAll_cutOff (h : ∀ i, LibraryCodec LibraryLeaf arrays (c i) (d i)) {v : ∀ i, δ i}
    (hv : ∀ i, (c i).IsValue (v i)) (hlen : (memberBytes c v).length < wordLimit) {σ : Type} [InputStream σ]
    (C : InputContract σ) {s : InputBuffer σ} (hs : C.Valid s) (hfront : C.unread s <+: memberBytes c v)
    (hcut : C.unread s ≠ memberBytes c v) {x : ∀ i, δ i} (hx : ∀ i, (c i).IsValue (x i)) :
    ∃ (k : Fin n) (e : Errc) (t : InputBuffer σ) (y : ∀ i, δ i), decodeAll d σ (s, x) = (.error (.errc e), (t, y)) ∧
      (∀ i, i < k → y i = v i) ∧ ∀ i, k < i → y i = x i := by
  obtain ⟨missing, hmissing⟩ := hfront
  have hne : missing ≠ [] := fun hnil => hcut (by rw [← hmissing, hnil, List.append_nil])
  obtain ⟨e, t, y, ht, hread⟩ := decode_members_cutOff h hv hne (List.nodup_finRange n) hlen hs hmissing.symm hx
  obtain ⟨k, hdone, hkept⟩ := hread.of_all
  exact ⟨k, e, t, y, ht, hdone, hkept⟩

/-- Two strings of one byte each, the second without it. -/
theorem decodeAll_cutOff_strings :
    ∃ (k : Fin 2) (e : Errc) (t : InputBuffer MemoryInputStream) (y : Fin 2 → List UInt8),
      decodeAll (fun _ : Fin 2 => stringDecoder) MemoryInputStream (memoryInput [0x61, 0x41, 0x61], fun _ => []) =
        (.error (.errc e), (t, y)) ∧ (∀ i, i < k → y i = twoStrings [0x41] [0x42] i) ∧ ∀ i, k < i → y i = [] := by
  have h : ∀ _ : Fin 2, LibraryCodec LibraryLeaf False stringEncoder stringDecoder := fun _ => .leaf .string
  have hbytes : memberBytes (fun _ : Fin 2 => stringEncoder) (twoStrings [0x41] [0x42]) = [0x61, 0x41, 0x61, 0x42] :=
    rfl
  have hunread : MemoryInputStream.contract.unread (memoryInput [0x61, 0x41, 0x61]) = [0x61, 0x41, 0x61] := rfl
  exact decodeAll_cutOff h (isValue_strings (by decide)) (by rw [hbytes]; decide) MemoryInputStream.contract
    (MemoryInputStream.valid_memory (b := [0x61, 0x41, 0x61]) (by decide)) (by rw [hbytes, hunread]; decide)
    (by rw [hbytes, hunread]; decide) (x := fun _ => []) (isValue_strings fun _ => Nat.zero_le 1)

end DeepPack
