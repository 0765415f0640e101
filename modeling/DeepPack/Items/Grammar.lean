import DeepPack.Items.Chunks

/-! The machine that takes every chunk whole reads the well-formed items. -/
namespace DeepPack.ItemMachine

/-- A chunk's head and its content. -/
def wholeChunk : Advance := fun c => c.encodedLength + c.value

/-- A chunk that is taken whole is never empty: its head is not. -/
theorem not_chunksStall_wholeChunk {type : TypeCode} {b : List UInt8} : ¬ ChunksStall wholeChunk type b := by
  intro hs
  induction hs with
  | here hh _ _ h0 =>
    have := encodedLength_pos hh
    rw [wholeChunk] at h0
    omega
  | later _ _ _ _ _ ih => exact ih

theorem not_meets_wholeChunk {g : Goal} {b : List UInt8} :
    ¬ Meets (stringRule wholeChunk) (stringStalls wholeChunk) g b := by
  intro hs
  induction hs with
  | string _ _ hl => exact not_chunksStall_wholeChunk hl.2
  | container | first | more | firstElement | element | firstKey | key | firstValue | value => assumption

/-- What the bytes of a goal are in the grammar. -/
def Goal.Derives : Goal → List UInt8 → Prop
  | item, p => WellFormed .item p
  | items n, p => WellFormed (.items n) p
  | elements, p => WellFormed .elements p
  | entries, p => WellFormed .entries p
  | value, p => ∃ v e, p = v ++ e ∧ WellFormed .item v ∧ WellFormed .entries e

variable {b rest p : List UInt8} {h : ItemHead} {m : Nat}

theorem goalOf_definite {len v : Nat} (hm : m < 8) :
    goalOf ⟨.ofMajor m, 0, len, v⟩ = if m = 4 then .items v else if m = 5 then .items (2 * v) else .item := by
  have hx : ¬ expectsValue ⟨.ofMajor m, 0, len, v⟩ := (by decide : ¬ (0 : UInt8) >>> 1 ≠ 0)
  simp only [goalOf, TypeCode.major_ofMajor hm, hx, ItemHead.indefinite_zero, Bool.false_eq_true, if_false,
    Nat.sub_zero]

theorem goalOf_indefinite {len v : Nat} (hm : m < 8) :
    goalOf ⟨.ofMajor m, 1, len, v⟩ = if m = 4 then .elements else if m = 5 then .entries else .item := by
  have hx : ¬ expectsValue ⟨.ofMajor m, 1, len, v⟩ := (by decide : ¬ (1 : UInt8) >>> 1 ≠ 0)
  simp only [goalOf, TypeCode.major_ofMajor hm, hx, ItemHead.indefinite_one, if_true, if_false]

theorem head_append (head rest : List UInt8) : (head ++ rest).drop head.length = rest := List.drop_left

/-! ### From the grammar -/

/-- A string head that is not one of the simple values. -/
theorem notBadSimple {info v : Nat} (hm : m ≠ 7) : ¬ BadSimple m info v := fun hbad => hm hbad.1

theorem chunks_of_wellFormed_chunk {info v : Nat} {head content u : List UInt8} (hm : m = 2 ∨ m = 3)
    (hhead : Head m info v head) (hlen : content.length = v)
    (hc : Chunks wholeChunk (.ofMajor m) u rest) :
    Chunks wholeChunk (.ofMajor m) (head ++ (content ++ u)) rest := by
  have hh := hhead.headOf (by omega) (notBadSimple (by omega)) (content ++ u)
  have hdrop : (head ++ (content ++ u)).drop (head.length + v) = u := by
    rw [← hlen, ← List.drop_drop, List.drop_left, List.drop_left]
  refine .chunk hh rfl (ItemHead.indefinite_zero _ _ _) ?_ ?_
  · simp only [wholeChunk, List.length_append]
    omega
  · rw [wholeChunk, hdrop]
    exact hc

/-- What the machine has to read for a part of the grammar. -/
def ReadsPart : Part → List UInt8 → List UInt8 → Prop
  | .item, b, rest => Reads (stringRule wholeChunk) .item b rest
  | .items n, b, rest => Reads (stringRule wholeChunk) (.items n) b rest
  | .chunks m, b, rest => m = 2 ∨ m = 3 → Chunks wholeChunk (.ofMajor m) b rest
  | .elements, b, rest => Reads (stringRule wholeChunk) .elements b rest
  | .entries, b, rest => Reads (stringRule wholeChunk) .entries b rest

theorem reads_scalar_head {info v : Nat} {head : List UInt8} (hm : m = 0 ∨ m = 1 ∨ m = 7)
    (hhead : Head m info v head) (hgood : ¬ BadSimple m info v) :
    Reads (stringRule wholeChunk) .item (head ++ rest) rest := by
  have hmajor := TypeCode.major_ofMajor (m := m) (by omega)
  have hr : Reads (stringRule wholeChunk) .item (head ++ rest) ((head ++ rest).drop head.length) := by
    refine .scalar (hhead.headOf (by omega) hgood rest) ?_
    rw [IsScalar, hmajor]
    rcases hm with rfl | rfl | rfl
    · exact .inl (by decide)
    · exact .inl (by decide)
    · exact .inr ⟨rfl, ItemHead.indefinite_zero _ _ _⟩
  rwa [head_append] at hr

theorem reads_string_head {info v : Nat} {head content : List UInt8} (hm : m = 2 ∨ m = 3)
    (hhead : Head m info v head) (hlen : content.length = v) :
    Reads (stringRule wholeChunk) .item (head ++ (content ++ rest)) rest := by
  have hh := hhead.headOf (by omega) (notBadSimple (by omega)) (content ++ rest)
  refine .string hh (by rwa [TypeCode.major_ofMajor (by omega)]) ?_
  rw [head_append, stringRule, ItemHead.indefinite_zero, if_neg Bool.false_ne_true, ← hlen]
  exact ⟨by rw [List.length_append]; exact Nat.le_add_right _ _, List.drop_left.symm⟩

theorem reads_container_head {info v : Nat} {head u : List UInt8} (h4 : 4 ≤ m) (h6 : m ≤ 6)
    (hhead : Head m info v head)
    (hu : Reads (stringRule wholeChunk)
      (if m = 4 then .items v else if m = 5 then .items (2 * v) else .item) u rest) :
    Reads (stringRule wholeChunk) .item (head ++ u) rest := by
  have hh := hhead.headOf (by omega) (notBadSimple (by omega)) u
  have hmajor := TypeCode.major_ofMajor (m := m) (by omega)
  refine .container hh (by rwa [hmajor]) (by rwa [hmajor]) ?_
  rw [goalOf_definite (by omega), head_append]
  exact hu

theorem reads_indefinite_head {u : List UInt8} (hm : m = 4 ∨ m = 5)
    (hu : Reads (stringRule wholeChunk) (if m = 4 then .elements else if m = 5 then .entries else .item) u
      rest) :
    Reads (stringRule wholeChunk) .item (initialByte m 31 :: u) rest := by
  have hh := headOf_indefinite (m := m) (by omega) (by omega) u
  have hmajor := TypeCode.major_ofMajor (m := m) (by omega)
  refine .container hh (by rw [hmajor]; omega) (by rw [hmajor]; omega) ?_
  rw [goalOf_indefinite (by omega)]
  exact hu

theorem reads_of_wellFormed {part : Part} (hw : WellFormed part p) (rest : List UInt8) :
    ReadsPart part (p ++ rest) rest := by
  induction hw generalizing rest with
  | int hm hhead =>
    exact reads_scalar_head (by omega) hhead (notBadSimple (by omega))
  | simple hhead hgood =>
    exact reads_scalar_head (by omega) hhead fun hbad => hgood ⟨hbad.2.1, hbad.2.2⟩
  | string hm hhead hlen =>
    rw [List.append_assoc]
    exact reads_string_head hm hhead hlen
  | @stringIndefinite m body hm _ ih =>
    have hh := headOf_indefinite (m := m) (by omega) (by omega) (body ++ rest)
    refine .string hh (by rwa [TypeCode.major_ofMajor (by omega)]) ?_
    rw [stringRule, ItemHead.indefinite_one, if_pos rfl]
    exact ih rest hm
  | array hhead _ ih =>
    rw [List.append_assoc]
    exact reads_container_head (by decide) (by decide) hhead (ih rest)
  | arrayIndefinite _ ih => exact reads_indefinite_head (.inl rfl) (ih rest)
  | map hhead _ ih =>
    rw [List.append_assoc]
    exact reads_container_head (by decide) (by decide) hhead (ih rest)
  | mapIndefinite _ ih => exact reads_indefinite_head (.inr rfl) (ih rest)
  | tag hhead _ ih =>
    rw [List.append_assoc]
    exact reads_container_head (by decide) (by decide) hhead (ih rest)
  | none => exact .none
  | more _ _ ih ih' =>
    rw [List.append_assoc]
    exact .more (ih _) (ih' rest)
  | lastChunk => exact fun _ => .last
  | chunk hhead hlen _ ih =>
    intro hm
    rw [List.append_assoc, List.append_assoc]
    exact chunks_of_wellFormed_chunk hm hhead hlen (ih rest hm)
  | lastElement => exact .lastElement
  | element _ _ ih ih' =>
    rw [List.append_assoc]
    exact .element (ih _) (ih' rest)
  | lastEntry => exact .lastEntry
  | entry _ _ _ ihk ihv ih =>
    rw [List.append_assoc, List.append_assoc]
    exact .key (ihk _) (.value (ihv _) (ih rest))

/-! ### To the grammar -/

theorem wellFormed_of_chunks (hm : m = 2 ∨ m = 3) (hc : Chunks wholeChunk (.ofMajor m) b rest) :
    ∃ p, b = p ++ rest ∧ WellFormed (.chunks m) p := by
  induction hc with
  | last => exact ⟨[breakByte], rfl, .lastChunk⟩
  | @chunk b rest c hh ht hi hle hc ih =>
    obtain ⟨q, hq, hw⟩ := ih
    obtain ⟨m', hm', ⟨info, v, head, tail, rfl, hhead, -, rfl⟩ | ⟨tail, -, -, rfl⟩⟩ := headOf_sound hh
    · obtain rfl := (TypeCode.ofMajor_inj hm' (by omega)).mp ht
      simp only [wholeChunk, List.length_append] at hle hq
      have hlen : (tail.take v).length = v := by
        rw [List.length_take]
        omega
      refine ⟨head ++ (tail.take v ++ q), ?_, .chunk hhead hlen hw⟩
      rw [← List.drop_drop, List.drop_left] at hq
      rw [List.append_assoc, List.append_assoc, ← hq, List.take_append_drop]
    · exact absurd hi (by simp)

/-- The machine reads only well-formed parts. -/
theorem derives_of_reads {g : Goal} (hr : Reads (stringRule wholeChunk) g b rest) :
    ∃ p, b = p ++ rest ∧ g.Derives p := by
  induction hr with
  | @scalar b h hh hs =>
    obtain ⟨m, hm, ⟨info, v, head, tail, rfl, hhead, hgood, rfl⟩ | ⟨tail, -, hmay, rfl⟩⟩ := headOf_sound hh
    · rw [IsScalar, TypeCode.major_ofMajor hm] at hs
      refine ⟨head, by rw [head_append], ?_⟩
      by_cases h7 : m = 7
      · subst h7
        exact .simple hhead fun hbad => hgood ⟨rfl, hbad.1, hbad.2⟩
      · have hm01 : m = 0 ∨ m = 1 := by
          rcases hs with h2 | ⟨h, -⟩
          · omega
          · exact absurd h h7
        exact .int hm01 hhead
    · rw [IsScalar, TypeCode.major_ofMajor hm, ItemHead.indefinite_one] at hs
      rcases hs with h2 | ⟨-, hi⟩
      · omega
      · cases hi
  | @string b rest h hh hm hs =>
    obtain ⟨m, hm', ⟨info, v, head, tail, rfl, hhead, -, rfl⟩ | ⟨tail, rfl, -, rfl⟩⟩ := headOf_sound hh
    · rw [TypeCode.major_ofMajor hm'] at hm
      rw [head_append, stringRule, ItemHead.indefinite_zero, if_neg Bool.false_ne_true] at hs
      obtain ⟨hle, rfl⟩ := hs
      refine ⟨head ++ tail.take v, ?_, .string hm hhead (by rw [List.length_take]; exact Nat.min_eq_left hle)⟩
      rw [List.append_assoc, List.take_append_drop]
    · rw [TypeCode.major_ofMajor hm'] at hm
      rw [stringRule, ItemHead.indefinite_one, if_pos rfl] at hs
      obtain ⟨p, hp, hw⟩ := wellFormed_of_chunks hm hs
      refine ⟨initialByte m 31 :: p, ?_, .stringIndefinite hm hw⟩
      rw [List.cons_append, ← hp]
      rfl
  | @container b rest h hh h4 h6 _ ih =>
    obtain ⟨p, hp, hw⟩ := ih
    obtain ⟨m, hm, ⟨info, v, head, tail, rfl, hhead, -, rfl⟩ | ⟨tail, rfl, hmay, rfl⟩⟩ := headOf_sound hh
    · rw [TypeCode.major_ofMajor hm] at h4 h6
      rw [head_append] at hp
      subst hp
      rw [goalOf_definite hm] at hw
      refine ⟨head ++ p, by rw [List.append_assoc], ?_⟩
      have hcases : m = 4 ∨ m = 5 ∨ m = 6 := by omega
      rcases hcases with rfl | rfl | rfl
      · exact .array hhead hw
      · exact .map hhead hw
      · exact .tag hhead hw
    · rw [TypeCode.major_ofMajor hm] at h4 h6
      rw [goalOf_indefinite hm] at hw
      refine ⟨initialByte m 31 :: p, by rw [List.cons_append, ← hp]; rfl, ?_⟩
      have hcases : m = 4 ∨ m = 5 := by omega
      rcases hcases with rfl | rfl
      · exact .arrayIndefinite hw
      · exact .mapIndefinite hw
  | none => exact ⟨[], rfl, .none⟩
  | more _ _ ih ih' =>
    obtain ⟨p, rfl, hw⟩ := ih
    obtain ⟨q, rfl, hw'⟩ := ih'
    exact ⟨p ++ q, (List.append_assoc _ _ _).symm, .more hw hw'⟩
  | lastElement => exact ⟨[breakByte], rfl, .lastElement⟩
  | element _ _ ih ih' =>
    obtain ⟨p, rfl, hw⟩ := ih
    obtain ⟨q, rfl, hw'⟩ := ih'
    exact ⟨p ++ q, (List.append_assoc _ _ _).symm, .element hw hw'⟩
  | lastEntry => exact ⟨[breakByte], rfl, .lastEntry⟩
  | key _ _ ih ih' =>
    obtain ⟨p, rfl, hw⟩ := ih
    obtain ⟨q, rfl, v, e, rfl, hv, he⟩ := ih'
    exact ⟨p ++ (v ++ e), (List.append_assoc _ _ _).symm, .entry hw hv he⟩
  | value _ _ ih ih' =>
    obtain ⟨p, rfl, hw⟩ := ih
    obtain ⟨q, rfl, hw'⟩ := ih'
    exact ⟨p ++ q, (List.append_assoc _ _ _).symm, p, q, rfl, hw, hw'⟩

/-- The machine's items are the well-formed ones. -/
theorem reads_iff_wellFormed :
    Reads (stringRule wholeChunk) .item b rest ↔ ∃ p, b = p ++ rest ∧ WellFormed .item p := by
  constructor
  · exact derives_of_reads
  · intro h
    obtain ⟨p, rfl, hw⟩ := h
    exact reads_of_wellFormed hw rest

end DeepPack.ItemMachine
