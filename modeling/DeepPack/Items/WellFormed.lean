import DeepPack.Items.Head

/-! The grammar of well-formed data items.

An item is a head and what its major type says follows. `WellFormed` derives an
item, and with it the sequences items are made of, byte for byte: a break only
ever closes an indefinite string, array or map, and in a map it stands where a
key would. Nothing here mentions a parser. What connects the grammar to the
parsers is that `headOf` finds exactly the heads of the grammar. -/
namespace DeepPack
open Library

/-- The first byte of an item: its major type and its additional information. -/
def initialByte (major info : Nat) : UInt8 := UInt8.ofNat (major * 32 + info)

def breakByte : UInt8 := 0xff

/-- The heads of a major type with a definite argument. -/
inductive Head (major : Nat) : (info argument : Nat) → List UInt8 → Prop where
  | inline {v : Nat} : v ≤ 23 → Head major v v [initialByte major v]
  | payload {p : Nat} {bytes : List UInt8} : p ≤ 3 → bytes.length = 2 ^ p →
      Head major (24 + p) (ofBytes bytes) (initialByte major (24 + p) :: bytes)

/-- What a derivation derives. -/
inductive Part where
  /-- One data item. -/
  | item
  /-- So many data items. -/
  | items (n : Nat)
  /-- The chunks of an indefinite string of a major type, up to its break. -/
  | chunks (major : Nat)
  /-- The elements of an indefinite array, up to its break. -/
  | elements
  /-- The entries of an indefinite map, up to its break. -/
  | entries
  deriving DecidableEq, Repr

/-- The bytes that make up one part. -/
inductive WellFormed : Part → List UInt8 → Prop where
  | int {m info v : Nat} {head : List UInt8} : m = 0 ∨ m = 1 → Head m info v head → WellFormed .item head
  | simple {info v : Nat} {head : List UInt8} : Head 7 info v head → ¬ (info = 24 ∧ v < 32) →
      WellFormed .item head
  | string {m info v : Nat} {head content : List UInt8} : m = 2 ∨ m = 3 → Head m info v head →
      content.length = v → WellFormed .item (head ++ content)
  | stringIndefinite {m : Nat} {body : List UInt8} : m = 2 ∨ m = 3 → WellFormed (.chunks m) body →
      WellFormed .item (initialByte m 31 :: body)
  | array {info v : Nat} {head body : List UInt8} : Head 4 info v head → WellFormed (.items v) body →
      WellFormed .item (head ++ body)
  | arrayIndefinite {body : List UInt8} : WellFormed .elements body →
      WellFormed .item (initialByte 4 31 :: body)
  | map {info v : Nat} {head body : List UInt8} : Head 5 info v head → WellFormed (.items (2 * v)) body →
      WellFormed .item (head ++ body)
  | mapIndefinite {body : List UInt8} : WellFormed .entries body →
      WellFormed .item (initialByte 5 31 :: body)
  | tag {info v : Nat} {head body : List UInt8} : Head 6 info v head → WellFormed .item body →
      WellFormed .item (head ++ body)
  | none : WellFormed (.items 0) []
  | more {n : Nat} {first rest : List UInt8} : WellFormed .item first → WellFormed (.items n) rest →
      WellFormed (.items (n + 1)) (first ++ rest)
  | lastChunk {m : Nat} : WellFormed (.chunks m) [breakByte]
  | chunk {m info v : Nat} {head content rest : List UInt8} : Head m info v head → content.length = v →
      WellFormed (.chunks m) rest → WellFormed (.chunks m) (head ++ (content ++ rest))
  | lastElement : WellFormed .elements [breakByte]
  | element {first rest : List UInt8} : WellFormed .item first → WellFormed .elements rest →
      WellFormed .elements (first ++ rest)
  | lastEntry : WellFormed .entries [breakByte]
  | entry {key value rest : List UInt8} : WellFormed .item key → WellFormed .item value →
      WellFormed .entries rest → WellFormed .entries (key ++ (value ++ rest))

theorem Head.length_pos {m info v : Nat} {head : List UInt8} (h : Head m info v head) : 0 < head.length := by
  cases h <;> exact Nat.succ_pos _

/-- An item takes a byte at least. -/
theorem WellFormed.item_length_pos {p : List UInt8} (h : WellFormed .item p) : 0 < p.length := by
  cases h with
  | int _ hhead => exact hhead.length_pos
  | simple hhead => exact hhead.length_pos
  | stringIndefinite | arrayIndefinite | mapIndefinite => exact Nat.succ_pos _
  | string _ hhead | array hhead | map hhead | tag hhead =>
    rw [List.length_append]
    exact Nat.add_pos_left hhead.length_pos _

theorem WellFormed.items_length {n : Nat} {p : List UInt8} (h : WellFormed (.items n) p) : n ≤ p.length := by
  induction n generalizing p with
  | zero => exact Nat.zero_le _
  | succ n ih =>
    cases h with
    | more hfirst hrest =>
      have hpos := hfirst.item_length_pos
      have hlen := ih hrest
      rw [List.length_append]
      omega

/-! ### Heads of the grammar and heads of the parser -/

theorem headOfIndicator_initialByte {m info : Nat} (hm : m < 8) (hi : info < 32) :
    Detail.headOfIndicator (initialByte m info) = ⟨.ofMajor m, 0, 1, info⟩ := by
  have h : ∀ (m : Fin 8) (i : Fin 32),
      Detail.headOfIndicator (initialByte m i) = ⟨.ofMajor m, 0, 1, i⟩ := by decide +kernel
  exact h ⟨m, hm⟩ ⟨info, hi⟩

theorem initialByte_split (b : UInt8) : b = initialByte (b.toNat / 32) (b.toNat % 32) := by
  rw [initialByte, Nat.div_add_mod' b.toNat 32, UInt8.ofNat_toNat]

theorem mayBeIndefinite_ofMajor {m : Nat} (hm : m < 8) :
    Detail.mayBeIndefinite (.ofMajor m) = true ↔ m ≠ 0 ∧ m ≠ 1 ∧ m ≠ 6 := by
  interval_cases m <;> decide

/-- The extended simple values a byte of their own is wasted on. -/
def BadSimple (m info v : Nat) : Prop := m = 7 ∧ info = 24 ∧ v < 32

theorem invalidExtended_iff {m p v len : Nat} (hm : m < 8) (flags : UInt8) :
    Detail.invalidExtended ⟨.ofMajor m, flags, len, v⟩ p = true ↔ BadSimple m (24 + p) v := by
  have hspecial : (TypeCode.ofMajor m == .special) = decide (m = 7) := by
    interval_cases m <;> rfl
  simp only [Detail.invalidExtended, hspecial, Bool.and_eq_true, decide_eq_true_eq, beq_iff_eq, BadSimple]
  constructor
  · intro h
    obtain ⟨⟨h7, h0⟩, hv⟩ := h
    exact ⟨h7, by omega, hv⟩
  · intro h
    obtain ⟨h7, h24, hv⟩ := h
    exact ⟨⟨h7, by omega⟩, hv⟩

instance (m info v : Nat) : Decidable (BadSimple m info v) := by
  unfold BadSimple
  infer_instance

/-- `headOf` in the terms of the grammar. -/
theorem headOf_initialByte {m info : Nat} (hm : m < 8) (hi : info < 32) (payload : List UInt8) :
    headOf (initialByte m info :: payload) =
      if info ≤ 23 then .ok ⟨.ofMajor m, 0, 1, info⟩
      else if info ≤ 27 then
        if payload.length < 2 ^ (info - 24) then .error .endOfStream
        else if BadSimple m info (ofBytes (payload.take (2 ^ (info - 24)))) then
          .error .invalidAdditionalInformation
        else .ok ⟨.ofMajor m, 0, 1 + 2 ^ (info - 24), ofBytes (payload.take (2 ^ (info - 24)))⟩
      else if info = 31 ∧ m ≠ 0 ∧ m ≠ 1 ∧ m ≠ 6 then .ok ⟨.ofMajor m, 1, 1, 31⟩
      else .error .invalidAdditionalInformation := by
  rw [headOf, headOfIndicator_initialByte hm hi]
  by_cases h23 : info ≤ 23
  · rw [if_pos h23]
    exact if_pos h23
  rw [if_neg h23]
  apply (if_neg h23).trans
  by_cases h27 : info ≤ 27
  · rw [if_pos h27]
    apply (if_pos h27).trans
    have hshift : 1 <<< (info - 24) = 2 ^ (info - 24) := by rw [Nat.shiftLeft_eq, Nat.one_mul]
    have hinfo : 24 + (info - 24) = info := by omega
    show (if payload.length < 1 <<< (info - 24) then _
      else if Detail.invalidExtended
          ⟨.ofMajor m, 0, 1 + 1 <<< (info - 24), ofBytes (payload.take (1 <<< (info - 24)))⟩ (info - 24) then _
      else Except.ok
        (⟨.ofMajor m, 0, 1 + 1 <<< (info - 24), ofBytes (payload.take (1 <<< (info - 24)))⟩ : ItemHead)) = _
    rw [hshift]
    refine if_congr Iff.rfl rfl (if_congr ?_ rfl rfl)
    rw [invalidExtended_iff hm, hinfo]
  · rw [if_neg h27]
    refine (if_neg h27).trans (if_ctx_congr ?_ ?_ (fun _ => rfl))
    · rw [mayBeIndefinite_ofMajor hm]
      rfl
    · intro h
      obtain ⟨rfl, _⟩ := h
      simp [ItemHead.makeIndefinite, ItemHead.flagIndefinite]

/-- A head of the grammar is found. -/
theorem Head.headOf {m info v : Nat} {head : List UInt8} (h : Head m info v head) (hm : m < 8)
    (hgood : ¬ BadSimple m info v) (rest : List UInt8) :
    headOf (head ++ rest) = .ok ⟨.ofMajor m, 0, head.length, v⟩ := by
  cases h with
  | inline hv =>
    rw [List.singleton_append, headOf_initialByte hm (by omega), if_pos hv]
    rfl
  | @payload p bytes hp hlen =>
    have hp24 : 24 + p - 24 = p := by omega
    rw [List.cons_append, headOf_initialByte hm (by omega), if_neg (by omega), if_pos (by omega), hp24,
      ← hlen, List.take_left, if_neg (by rw [List.length_append]; omega), if_neg hgood, List.length_cons,
      Nat.add_comm 1]

/-- An indefinite head of the grammar is found. -/
theorem headOf_indefinite {m : Nat} (hm : m < 8) (hmay : m ≠ 0 ∧ m ≠ 1 ∧ m ≠ 6) (rest : List UInt8) :
    headOf (initialByte m 31 :: rest) = .ok ⟨.ofMajor m, 1, 1, 31⟩ := by
  rw [headOf_initialByte hm (by decide), if_neg (by decide), if_neg (by decide), if_pos ⟨rfl, hmay⟩]

/-- A head that was found is one of the grammar, or an indefinite one. -/
theorem headOf_sound {b : List UInt8} {h : ItemHead} (hh : headOf b = .ok h) :
    ∃ m, m < 8 ∧
      ((∃ info v head rest, b = head ++ rest ∧ Head m info v head ∧ ¬ BadSimple m info v ∧
          h = ⟨.ofMajor m, 0, head.length, v⟩) ∨
        (∃ rest, b = initialByte m 31 :: rest ∧ (m ≠ 0 ∧ m ≠ 1 ∧ m ≠ 6) ∧ h = ⟨.ofMajor m, 1, 1, 31⟩)) := by
  cases b with
  | nil => cases hh
  | cons indicator payload =>
    have hm : indicator.toNat / 32 < 8 := by
      have := indicator.toNat_lt
      omega
    refine ⟨indicator.toNat / 32, hm, ?_⟩
    have hi : indicator.toNat % 32 < 32 := Nat.mod_lt _ (by decide)
    have hsplit := initialByte_split indicator
    generalize indicator.toNat / 32 = m at *
    generalize indicator.toNat % 32 = info at *
    subst hsplit
    rw [headOf_initialByte hm hi] at hh
    split at hh
    · rename_i h23
      cases hh
      exact .inl ⟨info, info, [initialByte m info], payload, rfl, .inline h23, fun hbad => by
        have := hbad.2.1
        omega, rfl⟩
    split at hh
    · rename_i h23 h27
      split at hh
      · cases hh
      rename_i hlen
      split at hh
      · cases hh
      rename_i hgood
      cases hh
      have htake : (payload.take (2 ^ (info - 24))).length = 2 ^ (info - 24) := by
        rw [List.length_take]
        omega
      have hhead : Head m (24 + (info - 24)) _ _ := Head.payload (by omega) htake
      rw [show 24 + (info - 24) = info by omega] at hhead
      refine .inl ⟨info, _, _, payload.drop (2 ^ (info - 24)), ?_, hhead, hgood, ?_⟩
      · rw [List.cons_append, List.take_append_drop]
      · rw [List.length_cons, htake, Nat.add_comm 1]
    split at hh
    · rename_i hindef
      cases hh
      exact .inr ⟨payload, by rw [hindef.1], hindef.2, rfl⟩
    · cases hh

end DeepPack
