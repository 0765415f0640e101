import Mathlib.Data.List.Forall2
import Mathlib.Data.Nat.Basic

/-! Sets of numbers, kept as the bits of a list of words. -/
namespace DeepPack.Library

section BitSets
variable {w : Nat} {words other : List (BitVec w)} {i j : Nat}

/-- Bit `i` of the words: bit `i % w` of word `i / w`. -/
def bitAt (words : List (BitVec w)) (i : Nat) : Bool := (words[i / w]?.getD 0).getLsbD (i % w)

/-- Bit `i` is set as well if `v` is. -/
def orBit (words : List (BitVec w)) (i : Nat) (v : Bool) : List (BitVec w) :=
  words.modify (i / w) fun b => b ||| (BitVec.ofBool v).setWidth w <<< (i % w)

@[simp] theorem orBit_length (words : List (BitVec w)) (i : Nat) (v : Bool) :
    (orBit words i v).length = words.length :=
  List.length_modify _ words _

/-- A single bit in a word. -/
theorem getLsbD_ofBool_shiftLeft (v : Bool) {k l : Nat} (hl : l < w) :
    ((BitVec.ofBool v).setWidth w <<< k).getLsbD l = (v && k == l) := by
  rw [BitVec.getLsbD_shiftLeft, decide_eq_true hl, Bool.true_and, BitVec.getLsbD_setWidth]
  rcases Nat.lt_trichotomy l k with hlt | rfl | hgt
  · rw [decide_eq_true hlt, Bool.not_true, Bool.false_and, beq_false_of_ne (Nat.ne_of_gt hlt), Bool.and_false]
  · rw [Nat.sub_self, decide_eq_false (Nat.lt_irrefl l), decide_eq_true (by omega), beq_self_eq_true]
    cases v <;> rfl
  · have hhigh : (BitVec.ofBool v).getLsbD (l - k) = false := BitVec.getLsbD_of_ge _ _ (by omega)
    rw [hhigh, beq_false_of_ne (Nat.ne_of_lt hgt), Bool.and_false, Bool.and_false, Bool.and_false]

/-- Setting a bit sets just that one, in a word there is. -/
theorem bitAt_orBit (hw : 0 < w) (hi : i / w < words.length) (v : Bool) (j : Nat) :
    bitAt (orBit words i v) j = (bitAt words j || (v && i == j)) := by
  rw [bitAt, bitAt, orBit, List.getElem?_modify]
  by_cases hword : i / w = j / w
  · have hbit : (i % w == j % w) = (i == j) := by
      refine Bool.eq_iff_iff.mpr ?_
      rw [beq_iff_eq, beq_iff_eq]
      refine ⟨fun h => ?_, fun h => h ▸ rfl⟩
      rw [← Nat.div_add_mod i w, ← Nat.div_add_mod j w, hword, h]
    simp only [hword, if_true]
    rw [← hword, List.getElem?_eq_getElem hi, Option.map_eq_map, Option.map_some, Option.getD_some,
      Option.getD_some,
      BitVec.getLsbD_or, getLsbD_ofBool_shiftLeft v (Nat.mod_lt j hw), hbit]
  · have hne : (i == j) = false := beq_false_of_ne fun h => hword (h ▸ rfl)
    simp only [hword, if_false, Option.map_eq_map, Option.map_id']
    rw [hne, Bool.and_false, Bool.or_false]

theorem bitAt_replicate_zero (n i : Nat) : bitAt (List.replicate n (0 : BitVec w)) i = false := by
  rw [bitAt, List.getElem?_replicate]
  split
  · exact BitVec.getLsbD_zero
  · exact BitVec.getLsbD_zero

/-- All bits are set that the members of a list ask for. -/
theorem bitAt_foldl_orBit {α : Type} (hw : 0 < w) (l : List α) (index : α → Nat) (value : α → Bool)
    (h : ∀ a ∈ l, index a / w < words.length) (j : Nat) :
    bitAt (l.foldl (fun b a => orBit b (index a) (value a)) words) j = true ↔
      bitAt words j = true ∨ ∃ a ∈ l, index a = j ∧ value a = true := by
  induction l generalizing words with
  | nil => exact ⟨.inl, fun h => h.resolve_right fun h => by obtain ⟨_, hmem, _⟩ := h; cases hmem⟩
  | cons a l ih =>
    have hrest : ∀ b ∈ l, index b / w < (orBit words (index a) (value a)).length := fun b hb => by
      rw [orBit_length]
      exact h b (List.mem_cons_of_mem a hb)
    rw [List.foldl_cons, ih hrest, bitAt_orBit hw (h a List.mem_cons_self), Bool.or_eq_true, Bool.and_eq_true,
      beq_iff_eq, or_assoc]
    simp only [List.exists_mem_cons_iff, and_comm (a := index a = j)]

theorem foldl_orBit_length {α : Type} (l : List α) (index : α → Nat) (value : α → Bool) (words : List (BitVec w)) :
    (l.foldl (fun b a => orBit b (index a) (value a)) words).length = words.length := by
  induction l generalizing words with
  | nil => rfl
  | cons a l ih => exact (ih _).trans (orBit_length _ _ _)

/-- Word by word the bits of `other` are among those of `words`. -/
def Includes (words other : List (BitVec w)) : Prop := List.Forall₂ (fun a b => a &&& b = b) words other

/-- A word includes another if it has its bits. -/
theorem and_eq_right_iff {a b : BitVec w} : a &&& b = b ↔ ∀ k < w, b.getLsbD k = true → a.getLsbD k = true := by
  constructor
  · intro h k _ hb
    rw [← h, BitVec.getLsbD_and, Bool.and_eq_true] at hb
    exact hb.1
  · intro h
    refine BitVec.eq_of_getLsbD_eq fun k hk => ?_
    rw [BitVec.getLsbD_and]
    cases hb : b.getLsbD k with
    | false => exact Bool.and_false _
    | true => rw [h k hk hb, Bool.and_true]

theorem includes_iff (hw : 0 < w) (hlen : words.length = other.length) :
    Includes words other ↔ ∀ i, bitAt other i = true → bitAt words i = true := by
  rw [Includes, List.forall₂_iff_get]
  constructor
  · intro h i hi
    by_cases hin : i / w < other.length
    · have hword := and_eq_right_iff.mp (h.2 (i / w) (hlen ▸ hin) hin) (i % w) (Nat.mod_lt i hw)
      rw [bitAt, List.getElem?_eq_getElem hin, Option.getD_some] at hi
      rw [bitAt, List.getElem?_eq_getElem (hlen ▸ hin), Option.getD_some]
      exact hword hi
    · rw [bitAt, List.getElem?_eq_none (Nat.le_of_not_lt hin), Option.getD_none] at hi
      exact absurd hi (by
        rw [show (0 : BitVec w).getLsbD (i % w) = false from BitVec.getLsbD_zero]
        exact Bool.false_ne_true)
  · intro h
    refine ⟨hlen, fun q hq hq' => and_eq_right_iff.mpr fun k hk hb => ?_⟩
    have hdiv : (w * q + k) / w = q := by rw [Nat.mul_add_div hw, Nat.div_eq_of_lt hk, Nat.add_zero]
    have hmod : (w * q + k) % w = k := by rw [Nat.mul_add_mod, Nat.mod_eq_of_lt hk]
    have hbit := h (w * q + k)
    rw [bitAt, bitAt, hdiv, hmod, List.getElem?_eq_getElem hq, List.getElem?_eq_getElem hq', Option.getD_some,
      Option.getD_some] at hbit
    exact hbit hb

end BitSets
end DeepPack.Library
