import DeepPack.Items.ItemMachine

/-! What a stack entry still wants from the bytes.

A goal is read one item at a time, and the head of an item says what its content is.
The entry of a container, between two of its items, wants what its goal wants behind
the first of them. -/
namespace DeepPack.ItemMachine

variable {S : StringRule} {L : ItemHead → List UInt8 → Prop} {h sub : ItemHead} {b u rest : List UInt8}

/-! ### The goals, one item at a time -/

namespace Goal

/-- What is left of a goal behind its first item. -/
def after : Goal → Goal
  | items n => items (n - 1)
  | elements => elements
  | entries => value
  | value => entries
  | item => items 0

/-- A goal made of items that is not met yet. -/
def IsOpen (g : Goal) : Prop := g ≠ item ∧ g ≠ items 0

/-- A break meets the goal. -/
def EndsAtBreak (g : Goal) : Prop := g = elements ∨ g = entries

end Goal

theorem reads_none : Reads S (.items 0) b rest ↔ rest = b := by
  constructor
  · intro h
    cases h
    rfl
  · intro heq
    subst heq
    exact .none

theorem reads_open {g : Goal} (hg : g.IsOpen) :
    Reads S g b rest ↔ (g.EndsAtBreak ∧ b = breakByte :: rest) ∨
      ∃ u, Reads S .item b u ∧ Reads S g.after u rest := by
  constructor
  · intro hr
    cases hr with
    | scalar | string | container => exact absurd rfl hg.1
    | none => exact absurd rfl hg.2
    | more hi hr => exact .inr ⟨_, hi, hr⟩
    | lastElement => exact .inl ⟨.inl rfl, rfl⟩
    | element hi hr => exact .inr ⟨_, hi, hr⟩
    | lastEntry => exact .inl ⟨.inr rfl, rfl⟩
    | key hi hr => exact .inr ⟨_, hi, hr⟩
    | value hi hr => exact .inr ⟨_, hi, hr⟩
  · intro h
    rcases h with ⟨rfl | rfl, rfl⟩ | ⟨u, hi, hr⟩
    · exact .lastElement
    · exact .lastEntry
    · cases g with
      | item => exact absurd rfl hg.1
      | items n =>
        cases n with
        | zero => exact absurd rfl hg.2
        | succ n => exact .more hi hr
      | elements => exact .element hi hr
      | entries => exact .key hi hr
      | value => exact .value hi hr

theorem meets_open {g : Goal} (hg : g.IsOpen) :
    Meets S L g b ↔ Meets S L .item b ∨ ∃ u, Reads S .item b u ∧ Meets S L g.after u := by
  constructor
  · intro hs
    cases hs with
    | string | container => exact absurd rfl hg.1
    | first hi | firstElement hi | firstKey hi | firstValue hi => exact .inl hi
    | more hi hs | element hi hs | key hi hs | value hi hs => exact .inr ⟨_, hi, hs⟩
  · intro hs
    cases g with
    | item => exact absurd rfl hg.1
    | items n =>
      cases n with
      | zero => exact absurd rfl hg.2
      | succ n => exact hs.elim .first fun ⟨_, hi, hs⟩ => .more hi hs
    | elements => exact hs.elim .firstElement fun ⟨_, hi, hs⟩ => .element hi hs
    | entries => exact hs.elim .firstKey fun ⟨_, hi, hs⟩ => .key hi hs
    | value => exact hs.elim .firstValue fun ⟨_, hi, hs⟩ => .value hi hs

theorem not_meets_none : ¬ Meets S L (.items 0) b := by
  intro h
  cases h

/-! ### Items and their heads -/

theorem content_string (hm : h.type.major = 2 ∨ h.type.major = 3) :
    Content S h b rest ↔ S h b rest := by
  rw [Content, if_pos hm]

theorem content_container (h4 : 4 ≤ h.type.major) (h6 : h.type.major ≤ 6) :
    Content S h b rest ↔ Reads S (goalOf h) b rest := by
  rw [Content, if_neg (by omega), if_pos ⟨h4, h6⟩]

theorem content_scalar (hs : h.type.major < 2 ∨ h.type.major = 7) :
    Content S h b rest ↔ IsScalar h ∧ rest = b := by
  rw [Content, if_neg (by omega), if_neg (by omega)]

theorem contentMeets_string (hm : h.type.major = 2 ∨ h.type.major = 3) :
    ContentMeets S L h b ↔ L h b := by
  rw [ContentMeets, if_pos hm]

theorem contentMeets_container (h4 : 4 ≤ h.type.major) (h6 : h.type.major ≤ 6) :
    ContentMeets S L h b ↔ Meets S L (goalOf h) b := by
  rw [ContentMeets, if_neg (by omega), if_pos ⟨h4, h6⟩]

theorem contentMeets_scalar (hs : h.type.major < 2 ∨ h.type.major = 7) : ¬ ContentMeets S L h b := by
  rw [ContentMeets, if_neg (by omega), if_neg (by omega)]
  exact id

/-- The kinds of heads, by their major type. -/
theorem major_cases (h : ItemHead) :
    (h.type.major < 2 ∨ h.type.major = 7) ∨ (h.type.major = 2 ∨ h.type.major = 3) ∨
      (4 ≤ h.type.major ∧ h.type.major ≤ 6) := by
  have : h.type.major < 8 := by cases h.type <;> decide
  omega

theorem reads_item (hh : headOf b = .ok h) :
    Reads S .item b rest ↔ Content S h (b.drop h.encodedLength) rest := by
  constructor
  · intro hr
    cases hr with
    | scalar hh' hs =>
      cases hh.symm.trans hh'
      exact (content_scalar (by unfold IsScalar at hs; omega)).mpr ⟨hs, rfl⟩
    | string hh' hm hs =>
      cases hh.symm.trans hh'
      exact (content_string hm).mpr hs
    | container hh' h4 h6 hr =>
      cases hh.symm.trans hh'
      exact (content_container h4 h6).mpr hr
  · intro hc
    rcases major_cases h with hm | hm | hm
    · obtain ⟨hs, rfl⟩ := (content_scalar hm).mp hc
      exact .scalar hh hs
    · exact .string hh hm ((content_string hm).mp hc)
    · exact .container hh hm.1 hm.2 ((content_container hm.1 hm.2).mp hc)

theorem meets_item (hh : headOf b = .ok h) :
    Meets S L .item b ↔ ContentMeets S L h (b.drop h.encodedLength) := by
  constructor
  · intro hs
    cases hs with
    | string hh' hm hl =>
      cases hh.symm.trans hh'
      exact (contentMeets_string hm).mpr hl
    | container hh' h4 h6 hs =>
      cases hh.symm.trans hh'
      exact (contentMeets_container h4 h6).mpr hs
  · intro hc
    rcases major_cases h with hm | hm | hm
    · exact absurd hc (contentMeets_scalar hm)
    · exact .string hh hm ((contentMeets_string hm).mp hc)
    · exact .container hh hm.1 hm.2 ((contentMeets_container hm.1 hm.2).mp hc)

/-- Bytes that start with no head start with no item. -/
theorem headOf_of_reads (hr : Reads S .item b rest) : ∃ h, headOf b = .ok h := by
  cases hr with
  | scalar hh | string hh | container hh => exact ⟨_, hh⟩

theorem headOf_of_meets (hs : Meets S L .item b) : ∃ h, headOf b = .ok h := by
  cases hs with
  | string hh | container hh => exact ⟨_, hh⟩

/-! ### What a head that was found looks like -/

/-- Holds of every head the machine keeps on its stack. -/
def Tame (h : ItemHead) : Prop := h.flags < 4 ∧ (h.indefinite = true → h.value ≠ 0)

theorem encodedLength_pos (hh : headOf b = .ok h) : 0 < h.encodedLength := by
  obtain ⟨m, hm, ⟨info, v, head, rest, rfl, hhead, -, rfl⟩ | ⟨rest, rfl, -, rfl⟩⟩ := headOf_sound hh
  · cases hhead <;> simp
  · exact Nat.one_pos

theorem encodedLength_le (hh : headOf b = .ok h) : h.encodedLength ≤ b.length := by
  obtain ⟨m, hm, ⟨info, v, head, rest, rfl, hhead, -, rfl⟩ | ⟨rest, rfl, -, rfl⟩⟩ := headOf_sound hh
  · rw [List.length_append]
    exact Nat.le_add_right _ _
  · rw [List.length_cons]
    exact Nat.le_add_left _ _

theorem drop_head_lt (hh : headOf b = .ok h) : (b.drop h.encodedLength).length < b.length := by
  have hpos := encodedLength_pos hh
  have hle := encodedLength_le hh
  rw [List.length_drop]
  omega

theorem tame_of_headOf (hh : headOf b = .ok h) : Tame h := by
  obtain ⟨m, hm, ⟨info, v, head, rest, -, -, -, rfl⟩ | ⟨rest, -, -, rfl⟩⟩ := headOf_sound hh
  · exact ⟨(by decide : (0 : UInt8) < 4), fun hi => absurd hi (by simp [ItemHead.indefinite])⟩
  · exact ⟨(by decide : (1 : UInt8) < 4), fun _ => (by decide : 31 ≠ 0)⟩

theorem headOf_break (rest : List UInt8) : headOf (breakByte :: rest) = .ok ⟨.special, 1, 1, 31⟩ :=
  headOf_indefinite (m := 7) (by decide) (by decide) rest

/-- A break is one byte. -/
theorem break_of_headOf (hh : headOf b = .ok sub) (hb : sub.isSpecialBreak = true) :
    b = breakByte :: b.drop sub.encodedLength := by
  simp only [ItemHead.isSpecialBreak, Bool.and_eq_true, beq_iff_eq] at hb
  obtain ⟨m, hm, ⟨info, v, head, rest, -, -, -, rfl⟩ | ⟨rest, rfl, -, rfl⟩⟩ := headOf_sound hh
  · exact absurd hb.2 (by simp [ItemHead.indefinite])
  · have h7 : m = 7 := (TypeCode.ofMajor_inj hm (by decide)).mp hb.1
    subst h7
    rfl

theorem isSpecialBreak_iff (hh : headOf b = .ok sub) :
    sub.isSpecialBreak = true ↔ ∃ rest, b = breakByte :: rest := by
  constructor
  · intro hb
    exact ⟨_, break_of_headOf hh hb⟩
  · intro h
    obtain ⟨rest, rfl⟩ := h
    rw [headOf_break] at hh
    cases hh
    rfl

/-- A break is not an item. -/
theorem not_reads_break : ¬ Reads S .item (breakByte :: u) rest := by
  rw [reads_item (headOf_break u), content_scalar (.inr rfl)]
  intro h
  rcases h with ⟨h2 | ⟨-, hi⟩, -⟩
  · exact absurd h2 (by decide)
  · exact absurd hi (by decide)

theorem not_meets_break : ¬ Meets S L .item (breakByte :: u) := by
  rw [meets_item (headOf_break u)]
  exact contentMeets_scalar (.inr rfl)

/-! ### Containers between their items -/

/-- The entry of a container behind the head of its next item. -/
def next (h : ItemHead) : ItemHead :=
  if h.type.major = 4 then {h with value := h.value - (!h.indefinite).toNat}
  else {h with
    flags := h.flags ^^^ 2
    value := h.value - ((h.flags >>> 1).toNat &&& (!h.indefinite).toNat)}

theorem toggled_flags {f : UInt8} (hf : f < 4) :
    f ^^^ 2 < 4 ∧ ((f ^^^ 2) &&& 1 = f &&& 1) ∧ ((f ^^^ 2) >>> 1 ≠ 0 ↔ f >>> 1 = 0) ∧
      (f >>> 1).toNat = if f >>> 1 = 0 then 0 else 1 := by
  have h : ∀ f : Fin 4, UInt8.ofNat f ^^^ 2 < 4 ∧ ((UInt8.ofNat f ^^^ 2) &&& 1 = UInt8.ofNat f &&& 1) ∧
      ((UInt8.ofNat f ^^^ 2) >>> 1 ≠ 0 ↔ UInt8.ofNat f >>> 1 = 0) ∧
      (UInt8.ofNat f >>> 1).toNat = if UInt8.ofNat f >>> 1 = 0 then 0 else 1 := by decide
  have hlt : f.toNat < 4 := hf
  have := h ⟨f.toNat, hlt⟩
  rwa [UInt8.ofNat_toNat] at this

@[simp] theorem next_type (h : ItemHead) : (next h).type = h.type := by
  unfold next
  split <;> rfl

theorem next_indefinite (ht : Tame h) : (next h).indefinite = h.indefinite := by
  unfold next
  split
  · rfl
  · simp only [ItemHead.indefinite, ItemHead.flagIndefinite, (toggled_flags ht.1).2.1]

theorem tame_next (ht : Tame h) : Tame (next h) := by
  refine ⟨?_, fun hi => ?_⟩
  · unfold next
    split
    · exact ht.1
    · exact (toggled_flags ht.1).1
  · rw [next_indefinite ht] at hi
    have hv := ht.2 hi
    unfold next
    split <;> simpa [hi] using hv

theorem goalOf_array (h4 : h.type.major = 4) :
    goalOf h = if h.indefinite then .elements else .items h.value := by
  rw [goalOf, if_pos h4]

theorem goalOf_map (h5 : h.type.major = 5) :
    goalOf h = if h.indefinite then if expectsValue h then .value else .entries
      else .items (2 * h.value - if expectsValue h then 1 else 0) := by
  rw [goalOf, if_neg (by omega), if_pos h5]

theorem goalOf_tag (h6 : h.type.major = 6) : goalOf h = .item := by
  rw [goalOf, if_neg (by omega), if_neg (by omega)]

/-- A container that wants nothing more. -/
theorem goalOf_zero (hm : h.type.major = 4 ∨ h.type.major = 5) (ht : Tame h) (hv : h.value = 0) :
    goalOf h = .items 0 := by
  have hi : h.indefinite = false := Bool.eq_false_iff.mpr fun hi => ht.2 hi hv
  rcases hm with h4 | h5
  · simp [goalOf_array h4, hi, hv]
  · simp [goalOf_map h5, hi, hv]

theorem goalOf_open (hm : h.type.major = 4 ∨ h.type.major = 5) (hv : h.value ≠ 0) : (goalOf h).IsOpen := by
  rcases hm with h4 | h5
  · rw [goalOf_array h4]
    split
    · exact ⟨nofun, nofun⟩
    · refine ⟨nofun, fun hg => hv ?_⟩
      injection hg
  · rw [goalOf_map h5]
    split
    · split <;> exact ⟨nofun, nofun⟩
    · refine ⟨nofun, fun hg => hv ?_⟩
      injection hg
      split at * <;> omega

/-- Only an indefinite container ends at a break, a map not in front of a value. -/
theorem goalOf_endsAtBreak (hm : h.type.major = 4 ∨ h.type.major = 5) :
    (goalOf h).EndsAtBreak ↔ h.indefinite = true ∧ ¬ (h.type.major = 5 ∧ expectsValue h) := by
  unfold Goal.EndsAtBreak
  rcases hm with h4 | h5
  · rw [goalOf_array h4]
    cases h.indefinite <;> simp [h4]
  · rw [goalOf_map h5]
    cases h.indefinite <;> by_cases hx : expectsValue h <;> simp [h5, hx]

/-- The entry behind the next item wants what its goal wants behind it. -/
theorem goalOf_next (hm : h.type.major = 4 ∨ h.type.major = 5) (ht : Tame h) :
    goalOf (next h) = (goalOf h).after := by
  have hi := next_indefinite ht
  rcases hm with h4 | h5
  · rw [goalOf_array h4, goalOf_array (by rw [next_type, h4]), hi]
    cases hind : h.indefinite
    · simp [next, h4, hind, Goal.after]
    · rfl
  · rw [goalOf_map h5, goalOf_map (by rw [next_type, h5]), hi]
    have hx : expectsValue (next h) ↔ ¬ expectsValue h := by
      simp only [next, if_neg (show ¬ h.type.major = 4 by omega), expectsValue]
      rw [(toggled_flags ht.1).2.2.1, not_not]
    cases hind : h.indefinite
    · have hvalue : (next h).value = h.value - if expectsValue h then 1 else 0 := by
        simp only [next, if_neg (show ¬ h.type.major = 4 by omega), hind, expectsValue]
        rw [(toggled_flags ht.1).2.2.2]
        by_cases h0 : h.flags >>> 1 = 0 <;> simp [h0]
      rw [hvalue]
      by_cases hexp : expectsValue h
      · simp only [hx, hexp, not_true, if_true, if_false, Goal.after, Bool.false_eq_true]
        congr 1
        omega
      · simp [hx, hexp, Goal.after]
    · by_cases hexp : expectsValue h <;> simp [hx, hexp, Goal.after]

end DeepPack.ItemMachine
