import DeepPack.Items.ItemGoals

/-! A round of the machine.

What is still to come for a stack does not change along a round, whether the round
reads a head, pops an entry or takes the content of a string. -/
namespace DeepPack.ItemMachine

variable {S : StringRule} {L : ItemHead → List UInt8 → Prop} {h sub : ItemHead} {b u rest : List UInt8}

/-! ### What a round does -/

section Round
variable {read : Reader} {stack : List ItemHead}

theorem subItem_ok (hh : headOf b = .ok sub) : subItem b = .ok (sub, b.drop sub.encodedLength) := by
  rw [subItem, hh]

theorem subItem_error {e : Errc} (hh : headOf b = .error e) : subItem b = .error (.errc e) := by
  rw [subItem, hh]

theorem round_scalar (hm : h.type.major < 2 ∨ h.type.major = 7) :
    round read (h :: stack) b =
      if h.type.major = 7 ∧ h.indefinite then .error (.errc .itemTypeMismatch) else .ok (stack, b) := by
  have hcases : h.type.major = 0 ∨ h.type.major = 1 ∨ h.type.major = 7 := by omega
  rcases hcases with hm | hm | hm <;> simp [round, hm]

theorem round_string (hm : h.type.major = 2 ∨ h.type.major = 3) :
    round read (h :: stack) b = (read h b).map fun u => (stack, u) := by
  rcases hm with hm | hm <;> simp only [round, hm] <;> cases read h b <;> rfl

theorem round_full (hm : h.type.major = 4 ∨ h.type.major = 5) (hv : h.value = 0) :
    round read (h :: stack) b = .ok (stack, b) := by
  rcases hm with hm | hm <;> simp [round, hm, hv]

theorem round_noHead {e : Errc} (hm : h.type.major = 4 ∨ h.type.major = 5) (hv : h.value ≠ 0)
    (hh : headOf b = .error e) : round read (h :: stack) b = .error (.errc e) := by
  rcases hm with hm | hm <;> simp only [round, hm, if_neg hv, subItem_error hh] <;> rfl

theorem round_push (hm : h.type.major = 4 ∨ h.type.major = 5) (hv : h.value ≠ 0) (hh : headOf b = .ok sub)
    (hgo : ¬ (h.indefinite = true ∧ sub.isSpecialBreak = true)) :
    round read (h :: stack) b = .ok (sub :: next h :: stack, b.drop sub.encodedLength) := by
  have hcond : (!h.indefinite || !sub.isSpecialBreak) = true := by
    cases hi : h.indefinite <;> cases hs : sub.isSpecialBreak <;> simp_all
  rcases hm with hm | hm <;> simp only [round, hm, if_neg hv, subItem_ok hh, next] <;> exact if_pos hcond

theorem round_break (hm : h.type.major = 4 ∨ h.type.major = 5) (hv : h.value ≠ 0) (hh : headOf b = .ok sub)
    (hi : h.indefinite = true) (hs : sub.isSpecialBreak = true) :
    round read (h :: stack) b =
      if h.type.major = 5 ∧ expectsValue h then .error (.errc .itemTypeMismatch)
      else .ok (stack, b.drop sub.encodedLength) := by
  have hcond : ¬ (!h.indefinite || !sub.isSpecialBreak) = true := by simp [hi, hs]
  have hdecr : (h.flags >>> 1).toNat ≠ 0 ↔ expectsValue h := by
    rw [expectsValue, ne_eq, ne_eq, ← UInt8.toNat_inj]
    rfl
  rcases hm with hm | hm
  · simp only [round, hm, if_neg hv, subItem_ok hh]
    exact if_neg hcond
  · simp only [round, hm, if_neg hv, subItem_ok hh, true_and]
    apply (if_neg hcond).trans
    simp only [hdecr]

theorem round_tag (hm : h.type.major = 6) :
    round read (h :: stack) b = (subItem b).map fun p => (p.1 :: stack, p.2) := by
  simp only [round, hm]
  cases subItem b <;> rfl

end Round

/-- What a reader has to do: leave what `S` leaves, come back unless `L` holds. -/
structure Obeys (read : Nat → Reader) (S : StringRule) (L : ItemHead → List UInt8 → Prop) : Prop where
  ok : ∀ {n h b u}, read n h b = .ok u → ∀ rest, S h b rest ↔ rest = u
  error : ∀ {n h b e}, read n h b = .error e → e ≠ .running → (∀ rest, ¬ S h b rest) ∧ ¬ L h b
  stalls : ∀ {n h b}, L h b → read n h b = .error .running
  ends : ∀ {n h b}, (L h b → ∃ rest, S h b rest) → b.length < n → read n h b ≠ .error .running
  shrinks : ∀ {h b rest}, S h b rest → rest.length ≤ b.length

/-- What is right for a round's result: what is still to come is the same, or nothing could. -/
def Sound (S : StringRule) (L : ItemHead → List UInt8 → Prop) (read : Reader) (stack : List ItemHead)
    (b : List UInt8) : Except Fault (List ItemHead × List UInt8) → Prop
  | .ok (stack', u) => (∀ rest, Stacked S stack b rest ↔ Stacked S stack' u rest) ∧
      (StackMeets S L stack b ↔ StackMeets S L stack' u) ∧ (∀ g ∈ stack', Tame g) ∧
      2 * u.length + stack'.length < 2 * b.length + stack.length
  | .error .running => ∃ h tail, stack = h :: tail ∧ (h.type.major = 2 ∨ h.type.major = 3) ∧
      read h b = .error .running
  | .error _ => (∀ rest, ¬ Stacked S stack b rest) ∧ ¬ StackMeets S L stack b

section Sound
variable {read : Nat → Reader} {n : Nat} {stack : List ItemHead}

/-- An entry is popped. -/
theorem sound_pop (htame : ∀ g ∈ h :: stack, Tame g) (hc : ∀ rest, Content S h b rest ↔ rest = u)
    (hl : ¬ ContentMeets S L h b) (hu : u.length ≤ b.length) :
    Sound S L (read n) (h :: stack) b (.ok (stack, u)) := by
  refine ⟨fun rest => ?_, ?_, fun g hg => htame g (List.mem_cons_of_mem _ hg), ?_⟩
  · constructor
    · intro hex
      obtain ⟨v, hv, hs⟩ := hex
      rwa [(hc v).mp hv] at hs
    · exact fun hs => ⟨u, (hc u).mpr rfl, hs⟩
  · constructor
    · intro hor
      rcases hor with hs | ⟨v, hv, hs⟩
      · exact absurd hs hl
      · rwa [(hc v).mp hv] at hs
    · exact fun hs => .inr ⟨u, (hc u).mpr rfl, hs⟩
  · rw [List.length_cons]
    omega

/-- Nothing can come for the entry on top. -/
theorem sound_stop {e : Errc} (hc : ∀ rest, ¬ Content S h b rest) (hl : ¬ ContentMeets S L h b) :
    Sound S L (read n) (h :: stack) b (.error (.errc e)) := by
  refine ⟨?_, ?_⟩
  · intro rest hex
    obtain ⟨v, hv, -⟩ := hex
    exact hc v hv
  · intro hor
    rcases hor with hs | ⟨v, hv, -⟩
    · exact hl hs
    · exact hc v hv

theorem sound_round_string (hread : Obeys read S L) (htame : ∀ g ∈ h :: stack, Tame g)
    (hm : h.type.major = 2 ∨ h.type.major = 3) :
    Sound S L (read n) (h :: stack) b (round (read n) (h :: stack) b) := by
  rw [round_string hm]
  rcases hr : read n h b with e | u
  · by_cases he : e = .running
    · subst he
      exact ⟨h, stack, rfl, hm, hr⟩
    · obtain ⟨hno, hnl⟩ := hread.error hr he
      have hstop : Sound S L (read n) (h :: stack) b (.error (.errc .bad)) :=
        sound_stop (fun rest => (content_string hm).not.mpr (hno rest))
          ((contentMeets_string (S := S) hm).not.mpr hnl)
      cases e with
      | running => exact absurd rfl he
      | errc e => exact hstop
      | outOfBounds => exact hstop
      | terminated => exact hstop
  · have hok := hread.ok hr
    refine sound_pop htame (fun rest => (content_string hm).trans (hok rest)) ?_
      (hread.shrinks ((hok u).mpr rfl))
    rw [contentMeets_string hm]
    intro hl
    rw [hread.stalls hl] at hr
    cases hr

theorem sound_round_scalar (htame : ∀ g ∈ h :: stack, Tame g) (hm : h.type.major < 2 ∨ h.type.major = 7) :
    Sound S L (read n) (h :: stack) b (round (read n) (h :: stack) b) := by
  rw [round_scalar hm]
  split
  · rename_i hbreak
    refine sound_stop (fun rest => (content_scalar hm).not.mpr ?_) (contentMeets_scalar hm)
    intro hor
    rcases hor with ⟨h2 | ⟨-, hi⟩, -⟩
    · omega
    · exact absurd hbreak.2 (by simp [hi])
  · rename_i hgood
    have hs : IsScalar h := hm.imp_right fun h7 => ⟨h7, Bool.eq_false_iff.mpr fun hi => hgood ⟨h7, hi⟩⟩
    exact sound_pop htame (fun rest => (content_scalar hm).trans (and_iff_right hs))
      (contentMeets_scalar hm) le_rfl

/-- Behind a head, what the goal's first item wants is what the head wants. -/
theorem sound_push (htame : ∀ g ∈ h :: stack, Tame g) (hm : h.type.major = 4 ∨ h.type.major = 5)
    (hv : h.value ≠ 0) (hh : headOf b = .ok sub)
    (hgo : ¬ (h.indefinite = true ∧ sub.isSpecialBreak = true)) :
    Sound S L (read n) (h :: stack) b (.ok (sub :: next h :: stack, b.drop sub.encodedLength)) := by
  have ht := htame h List.mem_cons_self
  have hopen := goalOf_open hm hv
  have hnobreak : ∀ rest, ¬ ((goalOf h).EndsAtBreak ∧ b = breakByte :: rest) := by
    intro rest hbreak
    obtain ⟨hend, hb⟩ := hbreak
    exact hgo ⟨((goalOf_endsAtBreak hm).mp hend).1, (isSpecialBreak_iff hh).mpr ⟨rest, hb⟩⟩
  have hm' : (next h).type.major = 4 ∨ (next h).type.major = 5 := by rwa [next_type]
  have hc : ∀ v, Content S h b v ↔
      ∃ w, Content S sub (b.drop sub.encodedLength) w ∧ Content S (next h) w v := by
    intro v
    rw [content_container (by omega) (by omega), reads_open hopen, or_iff_right (hnobreak v)]
    simp only [reads_item hh, content_container (h := next h) (by omega) (by omega), goalOf_next hm ht]
  have hl : ContentMeets S L h b ↔ ContentMeets S L sub (b.drop sub.encodedLength) ∨
      ∃ w, Content S sub (b.drop sub.encodedLength) w ∧ ContentMeets S L (next h) w := by
    rw [contentMeets_container (by omega) (by omega), meets_open hopen]
    simp only [reads_item hh, meets_item hh,
      contentMeets_container (h := next h) (by omega) (by omega), goalOf_next hm ht]
  refine ⟨fun rest => ?_, ?_, ?_, ?_⟩
  · simp only [Stacked, hc]
    constructor
    · intro hex
      obtain ⟨v, ⟨w, hw, hv⟩, hs⟩ := hex
      exact ⟨w, hw, v, hv, hs⟩
    · intro hex
      obtain ⟨w, hw, v, hv, hs⟩ := hex
      exact ⟨v, ⟨w, hw, hv⟩, hs⟩
  · simp only [StackMeets, hc, hl]
    constructor
    · intro hor
      rcases hor with (hs | ⟨w, hw, hs⟩) | ⟨v, ⟨w, hw, hv⟩, hs⟩
      · exact .inl hs
      · exact .inr ⟨w, hw, .inl hs⟩
      · exact .inr ⟨w, hw, .inr ⟨v, hv, hs⟩⟩
    · intro hor
      rcases hor with hs | ⟨w, hw, hs | ⟨v, hv, hs⟩⟩
      · exact .inl (.inl hs)
      · exact .inl (.inr ⟨w, hw, hs⟩)
      · exact .inr ⟨v, ⟨w, hw, hv⟩, hs⟩
  · intro g hg
    rcases List.mem_cons.mp hg with rfl | hg
    · exact tame_of_headOf hh
    rcases List.mem_cons.mp hg with rfl | hg
    · exact tame_next ht
    · exact htame g (List.mem_cons_of_mem _ hg)
  · have := drop_head_lt hh
    simp only [List.length_cons]
    omega

theorem sound_round_container (htame : ∀ g ∈ h :: stack, Tame g) (hm : h.type.major = 4 ∨ h.type.major = 5) :
    Sound S L (read n) (h :: stack) b (round (read n) (h :: stack) b) := by
  have ht := htame h List.mem_cons_self
  by_cases hv : h.value = 0
  · rw [round_full hm hv]
    refine sound_pop htame (fun rest => ?_) ?_ le_rfl
    · rw [content_container (by omega) (by omega), goalOf_zero hm ht hv, reads_none]
    · rw [contentMeets_container (by omega) (by omega), goalOf_zero hm ht hv]
      exact not_meets_none
  have hopen := goalOf_open hm hv
  rcases hh : headOf b with e | sub
  · rw [round_noHead hm hv hh]
    have hno : ∀ rest, ¬ Reads S .item b rest := fun rest hr => by
      obtain ⟨h', hh'⟩ := headOf_of_reads hr
      rw [hh] at hh'
      cases hh'
    have hnostall : ¬ Meets S L .item b := fun hs => by
      obtain ⟨h', hh'⟩ := headOf_of_meets hs
      rw [hh] at hh'
      cases hh'
    refine sound_stop (fun rest => ?_) ?_
    · rw [content_container (by omega) (by omega), reads_open hopen]
      intro hor
      rcases hor with ⟨-, rfl⟩ | ⟨u, hr, -⟩
      · rw [headOf_break] at hh
        cases hh
      · exact hno u hr
    · rw [contentMeets_container (by omega) (by omega), meets_open hopen]
      intro hor
      rcases hor with hs | ⟨u, hr, -⟩
      · exact hnostall hs
      · exact hno u hr
  by_cases hbreak : h.indefinite = true ∧ sub.isSpecialBreak = true
  · rw [round_break hm hv hh hbreak.1 hbreak.2]
    have hb := break_of_headOf hh hbreak.2
    generalize b.drop sub.encodedLength = tail at hb
    subst hb
    have hstall : ¬ ContentMeets S L h (breakByte :: tail) := by
      rw [contentMeets_container (by omega) (by omega), meets_open hopen]
      intro hor
      rcases hor with hs | ⟨u, hr, -⟩
      · exact not_meets_break hs
      · exact not_reads_break hr
    have hends := goalOf_endsAtBreak hm
    have hc : ∀ rest, Content S h (breakByte :: tail) rest ↔ (goalOf h).EndsAtBreak ∧ rest = tail := by
      intro rest
      rw [content_container (by omega) (by omega), reads_open hopen, or_iff_left]
      · rw [List.cons.injEq, eq_comm (a := tail)]
        simp
      · intro hex
        obtain ⟨u, hr, -⟩ := hex
        exact not_reads_break hr
    split
    · rename_i hodd
      exact sound_stop (fun rest hr => (hends.mp ((hc rest).mp hr).1).2 hodd) hstall
    · rename_i hodd
      exact sound_pop htame (fun rest => (hc rest).trans (and_iff_right (hends.mpr ⟨hbreak.1, hodd⟩)))
        hstall (Nat.le_succ _)
  · rw [round_push hm hv hh hbreak]
    exact sound_push htame hm hv hh hbreak

theorem sound_round_tag (htame : ∀ g ∈ h :: stack, Tame g) (hm : h.type.major = 6) :
    Sound S L (read n) (h :: stack) b (round (read n) (h :: stack) b) := by
  rw [round_tag hm]
  have hc : ∀ rest, Content S h b rest ↔ Reads S .item b rest := fun rest => by
    rw [content_container (by omega) (by omega), goalOf_tag hm]
  have hl : ContentMeets S L h b ↔ Meets S L .item b := by
    rw [contentMeets_container (by omega) (by omega), goalOf_tag hm]
  rcases hh : headOf b with e | sub
  · rw [subItem_error hh]
    refine sound_stop (fun rest hr => ?_) fun hs => ?_
    · obtain ⟨h', hh'⟩ := headOf_of_reads ((hc rest).mp hr)
      rw [hh] at hh'
      cases hh'
    · obtain ⟨h', hh'⟩ := headOf_of_meets (hl.mp hs)
      rw [hh] at hh'
      cases hh'
  · rw [subItem_ok hh]
    refine ⟨fun rest => ?_, ?_, ?_, ?_⟩
    · simp only [Stacked, hc, reads_item hh]
    · simp only [StackMeets, hc, hl, reads_item hh, meets_item hh]
    · intro g hg
      rcases List.mem_cons.mp hg with rfl | hg
      · exact tame_of_headOf hh
      · exact htame g (List.mem_cons_of_mem _ hg)
    · have := drop_head_lt hh
      simp only [List.length_cons]
      omega

theorem sound_round (hread : Obeys read S L) (htame : ∀ g ∈ h :: stack, Tame g) :
    Sound S L (read n) (h :: stack) b (round (read n) (h :: stack) b) := by
  rcases major_cases h with hm | hm | hm
  · exact sound_round_scalar htame hm
  · exact sound_round_string hread htame hm
  · by_cases h6 : h.type.major = 6
    · exact sound_round_tag htame h6
    · exact sound_round_container htame (by omega)

end Sound

/-! ### Rounds that come back -/

/-- The round of this entry starts with a head. -/
def ReadsHead (item : ItemHead) : Prop :=
  (item.type.major = 4 ∨ item.type.major = 5) ∧ item.value ≠ 0 ∨ item.type.major = 6

section Back
variable {read : Nat → Reader} {item : ItemHead} {stack stack' : List ItemHead} {n m : Nat}

theorem round_container_ok {reader : Reader} (hm : item.type.major = 4 ∨ item.type.major = 5) (hv : item.value ≠ 0)
    (hr : round reader (item :: stack) b = .ok (stack', u)) :
    ∃ sub, headOf b = .ok sub ∧ u = b.drop sub.encodedLength := by
  rcases hh : headOf b with e | sub
  · rw [round_noHead hm hv hh] at hr
    cases hr
  · refine ⟨sub, rfl, ?_⟩
    by_cases hend : item.indefinite = true ∧ sub.isSpecialBreak = true
    · rw [round_break hm hv hh hend.1 hend.2] at hr
      split at hr
      · cases hr
      · cases hr
        rfl
    · rw [round_push hm hv hh hend] at hr
      cases hr
      rfl

theorem round_tag_ok {reader : Reader} (hm : item.type.major = 6)
    (hr : round reader (item :: stack) b = .ok (stack', u)) :
    ∃ sub, headOf b = .ok sub ∧ u = b.drop sub.encodedLength := by
  rw [round_tag hm] at hr
  rcases hh : headOf b with e | sub
  · rw [subItem_error hh] at hr
    cases hr
  · rw [subItem_ok hh] at hr
    cases hr
    exact ⟨sub, rfl, rfl⟩

/-- A string is read, an entry is popped as it is, or a head is read. -/
theorem round_cases {reader : Reader} (hr : round reader (item :: stack) b = .ok (stack', u)) :
    (item.type.major = 2 ∨ item.type.major = 3) ∧ stack' = stack ∧ reader item b = .ok u ∨
      ¬ (item.type.major = 2 ∨ item.type.major = 3) ∧ ¬ ReadsHead item ∧ u = b ∨
      ¬ (item.type.major = 2 ∨ item.type.major = 3) ∧ ReadsHead item ∧
        ∃ sub, headOf b = .ok sub ∧ u = b.drop sub.encodedLength := by
  rcases major_cases item with hm | hm | ⟨h4, h6⟩
  · rw [round_scalar hm] at hr
    split at hr
    · cases hr
    · cases hr
      exact Or.inr (Or.inl ⟨by omega, by unfold ReadsHead; omega, rfl⟩)
  · rw [round_string hm] at hr
    rcases hread : reader item b with e | v <;> rw [hread] at hr <;> cases hr
    exact Or.inl ⟨hm, rfl, rfl⟩
  · have hstring : ¬ (item.type.major = 2 ∨ item.type.major = 3) := by omega
    by_cases htag : item.type.major = 6
    · exact Or.inr (Or.inr ⟨hstring, Or.inr htag, round_tag_ok htag hr⟩)
    · have hm : item.type.major = 4 ∨ item.type.major = 5 := by omega
      by_cases hv : item.value = 0
      · rw [round_full hm hv] at hr
        cases hr
        exact Or.inr (Or.inl ⟨hstring, by unfold ReadsHead; omega, rfl⟩)
      · exact Or.inr (Or.inr ⟨hstring, Or.inl ⟨hm, hv⟩, round_container_ok hm hv hr⟩)

theorem round_shrinks (hread : Obeys read S L) (hr : round (read n) stack b = .ok (stack', u)) :
    u.length ≤ b.length := by
  cases stack with
  | nil => cases hr
  | cons item stack =>
    rcases round_cases hr with ⟨-, -, hok⟩ | ⟨-, -, rfl⟩ | ⟨-, -, sub, -, rfl⟩
    · exact hread.shrinks ((hread.ok hok u).mpr rfl)
    · exact le_rfl
    · simp

/-- A reader that has come back does so whenever it may go round often enough. -/
theorem Obeys.ok_enough (hread : Obeys read S L) (hr : read n item b = .ok u) (hm : b.length < m) :
    read m item b = .ok u := by
  have hs : S item b u := (hread.ok hr u).mpr rfl
  have hends := hread.ends (fun _ => ⟨u, hs⟩) hm
  rcases hrun : read m item b with e | v
  · have hno := hread.error hrun fun he => hends (he ▸ hrun)
    exact absurd hs (hno.1 u)
  · rw [(hread.ok hrun u).mp hs]

theorem round_enough (hread : Obeys read S L) (hr : round (read n) (item :: stack) b = .ok (stack', u))
    (hm : b.length < m) : round (read m) (item :: stack) b = .ok (stack', u) := by
  rcases major_cases item with hscalar | hstring | ⟨h4, h6⟩
  · rwa [round_scalar hscalar] at hr ⊢
  · rw [round_string hstring] at hr ⊢
    rcases hok : read n item b with e | v <;> rw [hok] at hr <;> cases hr
    rw [hread.ok_enough hok hm]
    rfl
  · rw [← hr]
    have hcases : item.type.major = 4 ∨ item.type.major = 5 ∨ item.type.major = 6 := by omega
    rcases hcases with hmajor | hmajor | hmajor <;> simp only [round, hmajor]

end Back
end DeepPack.ItemMachine
