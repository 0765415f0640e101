import DeepPack.Items.ItemRounds

/-! The machine reads the grammar.

A run ends exactly behind what its stack still wants, fails when there is no such
place, and goes on for ever when a string on the way stalls. -/
namespace DeepPack.ItemMachine

variable {S : StringRule} {L : ItemHead → List UInt8 → Prop} {h sub : ItemHead} {b u rest : List UInt8}

/-! ### What a run does -/

section Run
variable {read : Nat → Reader} {n : Nat} {stack : List ItemHead}

theorem run_succ_ok {stack' : List ItemHead} (hr : round (read n) stack b = .ok (stack', u)) :
    run read (n + 1) stack b = if stack'.isEmpty then .ok u else run read n stack' u := by
  rw [run, hr]
  rfl

theorem run_succ_error {e : Fault} (hr : round (read n) stack b = .error e) :
    run read (n + 1) stack b = .error e := by
  rw [run, hr]
  rfl

/-- A run that came back ends behind all that was still to come, or nothing could come. -/
def Ended (S : StringRule) (L : ItemHead → List UInt8 → Prop) (stack : List ItemHead) (b : List UInt8) :
    Except Fault (List UInt8) → Prop
  | .ok r => (∀ rest, Stacked S stack b rest ↔ rest = r) ∧ ¬ StackMeets S L stack b
  | .error .running => True
  | .error _ => (∀ rest, ¬ Stacked S stack b rest) ∧ ¬ StackMeets S L stack b

theorem ended_run (hread : Obeys read S L) (htame : ∀ g ∈ stack, Tame g) (hne : stack ≠ []) :
    Ended S L stack b (run read n stack b) := by
  induction n generalizing stack b with
  | zero => exact trivial
  | succ n ih =>
    obtain ⟨h, tail, rfl⟩ := List.exists_cons_of_ne_nil hne
    have hs := sound_round (n := n) (b := b) hread htame
    rcases hr : round (read n) (h :: tail) b with e | ⟨stack', u⟩ <;> rw [hr] at hs
    · rw [run_succ_error hr]
      cases e with
      | running => exact trivial
      | errc e => exact hs
      | outOfBounds => exact hs
      | terminated => exact hs
    · obtain ⟨hsame, hstalls, htame', -⟩ := hs
      rw [run_succ_ok hr]
      cases stack' with
      | nil => exact ⟨hsame, hstalls.not.mpr id⟩
      | cons g stack' =>
        have hrec := ih (b := u) htame' (List.cons_ne_nil g stack')
        rw [List.isEmpty_cons, if_neg Bool.false_ne_true]
        rcases hrun : run read n (g :: stack') u with e | r <;> rw [hrun] at hrec
        · cases e with
          | running => exact trivial
          | errc e => exact ⟨fun rest => (hsame rest).not.mpr (hrec.1 rest), hstalls.not.mpr hrec.2⟩
          | outOfBounds => exact ⟨fun rest => (hsame rest).not.mpr (hrec.1 rest), hstalls.not.mpr hrec.2⟩
          | terminated => exact ⟨fun rest => (hsame rest).not.mpr (hrec.1 rest), hstalls.not.mpr hrec.2⟩
        · exact ⟨fun rest => (hsame rest).trans (hrec.1 rest), hstalls.not.mpr hrec.2⟩

/-- A stall on the way is met in every run. -/
theorem run_stalls (hread : Obeys read S L) (htame : ∀ g ∈ stack, Tame g)
    (hs : StackMeets S L stack b) : run read n stack b = .error .running := by
  have hne : stack ≠ [] := fun hnil => by
    rw [hnil] at hs
    exact hs
  have hend := ended_run (n := n) (b := b) hread htame hne
  rcases hrun : run read n stack b with e | r <;> rw [hrun] at hend
  · cases e with
    | running => rfl
    | errc e => exact absurd hs hend.2
    | outOfBounds => exact absurd hs hend.2
    | terminated => exact absurd hs hend.2
  · exact absurd hs hend.2

/-- Each byte is worth two rounds: one that reads the head in it, one that pops the entry. -/
theorem run_ends (hread : Obeys read S L) (htame : ∀ g ∈ stack, Tame g) (hne : stack ≠ [])
    (hs : StackMeets S L stack b → ∃ rest, Stacked S stack b rest)
    (hn : 2 * b.length + stack.length < n) : run read n stack b ≠ .error .running := by
  induction n generalizing stack b with
  | zero => exact absurd hn (Nat.not_lt_zero _)
  | succ n ih =>
    obtain ⟨h, tail, rfl⟩ := List.exists_cons_of_ne_nil hne
    rw [List.length_cons] at hn
    have hsound := sound_round (n := n) (b := b) hread htame
    rcases hr : round (read n) (h :: tail) b with e | ⟨stack', u⟩ <;> rw [hr] at hsound
    · rw [run_succ_error hr]
      intro he
      cases he
      obtain ⟨h', tail', heq, hm, hrun⟩ := hsound
      cases heq
      refine hread.ends (fun hl => ?_) (by omega) hrun
      obtain ⟨rest, v, hv, -⟩ := hs (.inl ((contentMeets_string hm).mpr hl))
      exact ⟨v, (content_string hm).mp hv⟩
    · obtain ⟨hsame, hstalls, htame', hless⟩ := hsound
      rw [run_succ_ok hr]
      rw [List.length_cons] at hless
      cases stack' with
      | nil => exact nofun
      | cons g stack' =>
        refine ih htame' (List.cons_ne_nil g stack') (fun hst => ?_) (by omega)
        obtain ⟨rest, hrest⟩ := hs (hstalls.mpr hst)
        exact ⟨rest, (hsame rest).mp hrest⟩

/-- The machine from the start: a head, and what it says follows. -/
def runItem (read : Nat → Reader) (n : Nat) (b : List UInt8) : Except Fault (List UInt8) := do
  let (h, u) ← subItem b
  run read n [h] u

theorem runItem_head (hh : headOf b = .ok h) :
    runItem read n b = run read n [h] (b.drop h.encodedLength) := by
  rw [runItem, subItem_ok hh]
  rfl

theorem runItem_noHead {e : Errc} (hh : headOf b = .error e) : runItem read n b = .error (.errc e) := by
  rw [runItem, subItem_error hh]
  rfl

theorem stacked_start (hh : headOf b = .ok h) :
    Stacked S [h] (b.drop h.encodedLength) rest ↔ Reads S .item b rest := by
  rw [reads_item hh]
  constructor
  · intro hex
    obtain ⟨u, hu, rfl⟩ := hex
    exact hu
  · exact fun hc => ⟨rest, hc, rfl⟩

theorem stackMeets_start (hh : headOf b = .ok h) :
    StackMeets S L [h] (b.drop h.encodedLength) ↔ Meets S L .item b := by
  rw [meets_item hh]
  exact or_iff_left fun ⟨_, _, hno⟩ => hno

theorem tame_start (hh : headOf b = .ok h) : ∀ g ∈ [h], Tame g := by
  intro g hg
  rw [List.mem_singleton.mp hg]
  exact tame_of_headOf hh

/-- How many rounds an item can take. -/
def roundBound (b : List UInt8) : Nat := 2 * b.length + 2

theorem runItem_ends (hread : Obeys read S L) (hs : Meets S L .item b → ∃ rest, Reads S .item b rest)
    (hn : roundBound b ≤ n) : runItem read n b ≠ .error .running := by
  rcases hh : headOf b with e | h
  · rw [runItem_noHead hh]
    exact nofun
  · rw [runItem_head hh]
    have := drop_head_lt hh
    refine run_ends hread (tame_start hh) (List.cons_ne_nil h []) (fun hst => ?_) ?_
    · obtain ⟨rest, hr⟩ := hs ((stackMeets_start hh).mp hst)
      exact ⟨rest, (stacked_start hh).mpr hr⟩
    · rw [roundBound] at hn
      rw [List.length_singleton]
      omega

/-- A run over an item that comes back is right. -/
theorem ended_runItem (hread : Obeys read S L) :
    match runItem read n b with
    | .ok r => (∀ rest, Reads S .item b rest ↔ rest = r) ∧ ¬ Meets S L .item b
    | .error .running => True
    | .error _ => (∀ rest, ¬ Reads S .item b rest) ∧ ¬ Meets S L .item b := by
  rcases hh : headOf b with e | h
  · rw [runItem_noHead hh]
    refine ⟨fun rest hr => ?_, fun hs => ?_⟩
    · obtain ⟨h', hh'⟩ := headOf_of_reads hr
      rw [hh] at hh'
      cases hh'
    · obtain ⟨h', hh'⟩ := headOf_of_meets hs
      rw [hh] at hh'
      cases hh'
  · rw [runItem_head hh]
    have hend := ended_run (n := n) (b := b.drop h.encodedLength) hread (tame_start hh) (List.cons_ne_nil h [])
    simp only [← stacked_start (S := S) hh, ← stackMeets_start hh]
    exact hend

theorem reads_of_runItem (hread : Obeys read S L) (hr : runItem read n b = .ok u) :
    Reads S .item b rest ↔ rest = u := by
  have hend := ended_runItem (n := n) (b := b) hread
  rw [hr] at hend
  exact hend.1 rest

/-- The machine reads exactly the items of the grammar, and all of them in time. -/
theorem runItem_of_reads (hread : Obeys read S L) (hr : Reads S .item b rest) (hn : roundBound b ≤ n) :
    runItem read n b = .ok rest := by
  have hend := ended_runItem (n := n) (b := b) hread
  have hne := runItem_ends hread (fun _ => ⟨rest, hr⟩) hn
  rcases hrun : runItem read n b with e | u <;> rw [hrun] at hend hne
  · cases e with
    | running => exact absurd rfl hne
    | errc e => exact absurd hr (hend.1 rest)
    | outOfBounds => exact absurd hr (hend.1 rest)
    | terminated => exact absurd hr (hend.1 rest)
  · rw [(hend.1 rest).mp hr]

/-- The machine runs for ever exactly where a string stalls. -/
theorem runItem_running_iff (hread : Obeys read S L) :
    (∀ n, runItem read n b = .error .running) ↔ Meets S L .item b := by
  constructor
  · intro hall
    by_contra hno
    exact runItem_ends hread (fun hs => absurd hs hno) le_rfl (hall (roundBound b))
  · intro hs n
    obtain ⟨h, hh⟩ := headOf_of_meets hs
    rw [runItem_head hh]
    exact run_stalls hread (tame_start hh) ((stackMeets_start hh).mpr hs)

end Run

/-! ### Two rules for strings -/

section Rules
variable {S' : StringRule} {N : Nat} {g : Goal}

/-- There is one place where an item ends. -/
theorem Reads.item_unique {read : Nat → Reader} (hread : Obeys read S L) (hr : Reads S .item b rest)
    (hr' : Reads S .item b u) : rest = u :=
  (reads_of_runItem hread (runItem_of_reads hread hr' le_rfl)).mp hr

theorem Reads.length_le (hshrinks : ∀ {h b rest}, S h b rest → rest.length ≤ b.length)
    (hr : Reads S g b rest) : rest.length ≤ b.length := by
  induction hr with
  | scalar hh _ => exact (drop_head_lt hh).le
  | string hh _ hs => exact (hshrinks hs).trans (drop_head_lt hh).le
  | container hh _ _ _ ih => exact ih.trans (drop_head_lt hh).le
  | none => exact le_rfl
  | more _ _ ih ih' | element _ _ ih ih' | key _ _ ih ih' | value _ _ ih ih' => exact ih'.trans ih
  | lastElement | lastEntry => exact Nat.le_succ _

/-- A rule that allows more reads more. -/
theorem Reads.mono (hshrinks : ∀ {h b rest}, S h b rest → rest.length ≤ b.length)
    (hsub : ∀ {h b rest}, b.length ≤ N → S h b rest → S' h b rest) (hN : b.length ≤ N)
    (hr : Reads S g b rest) : Reads S' g b rest := by
  induction hr with
  | scalar hh hs => exact .scalar hh hs
  | string hh hm hs => exact .string hh hm (hsub ((drop_head_lt hh).le.trans hN) hs)
  | container hh h4 h6 _ ih => exact .container hh h4 h6 (ih ((drop_head_lt hh).le.trans hN))
  | none => exact .none
  | more hi _ ih ih' => exact .more (ih hN) (ih' ((hi.length_le hshrinks).trans hN))
  | lastElement => exact .lastElement
  | element hi _ ih ih' => exact .element (ih hN) (ih' ((hi.length_le hshrinks).trans hN))
  | lastEntry => exact .lastEntry
  | key hi _ ih ih' => exact .key (ih hN) (ih' ((hi.length_le hshrinks).trans hN))
  | value hi _ ih ih' => exact .value (ih hN) (ih' ((hi.length_le hshrinks).trans hN))

/-- Where no string with `L` is met, the rules need to agree on the others only. -/
theorem Reads.of_not_meets (hsub : ∀ {h b rest}, S h b rest → ¬ L h b → S' h b rest)
    (hr : Reads S g b rest) (hno : ¬ Meets S L g b) : Reads S' g b rest := by
  induction hr with
  | scalar hh hs => exact .scalar hh hs
  | string hh hm hs => exact .string hh hm (hsub hs fun hl => hno (.string hh hm hl))
  | container hh h4 h6 _ ih => exact .container hh h4 h6 (ih fun hs => hno (.container hh h4 h6 hs))
  | none => exact .none
  | more hi _ ih ih' => exact .more (ih fun hs => hno (.first hs)) (ih' fun hs => hno (.more hi hs))
  | lastElement => exact .lastElement
  | element hi _ ih ih' =>
    exact .element (ih fun hs => hno (.firstElement hs)) (ih' fun hs => hno (.element hi hs))
  | lastEntry => exact .lastEntry
  | key hi _ ih ih' => exact .key (ih fun hs => hno (.firstKey hs)) (ih' fun hs => hno (.key hi hs))
  | value hi _ ih ih' => exact .value (ih fun hs => hno (.firstValue hs)) (ih' fun hs => hno (.value hi hs))

/-- A string the narrower rule does not take keeps everything around it from being read. -/
theorem Meets.not_reads {read : Nat → Reader} {L' : ItemHead → List UInt8 → Prop} (hread : Obeys read S L')
    (hsub : ∀ {h b rest}, b.length ≤ N → S' h b rest → S h b rest)
    (hshrinks : ∀ {h b rest}, S' h b rest → rest.length ≤ b.length)
    (hno : ∀ {h b rest}, b.length ≤ N → L h b → ¬ S' h b rest) (hN : b.length ≤ N)
    (hs : Meets S L g b) : ¬ Reads S' g b rest := by
  have hsame : ∀ {b u u' : List UInt8}, b.length ≤ N → Reads S .item b u → Reads S' .item b u' → u' = u :=
    fun hb hr hr' => (hr'.mono hshrinks hsub hb).item_unique hread hr
  have hless : ∀ {b u : List UInt8}, b.length ≤ N → Reads S' .item b u → u.length ≤ N :=
    fun hb hr => (hr.length_le hshrinks).trans hb
  induction hs generalizing rest with
  | string hh hm hl =>
    rw [reads_item hh, content_string hm]
    exact hno ((drop_head_lt hh).le.trans hN) hl
  | container hh h4 h6 _ ih =>
    rw [reads_item hh, content_container h4 h6]
    exact ih ((drop_head_lt hh).le.trans hN)
  | first _ ih =>
    intro hr
    cases hr with
    | more hi _ => exact ih hN hi
  | more hr _ ih =>
    intro hr'
    cases hr' with
    | more hi hr' =>
      cases hsame hN hr hi
      exact ih (hless hN hi) hr'
  | firstElement hs ih =>
    intro hr
    cases hr with
    | lastElement => exact not_meets_break hs
    | element hi _ => exact ih hN hi
  | element hr _ ih =>
    intro hr'
    cases hr' with
    | lastElement => exact not_reads_break hr
    | element hi hr' =>
      cases hsame hN hr hi
      exact ih (hless hN hi) hr'
  | firstKey hs ih =>
    intro hr
    cases hr with
    | lastEntry => exact not_meets_break hs
    | key hi _ => exact ih hN hi
  | key hr _ ih =>
    intro hr'
    cases hr' with
    | lastEntry => exact not_reads_break hr
    | key hi hr' =>
      cases hsame hN hr hi
      exact ih (hless hN hi) hr'
  | firstValue _ ih =>
    intro hr
    cases hr with
    | value hi _ => exact ih hN hi
  | value hr _ ih =>
    intro hr'
    cases hr' with
    | value hi hr' =>
      cases hsame hN hr hi
      exact ih (hless hN hi) hr'

end Rules

end DeepPack.ItemMachine
