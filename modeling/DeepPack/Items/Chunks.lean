import DeepPack.Items.ItemRuns

/-! The content of strings.

A definite string is its bytes. An indefinite one is a sequence of chunks, each a
definite string of the same major type, up to a break. Skipping and copying part
here: `advance` is how far a reader moves for the head of a chunk, and all that is
known of it is that it does not depend on the input behind the head. -/
namespace DeepPack.ItemMachine

/-- What a chunk's head moves a reader by. -/
abbrev Advance : Type := ItemHead → Nat

/-- The chunks of an indefinite string up to its break are the bytes before the rest. -/
inductive Chunks (advance : Advance) (type : TypeCode) : List UInt8 → List UInt8 → Prop where
  | last {rest : List UInt8} : Chunks advance type (breakByte :: rest) rest
  | chunk {b rest : List UInt8} {c : ItemHead} : headOf b = .ok c → c.type = type → c.indefinite = false →
      advance c ≤ b.length → Chunks advance type (b.drop (advance c)) rest → Chunks advance type b rest

/-- After some chunks comes one with `P`. -/
inductive ChunksMeet (advance : Advance) (P : ItemHead → Prop) (type : TypeCode) : List UInt8 → Prop where
  | here {b : List UInt8} {c : ItemHead} : headOf b = .ok c → c.type = type → c.indefinite = false → P c →
      ChunksMeet advance P type b
  | later {b : List UInt8} {c : ItemHead} : headOf b = .ok c → c.type = type → c.indefinite = false →
      advance c ≤ b.length → ChunksMeet advance P type (b.drop (advance c)) → ChunksMeet advance P type b

/-- After some chunks comes one that does not move the reader. -/
abbrev ChunksStall (advance : Advance) : TypeCode → List UInt8 → Prop :=
  ChunksMeet advance fun c => advance c = 0

/-- A string with a chunk that has `P`. -/
def stringMeets (advance : Advance) (P : ItemHead → Prop) (h : ItemHead) (b : List UInt8) : Prop :=
  h.indefinite = true ∧ ChunksMeet advance P h.type b

def stringRule (advance : Advance) : StringRule := fun h b rest =>
  if h.indefinite then Chunks advance h.type b rest else h.value ≤ b.length ∧ rest = b.drop h.value

/-- A string the reader never comes back from. -/
abbrev stringStalls (advance : Advance) : ItemHead → List UInt8 → Prop :=
  stringMeets advance fun c => advance c = 0

/-- So many bytes are left behind, if there are as many. -/
def passOver (n : Nat) (b : List UInt8) : Except Fault (Unit × List UInt8) :=
  if b.length < n then .error (.errc .endOfStream) else .ok ((), b.drop n)

/-- The loop over the chunks, for so many of them. -/
def chunkLoop (advance : Advance) (type : TypeCode) : Nat → List UInt8 → Except Fault (List UInt8)
  | 0, _ => .error .running
  | n + 1, b =>
    match headOf b with
    | .error e => .error (.errc e)
    | .ok c =>
      if c.isSpecialBreak then .ok (b.drop c.encodedLength)
      else if c.type ≠ type ∨ c.indefinite then .error (.errc .invalidIndefiniteSubitem)
      else if b.length < advance c then .error (.errc .endOfStream)
      else chunkLoop advance type n (b.drop (advance c))

def stringReader (advance : Advance) : Nat → Reader := fun n h b =>
  if h.indefinite then chunkLoop advance h.type n b
  else if b.length < h.value then .error (.errc .endOfStream)
  else .ok (b.drop h.value)

variable {advance : Advance} {P : ItemHead → Prop} {type : TypeCode} {c h : ItemHead} {b u rest : List UInt8} {n : Nat}

/-! ### One chunk -/

theorem not_break_of_definite (hi : c.indefinite = false) : c.isSpecialBreak = false := by
  rw [ItemHead.isSpecialBreak, hi, Bool.and_false]

theorem chunks_break : Chunks advance type (breakByte :: u) rest ↔ rest = u := by
  constructor
  · intro hc
    cases hc with
    | last => rfl
    | chunk hh _ hi =>
      rw [headOf_break] at hh
      cases hh
      exact absurd hi (by decide)
  · intro heq
    subst heq
    exact .last

theorem not_chunksMeet_break : ¬ ChunksMeet advance P type (breakByte :: u) := by
  intro hs
  cases hs with
  | here hh _ hi | later hh _ hi =>
    rw [headOf_break] at hh
    cases hh
    exact absurd hi (by decide)

theorem chunks_chunk (hh : headOf b = .ok c) (hb : c.isSpecialBreak = false) :
    Chunks advance type b rest ↔ (c.type = type ∧ c.indefinite = false) ∧ advance c ≤ b.length ∧
      Chunks advance type (b.drop (advance c)) rest := by
  constructor
  · intro hc
    cases hc with
    | last =>
      rw [headOf_break] at hh
      cases hh
      exact absurd hb (by decide)
    | chunk hh' ht hi hle hc =>
      cases hh.symm.trans hh'
      exact ⟨⟨ht, hi⟩, hle, hc⟩
  · intro h
    obtain ⟨⟨ht, hi⟩, hle, hc⟩ := h
    exact .chunk hh ht hi hle hc

theorem chunksMeet_chunk (hh : headOf b = .ok c) :
    ChunksMeet advance P type b ↔ (c.type = type ∧ c.indefinite = false) ∧
      (P c ∨ advance c ≤ b.length ∧ ChunksMeet advance P type (b.drop (advance c))) := by
  constructor
  · intro hs
    cases hs with
    | here hh' ht hi hp =>
      cases hh.symm.trans hh'
      exact ⟨⟨ht, hi⟩, .inl hp⟩
    | later hh' ht hi hle hs =>
      cases hh.symm.trans hh'
      exact ⟨⟨ht, hi⟩, .inr ⟨hle, hs⟩⟩
  · intro h
    rcases h with ⟨⟨ht, hi⟩, hp | ⟨hle, hs⟩⟩
    · exact .here hh ht hi hp
    · exact .later hh ht hi hle hs

/-- Chunks that reach their break do not stall. -/
theorem Chunks.not_stall (hc : Chunks advance type b rest) : ¬ ChunksStall advance type b := by
  induction hc with
  | last => exact not_chunksMeet_break
  | chunk hh ht hi hle _ ih =>
    intro hs
    obtain ⟨-, h0 | ⟨-, hs⟩⟩ := (chunksMeet_chunk hh).mp hs
    · rw [h0, List.drop_zero] at ih
      exact ih hs
    · exact ih hs

theorem Chunks.length_le (hc : Chunks advance type b rest) : rest.length ≤ b.length := by
  induction hc with
  | last => exact Nat.le_succ _
  | chunk _ _ _ _ _ ih =>
    rw [List.length_drop] at ih
    omega

/-! ### The loop -/

theorem chunkLoop_break : chunkLoop advance type (n + 1) (breakByte :: u) = .ok u := by
  rw [chunkLoop, headOf_break]
  rfl

theorem chunkLoop_chunk (hh : headOf b = .ok c) (hb : c.isSpecialBreak = false) :
    chunkLoop advance type (n + 1) b =
      if c.type = type ∧ c.indefinite = false then
        if advance c ≤ b.length then chunkLoop advance type n (b.drop (advance c))
        else .error (.errc .endOfStream)
      else .error (.errc .invalidIndefiniteSubitem) := by
  rw [chunkLoop, hh]
  dsimp only
  rw [hb, if_neg Bool.false_ne_true]
  by_cases hgood : c.type = type ∧ c.indefinite = false
  · rw [if_pos hgood, if_neg (by simp [hgood])]
    by_cases hle : advance c ≤ b.length
    · rw [if_pos hle, if_neg (Nat.not_lt.mpr hle)]
    · rw [if_neg hle, if_pos (Nat.lt_of_not_le hle)]
  · rw [if_neg hgood, if_pos (by
      rw [not_and_or, Bool.not_eq_false] at hgood
      exact hgood)]

/-- What the loop came back with is right. -/
def ChunksEnded (advance : Advance) (type : TypeCode) (b : List UInt8) : Except Fault (List UInt8) → Prop
  | .ok r => ∀ rest, Chunks advance type b rest ↔ rest = r
  | .error .running => True
  | .error _ => (∀ rest, ¬ Chunks advance type b rest) ∧ ¬ ChunksStall advance type b

theorem chunksEnded_loop : ChunksEnded advance type b (chunkLoop advance type n b) := by
  induction n generalizing b with
  | zero => exact trivial
  | succ n ih =>
    rcases hh : headOf b with e | c
    · rw [chunkLoop, hh]
      refine ⟨fun rest hc => ?_, fun hs => ?_⟩
      · cases hc with
        | last =>
          rw [headOf_break] at hh
          cases hh
        | chunk hh' => exact nomatch hh.symm.trans hh'
      · cases hs with
        | here hh' | later hh' => exact nomatch hh.symm.trans hh'
    rcases hb : c.isSpecialBreak
    · rw [chunkLoop_chunk hh hb]
      split
      · rename_i hgood
        split
        · rename_i hle
          have hc : ∀ rest, Chunks advance type b rest ↔ Chunks advance type (b.drop (advance c)) rest :=
            fun rest => by rw [chunks_chunk hh hb, and_iff_right hgood, and_iff_right hle]
          have hrec := ih (b := b.drop (advance c))
          rcases hrun : chunkLoop advance type n (b.drop (advance c)) with e | r <;> rw [hrun] at hrec
          · have herr : (∀ rest, ¬ Chunks advance type (b.drop (advance c)) rest) ∧
                ¬ ChunksStall advance type (b.drop (advance c)) →
                (∀ rest, ¬ Chunks advance type b rest) ∧ ¬ ChunksStall advance type b := by
              intro h
              obtain ⟨hno, hns⟩ := h
              refine ⟨fun rest => (hc rest).not.mpr (hno rest), fun hs => hns ?_⟩
              obtain ⟨-, h0 | ⟨-, hs'⟩⟩ := (chunksMeet_chunk hh).mp hs
              · rwa [h0, List.drop_zero]
              · exact hs'
            cases e with
            | running => exact trivial
            | errc e => exact herr hrec
            | outOfBounds => exact herr hrec
            | terminated => exact herr hrec
          · exact fun rest => (hc rest).trans (hrec rest)
        · rename_i hlong
          refine ⟨fun rest hc => hlong ((chunks_chunk hh hb).mp hc).2.1, fun hs => hlong ?_⟩
          obtain ⟨-, h0 | ⟨hle, -⟩⟩ := (chunksMeet_chunk hh).mp hs
          · omega
          · exact hle
      · rename_i hbad
        exact ⟨fun rest hc => hbad ((chunks_chunk hh hb).mp hc).1,
          fun hs => hbad ((chunksMeet_chunk hh).mp hs).1⟩
    · rw [break_of_headOf hh hb, chunkLoop_break]
      exact fun rest => chunks_break

theorem chunkLoop_stalls (hs : ChunksStall advance type b) :
    chunkLoop advance type n b = .error .running := by
  have hend : ChunksEnded advance type b (chunkLoop advance type n b) := chunksEnded_loop
  rcases hrun : chunkLoop advance type n b with e | r <;> rw [hrun] at hend
  · cases e with
    | running => rfl
    | errc e => exact absurd hs hend.2
    | outOfBounds => exact absurd hs hend.2
    | terminated => exact absurd hs hend.2
  · exact absurd hs ((hend r).mpr rfl).not_stall

theorem chunkLoop_ends (hs : ¬ ChunksStall advance type b) (hn : b.length < n) :
    chunkLoop advance type n b ≠ .error .running := by
  induction n generalizing b with
  | zero => exact absurd hn (Nat.not_lt_zero _)
  | succ n ih =>
    rcases hh : headOf b with e | c
    · rw [chunkLoop, hh]
      exact nofun
    rcases hb : c.isSpecialBreak
    · rw [chunkLoop_chunk hh hb]
      split
      · rename_i hgood
        split
        · rename_i hle
          have hpos : advance c ≠ 0 := fun h0 => hs ((chunksMeet_chunk hh).mpr ⟨hgood, .inl h0⟩)
          refine ih (fun hs' => hs ((chunksMeet_chunk hh).mpr ⟨hgood, .inr ⟨hle, hs'⟩⟩)) ?_
          rw [List.length_drop]
          omega
        · exact nofun
      · exact nofun
    · rw [break_of_headOf hh hb, chunkLoop_break]
      exact nofun

/-- The reader obeys the rule of its `advance`, and stalls where a chunk moves it nowhere. -/
theorem stringReader_obeys (advance : Advance) :
    Obeys (stringReader advance) (stringRule advance) (stringStalls advance) where
  ok := by
    intro n h b u hr rest
    rw [stringReader] at hr
    rw [stringRule]
    split at hr
    · rename_i hi
      have hend : ChunksEnded advance h.type b (chunkLoop advance h.type n b) := chunksEnded_loop
      rw [hr] at hend
      rw [if_pos hi]
      exact hend rest
    · rename_i hi
      rw [if_neg hi]
      split at hr
      · cases hr
      · rename_i hle
        cases hr
        exact and_iff_right (Nat.le_of_not_lt hle)
  error := by
    intro n h b e hr he
    rw [stringReader] at hr
    unfold stringRule stringStalls stringMeets
    split at hr
    · rename_i hi
      have hend : ChunksEnded advance h.type b (chunkLoop advance h.type n b) := chunksEnded_loop
      rw [hr] at hend
      simp only [hi, if_true, true_and]
      cases e with
      | running => exact absurd rfl he
      | errc e => exact hend
      | outOfBounds => exact hend
      | terminated => exact hend
    · rename_i hi
      simp only [hi, Bool.false_eq_true, if_false, false_and, not_false_eq_true, and_true]
      split at hr
      · rename_i hlt
        exact fun rest hc => absurd hc.1 (Nat.not_le.mpr hlt)
      · cases hr
  stalls := by
    intro n h b hs
    rw [stringReader, if_pos hs.1]
    exact chunkLoop_stalls hs.2
  ends := by
    intro n h b hs hn
    rw [stringReader]
    split
    · rename_i hi
      refine chunkLoop_ends (fun hst => ?_) hn
      obtain ⟨rest, hc⟩ := hs ⟨hi, hst⟩
      rw [stringRule, if_pos hi] at hc
      exact hc.not_stall hst
    · split <;> exact nofun
  shrinks := by
    intro h b rest hc
    rw [stringRule] at hc
    split at hc
    · exact hc.length_le
    · rw [hc.2, List.length_drop]
      exact Nat.sub_le _ _

end DeepPack.ItemMachine
