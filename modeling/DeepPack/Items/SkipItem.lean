import DeepPack.Items.Grammar

/-! Skipping one item.

`skipItem` is the source's loop over a stack of heads. A loop may go on for as many
rounds as it is given; one that wants more is `running`. On a memory stream the
loop is the pushdown machine that takes chunks whole, so what it accepts are the
well-formed items, and it always ends. -/
namespace DeepPack
open Library InputBuffer

namespace Detail
variable {σ : Type} [InputStream σ]

/-- The loop over the chunks of an indefinite string. -/
def skipChunks (type : TypeCode) : Nat → Input σ Unit
  | 0 => Action.fail .running
  | rounds + 1 => do
    let chunkInfo ← DeepPack.parseItemHead
    if chunkInfo.isSpecialBreak then pure ()
    else if chunkInfo.type ≠ type ∨ chunkInfo.indefinite then err .invalidIndefiniteSubitem
    else do
      discardInput chunkInfo.value
      skipChunks type rounds

def skipBinaryOrText (rounds : Nat) (item : ItemHead) : Input σ Unit :=
  if !item.indefinite then discardInput item.value
  else skipChunks item.type rounds

/-- The body of the loop, on the stack with its top first. -/
def skipRound (rounds : Nat) : List ItemHead → Input σ (List ItemHead)
  | [] => Action.fail .outOfBounds
  | item :: stack =>
    match item.type.major with
    | 0 | 1 => pure stack
    | 2 | 3 => do
      skipBinaryOrText rounds item
      pure stack
    | 4 =>
      if item.value = 0 then pure stack
      else do
        let indefinite := item.indefinite
        let item := {item with value := item.value - (!indefinite).toNat}
        let subItem ← DeepPack.parseItemHead
        if !indefinite || !subItem.isSpecialBreak then pure (subItem :: item :: stack)
        else pure stack
    | 5 =>
      if item.value = 0 then pure stack
      else do
        let indefinite := item.indefinite
        -- the second flag bit says that the next item is a value
        let decr := (item.flags >>> 1).toNat
        let item := {item with
          flags := item.flags ^^^ 2
          value := item.value - (decr &&& (!indefinite).toNat)}
        let subItem ← DeepPack.parseItemHead
        if !indefinite || !subItem.isSpecialBreak then pure (subItem :: item :: stack)
        else if decr ≠ 0 then err .itemTypeMismatch
        else pure stack
    | 6 => do
      let item ← DeepPack.parseItemHead
      pure (item :: stack)
    | _ => if item.indefinite then err .itemTypeMismatch else pure stack

def skipLoop : Nat → List ItemHead → Input σ Unit
  | 0, _ => Action.fail .running
  | rounds + 1, stack => do
    let stack ← skipRound rounds stack
    if stack.isEmpty then pure () else skipLoop rounds stack

end Detail

/-- `skip_item`, for so many rounds. -/
def skipItem {σ : Type} [InputStream σ] (rounds : Nat) : Input σ Unit := do
  let head ← parseItemHead
  Detail.skipLoop rounds [head]

/-! ### The loop is the machine -/

namespace Detail
open ItemMachine

/-- A memory stream over these bytes. -/
def OnMemory (s : InputBuffer MemoryInputStream) (b : List UInt8) : Prop :=
  s = memoryInput b ∧ b.length < wordLimit

variable {n : Nat} {item : ItemHead} {stack : List ItemHead}

theorem parseItemHead_simulates : Action.Simulates OnMemory DeepPack.parseItemHead subItem := by
  intro _ b hs
  obtain ⟨rfl, hb⟩ := hs
  rcases hh : headOf b with e | h
  · rw [subItem_error hh]
    exact congrArg Prod.fst (parseItemHead_memory_error hb hh)
  · rw [subItem_ok hh]
    exact ⟨_, parseItemHead_memory hb hh, rfl, MemoryInputStream.drop_lt _ hb⟩

theorem discardInput_simulates (n : Nat) :
    Action.Simulates OnMemory (discardInput n) (passOver n) := by
  intro _ b h
  obtain ⟨rfl, hb⟩ := h
  have hd := MemoryInputStream.discardInput_memory n hb
  unfold passOver
  by_cases hlt : b.length < n
  · rw [if_neg (Nat.not_le.mpr hlt)] at hd
    rw [if_pos hlt]
    exact congrArg Prod.fst hd
  · rw [if_pos (Nat.not_lt.mp hlt)] at hd
    rw [if_neg hlt]
    exact ⟨_, hd, rfl, MemoryInputStream.drop_lt _ hb⟩

/-- The loop of `skipChunks`, on the bytes. -/
theorem skipChunks_simulates (type : TypeCode) (n : Nat) :
    Action.Simulates OnMemory (skipChunks type n) fun b =>
      (chunkLoop wholeChunk type n b).map fun u => ((), u) := by
  induction n with
  | zero => exact (Action.simulates_fail _).congr fun _ => rfl
  | succ n ih =>
    refine (parseItemHead_simulates.bind fun c => (Action.simulates_pure ()).ite
      ((Action.simulates_fail _).ite ((discardInput_simulates c.value).bind fun _ => ih))).congr ?_
    intro b
    rcases hh : headOf b with e | c
    · rw [subItem_error hh, chunkLoop, hh]
      rfl
    · have hle := encodedLength_le hh
      rw [subItem_ok hh, chunkLoop, hh]
      simp only [bind, Except.bind]
      split
      · rfl
      split
      · rfl
      rw [passOver, wholeChunk, List.length_drop, List.drop_drop]
      by_cases hlt : b.length < c.encodedLength + c.value
      · rw [if_pos hlt, if_pos (by omega)]
        rfl
      · rw [if_neg hlt, if_neg (by omega)]

theorem skipBinaryOrText_simulates :
    Action.Simulates OnMemory (skipBinaryOrText n item) fun b =>
      (stringReader wholeChunk n item b).map fun u => ((), u) := by
  unfold skipBinaryOrText stringReader
  cases item.indefinite
  · refine (discardInput_simulates item.value).congr fun b => ?_
    simp only [passOver, Bool.false_eq_true, if_false]
    split <;> rfl
  · exact skipChunks_simulates item.type n

theorem skipRound_simulates :
    Action.Simulates OnMemory (skipRound n stack) (ItemMachine.round (stringReader wholeChunk n) stack) := by
  cases stack with
  | nil => exact Action.simulates_fail _
  | cons item stack =>
    have hmajor : item.type.major = 0 ∨ item.type.major = 1 ∨ item.type.major = 2 ∨ item.type.major = 3 ∨
        item.type.major = 4 ∨ item.type.major = 5 ∨ item.type.major = 6 ∨ item.type.major = 7 := by
      cases item.type <;> decide
    have hpure : ∀ stack : List ItemHead, Action.Simulates (ε := Fault) OnMemory (pure stack) fun b =>
      .ok (stack, b) := Action.simulates_pure
    unfold skipRound ItemMachine.round
    rcases hmajor with hm | hm | hm | hm | hm | hm | hm | hm <;> simp only [hm]
    · exact hpure stack
    · exact hpure stack
    · refine (skipBinaryOrText_simulates.bind fun _ => hpure stack).congr fun b => ?_
      cases stringReader wholeChunk n item b <;> rfl
    · refine (skipBinaryOrText_simulates.bind fun _ => hpure stack).congr fun b => ?_
      cases stringReader wholeChunk n item b <;> rfl
    · exact (hpure stack).ite
        ((parseItemHead_simulates.bind fun sub => (hpure (sub :: _)).ite (hpure stack)).congr fun _ => rfl)
    · exact (hpure stack).ite
        ((parseItemHead_simulates.bind fun sub => (hpure (sub :: _)).ite
          ((Action.simulates_fail _).ite (hpure stack))).congr fun _ => rfl)
    · exact (parseItemHead_simulates.bind fun sub => hpure (sub :: stack)).congr fun _ => rfl
    · exact (Action.simulates_fail _).ite (hpure stack)

theorem skipLoop_simulates :
    Action.Simulates OnMemory (skipLoop n stack) fun b =>
      (run (stringReader wholeChunk) n stack b).map fun u => ((), u) := by
  induction n generalizing stack with
  | zero => exact (Action.simulates_fail _).congr fun _ => rfl
  | succ n ih =>
    refine (skipRound_simulates.bind fun stack' => (Action.simulates_pure ()).ite ih).congr
      fun b => ?_
    rcases hr : ItemMachine.round (stringReader wholeChunk n) stack b with e | ⟨stack', u⟩
    · rw [run_succ_error hr]
      rfl
    · rw [run_succ_ok hr]
      simp only [bind, Except.bind]
      split <;> rfl

end Detail

open ItemMachine

/-- Skipping on a memory stream is the machine on the bytes. -/
theorem skipItem_simulates (n : Nat) :
    Action.Simulates Detail.OnMemory (skipItem n) fun b =>
      (runItem (stringReader wholeChunk) n b).map fun u => ((), u) := by
  refine (Detail.parseItemHead_simulates.bind fun head => Detail.skipLoop_simulates).congr fun b => ?_
  unfold runItem
  cases subItem b <;> rfl

section
variable {b rest : List UInt8} {n : Nat}

theorem skipItem_computes (hb : b.length < wordLimit) (n : Nat) :
    Action.Computes Detail.OnMemory (skipItem n) (memoryInput b)
      ((runItem (stringReader wholeChunk) n b).map fun u => ((), u)) :=
  skipItem_simulates n _ b ⟨rfl, hb⟩

/-- Skipping succeeds where the bytes start with a well-formed item, and ends behind it. -/
theorem skipItem_ok (hb : b.length < wordLimit) (hn : roundBound b ≤ n) {p : List UInt8} (hbp : b = p ++ rest)
    (hw : WellFormed .item p) : skipItem n (memoryInput b) = (.ok (), memoryInput rest) := by
  have hr := runItem_of_reads (stringReader_obeys wholeChunk) (reads_iff_wellFormed.mpr ⟨p, hbp, hw⟩) hn
  have hsim := skipItem_computes hb n
  rw [hr] at hsim
  obtain ⟨s, hs, rfl, -⟩ := hsim
  exact hs

/-- What was skipped was a well-formed item. -/
theorem skipItem_sound (hb : b.length < wordLimit) {s : InputBuffer MemoryInputStream}
    (h : skipItem n (memoryInput b) = (.ok (), s)) :
    ∃ p rest, b = p ++ rest ∧ WellFormed .item p ∧ s = memoryInput rest := by
  obtain ⟨rest, hrest, rfl, -⟩ := (skipItem_computes hb n).of_ok h
  rcases hrun : runItem (stringReader wholeChunk) n b with e | u <;> rw [hrun] at hrest
  · cases hrest
  · cases hrest
    obtain ⟨p, hp, hw⟩ := reads_iff_wellFormed.mp ((reads_of_runItem (stringReader_obeys wholeChunk) hrun).mpr rfl)
    exact ⟨p, rest, hp, hw, rfl⟩

/-- Skipping always ends. -/
theorem skipItem_ends (hb : b.length < wordLimit) (hn : roundBound b ≤ n) :
    (skipItem n (memoryInput b)).1 ≠ .error .running := by
  rw [(skipItem_computes hb n).fst_eq]
  have hne := runItem_ends (stringReader_obeys wholeChunk) (b := b) (n := n)
    (fun hs => absurd hs not_meets_wholeChunk) hn
  rcases hrun : runItem (stringReader wholeChunk) n b with e | u
  · rw [hrun] at hne
    intro heq
    cases heq
    exact hne rfl
  · exact nofun

end

/-- Skipping accepts exactly the bytes that start with a well-formed item, and stops behind it. -/
theorem skipItem_accepts (b : ByteSpan) (s : InputBuffer MemoryInputStream) :
    Action.Returns skipItem (memoryInput b.bytes) (.ok (), s) ↔
      ∃ p rest, b.bytes = p ++ rest ∧ WellFormed .item p ∧ s = memoryInput rest := by
  constructor
  · intro h
    obtain ⟨n, hn⟩ := h
    exact skipItem_sound b.fits (hn n le_rfl)
  · intro h
    obtain ⟨p, rest, hp, hw, rfl⟩ := h
    exact ⟨roundBound b.bytes, fun m hm => skipItem_ok b.fits hm hp hw⟩

end DeepPack
