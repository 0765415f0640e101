import DeepPack.Items.SkipItem
import DeepPack.Library.Follows
import DeepPack.Streams.DocumentedOutput

/-! Copying one item from a stream to another.

`copyItemTo` is the source's loop. It peeks at a head and copies it, so the chunks
of an indefinite string are copied with their heads: the length of the two together
is a 64 bit sum. Into a buffer that provides any size the loop is the pushdown
machine again, with a reader that takes chunks of that length. The sum can wrap,
and where it does copying and skipping part. -/
namespace DeepPack
open Library

/-- An action on an input and an output. -/
abbrev Copy (σ τ α : Type) : Type := Action Fault (InputBuffer σ × OutputBuffer τ) α

namespace Detail
variable {σ τ : Type} [InputStream σ] [OutputStream τ]

/-- Reads into the free memory and commits what was read. -/
def readInto (amount : Nat) : Copy σ τ Unit := do
  let bytes ← Action.onFst (InputBuffer.bulkRead amount)
  Action.onSnd (OutputBuffer.store 0 bytes)
  Action.onSnd (OutputBuffer.commitWritten amount)

def smallBufferCopy (amount : Nat) : Copy σ τ Unit := do
  Action.onSnd (OutputBuffer.ensureSize amount)
  readInto amount

/-- As much as the output takes at once; what is left of the amount is returned. -/
def bulkCopyChunk (amount : Nat) : Copy σ τ Nat := do
  Action.onSnd (OutputBuffer.ensureSize amount)
  let chunk := min amount (← Action.onSnd OutputBuffer.size)
  readInto chunk
  pure (amount - chunk)

/-- The `do … while` loop over the chunks: once, and for so many rounds more. -/
def bulkCopy : Nat → Nat → Copy σ τ Unit
  | 0, amount => do
    let amount ← bulkCopyChunk amount
    if 0 < amount then Action.fail .running else pure ()
  | rounds + 1, amount => do
    let amount ← bulkCopyChunk amount
    if 0 < amount then bulkCopy rounds amount else pure ()

def copySpecialBreakTo : Copy σ τ Unit := do
  Action.onFst (InputBuffer.discardBuffered 1)
  Action.onSnd (OutputBuffer.ensureSize 1)
  Action.onSnd (OutputBuffer.store 0 [TypeCode.specialBreak.toByte])
  Action.onSnd (OutputBuffer.commitWritten 1)

/-- The loop over the chunks of an indefinite string. -/
def copyChunks (type : TypeCode) : Nat → Copy σ τ Unit
  | 0 => Action.fail .running
  | rounds + 1 => do
    let chunkInfo ← Action.onFst peekItemHead
    if chunkInfo.isSpecialBreak then copySpecialBreakTo
    else if chunkInfo.type ≠ type ∨ chunkInfo.indefinite then err .invalidIndefiniteSubitem
    else do
      -- the sum of a length and a 64 bit value
      bulkCopy rounds ((chunkInfo.encodedLength + chunkInfo.value) % wordLimit)
      copyChunks type rounds

def copyBinaryOrTextTo (rounds : Nat) (item : ItemHead) : Copy σ τ Unit :=
  if !item.indefinite then bulkCopy rounds item.value
  else copyChunks item.type rounds

/-- Copies a head and pushes it. -/
def pushItemHead (head : ItemHead) (stack : List ItemHead) : Copy σ τ (List ItemHead) := do
  smallBufferCopy head.encodedLength
  pure (head :: stack)

/-- The body of the loop, on the stack with its top first. -/
def copyRound (rounds : Nat) : List ItemHead → Copy σ τ (List ItemHead)
  | [] => Action.fail .outOfBounds
  | item :: stack =>
    match item.type.major with
    | 0 | 1 => pure stack
    | 2 | 3 => do
      copyBinaryOrTextTo rounds item
      pure stack
    | 4 =>
      if item.value = 0 then pure stack
      else do
        let indefinite := item.indefinite
        let item := {item with value := item.value - (!indefinite).toNat}
        let subItem ← Action.onFst peekItemHead
        if !indefinite || !subItem.isSpecialBreak then pushItemHead subItem (item :: stack)
        else do
          copySpecialBreakTo
          pure stack
    | 5 =>
      if item.value = 0 then pure stack
      else do
        let indefinite := item.indefinite
        -- the second flag bit says that the next item is a value
        let decr := (item.flags >>> 1).toNat
        let item := {item with
          flags := item.flags ^^^ 2
          value := item.value - (decr &&& (!indefinite).toNat)}
        let subItem ← Action.onFst peekItemHead
        if !indefinite || !subItem.isSpecialBreak then pushItemHead subItem (item :: stack)
        else if decr ≠ 0 then err .itemTypeMismatch
        else do
          copySpecialBreakTo
          pure stack
    | 6 => do
      let item ← Action.onFst peekItemHead
      smallBufferCopy item.encodedLength
      pure (item :: stack)
    | _ => if item.indefinite then err .itemTypeMismatch else pure stack

def copyLoop : Nat → List ItemHead → Copy σ τ Unit
  | 0, _ => Action.fail .running
  | rounds + 1, stack => do
    let stack ← copyRound rounds stack
    if stack.isEmpty then pure () else copyLoop rounds stack

end Detail

/-- `copy_item_to`, for so many rounds. -/
def copyItemTo {σ τ : Type} [InputStream σ] [OutputStream τ] (rounds : Nat) : Copy σ τ Unit := do
  let head ← Action.onFst peekItemHead
  let stack ← Detail.pushItemHead head []
  Detail.copyLoop rounds stack

/-! ### The loop is the machine -/

namespace ItemMachine

/-- A chunk's head and its content, as a 64 bit number. -/
def wrappedChunk : Advance := fun c => (c.encodedLength + c.value) % wordLimit

/-- After some chunks of an indefinite string these bytes are left. -/
inductive ChunksReach (advance : Advance) (type : TypeCode) : List UInt8 → List UInt8 → Prop where
  | here {b : List UInt8} : ChunksReach advance type b b
  | later {b v : List UInt8} {c : ItemHead} : headOf b = .ok c → c.type = type → c.indefinite = false →
      advance c ≤ b.length → ChunksReach advance type (b.drop (advance c)) v → ChunksReach advance type b v

/-- After some rounds of the loop the machine is at this stack and these bytes. -/
inductive Reaches (read : Nat → Reader) : List ItemHead → List UInt8 → List ItemHead → List UInt8 → Prop where
  | here {stack : List ItemHead} {b : List UInt8} : Reaches read stack b stack b
  | later {n : Nat} {stack stack' stack'' : List ItemHead} {b u v : List UInt8} :
      round (read n) stack b = .ok (stack', u) → Reaches read stack' u stack'' v → Reaches read stack b stack'' v

end ItemMachine

namespace Detail
open ItemMachine

/-- What is known of copying into some kind of output: how it keeps track of the bytes, which
sizes it is good for, and in which states it may be stopped. -/
structure Copying (τ : Type) [OutputStream τ] where
  Tracks : InputBuffer MemoryInputStream × OutputBuffer τ → List UInt8 → Prop
  Failed : InputBuffer MemoryInputStream × OutputBuffer τ → Prop
  Stopped : InputBuffer MemoryInputStream × OutputBuffer τ → Prop
  /-- What a size comes to: one above any input is refused as if the input were too short. -/
  cap : Nat → Nat
  /-- Heads, strings and breaks that may be copied off these bytes. -/
  MayPush : Nat → List UInt8 → Prop
  MayTake : Nat → List UInt8 → Prop
  MayBreak : List UInt8 → Prop
  input : ∀ {s b}, Tracks s b → s.1 = memoryInput b ∧ b.length < wordLimit
  failed : ∀ {s b}, Tracks s b → Failed s
  push : ∀ {s b h}, Tracks s b → headOf b = .ok h → MayPush h.encodedLength b →
    Action.Follows Tracks Failed Stopped (smallBufferCopy h.encodedLength) s (.ok ((), b.drop h.encodedLength))
  take : ∀ {s b amount}, Tracks s b → MayTake amount b → ∀ rounds,
    Action.Follows Tracks Failed Stopped (bulkCopy rounds amount) s (passOver (cap amount) b)
  special : ∀ {s u}, Tracks s (breakByte :: u) → MayBreak u →
    Action.Follows Tracks Failed Stopped copySpecialBreakTo s (.ok ((), u))

namespace Copying
variable {τ : Type} [OutputStream τ] (F : Copying τ)

abbrev Follows {α : Type} (x : Copy MemoryInputStream τ α) (s : InputBuffer MemoryInputStream × OutputBuffer τ)
    (r : Except Fault (α × List UInt8)) : Prop :=
  Action.Follows F.Tracks F.Failed F.Stopped x s r

def advance : Advance := fun c => F.cap (wrappedChunk c)

/-- How strings are taken. -/
def reader : Nat → Reader := fun n h => stringReader F.advance n {h with value := F.cap h.value}

/-- All chunks of an indefinite string that are reached may be copied, and its break. -/
def ChunksCovered (type : TypeCode) (b : List UInt8) : Prop :=
  ∀ v, ChunksReach F.advance type b v →
    (∀ c, headOf v = .ok c → c.type = type → c.indefinite = false → F.MayTake (wrappedChunk c) v) ∧
      ∀ w, v = breakByte :: w → F.MayBreak w

/-- All that a round copies may be copied. -/
structure Covered (item : ItemHead) (b : List UInt8) : Prop where
  string : item.type.major = 2 ∨ item.type.major = 3 →
    if item.indefinite then F.ChunksCovered item.type b else F.MayTake item.value b
  head : ∀ {sub}, ReadsHead item → headOf b = .ok sub → F.MayPush sub.encodedLength b
  special : ∀ {w}, b = breakByte :: w → item.type.major = 4 ∨ item.type.major = 5 → item.value ≠ 0 →
    item.indefinite = true → ¬ (item.type.major = 5 ∧ expectsValue item) → F.MayBreak w

variable {F} {s : InputBuffer MemoryInputStream × OutputBuffer τ} {b : List UInt8} {n : Nat}
  {item : ItemHead} {stack : List ItemHead}

/-- Peeking at a head, and what is done about it. -/
theorem peek_then {α : Type} {y : ItemHead → Copy MemoryInputStream τ α} {r : Except Fault (α × List UInt8)}
    (hs : F.Tracks s b) (hno : ∀ e, headOf b = .error e → r = .error (.errc e))
    (hy : ∀ h, headOf b = .ok h → F.Follows (y h) s r) : F.Follows (Action.onFst peekItemHead >>= y) s r := by
  have hfailed := F.failed hs
  have hin := F.input hs
  obtain ⟨i, o⟩ := s
  obtain ⟨rfl, hb⟩ := hin
  rcases hh : headOf b with e | h
  · refine Or.inr ⟨.errc e, (memoryInput b, o), Action.bind_error _ ?_, Or.inl ⟨hno e hh, hfailed⟩⟩
    rw [Action.onFst_apply, peekItemHead_memory_error hb hh]
  · have hpeek : Action.onFst peekItemHead (memoryInput b, o) = (.ok h, (memoryInput b, o)) := by
      rw [Action.onFst_apply, peekItemHead_memory hb hh]
    exact .after hpeek (hy h hh)

/-- A head that was peeked at is there to be copied. -/
theorem pushItemHead_follows {h : ItemHead} (hs : F.Tracks s b) (hh : headOf b = .ok h)
    (hmay : F.MayPush h.encodedLength b) :
    F.Follows (pushItemHead h stack) s (.ok (h :: stack, b.drop h.encodedLength)) :=
  (F.push hs hh hmay).bind (g := fun _ u => .ok (h :: stack, u)) fun _ _ _ _ hs' => Action.follows_pure _ hs'

theorem copyChunks_follows {type : TypeCode} (hs : F.Tracks s b) (hmay : F.ChunksCovered type b) (n : Nat) :
    F.Follows (copyChunks type n) s ((chunkLoop F.advance type n b).map fun u => ((), u)) := by
  induction n generalizing s b with
  | zero => exact Action.follows_fail _ (F.failed hs)
  | succ n ih =>
    refine peek_then hs (fun e hh => by rw [chunkLoop, hh]; rfl) fun c hh => ?_
    rcases hb : c.isSpecialBreak
    · rw [chunkLoop_chunk hh hb, if_neg Bool.false_ne_true]
      by_cases hgood : c.type = type ∧ c.indefinite = false
      · rw [if_neg (by simp [hgood]), if_pos hgood]
        have htake := F.take hs ((hmay b .here).1 c hh hgood.1 hgood.2) n
        refine (htake.bind (g := fun _ u => (chunkLoop F.advance type n u).map fun u => ((), u)) ?_).congr ?_
        · intro _ s' u hu hs'
          have hle : F.advance c ≤ b.length ∧ u = b.drop (F.advance c) := by
            unfold passOver at hu
            split at hu
            · cases hu
            · cases hu
              exact ⟨Nat.not_lt.mp ‹_›, rfl⟩
          apply ih hs'
          intro v hv
          exact hmay v (.later hh hgood.1 hgood.2 hle.1 (hle.2 ▸ hv))
        · show passOver (F.advance c) b >>= _ = _
          unfold passOver
          by_cases hle : F.advance c ≤ b.length
          · rw [if_neg (Nat.not_lt.mpr hle), if_pos hle]
            rfl
          · rw [if_pos (Nat.lt_of_not_le hle), if_neg hle]
            rfl
      · rw [if_neg hgood, if_pos (by
          rw [not_and_or, Bool.not_eq_false] at hgood
          exact hgood)]
        exact Action.follows_fail _ (F.failed hs)
    · have hbreak := break_of_headOf hh hb
      generalize b.drop c.encodedLength = u at hbreak
      subst hbreak
      rw [chunkLoop_break, if_pos rfl]
      exact F.special hs ((hmay _ .here).2 u rfl)

theorem copyBinaryOrTextTo_follows (hs : F.Tracks s b) (hm : item.type.major = 2 ∨ item.type.major = 3)
    (hmay : F.Covered item b) :
    F.Follows (copyBinaryOrTextTo n item) s ((F.reader n item b).map fun u => ((), u)) := by
  have hstring := hmay.string hm
  unfold copyBinaryOrTextTo reader stringReader
  cases hi : item.indefinite
  · rw [hi, if_neg Bool.false_ne_true] at hstring
    refine (F.take hs hstring n).congr ?_
    simp only [ItemHead.indefinite] at hi
    simp only [passOver, ItemHead.indefinite, hi, Bool.false_eq_true, if_false]
    split <;> rfl
  · rw [hi, if_pos rfl] at hstring
    simp only [ItemHead.indefinite] at hi
    simp only [ItemHead.indefinite, hi, if_true]
    exact copyChunks_follows hs hstring n

/-- The rest of a container's round: the next head is pushed, or a break ends it. -/
theorem peekContainer_follows {next : ItemHead} {y : Copy MemoryInputStream τ (List ItemHead)}
    {r : List UInt8 → Except Fault (List ItemHead × List UInt8)} (hs : F.Tracks s b) (indefinite : Bool)
    (hmay : ∀ {sub}, headOf b = .ok sub → F.MayPush sub.encodedLength b)
    (hy : ∀ u, b = breakByte :: u → indefinite = true → F.Follows y s (r u)) :
    F.Follows (do
      let subItem ← Action.onFst peekItemHead
      if !indefinite || !subItem.isSpecialBreak then pushItemHead subItem (next :: stack)
      else y) s (do
      let (sub, u) ← subItem b
      if !indefinite || !sub.isSpecialBreak then .ok (sub :: next :: stack, u)
      else r u) := by
  refine peek_then hs (fun e hh => by rw [subItem_error hh]; rfl) fun h hh => ?_
  rw [subItem_ok hh]
  show F.Follows _ _ (if !indefinite || !h.isSpecialBreak then _ else _)
  by_cases hgo : (!indefinite || !h.isSpecialBreak) = true
  · rw [if_pos hgo, if_pos hgo]
    exact pushItemHead_follows hs hh (hmay hh)
  · rw [if_neg hgo, if_neg hgo]
    simp only [Bool.or_eq_true, Bool.not_eq_true', not_or, Bool.not_eq_false] at hgo
    exact hy _ (break_of_headOf hh hgo.2) hgo.1

/-- A break that ends a container is copied, and the container popped. -/
theorem closeContainer_follows {u : List UInt8} (hs : F.Tracks s (breakByte :: u)) (hmay : F.MayBreak u) :
    F.Follows (do
      copySpecialBreakTo
      pure stack) s (.ok (stack, u)) :=
  (F.special hs hmay).bind (g := fun _ u => .ok (stack, u)) fun _ _ _ _ hs' => Action.follows_pure _ hs'

theorem copyRound_follows (hs : F.Tracks s b) (hmay : F.Covered item b) :
    F.Follows (copyRound n (item :: stack)) s (ItemMachine.round (F.reader n) (item :: stack) b) := by
  have hmajor : item.type.major = 0 ∨ item.type.major = 1 ∨ item.type.major = 2 ∨ item.type.major = 3 ∨
      item.type.major = 4 ∨ item.type.major = 5 ∨ item.type.major = 6 ∨ item.type.major = 7 := by
    cases item.type <;> decide
  have hpure : F.Follows (pure stack) s (.ok (stack, b)) := Action.follows_pure _ hs
  have hstring : item.type.major = 2 ∨ item.type.major = 3 →
      F.Follows (do copyBinaryOrTextTo n item; pure stack) s (do let u ← F.reader n item b; .ok (stack, u)) := by
    intro hm
    refine ((copyBinaryOrTextTo_follows hs hm hmay).bind (g := fun _ u => .ok (stack, u))
      fun _ _ _ _ hs' => Action.follows_pure _ hs').congr ?_
    cases F.reader n item b <;> rfl
  unfold copyRound ItemMachine.round
  rcases hmajor with hm | hm | hm | hm | hm | hm | hm | hm <;> simp only [hm]
  · exact hpure
  · exact hpure
  · exact hstring (.inl hm)
  · exact hstring (.inr hm)
  · split
    · exact hpure
    · rename_i hv
      refine peekContainer_follows (r := fun u => .ok (stack, u)) hs item.indefinite
        (hmay.head (.inl ⟨.inl hm, hv⟩)) ?_
      rintro u rfl hi
      exact closeContainer_follows hs (hmay.special rfl (.inl hm) hv hi (by omega))
  · split
    · exact hpure
    · rename_i hv
      refine peekContainer_follows
        (r := fun u => if (item.flags >>> 1).toNat ≠ 0 then .error (.errc .itemTypeMismatch) else .ok (stack, u))
        hs item.indefinite (hmay.head (.inl ⟨.inr hm, hv⟩)) ?_
      rintro u rfl hi
      split
      · exact Action.follows_fail _ (F.failed hs)
      · rename_i heven
        refine closeContainer_follows hs (hmay.special rfl (.inr hm) hv hi fun hodd => heven ?_)
        intro hzero
        exact hodd.2 (UInt8.toNat_inj.mp hzero)
  · refine peek_then hs (fun e hh => by rw [subItem_error hh]; rfl) fun h hh => ?_
    rw [subItem_ok hh]
    exact pushItemHead_follows hs hh (hmay.head (.inr hm) hh)
  · split
    · exact Action.follows_fail _ (F.failed hs)
    · exact hpure

theorem copyLoop_follows (hs : F.Tracks s b)
    (hmay : ∀ item stack' u, Reaches F.reader stack b (item :: stack') u → F.Covered item u) :
    F.Follows (copyLoop n stack) s ((run F.reader n stack b).map fun u => ((), u)) := by
  induction n generalizing s b stack with
  | zero => exact Action.follows_fail _ (F.failed hs)
  | succ n ih =>
    cases stack with
    | nil => exact Action.follows_fail _ (F.failed hs)
    | cons item tail =>
      have hround : F.Follows (copyRound n (item :: tail)) s (ItemMachine.round (F.reader n) (item :: tail) b) :=
        copyRound_follows hs (hmay item tail b .here)
      refine (hround.bind (g := fun stack' u => if stack'.isEmpty then .ok ((), u)
        else (run F.reader n stack' u).map fun u => ((), u)) ?_).congr ?_
      · intro stack' s' u hr hs'
        by_cases hempty : stack'.isEmpty = true
        · rw [if_pos hempty, if_pos hempty]
          exact Action.follows_pure _ hs'
        · rw [if_neg hempty, if_neg hempty]
          exact ih hs' fun item stack'' v hv => hmay item stack'' v (.later hr hv)
      · rcases hr : ItemMachine.round (F.reader n) (item :: tail) b with e | ⟨stack', u⟩
        · rw [run_succ_error hr]
          rfl
        · rw [run_succ_ok hr]
          simp only [bind, Except.bind]
          split <;> rfl

/-- Copying from a memory stream follows the machine on the bytes. -/
theorem copyItemTo_follows (hs : F.Tracks s b) (hhead : ∀ h, headOf b = .ok h → F.MayPush h.encodedLength b)
    (hmay : ∀ h item stack u, headOf b = .ok h →
      Reaches F.reader [h] (b.drop h.encodedLength) (item :: stack) u → F.Covered item u) (n : Nat) :
    F.Follows (copyItemTo n) s ((runItem F.reader n b).map fun u => ((), u)) := by
  refine peek_then hs (fun e hh => by rw [runItem_noHead hh]; rfl) fun h hh => ?_
  rw [runItem_head hh]
  refine (pushItemHead_follows hs hh (hhead h hh)).bind
    (g := fun stack u => (run F.reader n stack u).map fun u => ((), u)) ?_
  intro stack s' u hr hs'
  cases hr
  exact copyLoop_follows hs' fun item stack u hu => hmay h item stack u hh hu

/-- An output that is good for all sizes covers every round. -/
theorem covered_of_all (hpush : ∀ n b, F.MayPush n b) (htake : ∀ n b, F.MayTake n b) (hbreak : ∀ b, F.MayBreak b)
    (item : ItemHead) (b : List UInt8) : F.Covered item b where
  string _ := by
    split
    · exact fun v _ => ⟨fun c _ _ _ => htake _ v, fun w _ => hbreak w⟩
    · exact htake _ b
  head _ _ := hpush _ b
  special _ _ _ _ _ := hbreak _

end Copying

/-! ### What the copies do to the streams -/

section Streams
variable {τ : Type} {o o' : OutputBuffer τ} {b u : List UInt8} {n : Nat}

/-- The output with these bytes stored at the front and committed. -/
def landed (bytes : List UInt8) (o : OutputBuffer τ) : OutputBuffer τ := (o.put 0 bytes).commit bytes.length

theorem store_commit {bytes : List UInt8} (hroom : bytes.length ≤ o.free.length) :
    (do
      OutputBuffer.store 0 bytes
      OutputBuffer.commitWritten bytes.length) o = (.ok (), landed bytes o) := by
  have h0 : 0 + bytes.length ≤ o.free.length := by rwa [Nat.zero_add]
  rw [Action.bind_ok _ (OutputBuffer.store_apply h0)]
  apply OutputBuffer.commitWritten_apply
  rwa [OutputBuffer.put_length o h0]

theorem landed_free {bytes : List UInt8} (hroom : bytes.length ≤ o.free.length) :
    (landed bytes o).free.length = o.free.length - bytes.length := by
  have h0 : 0 + bytes.length ≤ o.free.length := by rwa [Nat.zero_add]
  rw [landed, OutputBuffer.commit_free, List.length_drop, OutputBuffer.put_length o h0]

/-- On the two streams at once. -/
theorem onSnd_store_commit {i : InputBuffer MemoryInputStream} {bytes : List UInt8}
    (hroom : bytes.length ≤ o.free.length) :
    (do
      Action.onSnd (OutputBuffer.store 0 bytes)
      Action.onSnd (OutputBuffer.commitWritten bytes.length) : Copy MemoryInputStream τ Unit) (i, o) =
      (.ok (), (i, landed bytes o)) := by
  obtain ⟨a, o', hstore, hcommit⟩ := Action.bind_eq_ok.mp (store_commit hroom)
  have hfirst : Action.onSnd (OutputBuffer.store 0 bytes) (i, o) = (.ok a, (i, o')) := by
    rw [Action.onSnd_apply, hstore]
  rw [Action.bind_ok _ hfirst, Action.onSnd_apply, hcommit]

theorem readInto_ok (hb : b.length < wordLimit) (hn : n ≤ b.length) (hroom : n ≤ o.free.length) :
    readInto n (memoryInput b, o) = (.ok (), (memoryInput (b.drop n), landed (b.take n) o)) := by
  have hlen : (b.take n).length = n := List.length_take_of_le hn
  have hread : Action.onFst (InputBuffer.bulkRead n) (memoryInput b, o) =
      (.ok (b.take n), (memoryInput (b.drop n), o)) := by
    rw [Action.onFst_apply, MemoryInputStream.bulkRead_memory n hb, if_pos hn]
  have hstore := onSnd_store_commit (i := memoryInput (b.drop n))
    (show (b.take n).length ≤ o.free.length by rwa [hlen])
  rw [hlen] at hstore
  exact (Action.bind_ok _ hread).trans hstore

theorem readInto_short (hb : b.length < wordLimit) (hn : b.length < n) :
    readInto n (memoryInput b, o) = (.error (.errc .endOfStream), (memoryInput b, o)) := by
  apply Action.bind_error
  rw [Action.onFst_apply, MemoryInputStream.bulkRead_memory n hb, if_neg (Nat.not_le.mpr hn)]

theorem discardBreak (hb : (breakByte :: u).length < wordLimit) :
    Action.onFst (InputBuffer.discardBuffered 1) (memoryInput (breakByte :: u), o) =
      (.ok (), (memoryInput u, o)) := by
  rw [Action.onFst_apply, MemoryInputStream.discardBuffered_memory hb (Nat.le_add_left _ _)]
  rfl

variable [OutputStream τ]

theorem smallBufferCopy_granted {i : InputBuffer MemoryInputStream}
    (hensure : OutputBuffer.ensureSize n o = (.ok (), o')) :
    smallBufferCopy n (i, o) = readInto n (i, o') := by
  apply Action.bind_ok
  rw [Action.onSnd_apply, hensure]

/-- An output that has provided the size takes all of it at once. -/
theorem bulkCopy_granted {i : InputBuffer MemoryInputStream} (hensure : OutputBuffer.ensureSize n o = (.ok (), o'))
    (hroom : n ≤ o'.free.length) (rounds : Nat) : bulkCopy rounds n (i, o) = readInto n (i, o') := by
  have hchunk : bulkCopyChunk n (i, o) = (do readInto n; pure 0 : Copy MemoryInputStream τ Nat) (i, o') := by
    have hfirst : Action.onSnd (OutputBuffer.ensureSize n) (i, o) = (.ok (), (i, o')) := by
      rw [Action.onSnd_apply, hensure]
    have hsize : Action.onSnd OutputBuffer.size (i, o') = (.ok o'.free.length, (i, o')) := rfl
    rw [bulkCopyChunk, Action.bind_ok _ hfirst, Action.bind_ok _ hsize, Nat.min_eq_left hroom, Nat.sub_self]
  have hrest : ∀ x : Nat → Copy MemoryInputStream τ Unit, (bulkCopyChunk n >>= fun amount =>
      if 0 < amount then x amount else pure ()) (i, o) = readInto n (i, o') := by
    intro x
    rw [Action.bind_apply, hchunk, Action.bind_apply]
    rcases readInto n (i, o') with ⟨e | v, s⟩
    · rfl
    · rfl
  cases rounds with
  | zero => exact hrest _
  | succ rounds => exact hrest _

/-- An output that does not provide the size ends the copy. -/
theorem bulkCopy_refused {i : InputBuffer MemoryInputStream} {e : Fault}
    (hensure : OutputBuffer.ensureSize n o = (.error e, o')) (rounds : Nat) :
    bulkCopy rounds n (i, o) = (.error e, (i, o')) := by
  have hfirst : Action.onSnd (OutputBuffer.ensureSize n) (i, o) = (.error e, (i, o')) := by
    rw [Action.onSnd_apply, hensure]
  have hchunk : bulkCopyChunk n (i, o) = (.error e, (i, o')) := Action.bind_error _ hfirst
  cases rounds with
  | zero => exact Action.bind_error _ hchunk
  | succ rounds => exact Action.bind_error _ hchunk

theorem copySpecialBreakTo_granted (hb : (breakByte :: u).length < wordLimit)
    (hensure : OutputBuffer.ensureSize 1 o = (.ok (), o')) (hroom : 1 ≤ o'.free.length) :
    copySpecialBreakTo (memoryInput (breakByte :: u), o) = (.ok (), (memoryInput u, landed [breakByte] o')) := by
  have hfirst : Action.onSnd (OutputBuffer.ensureSize 1) (memoryInput u, o) = (.ok (), (memoryInput u, o')) := by
    rw [Action.onSnd_apply, hensure]
  rw [copySpecialBreakTo, Action.bind_ok _ (discardBreak hb), Action.bind_ok _ hfirst]
  exact onSnd_store_commit hroom

end Streams

section Simulation
variable {τ : Type} [OutputStream τ] {D : RoomyOutput τ} {total : List UInt8}

/-- What was copied and what is unread are the bytes there were. -/
def Copies (D : RoomyOutput τ) (total : List UInt8) (s : InputBuffer MemoryInputStream × OutputBuffer τ)
    (b : List UInt8) : Prop :=
  s.1 = memoryInput b ∧ b.length < wordLimit ∧ D.Valid s.2 ∧ D.output s.2 ++ b = total

variable {o : OutputBuffer τ} {b u : List UInt8} {n : Nat}

theorem landed_roomy (ho : D.Valid o) {bytes : List UInt8} (hroom : bytes.length ≤ o.free.length) :
    D.Valid (landed bytes o) ∧ D.output (landed bytes o) = D.output o ++ bytes := by
  have h0 : 0 + bytes.length ≤ o.free.length := by rwa [Nat.zero_add]
  obtain ⟨hput, hout⟩ := D.put ho h0
  have hlen := OutputBuffer.put_length o h0
  obtain ⟨hcommit, hout'⟩ := D.commit hput (n := bytes.length) (by rw [hlen]; exact hroom)
  have htake := OutputBuffer.put_take o h0
  rw [Nat.zero_add, List.take_zero, List.nil_append] at htake
  exact ⟨hcommit, by rw [landed, hout', hout, htake]⟩

theorem readInto_computes (hb : b.length < wordLimit) (ho : D.Valid o) (htotal : D.output o ++ b = total)
    (hroom : n ≤ o.free.length) :
    Action.Computes (Copies D total) (readInto n) (memoryInput b, o) (passOver n b) := by
  unfold passOver
  by_cases hlt : b.length < n
  · rw [if_pos hlt, Action.Computes, readInto_short hb hlt]
  · have hle := Nat.not_lt.mp hlt
    have hlen : (b.take n).length = n := List.length_take_of_le hle
    obtain ⟨hv, hout⟩ := landed_roomy ho (show (b.take n).length ≤ o.free.length by rwa [hlen])
    rw [if_neg hlt]
    refine ⟨_, readInto_ok hb hle hroom, rfl, MemoryInputStream.drop_lt n hb, hv, ?_⟩
    rw [hout, List.append_assoc, List.take_append_drop]
    exact htotal

/-- An output with room for everything is never the end of a copy. -/
def roomyCopying (D : RoomyOutput τ) (total : List UInt8) : Copying τ where
  Tracks := Copies D total
  Failed _ := True
  Stopped _ := False
  cap n := n
  MayPush _ _ := True
  MayTake _ _ := True
  MayBreak _ := True
  input h := ⟨h.1, h.2.1⟩
  failed _ := trivial
  push := by
    intro s b h hs hh _
    obtain ⟨i, o⟩ := s
    obtain ⟨rfl, hb, ho, htotal⟩ := hs
    obtain ⟨o', ho', hv, hout, hroom⟩ := D.ensure h.encodedLength ho
    have htotal' : D.output o' ++ b = total := by rw [hout]; exact htotal
    have hcopy := readInto_computes hb hv htotal' hroom
    rw [passOver, if_neg (Nat.not_lt.mpr (encodedLength_le hh))] at hcopy
    exact (hcopy.of_run (smallBufferCopy_granted ho')).follows fun _ => trivial
  take := by
    intro s b amount hs _ rounds
    obtain ⟨i, o⟩ := s
    obtain ⟨rfl, hb, ho, htotal⟩ := hs
    obtain ⟨o', ho', hv, hout, hroom⟩ := D.ensure amount ho
    have htotal' : D.output o' ++ b = total := by rw [hout]; exact htotal
    have hcopy := readInto_computes hb hv htotal' hroom
    exact (hcopy.of_run (bulkCopy_granted ho' hroom rounds)).follows fun _ => trivial
  special := by
    intro s u hs _
    obtain ⟨i, o⟩ := s
    obtain ⟨rfl, hb, ho, htotal⟩ := hs
    obtain ⟨o', ho', hv, hout, hroom⟩ := D.ensure 1 ho
    have hone : [breakByte].length ≤ o'.free.length := hroom
    obtain ⟨hv', hout'⟩ := landed_roomy hv hone
    have hlt : u.length < wordLimit := Nat.lt_of_succ_lt hb
    refine Or.inl ⟨_, _, u, copySpecialBreakTo_granted hb ho' hroom, rfl, rfl, hlt, hv', ?_⟩
    rw [hout', hout, List.append_assoc]
    exact htotal

end Simulation
end Detail

open ItemMachine

/-- Copying from a memory stream is the machine on the bytes. -/
theorem copyItemTo_simulates {τ : Type} [OutputStream τ] {D : RoomyOutput τ} {total : List UInt8} (n : Nat) :
    Action.Simulates (Detail.Copies D total) (copyItemTo n) fun b =>
      (runItem (stringReader wrappedChunk) n b).map fun u => ((), u) := by
  intro s b hs
  have hfollows := Detail.Copying.copyItemTo_follows (F := Detail.roomyCopying D total) hs (fun _ _ => trivial)
    (fun _ item _ u _ _ =>
      Detail.Copying.covered_of_all (fun _ _ => trivial) (fun _ _ => trivial) (fun _ => trivial) item u) n
  exact hfollows.computes fun _ => id

section
variable {τ : Type} [OutputStream τ] {D : RoomyOutput τ} {b rest : List UInt8} {n : Nat} {o : OutputBuffer τ}

theorem copyItemTo_computes (hb : b.length < wordLimit) (ho : D.Valid o) (n : Nat) :
    Action.Computes (Detail.Copies D (D.output o ++ b)) (copyItemTo n) (memoryInput b, o)
      ((runItem (stringReader wrappedChunk) n b).map fun u => ((), u)) :=
  copyItemTo_simulates n _ b ⟨rfl, hb, ho, rfl⟩

/-- An item under the wrapped rule is copied, byte for byte. -/
theorem copyItemTo_ok (hb : b.length < wordLimit) (ho : D.Valid o) (hn : roundBound b ≤ n)
    (hr : Reads (stringRule wrappedChunk) .item b rest) :
    ∃ t, copyItemTo n (memoryInput b, o) = (.ok (), (memoryInput rest, t)) ∧ D.Valid t ∧
      D.output t ++ rest = D.output o ++ b := by
  have hcomp := copyItemTo_computes hb ho n
  rw [runItem_of_reads (stringReader_obeys wrappedChunk) hr hn] at hcomp
  obtain ⟨⟨i, t⟩, hrun, rfl, -, hv, htotal⟩ := hcomp
  exact ⟨t, hrun, hv, htotal⟩

/-- What was copied was an item under the wrapped rule. -/
theorem copyItemTo_sound (hb : b.length < wordLimit) (ho : D.Valid o)
    {s : InputBuffer MemoryInputStream × OutputBuffer τ} (h : copyItemTo n (memoryInput b, o) = (.ok (), s)) :
    ∃ rest, Reads (stringRule wrappedChunk) .item b rest ∧ s.1 = memoryInput rest ∧ D.Valid s.2 ∧
      D.output s.2 ++ rest = D.output o ++ b := by
  obtain ⟨rest, hrest, hin, -, hv, htotal⟩ := (copyItemTo_computes hb ho n).of_ok h
  rcases hrun : runItem (stringReader wrappedChunk) n b with e | u <;> rw [hrun] at hrest <;> cases hrest
  exact ⟨rest, (reads_of_runItem (stringReader_obeys wrappedChunk) hrun).mpr rfl, hin, hv, htotal⟩

/-- A copy that came back with an error found no item under the wrapped rule. -/
theorem copyItemTo_error (hb : b.length < wordLimit) (ho : D.Valid o) {e : Fault}
    {s : InputBuffer MemoryInputStream × OutputBuffer τ}
    (h : copyItemTo n (memoryInput b, o) = (.error e, s)) (he : e ≠ .running) :
    ¬ Reads (stringRule wrappedChunk) .item b rest := by
  have hfst := (copyItemTo_computes (n := n) hb ho).fst_eq
  rw [h] at hfst
  have hend := ended_runItem (n := n) (b := b) (stringReader_obeys wrappedChunk)
  rcases hrun : runItem (stringReader wrappedChunk) n b with e' | u <;> rw [hrun] at hfst hend <;> cases hfst
  cases e with
  | running => exact absurd rfl he
  | errc e => exact hend.1 rest
  | outOfBounds => exact hend.1 rest
  | terminated => exact hend.1 rest

/-- A copy is still running after any number of rounds exactly where a chunk stalls it. -/
theorem copyItemTo_running_iff (hb : b.length < wordLimit) (ho : D.Valid o) :
    (∀ n, (copyItemTo n (memoryInput b, o)).1 = .error .running) ↔
      Meets (stringRule wrappedChunk) (stringStalls wrappedChunk) .item b := by
  rw [← runItem_running_iff (stringReader_obeys wrappedChunk)]
  refine forall_congr' fun n => ?_
  rw [(copyItemTo_computes (n := n) hb ho).fst_eq]
  cases runItem (stringReader wrappedChunk) n b <;> simp [Except.map]

end
end DeepPack
