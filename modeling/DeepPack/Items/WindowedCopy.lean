import DeepPack.Items.CopyAgreement
import DeepPack.Items.HeadContract
import DeepPack.Streams.VoidStream

/-! Copying into a stream that takes everything, a buffer at a time.

A string is asked for as a whole, and so is a chunk with its head. Where one is larger
than the buffer the copy ends, although the loop behind the request would pass it on in
pieces; every other item is copied and counted. -/
namespace DeepPack
open Library ItemMachine

namespace ItemMachine

/-- A size the buffer cannot provide is longer than any input. -/
def windowed (n : Nat) : Nat := if n ≤ voidBufferSize then n else wordLimit

/-- A string that is larger than the buffer, or has a chunk that is, head and content. -/
def LargeString (h : ItemHead) (b : List UInt8) : Prop :=
  if h.indefinite then ChunksMeet wrappedChunk (fun c => voidBufferSize < wrappedChunk c) h.type b
  else voidBufferSize < h.value

variable {type : TypeCode} {h : ItemHead} {b rest : List UInt8} {n : Nat}

theorem windowed_le (hb : b.length < wordLimit) : windowed n ≤ b.length ↔ n ≤ voidBufferSize ∧ n ≤ b.length := by
  unfold windowed
  split
  · simp [*]
  · constructor
    · intro hle
      omega
    · intro hle
      omega

theorem windowed_of_le (hn : n ≤ voidBufferSize) : windowed n = n := if_pos hn

theorem chunks_of_windowed (hb : b.length < wordLimit)
    (hc : Chunks (fun c => windowed (wrappedChunk c)) type b rest) : Chunks wrappedChunk type b rest := by
  induction hc with
  | last => exact .last
  | @chunk b rest c hh ht hi hle _ ih =>
    obtain ⟨hsmall, hfits⟩ := (windowed_le hb).mp hle
    rw [windowed_of_le hsmall] at ih
    exact .chunk hh ht hi hfits (ih (MemoryInputStream.drop_lt _ hb))

theorem chunks_windowed (hc : Chunks wrappedChunk type b rest)
    (hno : ¬ ChunksMeet wrappedChunk (fun c => voidBufferSize < wrappedChunk c) type b) :
    Chunks (fun c => windowed (wrappedChunk c)) type b rest := by
  induction hc with
  | last => exact .last
  | @chunk b rest c hh ht hi hle _ ih =>
    have hsmall : wrappedChunk c ≤ voidBufferSize := Nat.not_lt.mp fun hlarge => hno (.here hh ht hi hlarge)
    have hsame : windowed (wrappedChunk c) = wrappedChunk c := windowed_of_le hsmall
    have hrec := ih fun hmeet => hno (.later hh ht hi hle hmeet)
    refine .chunk hh ht hi ?_ ?_
    · simpa only [hsame] using hle
    · simpa only [hsame] using hrec

theorem not_chunks_windowed (hb : b.length < wordLimit)
    (hmeet : ChunksMeet wrappedChunk (fun c => voidBufferSize < wrappedChunk c) type b) :
    ¬ Chunks (fun c => windowed (wrappedChunk c)) type b rest := by
  induction hmeet with
  | @here b c hh _ hi hlarge =>
    intro hc
    obtain ⟨-, hle, -⟩ := (chunks_chunk hh (not_break_of_definite hi)).mp hc
    exact absurd ((windowed_le hb).mp hle).1 (Nat.not_le.mpr hlarge)
  | @later b c hh _ hi _ _ ih =>
    intro hc
    obtain ⟨-, hle, hrest⟩ := (chunks_chunk hh (not_break_of_definite hi)).mp hc
    simp only [windowed_of_le ((windowed_le hb).mp hle).1] at hrest
    exact ih (MemoryInputStream.drop_lt _ hb) hrest

end ItemMachine

namespace Detail.Copying
variable {τ : Type} [OutputStream τ] (F : Copying τ)

/-- What the reader leaves of a string. -/
def rule : StringRule := fun h => stringRule F.advance {h with value := F.cap h.value}

def stalls (h : ItemHead) (b : List UInt8) : Prop := stringStalls F.advance {h with value := F.cap h.value} b

theorem reader_obeys : Obeys F.reader F.rule F.stalls where
  ok := (stringReader_obeys F.advance).ok
  error := (stringReader_obeys F.advance).error
  stalls := (stringReader_obeys F.advance).stalls
  ends := (stringReader_obeys F.advance).ends
  shrinks := (stringReader_obeys F.advance).shrinks

variable {F} {h : ItemHead} {b rest : List UInt8}

theorem rule_indefinite (hi : h.indefinite = true) : F.rule h b rest ↔ Chunks F.advance h.type b rest :=
  Iff.of_eq (if_pos hi)

theorem rule_definite (hi : ¬ h.indefinite = true) :
    F.rule h b rest ↔ F.cap h.value ≤ b.length ∧ rest = b.drop (F.cap h.value) :=
  Iff.of_eq (if_neg hi)

end Detail.Copying

namespace VoidStream
variable {start : Nat} {o : OutputBuffer VoidStream} {out bytes : List UInt8}

theorem landed_holds (ho : Holds start o out) (hroom : bytes.length ≤ o.free.length) :
    Holds start (Detail.landed bytes o) (out ++ bytes) := by
  have h0 : 0 + bytes.length ≤ o.free.length := by rwa [Nat.zero_add]
  have hcommit := commit_holds (n := bytes.length) (put_holds ho h0) (by rwa [OutputBuffer.put_length o h0])
  have htake := OutputBuffer.put_take o h0
  rw [Nat.zero_add, List.take_zero, List.nil_append] at htake
  rwa [htake] at hcommit

/-- What was counted and what is unread come to the size there was. -/
def Tracks (start size : Nat) (s : InputBuffer MemoryInputStream × OutputBuffer VoidStream)
    (b : List UInt8) : Prop :=
  s.1 = memoryInput b ∧ b.length < wordLimit ∧ ∃ out, Holds start s.2 out ∧ out.length + b.length = size

variable {size n : Nat} {b : List UInt8}

theorem readInto_tracks (hb : b.length < wordLimit) (ho : Holds start o out) (hsize : out.length + b.length = size)
    (hroom : n ≤ o.free.length) :
    Action.Computes (Tracks start size) (Detail.readInto n) (memoryInput b, o) (passOver n b) := by
  unfold passOver
  by_cases hlt : b.length < n
  · rw [if_pos hlt, Action.Computes, Detail.readInto_short hb hlt]
  · have hle := Nat.not_lt.mp hlt
    have hlen : (b.take n).length = n := List.length_take_of_le hle
    rw [if_neg hlt]
    refine ⟨_, Detail.readInto_ok hb hle hroom, rfl, MemoryInputStream.drop_lt n hb, _,
      landed_holds ho (by rwa [hlen]), ?_⟩
    rw [List.length_append, hlen, List.length_drop]
    omega

/-- A void stream provides what fits its buffer. -/
def copying (start size : Nat) : Detail.Copying VoidStream where
  Tracks := Tracks start size
  Failed _ := True
  Stopped _ := False
  cap := windowed
  MayPush _ _ := True
  MayTake _ _ := True
  MayBreak _ := True
  input h := ⟨h.1, h.2.1⟩
  failed _ := trivial
  push := by
    intro s b h hs hh _
    obtain ⟨i, o⟩ := s
    obtain ⟨rfl, hb, out, ho, hsize⟩ := hs
    have hsmall : h.encodedLength ≤ voidBufferSize := by
      obtain ⟨p, rest, -, hread⟩ := exists_readFrom hh
      have hmem := hread.length_mem
      simp only [List.mem_cons, List.not_mem_nil, or_false] at hmem
      rw [hread.encodedLength_eq, voidBufferSize]
      omega
    obtain ⟨o', ho', hholds, hroom⟩ := ensure_holds ho hsmall
    have hcopy := readInto_tracks hb hholds hsize hroom
    rw [passOver, if_neg (Nat.not_lt.mpr (encodedLength_le hh))] at hcopy
    exact (hcopy.of_run (Detail.smallBufferCopy_granted ho')).follows fun _ => trivial
  take := by
    intro s b amount hs _ rounds
    obtain ⟨i, o⟩ := s
    obtain ⟨rfl, hb, out, ho, hsize⟩ := hs
    by_cases hsmall : amount ≤ voidBufferSize
    · obtain ⟨o', ho', hholds, hroom⟩ := ensure_holds ho hsmall
      rw [windowed_of_le hsmall]
      have hcopy := readInto_tracks hb hholds hsize hroom
      exact (hcopy.of_run (Detail.bulkCopy_granted ho' hroom rounds)).follows fun _ => trivial
    · have hrefused := ensure_large ho (Nat.lt_of_not_le hsmall)
      refine Or.inr ⟨_, _, Detail.bulkCopy_refused hrefused rounds, Or.inl ⟨?_, trivial⟩⟩
      rw [windowed, if_neg hsmall]
      exact if_pos hb
  special := by
    intro s u hs _
    obtain ⟨i, o⟩ := s
    obtain ⟨rfl, hb, out, ho, hsize⟩ := hs
    obtain ⟨o', ho', hholds, hroom⟩ := ensure_holds ho (n := 1) (by decide)
    have hlt : u.length < wordLimit := Nat.lt_of_succ_lt hb
    refine Or.inl ⟨_, _, u, Detail.copySpecialBreakTo_granted hb ho' hroom, rfl, rfl, hlt, _,
      landed_holds hholds hroom, ?_⟩
    rw [List.length_append, List.length_singleton, ← hsize, List.length_cons]
    omega

theorem rule_wrapped {h : ItemHead} {rest : List UInt8} (hb : b.length < wordLimit)
    (hs : (copying start size).rule h b rest) : stringRule wrappedChunk h b rest := by
  unfold stringRule
  by_cases hi : h.indefinite = true
  · rw [if_pos hi]
    exact chunks_of_windowed hb ((Detail.Copying.rule_indefinite hi).mp hs)
  · rw [if_neg hi]
    obtain ⟨hle, hrest⟩ := (Detail.Copying.rule_definite hi).mp hs
    obtain ⟨hsmall, hfits⟩ := (windowed_le hb).mp hle
    exact ⟨hfits, hrest.trans (congrArg (b.drop ·) (windowed_of_le hsmall))⟩

theorem rule_windowed {h : ItemHead} {rest : List UInt8} (hs : stringRule wrappedChunk h b rest)
    (hno : ¬ LargeString h b) : (copying start size).rule h b rest := by
  unfold stringRule at hs
  unfold LargeString at hno
  by_cases hi : h.indefinite = true
  · rw [if_pos hi] at hs hno
    exact (Detail.Copying.rule_indefinite hi).mpr (chunks_windowed hs hno)
  · rw [if_neg hi] at hs hno
    have hsame : windowed h.value = h.value := windowed_of_le (Nat.not_lt.mp hno)
    apply (Detail.Copying.rule_definite hi).mpr
    show windowed h.value ≤ b.length ∧ rest = b.drop (windowed h.value)
    rwa [hsame]

theorem not_rule_large {h : ItemHead} {rest : List UInt8} (hb : b.length < wordLimit) (hlarge : LargeString h b) :
    ¬ (copying start size).rule h b rest := by
  unfold LargeString at hlarge
  intro hs
  by_cases hi : h.indefinite = true
  · rw [if_pos hi] at hlarge
    exact not_chunks_windowed hb hlarge ((Detail.Copying.rule_indefinite hi).mp hs)
  · rw [if_neg hi] at hlarge
    obtain ⟨hle, -⟩ := (Detail.Copying.rule_definite hi).mp hs
    exact absurd ((windowed_le hb).mp hle).1 (Nat.not_le.mpr hlarge)

/-- The item is copied where no string of it is larger than the buffer. -/
theorem reads_window_iff {rest : List UInt8} (hb : b.length < wordLimit)
    (hr : Reads (stringRule wrappedChunk) .item b rest) :
    (∃ rest', Reads (copying start size).rule .item b rest') ↔
      ¬ Meets (stringRule wrappedChunk) LargeString .item b := by
  constructor
  · intro hex hmeet
    obtain ⟨rest', hr'⟩ := hex
    exact hmeet.not_reads (N := b.length) (stringReader_obeys wrappedChunk)
      (fun hle hs => rule_wrapped (hle.trans_lt hb) hs) (copying start size).reader_obeys.shrinks
      (fun hle hlarge => not_rule_large (hle.trans_lt hb) hlarge) le_rfl hr'
  · intro hno
    exact ⟨rest, hr.of_not_meets (fun hs hsmall => rule_windowed hs hsmall) hno⟩

theorem copyItemTo_computes (hb : b.length < wordLimit) (ho : Holds start o out)
    (hsize : out.length + b.length = size) (n : Nat) :
    Action.Computes (Tracks start size) (copyItemTo n) (memoryInput b, o)
      ((runItem (copying start size).reader n b).map fun u => ((), u)) := by
  have htracks : (copying start size).Tracks (memoryInput b, o) b := ⟨rfl, hb, out, ho, hsize⟩
  have hfollows := Detail.Copying.copyItemTo_follows htracks (fun _ _ => trivial)
    (fun _ item _ u _ _ =>
      Detail.Copying.covered_of_all (fun _ _ => trivial) (fun _ _ => trivial) (fun _ => trivial) item u) n
  exact hfollows.computes fun _ => id

/-- The item is copied into the stream, and counted. -/
def CopiesItem (p rest : List UInt8) (o : OutputBuffer VoidStream) : Prop :=
  ∃ N, ∀ n ≥ N, ∃ t, copyItemTo n (memoryInput (p ++ rest), o) = (.ok (), (memoryInput rest, t)) ∧
    total t = (total o + p.length) % wordLimit

/-- A whole buffer, nothing of which counts yet. -/
theorem holds_start (ho : o.behind.length + o.free.length = voidBufferSize) : Holds (total o) o [] := by
  refine ⟨ho, ?_⟩
  rw [List.length_nil, Nat.add_zero, total, Nat.mod_mod]

theorem copiesItem_of_reads {p rest : List UInt8} (hb : (p ++ rest).length < wordLimit)
    (ho : o.behind.length + o.free.length = voidBufferSize)
    (hr : Reads (copying (total o) (p ++ rest).length).rule .item (p ++ rest) rest) : CopiesItem p rest o := by
  refine ⟨roundBound (p ++ rest), fun n hn => ?_⟩
  have hcopy := copyItemTo_computes hb (holds_start ho) (Nat.zero_add _) n
  rw [runItem_of_reads (Detail.Copying.reader_obeys _) hr hn] at hcopy
  obtain ⟨⟨i, t⟩, ht, rfl, -, out, hholds, hsize⟩ := hcopy
  have hout : out.length = p.length := by
    rw [List.length_append] at hsize
    exact Nat.add_right_cancel hsize
  exact ⟨t, ht, by rw [hholds.2, hout]⟩

theorem reads_of_copiesItem {p rest : List UInt8} (hb : (p ++ rest).length < wordLimit)
    (ho : o.behind.length + o.free.length = voidBufferSize) (h : CopiesItem p rest o) :
    ∃ rest', Reads (copying (total o) (p ++ rest).length).rule .item (p ++ rest) rest' := by
  obtain ⟨n, hn⟩ := h
  obtain ⟨t, ht, -⟩ := hn n le_rfl
  obtain ⟨u, hu, -⟩ := (copyItemTo_computes hb (holds_start ho) (Nat.zero_add _) n).of_ok ht
  rcases hrun : runItem (copying (total o) (p ++ rest).length).reader n (p ++ rest) with e | v
  · rw [hrun] at hu
    cases hu
  · exact ⟨v, (reads_of_runItem (Detail.Copying.reader_obeys _) hrun).mpr rfl⟩

theorem reads_of_wellFormed {p rest : List UInt8} (hp : WellFormed .item p) (hb : (p ++ rest).length < wordLimit) :
    Reads (stringRule wrappedChunk) .item (p ++ rest) rest :=
  reads_wrapped hb (reads_iff_wellFormed.mpr ⟨p, rfl, hp⟩)

/-- A well-formed item is copied into a void stream, at any fill level, if and only if none of its
strings, and none of their chunks with their heads, is longer than the buffer. -/
theorem copiesItem_iff {p rest : List UInt8} (hp : WellFormed .item p) (hb : (p ++ rest).length < wordLimit)
    {o : OutputBuffer VoidStream} (ho : o.behind.length + o.free.length = voidBufferSize) :
    CopiesItem p rest o ↔ ¬ Meets (stringRule wrappedChunk) LargeString .item (p ++ rest) := by
  have hwrapped := reads_of_wellFormed hp hb
  have hwindow : (∃ rest', Reads (copying (total o) (p ++ rest).length).rule .item (p ++ rest) rest') ↔
      ¬ Meets (stringRule wrappedChunk) LargeString .item (p ++ rest) := reads_window_iff hb hwrapped
  rw [← hwindow]
  constructor
  · exact reads_of_copiesItem hb ho
  · intro h
    obtain ⟨rest', hr⟩ := h
    have hless := hr.mono (N := (p ++ rest).length) (Detail.Copying.reader_obeys _).shrinks
      (fun hle hs => rule_wrapped (hle.trans_lt hb) hs) le_rfl
    obtain rfl : rest' = rest := hless.item_unique (stringReader_obeys wrappedChunk) hwrapped
    exact copiesItem_of_reads hb ho hr

theorem copiesItem_iff_small : CopiesItem [0x42, 0x01, 0x02] [0xff] fresh := by
  apply (copiesItem_iff (.string (.inl rfl) (.inline (v := 2) (by decide)) rfl) (by decide) fresh_length).mpr
  have hhead : headOf ([0x42, 0x01, 0x02] ++ [0xff]) = .ok ⟨.binary, 0, 1, 2⟩ := rfl
  intro hmeet
  cases hmeet with
  | string hh _ hlarge =>
    obtain rfl := Except.ok.inj (hhead.symm.trans hh)
    exact absurd hlarge (by simp [LargeString, ItemHead.indefinite, voidBufferSize])
  | container hh hmajor =>
    obtain rfl := Except.ok.inj (hhead.symm.trans hh)
    exact absurd hmajor (by decide)

/-- A string one byte longer than the buffer. -/
def largeString : List UInt8 := [0x59, 0x0f, 0xa1] ++ List.replicate 4001 0

theorem largeString_length : largeString.length = 4004 := by
  rw [largeString, List.length_append, List.length_replicate]
  rfl

theorem headOf_largeString : headOf largeString = .ok ⟨.binary, 0, 3, 4001⟩ := by
  unfold largeString
  generalize List.replicate 4001 (0 : UInt8) = content
  rfl

/-- A string that is well-formed and written as a whole is not copied. -/
theorem copiesItem_not_large : WellFormed .item largeString ∧
    (∃ t, OutputBuffer.bulkWrite largeString fresh = (.ok (), t) ∧ total t = largeString.length) ∧
    ¬ CopiesItem largeString [] fresh := by
  have hhead : Head 2 (24 + 1) 4001 [0x59, 0x0f, 0xa1] :=
    .payload (show 1 ≤ 3 by decide) (show ([0x0f, 0xa1] : List UInt8).length = 2 from rfl)
  have hwf : WellFormed .item largeString := .string (.inl rfl) hhead List.length_replicate
  have hb : (largeString ++ []).length < wordLimit := by
    rw [List.append_nil, largeString_length]
    decide
  refine ⟨hwf, ?_, fun h => ?_⟩
  · obtain ⟨t, ht, hholds⟩ := bulk_holds largeString (holds_start fresh_length)
    refine ⟨t, ht, ?_⟩
    rw [hholds.2, total_fresh, List.nil_append, Nat.zero_add]
    exact Nat.mod_eq_of_lt (by rwa [List.append_nil] at hb)
  · have hex := reads_of_copiesItem hb fresh_length h
    apply (reads_window_iff hb (reads_of_wellFormed hwf hb)).mp hex
    rw [List.append_nil]
    exact .string headOf_largeString (.inl rfl) (by simp [LargeString, ItemHead.indefinite, voidBufferSize])

end VoidStream
end DeepPack
