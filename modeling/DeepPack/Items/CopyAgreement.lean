import DeepPack.Items.CopyItem

/-! Where copying and skipping agree, and where copying ends.

A chunk whose head and content are together longer than any 64 bit number overflows
the sum `copyItemTo` takes of the two. Skipping always finds such a chunk too long;
copying moves on by what is left of the sum, a few bytes into the chunk's own head.
If it finds an item that way the two disagree, and if nothing is left of the sum it
does not move at all. -/
namespace DeepPack
open Library ItemMachine

namespace ItemMachine

/-- The length of a chunk's head and content together is not a 64 bit number. -/
def Overflows (c : ItemHead) : Prop := wordLimit ≤ c.encodedLength + c.value

variable {type : TypeCode} {b rest : List UInt8} {h : ItemHead} {g : Goal}

theorem wrappedChunk_of_le {c : ItemHead} (hb : b.length < wordLimit) (hle : wholeChunk c ≤ b.length) :
    wrappedChunk c = wholeChunk c :=
  Nat.mod_eq_of_lt (hle.trans_lt hb)

/-- Chunks that are taken whole are also taken by the wrapped length. -/
theorem chunks_wrapped (hb : b.length < wordLimit) (hc : Chunks wholeChunk type b rest) :
    Chunks wrappedChunk type b rest := by
  induction hc with
  | last => exact .last
  | chunk hh ht hi hle _ ih =>
    have hsame := wrappedChunk_of_le hb hle
    refine .chunk hh ht hi (by rw [hsame]; exact hle) ?_
    rw [hsame]
    exact ih (by rw [List.length_drop]; omega)

theorem chunks_whole (hc : Chunks wrappedChunk type b rest)
    (hno : ¬ ChunksMeet wrappedChunk Overflows type b) : Chunks wholeChunk type b rest := by
  induction hc with
  | last => exact .last
  | @chunk b rest c hh ht hi hle _ ih =>
    have hsum : ¬ Overflows c := fun hover => hno (.here hh ht hi hover)
    have hsame : wrappedChunk c = wholeChunk c := Nat.mod_eq_of_lt (Nat.lt_of_not_le hsum)
    have hrec := ih fun hmeet => hno (.later hh ht hi hle hmeet)
    rw [hsame] at hle hrec
    exact .chunk hh ht hi hle hrec

/-- A chunk that overflows is too long to be taken whole. -/
theorem not_chunks_whole (hb : b.length < wordLimit) (hmeet : ChunksMeet wrappedChunk Overflows type b) :
    ¬ Chunks wholeChunk type b rest := by
  induction hmeet with
  | here hh _ hi hover =>
    intro hc
    have hle := ((chunks_chunk hh (not_break_of_definite hi)).mp hc).2.1
    rw [wholeChunk] at hle
    rw [Overflows] at hover
    omega
  | later hh _ hi _ _ ih =>
    intro hc
    obtain ⟨-, hle, hc⟩ := (chunks_chunk hh (not_break_of_definite hi)).mp hc
    rw [wrappedChunk_of_le hb hle] at ih
    exact ih (by rw [List.length_drop]; omega) hc

theorem stringRule_wrapped (hb : b.length < wordLimit) (hs : stringRule wholeChunk h b rest) :
    stringRule wrappedChunk h b rest := by
  by_cases hi : h.indefinite = true
  · rw [stringRule, if_pos hi] at hs ⊢
    exact chunks_wrapped hb hs
  · rw [stringRule, if_neg hi] at hs ⊢
    exact hs

theorem stringRule_whole (hs : stringRule wrappedChunk h b rest)
    (hno : ¬ stringMeets wrappedChunk Overflows h b) : stringRule wholeChunk h b rest := by
  by_cases hi : h.indefinite = true
  · rw [stringRule, if_pos hi] at hs ⊢
    exact chunks_whole hs fun hmeet => hno ⟨hi, hmeet⟩
  · rw [stringRule, if_neg hi] at hs ⊢
    exact hs

theorem not_stringRule_whole (hb : b.length < wordLimit) (hmeet : stringMeets wrappedChunk Overflows h b) :
    ¬ stringRule wholeChunk h b rest := by
  rw [stringRule, if_pos hmeet.1]
  exact not_chunks_whole hb hmeet.2

/-- The bytes start with an item only if a chunk on the way is taken by what is left of its
overflowing length. -/
def OnlyWrapped (b : List UInt8) : Prop :=
  (∃ rest, Reads (stringRule wrappedChunk) .item b rest) ∧
    Meets (stringRule wrappedChunk) (stringMeets wrappedChunk Overflows) .item b

theorem reads_wrapped (hb : b.length < wordLimit) (hr : Reads (stringRule wholeChunk) g b rest) :
    Reads (stringRule wrappedChunk) g b rest :=
  hr.mono (N := b.length) (stringReader_obeys wholeChunk).shrinks
    (fun hle hs => stringRule_wrapped (hle.trans_lt hb) hs) le_rfl

theorem reads_whole (hr : Reads (stringRule wrappedChunk) .item b rest) (hno : ¬ OnlyWrapped b) :
    Reads (stringRule wholeChunk) .item b rest :=
  hr.of_not_meets (fun hs hm => stringRule_whole hs hm) fun hmeet => hno ⟨⟨rest, hr⟩, hmeet⟩

theorem OnlyWrapped.not_reads (h : OnlyWrapped b) (hb : b.length < wordLimit) :
    ¬ Reads (stringRule wholeChunk) .item b rest :=
  h.2.not_reads (N := b.length) (stringReader_obeys wrappedChunk)
    (fun hle hs => stringRule_wrapped (hle.trans_lt hb) hs) (stringReader_obeys wholeChunk).shrinks
    (fun hle hm => not_stringRule_whole (hle.trans_lt hb) hm) le_rfl

end ItemMachine

section Agreement
variable {τ : Type} [OutputStream τ]

/-- Whenever copying comes back it succeeds exactly if skipping does, and then both consume
the same bytes and these are what was put out. -/
def CopyAgrees (D : RoomyOutput τ) (b : List UInt8) (o : OutputBuffer τ) : Prop :=
  ∀ n r s', copyItemTo n (memoryInput b, o) = (r, s') → r ≠ .error .running →
    (r = .ok () ↔ ∃ s, Action.Returns skipItem (memoryInput b) (.ok (), s)) ∧
    (r = .ok () → ∃ copied rest, b = copied ++ rest ∧
      Action.Returns skipItem (memoryInput b) (.ok (), memoryInput rest) ∧ s'.1 = memoryInput rest ∧
      D.output s'.2 = D.output o ++ copied)

theorem skipItem_returns_iff (b : ByteSpan) (rest : List UInt8) :
    Action.Returns skipItem (memoryInput b.bytes) (.ok (), memoryInput rest) ↔
      Reads (stringRule wholeChunk) .item b.bytes rest := by
  rw [reads_iff_wellFormed]
  constructor
  · intro h
    obtain ⟨n, hn⟩ := h
    obtain ⟨p, rest', hp, hw, hrest⟩ := skipItem_sound b.fits (hn n le_rfl)
    obtain rfl : rest = rest' := congrArg InputBuffer.buffer hrest
    exact ⟨p, hp, hw⟩
  · intro h
    obtain ⟨p, hp, hw⟩ := h
    exact ⟨roundBound b.bytes, fun m hm => skipItem_ok b.fits hm hp hw⟩

theorem skipItem_succeeds_iff (b : ByteSpan) :
    (∃ s, Action.Returns skipItem (memoryInput b.bytes) (.ok (), s)) ↔
      ∃ rest, Reads (stringRule wholeChunk) .item b.bytes rest := by
  constructor
  · intro h
    obtain ⟨s, n, hn⟩ := h
    obtain ⟨p, rest, hp, hw, -⟩ := skipItem_sound b.fits (hn n le_rfl)
    exact ⟨rest, reads_iff_wellFormed.mpr ⟨p, hp, hw⟩⟩
  · intro h
    obtain ⟨rest, hr⟩ := h
    exact ⟨_, (skipItem_returns_iff b rest).mpr hr⟩

theorem ItemMachine.OnlyWrapped.not_copyAgrees {D : RoomyOutput τ} {b : ByteSpan} {o : OutputBuffer τ} (ho : D.Valid o)
    (honly : OnlyWrapped b.bytes) : ¬ CopyAgrees D b.bytes o := by
  intro hagrees
  obtain ⟨rest, hr⟩ := honly.1
  obtain ⟨t, hrun, -⟩ := copyItemTo_ok b.fits ho le_rfl hr
  obtain ⟨rest', hr'⟩ := (skipItem_succeeds_iff b).mp ((hagrees _ _ _ hrun nofun).1.mp rfl)
  exact honly.not_reads b.fits hr'

/-- Copying and skipping agree exactly where no item is read only by an overflowing length. -/
theorem copyItemTo_agrees_iff (D : RoomyOutput τ) (b : ByteSpan) (o : { o : OutputBuffer τ // D.Valid o }) :
    CopyAgrees D b.bytes o ↔ ¬ OnlyWrapped b.bytes := by
  constructor
  · exact fun hagrees honly => honly.not_copyAgrees o.2 hagrees
  · intro hno n r s' hrun hne
    rcases r with e | ⟨⟩
    · have hnone : ∀ rest, ¬ Reads (stringRule wrappedChunk) .item b.bytes rest := fun rest =>
        copyItemTo_error b.fits o.2 hrun fun he => hne (by rw [he])
      refine ⟨⟨nofun, fun hskip => ?_⟩, nofun⟩
      obtain ⟨rest, hr⟩ := (skipItem_succeeds_iff b).mp hskip
      exact absurd (reads_wrapped b.fits hr) (hnone rest)
    · obtain ⟨rest, hr, hin, -, htotal⟩ := copyItemTo_sound b.fits o.2 hrun
      have hwhole := reads_whole hr hno
      have hskip := (skipItem_returns_iff b rest).mpr hwhole
      refine ⟨⟨fun _ => ⟨_, hskip⟩, fun _ => rfl⟩, fun _ => ?_⟩
      obtain ⟨copied, hcopied, -⟩ := reads_iff_wellFormed.mp hwhole
      refine ⟨copied, rest, hcopied, hskip, hin, ?_⟩
      rw [hcopied, ← List.append_assoc] at htotal
      exact List.append_cancel_right htotal

/-- An indefinite string whose first chunk claims almost `2 ^ 64` bytes. -/
def hugeChunk (last : UInt8) : ByteSpan where
  bytes := [0x5f, 0x5b, 0xff, 0xff, 0xff, 0xff, 0xff, 0xff, 0xff, last]
  fits := by
    show 10 < wordLimit
    decide

theorem headOf_hugeChunk (last : UInt8) : headOf (hugeChunk last).bytes = .ok ⟨.binary, 1, 1, 31⟩ := by
  rfl

theorem headOf_hugeChunk_chunk (last : UInt8) :
    headOf ((hugeChunk last).bytes.drop 1) = .ok ⟨.binary, 0, 9, ofBytes [0xff, 0xff, 0xff, 0xff, 0xff, 0xff, 0xff, last]⟩ := by
  rfl

/-- One byte of the head is copied as a chunk, and the next one taken for the break. -/
theorem copyItemTo_not_agrees : ¬ CopyAgrees EndlessStream.roomy (hugeChunk 0xf8).bytes EndlessStream.fresh := by
  have hchunk := headOf_hugeChunk_chunk 0xf8
  have hchunks : Chunks wrappedChunk .binary ((hugeChunk 0xf8).bytes.drop 1) [0xff, 0xff, 0xff, 0xff, 0xff, 0xff, 0xf8] :=
    .chunk hchunk rfl rfl (by decide) .last
  have hmeet : ChunksMeet wrappedChunk Overflows .binary ((hugeChunk 0xf8).bytes.drop 1) :=
    .here hchunk rfl rfl (by unfold Overflows; decide)
  refine OnlyWrapped.not_copyAgrees trivial ⟨⟨_, .string (headOf_hugeChunk _) (.inl rfl) hchunks⟩, ?_⟩
  exact .string (headOf_hugeChunk _) (.inl rfl) ⟨rfl, hmeet⟩

/-- `x` ends: with rounds enough it is no longer running. -/
def Terminates {σ α : Type} (x : Nat → Action Fault σ α) (s : σ) : Prop :=
  ∃ n, ∀ m, n ≤ m → (x m s).1 ≠ .error .running

/-- Skipping ends on every input, and copying where no chunk has a length that overflows to 0. -/
theorem copyItemTo_terminates_iff (D : RoomyOutput τ) (b : ByteSpan) (o : { o : OutputBuffer τ // D.Valid o }) :
    Terminates skipItem (memoryInput b.bytes) ∧ Terminates copyItemTo (memoryInput b.bytes, o.1) ↔
      ¬ Meets (stringRule wrappedChunk) (stringStalls wrappedChunk) .item b.bytes := by
  have hskip : Terminates skipItem (memoryInput b.bytes) :=
    ⟨roundBound b.bytes, fun m hm => skipItem_ends b.fits hm⟩
  rw [and_iff_right hskip]
  constructor
  · intro h hmeet
    obtain ⟨n, hn⟩ := h
    exact hn n le_rfl ((copyItemTo_running_iff b.fits o.2).mpr hmeet n)
  · intro hno
    refine ⟨roundBound b.bytes, fun m hm he => ?_⟩
    have hends := runItem_ends (stringReader_obeys wrappedChunk) (fun hs => absurd hs hno) hm
    have hfst := (copyItemTo_computes (n := m) b.fits o.2).fst_eq
    rw [he] at hfst
    rcases hrun : runItem (stringReader wrappedChunk) m b.bytes with e | u <;> rw [hrun] at hfst hends <;>
      cases hfst
    exact hends rfl

/-- A chunk whose length overflows to nothing is peeked at for ever. -/
theorem copyItemTo_not_terminates :
    ¬ Terminates copyItemTo (memoryInput (hugeChunk 0xf7).bytes, EndlessStream.fresh) := by
  have hstall : ChunksStall wrappedChunk .binary ((hugeChunk 0xf7).bytes.drop 1) :=
    .here (headOf_hugeChunk_chunk 0xf7) rfl rfl (by decide)
  have hmeet : Meets (stringRule wrappedChunk) (stringStalls wrappedChunk) .item (hugeChunk 0xf7).bytes :=
    .string (headOf_hugeChunk _) (.inl rfl) ⟨rfl, hstall⟩
  intro h
  obtain ⟨n, hn⟩ := h
  exact hn n le_rfl ((copyItemTo_running_iff (D := EndlessStream.roomy) (hugeChunk 0xf7).fits trivial).mpr hmeet n)

end Agreement
end DeepPack
