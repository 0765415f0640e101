import DeepPack.Items.CopyItem
import DeepPack.Streams.MemoryOutputStream

/-! What copying asks an output for.

An output may refuse any size, and a refusal ends the copy, so a bound on every refused
size, whatever the output, is a bound on every size that is asked for. A head has been
peeked at before it is asked for. The content of a string has not, and neither has that of a
chunk: what is asked for is the length that was read. The room for a break is asked
for when the break is gone from the input. -/
namespace DeepPack
open Library ItemMachine

/-- An output that notes what it refused. -/
structure Audited (τ : Type) where
  inner : τ
  refused : Option Nat

namespace Audited
variable {τ : Type}

/-- The output inside. -/
def strip (s : OutputBuffer (Audited τ)) : OutputBuffer τ := ⟨s.behind, s.free, s.derived.inner⟩

def wrap (refused : Option Nat) (s : OutputBuffer τ) : OutputBuffer (Audited τ) :=
  ⟨s.behind, s.free, ⟨s.derived, refused⟩⟩

end Audited

instance {τ : Type} [OutputStream τ] : OutputStream (Audited τ) where
  doGrow n := fun s =>
    match OutputStream.doGrow n (Audited.strip s) with
    | (.ok (), t) => (.ok (), Audited.wrap s.derived.refused t)
    | (.error e, t) => (.error e, Audited.wrap (some n) t)
  doBulkWrite bytes := fun s =>
    match OutputStream.doBulkWrite bytes (Audited.strip s) with
    | (r, t) => (r, Audited.wrap s.derived.refused t)

/-- A size that was refused is not more than what was unread then. -/
def WithinInput {τ : Type} (s : InputBuffer MemoryInputStream × OutputBuffer (Audited τ)) : Prop :=
  ∀ n ∈ s.2.derived.refused, n ≤ s.1.inputSize

/-- No run, into whatever output, asks for more than what is unread. -/
def NeverOverdraws (b : List UInt8) : Prop :=
  ∀ (τ : Type) [OutputStream τ] (o : OutputBuffer (Audited τ)), o.derived.refused = none →
    ∀ rounds, WithinInput (copyItemTo rounds (memoryInput b, o)).2

namespace ItemMachine

/-- The chunks of an indefinite string, heads included, are there, and something behind its break. -/
def ChunksBacked (type : TypeCode) (b : List UInt8) : Prop :=
  ∀ v, ChunksReach wrappedChunk type b v →
    (∀ c, headOf v = .ok c → c.type = type → c.indefinite = false → wrappedChunk c ≤ v.length) ∧ v ≠ [breakByte]

/-- What a round asks for is there: the content of a string, and behind a break another byte. -/
structure Backed (item : ItemHead) (b : List UInt8) : Prop where
  string : item.type.major = 2 ∨ item.type.major = 3 →
    if item.indefinite then ChunksBacked item.type b else item.value ≤ b.length
  special : item.type.major = 4 ∨ item.type.major = 5 → item.value ≠ 0 → item.indefinite = true →
    ¬ (item.type.major = 5 ∧ expectsValue item) → b ≠ [breakByte]

/-- Everything is there for all rounds of the loop. -/
def AlwaysBacked (b : List UInt8) : Prop :=
  ∀ h item stack u, headOf b = .ok h →
    Reaches (stringReader wrappedChunk) [h] (b.drop h.encodedLength) (item :: stack) u → Backed item u

end ItemMachine

namespace Audited
open Detail
variable {τ : Type} {i : InputBuffer MemoryInputStream} {o : OutputBuffer (Audited τ)} {b : List UInt8} {n : Nat}

theorem withinInput_none (ho : o.derived.refused = none) : WithinInput (i, o) := by
  intro n hn
  simp only [ho] at hn
  cases hn

theorem withinInput_some (ho : o.derived.refused = some n) : WithinInput (i, o) ↔ n ≤ i.inputSize := by
  unfold WithinInput
  simp only [ho, Option.mem_some_iff, forall_eq']

/-- The output is at these bytes and has refused nothing. -/
def Tracks (s : InputBuffer MemoryInputStream × OutputBuffer (Audited τ)) (b : List UInt8) : Prop :=
  s.1 = memoryInput b ∧ b.length < wordLimit ∧ s.2.derived.refused = none

/-- What is read is there; the output may have less room than it said. -/
theorem readInto_follows (hb : b.length < wordLimit) (ho : o.derived.refused = none) (hn : n ≤ b.length) :
    Action.Follows Tracks WithinInput WithinInput (readInto n) (memoryInput b, o) (.ok ((), b.drop n)) := by
  by_cases hroom : n ≤ o.free.length
  · exact Or.inl ⟨(), _, _, readInto_ok hb hn hroom, rfl, rfl, MemoryInputStream.drop_lt n hb, ho⟩
  · have hlen : (b.take n).length = n := List.length_take_of_le hn
    have hread : Action.onFst (InputBuffer.bulkRead n) (memoryInput b, o) =
        (.ok (b.take n), (memoryInput (b.drop n), o)) := by
      rw [Action.onFst_apply, MemoryInputStream.bulkRead_memory n hb, if_pos hn]
    have hstore : Action.onSnd (OutputBuffer.store 0 (b.take n)) (memoryInput (b.drop n), o) =
        (.error .outOfBounds, (memoryInput (b.drop n), o)) := by
      rw [Action.onSnd_apply, OutputBuffer.store, if_neg (by rwa [hlen, Nat.zero_add])]
    apply Action.follows_stopped ((Action.bind_ok _ hread).trans (Action.bind_error _ hstore))
    exact withinInput_none ho

variable [OutputStream τ]

/-- A size is provided in some way, or refused and noted. -/
theorem ensureSize_noted (ho : o.derived.refused = none) (n : Nat) :
    (∃ t, OutputBuffer.ensureSize n o = (.ok (), t) ∧ t.derived.refused = none) ∨
      ∃ e t, OutputBuffer.ensureSize n o = (.error e, t) ∧ t.derived.refused = some n := by
  by_cases hroom : n ≤ o.free.length
  · exact Or.inl ⟨o, OutputBuffer.ensureSize_enough hroom, ho⟩
  · rw [OutputBuffer.ensureSize_grow (Nat.lt_of_not_le hroom)]
    rcases hgrow : OutputStream.doGrow n (strip o) with ⟨e | ⟨⟩, t⟩
    · refine Or.inr ⟨e, wrap (some n) t, ?_, rfl⟩
      simp only [OutputStream.doGrow, hgrow]
    · refine Or.inl ⟨wrap o.derived.refused t, ?_, ho⟩
      simp only [OutputStream.doGrow, hgrow]

/-- A size that is there is asked for, and may be refused. -/
theorem after_ensure {α : Type} {y : Copy MemoryInputStream (Audited τ) α} {r : Except Fault (α × List UInt8)}
    (ho : o.derived.refused = none) (hn : n ≤ b.length)
    (hy : ∀ t : OutputBuffer (Audited τ), t.derived.refused = none →
      Action.Follows Tracks WithinInput WithinInput y (memoryInput b, t) r) :
    Action.Follows Tracks WithinInput WithinInput (do
      Action.onSnd (OutputBuffer.ensureSize n)
      y) (memoryInput b, o) r := by
  rcases ensureSize_noted ho n with ⟨t, ht, hnone⟩ | ⟨e, t, ht, hsome⟩
  · have hfirst : Action.onSnd (OutputBuffer.ensureSize n) (memoryInput b, o) = (.ok (), (memoryInput b, t)) := by
      rw [Action.onSnd_apply, ht]
    exact .after hfirst (hy t hnone)
  · have hfirst : Action.onSnd (OutputBuffer.ensureSize n) (memoryInput b, o) =
      (.error e, (memoryInput b, t)) := by
      rw [Action.onSnd_apply, ht]
    apply Action.follows_stopped (Action.bind_error _ hfirst)
    exact (withinInput_some hsome).mpr hn

/-- A piece of the amount is copied, as large as the room that is there. -/
theorem bulkCopyChunk_cases (hb : b.length < wordLimit) (ho : o.derived.refused = none) (hn : n ≤ b.length) :
    (∃ k ≤ n, ∃ t, bulkCopyChunk n (memoryInput b, o) = (.ok (n - k), (memoryInput (b.drop k), t)) ∧
      t.derived.refused = none) ∨
    ∃ e s, bulkCopyChunk n (memoryInput b, o) = (.error e, s) ∧ WithinInput s := by
  rcases ensureSize_noted ho n with ⟨t, ht, hnone⟩ | ⟨e, t, ht, hsome⟩
  · have hfirst : Action.onSnd (OutputBuffer.ensureSize n) (memoryInput b, o) = (.ok (), (memoryInput b, t)) := by
      rw [Action.onSnd_apply, ht]
    have hsize : Action.onSnd OutputBuffer.size (memoryInput b, t) = (.ok t.free.length, (memoryInput b, t)) := rfl
    have hle : min n t.free.length ≤ n := Nat.min_le_left _ _
    have hread := readInto_ok hb (hle.trans hn) (Nat.min_le_right n t.free.length)
    refine Or.inl ⟨min n t.free.length, hle, landed (b.take (min n t.free.length)) t, ?_, hnone⟩
    rw [bulkCopyChunk, Action.bind_ok _ hfirst, Action.bind_ok _ hsize, Action.bind_ok _ hread]
    rfl
  · have hfirst : Action.onSnd (OutputBuffer.ensureSize n) (memoryInput b, o) =
      (.error e, (memoryInput b, t)) := by
      rw [Action.onSnd_apply, ht]
    exact Or.inr ⟨e, _, Action.bind_error _ hfirst, (withinInput_some hsome).mpr hn⟩

/-- What is left of the amount is left to `x`. -/
theorem after_bulkCopyChunk {x : Nat → Copy MemoryInputStream (Audited τ) Unit} (hb : b.length < wordLimit)
    (ho : o.derived.refused = none) (hn : n ≤ b.length)
    (hx : ∀ k ≤ n, ∀ t : OutputBuffer (Audited τ), t.derived.refused = none →
      Action.Follows Tracks WithinInput WithinInput (x (n - k)) (memoryInput (b.drop k), t) (.ok ((), b.drop n))) :
    Action.Follows Tracks WithinInput WithinInput (do
      let amount ← bulkCopyChunk n
      if 0 < amount then x amount else pure ()) (memoryInput b, o) (.ok ((), b.drop n)) := by
  rcases bulkCopyChunk_cases hb ho hn with ⟨k, hk, t, hchunk, ht⟩ | ⟨e, s, hchunk, hs⟩
  · apply Action.Follows.after hchunk
    split
    · exact hx k hk t ht
    · obtain rfl : k = n := by omega
      exact Action.follows_pure _ ⟨rfl, MemoryInputStream.drop_lt k hb, ht⟩
  · exact Action.follows_stopped (Action.bind_error _ hchunk) hs

/-- The pieces of an amount that is there are there too. -/
theorem bulkCopy_follows (hb : b.length < wordLimit) (ho : o.derived.refused = none) (hn : n ≤ b.length)
    (rounds : Nat) :
    Action.Follows Tracks WithinInput WithinInput (bulkCopy rounds n) (memoryInput b, o) (.ok ((), b.drop n)) := by
  induction rounds generalizing b n o with
  | zero =>
    apply after_bulkCopyChunk hb ho hn
    intro k _ t ht
    exact Action.follows_stopped rfl (withinInput_none ht)
  | succ rounds ih =>
    apply after_bulkCopyChunk hb ho hn
    intro k hk t ht
    have hle : n - k ≤ (b.drop k).length := by
      rw [List.length_drop]
      omega
    have hrest := ih (MemoryInputStream.drop_lt k hb) ht hle
    rwa [List.drop_drop, Nat.add_sub_cancel' hk] at hrest

variable (τ) in
/-- Any output at all is good for what is there. -/
def copying : Copying (Audited τ) where
  Tracks := Tracks
  Failed := WithinInput
  Stopped := WithinInput
  cap n := n
  MayPush _ _ := True
  MayTake n b := n ≤ b.length
  MayBreak u := u ≠ []
  input h := ⟨h.1, h.2.1⟩
  failed h := withinInput_none h.2.2
  push := by
    intro s b h hs hh _
    obtain ⟨i, o⟩ := s
    obtain ⟨rfl, hb, ho⟩ := hs
    have hle := encodedLength_le hh
    exact after_ensure ho hle fun t ht => readInto_follows hb ht hle
  take := by
    intro s b n hs hn rounds
    obtain ⟨i, o⟩ := s
    obtain ⟨rfl, hb, ho⟩ := hs
    rw [passOver, if_neg (Nat.not_lt.mpr hn)]
    exact bulkCopy_follows hb ho hn rounds
  special := by
    intro s u hs hu
    obtain ⟨i, o⟩ := s
    obtain ⟨rfl, hb, ho⟩ := hs
    refine .after (discardBreak hb) ?_
    refine after_ensure ho (Nat.one_le_iff_ne_zero.mpr fun h0 => hu (List.length_eq_zero_iff.mp h0)) fun t ht => ?_
    by_cases hroom : 1 ≤ t.free.length
    · exact Or.inl ⟨(), _, u, onSnd_store_commit hroom, rfl, rfl, Nat.lt_of_succ_lt hb, ht⟩
    · have hstore : Action.onSnd (OutputBuffer.store 0 [TypeCode.specialBreak.toByte]) (memoryInput u, t) =
          (.error .outOfBounds, (memoryInput u, t)) := by
        rw [Action.onSnd_apply, OutputBuffer.store, if_neg (by simpa using hroom)]
      exact Action.follows_stopped (Action.bind_error _ hstore) (withinInput_none ht)

/-- Where everything is there no more is asked for. -/
theorem neverOverdraws_of_backed (b : ByteSpan) (h : AlwaysBacked b.bytes) : NeverOverdraws b.bytes := by
  intro τ _ o ho rounds
  have hs : (copying τ).Tracks (memoryInput b.bytes, o) b.bytes := ⟨rfl, b.fits, ho⟩
  have hcovered : ∀ head item stack u, headOf b.bytes = .ok head →
      Reaches (copying τ).reader [head] (b.bytes.drop head.encodedLength) (item :: stack) u →
      (copying τ).Covered item u := by
    intro head item stack u hh hu
    have hbacked := h head item stack u hh hu
    constructor
    · intro hm
      have hstring := hbacked.string hm
      split
      · rename_i hi
        rw [if_pos hi] at hstring
        intro v hv
        obtain ⟨hchunk, hbreak⟩ := hstring v hv
        exact ⟨hchunk, fun w hw hnil => hbreak (by rw [hw, hnil])⟩
      · rename_i hi
        rwa [if_neg hi] at hstring
    · exact fun _ _ => trivial
    · intro w hw hm hv hi heven hnil
      exact hbacked.special hm hv hi heven (by rw [hw, hnil])
  have hfollows := Copying.copyItemTo_follows hs (fun _ _ => trivial) hcovered rounds
  rcases hfollows with ⟨a, s', t, hrun, -, -, -, hnone⟩ | ⟨e, s', hrun, ⟨-, hwithin⟩ | hwithin⟩
  · rw [hrun]
    exact withinInput_none hnone
  · rwa [hrun]
  · rwa [hrun]

end Audited

/-! ### A copy up to some point -/

namespace ItemMachine
variable {read : Nat → Reader} {S : StringRule} {L : ItemHead → List UInt8 → Prop} {item : ItemHead}
  {stack stack' : List ItemHead} {b u v : List UInt8} {type : TypeCode}

theorem Reaches.length_le (hread : Obeys read S L) (hr : Reaches read stack b stack' u) : u.length ≤ b.length := by
  induction hr with
  | here => exact le_rfl
  | later hround _ ih => exact ih.trans (round_shrinks hread hround)

theorem Reaches.ne_nil (hr : Reaches read stack b (item :: stack') u) : stack ≠ [] := by
  intro hnil
  subst hnil
  cases hr with
  | later hround => cases hround

variable {advance : Advance}

theorem ChunksReach.length_le (hr : ChunksReach advance type b v) : v.length ≤ b.length := by
  induction hr with
  | here => exact le_rfl
  | later _ _ _ _ _ ih =>
    apply ih.trans
    simp

/-- From wherever the chunks have come they lead to the same end. -/
theorem ChunksReach.chunks (hr : ChunksReach advance type b v) (hc : Chunks advance type b u) :
    Chunks advance type v u := by
  induction hr with
  | here => exact hc
  | later hh _ hi _ _ ih => exact ih ((chunks_chunk hh (not_break_of_definite hi)).mp hc).2.2

end ItemMachine

namespace Audited
open Detail
variable {floor n : Nat} {o : OutputBuffer (Audited MemoryOutputStream)} {b u v : List UInt8}

/-- The memory is full where only so many bytes are unread. -/
def Leads (floor : Nat) (s : InputBuffer MemoryInputStream × OutputBuffer (Audited MemoryOutputStream))
    (b : List UInt8) : Prop :=
  s.1 = memoryInput b ∧ b.length < wordLimit ∧ s.2.free.length + floor = b.length ∧ s.2.derived.refused = none

theorem readInto_leads (hb : b.length < wordLimit) (hroom : o.free.length + floor = b.length)
    (ho : o.derived.refused = none) (hn : floor + n ≤ b.length) :
    Action.Computes (Leads floor) (readInto n) (memoryInput b, o) (.ok ((), b.drop n)) := by
  have hle : n ≤ b.length := (Nat.le_add_left _ _).trans hn
  have hfree : n ≤ o.free.length := by omega
  have hlen : (b.take n).length = n := List.length_take_of_le hle
  refine ⟨_, readInto_ok hb hle hfree, rfl, MemoryInputStream.drop_lt n hb, ?_, ho⟩
  rw [landed_free (by rwa [hlen]), hlen, List.length_drop]
  omega

/-- Copying into such a memory goes on until it is full. -/
def leading (floor : Nat) : Copying (Audited MemoryOutputStream) where
  Tracks := Leads floor
  Failed _ := True
  Stopped _ := False
  cap n := n
  MayPush n b := floor + n ≤ b.length
  MayTake n b := floor + n ≤ b.length
  MayBreak u := floor ≤ u.length
  input h := ⟨h.1, h.2.1⟩
  failed _ := trivial
  push := by
    intro s b h hs hh hn
    obtain ⟨i, o⟩ := s
    obtain ⟨rfl, hb, hroom, ho⟩ := hs
    simp only at hroom
    have hensure : OutputBuffer.ensureSize h.encodedLength o = (.ok (), o) :=
      OutputBuffer.ensureSize_enough (by omega)
    exact ((readInto_leads hb hroom ho hn).of_run (smallBufferCopy_granted hensure)).follows fun _ => trivial
  take := by
    intro s b n hs hn rounds
    obtain ⟨i, o⟩ := s
    obtain ⟨rfl, hb, hroom, ho⟩ := hs
    simp only at hroom
    have hfree : n ≤ o.free.length := by omega
    have hensure := OutputBuffer.ensureSize_enough hfree
    rw [passOver, if_neg (by omega)]
    exact ((readInto_leads hb hroom ho hn).of_run (bulkCopy_granted hensure hfree rounds)).follows fun _ => trivial
  special := by
    intro s u hs hu
    obtain ⟨i, o⟩ := s
    obtain ⟨rfl, hb, hroom, ho⟩ := hs
    simp only [List.length_cons] at hroom
    have hfree : [breakByte].length ≤ o.free.length := by
      rw [List.length_singleton]
      omega
    have hensure := OutputBuffer.ensureSize_enough hfree
    refine Or.inl ⟨(), _, u, copySpecialBreakTo_granted hb hensure hfree, rfl, rfl, Nat.lt_of_succ_lt hb, ?_, ho⟩
    simp only [landed_free hfree, List.length_singleton]
    omega

theorem chunksCovered_of_chunks {type : TypeCode} (hc : Chunks wrappedChunk type b u) (hu : floor ≤ u.length) :
    (leading floor).ChunksCovered type b := by
  intro v hv
  have hrest : Chunks wrappedChunk type v u := ChunksReach.chunks hv hc
  constructor
  · intro c hh ht hi
    obtain ⟨-, hle, hnext⟩ := (chunks_chunk hh (not_break_of_definite hi)).mp hrest
    have hlen := hnext.length_le
    rw [List.length_drop] at hlen
    show floor + wrappedChunk c ≤ v.length
    omega
  · intro w hw
    subst hw
    obtain rfl := chunks_break.mp hrest
    exact hu

/-- A round that stays above the floor is copied. -/
theorem covered_of_round {item : ItemHead} {stack stack' : List ItemHead}
    (hr : round (stringReader wrappedChunk n) (item :: stack) b = .ok (stack', u)) (hu : floor ≤ u.length) :
    (leading floor).Covered item b := by
  have hcases := round_cases hr
  constructor
  · intro hm
    rcases hcases with ⟨-, -, hok⟩ | ⟨hno, -⟩ | ⟨hno, -⟩
    · have hrule := ((stringReader_obeys wrappedChunk).ok hok u).mpr rfl
      unfold stringRule at hrule
      split at hrule
      · rename_i hi
        rw [if_pos hi]
        exact chunksCovered_of_chunks hrule hu
      · rename_i hi
        obtain ⟨hle, rfl⟩ := hrule
        rw [if_neg hi]
        rw [List.length_drop] at hu
        show floor + item.value ≤ b.length
        omega
    · exact absurd hm hno
    · exact absurd hm hno
  · intro sub hreads hh
    rcases hcases with ⟨hm, -⟩ | ⟨-, hno, -⟩ | ⟨-, -, sub', hh', rfl⟩
    · rcases hreads with ⟨h45, -⟩ | h6
      · omega
      · omega
    · exact absurd hreads hno
    · obtain rfl := Except.ok.inj (hh.symm.trans hh')
      have hle := encodedLength_le hh
      rw [List.length_drop] at hu
      show floor + sub.encodedLength ≤ b.length
      omega
  · intro w hw hm hv _ _
    subst hw
    rcases hcases with ⟨hstring, -⟩ | ⟨-, hno, -⟩ | ⟨-, -, sub, hh, rfl⟩
    · omega
    · exact absurd (Or.inl ⟨hm, hv⟩) hno
    · obtain rfl := Except.ok.inj ((headOf_break w).symm.trans hh)
      exact hu

/-- The copy comes to where the machine comes to. -/
theorem copyLoop_reaches {item : ItemHead} {stack stack' : List ItemHead}
    (hr : Reaches (stringReader wrappedChunk) stack b (item :: stack') u) (hu : floor ≤ u.length) (K : Nat) :
    ∃ N, ∀ m ≥ N, ∀ s, Leads floor s b → ∃ j ≥ K, ∃ s', Leads floor s' u ∧
      copyLoop m stack s = copyLoop j (item :: stack') s' := by
  generalize htarget : item :: stack' = target at hr
  induction hr with
  | here => exact ⟨K, fun m hm s hs => ⟨m, hm, s, hs, rfl⟩⟩
  | @later n stack₀ stack₁ _ b u₁ v hround hrest ih =>
    subst htarget
    cases stack₀ with
    | nil => cases hround
    | cons top tail =>
      obtain ⟨N, hN⟩ := ih hu rfl
      refine ⟨max N (b.length + 1) + 1, fun m hm s hs => ?_⟩
      obtain ⟨k, rfl⟩ : ∃ k, m = k + 1 := ⟨m - 1, by omega⟩
      have hsame := round_enough (m := k) (stringReader_obeys wrappedChunk) hround (by omega)
      have hlen := hrest.length_le (stringReader_obeys wrappedChunk)
      have hfollows : (leading floor).Follows (copyRound k (top :: tail)) s
          (round ((leading floor).reader k) (top :: tail) b) :=
        Copying.copyRound_follows hs (covered_of_round hround (hu.trans hlen))
      have hread : round ((leading floor).reader k) (top :: tail) b = .ok (stack₁, u₁) := hsame
      rw [hread] at hfollows
      obtain ⟨s₁, hs₁, hleads⟩ := hfollows.computes fun _ => id
      obtain ⟨j, hj, s', hs', hloop⟩ := hN k (by omega) s₁ hleads
      refine ⟨j, hj, s', hs', ?_⟩
      rw [← hloop, copyLoop, Action.bind_ok _ hs₁, if_neg (by simpa using hrest.ne_nil)]

theorem copyChunks_chunk {s : InputBuffer MemoryInputStream × OutputBuffer (Audited MemoryOutputStream)}
    {type : TypeCode} {c : ItemHead} (hs : Leads floor s b) (hh : headOf b = .ok c) (ht : c.type = type)
    (hi : c.indefinite = false) (k : Nat) :
    copyChunks type (k + 1) s = (do
      bulkCopy k (wrappedChunk c)
      copyChunks type k) s := by
  obtain ⟨i, o⟩ := s
  obtain ⟨rfl, hb, -, -⟩ := hs
  have hpeek : Action.onFst peekItemHead (memoryInput b, o) = (.ok c, (memoryInput b, o)) := by
    rw [Action.onFst_apply, peekItemHead_memory hb hh]
  rw [copyChunks, Action.bind_ok _ hpeek, not_break_of_definite hi, if_neg Bool.false_ne_true,
    if_neg (by simp [ht, hi])]
  rfl

/-- The same for the chunks of a string. -/
theorem copyChunks_reaches {type : TypeCode} (hr : ChunksReach wrappedChunk type b v) (hv : floor ≤ v.length) :
    ∃ N, ∀ m ≥ N, ∀ s, Leads floor s b → ∃ j s', Leads floor s' v ∧
      copyChunks type m s = copyChunks type (j + 1) s' := by
  induction hr with
  | here =>
    refine ⟨1, fun m hm s hs => ⟨m - 1, s, hs, ?_⟩⟩
    rw [Nat.sub_add_cancel hm]
  | @later b v c hh ht hi hle hrest ih =>
    obtain ⟨N, hN⟩ := ih hv
    refine ⟨N + 1, fun m hm s hs => ?_⟩
    obtain ⟨k, rfl⟩ : ∃ k, m = k + 1 := ⟨m - 1, by omega⟩
    have hlen := hrest.length_le
    rw [List.length_drop] at hlen
    have htake := (leading floor).take hs (show floor + wrappedChunk c ≤ b.length by omega) k
    obtain ⟨s₁, hs₁, hleads⟩ : ∃ s₁, bulkCopy k (wrappedChunk c) s = (.ok (), s₁) ∧
        Leads floor s₁ (b.drop (wrappedChunk c)) := by
      have hcomp := htake.computes fun _ => id
      have hpass : passOver ((leading floor).cap (wrappedChunk c)) b = .ok ((), b.drop (wrappedChunk c)) :=
        if_neg (Nat.not_lt.mpr hle)
      rw [hpass] at hcomp
      exact hcomp
    obtain ⟨j, s', hs', hloop⟩ := hN k (by omega) s₁ hleads
    refine ⟨j, s', hs', ?_⟩
    rw [← hloop, copyChunks_chunk hs hh ht hi, Action.bind_ok _ hs₁]

/-- The action asks for more than what is unread, and is refused. -/
def Overdraws {α : Type} (x : Copy MemoryInputStream (Audited MemoryOutputStream) α)
    (s : InputBuffer MemoryInputStream × OutputBuffer (Audited MemoryOutputStream)) : Prop :=
  ∃ e s', x s = (.error e, s') ∧ ¬ WithinInput s'

section Overdraws
variable {α β : Type} {x : Copy MemoryInputStream (Audited MemoryOutputStream) α}
  {s : InputBuffer MemoryInputStream × OutputBuffer (Audited MemoryOutputStream)}

theorem Overdraws.bind (h : Overdraws x s) (y : α → Copy MemoryInputStream (Audited MemoryOutputStream) β) :
    Overdraws (x >>= y) s := by
  obtain ⟨e, s', hx, hs'⟩ := h
  exact ⟨e, s', Action.bind_error y hx, hs'⟩

theorem Overdraws.of_eq {s₁ : InputBuffer MemoryInputStream × OutputBuffer (Audited MemoryOutputStream)}
    {y : Copy MemoryInputStream (Audited MemoryOutputStream) α} (h : Overdraws y s₁) (heq : x s = y s₁) :
    Overdraws x s := by
  unfold Overdraws
  rwa [heq]

/-- A full memory refuses. -/
theorem ensureSize_full (hfree : o.free.length = 0) (ho : 0 < n) :
    ∃ t, OutputBuffer.ensureSize n o = (.error (.errc .endOfStream), t) ∧ t.derived.refused = some n := by
  refine ⟨wrap (some n) (strip o), ?_, rfl⟩
  rw [OutputBuffer.ensureSize_grow (by omega)]
  rfl

theorem bulkCopy_overdraws (hs : Leads v.length s v) (hn : v.length < n) (rounds : Nat) :
    Overdraws (bulkCopy rounds n) s := by
  obtain ⟨i, o⟩ := s
  obtain ⟨rfl, -, hroom, -⟩ := hs
  obtain ⟨t, ht, hsome⟩ := ensureSize_full (o := o) (n := n) (by simpa using hroom) (Nat.zero_lt_of_lt hn)
  refine ⟨_, _, bulkCopy_refused ht rounds, fun hwithin => ?_⟩
  exact absurd ((withinInput_some hsome).mp hwithin) (Nat.not_le.mpr hn)

theorem copySpecialBreakTo_overdraws (hs : Leads 1 s [breakByte]) : Overdraws copySpecialBreakTo s := by
  obtain ⟨i, o⟩ := s
  obtain ⟨rfl, hb, hroom, -⟩ := hs
  obtain ⟨t, ht, hsome⟩ := ensureSize_full (o := o) (n := 1) (by simpa using hroom) Nat.one_pos
  have hensure : Action.onSnd (OutputBuffer.ensureSize 1) (memoryInput [], o) =
      (.error (.errc .endOfStream), (memoryInput [], t)) := by
    rw [Action.onSnd_apply, ht]
  refine ⟨_, _, (Action.bind_ok _ (discardBreak hb)).trans (Action.bind_error _ hensure), fun hwithin => ?_⟩
  exact absurd ((withinInput_some hsome).mp hwithin) (by simp)

variable {item : ItemHead} {stack : List ItemHead}

/-- A string overdraws where its content does. -/
theorem copyRound_string_overdraws (hm : item.type.major = 2 ∨ item.type.major = 3)
    (h : Overdraws (copyBinaryOrTextTo n item) s) : Overdraws (copyRound n (item :: stack)) s := by
  have hround : copyRound n (item :: stack) = (do
      copyBinaryOrTextTo n item
      pure stack : Copy MemoryInputStream (Audited MemoryOutputStream) (List ItemHead)) := by
    rcases hm with hm | hm <;> simp only [copyRound, hm]
  rw [hround]
  exact h.bind _

theorem copyRound_chunks_overdraws (hm : item.type.major = 2 ∨ item.type.major = 3) (hi : item.indefinite = true)
    (hv : ChunksReach wrappedChunk item.type u v)
    (h : ∀ k s, Leads v.length s v → Overdraws (copyChunks item.type (k + 1)) s) :
    ∃ N, ∀ m ≥ N, ∀ s, Leads v.length s u → Overdraws (copyRound m (item :: stack)) s := by
  obtain ⟨N, hN⟩ := copyChunks_reaches hv le_rfl
  refine ⟨N, fun m hmore s hs => ?_⟩
  obtain ⟨j, s', hs', hloop⟩ := hN m hmore s hs
  apply copyRound_string_overdraws hm
  apply (h j s' hs').of_eq
  rw [← hloop, copyBinaryOrTextTo, hi]
  rfl

theorem peekBreak (hs : Leads floor s [breakByte]) :
    Action.onFst peekItemHead s = (.ok ⟨.special, 1, 1, 31⟩, s) := by
  obtain ⟨i, o⟩ := s
  obtain ⟨rfl, hb, -⟩ := hs
  rw [Action.onFst_apply, peekItemHead_memory hb (headOf_break [])]

theorem copyRound_break_overdraws (hm : item.type.major = 4 ∨ item.type.major = 5) (hv : item.value ≠ 0)
    (hi : item.indefinite = true) (heven : ¬ (item.type.major = 5 ∧ expectsValue item))
    (hs : Leads 1 s [breakByte]) : Overdraws (copyRound n (item :: stack)) s := by
  have hbreak := (copySpecialBreakTo_overdraws hs).bind fun _ => pure stack
  apply hbreak.of_eq
  rcases hm with hm | hm
  · simp only [copyRound, hm, if_neg hv]
    rw [Action.bind_ok _ (peekBreak hs), hi]
    rfl
  · have hdecr : (item.flags >>> 1).toNat = 0 := by
      by_contra hne
      exact heven ⟨hm, fun hzero => hne (congrArg UInt8.toNat hzero)⟩
    simp only [copyRound, hm, if_neg hv]
    rw [Action.bind_ok _ (peekBreak hs), hi, hdecr]
    rfl

end Overdraws

/-- A copy that comes to a round that overdraws. -/
theorem not_neverOverdraws {item h : ItemHead} {stack : List ItemHead} (hb : b.length < wordLimit)
    (hh : headOf b = .ok h)
    (hr : Reaches (stringReader wrappedChunk) [h] (b.drop h.encodedLength) (item :: stack) u)
    (hu : floor ≤ u.length)
    (hbad : ∃ N, ∀ m ≥ N, ∀ s, Leads floor s u → Overdraws (copyRound m (item :: stack)) s) :
    ¬ NeverOverdraws b := by
  obtain ⟨N, hN⟩ := hbad
  obtain ⟨M, hM⟩ := copyLoop_reaches hr hu (N + 1)
  have hlen := hr.length_le (stringReader_obeys wrappedChunk)
  have hhead := encodedLength_le hh
  rw [List.length_drop] at hlen
  let memory := List.replicate (b.length - floor) (0 : UInt8)
  let s : InputBuffer MemoryInputStream × OutputBuffer (Audited MemoryOutputStream) :=
    (memoryInput b, wrap none (memoryOutput memory))
  have hs : Leads floor s b := by
    refine ⟨rfl, hb, ?_, rfl⟩
    show memory.length + floor = b.length
    rw [List.length_replicate]
    omega
  obtain ⟨s₁, hs₁, hleads⟩ : ∃ s₁, smallBufferCopy h.encodedLength s = (.ok (), s₁) ∧
      Leads floor s₁ (b.drop h.encodedLength) :=
    ((leading floor).push hs hh (show floor + h.encodedLength ≤ b.length by omega)).computes fun _ => id
  obtain ⟨j, hj, s₂, hs₂, hloop⟩ := hM M le_rfl s₁ hleads
  obtain ⟨k, rfl⟩ : ∃ k, j = k + 1 := ⟨j - 1, by omega⟩
  have hround : Overdraws (copyLoop M [h]) s₁ :=
    ((hN k (by omega) s₂ hs₂).bind fun stack => if stack.isEmpty then pure () else copyLoop k stack).of_eq hloop
  have hpeek : Action.onFst peekItemHead s = (.ok h, s) := by
    rw [Action.onFst_apply, peekItemHead_memory hb hh]
  have hpush : pushItemHead h [] s = (.ok [h], s₁) := Action.bind_ok _ hs₁
  obtain ⟨e, s', hrun, hover⟩ : Overdraws (copyItemTo M) s :=
    hround.of_eq ((Action.bind_ok _ hpeek).trans (Action.bind_ok _ hpush))
  intro hnever
  apply hover
  have hwithin := hnever MemoryOutputStream (wrap none (memoryOutput memory)) rfl M
  rwa [hrun] at hwithin

/-- Where nothing overdraws everything is there. -/
theorem backed_of_neverOverdraws (b : ByteSpan) (h : NeverOverdraws b.bytes) : AlwaysBacked b.bytes := by
  intro head item stack u hh hr
  have hrefute : ∀ floor ≤ u.length,
      ¬ ∃ N, ∀ m ≥ N, ∀ s, Leads floor s u → Overdraws (copyRound m (item :: stack)) s := by
    intro floor hu hbad
    exact not_neverOverdraws b.fits hh hr hu hbad h
  constructor
  · intro hm
    by_cases hi : item.indefinite = true
    · rw [if_pos hi]
      intro v hv
      have hrefuteChunks : ¬ ∀ k s, Leads v.length s v → Overdraws (copyChunks item.type (k + 1)) s :=
        fun hbad => hrefute v.length hv.length_le (copyRound_chunks_overdraws hm hi hv hbad)
      constructor
      · intro c hc ht hdef
        by_contra hlong
        apply hrefuteChunks
        intro k s hs
        apply ((bulkCopy_overdraws hs (Nat.lt_of_not_le hlong) k).bind fun _ => copyChunks item.type k).of_eq
        exact copyChunks_chunk hs hc ht hdef k
      · intro hlast
        subst hlast
        apply hrefuteChunks
        intro k s hs
        apply (copySpecialBreakTo_overdraws hs).of_eq
        rw [copyChunks, Action.bind_ok _ (peekBreak hs)]
        rfl
    · rw [if_neg hi]
      by_contra hlong
      apply hrefute u.length le_rfl
      refine ⟨0, fun m _ s hs => copyRound_string_overdraws hm ?_⟩
      apply (bulkCopy_overdraws hs (Nat.lt_of_not_le hlong) m).of_eq
      rw [copyBinaryOrTextTo, if_pos (by simpa using hi)]
  · intro hm hv hi heven hlast
    subst hlast
    apply hrefute 1 le_rfl
    exact ⟨0, fun m _ s hs => copyRound_break_overdraws hm hv hi heven hs⟩

end Audited

/-- Copying never asks for more than what is unread if and only if all strings and chunks it comes to
are there, and the break it comes to is never the last byte. -/
theorem neverOverdraws_iff (b : ByteSpan) : NeverOverdraws b.bytes ↔ AlwaysBacked b.bytes := by
  constructor
  · exact Audited.backed_of_neverOverdraws b
  · exact Audited.neverOverdraws_of_backed b

/-- Nine bytes that ask for almost `2 ^ 64`. -/
theorem neverOverdraws_not :
    ¬ NeverOverdraws [0x5b, 0xff, 0xff, 0xff, 0xff, 0xff, 0xff, 0xff, 0xff] := by
  intro h
  have hwithin := h MemoryOutputStream (Audited.wrap none (memoryOutput (List.replicate 9 0))) rfl 1
  have hall : wordLimit - 1 ≤ 0 := hwithin (wordLimit - 1) rfl
  exact absurd hall (by decide)

end DeepPack
