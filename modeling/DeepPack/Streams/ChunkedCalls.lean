import DeepPack.Streams.ChunkedWrite

/-! What the calls on a stream into chunks come to. -/
namespace DeepPack
open Library OutputBuffer

namespace ChunkedOutputStream
variable {s : OutputBuffer ChunkedOutputStream} {out bytes chunk : List UInt8} {pending : List (List UInt8)}
  {total threshold i n : Nat}

/-- Nothing was written where it must not, and nothing was lost. -/
def Sound (total : Nat) (out : List UInt8) (r : Except Fault Unit) (t : OutputBuffer ChunkedOutputStream) : Prop :=
  r ≠ .error .outOfBounds ∧ Logs total t out

theorem sound_ok {t : OutputBuffer ChunkedOutputStream} (h : Logs total t out) : Sound total out (.ok ()) t :=
  ⟨nofun, h⟩

theorem sound_end {t : OutputBuffer ChunkedOutputStream} (h : Logs total t out) :
    Sound total out (.error (.errc .endOfStream)) t := ⟨nofun, h⟩

/-- So many bytes of the small buffer were written. -/
def spilledSize (s : OutputBuffer ChunkedOutputStream) : Nat :=
  match s.derived.window with
  | .small i => i + s.behind.length
  | _ => 0

/-- How many bytes the next chunk has room for, if there is one. -/
def nextRoom (s : OutputBuffer ChunkedOutputStream) : Option Nat :=
  match s.derived.source with
  | .ok chunk :: _ => some chunk.length
  | _ => none

/-- The next chunk, if there is one, has room for so many bytes. -/
def NextTakes (n : Nat) (s : OutputBuffer ChunkedOutputStream) : Prop := ∀ room ∈ nextRoom s, n ≤ room

instance (n : Nat) (s : OutputBuffer ChunkedOutputStream) : Decidable (NextTakes n s) :=
  inferInstanceAs (Decidable (∀ room ∈ nextRoom s, n ≤ room))

theorem OnSmall.spilledSize_eq (h : OnSmall s out threshold i) : spilledSize s = i + s.behind.length := by
  rw [spilledSize, h.window]

theorem Sized.nextRoom_cons (h : Sized s (chunk :: pending) total) : nextRoom s = some chunk.length := by
  rw [nextRoom, h.source]
  rfl

theorem Sized.nextTakes (h : Sized s pending total) (hnext : NextTakes n s) :
    ∀ chunk rest, pending = chunk :: rest → n ≤ chunk.length := by
  intro chunk rest hpending
  subst hpending
  exact hnext _ h.nextRoom_cons

/-- The next chunk does not have room for it. -/
theorem Sized.not_nextTakes (h : Sized s pending total) (hnext : ¬ NextTakes n s) :
    ∃ chunk rest, pending = chunk :: rest ∧ chunk.length < n := by
  cases pending with
  | nil =>
    refine absurd (fun room hroom => ?_) hnext
    rw [nextRoom, h.source] at hroom
    cases hroom
  | cons chunk rest =>
    refine ⟨chunk, rest, rfl, Nat.lt_of_not_le fun hn => hnext fun room hroom => ?_⟩
    rw [h.nextRoom_cons] at hroom
    cases hroom
    exact hn

/-! ### Ensuring room -/

/-- A full chunk is followed by the next one. -/
theorem Direct.next (h : Direct s out pending total) (hfull : out = s.derived.done ++ s.derived.currentChunk) :
    (pending = [] ∧ acquireNextChunk s = (.error (.errc .endOfStream), s)) ∨
      ∃ chunk rest, pending = chunk :: rest ∧ ∃ t, acquireNextChunk s = (.ok (), t) ∧ Opened t out rest total ∧
        t.derived.window = .nowhere ∧ t.free = s.free := by
  cases pending with
  | nil => exact .inl ⟨rfl, h.acquire_end⟩
  | cons chunk rest =>
    obtain ⟨hsized, hdone, -⟩ := h.handOut
    refine .inr ⟨chunk, rest, rfl, _, h.acquire, ⟨hsized, h.marker, hdone.trans hfull.symm⟩, ?_, rfl⟩
    rw [handOut]
    dsimp only
    rcases h.spans with ⟨i, hwindow, -, -⟩ | ⟨hwindow, -, -⟩ <;> rw [hwindow]

theorem Direct.ensure {rounds : Nat} (h : Direct s out pending total) (hn : n ≤ minimumOutputBufferSize) :
    (@ensureSize _ (virtuals (rounds + 1)) n).Meets s (Sound total out) := by
  by_cases hlen : n ≤ s.free.length
  · exact Action.meets_of_eq (@ensureSize_enough _ (virtuals (rounds + 1)) s n hlen) (sound_ok h.logs)
  · have hgrow := Nat.lt_of_not_le hlen
    have hminimum : minimumOutputBufferSize = 40 := rfl
    have hbuffer : smallBufferSize = 78 := rfl
    apply h.toOnChunk.ensure_grow h.small hgrow (by omega) (fun _ => rfl)
    · intro t htook hchunk _ hout
      have hdirect := hchunk.direct htook.done_eq.symm (h.toSized.took htook)
      rw [← htook.done_eq] at hout
      rcases hdirect.next hout with ⟨-, hacquire⟩ | ⟨chunk, rest, -, u, hacquire, hopened, -, -⟩
      · exact .stop hacquire (sound_end hdirect.logs)
      · exact .step hacquire (Action.meets_of_eq rfl (sound_ok hopened.direct.logs))
    · intro t htook hsmall
      have hspilling := hsmall.spilling (by omega) (h.toSized.took htook)
      exact .ite_neg (by omega) (Action.meets_of_eq rfl (sound_ok hspilling.logs))

theorem Spilling.ensure {rounds : Nat} (h : Spilling s out pending total threshold i)
    (hn : n ≤ minimumOutputBufferSize)
    (hnext : s.free.length < n → threshold ≤ i + s.behind.length → NextTakes (i + s.behind.length - threshold) s) :
    (@ensureSize _ (virtuals (rounds + 2)) n).Meets s (Sound total out) := by
  by_cases hlen : n ≤ s.free.length
  · exact Action.meets_of_eq (@ensureSize_enough _ (virtuals (rounds + 2)) s n hlen) (sound_ok h.logs)
  · have hgrow := Nat.lt_of_not_le hlen
    by_cases hcross : threshold ≤ i + s.behind.length
    · refine h.toOnSmall.ensure_cross hgrow hcross fun t htook hacross => ?_
      have hoverlapping := hacross.overlapping (h.toSized.took htook)
      apply hoverlapping.handOver (h.nextTakes (hnext hgrow hcross))
      · intro u _ hu
        exact sound_end hu.logs
      · intro u rest _ hdirect
        exact .step rfl (.ite_neg (fun hboth => by cases hboth.1) (hdirect.ensure hn))
    · have hminimum : minimumOutputBufferSize = 40 := rfl
      have hbuffer : smallBufferSize = 78 := rfl
      have hlt := h.threshold_small
      refine h.toOnSmall.ensure_flush hgrow (Nat.lt_of_not_le hcross) fun t htook hsmall => ?_
      have hspilling := hsmall.spilling (by omega) (h.toSized.took htook)
      exact .ite_neg (by omega) (Action.meets_of_eq rfl (sound_ok hspilling.logs))

theorem Spilling.ensure_overruns {rounds : Nat} (h : Spilling s out pending total threshold i)
    (hgrow : s.free.length < n) (hcross : threshold ≤ i + s.behind.length)
    (hnext : ¬ NextTakes (i + s.behind.length - threshold) s) :
    (@ensureSize _ (virtuals (rounds + 2)) n).Meets s fun r _ => r = .error .outOfBounds := by
  obtain ⟨chunk, rest, rfl, hlt⟩ := h.not_nextTakes hnext
  refine h.toOnSmall.ensure_cross hgrow hcross fun t htook hacross => ?_
  exact (hacross.overlapping (h.toSized.took htook)).overruns hlt

/-! ### Writing in bulk -/

/-- Bytes are written as far as there is room, and the call succeeds only if more is left. -/
def Fills (total : Nat) (out bytes : List UInt8) (r : Except Fault Unit)
    (t : OutputBuffer ChunkedOutputStream) : Prop :=
  (out.length + bytes.length < total ∧ r = .ok () ∧ Logs total t (out ++ bytes)) ∨
    (total ≤ out.length + bytes.length ∧ r = .error (.errc .endOfStream) ∧
      ∃ taken, Logs total t (out ++ bytes.take taken))

/-- There was no room for any of the bytes. -/
theorem fills_nothing {t : OutputBuffer ChunkedOutputStream} (h : Logs total t out)
    (hfull : total ≤ out.length) :
    Fills total out bytes (.error (.errc .endOfStream)) t := by
  refine .inr ⟨hfull.trans (Nat.le_add_right _ _), rfl, 0, ?_⟩
  rwa [List.take_zero, List.append_nil]

theorem Opened.bulk (h : Opened s out pending total) (hwindow : s.derived.window = .nowhere)
    (hfree : s.free = []) :
    (do
      let source ← Action.gets fun s => s.derived.source
      writeChunks (source.length + 1) bytes
      resetToChunk 0 : Output ChunkedOutputStream Unit).Meets s (Fills total out bytes) := by
  have hrounds : pending.length < s.derived.source.length + 1 := by
    rw [h.source, List.length_map]
    exact Nat.lt_succ_self _
  have hwrites := writeChunks_meets bytes h hwindow hfree hrounds
  refine .step (a := s.derived.source) (t := s) rfl ?_
  obtain ⟨r, t, ht⟩ : ∃ r t, writeChunks (s.derived.source.length + 1) bytes s = (r, t) := ⟨_, _, rfl⟩
  rw [Action.Meets, ht] at hwrites
  rcases hwrites with ⟨rfl, hroom, rest, hopened⟩ | ⟨e, k, rfl, rfl, hfull, hlogs⟩
  · rw [List.length_append] at hroom
    exact .step ht (Action.meets_of_eq rfl (.inl ⟨hroom, rfl, hopened.direct.logs⟩))
  · have hk := List.length_take_le k bytes
    rw [List.length_append] at hfull
    have htotal : total ≤ out.length + bytes.length := by
      rw [List.length_take] at hfull
      omega
    exact .stop ht (.inr ⟨htotal, rfl, k, hlogs⟩)

theorem Direct.bulk (h : Direct s out pending total) (hfree : s.free = []) :
    (doBulkWrite bytes).Meets s (Fills total out bytes) := by
  refine h.toOnChunk.bulk_next hfree fun t htook hchunk hfree' hout => ?_
  have hdirect := hchunk.direct htook.done_eq.symm (h.toSized.took htook)
  rw [← htook.done_eq] at hout
  rcases hdirect.next hout with ⟨rfl, hacquire⟩ | ⟨chunk, rest, -, u, hacquire, hopened, hwindow, hfree''⟩
  · have hsize := hdirect.total
    rw [List.flatten_nil, List.length_nil, Nat.add_zero, ← List.length_append, ← hout] at hsize
    exact .stop hacquire (fills_nothing hdirect.logs hsize.ge)
  · exact .step hacquire (hopened.bulk hwindow (hfree''.trans hfree'))

/-- Spilled bytes that fill the small buffer do not all belong to the current chunk. -/
theorem Spilled.full_le (h : Spilled s out pending total threshold smallBufferSize) :
    total ≤ out.length + pending.flatten.length := by
  have hsize := h.total
  have hlt := h.threshold_small
  have hminimum : minimumOutputBufferSize = 40 := rfl
  have hsmall : smallBufferSize = 78 := rfl
  rw [h.out_eq, List.length_append, List.length_append, List.length_take_of_le (Nat.sub_le _ _),
    List.length_take_of_le h.small.ge]
  omega

theorem Spilling.filled (h : Spilling s out pending total threshold i) (hfree : s.free = []) :
    Spilled (settle s) out pending total threshold smallBufferSize := by
  have hspans := h.spans
  rw [hfree, List.append_nil] at hspans
  exact hspans ▸ h.settled

theorem Spilling.bulk (h : Spilling s out pending total threshold i) (hfree : s.free = [])
    (hnext : NextTakes (smallBufferSize - threshold) s) :
    (doBulkWrite bytes).Meets s (Fills total out bytes) := by
  refine h.toOnSmall.bulk_cross hfree (h.threshold_small.le.trans (by decide)) fun t htook hacross => ?_
  apply (hacross.overlapping (h.toSized.took htook)).handOver (h.nextTakes hnext)
  · intro u hpending hu
    have hfull := (h.filled hfree).full_le
    rw [hpending, List.flatten_nil, List.length_nil, Nat.add_zero] at hfull
    exact fills_nothing hu.logs hfull
  · intro u rest hopened _
    have hnowhere : Opened ⟨[], [], {u.derived with window := .nowhere}⟩ out rest total :=
      ⟨hopened.toSized.took (took_nil rfl rfl rfl rfl rfl rfl), hopened.marker, hopened.done_eq⟩
    exact .ite_neg (fun hfalse => by cases hfalse) (.step rfl (hnowhere.bulk rfl rfl))

theorem Spilling.bulk_overruns (h : Spilling s out pending total threshold i) (hfree : s.free = [])
    (hnext : ¬ NextTakes (smallBufferSize - threshold) s) :
    (doBulkWrite bytes).Meets s fun r _ => r = .error .outOfBounds := by
  obtain ⟨chunk, rest, rfl, hlt⟩ := h.not_nextTakes hnext
  refine h.toOnSmall.bulk_cross hfree (h.threshold_small.le.trans (by decide)) fun t htook hacross => ?_
  exact (hacross.overlapping (h.toSized.took htook)).overruns hlt

/-! ### Synchronizing -/

/-- What is in the chunks, one after the other. -/
def contents (s : OutputBuffer ChunkedOutputStream) : List UInt8 :=
  (settle s).derived.done ++ (settle s).derived.currentChunk ++ (settle s).derived.cut ++
    s.derived.source.flatMap fun
      | .ok chunk => chunk
      | .error _ => []

theorem contents_begin {k : Nat}
    (h : out = (settle s).derived.done ++ (settle s).derived.currentChunk.take k) :
    out <+: contents s := by
  rw [h, contents, List.append_assoc, List.append_assoc]
  refine List.prefix_append_right_inj _ |>.mpr ?_
  exact (List.take_prefix k _).trans (List.prefix_append _ _)

theorem Direct.contents (h : Direct s out pending total) : out <+: contents s :=
  contents_begin h.settled.2

/-- Nothing is left in the small buffer. -/
theorem OnSmall.contents (h : OnSmall s out threshold 0) (hbehind : s.behind = []) : out <+: contents s := by
  have hout := h.settled.out_eq
  rw [hbehind, List.length_nil, Nat.zero_add, List.take_zero, List.append_nil] at hout
  exact contents_begin hout

/-- Nothing was lost, and after a success all of it is in the chunks. -/
def Synced (total : Nat) (out : List UInt8) (r : Except Fault Unit) (t : OutputBuffer ChunkedOutputStream) :
    Prop :=
  Sound total out r t ∧ (r = .ok () → out <+: contents t)

theorem Direct.synced (h : Direct s out pending total) : Synced total out (.ok ()) s :=
  ⟨sound_ok h.logs, fun _ => h.contents⟩

theorem Direct.sync (h : Direct s out pending total) : syncOutput.Meets s (Synced total out) :=
  h.toOnChunk.sync h.settled.1.synced

theorem Spilling.sync (h : Spilling s out pending total threshold i)
    (hnext : threshold < i + s.behind.length → NextTakes (i + s.behind.length - threshold) s) :
    syncOutput.Meets s (Synced total out) := by
  by_cases hcross : threshold < i + s.behind.length
  · refine h.toOnSmall.sync_cross hcross fun t htook hacross => ?_
    apply (hacross.overlapping (h.toSized.took htook)).handOver (h.nextTakes (hnext hcross))
    · intro u _ hu
      exact ⟨sound_end hu.logs, fun hok => by cases hok⟩
    · intro u rest _ hdirect
      exact .ite_pos rfl (Action.meets_of_eq rfl hdirect.synced)
  · have hlt := h.threshold_small
    apply h.toOnSmall.sync_within (Nat.le_of_not_lt hcross)
    · intro t htook hsmall hbehind
      have hspilling := hsmall.spilling (by omega) (h.toSized.took htook)
      exact ⟨sound_ok hspilling.logs, fun _ => hsmall.contents hbehind⟩
    · intro t htook hchunk
      exact (hchunk.direct rfl (h.toSized.took htook)).synced

theorem Spilling.sync_overruns (h : Spilling s out pending total threshold i)
    (hcross : threshold < i + s.behind.length)
    (hnext : ¬ NextTakes (i + s.behind.length - threshold) s) :
    syncOutput.Meets s fun r _ => r = .error .outOfBounds := by
  obtain ⟨chunk, rest, rfl, hlt⟩ := h.not_nextTakes hnext
  refine h.toOnSmall.sync_cross hcross fun t htook hacross => ?_
  exact (hacross.overlapping (h.toSized.took htook)).overruns hlt

end ChunkedOutputStream
end DeepPack
