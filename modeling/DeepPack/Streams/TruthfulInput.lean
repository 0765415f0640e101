import DeepPack.Library.Carrying
import DeepPack.Streams.InputContract

/-! Inputs that may fail at any call.

`TruthfulInput` is what is left of the contract of an input buffer when the stream may
fail whenever it is asked: what it does give, it gives as it should. Such a stream can be
rescued: where it fails, the rescued stream goes on in memory. The rescued stream is
honest, and does what the first one does as long as that succeeds. -/
namespace DeepPack
open Library InputBuffer

structure TruthfulInput (σ : Type) [InputStream σ] where
  /-- The states the stream can be in. -/
  Valid : InputBuffer σ → Prop
  /-- The bytes not consumed yet. -/
  unread : InputBuffer σ → List UInt8
  inputSize_eq : ∀ {s}, Valid s → s.inputSize = (unread s).length
  inputSize_lt : ∀ {s}, Valid s → (unread s).length < wordLimit
  buffer_starts : ∀ {s}, Valid s → s.buffer <+: unread s
  discard : ∀ {s n}, Valid s → n ≤ s.buffer.length →
    ∃ t, discardBuffered n s = (.ok (), t) ∧ Valid t ∧ unread t = (unread s).drop n
  /-- If it buffers more, it is more of the same bytes. -/
  require : ∀ {s n t}, Valid s → n ≤ 9 → requireInput n s = (.ok (), t) →
    Valid t ∧ unread t = unread s ∧ n ≤ t.buffer.length
  /-- If it delivers bytes, they are the next ones. -/
  bulk : ∀ {s n bytes t}, Valid s → n ≤ (unread s).length → bulkRead n s = (.ok bytes, t) →
    bytes = (unread s).take n ∧ Valid t ∧ unread t = (unread s).drop n

/-- An honest input is truthful. -/
def InputContract.truthful {σ : Type} [InputStream σ] (C : InputContract σ) : TruthfulInput σ where
  Valid := C.Valid
  unread := C.unread
  inputSize_eq := C.inputSize_eq
  inputSize_lt := C.inputSize_lt
  buffer_starts := C.buffer_starts
  discard := C.discard
  require := by
    intro s n t hs hn hrun
    by_cases hle : n ≤ (C.unread s).length
    · obtain ⟨u, hu, hvalid⟩ := C.require hs hn hle
      cases hrun.symm.trans hu
      exact hvalid
    · obtain ⟨u, hu, -⟩ := InputContract.require_short hs (Nat.lt_of_not_le hle)
      cases hrun.symm.trans hu
  bulk := by
    intro s n bytes t hs hn hrun
    obtain ⟨u, hu, hvalid⟩ := C.bulk hs hn
    cases hrun.symm.trans hu
    exact ⟨rfl, hvalid⟩

/-! ### The rescued stream -/

/-- A stream, or the memory it was rescued to. -/
inductive Rescued (σ : Type) where
  | stream (derived : σ)
  | memory

namespace InputBuffer
variable {σ τ : Type}

/-- The same buffer, in front of another stream. -/
def map (f : σ → τ) (s : InputBuffer σ) : InputBuffer τ := ⟨s.buffer, s.inputSize, f s.derived⟩

@[simp] theorem map_buffer (f : σ → τ) (s : InputBuffer σ) : (s.map f).buffer = s.buffer := rfl

@[simp] theorem map_inputSize (f : σ → τ) (s : InputBuffer σ) : (s.map f).inputSize = s.inputSize := rfl

end InputBuffer

namespace TruthfulInput
variable {σ τ α : Type} [I : InputStream σ] (T : TruthfulInput σ)

/-- The call on the stream; where it fails, what the bytes not consumed come to. -/
def orRescue (x : Input σ α) (rescue : List UInt8 → α × List UInt8) : Input (Rescued σ) α := fun s =>
  match s.derived with
  | .stream derived =>
    match x ⟨s.buffer, s.inputSize, derived⟩ with
    | (.ok a, t) => (.ok a, t.map .stream)
    | (.error _, _) =>
      let (a, left) := rescue (T.unread ⟨s.buffer, s.inputSize, derived⟩)
      (.ok a, ⟨left, left.length, .memory⟩)
  | .memory => (.error .terminated, s)

/-- Where the stream fails, all of its bytes are buffered. -/
@[reducible] def rescued : InputStream (Rescued σ) where
  doRequireInput n := T.orRescue (I.doRequireInput n) fun left => ((), left)
  doDiscardInput n := T.orRescue (I.doDiscardInput n) fun left => ((), left.drop n)
  doBulkRead n := T.orRescue (I.doBulkRead n) fun left => (left.take n, left.drop n)

variable {T} {s : InputBuffer σ} {n : Nat}

theorem orRescue_ok {x : Input σ α} {rescue : List UInt8 → α × List UInt8} {a : α} {t : InputBuffer σ}
    (hx : x s = (.ok a, t)) : T.orRescue x rescue (s.map .stream) = (.ok a, t.map .stream) := by
  simp only [orRescue, map, hx]

theorem orRescue_error {x : Input σ α} {rescue : List UInt8 → α × List UInt8} {e : Fault} {t : InputBuffer σ}
    (hx : x s = (.error e, t)) : T.orRescue x rescue (s.map .stream) =
      (.ok (rescue (T.unread s)).1, ⟨(rescue (T.unread s)).2, (rescue (T.unread s)).2.length, .memory⟩) := by
  simp only [orRescue, map, hx]

/-! ### It is honest -/

/-- The stream is in a valid state, or the rest is in memory. -/
def RescuedValid (T : TruthfulInput σ) (s : InputBuffer (Rescued σ)) : Prop :=
  match s.derived with
  | .stream derived => T.Valid ⟨s.buffer, s.inputSize, derived⟩
  | .memory => s.inputSize = s.buffer.length ∧ s.buffer.length < wordLimit

def rescuedUnread (T : TruthfulInput σ) (s : InputBuffer (Rescued σ)) : List UInt8 :=
  match s.derived with
  | .stream derived => T.unread ⟨s.buffer, s.inputSize, derived⟩
  | .memory => s.buffer

theorem rescuedValid_memory {left : List UInt8} (hlen : left.length < wordLimit) :
    T.RescuedValid ⟨left, left.length, .memory⟩ := ⟨rfl, hlen⟩

/-- In memory everything is buffered. -/
theorem rescued_cases {s : InputBuffer (Rescued σ)} (hs : T.RescuedValid s) :
    (∃ s₀, s = s₀.map .stream ∧ T.Valid s₀ ∧ T.rescuedUnread s = T.unread s₀) ∨
    ∃ left, s = ⟨left, left.length, .memory⟩ ∧ left.length < wordLimit ∧ T.rescuedUnread s = left := by
  obtain ⟨buffer, inputSize, derived⟩ := s
  cases derived with
  | stream derived => exact .inl ⟨⟨buffer, inputSize, derived⟩, rfl, hs, rfl⟩
  | memory =>
    obtain ⟨hsize, hlen⟩ := hs
    obtain rfl : inputSize = buffer.length := hsize
    exact .inr ⟨buffer, rfl, hlen, rfl⟩

theorem rescued_discard {s : InputBuffer (Rescued σ)} (hs : T.RescuedValid s) (hn : n ≤ s.buffer.length) :
    ∃ t, discardBuffered n s = (.ok (), t) ∧ T.RescuedValid t ∧ T.rescuedUnread t = (T.rescuedUnread s).drop n := by
  refine ⟨⟨s.buffer.drop n, wrapSub 64 s.inputSize n, s.derived⟩, if_pos hn, ?_⟩
  rcases rescued_cases hs with ⟨s₀, rfl, hs₀, hunread⟩ | ⟨left, rfl, hlen, hunread⟩
  · obtain ⟨t, ht, hvalid, hleft⟩ := T.discard hs₀ hn
    cases (if_pos hn : discardBuffered n s₀ = _).symm.trans ht
    exact ⟨hvalid, hunread ▸ hleft⟩
  · refine ⟨⟨?_, ?_⟩, hunread ▸ rfl⟩
    · exact (wrapSub_of_le hn hlen).trans List.length_drop.symm
    · exact Nat.lt_of_le_of_lt (List.drop_sublist n left).length_le hlen

theorem rescued_require {s : InputBuffer (Rescued σ)} (hs : T.RescuedValid s) (hn : n ≤ 9)
    (hle : n ≤ (T.rescuedUnread s).length) :
    ∃ t, @requireInput _ T.rescued n s = (.ok (), t) ∧ T.RescuedValid t ∧ T.rescuedUnread t = T.rescuedUnread s ∧
      n ≤ t.buffer.length := by
  rcases rescued_cases hs with ⟨s₀, rfl, hs₀, hunread⟩ | ⟨left, rfl, hlen, hunread⟩
  · rw [hunread] at hle ⊢
    have hsize : ¬ s₀.inputSize < n := by
      rw [T.inputSize_eq hs₀]
      exact Nat.not_lt.mpr hle
    by_cases hlt : s₀.buffer.length < n
    · have hrun : @requireInput _ T.rescued n (s₀.map .stream) =
          T.orRescue (I.doRequireInput n) (fun left => ((), left)) (s₀.map .stream) :=
        (if_neg hsize).trans (if_pos hlt)
      rw [hrun]
      rcases hdo : I.doRequireInput n s₀ with ⟨e | _, t⟩
      · refine ⟨_, orRescue_error hdo, rescuedValid_memory (T.inputSize_lt hs₀), rfl, hle⟩
      · have hstream : requireInput n s₀ = (.ok (), t) := ((if_neg hsize).trans (if_pos hlt)).trans hdo
        obtain ⟨hvalid, hleft, henough⟩ := T.require hs₀ hn hstream
        exact ⟨_, orRescue_ok hdo, hvalid, hleft, henough⟩
    · exact ⟨_, (if_neg hsize).trans (if_neg hlt), hs₀, rfl, Nat.le_of_not_lt hlt⟩
  · rw [hunread] at hle ⊢
    exact ⟨_, (if_neg (Nat.not_lt.mpr hle)).trans (if_neg (Nat.not_lt.mpr hle)), ⟨rfl, hlen⟩, rfl, hle⟩

/-- Bytes that are buffered are read where they are. -/
theorem bulkRead_within {J : InputStream τ} {s : InputBuffer τ} (hsize : n ≤ s.inputSize) (hlt : s.inputSize < wordLimit)
    (hn : n ≤ s.buffer.length) :
    bulkRead n s = (.ok (s.buffer.take n), ⟨s.buffer.drop n, wrapSub 64 s.inputSize n, s.derived⟩) := by
  unfold bulkRead
  by_cases h0 : n = 0
  · subst h0
    rw [if_pos rfl, wrapSub_of_le (Nat.zero_le _) hlt]
    rfl
  · rw [if_neg h0, if_neg (Nat.not_lt.mpr hsize)]
    simp only [Nat.min_eq_right hn, Nat.sub_self, if_true]

/-- The stream reads what is not buffered. -/
theorem bulkRead_across {J : InputStream τ} {s : InputBuffer τ} (hsize : n ≤ s.inputSize) (hn : s.buffer.length < n) :
    bulkRead n s = (do
      let rest ← InputStream.doBulkRead (n - s.buffer.length)
      pure (s.buffer ++ rest) : Input τ (List UInt8)) ⟨[], wrapSub 64 s.inputSize s.buffer.length, s.derived⟩ := by
  unfold bulkRead
  rw [if_neg (by omega), if_neg (Nat.not_lt.mpr hsize)]
  simp only [Nat.min_eq_left hn.le, if_neg (show ¬ n - s.buffer.length = 0 by omega), List.take_length, List.drop_length]

/-- What is buffered, and as much of what is behind it. -/
theorem take_across {buffer left : List UInt8} (h : buffer <+: left) (hn : buffer.length ≤ n) :
    buffer ++ (left.drop buffer.length).take (n - buffer.length) = left.take n := by
  obtain ⟨rest, rfl⟩ := h
  rw [List.drop_left, List.take_append, List.take_of_length_le hn]

theorem rescued_bulk {s : InputBuffer (Rescued σ)} (hs : T.RescuedValid s) (hle : n ≤ (T.rescuedUnread s).length) :
    ∃ t, @bulkRead _ T.rescued n s = (.ok ((T.rescuedUnread s).take n), t) ∧ T.RescuedValid t ∧
      T.rescuedUnread t = (T.rescuedUnread s).drop n := by
  rcases rescued_cases hs with ⟨s₀, rfl, hs₀, hunread⟩ | ⟨left, rfl, hlen, hunread⟩
  · rw [hunread] at hle ⊢
    have hsize : n ≤ s₀.inputSize := by rwa [T.inputSize_eq hs₀]
    have hlt : s₀.inputSize < wordLimit := by
      rw [T.inputSize_eq hs₀]
      exact T.inputSize_lt hs₀
    by_cases hn : n ≤ s₀.buffer.length
    · obtain ⟨hbytes, hvalid, hleft⟩ := T.bulk hs₀ hle (bulkRead_within hsize hlt hn)
      rw [← hbytes]
      exact ⟨_, bulkRead_within (J := T.rescued) (s := s₀.map .stream) hsize hlt hn, hvalid, hleft⟩
    · have hacross := Nat.lt_of_not_le hn
      obtain ⟨u, hu, huvalid, huleft⟩ := T.discard hs₀ (Nat.le_refl _)
      obtain rfl : (⟨[], wrapSub 64 s₀.inputSize s₀.buffer.length, s₀.derived⟩ : InputBuffer σ) = u := by
        cases (if_pos (Nat.le_refl _) : discardBuffered s₀.buffer.length s₀ = _).symm.trans hu
        rw [List.drop_length]
      have hstream := bulkRead_across (J := I) hsize hacross
      have hrescued := bulkRead_across (J := T.rescued) (s := s₀.map .stream) hsize hacross
      rcases hdo : I.doBulkRead (n - s₀.buffer.length) ⟨[], wrapSub 64 s₀.inputSize s₀.buffer.length, s₀.derived⟩ with
        ⟨e | rest, t⟩
      · -- the rest of the bytes is read in memory
        have hleft : ((T.unread s₀).drop s₀.buffer.length).drop (n - s₀.buffer.length) = (T.unread s₀).drop n := by
          rw [List.drop_drop, Nat.add_sub_cancel' hacross.le]
        have hlen : ((T.unread s₀).drop n).length < wordLimit :=
          Nat.lt_of_le_of_lt (List.drop_sublist _ _).length_le (T.inputSize_lt hs₀)
        have hread := hrescued.trans (Action.bind_ok _ (orRescue_error hdo))
        simp only [map_buffer, huleft, hleft, take_across (T.buffer_starts hs₀) hacross.le] at hread
        exact ⟨_, hread, rescuedValid_memory hlen, rfl⟩
      · obtain ⟨hbytes, hvalid, hleft⟩ := T.bulk hs₀ hle (hstream.trans (Action.bind_ok _ hdo))
        rw [← hbytes]
        exact ⟨_, hrescued.trans (Action.bind_ok _ (orRescue_ok hdo)), hvalid, hleft⟩
  · rw [hunread] at hle ⊢
    refine ⟨_, bulkRead_within (J := T.rescued) hle hlen hle, ⟨?_, ?_⟩, rfl⟩
    · exact (wrapSub_of_le hle hlen).trans List.length_drop.symm
    · exact Nat.lt_of_le_of_lt (List.drop_sublist n left).length_le hlen

variable (T) in
/-- The rescued stream keeps the whole contract. -/
def honest : @InputContract (Rescued σ) T.rescued :=
  @InputContract.mk (Rescued σ) T.rescued T.RescuedValid T.rescuedUnread
    (fun {s} hs => by
      rcases rescued_cases hs with ⟨s₀, rfl, hs₀, hunread⟩ | ⟨left, rfl, -, hunread⟩
      · exact hunread ▸ T.inputSize_eq hs₀
      · exact hunread ▸ rfl)
    (fun {s} hs => by
      rcases rescued_cases hs with ⟨s₀, rfl, hs₀, hunread⟩ | ⟨left, rfl, hlen, hunread⟩
      · exact hunread ▸ T.inputSize_lt hs₀
      · exact hunread ▸ hlen)
    (fun {s} hs => by
      rcases rescued_cases hs with ⟨s₀, rfl, hs₀, hunread⟩ | ⟨left, rfl, -, hunread⟩
      · exact hunread ▸ T.buffer_starts hs₀
      · exact hunread ▸ List.prefix_refl left)
    rescued_discard rescued_require rescued_bulk

end TruthfulInput
end DeepPack
