import DeepPack.Streams.ChunkedRoom

/-! Requests that are too large for a stream into chunks.

`do_grow` goes over to the small buffer before it finds that a request is larger than that, and keeps
in a signed byte what is left of the chunk. Where that fits in it, a rejected request costs nothing:
what was written is still there, and what will be goes behind it. -/
namespace DeepPack
open Library OutputBuffer

namespace ChunkedOutputStream

/-- The call stays within the buffer that the stream has given out. -/
def InBuffer : OutputCall → OutputBuffer ChunkedOutputStream → Prop
  | .store i bytes, s => i + bytes.length ≤ s.free.length
  | .commitWritten n, s => n ≤ s.free.length
  | _, _ => True

/-- How many bytes were spilled behind the end of the current chunk. -/
def spilledBeyond (s : OutputBuffer ChunkedOutputStream) : Nat :=
  spilledSize s - s.derived.decomissionThreshold.toNat

/-- What is left of a chunk fits in a signed byte where the small buffer comes into use, the small buffer is
not filled before the chunk is, and the next chunk takes the bytes that belong to it. -/
def Harmless : OutputCall → OutputBuffer ChunkedOutputStream → Prop
  | .ensureSize n, s => s.free.length < n →
      (s.derived.decomissionThreshold < 0 → s.free.length < 2 ^ 7) ∧
      (0 ≤ s.derived.decomissionThreshold → s.derived.decomissionThreshold ≤ spilledSize s →
        ∀ room ∈ handedOut s.derived.remaining s.derived.source, spilledBeyond s ≤ room ∧
          (room - spilledBeyond s < n → room - spilledBeyond s < 2 ^ 7))
  | .bulkWrite bytes, s => s.free.length < bytes.length → 0 ≤ s.derived.decomissionThreshold →
      s.derived.decomissionThreshold ≤ smallBufferSize ∧
      ∀ room ∈ handedOut s.derived.remaining s.derived.source,
        smallBufferSize - s.derived.decomissionThreshold.toNat ≤ room
  | .syncOutput, s => 0 ≤ s.derived.decomissionThreshold → s.derived.decomissionThreshold < spilledSize s →
      ∀ room ∈ handedOut s.derived.remaining s.derived.source, spilledBeyond s ≤ room
  | _, _ => True

instance : ∀ call s, Decidable (InBuffer call s)
  | .ensureSize _, _ => isTrue trivial
  | .store i bytes, s => inferInstanceAs (Decidable (i + bytes.length ≤ s.free.length))
  | .commitWritten n, s => inferInstanceAs (Decidable (n ≤ s.free.length))
  | .bulkWrite _, _ => isTrue trivial
  | .syncOutput, _ => isTrue trivial

instance : ∀ call s, Decidable (Harmless call s)
  | .ensureSize n, s => inferInstanceAs (Decidable (s.free.length < n →
      (s.derived.decomissionThreshold < 0 → s.free.length < 2 ^ 7) ∧
      (0 ≤ s.derived.decomissionThreshold → s.derived.decomissionThreshold ≤ spilledSize s →
        ∀ room ∈ handedOut s.derived.remaining s.derived.source, spilledBeyond s ≤ room ∧
          (room - spilledBeyond s < n → room - spilledBeyond s < 2 ^ 7))))
  | .store _ _, _ => isTrue trivial
  | .commitWritten _, _ => isTrue trivial
  | .bulkWrite bytes, s => inferInstanceAs (Decidable (s.free.length < bytes.length →
      0 ≤ s.derived.decomissionThreshold → s.derived.decomissionThreshold ≤ smallBufferSize ∧
      ∀ room ∈ handedOut s.derived.remaining s.derived.source,
        smallBufferSize - s.derived.decomissionThreshold.toNat ≤ room))
  | .syncOutput, s => inferInstanceAs (Decidable (0 ≤ s.derived.decomissionThreshold →
      s.derived.decomissionThreshold < spilledSize s →
      ∀ room ∈ handedOut s.derived.remaining s.derived.source, spilledBeyond s ≤ room))

/-- The call returns, at worst with an error code. -/
def Orderly (r : Except Fault Unit) : Prop := ∀ f, r = .error f → ∃ e, f = .errc e

/-- The bytes that a call writes: those that are committed, all bytes of a bulk write that succeeds, and the
first ones of a bulk write that does not. -/
def Writes : OutputCall → OutputBuffer ChunkedOutputStream → List UInt8 → Prop
  | .commitWritten n, s, taken => taken = s.free.take n
  | .bulkWrite bytes, s, taken =>
      (∃ k, taken = bytes.take k) ∧ ((perform (.bulkWrite bytes) s).1 = .ok () → taken = bytes)
  | _, _, taken => taken = []

/-- The calls come behind others that wrote `out`. Each of them returns, and whenever a synchronization
succeeds the chunks begin with all the bytes that were written, in order. -/
def Lossless : List OutputCall → OutputBuffer ChunkedOutputStream → List UInt8 → Prop
  | [], _, _ => True
  | call :: rest, s, out => Orderly (perform call s).1 ∧
      (call = .syncOutput → (perform call s).1 = .ok () → out <+: contents (performOn call s)) ∧
      ∃ taken, Writes call s taken ∧ Lossless rest (performOn call s) (out ++ taken)

variable {s t : OutputBuffer ChunkedOutputStream} {base out bytes : List UInt8} {threshold overlap i n : Nat}

/-! ### Where the bytes are -/

/-- The chunk behind the end of the stream is not written to. -/
structure Limited (s : OutputBuffer ChunkedOutputStream) : Prop where
  small : s.derived.smallBuffer.length = smallBufferSize
  remaining_lt : s.derived.remaining < wordLimit
  cut : s.derived.cut = [] ∨ s.derived.remaining = 0

/-- These bytes are in front of the current chunk. At the end of the stream there may be others behind them. -/
def InFront (s : OutputBuffer ChunkedOutputStream) (base : List UInt8) : Prop :=
  base = s.derived.done ∨ base <+: s.derived.done ∧ s.derived.currentChunk = [] ∧ s.derived.remaining = 0

/-- The stream has all these bytes, in the current chunk or in the small buffer. -/
def Carries (s : OutputBuffer ChunkedOutputStream) (out : List UInt8) : Prop :=
  Limited s ∧ ((∃ base, InFront s base ∧ OnChunk s base out) ∨ ∃ threshold i, OnSmall s out threshold i)

/-- All that was written is in front of the current chunk. -/
structure Fresh (s : OutputBuffer ChunkedOutputStream) (out : List UInt8) : Prop extends Limited s where
  inFront : InFront s out
  marker : s.derived.decomissionThreshold = -1

/-- The current chunk is full. -/
structure Full (s : OutputBuffer ChunkedOutputStream) (base out : List UInt8) : Prop extends Limited s where
  inFront : InFront s base
  onChunk : OnChunk s base out
  free : s.free = []
  out_eq : out = base ++ s.derived.currentChunk

theorem Limited.took (h : Limited s) (htook : Took bytes s t) : Limited t := by
  refine ⟨htook.small.trans h.small, ?_, ?_⟩
  · rw [htook.remaining]
    exact h.remaining_lt
  · rw [htook.cut, htook.remaining]
    exact h.cut

theorem InFront.took (h : InFront s base) (htook : Took bytes s t) : InFront t (base ++ bytes) := by
  have hchunk := htook.chunk
  rcases h with rfl | ⟨hbase, hempty, hremaining⟩
  · exact .inl htook.done.symm
  · -- there is nothing that could be taken
    rw [hempty, List.length_nil] at hchunk
    obtain rfl : bytes = [] := List.length_eq_zero_iff.mp (by omega)
    refine .inr ⟨?_, List.length_eq_zero_iff.mp (by omega), htook.remaining.trans hremaining⟩
    rwa [List.append_nil, htook.done_eq]

theorem InFront.took_nil (h : InFront s base) (htook : Took [] s t) : InFront t base := by
  simpa using h.took htook

theorem InFront.eq_done (h : InFront s base) (hne : s.derived.currentChunk ≠ []) : base = s.derived.done := by
  rcases h with hbase | ⟨-, hempty, -⟩
  · exact hbase
  · exact absurd hempty hne

theorem Limited.handOut (h : Limited s) (chunk : List UInt8) (source : List (Except Errc (List UInt8))) :
    Limited (handOut chunk source s) := by
  have hremaining := h.remaining_lt
  have hlen : (chunk.take s.derived.remaining).length ≤ s.derived.remaining := List.length_take_le _ _
  have hwrap := wrapSub_of_le hlen hremaining
  refine ⟨h.small, ?_, ?_⟩ <;> simp only [ChunkedOutputStream.handOut, hwrap]
  · omega
  · rcases Nat.le_total chunk.length s.derived.remaining with hle | hle
    · exact .inl (List.drop_eq_nil_of_le hle)
    · right
      rw [List.length_take_of_le hle, Nat.sub_self]

/-- A chunk that is full is in front of the next one. -/
theorem InFront.handOut (h : InFront s base) (hlimited : Limited s) (chunk : List UInt8)
    (source : List (Except Errc (List UInt8))) :
    InFront (handOut chunk source s) (base ++ s.derived.currentChunk) := by
  have hspent : s.derived.remaining = 0 → (ChunkedOutputStream.handOut chunk source s).derived.currentChunk = [] ∧
      (ChunkedOutputStream.handOut chunk source s).derived.remaining = 0 := by
    intro hremaining
    simp [ChunkedOutputStream.handOut, hremaining, wrapSub]
  have hdone : (ChunkedOutputStream.handOut chunk source s).derived.done =
      s.derived.done ++ s.derived.currentChunk ++ s.derived.cut := rfl
  rcases h with rfl | ⟨hbase, hempty, hremaining⟩
  · rcases hlimited.cut with hcut | hremaining
    · left
      simp [hdone, hcut]
    · exact .inr ⟨hdone ▸ List.prefix_append _ _, hspent hremaining⟩
  · refine .inr ⟨?_, hspent hremaining⟩
    rw [hdone, hempty, List.append_nil, List.append_nil]
    exact hbase.trans (List.prefix_append _ _)

theorem Full.carries (h : Full s base out) : Carries s out := ⟨h.toLimited, .inl ⟨base, h.inFront, h.onChunk⟩⟩

theorem Fresh.carries (h : Fresh s out) (hstarted : Started s) : Carries s out :=
  ⟨h.toLimited, .inl ⟨out, h.inFront, hstarted.onChunk out⟩⟩

theorem Fresh.reset (h : Fresh s out) : Carries (resetToChunk 0 s).2 out := by
  have htook : Took [] s (resetToChunk 0 s).2 := took_nil rfl rfl rfl rfl rfl rfl
  exact ⟨h.toLimited.took htook, .inl ⟨out, h.inFront.took_nil htook, (started_resetToChunk h.marker).onChunk out⟩⟩

/-- A full chunk is followed by the next one, or there is none. -/
theorem Full.next (h : Full s base out) :
    (∃ t, acquireNextChunk s = (.ok (), t) ∧ Fresh t out ∧ t.derived.window = .nowhere ∧ t.free = []) ∨
      ∃ e t, acquireNextChunk s = (.error (.errc e), t) ∧ Full t base out := by
  rcases acquireNextChunk_cases s with ⟨chunk, source, -, hacquire⟩ | ⟨-, e, source, hacquire⟩
  · refine .inl ⟨_, hacquire, ⟨h.toLimited.handOut chunk source, ?_, h.onChunk.marker⟩, ?_, h.free⟩
    · rw [h.out_eq]
      exact h.inFront.handOut h.toLimited chunk source
    · rw [ChunkedOutputStream.handOut]
      rcases h.onChunk.spans with ⟨i, hwindow, -, -⟩ | ⟨hwindow, -, -⟩ <;> simp [hwindow]
  · refine .inr ⟨e, _, hacquire, ⟨h.small, h.remaining_lt, h.cut⟩, h.inFront, ⟨h.onChunk.marker, h.onChunk.spans⟩,
      h.free, h.out_eq⟩

theorem OnChunk.chunk_ne (h : OnChunk s base out) (hfree : s.free ≠ []) : s.derived.currentChunk ≠ [] := by
  intro hempty
  rcases h.spans with ⟨i, -, hlen, -⟩ | ⟨-, hnone, -⟩
  · rw [hempty, List.length_append, List.length_nil] at hlen
    exact hfree (List.length_eq_zero_iff.mp (by omega))
  · exact hfree hnone

/-! ### Each of the calls -/

/-- The call returned, and nothing was lost. -/
def Carried (out : List UInt8) (r : Except Fault Unit) (t : OutputBuffer ChunkedOutputStream) : Prop :=
  Orderly r ∧ Carries t out

theorem orderly_ok : Orderly (.ok ()) := fun _ hf => by cases hf

theorem orderly_errc (e : Errc) : Orderly (.error (.errc e)) := fun _ hf => ⟨e, (Except.error.inj hf).symm⟩

/-- A request is met or rejected. -/
theorem Carries.granted (h : Carries s out) :
    (if smallBufferSize < n then err .bufferSizeExceeded
    else pure () : Output ChunkedOutputStream Unit).Meets s (Carried out) := by
  by_cases hlarge : smallBufferSize < n
  · exact .ite_pos hlarge (Action.meets_of_eq rfl ⟨orderly_errc _, h⟩)
  · exact .ite_neg hlarge (Action.meets_of_eq rfl ⟨orderly_ok, h⟩)

/-- What was spilled beyond a chunk begins the next one, or it is kept. -/
theorem Limited.handOver {f : Bool → Output ChunkedOutputStream Unit}
    {R : Except Fault Unit → OutputBuffer ChunkedOutputStream → Prop} (h : Limited s)
    (hacross : Across s out threshold overlap)
    (htakes : ∀ room ∈ handedOut s.derived.remaining s.derived.source, overlap ≤ room)
    (hkeep : ∀ e t, Carries t out → R (.error (.errc e)) t)
    (hmove : ∀ t, ∀ room ∈ handedOut s.derived.remaining s.derived.source, t.free.length = room - overlap →
      Fresh t out → Started t → (f true).Meets t R) :
    (do
      acquireOrKeep overlap
      let moved ← tryMoveSmallBufferToNextChunk overlap
      f moved : Output ChunkedOutputStream Unit).Meets s R := by
  rcases acquireNextChunk_cases s with ⟨chunk, source, hsource, hnext⟩ | ⟨-, e, source, hnone⟩
  · have hcut : (ChunkedOutputStream.handOut chunk source s).derived.currentChunk.length =
        min chunk.length s.derived.remaining := List.length_take.trans (Nat.min_comm _ _)
    have hroom : (ChunkedOutputStream.handOut chunk source s).derived.currentChunk.length ∈
        handedOut s.derived.remaining s.derived.source := by
      rw [hsource, hcut]
      rfl
    refine hacross.moves hnext (htakes _ hroom) fun spill t hout hlen htook hstarted => ?_
    have hinFront : InFront s s.derived.done := .inl rfl
    have hfront := (hinFront.handOut h chunk source).took htook
    rw [← hout] at hfront
    have hchunk := htook.chunk
    refine hmove t _ hroom ?_ ⟨(h.handOut chunk source).took htook, hfront, hstarted.marker⟩ hstarted
    rw [hstarted.free]
    omega
  · refine hacross.keeps hnone fun t htook hsmall => ?_
    have hlimited : Limited {s with derived := {s.derived with source}} := ⟨h.small, h.remaining_lt, h.cut⟩
    exact hkeep e t ⟨hlimited.took htook, .inr ⟨0, overlap, hsmall⟩⟩

theorem ensure_onChunk {rounds : Nat} (h : Limited s) (hfront : InFront s base) (hchunk : OnChunk s base out)
    (hbyte : s.free.length < n → s.free.length < 2 ^ 7) :
    (@ensureSize _ (virtuals (rounds + 1)) n).Meets s (Carried out) := by
  by_cases hlen : n ≤ s.free.length
  · exact Action.meets_of_eq (@ensureSize_enough _ (virtuals (rounds + 1)) s n hlen)
      ⟨orderly_ok, h, .inl ⟨base, hfront, hchunk⟩⟩
  · have hgrow := Nat.lt_of_not_le hlen
    apply hchunk.ensure_grow h.small hgrow (hbyte hgrow)
    · intro hfree
      exact hfront.eq_done (hchunk.chunk_ne hfree)
    · intro t htook hsettled hfree hout
      have hfull : Full t base out := ⟨h.took htook, hfront.took_nil htook, hsettled, hfree, hout⟩
      rcases hfull.next with ⟨u, hacquire, hfresh, -, -⟩ | ⟨e, u, hacquire, hsame⟩
      · exact .step hacquire (Action.meets_of_eq rfl ⟨orderly_ok, hfresh.reset⟩)
      · exact .stop hacquire ⟨orderly_errc e, hsame.carries⟩
    · intro t htook hsmall
      exact Carries.granted ⟨h.took htook, .inr ⟨_, 0, hsmall⟩⟩

theorem ensure_onSmall {rounds : Nat} (h : Limited s) (hsmall : OnSmall s out threshold i)
    (hnext : s.free.length < n → threshold ≤ i + s.behind.length →
      ∀ room ∈ handedOut s.derived.remaining s.derived.source, i + s.behind.length - threshold ≤ room ∧
        (room - (i + s.behind.length - threshold) < n → room - (i + s.behind.length - threshold) < 2 ^ 7)) :
    (@ensureSize _ (virtuals (rounds + 2)) n).Meets s (Carried out) := by
  by_cases hlen : n ≤ s.free.length
  · exact Action.meets_of_eq (@ensureSize_enough _ (virtuals (rounds + 2)) s n hlen)
      ⟨orderly_ok, h, .inr ⟨threshold, i, hsmall⟩⟩
  · have hgrow := Nat.lt_of_not_le hlen
    by_cases hcross : threshold ≤ i + s.behind.length
    · refine hsmall.ensure_cross hgrow hcross fun t htook hacross => ?_
      have hrooms := hnext hgrow hcross
      rw [← htook.remaining, ← htook.source] at hrooms
      apply (h.took htook).handOver hacross (fun room hroom => (hrooms room hroom).1)
      · intro e u hu
        exact ⟨orderly_errc e, hu⟩
      · intro u room hroom hfree hfresh hstarted
        have hbyte := (hrooms room hroom).2
        rw [← hfree] at hbyte
        refine .step rfl (.ite_neg (fun hboth => by cases hboth.1) ?_)
        exact ensure_onChunk hfresh.toLimited hfresh.inFront (hstarted.onChunk out) hbyte
    · refine hsmall.ensure_flush hgrow (Nat.lt_of_not_le hcross) fun t htook hflushed => ?_
      exact Carries.granted ⟨h.took htook, .inr ⟨_, 0, hflushed⟩⟩

/-- Of the bytes of a bulk write none is lost, unless the call failed. -/
def Appended (out bytes : List UInt8) (r : Except Fault Unit) (t : OutputBuffer ChunkedOutputStream) : Prop :=
  Orderly r ∧ ∃ taken, (∃ k, taken = bytes.take k) ∧ (r = .ok () → taken = bytes) ∧ Carries t (out ++ taken)

theorem appended_nothing {e : Errc} (h : Carries t out) : Appended out bytes (.error (.errc e)) t := by
  refine ⟨orderly_errc e, [], ⟨0, rfl⟩, fun hok => (by cases hok), ?_⟩
  rwa [List.append_nil]

/-- Bytes that were copied to the buffer first are among those taken. -/
theorem Appended.shift {r : Except Fault Unit} {k : Nat} (h : Appended (out ++ bytes.take k) (bytes.drop k) r t) :
    Appended out bytes r t := by
  obtain ⟨horderly, taken, ⟨count, rfl⟩, hall, hcarries⟩ := h
  refine ⟨horderly, bytes.take (k + count), ⟨_, rfl⟩, fun hok => ?_, ?_⟩
  · rw [List.take_add, hall hok, List.take_append_drop]
  · rwa [List.take_add, ← List.append_assoc]

theorem Fresh.fills (h : Fresh s out) (hwindow : s.derived.window = .nowhere) (hfree : s.free = [])
    (hlen : bytes.length = s.derived.currentChunk.length) :
    Full {s with derived := {s.derived with currentChunk := bytes}} out (out ++ bytes) := by
  have htook : Took [] s {s with derived := {s.derived with currentChunk := bytes}} :=
    took_nil rfl rfl rfl rfl rfl hlen
  exact ⟨h.toLimited.took htook, h.inFront.took_nil htook, ⟨h.marker, .inr ⟨hwindow, hfree, rfl⟩⟩, hfree, rfl⟩

theorem Fresh.bulk (h : Fresh s out) (hwindow : s.derived.window = .nowhere) (hfree : s.free = []) :
    (do
      let source ← Action.gets fun s => s.derived.source
      writeChunks (source.length + 1) bytes
      resetToChunk 0 : Output ChunkedOutputStream Unit).Meets s (Appended out bytes) := by
  have hwrites : (writeChunks (s.derived.source.length + 1) bytes).Meets s fun r t =>
      (r = .ok () ∧ Fresh t (out ++ bytes)) ∨ ∃ f k, r = .error f ∧ (∃ e, f = .errc e) ∧
      Carries t (out ++ bytes.take k) := by
    refine writeChunks_rule bytes (I := fun s out => Fresh s out ∧ s.derived.window = .nowhere ∧ s.free = [])
      (E := fun f t out => (∃ e, f = .errc e) ∧ Carries t out) ?_ ?_ ?_ ⟨h, hwindow, hfree⟩ (Nat.lt_succ_self _)
    · intro s out bytes hopened hlt
      obtain ⟨hfresh, -, -⟩ := hopened
      have htook := took_part hlt
      exact ⟨hfresh.toLimited.took htook, hfresh.inFront.took htook, hfresh.marker⟩
    · intro s out bytes u hopened hlen hacquire
      obtain ⟨hfresh, hwindow, hfree⟩ := hopened
      rcases (hfresh.fills hwindow hfree hlen).next with ⟨t, hnext, hmore, hwindow', hfree'⟩ | ⟨e, t, hnone, -⟩
      · rw [hnext] at hacquire
        cases hacquire
        exact ⟨⟨hmore, hwindow', hfree'⟩, hmore⟩
      · rw [hnone] at hacquire
        cases hacquire
    · intro s out bytes f u hopened hlen hacquire
      obtain ⟨hfresh, hwindow, hfree⟩ := hopened
      rcases (hfresh.fills hwindow hfree hlen).next with ⟨t, hnext, -⟩ | ⟨e, t, hnone, hsame⟩
      · rw [hnext] at hacquire
        cases hacquire
      · rw [hnone] at hacquire
        cases hacquire
        exact ⟨⟨e, rfl⟩, hsame.carries⟩
  refine .step (a := s.derived.source) (t := s) rfl ?_
  rcases hrun : writeChunks (s.derived.source.length + 1) bytes s with ⟨r, t⟩
  rw [Action.Meets, hrun] at hwrites
  rcases hwrites with ⟨rfl, hfresh⟩ | ⟨f, k, rfl, ⟨e, rfl⟩, hcarries⟩
  · refine .step hrun (Action.meets_of_eq rfl ⟨orderly_ok, bytes, ⟨bytes.length, ?_⟩, fun _ => rfl, hfresh.reset⟩)
    exact List.take_length.symm
  · exact .stop hrun ⟨orderly_errc e, bytes.take k, ⟨k, rfl⟩, fun hok => (by cases hok), hcarries⟩

theorem bulk_onChunk (h : Limited s) (hfront : InFront s base) (hchunk : OnChunk s base out)
    (hfree : s.free = []) :
    (doBulkWrite bytes).Meets s (Appended out bytes) := by
  refine hchunk.bulk_next hfree fun t htook hsettled hfree' hout => ?_
  have hfull : Full t base out := ⟨h.took htook, hfront.took_nil htook, hsettled, hfree', hout⟩
  rcases hfull.next with ⟨u, hacquire, hfresh, hwindow, hfree''⟩ | ⟨e, u, hacquire, hsame⟩
  · exact .step hacquire (hfresh.bulk hwindow hfree'')
  · exact .stop hacquire (appended_nothing hsame.carries)

theorem bulk_onSmall (h : Limited s) (hsmall : OnSmall s out threshold i) (hfree : s.free = [])
    (hle : threshold ≤ smallBufferSize)
    (htakes : ∀ room ∈ handedOut s.derived.remaining s.derived.source, smallBufferSize - threshold ≤ room) :
    (doBulkWrite bytes).Meets s (Appended out bytes) := by
  refine hsmall.bulk_cross hfree hle fun t htook hacross => ?_
  rw [← htook.remaining, ← htook.source] at htakes
  apply (h.took htook).handOver hacross htakes
  · intro e u hu
    exact appended_nothing hu
  · intro u room _ _ hfresh _
    have hnowhere : Fresh ⟨[], [], {u.derived with window := .nowhere}⟩ out :=
      ⟨hfresh.toLimited.took (took_nil rfl rfl rfl rfl rfl rfl), hfresh.inFront, hfresh.marker⟩
    exact .ite_neg (fun hfalse => by cases hfalse) (.step rfl (hnowhere.bulk rfl rfl))

/-- The chunks begin with what is in front of the current one and what was written to it. -/
theorem OnChunk.contents (h : OnChunk s base out) (hfront : InFront s base) : out <+: contents s := by
  obtain ⟨-, -, hout⟩ := h.settled
  rcases hfront.took_nil h.took_settle with rfl | ⟨hbase, hempty, -⟩
  · exact contents_begin hout
  · rw [hempty, List.take_nil, List.append_nil] at hout
    rw [hout, ChunkedOutputStream.contents, List.append_assoc, List.append_assoc]
    exact hbase.trans (List.prefix_append _ _)

/-- Nothing was lost, and after a success all of it is in the chunks. -/
def Flushed (out : List UInt8) (r : Except Fault Unit) (t : OutputBuffer ChunkedOutputStream) : Prop :=
  Carried out r t ∧ (r = .ok () → out <+: contents t)

theorem flushed_onChunk (h : Limited s) (hfront : InFront s base) (hchunk : OnChunk s base out) :
    Flushed out (.ok ()) s :=
  ⟨⟨orderly_ok, h, .inl ⟨base, hfront, hchunk⟩⟩, fun _ => hchunk.contents hfront⟩

theorem sync_onChunk (h : Limited s) (hfront : InFront s base) (hchunk : OnChunk s base out) :
    syncOutput.Meets s (Flushed out) := by
  have htook := hchunk.took_settle
  exact hchunk.sync (flushed_onChunk (h.took htook) (hfront.took_nil htook) hchunk.settled.1)

theorem sync_onSmall (h : Limited s) (hsmall : OnSmall s out threshold i)
    (htakes : threshold < i + s.behind.length →
      ∀ room ∈ handedOut s.derived.remaining s.derived.source, i + s.behind.length - threshold ≤ room) :
    syncOutput.Meets s (Flushed out) := by
  by_cases hcross : threshold < i + s.behind.length
  · refine hsmall.sync_cross hcross fun t htook hacross => ?_
    have hrooms := htakes hcross
    rw [← htook.remaining, ← htook.source] at hrooms
    apply (h.took htook).handOver hacross hrooms
    · intro e u hu
      exact ⟨⟨orderly_errc e, hu⟩, fun hok => by cases hok⟩
    · intro u room _ _ hfresh hstarted
      exact .ite_pos rfl (Action.meets_of_eq rfl
        (flushed_onChunk hfresh.toLimited hfresh.inFront (hstarted.onChunk out)))
  · apply hsmall.sync_within (Nat.le_of_not_lt hcross)
    · intro t htook hflushed hbehind
      exact ⟨⟨orderly_ok, h.took htook, .inr ⟨_, 0, hflushed⟩⟩, fun _ => hflushed.contents hbehind⟩
    · intro t htook hchunk
      exact flushed_onChunk (h.took htook) (.inl rfl) hchunk

theorem Carries.wrote (h : Carries s out) (hwrote : Wrote bytes s t) : Carries t (out ++ bytes) := by
  obtain ⟨hlimited, ⟨base, hfront, hchunk⟩ | ⟨threshold, i, hsmall⟩⟩ := h
  · exact ⟨hlimited.took hwrote.took, .inl ⟨base, hfront.took_nil hwrote.took, hchunk.wrote hwrote⟩⟩
  · exact ⟨hlimited.took hwrote.took, .inr ⟨threshold, i, hsmall.wrote hwrote⟩⟩

theorem OnSmall.spilledBeyond_eq (h : OnSmall s out threshold i) :
    spilledBeyond s = i + s.behind.length - threshold := by
  rw [spilledBeyond, h.spilledSize_eq, h.marker, Int.toNat_natCast]

theorem Carries.ensure (h : Carries s out) (hharmless : Harmless (.ensureSize n) s) :
    (ensureSize n).Meets s (Carried out) := by
  refine .of_eq (ensureSize_rounds n s) ?_
  obtain ⟨hlimited, ⟨base, hfront, hchunk⟩ | ⟨threshold, i, hsmall⟩⟩ := h
  · apply ensure_onChunk hlimited hfront hchunk
    intro hgrow
    apply (hharmless hgrow).1
    rw [hchunk.marker]
    decide
  · apply ensure_onSmall hlimited hsmall
    intro hgrow hcross
    rw [← hsmall.spilledBeyond_eq]
    apply (hharmless hgrow).2
    · rw [hsmall.marker]
      exact Int.natCast_nonneg _
    · rw [hsmall.marker, hsmall.spilledSize_eq]
      exact Int.ofNat_le.mpr hcross

theorem Carries.bulkWrite (h : Carries s out) (hharmless : Harmless (.bulkWrite bytes) s) :
    (OutputBuffer.bulkWrite bytes).Meets s (Appended out bytes) := by
  by_cases hlen : bytes.length ≤ s.free.length
  · obtain ⟨t, ht, hwrote⟩ := bulkWrite_fits hlen
    exact Action.meets_of_eq ht
      ⟨orderly_ok, bytes, ⟨bytes.length, List.take_length.symm⟩, fun _ => rfl, h.wrote hwrote⟩
  · have hgrow := Nat.lt_of_not_le hlen
    obtain ⟨t, ht, hfree, hwrote⟩ := bulkWrite_wrote hgrow
    have hrest : (doBulkWrite (bytes.drop s.free.length)).Meets t
        (Appended (out ++ bytes.take s.free.length) (bytes.drop s.free.length)) := by
      obtain ⟨hlimited, ⟨base, hfront, hchunk⟩ | ⟨threshold, i, hsmall⟩⟩ := h.wrote hwrote
      · exact bulk_onChunk hlimited hfront hchunk hfree
      · have hmarker := hsmall.marker
        rw [hwrote.derived] at hmarker
        have hnext := hharmless hgrow
        rw [hmarker, Int.toNat_natCast, Int.ofNat_le, ← hwrote.derived] at hnext
        obtain ⟨hle, htakes⟩ := hnext (Int.natCast_nonneg _)
        exact bulk_onSmall hlimited hsmall hfree hle htakes
    exact .of_eq ht (hrest.mono fun _ _ happended => happended.shift)

theorem Carries.sync (h : Carries s out) (hharmless : Harmless .syncOutput s) :
    syncOutput.Meets s (Flushed out) := by
  obtain ⟨hlimited, ⟨base, hfront, hchunk⟩ | ⟨threshold, i, hsmall⟩⟩ := h
  · exact sync_onChunk hlimited hfront hchunk
  · apply sync_onSmall hlimited hsmall
    intro hcross
    rw [← hsmall.spilledBeyond_eq]
    apply hharmless
    · rw [hsmall.marker]
      exact Int.natCast_nonneg _
    · rw [hsmall.marker, hsmall.spilledSize_eq]
      exact Int.ofNat_lt.mpr hcross

/-- A harmless call loses nothing. -/
theorem Carries.step {call : OutputCall} (h : Carries s out) (hin : InBuffer call s)
    (hharmless : Harmless call s) :
    Orderly (perform call s).1 ∧
      (call = .syncOutput → (perform call s).1 = .ok () → out <+: contents (performOn call s)) ∧
      ∃ taken, Writes call s taken ∧ Carries (performOn call s) (out ++ taken) := by
  cases call with
  | ensureSize n =>
    obtain ⟨horderly, hcarries⟩ := h.ensure hharmless
    exact ⟨horderly, fun hsync => (by cases hsync), [], rfl, (List.append_nil out).symm ▸ hcarries⟩
  | store i bytes =>
    have hperform : perform (.store i bytes) s = (.ok (), s.put i bytes) := store_apply hin
    rw [performOn, hperform]
    exact ⟨orderly_ok, fun hsync => (by cases hsync), [], rfl, h.wrote (wrote_store hin)⟩
  | commitWritten n =>
    have hperform : perform (.commitWritten n) s = (.ok (), s.commit n) := commitWritten_apply hin
    rw [performOn, hperform]
    exact ⟨orderly_ok, fun hsync => (by cases hsync), _, rfl, h.wrote (wrote_commit hin)⟩
  | bulkWrite bytes =>
    obtain ⟨horderly, taken, hpart, hall, hcarries⟩ := h.bulkWrite hharmless
    exact ⟨horderly, fun hsync => (by cases hsync), taken, ⟨hpart, hall⟩, hcarries⟩
  | syncOutput =>
    obtain ⟨⟨horderly, hcarries⟩, hflushed⟩ := h.sync hharmless
    exact ⟨horderly, fun _ => hflushed, [], rfl, (List.append_nil out).symm ▸ hcarries⟩

/-! ### Runs -/

theorem Carries.lossless {calls : List OutputCall} (h : Carries s out) (hin : EveryStep performOn InBuffer calls s)
    (hharmless : EveryStep performOn Harmless calls s) : Lossless calls s out := by
  induction calls generalizing s out with
  | nil => trivial
  | cons call rest ih =>
    obtain ⟨horderly, hflushed, taken, hwrites, hcarries⟩ := h.step hin.1 hharmless.1
    exact ⟨horderly, hflushed, taken, hwrites, ih hcarries hin.2 hharmless.2⟩

theorem carries_chunkedOutput (initialWriteArea : List UInt8) {remaining : Nat}
    (source : List (Except Errc (List UInt8))) (hbudget : remaining < wordLimit) :
    Carries (chunkedOutput initialWriteArea remaining source) [] := by
  refine ⟨⟨List.length_replicate, hbudget, .inl rfl⟩, .inl ⟨[], .inl rfl, rfl, .inl ⟨0, rfl, ?_, rfl⟩⟩⟩
  exact Nat.zero_add _

/-- Whatever requests are rejected, a run of harmless calls loses nothing. -/
theorem rejected_requests_are_harmless {initialWriteArea : List UInt8} {remaining : Nat}
    {source : List (Except Errc (List UInt8))} {calls : List OutputCall} (hbudget : remaining < wordLimit)
    (hin : EveryStep performOn InBuffer calls (chunkedOutput initialWriteArea remaining source))
    (hharmless : EveryStep performOn Harmless calls (chunkedOutput initialWriteArea remaining source)) :
    Lossless calls (chunkedOutput initialWriteArea remaining source) [] :=
  (carries_chunkedOutput initialWriteArea source hbudget).lossless hin hharmless

/-- A hundred bytes are asked for where two are left, then three are written that reach into the next chunk. -/
theorem rejected_requests_are_harmless_across :
    (perform (.ensureSize 100) (reached [0, 0, 0] 4 [.ok [0, 0, 0, 0]] [.store 0 [1], .commitWritten 1])).1 =
      .error (.errc .bufferSizeExceeded) ∧
    Lossless [.store 0 [1], .commitWritten 1, .ensureSize 100, .store 0 [2, 3], .commitWritten 2, .bulkWrite [4],
      .syncOutput] (chunkedOutput [0, 0, 0] 4 [.ok [0, 0, 0, 0]]) [] :=
  ⟨by decide +kernel, rejected_requests_are_harmless (by decide) (by decide +kernel) (by decide +kernel)⟩

/-- 200 bytes are left when 300 are asked for, which does not fit in a signed byte. What is written then
stays in the small buffer. -/
theorem wide_chunk_is_lost : ¬ ∀ initialWriteArea remaining source n calls, remaining < wordLimit →
    (perform (.ensureSize n) (chunkedOutput initialWriteArea remaining source)).1 =
    .error (.errc .bufferSizeExceeded) →
      EveryStep performOn InBuffer (.ensureSize n :: calls) (chunkedOutput initialWriteArea remaining source) →
        Lossless (.ensureSize n :: calls) (chunkedOutput initialWriteArea remaining source) [] := by
  intro h
  have hlossless := h (List.replicate 200 0) 0 [] 300 [.store 0 [1], .commitWritten 1, .syncOutput] (by decide)
    (by decide +kernel) (by decide +kernel)
  obtain ⟨-, -, rejected, hrejected, -, -, stored, hstored, -, -, taken, htaken, -, hsync, -⟩ := hlossless
  have hbegin := hsync rfl (by decide +kernel)
  have hbyte : taken = [1] := htaken.trans (by decide +kernel)
  rw [show rejected = [] from hrejected, show stored = [] from hstored, hbyte] at hbegin
  revert hbegin
  decide +kernel

end ChunkedOutputStream
end DeepPack
