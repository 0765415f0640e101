import DeepPack.Streams.OwnStorage

/-! The contents of a stream object.

A stream that points into its own storage does to the bytes of its vector what the stream
into growing memory does, which knows no storage. Whether the allocator is asked, and what
it answers, depends on the capacity there is. -/
namespace DeepPack
open Library DynamicMemoryOutputStream

namespace ByteVector
variable {v : ByteVector} {h : Heap UInt8} {elements : List UInt8} {capacity newSize : Nat} {answer : Option Nat}

/-- Elements are added behind those there are. -/
theorem fill_contents (hroom : v.size + elements.length ≤ v.capacity h)
    (hpos : 0 < elements.length) :
    contents ⟨v.storage, v.size + elements.length⟩ (v.fill v.size elements h) = v.contents h ++ elements := by
  obtain ⟨a, hstorage, hblock⟩ := storage_of_capacity (show v.capacity h ≠ 0 by omega)
  obtain ⟨k, hwrite, hwritten, -, -⟩ := Heap.write_spec hblock hroom
  have hfill : v.fill v.size elements h = k := by
    rw [fill, hstorage, Option.bind_some, hwrite, Option.getD_some]
  have hmemory : memory ⟨v.storage, v.size + elements.length⟩ k = overwrite v.size elements (v.memory h) :=
    memory_of_block hstorage hwritten
  have hle : v.size ≤ (v.memory h).length := (Nat.le_add_right _ _).trans hroom
  rw [hfill, contents, hmemory, contents]
  exact overwrite_take elements hle

theorem allocate_contents (hv : v.WellFormed h) :
    (allocate elements capacity h).1.contents (v.release (allocate elements capacity h).2) = elements := by
  have hblock : (v.release (allocate elements capacity h).2).block h.next =
      (allocate elements capacity h).2.block h.next := by
    apply release_frame.block_eq
    · simp [allocate]
    · exact fun hold => absurd (hv.live _ hold) (lt_irrefl _)
  have hmemory : (allocate elements capacity h).1.memory (v.release (allocate elements capacity h).2) =
      elements ++ List.replicate (capacity - elements.length) 0 := by
    show ((v.release (allocate elements capacity h).2).block h.next).getD [] = _
    rw [hblock]
    simp [allocate]
  rw [contents, hmemory]
  exact List.take_left

/-- Resizing a vector resizes its contents, with what the allocator answered if it was asked. -/
theorem resize_contents (hv : v.WellFormed h) (newSize : Nat) (answer : Option Nat) :
    ∃ grants, ∀ rest, DynamicMemoryOutputStream.resize newSize (v.contents h) (grants ++ rest) =
      ((v.resize newSize answer h).map fun r => r.1.contents r.2, rest) := by
  unfold DynamicMemoryOutputStream.resize resize
  rw [contents_length hv]
  by_cases hmax : maxSize < newSize
  · exact ⟨[], fun rest => by simp only [if_pos hmax]; rfl⟩
  simp only [if_neg hmax]
  by_cases hshrink : newSize ≤ v.size
  · refine ⟨[], fun rest => ?_⟩
    simp only [if_pos hshrink]
    have htake : (v.contents h).take newSize = contents ⟨v.storage, newSize⟩ h := by
      rw [contents, contents, List.take_take, Nat.min_eq_left hshrink]
      rfl
    rw [htake]
    rfl
  simp only [if_neg hshrink]
  by_cases hcapacity : newSize ≤ v.capacity h
  · refine ⟨[true], fun rest => ?_⟩
    have hlen : v.size + (List.replicate (newSize - v.size) (0 : UInt8)).length = newSize := by
      rw [List.length_replicate]
      omega
    have hpos : 0 < (List.replicate (newSize - v.size) (0 : UInt8)).length := by omega
    have hfill := fill_contents (hlen.le.trans hcapacity) hpos
    rw [hlen] at hfill
    simp only [if_pos hcapacity, Except.map, hfill]
    rfl
  · simp only [if_neg hcapacity]
    cases answer with
    | none => exact ⟨[false], fun rest => rfl⟩
    | some c =>
      refine ⟨[true], fun rest => ?_⟩
      simp only [Except.map, allocate_contents hv]
      rfl

end ByteVector

namespace StreamObject

/-- The object's vector holds the stream's bytes, and `data()` points to where the room is. -/
structure Shows (o : StreamObject × Heap UInt8) (b : OutputBuffer DynamicMemoryOutputStream) : Prop where
  wellFormed : o.1.WellFormed o.2
  contents : o.1.buffer.contents o.2 = DynamicMemoryOutputStream.buffer b
  size : o.1.size = b.free.length
  offset : o.1.offset = some (DynamicMemoryOutputStream.offset b)

/-- The method does what the stream's function does, which uses up some of the allocator's answers. -/
def Refines (method : Method) (x : Output DynamicMemoryOutputStream Unit) (o : StreamObject × Heap UInt8)
    (b : OutputBuffer DynamicMemoryOutputStream) : Prop :=
  ∃ grants c, (∀ rest, x (answered (grants ++ rest) b) = ((method o).1, answered rest c)) ∧ Shows (method o).2 c

section Refines
variable {o : StreamObject × Heap UInt8} {b : OutputBuffer DynamicMemoryOutputStream} {bytes : List UInt8}
  {n i : Nat} {answer : Option Nat}

theorem Shows.written (hshows : Shows o b) : o.1.written o.2 = DynamicMemoryOutputStream.written b := by
  have hlen : o.1.buffer.size = (DynamicMemoryOutputStream.buffer b).length := by
    rw [← hshows.contents, ByteVector.contents_length hshows.wellFormed.buffer]
  have hsize : o.1.writtenSize = DynamicMemoryOutputStream.writtenSize b := by
    rw [StreamObject.writtenSize, wrapSub_size hshows.wellFormed.size_le hshows.wellFormed.buffer_size_le, hlen,
      hshows.size]
    rfl
  rw [StreamObject.written, hshows.contents, hsize]
  rfl

theorem buffer_overwrite (i : Nat) (bytes : List UInt8) (b : OutputBuffer DynamicMemoryOutputStream) :
    overwrite (DynamicMemoryOutputStream.offset b + i) bytes (DynamicMemoryOutputStream.buffer b) =
      DynamicMemoryOutputStream.buffer (b.put i bytes) := by
  have hlen : DynamicMemoryOutputStream.offset b = (b.derived.front ++ b.behind).length := by
    rw [List.length_append]
    rfl
  rw [hlen, DynamicMemoryOutputStream.buffer, overwrite_append]
  rfl

/-- One method after the other. -/
theorem Refines.bind {first second : Method} {x y : Output DynamicMemoryOutputStream Unit}
    (hfirst : Refines first x o b) (hsecond : ∀ p c, first o = (.ok (), p) → Shows p c → Refines second y p c) :
    Refines (first >>= fun _ => second) (x >>= fun _ => y) o b := by
  obtain ⟨grants, c, hx, hshows⟩ := hfirst
  rcases hrun : first o with ⟨fault | v, p⟩
  · rw [hrun] at hx hshows
    refine ⟨grants, c, fun rest => ?_, ?_⟩
    · rw [Action.bind_error _ hrun, Action.bind_error _ (hx rest)]
    · rw [Action.bind_error _ hrun]
      exact hshows
  · rw [hrun] at hx hshows
    obtain ⟨more, d, hy, hnext⟩ := hsecond p c hrun hshows
    refine ⟨grants ++ more, d, fun rest => ?_, ?_⟩
    · rw [Action.bind_ok _ hrun, List.append_assoc, Action.bind_ok _ (hx (more ++ rest))]
      exact hy rest
    · rw [Action.bind_ok _ hrun]
      exact hnext

theorem refines_commitWritten (hshows : Shows o b) (hn : n ≤ o.1.size) :
    Refines (commitWritten n) (OutputBuffer.commitWritten n) o b := by
  have hn' : n ≤ b.free.length := hshows.size ▸ hn
  have happly : commitWritten n o = (.ok (), (o.1.advance n, o.2)) := commitWritten_apply hn
  refine ⟨[], b.commit n, fun rest => ?_, ?_⟩
  · rw [happly]
    exact OutputBuffer.commitWritten_apply (s := answered rest b) hn'
  · rw [happly]
    refine ⟨hshows.wellFormed.advance hn, ?_, ?_, ?_⟩
    · rw [buffer_commit]
      exact hshows.contents
    · show o.1.size - n = (b.free.drop n).length
      rw [List.length_drop, hshows.size]
    · show (o.1.advance n).offset = _
      rw [hshows.wellFormed.advance_offset hn, hshows.offset]
      show some (_ + n) = some (b.derived.front.length + (b.behind ++ b.free.take n).length)
      rw [List.length_append, List.length_take_of_le hn', ← Nat.add_assoc]
      rfl

theorem refines_store (hshows : Shows o b) (hroom : i + bytes.length ≤ o.1.size) :
    Refines (store i bytes) (OutputBuffer.store i bytes) o b := by
  have hroom' : i + bytes.length ≤ b.free.length := hshows.size ▸ hroom
  obtain ⟨k, hstore, hworks, hmemory⟩ := store_spec hshows.wellFormed hroom
  refine ⟨[], b.put i bytes, fun rest => ?_, ?_⟩
  · rw [hstore]
    exact OutputBuffer.store_apply (s := answered rest b) hroom'
  · rw [hstore]
    refine ⟨hworks.wellFormed, ?_, ?_, ?_⟩
    · have hle := hshows.wellFormed.size_le
      have hcontents := hshows.contents
      have hlen := buffer_length (s := b)
      rw [← hcontents, ByteVector.contents_length hshows.wellFormed.buffer] at hlen
      have hplace : o.1.buffer.size - o.1.size = DynamicMemoryOutputStream.offset b := by
        rw [hshows.size]
        omega
      show ((o.1.buffer.memory k).take o.1.buffer.size) = _
      rw [hmemory, take_overwrite (by omega) hshows.wellFormed.buffer.size_le, hplace]
      show overwrite _ bytes (o.1.buffer.contents o.2) = _
      rw [hcontents]
      exact buffer_overwrite i bytes b
    · exact hshows.size.trans (OutputBuffer.put_length b hroom').symm
    · exact hshows.offset

/-- A stream that was grown within its vector points to where its room is. -/
theorem grown_offset {v : ByteVector} {k : Heap UInt8} {offset size : Nat} (hv : v.WellFormed k)
    (hle : offset ≤ v.size) :
    StreamObject.offset ⟨v.storage.map fun a => (a, offset), size, v⟩ = some offset := by
  cases hstorage : v.storage with
  | none =>
    have hzero := hv.size_eq_zero hstorage
    obtain rfl : offset = 0 := by omega
    simp [StreamObject.offset, hstorage]
  | some a => simp [StreamObject.offset, hstorage]

theorem refines_doGrow {room : Nat} (hshows : Shows o b) (hanswer : ∀ c, answer = some c → c ≤ maxSize)
    (hwithin : o.1.GrowsWithin n room answer o.2) :
    Refines (doGrow n answer) (DynamicMemoryOutputStream.doGrow n) o b := by
  have hbuffer := hshows.wellFormed.buffer
  have hlen : (DynamicMemoryOutputStream.buffer b).length = o.1.buffer.size := by
    rw [← hshows.contents, ByteVector.contents_length hbuffer]
  obtain ⟨offset, hoffset, hroom⟩ := hwithin
  obtain rfl := Option.some.inj (hshows.offset.symm.trans hoffset)
  unfold Refines doGrow DynamicMemoryOutputStream.doGrow
  simp only [answered_buffer, hlen, hoffset]
  cases hsize : bufferSizeFor wordLimit ((o.1.buffer.size + n) % wordLimit) with
  | error fault => exact ⟨[], b, fun rest => rfl, hshows⟩
  | ok newSize =>
    obtain ⟨grants, hresized⟩ := ByteVector.resize_contents hbuffer newSize answer
    rw [hshows.contents] at hresized
    have hresized' : ∀ rest, DynamicMemoryOutputStream.resize newSize (DynamicMemoryOutputStream.buffer b)
        (answered (grants ++ rest) b).derived.grants = _ := hresized
    rcases ByteVector.resize_cases hbuffer hanswer newSize with ⟨⟨e, hresize⟩, -⟩ |
      ⟨hmax, hfits, w, k, hresize, hw, hworks⟩
    · cases e with
      | lengthError | badAlloc =>
        refine ⟨grants, b, fun rest => ?_, ?_⟩
        · simp only [hresized', hresize]
          rfl
        · simp only [hresize]
          exact hshows
    · have hle := hroom newSize hsize hmax hfits
      have hlength : (w.contents k).length = newSize := (ByteVector.contents_length hworks.wellFormed).trans hw
      have hwell := grown_works hworks (show DynamicMemoryOutputStream.offset b ≤ w.size by omega)
      have hshort : ¬ (w.contents k).length < DynamicMemoryOutputStream.offset b := by omega
      refine ⟨grants, ⟨[], (w.contents k).drop (DynamicMemoryOutputStream.offset b),
        ⟨(w.contents k).take (DynamicMemoryOutputStream.offset b), []⟩⟩, fun rest => ?_, ?_⟩
      · simp only [hresized', hresize]
        exact if_neg hshort
      · simp only [hresize]
        refine ⟨hwell.wellFormed, ?_, ?_, ?_⟩
        · simp [DynamicMemoryOutputStream.buffer]
        · show wrapSub 64 w.size (DynamicMemoryOutputStream.offset b) = _
          rw [wrapSub_size (by omega) (hw.le.trans hmax), List.length_drop, hlength, hw]
        · rw [grown_offset hworks.wellFormed (by omega)]
          show _ = some (((w.contents k).take (DynamicMemoryOutputStream.offset b)).length + 0)
          rw [List.length_take_of_le (by omega), Nat.add_zero]

theorem refines_ensureSize (hshows : Shows o b) (hanswer : ∀ c, answer = some c → c ≤ maxSize)
    (hwithin : o.1.size < n → o.1.GrowsWithin n 0 answer o.2) :
    Refines (ensureSize n answer) (OutputBuffer.ensureSize n) o b := by
  by_cases hsize : o.1.size < n
  · have hsize' : b.free.length < n := hshows.size ▸ hsize
    obtain ⟨grants, c, hgrow, hnext⟩ := refines_doGrow hshows hanswer (hwithin hsize)
    have heq : ensureSize n answer o = doGrow n answer o := ensureSize_eq o.2 hsize
    refine ⟨grants, c, fun rest => ?_, heq ▸ hnext⟩
    rw [heq]
    exact (OutputBuffer.ensureSize_grow (s := answered (grants ++ rest) b) hsize').trans (hgrow rest)
  · have hsize' : n ≤ b.free.length := by
      rw [← hshows.size]
      exact Nat.not_lt.mp hsize
    have heq : ensureSize n answer o = (.ok (), o) := ensureSize_enough o.2 hsize
    refine ⟨[], b, fun rest => ?_, heq ▸ hshows⟩
    rw [heq]
    exact OutputBuffer.ensureSize_enough (s := answered rest b) hsize'

/-- So many bytes are stored and committed. -/
theorem refines_stored (rest : Method) (x : Output DynamicMemoryOutputStream Unit) (hshows : Shows o b)
    (hroom : bytes.length ≤ o.1.size)
    (hrest : ∀ k c, Shows (o.1.advance bytes.length, k) c → o.1.buffer.capacity k = o.1.buffer.capacity o.2 →
      Refines rest x (o.1.advance bytes.length, k) c) :
    Refines (do store 0 bytes; commitWritten bytes.length; rest)
      (do OutputBuffer.store 0 bytes; OutputBuffer.commitWritten bytes.length; x) o b := by
  obtain ⟨k, hstore, hworks, hcapacity⟩ := stored_works hshows.wellFormed hroom
  apply (refines_store hshows (show 0 + bytes.length ≤ o.1.size by omega)).bind
  intro p c hp hnext
  obtain rfl : (o.1, k) = p := (Prod.mk.inj (hstore.symm.trans hp)).2
  apply (refines_commitWritten hnext hroom).bind
  intro q d hq hlast
  obtain rfl : (o.1.advance bytes.length, k) = q := (Prod.mk.inj ((commitWritten_apply hroom).symm.trans hq)).2
  exact hrest k d hlast hcapacity

theorem refines_doBulkWrite (hshows : Shows o b) (hanswer : ∀ c, answer = some c → c ≤ maxSize)
    (hwithin : o.1.GrowsWithin bytes.length bytes.length answer o.2) :
    Refines (doBulkWrite bytes answer) (DynamicMemoryOutputStream.doBulkWrite bytes) o b := by
  apply (refines_doGrow hshows hanswer hwithin).bind
  intro p c hp hnext
  have hroom := (doGrow_local hshows.wellFormed hanswer hwithin).2 p.1 p.2 hp
  have hroom' : 0 + bytes.length ≤ p.1.size := by omega
  apply (refines_store hnext hroom').bind
  intro q d hq hlast
  obtain ⟨k, hstore, -⟩ := store_spec hnext.wellFormed hroom'
  obtain rfl : (p.1, k) = q := (Prod.mk.inj (hstore.symm.trans hq)).2
  exact refines_commitWritten hlast hroom

theorem bulkWrite_eq {s : OutputBuffer DynamicMemoryOutputStream} (hpos : bytes.length ≠ 0) :
    OutputBuffer.bulkWrite bytes s = (do
      OutputBuffer.store 0 (bytes.take (min bytes.length s.free.length))
      OutputBuffer.commitWritten (min bytes.length s.free.length)
      if (bytes.drop (min bytes.length s.free.length)).length = 0 then pure ()
      else DynamicMemoryOutputStream.doBulkWrite (bytes.drop (min bytes.length s.free.length))
      : Output DynamicMemoryOutputStream Unit) s := by
  have hlen : (bytes.take (min bytes.length s.free.length)).length = min bytes.length s.free.length :=
    List.length_take_of_le (Nat.min_le_left _ _)
  have hroom : 0 + (bytes.take (min bytes.length s.free.length)).length ≤ s.free.length := by omega
  rw [OutputBuffer.bulkWrite, if_neg hpos, Action.bind_ok _ (OutputBuffer.store_apply hroom),
    Action.bind_ok _ (OutputBuffer.commitWritten_apply (by rw [OutputBuffer.put_length s hroom]; omega))]
  dsimp only
  split <;> rfl

theorem refines_bulkWrite (hshows : Shows o b) (hanswer : ∀ c, answer = some c → c ≤ maxSize)
    (hwithin : o.1.size < bytes.length → o.1.GrowsWithin (bytes.length - o.1.size) bytes.length answer o.2) :
    Refines (bulkWrite bytes answer) (OutputBuffer.bulkWrite bytes) o b := by
  by_cases hpos : bytes.length = 0
  · have heq : bulkWrite bytes answer o = (.ok (), o) := if_pos hpos
    refine ⟨[], b, fun rest => ?_, heq ▸ hshows⟩
    rw [heq, OutputBuffer.bulkWrite]
    exact if_pos hpos
  have hlen : (bytes.take (min bytes.length o.1.size)).length = min bytes.length o.1.size :=
    List.length_take_of_le (Nat.min_le_left _ _)
  have hrefines := refines_stored
    (if (bytes.drop (min bytes.length o.1.size)).length = 0 then pure ()
      else doBulkWrite (bytes.drop (min bytes.length o.1.size)) answer)
    (if (bytes.drop (min bytes.length o.1.size)).length = 0 then pure ()
      else DynamicMemoryOutputStream.doBulkWrite (bytes.drop (min bytes.length o.1.size)))
    hshows (hlen.le.trans (Nat.min_le_right _ _))
  obtain ⟨grants, c, hx, hnext⟩ := hrefines (by
    intro k c hnext hcapacity
    rw [hlen] at hnext ⊢
    by_cases hrest : (bytes.drop (min bytes.length o.1.size)).length = 0
    · simp only [if_pos hrest]
      exact ⟨[], c, fun rest => rfl, hnext⟩
    · simp only [if_neg hrest]
      rw [List.length_drop] at hrest
      have hroom : o.1.size < bytes.length := by omega
      have hmin : min bytes.length o.1.size = o.1.size := Nat.min_eq_right hroom.le
      rw [hmin] at hnext ⊢
      apply refines_doBulkWrite hnext hanswer
      rw [growsWithin_advance hshows.wellFormed hcapacity, List.length_drop, Nat.add_sub_cancel' hroom.le]
      exact hwithin hroom)
  rw [hlen] at hx hnext
  have heq : bulkWrite bytes answer o = _ := if_neg hpos
  refine ⟨grants, c, fun rest => ?_, ?_⟩
  · rw [heq, bulkWrite_eq hpos]
    have hfree : (answered (grants ++ rest) b).free.length = o.1.size := hshows.size.symm
    rw [hfree]
    exact hx rest
  · rw [heq]
    exact hnext

/-! ### Runs -/

/-- The call on the object, with what the allocator will answer. -/
def perform : OutputCall × Option Nat → Method
  | (.ensureSize n, answer) => ensureSize n answer
  | (.store i bytes, _) => store i bytes
  | (.commitWritten n, _) => commitWritten n
  | (.bulkWrite bytes, answer) => bulkWrite bytes answer
  | (.syncOutput, _) => pure ()

def performOn (call : OutputCall × Option Nat) (o : StreamObject × Heap UInt8) : StreamObject × Heap UInt8 :=
  (perform call o).2

/-- What is written fits, and the stream grows within its vector. -/
def Ready : OutputCall × Option Nat → StreamObject × Heap UInt8 → Prop
  | (.ensureSize n, answer), o => (∀ c, answer = some c → c ≤ maxSize) ∧
      (o.1.size < n → o.1.GrowsWithin n 0 answer o.2)
  | (.store i bytes, _), o => i + bytes.length ≤ o.1.size
  | (.commitWritten n, _), o => n ≤ o.1.size
  | (.bulkWrite bytes, answer), o => (∀ c, answer = some c → c ≤ maxSize) ∧
      (o.1.size < bytes.length → o.1.GrowsWithin (bytes.length - o.1.size) bytes.length answer o.2)
  | (.syncOutput, _), _ => True

theorem refines_perform (hshows : Shows o b) (call : OutputCall × Option Nat) (hready : Ready call o) :
    Refines (perform call) (DynamicMemoryOutputStream.perform call.1) o b := by
  obtain ⟨call, answer⟩ := call
  cases call with
  | ensureSize n => exact refines_ensureSize hshows hready.1 hready.2
  | store i bytes => exact refines_store hshows hready
  | commitWritten n => exact refines_commitWritten hshows hready
  | bulkWrite bytes => exact refines_bulkWrite hshows hready.1 hready.2
  | syncOutput => exact ⟨[], b, fun rest => rfl, hshows⟩

/-- A run of calls on an object is one on the stream into growing memory, for some answers of its allocator. -/
theorem shows_run {calls : List (OutputCall × Option Nat)} (hshows : Shows o b)
    (hready : EveryStep performOn Ready calls o) :
    ∃ grants, Shows (runSteps performOn calls o)
      (runSteps DynamicMemoryOutputStream.performOn (calls.map Prod.fst) (answered grants b)) := by
  induction calls generalizing o b with
  | nil => exact ⟨[], hshows.wellFormed, hshows.contents, hshows.size, hshows.offset⟩
  | cons call rest ih =>
    obtain ⟨first, c, hstep, hnext⟩ := refines_perform hshows call hready.1
    obtain ⟨others, hrun⟩ := ih hnext hready.2
    refine ⟨first ++ others, ?_⟩
    rw [List.map_cons, runSteps, runSteps, DynamicMemoryOutputStream.performOn, hstep others]
    exact hrun

theorem shows_ofVector {v : ByteVector} {h : Heap UInt8} (hv : v.WellFormed h) (grants : List Bool) :
    Shows (ofVector v, h) (fromVector (v.contents h) grants) where
  wellFormed := ofVector_wellFormed hv
  contents := by simp [DynamicMemoryOutputStream.buffer, fromVector, ofVector]
  size := (ByteVector.contents_length hv).symm
  offset := by
    show StreamObject.offset ⟨v.data, v.size, v⟩ = some 0
    cases hstorage : v.storage <;> simp [StreamObject.offset, ByteVector.data, hstorage]

/-- What is written in an object over a vector is what the stream into growing memory says. -/
theorem written_run_eq {v : ByteVector} {h : Heap UInt8} {calls : List (OutputCall × Option Nat)}
    (hv : v.WellFormed h) (hready : EveryStep performOn Ready calls (ofVector v, h)) :
    ∃ grants, (runSteps performOn calls (ofVector v, h)).1.written (runSteps performOn calls (ofVector v, h)).2 =
      DynamicMemoryOutputStream.written (runSteps DynamicMemoryOutputStream.performOn (calls.map Prod.fst)
        (fromVector (v.contents h) grants)) := by
  obtain ⟨grants, hshows⟩ := shows_run (shows_ofVector hv []) hready
  exact ⟨grants, hshows.written⟩

end Refines
end StreamObject
end DeepPack
