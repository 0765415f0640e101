import DeepPack.Streams.StreamObjects

/-! Where the pointer of a stream in dynamic memory points.

It points into the stream's own vector as long as a stream with elements is not copied, a
stream with room is not moved from, and a stream that was copied or moved does not grow with
a pointer that it still has from there. -/
namespace DeepPack
open Library DynamicMemoryOutputStream

/-! ### Vectors -/

namespace ByteVector

/-- The elements are in the storage, and no storage is larger than a vector can be. -/
structure WellFormed (v : ByteVector) (h : Heap UInt8) : Prop where
  live : ∀ a, v.storage = some a → a < h.next
  size_le : v.size ≤ v.capacity h
  capacity_le : v.capacity h ≤ maxSize

section Spec
variable {v w : ByteVector} {h k : Heap UInt8} {elements : List UInt8} {capacity newSize first : Nat}
  {answer : Option Nat}

theorem memory_congr (hblock : ∀ a, v.storage = some a → k.block a = h.block a) : v.memory k = v.memory h := by
  rcases v with ⟨storage, size⟩
  cases storage with
  | none => rfl
  | some a => simp [memory, hblock a rfl]

theorem WellFormed.congr (hv : v.WellFormed h) (hnext : h.next ≤ k.next)
    (hblock : ∀ a, v.storage = some a → k.block a = h.block a) : v.WellFormed k where
  live := fun a ha => (hv.live a ha).trans_le hnext
  size_le := by
    rw [ByteVector.capacity, memory_congr hblock]
    exact hv.size_le
  capacity_le := by
    rw [ByteVector.capacity, memory_congr hblock]
    exact hv.capacity_le

theorem empty_storage (a : Nat) : empty.storage ≠ some a := by simp [empty]

theorem WellFormed.resized (hv : v.WellFormed h) (hle : newSize ≤ v.capacity h) :
    WellFormed ⟨v.storage, newSize⟩ h := ⟨hv.live, hle, hv.capacity_le⟩

theorem wellFormed_empty (h : Heap UInt8) : empty.WellFormed h :=
  ⟨fun a ha => absurd ha (empty_storage a), Nat.zero_le _, Nat.zero_le _⟩

theorem memory_of_block {a : Nat} {memory : List UInt8} (hstorage : v.storage = some a)
    (hblock : h.block a = some memory) : v.memory h = memory := by
  rw [ByteVector.memory, hstorage, Option.bind_some, hblock, Option.getD_some]

theorem capacity_of_block {a : Nat} {memory : List UInt8} (hstorage : v.storage = some a)
    (hblock : h.block a = some memory) : v.capacity h = memory.length := by
  rw [ByteVector.capacity, memory_of_block hstorage hblock]

/-- A vector with capacity has storage. -/
theorem storage_of_capacity (hcapacity : v.capacity h ≠ 0) :
    ∃ a, v.storage = some a ∧ h.block a = some (v.memory h) := by
  cases hstorage : v.storage with
  | none =>
    rw [ByteVector.capacity, memory, hstorage] at hcapacity
    exact absurd rfl hcapacity
  | some a =>
    cases hblock : h.block a with
    | none =>
      rw [ByteVector.capacity, memory, hstorage, Option.bind_some, hblock] at hcapacity
      exact absurd rfl hcapacity
    | some memory => exact ⟨a, rfl, by rw [hblock, memory_of_block hstorage hblock]⟩

/-- A vector with elements has storage. -/
theorem WellFormed.storage (hv : v.WellFormed h) (hsize : v.size ≠ 0) :
    ∃ a, v.storage = some a ∧ h.block a = some (v.memory h) := by
  have hle := hv.size_le
  exact storage_of_capacity (by omega)

theorem WellFormed.size_eq_zero (hv : v.WellFormed h) (hstorage : v.storage = none) : v.size = 0 := by
  by_contra hsize
  obtain ⟨a, ha, -⟩ := hv.storage hsize
  exact absurd (hstorage.symm.trans ha) (by simp)

theorem WellFormed.size_le_maxSize (hv : v.WellFormed h) : v.size ≤ maxSize := hv.size_le.trans hv.capacity_le

/-- What an operation on a vector makes of it: the storage it ends with was its own or is new. -/
structure Works (v : ByteVector) (h : Heap UInt8) (w : ByteVector) (k : Heap UInt8) : Prop where
  wellFormed : w.WellFormed k
  frame : h.Frame v.storage k
  storage : ∀ a, w.storage = some a → v.storage = some a ∨ h.next ≤ a

theorem allocate_wellFormed (hsize : elements.length ≤ maxSize) (hcapacity : capacity ≤ maxSize) :
    (allocate elements capacity h).1.WellFormed (allocate elements capacity h).2 := by
  have hmemory : (allocate elements capacity h).1.memory (allocate elements capacity h).2 =
      elements ++ List.replicate (capacity - elements.length) 0 := by
    simp [allocate, memory]
  constructor
  · intro a ha
    obtain rfl : h.next = a := by simpa [allocate] using ha
    simp [allocate]
  · rw [ByteVector.capacity, hmemory, List.length_append]
    exact Nat.le_add_right _ _
  · rw [ByteVector.capacity, hmemory, List.length_append, List.length_replicate]
    omega

theorem release_next : (v.release h).next = h.next := by
  unfold release
  split <;> simp

theorem release_frame : h.Frame v.storage (v.release h) := by
  unfold release
  split
  · rename_i a ha
    rw [ha]
    exact Heap.frame_free a h
  · exact Heap.Frame.refl _ h

/-- Elements in new storage take the place of a vector whose storage is freed. -/
theorem allocate_works (hv : v.WellFormed h) (hsize : elements.length ≤ maxSize)
    (hcapacity : capacity ≤ maxSize) :
    Works v h (allocate elements capacity h).1 (v.release (allocate elements capacity h).2) where
  wellFormed := by
    apply (allocate_wellFormed hsize hcapacity).congr
    · exact release_next.ge
    · intro a ha
      obtain rfl : h.next = a := by simpa [allocate] using ha
      apply release_frame.block_eq
      · simp [allocate]
      · exact fun hold => absurd (hv.live _ hold) (lt_irrefl _)
  frame := by
    apply (Heap.frame_alloc v.storage _ h).trans release_frame
    exact fun a ha => .inl ha
  storage := by
    intro a ha
    obtain rfl : h.next = a := by simpa [allocate] using ha
    exact .inr le_rfl

/-- The storage keeps its place and its size when elements are written in it. -/
theorem fill_spec (hroom : first + elements.length ≤ v.capacity h) :
    v.capacity (v.fill first elements h) = v.capacity h ∧ (v.fill first elements h).next = h.next ∧
      h.Frame v.storage (v.fill first elements h) := by
  cases hstorage : v.storage with
  | none =>
    have hfill : v.fill first elements h = h := by simp [fill, hstorage]
    rw [hfill]
    exact ⟨rfl, rfl, Heap.Frame.refl _ h⟩
  | some a =>
    cases hblock : h.block a with
    | none =>
      have hfill : v.fill first elements h = h := by simp [fill, hstorage, Heap.write, hblock]
      rw [hfill]
      exact ⟨rfl, rfl, Heap.Frame.refl _ h⟩
    | some memory =>
      have hcapacity := capacity_of_block hstorage hblock
      rw [hcapacity] at hroom
      obtain ⟨k, hwrite, hwritten, hnext, hother⟩ := Heap.write_spec hblock hroom
      have hfill : v.fill first elements h = k := by simp [fill, hstorage, hwrite]
      rw [hfill, hcapacity, capacity_of_block hstorage hwritten]
      exact ⟨overwrite_length hroom, hnext, Heap.frame_write hnext hother⟩

theorem fill_works (hv : v.WellFormed h) (hroom : first + elements.length ≤ v.capacity h)
    (hnew : newSize ≤ v.capacity h) : Works v h ⟨v.storage, newSize⟩ (v.fill first elements h) := by
  obtain ⟨hcapacity, hnext, hframe⟩ := fill_spec hroom
  refine ⟨⟨fun a ha => ?_, ?_, ?_⟩, hframe, fun a ha => .inl ha⟩
  · rw [hnext]
    exact hv.live a ha
  · exact hnew.trans hcapacity.ge
  · exact hcapacity.le.trans hv.capacity_le

theorem contents_length (hv : v.WellFormed h) : (v.contents h).length = v.size :=
  List.length_take_of_le hv.size_le

/-- A vector is resized if its new size is one it can have, and there is storage for it. -/
theorem resize_cases (hv : v.WellFormed h) (hanswer : ∀ c, answer = some c → c ≤ maxSize) (newSize : Nat) :
    ((∃ e, v.resize newSize answer h = .error e) ∧
        ¬ (newSize ≤ maxSize ∧ (newSize ≤ v.capacity h ∨ answer.isSome = true))) ∨
      (newSize ≤ maxSize ∧ (newSize ≤ v.capacity h ∨ answer.isSome = true) ∧
        ∃ w k, v.resize newSize answer h = .ok (w, k) ∧ w.size = newSize ∧ Works v h w k) := by
  unfold resize
  by_cases hmax : maxSize < newSize
  · rw [if_pos hmax]
    exact .inl ⟨⟨_, rfl⟩, fun hfits => absurd hfits.1 (Nat.not_le.mpr hmax)⟩
  have hle := Nat.not_lt.mp hmax
  rw [if_neg hmax]
  by_cases hshrink : newSize ≤ v.size
  · rw [if_pos hshrink]
    have hcapacity := hshrink.trans hv.size_le
    have hworks : Works v h ⟨v.storage, newSize⟩ h :=
      ⟨hv.resized hcapacity, Heap.Frame.refl _ h, fun a ha => .inl ha⟩
    exact .inr ⟨hle, .inl hcapacity, _, _, rfl, rfl, hworks⟩
  rw [if_neg hshrink]
  by_cases hcapacity : newSize ≤ v.capacity h
  · dsimp only
    rw [if_pos hcapacity]
    refine .inr ⟨hle, .inl hcapacity, _, _, rfl, rfl, fill_works hv ?_ hcapacity⟩
    rw [List.length_replicate]
    omega
  · dsimp only
    rw [if_neg hcapacity]
    cases answer with
    | none => exact .inl ⟨⟨_, rfl⟩, fun hfits => absurd hfits.2 (by simpa using hcapacity)⟩
    | some c =>
      have hlen : (v.contents h ++ List.replicate (newSize - v.size) 0).length = newSize := by
        rw [List.length_append, contents_length hv, List.length_replicate]
        omega
      refine .inr ⟨hle, .inr rfl, _, _, rfl, hlen, allocate_works hv ?_ (hanswer c rfl)⟩
      rw [hlen]
      exact hle

/-- A vector with elements is copied to new storage, if there is any. -/
theorem copy_cases (hv : v.WellFormed h) (hsize : v.size ≠ 0) (hanswer : ∀ c, answer = some c → c ≤ maxSize) :
    (answer = none ∧ ∃ e, v.copy answer h = .error e) ∨
      ∃ w k, v.copy answer h = .ok (w, k) ∧ w.size = v.size ∧ w.storage = some h.next := by
  unfold copy
  rw [if_neg hsize]
  cases answer with
  | none => exact .inl ⟨rfl, _, rfl⟩
  | some c => exact .inr ⟨_, _, rfl, contents_length hv, rfl⟩

theorem copy_refused (hsize : v.size ≠ 0) : v.copy none h = .error .badAlloc := if_neg hsize

theorem copy_empty (hsize : v.size = 0) : v.copy answer h = .ok (empty, h) := if_pos hsize

/-- An assigned vector has as many elements as the other one, in storage of its own. -/
theorem assign_cases (hw : w.WellFormed h) (hv : v.WellFormed h) (hanswer : ∀ c, answer = some c → c ≤ maxSize) :
    (answer = none ∧ v.capacity h < w.size ∧ ∃ e, assign answer w v h = .error e) ∨
      ¬ (answer = none ∧ v.capacity h < w.size) ∧
        ∃ u k, assign answer w v h = .ok (u, k) ∧ u.size = w.size ∧ Works v h u k := by
  cases answer with
  | none =>
    unfold assign
    by_cases hroom : w.size ≤ v.capacity h
    · dsimp only
      rw [if_pos hroom]
      have hfits : 0 + (w.contents h).length ≤ v.capacity h := by
        rw [contents_length hw]
        omega
      have hnot : ¬ ((none : Option Nat) = none ∧ v.capacity h < w.size) := by
        rintro ⟨-, hshort⟩
        omega
      exact .inr ⟨hnot, _, _, rfl, rfl, fill_works hv hfits hroom⟩
    · dsimp only
      rw [if_neg hroom]
      exact .inl ⟨rfl, Nat.lt_of_not_le hroom, _, rfl⟩
  | some c =>
    refine .inr ⟨fun hrefused => absurd hrefused.1 (by simp), ?_⟩
    by_cases hsize : w.size = 0
    · have hassign : assign (some c) w v h = .ok (empty, v.release h) := by
        simp only [assign, copy_empty hsize]
        rfl
      refine ⟨_, _, hassign, hsize.symm, wellFormed_empty _, release_frame, ?_⟩
      exact fun a ha => absurd ha (empty_storage a)
    · have hassign : assign (some c) w v h =
          .ok ((allocate (w.contents h) c h).1, v.release (allocate (w.contents h) c h).2) := by
        simp only [assign, copy, if_neg hsize]
        rfl
      refine ⟨_, _, hassign, contents_length hw, allocate_works hv ?_ (hanswer c rfl)⟩
      rw [contents_length hw]
      exact hw.size_le_maxSize

/-- A vector that is not one of the objects' yet. -/
theorem ofElements_works (hsize : elements.length ≤ maxSize) (hcapacity : capacity ≤ maxSize) :
    Works empty h (ofElements elements capacity h).1 (ofElements elements capacity h).2 := by
  unfold ofElements
  split
  · exact ⟨wellFormed_empty h, Heap.Frame.refl _ h, fun a ha => .inl ha⟩
  · exact allocate_works (wellFormed_empty h) hsize hcapacity

end Spec
end ByteVector

/-! ### Streams -/

namespace StreamObject

/-- The vector is empty and there is no room, or `data()` is where the room in the stream's own vector begins. -/
def PointsToOwn (s : StreamObject) : Prop :=
  s.buffer.size = 0 ∧ s.size = 0 ∨
    ∃ a, s.buffer.storage = some a ∧ s.data = some (a, s.buffer.size - s.size) ∧ s.size ≤ s.buffer.size

/-- Growing by `n` starts from a pointer into the own vector, and leaves room for so many bytes from the offset
of that pointer on. -/
def GrowsWithin (n room : Nat) (answer : Option Nat) (s : StreamObject) (h : Heap UInt8) : Prop :=
  ∃ offset, s.offset = some offset ∧ ∀ newSize,
    bufferSizeFor wordLimit ((s.buffer.size + n) % wordLimit) = .ok newSize → newSize ≤ maxSize →
    newSize ≤ s.buffer.capacity h ∨ answer.isSome = true → offset + room ≤ newSize

structure WellFormed (s : StreamObject) (h : Heap UInt8) : Prop where
  buffer : s.buffer.WellFormed h
  data_lt : ∀ a i, s.data = some (a, i) → a < h.next ∧ i ≤ maxSize
  own : s.PointsToOwn

/-- What a method makes of a stream. -/
structure Works (s : StreamObject) (h : Heap UInt8) (t : StreamObject) (k : Heap UInt8) : Prop where
  wellFormed : t.WellFormed k
  frame : h.Frame s.buffer.storage k
  storage : ∀ a, t.buffer.storage = some a → s.buffer.storage = some a ∨ h.next ≤ a

/-- The stream behind the next `n` bytes. -/
def advance (n : Nat) (s : StreamObject) : StreamObject :=
  ⟨s.data.map fun p => (p.1, p.2 + n), s.size - n, s.buffer⟩

section Spec
variable {s t u : StreamObject} {h k l : Heap UInt8} {bytes : List UInt8} {n room i offset newSize : Nat}
  {answer : Option Nat} {v : ByteVector}

theorem Works.refl (hs : s.WellFormed h) : Works s h s h := ⟨hs, Heap.Frame.refl _ h, fun _ ha => .inl ha⟩

theorem Works.trans (hfirst : Works s h t k) (hsecond : Works t k u l) : Works s h u l where
  wellFormed := hsecond.wellFormed
  frame := hfirst.frame.trans hsecond.frame hfirst.storage
  storage := by
    intro a ha
    rcases hsecond.storage a ha with hold | hnew
    · exact hfirst.storage a hold
    · exact .inr (hfirst.frame.next_le.trans hnew)

theorem WellFormed.congr (hs : s.WellFormed h) (hnext : h.next ≤ k.next)
    (hblock : ∀ a, s.buffer.storage = some a → k.block a = h.block a) : s.WellFormed k where
  buffer := hs.buffer.congr hnext hblock
  data_lt := fun a i hdata => ⟨(hs.data_lt a i hdata).1.trans_le hnext, (hs.data_lt a i hdata).2⟩
  own := hs.own

theorem written_congr (hblock : ∀ a, s.buffer.storage = some a → k.block a = h.block a) :
    s.written k = s.written h := by
  rw [written, written, ByteVector.contents, ByteVector.contents, ByteVector.memory_congr hblock]

theorem wellFormed_empty (h : Heap UInt8) : empty.WellFormed h :=
  ⟨ByteVector.wellFormed_empty h, fun _ _ hdata => absurd hdata (by simp [empty]), .inl ⟨rfl, rfl⟩⟩

/-- With room there is storage, and `data()` points into it. -/
theorem WellFormed.own_block (hs : s.WellFormed h) (hsize : s.size ≠ 0) :
    ∃ a, s.buffer.storage = some a ∧ s.data = some (a, s.buffer.size - s.size) ∧ s.size ≤ s.buffer.size ∧
      h.block a = some (s.buffer.memory h) := by
  rcases hs.own with ⟨-, hzero⟩ | ⟨a, hstorage, hdata, hle⟩
  · exact absurd hzero hsize
  · obtain ⟨b, hb, hblock⟩ := hs.buffer.storage (show s.buffer.size ≠ 0 by omega)
    obtain rfl : a = b := Option.some.inj (hstorage.symm.trans hb)
    exact ⟨a, hstorage, hdata, hle, hblock⟩

theorem PointsToOwn.size_le (hown : s.PointsToOwn) : s.size ≤ s.buffer.size := by
  rcases hown with ⟨-, hzero⟩ | ⟨-, -, -, hle⟩
  · omega
  · exact hle

theorem WellFormed.size_le (hs : s.WellFormed h) : s.size ≤ s.buffer.size := hs.own.size_le

theorem WellFormed.buffer_size_le (hs : s.WellFormed h) : s.buffer.size ≤ maxSize := hs.buffer.size_le_maxSize

/-- Sizes of vectors are subtracted without a wrap. -/
theorem wrapSub_size {size : Nat} (hle : offset ≤ size) (hmax : size ≤ maxSize) :
    wrapSub 64 size offset = size - offset :=
  wrapSub_of_le hle (hmax.trans_lt (by decide))

/-! ### Writing -/

theorem WellFormed.advance (hs : s.WellFormed h) (hn : n ≤ s.size) : (s.advance n).WellFormed h where
  buffer := hs.buffer
  data_lt := by
    intro a i hdata
    have hmax := hs.buffer_size_le
    obtain ⟨⟨b, j⟩, hp, heq⟩ := Option.map_eq_some_iff.mp hdata
    obtain ⟨rfl, rfl⟩ : b = a ∧ j + n = i := Prod.mk.inj heq
    have hold := hs.data_lt b j hp
    rcases hs.own with ⟨-, hzero⟩ | ⟨c, -, hown, hle⟩
    · exact ⟨hold.1, by omega⟩
    · obtain ⟨-, rfl⟩ : b = c ∧ j = s.buffer.size - s.size := Prod.mk.inj (Option.some.inj (hp.symm.trans hown))
      exact ⟨hold.1, by omega⟩
  own := by
    rcases hs.own with ⟨hempty, hzero⟩ | ⟨a, hstorage, hdata, hle⟩
    · exact .inl ⟨hempty, show s.size - n = 0 by omega⟩
    · refine .inr ⟨a, hstorage, ?_, (Nat.sub_le _ _).trans hle⟩
      have hplace : s.buffer.size - s.size + n = s.buffer.size - (s.size - n) := by omega
      simp only [StreamObject.advance, hdata, Option.map_some, hplace]

theorem Works.advance (hworks : Works s h t k) (hn : n ≤ t.size) : Works s h (t.advance n) k where
  wellFormed := hworks.wellFormed.advance hn
  frame := hworks.frame
  storage := hworks.storage

theorem commitWritten_apply (hn : n ≤ s.size) : commitWritten n (s, h) = (.ok (), (s.advance n, h)) := if_pos hn

/-- What is stored within the room is written in the own vector. -/
theorem store_spec (hs : s.WellFormed h) (hroom : i + bytes.length ≤ s.size) :
    ∃ k, store i bytes (s, h) = (.ok (), (s, k)) ∧ Works s h s k ∧
      s.buffer.memory k = overwrite (s.buffer.size - s.size + i) bytes (s.buffer.memory h) := by
  unfold store
  rw [if_pos hroom]
  by_cases hbytes : bytes = []
  · rw [if_pos hbytes]
    exact ⟨h, rfl, Works.refl hs, by simp [overwrite, hbytes]⟩
  · have hlen : 0 < bytes.length := List.length_pos_iff.mpr hbytes
    obtain ⟨a, hstorage, hdata, hle, hblock⟩ := hs.own_block (show s.size ≠ 0 by omega)
    have hfits : s.buffer.size - s.size + i + bytes.length ≤ (s.buffer.memory h).length := by
      have hmemory : s.buffer.size ≤ (s.buffer.memory h).length := hs.buffer.size_le
      omega
    obtain ⟨k, hwrite, hwritten, hnext, hother⟩ := Heap.write_spec hblock hfits
    have hmemory : s.buffer.memory k = overwrite (s.buffer.size - s.size + i) bytes (s.buffer.memory h) := by
      conv_lhs => rw [ByteVector.memory, hstorage, Option.bind_some, hwritten, Option.getD_some]
    have hcapacity : s.buffer.capacity k = s.buffer.capacity h := by
      rw [ByteVector.capacity, hmemory, overwrite_length hfits, ByteVector.capacity]
    rw [if_neg hbytes]
    refine ⟨k, ?_, ⟨⟨⟨?_, ?_, ?_⟩, ?_, hs.own⟩, ?_, fun a ha => .inl ha⟩, hmemory⟩
    · simp only [hdata, Option.bind_some, hwrite]
    · intro b hb
      rw [hnext]
      exact hs.buffer.live b hb
    · exact hs.buffer.size_le.trans hcapacity.ge
    · exact hcapacity.le.trans hs.buffer.capacity_le
    · intro b j hp
      rw [hnext]
      exact hs.data_lt b j hp
    · rw [hstorage]
      exact Heap.frame_write hnext hother

/-! ### Growing -/

theorem bufferSizeFor_error {rounds required : Nat} {fault : Fault}
    (h : bufferSizeFor rounds required = .error fault) : fault = .running := by
  unfold bufferSizeFor at h
  split at h
  · exact absurd h (by simp)
  · split at h
    · exact absurd h (by simp)
    · exact (Except.error.inj h).symm

/-- What growing comes to. -/
theorem doGrow_cases (hs : s.WellFormed h) (hanswer : ∀ c, answer = some c → c ≤ maxSize) :
    (s.offset = none ∧ doGrow n answer (s, h) = (.error .outOfBounds, (s, h))) ∨
      (∃ offset fault, s.offset = some offset ∧ fault ≠ .outOfBounds ∧
        doGrow n answer (s, h) = (.error fault, (s, h)) ∧
        ∀ newSize, bufferSizeFor wordLimit ((s.buffer.size + n) % wordLimit) = .ok newSize →
          ¬ (newSize ≤ maxSize ∧ (newSize ≤ s.buffer.capacity h ∨ answer.isSome = true))) ∨
      ∃ offset newSize v k, s.offset = some offset ∧
        bufferSizeFor wordLimit ((s.buffer.size + n) % wordLimit) = .ok newSize ∧
        newSize ≤ maxSize ∧ (newSize ≤ s.buffer.capacity h ∨ answer.isSome = true) ∧
        v.size = newSize ∧ ByteVector.Works s.buffer h v k ∧
        doGrow n answer (s, h) =
          (.ok (), (⟨v.storage.map fun a => (a, offset), wrapSub 64 newSize offset, v⟩, k)) := by
  unfold doGrow
  cases hoffset : s.offset with
  | none => exact .inl ⟨rfl, rfl⟩
  | some offset =>
    right
    cases hsize : bufferSizeFor wordLimit ((s.buffer.size + n) % wordLimit) with
    | error fault =>
      left
      obtain rfl := bufferSizeFor_error hsize
      exact ⟨offset, _, rfl, by decide, rfl, fun _ h => absurd h (by simp)⟩
    | ok newSize =>
      rcases ByteVector.resize_cases hs.buffer hanswer newSize with ⟨⟨e, hresize⟩, hnot⟩ |
        ⟨hmax, hfits, v, k, hresize, hv, hworks⟩
      · left
        have hnone : ∀ size, Except.ok (ε := Fault) newSize = .ok size →
            ¬ (size ≤ maxSize ∧ (size ≤ s.buffer.capacity h ∨ answer.isSome = true)) := by
          intro size heq
          obtain rfl := Except.ok.inj heq
          exact hnot
        cases e with
        | lengthError => exact ⟨offset, .terminated, rfl, by decide, by simp only [hresize], hnone⟩
        | badAlloc => exact ⟨offset, .errc .notEnoughMemory, rfl, by decide, by simp only [hresize], hnone⟩
      · right
        refine ⟨offset, newSize, v, k, rfl, rfl, hmax, hfits, hv, hworks, ?_⟩
        simp only [hresize, hv]

/-- A stream that was grown within its vector has room from its old offset on. -/
theorem grown_works (hworks : ByteVector.Works s.buffer h v k) (hle : offset ≤ v.size) :
    Works s h ⟨v.storage.map fun a => (a, offset), wrapSub 64 v.size offset, v⟩ k := by
  have hmax := hworks.wellFormed.size_le_maxSize
  rw [wrapSub_size hle hmax]
  refine ⟨⟨hworks.wellFormed, ?_, ?_⟩, hworks.frame, hworks.storage⟩
  · intro a i hdata
    obtain ⟨b, hb, heq⟩ := Option.map_eq_some_iff.mp hdata
    obtain ⟨rfl, rfl⟩ : b = a ∧ offset = i := Prod.mk.inj heq
    exact ⟨hworks.wellFormed.live b hb, hle.trans hmax⟩
  · cases hstorage : v.storage with
    | none =>
      have hzero := hworks.wellFormed.size_eq_zero hstorage
      exact .inl ⟨hzero, show v.size - offset = 0 by omega⟩
    | some a =>
      refine .inr ⟨a, hstorage, ?_, Nat.sub_le _ _⟩
      show some (a, offset) = some (a, v.size - (v.size - offset))
      rw [Nat.sub_sub_self hle]

theorem WellFormed.offset_le (hs : s.WellFormed h) (hoffset : s.offset = some offset) : offset ≤ maxSize := by
  unfold StreamObject.offset at hoffset
  split at hoffset
  · obtain rfl := Option.some.inj hoffset
    exact Nat.zero_le _
  · rename_i a i b hdata hstorage
    split at hoffset
    · obtain rfl := Option.some.inj hoffset
      exact (hs.data_lt a i hdata).2
    · exact absurd hoffset (by simp)
  · exact absurd hoffset (by simp)

/-- The method does not go out of bounds, and what it leaves points into its own vector. -/
def Safe (method : Method) (s : StreamObject) (h : Heap UInt8) : Prop :=
  (method (s, h)).1 ≠ .error .outOfBounds ∧ (method (s, h)).2.1.PointsToOwn

/-- The method works on the stream's own storage. -/
def Local (method : Method) (s : StreamObject) (h : Heap UInt8) : Prop :=
  (method (s, h)).1 ≠ .error .outOfBounds ∧ Works s h (method (s, h)).2.1 (method (s, h)).2.2

theorem Local.safe {method : Method} (hlocal : Local method s h) : Safe method s h :=
  ⟨hlocal.1, hlocal.2.wellFormed.own⟩

theorem local_ok {method : Method} (happly : method (s, h) = (.ok (), (t, k))) (hworks : Works s h t k) :
    Local method s h := by
  rw [Local, happly]
  exact ⟨by simp, hworks⟩

/-- Growing leaves a stream as it should be, or with room from its old offset on. -/
theorem doGrow_local (hs : s.WellFormed h) (hanswer : ∀ c, answer = some c → c ≤ maxSize)
    (hwithin : s.GrowsWithin n room answer h) :
    Local (doGrow n answer) s h ∧ ∀ t k, doGrow n answer (s, h) = (.ok (), (t, k)) → room ≤ t.size := by
  obtain ⟨offset, hoffset, hroom⟩ := hwithin
  rcases doGrow_cases (n := n) hs hanswer with ⟨hnone, -⟩ | ⟨-, fault, -, hfault, happly, -⟩ |
    ⟨offset', newSize, v, k, hoffset', hsize, hmax, hfits, rfl, hworks, happly⟩
  · rw [hnone] at hoffset
    exact absurd hoffset (by simp)
  · rw [Local, happly]
    exact ⟨⟨fun heq => hfault (Except.error.inj heq), Works.refl hs⟩, fun t k heq => absurd heq (by simp)⟩
  · obtain rfl := Option.some.inj (hoffset.symm.trans hoffset')
    have hle := hroom v.size hsize hmax hfits
    refine ⟨local_ok happly (grown_works hworks (by omega)), ?_⟩
    intro t k heq
    rw [happly] at heq
    obtain rfl : _ = t := congrArg (fun r => r.2.1) heq
    show room ≤ wrapSub 64 v.size offset
    rw [wrapSub_size (by omega) hmax]
    omega

theorem doGrow_safe (hs : s.WellFormed h) (hanswer : ∀ c, answer = some c → c ≤ maxSize)
    (hsafe : Safe (doGrow n answer) s h) : s.GrowsWithin n 0 answer h := by
  rcases doGrow_cases (n := n) hs hanswer with ⟨-, happly⟩ | ⟨offset, -, hoffset, -, -, hnot⟩ |
    ⟨offset, newSize, v, k, hoffset, hsize, hmax, -, rfl, -, happly⟩
  · exact absurd (congrArg Prod.fst happly) hsafe.1
  · exact ⟨offset, hoffset, fun newSize hsize hmax hfits => absurd ⟨hmax, hfits⟩ (hnot newSize hsize)⟩
  · refine ⟨offset, hoffset, fun newSize hsize' _ _ => ?_⟩
    obtain rfl := Except.ok.inj (hsize.symm.trans hsize')
    have hle := hsafe.2.size_le
    rw [happly] at hle
    have hle' : wrapSub 64 v.size offset ≤ v.size := hle
    by_contra hlt
    rw [wrapSub_of_lt (by omega)] at hle'
    have hoffset_le := hs.offset_le hoffset
    have hword : maxSize < 2 ^ 64 := by decide
    omega

theorem ensureSize_eq (h : Heap UInt8) (hsize : s.size < n) :
    ensureSize n answer (s, h) = doGrow n answer (s, h) := if_pos hsize

theorem ensureSize_enough (h : Heap UInt8) (hsize : ¬ s.size < n) :
    ensureSize n answer (s, h) = (.ok (), (s, h)) :=
  if_neg hsize

theorem ensureSize_local (hs : s.WellFormed h) (hanswer : ∀ c, answer = some c → c ≤ maxSize)
    (hwithin : s.size < n → s.GrowsWithin n 0 answer h) : Local (ensureSize n answer) s h := by
  by_cases hsize : s.size < n
  · rw [Local, ensureSize_eq h hsize]
    exact (doGrow_local hs hanswer (hwithin hsize)).1
  · exact local_ok (ensureSize_enough h hsize) (Works.refl hs)

theorem ensureSize_safe (hs : s.WellFormed h) (hanswer : ∀ c, answer = some c → c ≤ maxSize)
    (hsafe : Safe (ensureSize n answer) s h) (hsize : s.size < n) : s.GrowsWithin n 0 answer h := by
  rw [Safe, ensureSize_eq h hsize] at hsafe
  exact doGrow_safe hs hanswer hsafe

/-! ### Bulk writes -/

/-- The bytes are stored where `data()` points, or the store is out of bounds. -/
theorem store_cases (t : StreamObject) (k : Heap UInt8) (bytes : List UInt8) :
    (store 0 bytes (t, k)).1 = .error .outOfBounds ∨
      ∃ l, store 0 bytes (t, k) = (.ok (), (t, l)) ∧ bytes.length ≤ t.size ∧
        (bytes ≠ [] → ∃ a i memory, t.data = some (a, i) ∧ k.block a = some memory ∧
          i + bytes.length ≤ memory.length) := by
  unfold store
  by_cases hroom : 0 + bytes.length ≤ t.size
  · rw [if_pos hroom]
    rw [Nat.zero_add] at hroom
    by_cases hbytes : bytes = []
    · rw [if_pos hbytes]
      exact .inr ⟨k, rfl, hroom, fun hne => absurd hbytes hne⟩
    · rw [if_neg hbytes]
      cases hdata : t.data with
      | none => exact .inl rfl
      | some p =>
        cases hblock : k.block p.1 with
        | none => exact .inl (by simp [Heap.write, hblock])
        | some memory =>
          by_cases hfits : p.2 + bytes.length ≤ memory.length
          · obtain ⟨l, hwrite, -⟩ := Heap.write_spec hblock hfits
            refine .inr ⟨l, ?_, hroom, fun _ => ⟨p.1, p.2, memory, rfl, hblock, hfits⟩⟩
            simp only [Option.bind_some, Nat.add_zero, hwrite]
          · have hwrite := Heap.write_eq_none hblock (Nat.lt_of_not_le hfits)
            exact .inl (by simp [hwrite])
  · rw [if_neg hroom]
    exact .inl rfl

/-- A bulk write that grows needs room for all its bytes behind the old offset. -/
theorem doBulkWrite_local (hs : s.WellFormed h) (hanswer : ∀ c, answer = some c → c ≤ maxSize)
    (hwithin : s.GrowsWithin bytes.length bytes.length answer h) : Local (doBulkWrite bytes answer) s h := by
  obtain ⟨hgrow, hroom⟩ := doGrow_local hs hanswer hwithin
  rcases happly : doGrow bytes.length answer (s, h) with ⟨fault | v, t, k⟩
  · rw [Local, doBulkWrite, Action.bind_error _ happly]
    rw [Local, happly] at hgrow
    exact ⟨fun heq => hgrow.1 (congrArg Except.error (Except.error.inj heq)), hgrow.2⟩
  · have hworks : Works s h t k := by
      rw [Local, happly] at hgrow
      exact hgrow.2
    have hfits : bytes.length ≤ t.size := hroom t k happly
    have hplace : 0 + bytes.length ≤ t.size := by omega
    obtain ⟨l, hstore, hstored, -⟩ := store_spec hworks.wellFormed hplace
    have hwhole : doBulkWrite bytes answer (s, h) = (.ok (), (t.advance bytes.length, l)) := by
      rw [doBulkWrite, Action.bind_ok _ happly, Action.bind_ok _ hstore]
      exact commitWritten_apply hfits
    exact local_ok hwhole ((hworks.trans hstored).advance hfits)

theorem doBulkWrite_safe (hs : s.WellFormed h) (hanswer : ∀ c, answer = some c → c ≤ maxSize)
    (hsafe : Safe (doBulkWrite bytes answer) s h) : s.GrowsWithin bytes.length bytes.length answer h := by
  rcases doGrow_cases (n := bytes.length) hs hanswer with ⟨-, happly⟩ | ⟨offset, -, hoffset, -, -, hnot⟩ |
    ⟨offset, newSize, v, k, hoffset, hsize, hmax, -, rfl, hworks, happly⟩
  · rw [Safe, doBulkWrite, Action.bind_error _ happly] at hsafe
    exact absurd rfl hsafe.1
  · exact ⟨offset, hoffset, fun newSize hsize hmax hfits => absurd ⟨hmax, hfits⟩ (hnot newSize hsize)⟩
  · refine ⟨offset, hoffset, fun newSize hsize' _ _ => ?_⟩
    obtain rfl := Except.ok.inj (hsize.symm.trans hsize')
    have hoffset_le := hs.offset_le hoffset
    have hword : maxSize < 2 ^ 64 := by decide
    rw [Safe, doBulkWrite, Action.bind_ok _ happly] at hsafe
    rcases store_cases ⟨v.storage.map fun a => (a, offset), wrapSub 64 v.size offset, v⟩ k bytes with hout |
      ⟨l, hstore, hroom, hplace⟩
    · rw [Action.bind_error _ (Prod.ext hout rfl)] at hsafe
      exact absurd rfl hsafe.1
    · rw [Action.bind_ok _ hstore, commitWritten_apply hroom] at hsafe
      have hle : wrapSub 64 v.size offset - bytes.length ≤ v.size := hsafe.2.size_le
      have hroom' : bytes.length ≤ wrapSub 64 v.size offset := hroom
      by_contra hlt
      by_cases hwrap : v.size < offset
      · rw [wrapSub_of_lt hwrap] at hle hroom'
        have hlong : bytes ≠ [] := by
          rintro rfl
          simp only [List.length_nil] at hle
          omega
        -- the bytes would end behind the largest address
        obtain ⟨a, i, memory, hdata, hblock, hfits⟩ := hplace hlong
        obtain ⟨b, hb, heq⟩ := Option.map_eq_some_iff.mp hdata
        obtain ⟨rfl, rfl⟩ : b = a ∧ offset = i := Prod.mk.inj heq
        have hcapacity := ByteVector.capacity_of_block hb hblock
        have hcapacity_le := hworks.wellFormed.capacity_le
        omega
      · rw [wrapSub_size (Nat.not_lt.mp hwrap) hmax] at hroom'
        omega

theorem WellFormed.advance_offset (hs : s.WellFormed h) (hn : n ≤ s.size) :
    (s.advance n).offset = s.offset.map (· + n) := by
  cases hdata : s.data with
  | none =>
    have hzero : n = 0 := by
      by_contra hpos
      obtain ⟨a, -, hown, -⟩ := hs.own_block (show s.size ≠ 0 by omega)
      rw [hdata] at hown
      exact absurd hown (by simp)
    cases hstorage : s.buffer.storage <;> simp [StreamObject.offset, StreamObject.advance, hdata, hstorage, hzero]
  | some p =>
    cases hstorage : s.buffer.storage with
    | none => simp [StreamObject.offset, StreamObject.advance, hdata, hstorage]
    | some b => by_cases heq : p.1 = b <;> simp [StreamObject.offset, StreamObject.advance, hdata, hstorage, heq]

/-- Growing from behind the room is growing with the room counted. -/
theorem growsWithin_advance (hs : s.WellFormed h) (hcapacity : s.buffer.capacity k = s.buffer.capacity h) :
    (s.advance s.size).GrowsWithin n room answer k ↔ s.GrowsWithin n (s.size + room) answer h := by
  have hoffset := hs.advance_offset le_rfl
  unfold GrowsWithin
  rw [hoffset]
  constructor
  · rintro ⟨offset, hmap, hroom⟩
    obtain ⟨first, hfirst, rfl⟩ := Option.map_eq_some_iff.mp hmap
    refine ⟨first, hfirst, fun newSize hsize hmax hfits => ?_⟩
    have hle := hroom newSize hsize hmax (hcapacity ▸ hfits)
    omega
  · rintro ⟨offset, hfirst, hroom⟩
    refine ⟨offset + s.size, by rw [hfirst]; rfl, fun newSize hsize hmax hfits => ?_⟩
    have hle := hroom newSize hsize hmax (hcapacity ▸ hfits)
    omega

/-- So many bytes are stored and committed. -/
theorem stored_works (hs : s.WellFormed h) (hroom : bytes.length ≤ s.size) :
    ∃ k, store 0 bytes (s, h) = (.ok (), (s, k)) ∧ Works s h (s.advance bytes.length) k ∧
      s.buffer.capacity k = s.buffer.capacity h := by
  obtain ⟨k, hstore, hworks, hmemory⟩ := store_spec (i := 0) hs (show 0 + bytes.length ≤ s.size by omega)
  have hcapacity : s.buffer.capacity k = s.buffer.capacity h := by
    rw [ByteVector.capacity, hmemory, overwrite_length, ByteVector.capacity]
    have hle := hs.size_le
    have hmemory : s.buffer.size ≤ (s.buffer.memory h).length := hs.buffer.size_le
    omega
  exact ⟨k, hstore, hworks.advance hroom, hcapacity⟩

theorem bulkWrite_enough (hs : s.WellFormed h) (hroom : bytes.length ≤ s.size) :
    Local (bulkWrite bytes answer) s h := by
  by_cases hzero : bytes.length = 0
  · exact local_ok (if_pos hzero) (Works.refl hs)
  · obtain ⟨k, hstore, hworks, -⟩ := stored_works hs hroom
    apply local_ok _ hworks
    rw [bulkWrite, if_neg hzero, Nat.min_eq_left hroom]
    dsimp only
    rw [List.take_length, List.drop_length, Action.bind_ok _ hstore, Action.bind_ok _ (commitWritten_apply hroom)]
    rfl

/-- A bulk write that does not fit fills the room and grows. -/
theorem bulkWrite_grow (hs : s.WellFormed h) (hroom : s.size < bytes.length) (answer : Option Nat) :
    ∃ k, Works s h (s.advance s.size) k ∧ s.buffer.capacity k = s.buffer.capacity h ∧
      bulkWrite bytes answer (s, h) = doBulkWrite (bytes.drop s.size) answer (s.advance s.size, k) := by
  have hlen : (bytes.take s.size).length = s.size := List.length_take_of_le hroom.le
  obtain ⟨k, hstore, hworks, hcapacity⟩ := stored_works hs hlen.le
  rw [hlen] at hworks
  refine ⟨k, hworks, hcapacity, ?_⟩
  rw [bulkWrite, if_neg (by omega), Nat.min_eq_right hroom.le]
  dsimp only
  rw [Action.bind_ok _ hstore, Action.bind_ok _ (commitWritten_apply le_rfl), if_neg]
  rw [List.length_drop]
  omega

theorem bulkWrite_local (hs : s.WellFormed h) (hanswer : ∀ c, answer = some c → c ≤ maxSize)
    (hwithin : s.size < bytes.length → s.GrowsWithin (bytes.length - s.size) bytes.length answer h) :
    Local (bulkWrite bytes answer) s h := by
  by_cases hroom : s.size < bytes.length
  · obtain ⟨k, hworks, hcapacity, hgrow⟩ := bulkWrite_grow hs hroom answer
    have hrest :
        (s.advance s.size).GrowsWithin (bytes.drop s.size).length (bytes.drop s.size).length answer k := by
      rw [growsWithin_advance hs hcapacity, List.length_drop, Nat.add_sub_cancel' hroom.le]
      exact hwithin hroom
    have hlocal := doBulkWrite_local hworks.wellFormed hanswer hrest
    rw [Local, hgrow]
    exact ⟨hlocal.1, hworks.trans hlocal.2⟩
  · exact bulkWrite_enough hs (Nat.not_lt.mp hroom)

theorem bulkWrite_safe (hs : s.WellFormed h) (hanswer : ∀ c, answer = some c → c ≤ maxSize)
    (hsafe : Safe (bulkWrite bytes answer) s h) (hroom : s.size < bytes.length) :
    s.GrowsWithin (bytes.length - s.size) bytes.length answer h := by
  obtain ⟨k, hworks, hcapacity, hgrow⟩ := bulkWrite_grow hs hroom answer
  rw [Safe, hgrow] at hsafe
  have hrest := doBulkWrite_safe hworks.wellFormed hanswer hsafe
  rw [growsWithin_advance hs hcapacity, List.length_drop, Nat.add_sub_cancel' hroom.le] at hrest
  exact hrest

/-! ### Handing the vector out -/

theorem handOver_apply (hle : newSize ≤ s.buffer.size) (hmax : newSize ≤ maxSize) :
    handOver newSize answer (s, h) = (.ok ⟨s.buffer.storage, newSize⟩, (empty, h)) := by
  have hresize : s.buffer.resize newSize answer h = .ok (⟨s.buffer.storage, newSize⟩, h) := by
    rw [ByteVector.resize, if_neg (Nat.not_lt.mpr hmax), if_pos hle]
  simp only [handOver, hresize]

theorem extract_local (hs : s.WellFormed h) (answer : Option Nat) :
    Local (extract answer >>= fun _ => pure ()) s h := by
  have hle := hs.size_le
  have hmax := hs.buffer_size_le
  have hwritten : s.writtenSize = s.buffer.size - s.size := wrapSub_size hle hmax
  have hshrink : s.writtenSize ≤ s.buffer.size := hwritten ▸ Nat.sub_le _ _
  have happly : extract answer (s, h) = (.ok ⟨s.buffer.storage, s.writtenSize⟩, (empty, h)) :=
    handOver_apply hshrink (hshrink.trans hmax)
  have hwhole : (extract answer >>= fun _ => pure () : Method) (s, h) = (.ok (), (empty, h)) := by
    rw [Action.bind_ok _ happly]
    rfl
  apply local_ok hwhole
  exact ⟨wellFormed_empty h, Heap.Frame.refl _ h, fun a ha => absurd ha (ByteVector.empty_storage a)⟩

/-! ### Copying and moving -/

theorem ofVector_wellFormed (hv : v.WellFormed h) : (ofVector v).WellFormed h where
  buffer := hv
  data_lt := by
    intro a i hdata
    obtain ⟨b, hb, heq⟩ := Option.map_eq_some_iff.mp hdata
    obtain ⟨rfl, rfl⟩ : b = a ∧ 0 = i := Prod.mk.inj heq
    exact ⟨hv.live b hb, Nat.zero_le _⟩
  own := by
    by_cases hsize : v.size = 0
    · exact .inl ⟨hsize, hsize⟩
    · obtain ⟨a, ha, -⟩ := hv.storage hsize
      refine .inr ⟨a, ha, ?_, le_rfl⟩
      simp [ofVector, ByteVector.data, ha]

/-- A pointer from elsewhere does no harm to a stream without elements and without room. -/
theorem WellFormed.without_room (ht : t.WellFormed h) (hnext : h.next ≤ k.next) (hroom : t.size = 0)
    (hv : v.WellFormed k) (hempty : v.size = 0) : WellFormed ⟨t.data, t.size, v⟩ k where
  buffer := hv
  data_lt := fun a i hdata => ⟨(ht.data_lt a i hdata).1.trans_le hnext, (ht.data_lt a i hdata).2⟩
  own := .inl ⟨hempty, hroom⟩

/-- The pointer of a stream with elements makes no other vector's stream point into its own. -/
theorem WellFormed.not_own (ht : t.WellFormed h) (hsize : t.buffer.size ≠ 0) (hv : v.storage ≠ t.buffer.storage)
    (hown : PointsToOwn ⟨t.data, t.size, v⟩) : v.size = 0 ∧ t.size = 0 := by
  rcases hown with hnone | ⟨a, hstorage, hdata, -⟩
  · exact hnone
  · rcases ht.own with ⟨hempty, -⟩ | ⟨b, hb, hown, -⟩
    · exact absurd hempty hsize
    · obtain ⟨rfl, -⟩ : b = a ∧ _ := Prod.mk.inj (Option.some.inj (hown.symm.trans hdata))
      exact absurd (hstorage.trans hb.symm) hv

end Spec
end StreamObject

/-! ### Objects -/

/-- The streams that the call is about to change. -/
def ObjectCall.changed {ι : Type} : ObjectCall ι → List ι
  | .moveConstruct x source | .moveAssign x source => [x, source]
  | .construct x | .constructFrom x _ _ | .ensureSize x _ _ | .store x _ _ | .commitWritten x _ | .bulkWrite x _ _
  | .extract x _ | .copyConstruct x _ _ | .copyAssign x _ _ | .destroy x => [x]

namespace Objects

section Owner
variable {ι : Type} {w : Objects ι} {x : ι} {s : StreamObject}

/-- The storage of the vector of this stream. -/
def owner (w : Objects ι) (x : ι) : Option Nat := (w.streams x).bind fun s => s.buffer.storage

structure WellFormed (w : Objects ι) : Prop where
  streams : ∀ x s, w.streams x = some s → s.WellFormed w.heap
  owned : Heap.Owned w.owner w.heap

theorem start_wellFormed : (start : Objects ι).WellFormed where
  streams := fun x s hx => absurd hx (by simp [start])
  owned := ⟨fun x a ha => absurd ha (by simp [start, owner]), fun x y a hx => absurd hx (by simp [start, owner])⟩

theorem owner_of (hx : w.streams x = some s) : w.owner x = s.buffer.storage := by
  rw [owner, hx, Option.bind_some]

theorem owner_none (hx : w.streams x = none) : w.owner x = none := by rw [owner, hx, Option.bind_none]

theorem release_frame (hx : w.streams x = some s) : w.heap.Frame (w.owner x) (s.buffer.release w.heap) := by
  rw [owner_of hx]
  exact ByteVector.release_frame

/-- Storage that is this stream's, or new, is no other one's. -/
theorem WellFormed.not_owner (hw : w.WellFormed) {a : Nat} {y : ι} (ha : w.owner x = some a ∨ w.heap.next ≤ a)
    (hy : y ≠ x) : w.owner y ≠ some a := by
  intro howner
  rcases ha with hold | hnew
  · exact hy (hw.owned.unique y x a howner hold)
  · exact absurd (hw.owned.lt_next y a howner) (Nat.not_lt.mpr hnew)

end Owner

variable {ι : Type} [DecidableEq ι]

/-- No storage is larger than a vector can be. -/
def Answers (answer : Option Nat) : Prop := ∀ c, answer = some c → c ≤ maxSize

/-- What is constructed is not there yet, what is called upon is, and nothing is written past the room. -/
def Permitted : ObjectCall ι → Objects ι → Prop
  | .construct x, w => w.streams x = none
  | .constructFrom x elements capacity, w =>
    w.streams x = none ∧ elements.length ≤ maxSize ∧ capacity ≤ maxSize
  | .ensureSize x n answer, w => (∃ s, w.streams x = some s) ∧ n ≤ sizeMax ∧ Answers answer
  | .store x i bytes, w => ∃ s, w.streams x = some s ∧ i + bytes.length ≤ s.size
  | .commitWritten x n, w => ∃ s, w.streams x = some s ∧ n ≤ s.size
  | .bulkWrite x bytes answer, w => (∃ s, w.streams x = some s) ∧ bytes.length ≤ sizeMax ∧ Answers answer
  | .extract x answer, w => (∃ s, w.streams x = some s) ∧ Answers answer
  | .copyConstruct x source answer, w => w.streams x = none ∧ (∃ t, w.streams source = some t) ∧ Answers answer
  | .moveConstruct x source, w => w.streams x = none ∧ ∃ t, w.streams source = some t
  | .copyAssign x source answer, w =>
    (∃ s, w.streams x = some s) ∧ (∃ t, w.streams source = some t) ∧ Answers answer
  | .moveAssign x source, w => (∃ s, w.streams x = some s) ∧ ∃ t, w.streams source = some t
  | .destroy x, w => ∃ s, w.streams x = some s

/-- A stream is copied while its vector is empty, or in vain, it is moved from while it has no room, and it
grows from a pointer into its own vector to a size that is not before that. -/
def Careful : ObjectCall ι → Objects ι → Prop
  | .ensureSize x n answer, w => ∀ s, w.streams x = some s → s.size < n → s.GrowsWithin n 0 answer w.heap
  | .bulkWrite x bytes answer, w => ∀ s, w.streams x = some s → s.size < bytes.length →
      s.GrowsWithin (bytes.length - s.size) bytes.length answer w.heap
  | .copyConstruct _ source answer, w => ∀ t, w.streams source = some t → t.buffer.size = 0 ∨ answer = none
  | .copyAssign x source answer, w => x = source ∨ ∀ s t, w.streams x = some s → w.streams source = some t →
      t.buffer.size = 0 ∨ (answer = none ∧ s.buffer.capacity w.heap < t.buffer.size) ∧ s.buffer.size = 0 ∧ t.size = 0
  | .moveConstruct _ source, w | .moveAssign _ source, w => ∀ t, w.streams source = some t → t.size = 0
  | _, _ => True

/-- After the call every stream points into its own storage, and what is written in the streams that the call
is not about is the same. -/
structure Kept (call : ObjectCall ι) (w : Objects ι) : Prop where
  defined : (perform call w).1 ≠ .error .outOfBounds
  own : ∀ x s, (performOn call w).streams x = some s → s.PointsToOwn
  others : ∀ x, x ∉ call.changed → (performOn call w).written x = w.written x

section Run
variable {w : Objects ι} {x source : ι} {s t : StreamObject} {o : Option StreamObject} {k : Heap UInt8}
  {method : StreamObject.Method} {call : ObjectCall ι} {calls : List (ObjectCall ι)}

theorem owner_set : (w.set x o k).owner = Function.update w.owner x (o.bind fun s => s.buffer.storage) := by
  funext y
  by_cases hy : y = x
  · subst hy
    simp [owner, set]
  · simp [owner, set, hy]

@[simp] theorem set_streams_self : (w.set x o k).streams x = o := by simp [set]

theorem set_streams_of_ne {y : ι} (hy : y ≠ x) : (w.set x o k).streams y = w.streams y := by simp [set, hy]

@[simp] theorem set_heap : (w.set x o k).heap = k := rfl

theorem written_set_of_ne {y : ι} (hy : y ≠ x)
    (hsame : ∀ s, w.streams y = some s → s.written k = s.written w.heap) :
    (w.set x o k).written y = w.written y := by
  show ((w.set x o k).streams y).map (fun s => s.written k) = (w.streams y).map fun s => s.written w.heap
  rw [set_streams_of_ne hy]
  exact Option.map_congr hsame

/-- One stream is replaced, with storage that no other one has. -/
theorem WellFormed.set (hw : w.WellFormed) (hframe : w.heap.Frame (w.owner x) k)
    (hs : ∀ t, o = some t → t.WellFormed k)
    (hnobody : ∀ t a, o = some t → t.buffer.storage = some a → ∀ y, y ≠ x → w.owner y ≠ some a) :
    (w.set x o k).WellFormed ∧ ∀ y, y ≠ x → (w.set x o k).written y = w.written y := by
  have hblock : ∀ y s a, y ≠ x → w.streams y = some s → s.buffer.storage = some a →
      k.block a = w.heap.block a := by
    intro y s a hy hs ha
    exact hw.owned.block_eq hframe hy ((owner_of hs).trans ha)
  refine ⟨⟨?_, ?_⟩, ?_⟩
  · intro y s hy
    by_cases hyx : y = x
    · subst hyx
      exact hs s (by simpa using hy)
    · rw [set_streams_of_ne hyx] at hy
      exact (hw.streams y s hy).congr hframe.next_le fun a ha => hblock y s a hyx hy ha
  · rw [owner_set]
    apply hw.owned.update hframe.next_le
    · intro a ha
      obtain ⟨t, ht, hstorage⟩ := Option.bind_eq_some_iff.mp ha
      exact (hs t ht).buffer.live a hstorage
    · intro a ha
      obtain ⟨t, ht, hstorage⟩ := Option.bind_eq_some_iff.mp ha
      exact hnobody t a ht hstorage
  · intro y hy
    exact written_set_of_ne hy fun s hs => StreamObject.written_congr fun a ha => hblock y s a hy hs ha

theorem WellFormed.put (hw : w.WellFormed) (hframe : w.heap.Frame (w.owner x) k) (ht : t.WellFormed k)
    (hnobody : ∀ a, t.buffer.storage = some a → ∀ y, y ≠ x → w.owner y ≠ some a) :
    (w.set x (some t) k).WellFormed ∧ ∀ y, y ≠ x → (w.set x (some t) k).written y = w.written y := by
  apply hw.set hframe
  · intro u hu
    obtain rfl := Option.some.inj hu
    exact ht
  · intro u a hu
    obtain rfl := Option.some.inj hu
    exact hnobody a

/-- A stream is gone, and its storage with it. -/
theorem WellFormed.remove (hw : w.WellFormed) (hx : w.streams x = some s) :
    (w.set x none (s.buffer.release w.heap)).WellFormed ∧
      ∀ y, y ≠ x → (w.set x none (s.buffer.release w.heap)).written y = w.written y := by
  apply hw.set (release_frame hx)
  · exact fun t ht => absurd ht (by simp)
  · exact fun t a ht => absurd ht (by simp)

/-- The state after a call, and what the call does to the others. -/
def Sound (call : ObjectCall ι) (w : Objects ι) : Prop :=
  (perform call w).1 ≠ .error .outOfBounds ∧ (performOn call w).WellFormed ∧
    ∀ y, y ∉ call.changed → (performOn call w).written y = w.written y

theorem Sound.kept (hsound : Sound call w) : Kept call w where
  defined := hsound.1
  own := fun x s hx => (hsound.2.1.streams x s hx).own
  others := hsound.2.2

theorem on_apply (method : StreamObject.Method) (hx : w.streams x = some s) : on x method w =
    ((method (s, w.heap)).1, w.set x (some (method (s, w.heap)).2.1) (method (s, w.heap)).2.2) := by
  simp only [on, hx]

/-- A method that works on its stream's own storage. -/
theorem WellFormed.on (hw : w.WellFormed) (hx : w.streams x = some s) (hlocal : s.Local method w.heap) :
    (on x method w).1 ≠ .error .outOfBounds ∧ (on x method w).2.WellFormed ∧
      ∀ y, y ≠ x → (on x method w).2.written y = w.written y := by
  obtain ⟨hdefined, hworks⟩ := hlocal
  rw [on_apply method hx]
  refine ⟨hdefined, hw.put ?_ hworks.wellFormed fun a ha y hy => hw.not_owner ?_ hy⟩
  · rw [owner_of hx]
    exact hworks.frame
  · rw [owner_of hx]
    exact hworks.storage a ha

/-- What a method is safe for shows in the stream that it leaves. -/
theorem Kept.safe (hx : w.streams x = some s) (hperform : perform call = on x method) (hkept : Kept call w) :
    s.Safe method w.heap := by
  have hdefined := hkept.defined
  have hown := hkept.own x (method (s, w.heap)).2.1
  rw [performOn, hperform, on_apply method hx] at hown
  rw [hperform, on_apply method hx] at hdefined
  exact ⟨hdefined, hown set_streams_self⟩

theorem sound_on (hw : w.WellFormed) (hx : w.streams x = some s) (hperform : perform call = on x method)
    (hchanged : call.changed = [x]) (hlocal : s.Local method w.heap) : Sound call w := by
  obtain ⟨hdefined, hnext, hothers⟩ := hw.on hx hlocal
  rw [Sound, performOn, hperform, hchanged]
  exact ⟨hdefined, hnext, fun y hy => hothers y (by simpa using hy)⟩

/-! ### Construction -/

/-- A call that puts a stream in the place of one, with its storage or with new storage. -/
theorem sound_put {r : Except Fault Unit} (hw : w.WellFormed) (hperform : perform call w = (r, w.set x (some t) k))
    (hr : r ≠ .error .outOfBounds) (hchanged : call.changed = [x]) (hframe : w.heap.Frame (w.owner x) k)
    (ht : t.WellFormed k) (hstorage : ∀ a, t.buffer.storage = some a → w.owner x = some a ∨ w.heap.next ≤ a) :
    Sound call w := by
  have hput := hw.put hframe ht fun a ha y hy => hw.not_owner (hstorage a ha) hy
  rw [Sound, performOn, hperform, hchanged]
  exact ⟨hr, hput.1, fun y hy => hput.2 y (by simpa using hy)⟩

/-- A call that leaves everything as it is. -/
theorem sound_unchanged {r : Except Fault Unit} (hw : w.WellFormed) (hperform : perform call w = (r, w))
    (hr : r ≠ .error .outOfBounds) : Sound call w := by
  rw [Sound, performOn, hperform]
  exact ⟨hr, hw, fun _ _ => rfl⟩

theorem sound_construct (hw : w.WellFormed) : Sound (.construct x) w := by
  apply sound_put (x := x) hw rfl (by simp) rfl (Heap.Frame.refl _ w.heap) (StreamObject.wellFormed_empty w.heap)
  exact fun a ha => absurd ha (ByteVector.empty_storage a)

theorem sound_constructFrom {elements : List UInt8} {capacity : Nat} (hw : w.WellFormed) (hx : w.streams x = none)
    (hsize : elements.length ≤ maxSize) (hcapacity : capacity ≤ maxSize) :
    Sound (.constructFrom x elements capacity) w := by
  have hworks := ByteVector.ofElements_works (h := w.heap) hsize hcapacity
  apply sound_put (x := x) hw rfl (by simp) rfl
  · rw [owner_none hx]
    exact hworks.frame
  · exact StreamObject.ofVector_wellFormed hworks.wellFormed
  · intro a ha
    rw [owner_none hx]
    exact hworks.storage a ha

theorem sound_destroy (hw : w.WellFormed) (hx : w.streams x = some s) : Sound (.destroy x) w := by
  have hperform : perform (.destroy x) w = (.ok (), w.set x none (s.buffer.release w.heap)) := by
    simp only [perform, hx]
  have hgone := hw.remove hx
  rw [Sound, performOn, hperform]
  exact ⟨by simp, hgone.1, fun y hy => hgone.2 y (by simpa [ObjectCall.changed] using hy)⟩

/-! ### Copies -/

variable {answer : Option Nat}

theorem sound_copyConstruct (hw : w.WellFormed) (ht : w.streams source = some t)
    (hcareful : t.buffer.size = 0 ∨ answer = none) : Sound (.copyConstruct x source answer) w := by
  have hwell := hw.streams source t ht
  by_cases hempty : t.buffer.size = 0
  · have hroom : t.size = 0 := Nat.le_zero.mp (hempty ▸ hwell.size_le)
    have hperform : perform (.copyConstruct x source answer) w =
        (.ok (), w.set x (some ⟨t.data, t.size, .empty⟩) w.heap) := by
      simp only [perform, ht, ByteVector.copy_empty hempty]
    apply sound_put hw hperform (by simp) rfl (Heap.Frame.refl _ w.heap)
    · exact hwell.without_room le_rfl hroom (ByteVector.wellFormed_empty w.heap) rfl
    · exact fun a ha => absurd ha (ByteVector.empty_storage a)
  · obtain rfl := hcareful.resolve_left hempty
    have hperform : perform (.copyConstruct x source none) w = (.error (.errc .notEnoughMemory), w) := by
      simp only [perform, ht, ByteVector.copy_refused hempty]
    exact sound_unchanged hw hperform (by simp)

theorem careful_copyConstruct (hw : w.WellFormed) (ht : w.streams source = some t)
    (hanswer : Answers answer) (hkept : Kept (.copyConstruct x source answer) w) :
    t.buffer.size = 0 ∨ answer = none := by
  have hwell := hw.streams source t ht
  by_contra hnot
  obtain ⟨hsize, hprovides⟩ := not_or.mp hnot
  rcases ByteVector.copy_cases hwell.buffer hsize hanswer with ⟨hnone, -⟩ | ⟨v, k, hcopy, hv, hstorage⟩
  · exact hprovides hnone
  · have hperform : perform (.copyConstruct x source answer) w =
        (.ok (), w.set x (some ⟨t.data, t.size, v⟩) k) := by
      simp only [perform, ht, hcopy]
    have hown := hkept.own x ⟨t.data, t.size, v⟩ (by rw [performOn, hperform]; exact set_streams_self)
    have hfresh : v.storage ≠ t.buffer.storage := by
      intro heq
      exact absurd (hwell.buffer.live _ (heq.symm.trans hstorage)) (lt_irrefl _)
    exact hsize (hv ▸ (hwell.not_own hsize hfresh hown).1)

theorem copyAssign_self (hx : w.streams x = some s) : perform (.copyAssign x x answer) w = (.ok (), w) := by
  simp [perform, hx]

/-- The base class is assigned whether or not the vector is. -/
theorem copyAssign_cases (hw : w.WellFormed) (hx : w.streams x = some s) (ht : w.streams source = some t)
    (hne : x ≠ source) (hanswer : Answers answer) :
    (answer = none ∧ s.buffer.capacity w.heap < t.buffer.size ∧ perform (.copyAssign x source answer) w =
        (.error (.errc .notEnoughMemory), w.set x (some ⟨t.data, t.size, s.buffer⟩) w.heap)) ∨
      ¬ (answer = none ∧ s.buffer.capacity w.heap < t.buffer.size) ∧ ∃ v k, v.size = t.buffer.size ∧
        ByteVector.Works s.buffer w.heap v k ∧
        perform (.copyAssign x source answer) w = (.ok (), w.set x (some ⟨t.data, t.size, v⟩) k) := by
  have hs := hw.streams x s hx
  have hwell := hw.streams source t ht
  rcases ByteVector.assign_cases hwell.buffer hs.buffer hanswer with ⟨hnone, hlt, e, hassign⟩ |
    ⟨hnot, v, k, hassign, hv, hworks⟩
  · refine .inl ⟨hnone, hlt, ?_⟩
    simp only [perform, hx, ht, if_neg hne, hassign]
  · refine .inr ⟨hnot, v, k, hv, hworks, ?_⟩
    simp only [perform, hx, ht, if_neg hne, hassign]

theorem sound_copyAssign (hw : w.WellFormed) (hx : w.streams x = some s) (ht : w.streams source = some t)
    (hanswer : Answers answer)
    (hcareful : x = source ∨ t.buffer.size = 0 ∨
      (answer = none ∧ s.buffer.capacity w.heap < t.buffer.size) ∧ s.buffer.size = 0 ∧ t.size = 0) :
    Sound (.copyAssign x source answer) w := by
  have hs := hw.streams x s hx
  have hwell := hw.streams source t ht
  by_cases hself : x = source
  · subst hself
    exact sound_unchanged hw (copyAssign_self hx) (by simp)
  rcases copyAssign_cases hw hx ht hself hanswer with ⟨hnone, hlt, hperform⟩ |
    ⟨hnot, v, k, hv, hworks, hperform⟩
  · rcases hcareful.resolve_left hself with hempty | ⟨-, hempty, hroom⟩
    · omega
    · apply sound_put hw hperform (by simp) rfl (Heap.Frame.refl _ w.heap)
      · exact hwell.without_room le_rfl hroom hs.buffer hempty
      · exact fun a ha => .inl ((owner_of hx).trans ha)
  · rcases hcareful.resolve_left hself with hempty | ⟨hrefused, -⟩
    · have hroom : t.size = 0 := Nat.le_zero.mp (hempty ▸ hwell.size_le)
      apply sound_put hw hperform (by simp) rfl
      · rw [owner_of hx]
        exact hworks.frame
      · exact hwell.without_room hworks.frame.next_le hroom hworks.wellFormed (hv.trans hempty)
      · intro a ha
        rw [owner_of hx]
        exact hworks.storage a ha
    · exact absurd hrefused hnot

theorem careful_copyAssign (hw : w.WellFormed) (hx : w.streams x = some s) (ht : w.streams source = some t)
    (hanswer : Answers answer) (hself : x ≠ source) (hkept : Kept (.copyAssign x source answer) w) :
    t.buffer.size = 0 ∨
      (answer = none ∧ s.buffer.capacity w.heap < t.buffer.size) ∧ s.buffer.size = 0 ∧ t.size = 0 := by
  have hs := hw.streams x s hx
  have hwell := hw.streams source t ht
  by_cases hsize : t.buffer.size = 0
  · exact .inl hsize
  obtain ⟨a, ha, -⟩ := hwell.buffer.storage hsize
  have hother : ∀ b, s.buffer.storage = some b → a ≠ b := by
    rintro b hb rfl
    exact hself (hw.owned.unique x source a ((owner_of hx).trans hb) ((owner_of ht).trans ha))
  rcases copyAssign_cases hw hx ht hself hanswer with ⟨hnone, hlt, hperform⟩ |
    ⟨-, v, k, hv, hworks, hperform⟩
  · have hown := hkept.own x ⟨t.data, t.size, s.buffer⟩ (by rw [performOn, hperform]; exact set_streams_self)
    exact .inr ⟨⟨hnone, hlt⟩, hwell.not_own hsize (fun heq => hother a (heq.trans ha) rfl) hown⟩
  · have hown := hkept.own x ⟨t.data, t.size, v⟩ (by rw [performOn, hperform]; exact set_streams_self)
    have hfresh : v.storage ≠ t.buffer.storage := by
      intro heq
      rcases hworks.storage a (heq.trans ha) with hold | hnew
      · exact hother a hold rfl
      · exact absurd (hwell.buffer.live a ha) (Nat.not_lt.mpr hnew)
    exact absurd (hv ▸ (hwell.not_own hsize hfresh hown).1) hsize

/-! ### Moves -/

/-- A stream that is moved from while it has no room keeps its pointer, and does no harm with it. -/
theorem WellFormed.moved_from (hw : w.WellFormed) (ht : w.streams source = some t) (hroom : t.size = 0) :
    (w.set source (some ⟨t.data, t.size, .empty⟩) w.heap).WellFormed ∧
      ∀ y, y ≠ source → (w.set source (some ⟨t.data, t.size, .empty⟩) w.heap).written y = w.written y := by
  apply hw.put (Heap.Frame.refl _ w.heap)
  · exact (hw.streams source t ht).without_room le_rfl hroom (ByteVector.wellFormed_empty w.heap) rfl
  · exact fun a ha => absurd ha (ByteVector.empty_storage a)

/-- The vector of one stream becomes another one's. -/
theorem WellFormed.move (hw : w.WellFormed) (ht : w.streams source = some t) (hroom : t.size = 0) (x : ι) :
    ((w.set source (some ⟨t.data, t.size, .empty⟩) w.heap).set x (some t) w.heap).WellFormed ∧
      ∀ y, y ∉ [x, source] →
        ((w.set source (some ⟨t.data, t.size, .empty⟩) w.heap).set x (some t) w.heap).written y = w.written y := by
  obtain ⟨hfrom, hsame⟩ := hw.moved_from ht hroom
  have hto := hfrom.put (x := x) (Heap.Frame.refl _ w.heap) (hw.streams source t ht) (by
    intro a ha y hy howner
    rw [owner_set] at howner
    by_cases hsource : y = source
    · subst hsource
      rw [Function.update_self] at howner
      exact absurd howner (ByteVector.empty_storage a)
    · rw [Function.update_of_ne hsource] at howner
      exact hsource (hw.owned.unique y source a howner ((owner_of ht).trans ha)))
  refine ⟨hto.1, fun y hy => ?_⟩
  obtain ⟨hyx, hysource⟩ : y ≠ x ∧ y ≠ source := by simpa using hy
  exact (hto.2 y hyx).trans (hsame y hysource)

theorem sound_moveConstruct (hw : w.WellFormed) (ht : w.streams source = some t) (hroom : t.size = 0) :
    Sound (.moveConstruct x source) w := by
  have hmove := hw.move ht hroom x
  have hperform : perform (.moveConstruct x source) w =
      (.ok (), (w.set source (some ⟨t.data, t.size, .empty⟩) w.heap).set x (some t) w.heap) := by
    simp only [perform, ht]
  rw [Sound, performOn, hperform]
  exact ⟨by simp, hmove⟩

/-- What a moved assignment comes to, with the two streams in the other order. -/
theorem set_comm {u : Option StreamObject} (hne : x ≠ source) :
    ((w.set x none k).set source u k).set x o k = (w.set x o k).set source u k := by
  rw [set, set, set, set, set, Function.update_comm hne.symm, Function.update_idem]

theorem set_set {u : Option StreamObject} : (w.set x o k).set x u k = w.set x u k := by
  rw [set, set, set, Function.update_idem]

theorem moveAssign_apply (hx : w.streams x = some s) (ht : w.streams source = some t) :
    perform (.moveAssign x source) w = (.ok (), (w.set x (some t) (s.buffer.release w.heap)).set source
      (some ⟨t.data, t.size, .empty⟩) (s.buffer.release w.heap)) := by
  simp only [perform, hx, ht]

theorem sound_moveAssign (hw : w.WellFormed) (hx : w.streams x = some s) (ht : w.streams source = some t)
    (hroom : t.size = 0) : Sound (.moveAssign x source) w := by
  have hperform := moveAssign_apply hx ht
  by_cases hself : x = source
  · subst hself
    obtain rfl := Option.some.inj (hx.symm.trans ht)
    rw [set_set] at hperform
    have hleft := (hw.streams x s hx).without_room (release_frame hx).next_le hroom
      (ByteVector.wellFormed_empty _) rfl
    have hput := hw.put (release_frame hx) hleft (fun a ha => absurd ha (ByteVector.empty_storage a))
    rw [Sound, performOn, hperform]
    exact ⟨by simp, hput.1, fun y hy => hput.2 y (by simpa [ObjectCall.changed] using hy)⟩
  · -- the vector there was is freed first
    obtain ⟨hfreed, hsame⟩ := hw.remove hx
    have ht' : (w.set x none (s.buffer.release w.heap)).streams source = some t := by
      rw [set_streams_of_ne (Ne.symm hself), ht]
    obtain ⟨hnext, hothers⟩ := hfreed.move ht' hroom x
    rw [set_heap, set_comm hself] at hnext hothers
    rw [Sound, performOn, hperform]
    refine ⟨by simp, hnext, fun y hy => ?_⟩
    have hyx : y ≠ x := fun heq => hy (by simp [ObjectCall.changed, heq])
    exact (hothers y hy).trans (hsame y hyx)

/-- A stream that is moved from is left with the room it had. -/
theorem room_of_kept (hmoved : (performOn call w).streams source = some ⟨t.data, t.size, .empty⟩)
    (hkept : Kept call w) : t.size = 0 := by
  rcases hkept.own source _ hmoved with ⟨-, hroom⟩ | ⟨a, hstorage, -⟩
  · exact hroom
  · exact absurd hstorage (ByteVector.empty_storage a)

/-! ### Runs -/

theorem sound_of_careful (hw : w.WellFormed) (hpermitted : Permitted call w) (hcareful : Careful call w) :
    Sound call w := by
  cases call with
  | construct x => exact sound_construct hw
  | constructFrom x elements capacity =>
    obtain ⟨hx, hsize, hcapacity⟩ := hpermitted
    exact sound_constructFrom hw hx hsize hcapacity
  | ensureSize x n answer =>
    obtain ⟨⟨s, hx⟩, -, hanswer⟩ := hpermitted
    exact sound_on hw hx rfl rfl (StreamObject.ensureSize_local (hw.streams x s hx) hanswer (hcareful s hx))
  | store x i bytes =>
    obtain ⟨s, hx, hroom⟩ := hpermitted
    obtain ⟨k, hstore, hworks, -⟩ := StreamObject.store_spec (hw.streams x s hx) hroom
    exact sound_on hw hx rfl rfl (StreamObject.local_ok hstore hworks)
  | commitWritten x n =>
    obtain ⟨s, hx, hroom⟩ := hpermitted
    have hworks := (StreamObject.Works.refl (hw.streams x s hx)).advance hroom
    exact sound_on hw hx rfl rfl (StreamObject.local_ok (StreamObject.commitWritten_apply hroom) hworks)
  | bulkWrite x bytes answer =>
    obtain ⟨⟨s, hx⟩, -, hanswer⟩ := hpermitted
    exact sound_on hw hx rfl rfl (StreamObject.bulkWrite_local (hw.streams x s hx) hanswer (hcareful s hx))
  | extract x answer =>
    obtain ⟨⟨s, hx⟩, -⟩ := hpermitted
    exact sound_on hw hx rfl rfl (StreamObject.extract_local (hw.streams x s hx) answer)
  | copyConstruct x source answer =>
    obtain ⟨-, ⟨t, ht⟩, -⟩ := hpermitted
    exact sound_copyConstruct hw ht (hcareful t ht)
  | moveConstruct x source =>
    obtain ⟨-, t, ht⟩ := hpermitted
    exact sound_moveConstruct hw ht (hcareful t ht)
  | copyAssign x source answer =>
    obtain ⟨⟨s, hx⟩, ⟨t, ht⟩, hanswer⟩ := hpermitted
    exact sound_copyAssign hw hx ht hanswer (hcareful.imp_right fun h => h s t hx ht)
  | moveAssign x source =>
    obtain ⟨⟨s, hx⟩, t, ht⟩ := hpermitted
    exact sound_moveAssign hw hx ht (hcareful t ht)
  | destroy x =>
    obtain ⟨s, hx⟩ := hpermitted
    exact sound_destroy hw hx

theorem careful_of_kept (hw : w.WellFormed) (hpermitted : Permitted call w) (hkept : Kept call w) :
    Careful call w := by
  cases call with
  | ensureSize x n answer =>
    intro s hx
    exact StreamObject.ensureSize_safe (hw.streams x s hx) hpermitted.2.2 (hkept.safe hx rfl)
  | bulkWrite x bytes answer =>
    intro s hx
    exact StreamObject.bulkWrite_safe (hw.streams x s hx) hpermitted.2.2 (hkept.safe hx rfl)
  | copyConstruct x source answer =>
    intro t ht
    exact careful_copyConstruct hw ht hpermitted.2.2 hkept
  | copyAssign x source answer =>
    by_cases hself : x = source
    · exact .inl hself
    · exact .inr fun s t hx ht => careful_copyAssign hw hx ht hpermitted.2.2 hself hkept
  | moveConstruct x source =>
    intro t ht
    have hne : source ≠ x := by
      rintro rfl
      exact absurd (ht.symm.trans hpermitted.1) (by simp)
    have hmoved : (performOn (.moveConstruct x source) w).streams source = some ⟨t.data, t.size, .empty⟩ := by
      simp only [performOn, perform, ht]
      rw [set_streams_of_ne hne, set_streams_self]
    exact room_of_kept hmoved hkept
  | moveAssign x source =>
    intro t ht
    obtain ⟨⟨s, hx⟩, -⟩ := hpermitted
    have hmoved : (performOn (.moveAssign x source) w).streams source = some ⟨t.data, t.size, .empty⟩ := by
      rw [performOn, moveAssign_apply hx ht]
      exact set_streams_self
    exact room_of_kept hmoved hkept
  | construct x | constructFrom x elements capacity | store x i bytes | commitWritten x n | extract x answer
  | destroy x => trivial

/-- In a run of calls every stream points into its own storage exactly as long as the calls are careful with
streams that are copied, moved or grown. -/
theorem own_storage_iff (hpermitted : EveryStep performOn Permitted calls start) :
    EveryStep performOn Kept calls start ↔ EveryStep performOn Careful calls (start : Objects ι) := by
  apply hpermitted.iff_of_invariant WellFormed start_wellFormed
  · intro call w hw hcall
    exact ⟨careful_of_kept hw hcall, fun hcareful => (sound_of_careful hw hcall hcareful).kept⟩
  · intro call w hw hcall hkept
    exact (sound_of_careful hw hcall (careful_of_kept hw hcall hkept)).2.1

/-- A stream is moved from when it is full. -/
theorem own_storage_iff_full :
    EveryStep performOn Kept [.constructFrom 0 [0, 0] 2, .store 0 0 [7], .commitWritten 0 2, .moveConstruct 1 0,
        .extract 1 none] start ↔
      EveryStep performOn Careful [.constructFrom 0 [0, 0] 2, .store 0 0 [7], .commitWritten 0 2,
        .moveConstruct 1 0, .extract 1 none] (start : Objects Nat) :=
  own_storage_iff ⟨⟨rfl, by decide, by decide⟩, ⟨_, rfl, by decide⟩, ⟨_, rfl, by decide⟩, ⟨rfl, _, rfl⟩,
    ⟨⟨_, rfl⟩, fun _ hc => absurd hc (by simp)⟩, trivial⟩

/-- The copy of a stream with a byte points into the vector of the stream it was copied from. -/
theorem not_own_storage : ¬ ∀ calls : List (ObjectCall Nat), EveryStep performOn Permitted calls start →
    EveryStep performOn Kept calls start := by
  intro h
  have hkept := h [.constructFrom 0 [0] 1, .copyConstruct 1 0 (some 1)]
    ⟨⟨rfl, by decide, by decide⟩, ⟨rfl, ⟨_, rfl⟩, fun c hc => by
      obtain rfl := Option.some.inj hc
      decide⟩, trivial⟩
  rcases hkept.2.1.own 1 ⟨some (0, 0), 1, ⟨some 1, 1⟩⟩ rfl with ⟨hempty, -⟩ | ⟨a, hstorage, hdata, -⟩
  · exact absurd hempty (by decide)
  · obtain rfl := Option.some.inj hstorage
    exact absurd hdata (by decide)

end Run
end Objects
end DeepPack
