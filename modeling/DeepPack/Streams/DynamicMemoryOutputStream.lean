import DeepPack.Streams.AppendLog
import DeepPack.Streams.BufferSize

/-! The stream into memory that grows.

The buffer is a vector and `data()` points into it behind all that was committed.
Growing resizes the vector to what `buffer_size_for` finds for the sum of its size and
the request, and that sum wraps: a buffer may be asked to shrink. A size beyond what a
vector can have is thrown out of functions that throw nothing. -/
namespace DeepPack
open Library

structure DynamicMemoryOutputStream where
  /-- The vector's bytes in front of the memory the base class was last reset to. -/
  front : List UInt8
  /-- Whether the allocator provides memory, for every time that it is asked. In the end it does not. -/
  grants : List Bool
  deriving DecidableEq, Repr

namespace DynamicMemoryOutputStream

/-- `mBuffer` -/
def buffer (s : OutputBuffer DynamicMemoryOutputStream) : List UInt8 := s.derived.front ++ s.behind ++ s.free

/-- `data() - mBuffer.data()` -/
def offset (s : OutputBuffer DynamicMemoryOutputStream) : Nat := s.derived.front.length + s.behind.length

def writtenSize (s : OutputBuffer DynamicMemoryOutputStream) : Nat := (buffer s).length - s.free.length

def written (s : OutputBuffer DynamicMemoryOutputStream) : List UInt8 := (buffer s).take (writtenSize s)

/-- The stream that takes over this vector. -/
def fromVector (buffer : List UInt8) (grants : List Bool) : OutputBuffer DynamicMemoryOutputStream :=
  ⟨[], buffer, ⟨[], grants⟩⟩

/-- The allocator's further answers. -/
def answered (grants : List Bool) (s : OutputBuffer DynamicMemoryOutputStream) :
    OutputBuffer DynamicMemoryOutputStream :=
  {s with derived := {s.derived with grants}}

/-- `std::vector::max_size` -/
def maxSize : Nat := 2 ^ 63 - 1

/-- What `std::vector::resize` throws. -/
inductive Thrown where
  | lengthError
  | badAlloc
  deriving DecidableEq, Repr

/-- `std::vector::resize`, and the answers that are left. -/
def resize (newSize : Nat) (buffer : List UInt8) (grants : List Bool) : Except Thrown (List UInt8) × List Bool :=
  if maxSize < newSize then (.error .lengthError, grants)
  else if newSize ≤ buffer.length then (.ok (buffer.take newSize), grants)
  else
    match grants with
    | true :: grants => (.ok (buffer ++ List.replicate (newSize - buffer.length) 0), grants)
    | grants => (.error .badAlloc, grants.tail)

def doGrow (requestedSize : Nat) : Output DynamicMemoryOutputStream Unit := fun s =>
  match bufferSizeFor wordLimit (((buffer s).length + requestedSize) % wordLimit) with
  | .error fault => (.error fault, s)
  | .ok newSize =>
    match resize newSize (buffer s) s.derived.grants with
    -- only `std::bad_alloc` is caught
    | (.error .lengthError, grants) => (.error .terminated, answered grants s)
    | (.error .badAlloc, grants) => (.error (.errc .notEnoughMemory), answered grants s)
    | (.ok resized, grants) =>
      if resized.length < offset s then (.error .outOfBounds, answered grants s)
      else (.ok (), {(s.reset (resized.drop (offset s))) with derived := ⟨resized.take (offset s), grants⟩})

def doBulkWrite (bytes : List UInt8) : Output DynamicMemoryOutputStream Unit := do
  doGrow bytes.length
  OutputBuffer.store 0 bytes
  OutputBuffer.commitWritten bytes.length

end DynamicMemoryOutputStream

instance : OutputStream DynamicMemoryOutputStream where
  doGrow := DynamicMemoryOutputStream.doGrow
  doBulkWrite := DynamicMemoryOutputStream.doBulkWrite

namespace DynamicMemoryOutputStream

def perform : OutputCall → Output DynamicMemoryOutputStream Unit
  | .ensureSize n => OutputBuffer.ensureSize n
  | .store i bytes => OutputBuffer.store i bytes
  | .commitWritten n => OutputBuffer.commitWritten n
  | .bulkWrite bytes => OutputBuffer.bulkWrite bytes
  -- there is nothing behind the memory
  | .syncOutput => pure ()

def performOn (call : OutputCall) (s : OutputBuffer DynamicMemoryOutputStream) :
    OutputBuffer DynamicMemoryOutputStream :=
  (perform call s).2

/-- `buffer_size_for` returns when so many bytes are asked for. -/
def GrowReturns (n : Nat) (s : OutputBuffer DynamicMemoryOutputStream) : Prop :=
  ∃ rounds size, bufferSizeFor rounds (((buffer s).length + n) % wordLimit) = .ok size

/-- What a call may ask for. -/
def Permitted : OutputCall → OutputBuffer DynamicMemoryOutputStream → Prop
  | .ensureSize n, s => n ≤ sizeMax ∧ (s.free.length < n → GrowReturns n s)
  | .store i bytes, s => i + bytes.length ≤ s.free.length
  | .commitWritten n, s => n ≤ s.free.length
  | .bulkWrite bytes, s => bytes.length ≤ sizeMax ∧
      (s.free.length < bytes.length → GrowReturns (bytes.length - s.free.length) s)
  | .syncOutput, _ => True

/-- The bytes that a call commits. A bulk write that fails has filled the buffer. -/
def taken : OutputCall → OutputBuffer DynamicMemoryOutputStream → List UInt8
  | .commitWritten n, s => s.free.take n
  | .bulkWrite bytes, s =>
    match (perform (.bulkWrite bytes) s).1 with
    | .ok () => bytes
    | .error _ => bytes.take s.free.length
  | _, _ => []

/-- All that a run of calls commits. -/
def committed : List OutputCall → OutputBuffer DynamicMemoryOutputStream → List UInt8
  | [], _ => []
  | call :: rest, s => taken call s ++ committed rest (performOn call s)

/-- A request succeeds with the room that was asked for, or fails and changes nothing but what the allocator
will answer. Every call returns, and what was written is still there, with what the call commits behind it. -/
structure Kept (call : OutputCall) (s : OutputBuffer DynamicMemoryOutputStream) : Prop where
  returns : ∀ fault, (perform call s).1 = .error fault → ∃ e, fault = .errc e
  room : ∀ n, call = .ensureSize n → (perform call s).1 = .ok () → n ≤ (performOn call s).free.length
  unchanged : ∀ n e, call = .ensureSize n → (perform call s).1 = .error e → ∃ grants, performOn call s =
  answered grants s
  log : written (performOn call s) = written s ++ taken call s

/-- The call does so whatever the allocator answers. -/
def Keeps (call : OutputCall) (s : OutputBuffer DynamicMemoryOutputStream) : Prop :=
  ∀ grants, Kept call (answered grants s)

/-- The sum of the buffer's size and what does not fit in it is below the threshold. -/
def Spared : OutputCall → OutputBuffer DynamicMemoryOutputStream → Prop
  | .ensureSize n, s => s.free.length < n → (buffer s).length + n < overflowThreshold
  | .bulkWrite bytes, s => s.free.length < bytes.length →
      (buffer s).length + (bytes.length - s.free.length) < overflowThreshold
  | _, _ => True

variable {s t : OutputBuffer DynamicMemoryOutputStream} {n size : Nat} {bytes : List UInt8} {grants : List Bool}

/-! ### The vector and the memory in it -/

@[simp] theorem answered_free : (answered grants s).free = s.free := rfl
@[simp] theorem answered_buffer : buffer (answered grants s) = buffer s := rfl
@[simp] theorem answered_written : written (answered grants s) = written s := rfl

theorem buffer_length : (buffer s).length = offset s + s.free.length := by
  simp [buffer, offset, Nat.add_assoc]

theorem written_eq : written s = s.derived.front ++ s.behind := by
  have hsize : writtenSize s = (s.derived.front ++ s.behind).length := by
    rw [writtenSize, buffer_length, offset, List.length_append]
    omega
  rw [written, hsize, buffer, List.take_left]

theorem written_commit : written (s.commit n) = written s ++ s.free.take n := by
  simp [written_eq, OutputBuffer.commit]

theorem buffer_commit : buffer (s.commit n) = buffer s := by
  simp [buffer, OutputBuffer.commit]

theorem written_put (i : Nat) : written (s.put i bytes) = written s := by
  simp [written_eq, OutputBuffer.put]

theorem buffer_put {i : Nat} (h : i + bytes.length ≤ s.free.length) :
    (buffer (s.put i bytes)).length = (buffer s).length := by
  simp only [buffer, List.length_append, OutputBuffer.put_behind, OutputBuffer.put_length s h]
  rfl

/-! ### Growing -/

theorem offset_le_buffer : offset s ≤ (buffer s).length := by
  rw [buffer_length]
  exact Nat.le_add_right _ _

theorem buffer_take : (buffer s).take (offset s) = written s := by
  have hlen : offset s = (s.derived.front ++ s.behind).length := by simp [offset]
  rw [hlen, written_eq, buffer, List.take_left]

/-- A vector of another size begins with what was written, as far as it goes. -/
theorem resize_cases (size : Nat) (s : OutputBuffer DynamicMemoryOutputStream) :
    (maxSize < size ∧ resize size (buffer s) s.derived.grants = (.error .lengthError, s.derived.grants)) ∨
      (size ≤ maxSize ∧ (buffer s).length < size ∧ s.derived.grants.head? ≠ some true ∧
        ∃ grants, resize size (buffer s) s.derived.grants = (.error .badAlloc, grants)) ∨
      (size ≤ maxSize ∧ ∃ resized grants, resize size (buffer s) s.derived.grants = (.ok resized, grants) ∧
        resized.length = size ∧ (offset s ≤ size → resized.take (offset s) = written s)) := by
  unfold resize
  by_cases hmax : maxSize < size
  · left
    exact ⟨hmax, by rw [if_pos hmax]⟩
  · right
    rw [if_neg hmax]
    have hle := Nat.not_lt.mp hmax
    by_cases hshrink : size ≤ (buffer s).length
    · right
      rw [if_pos hshrink]
      refine ⟨hle, _, _, rfl, List.length_take_of_le hshrink, ?_⟩
      intro hoffset
      rw [List.take_take, Nat.min_eq_left hoffset, buffer_take]
    · rw [if_neg hshrink]
      cases hgrants : s.derived.grants with
      | nil => exact .inl ⟨hle, Nat.lt_of_not_le hshrink, by simp, _, rfl⟩
      | cons grant grants =>
        cases grant with
        | false => exact .inl ⟨hle, Nat.lt_of_not_le hshrink, by simp, _, rfl⟩
        | true =>
          right
          refine ⟨hle, _, _, rfl, ?_, ?_⟩
          · rw [List.length_append, List.length_replicate]
            omega
          · intro _
            rw [List.take_append_of_le_length offset_le_buffer, buffer_take]

/-- What growing comes to, by the size that is found. -/
theorem doGrow_cases (hsize : bufferSizeFor wordLimit (((buffer s).length + n) % wordLimit) = .ok size) :
    (maxSize < size ∧ (doGrow n s).1 = .error .terminated) ∨
      (size ≤ maxSize ∧ (buffer s).length < size ∧ s.derived.grants.head? ≠ some true ∧
        ∃ grants, doGrow n s = (.error (.errc .notEnoughMemory), answered grants s)) ∨
      (size < offset s ∧ (doGrow n s).1 = .error .outOfBounds) ∨
      (size ≤ maxSize ∧ ∃ t, doGrow n s = (.ok (), t) ∧ written t = written s ∧
        offset s + t.free.length = size ∧ (buffer t).length = size) := by
  unfold doGrow
  rw [hsize]
  rcases resize_cases size s with ⟨hmax, hresize⟩ | ⟨hmax, hlarger, hgrants, grants, hresize⟩ |
    ⟨hmax, resized, grants, hresize, hlen, htake⟩
  · exact .inl ⟨hmax, by simp [hresize]⟩
  · exact .inr (.inl ⟨hmax, hlarger, hgrants, grants, by simp [hresize]⟩)
  · right
    right
    by_cases hoffset : size < offset s
    · left
      exact ⟨hoffset, by simp [hresize, hlen, hoffset]⟩
    · right
      have hle := Nat.not_lt.mp hoffset
      simp only [hresize, hlen, if_neg hoffset]
      refine ⟨hmax, _, rfl, ?_, ?_, ?_⟩
      · simp [written_eq (s := OutputBuffer.mk _ _ _), OutputBuffer.reset, htake hle]
      · simp only [OutputBuffer.reset, List.length_drop, hlen]
        omega
      · simp [buffer, OutputBuffer.reset, hlen]

/-- The size that is found for a sum of 64 bits below the threshold is enough, and not too large for a vector. -/
theorem size_of_below (h : (buffer s).length + n < overflowThreshold) (hret : GrowReturns n s) :
    ∃ size, bufferSizeFor wordLimit (((buffer s).length + n) % wordLimit) = .ok size ∧
      (buffer s).length + n ≤ size ∧ size ≤ maxSize := by
  obtain ⟨rounds, size, hsize⟩ := hret
  have hmod : ((buffer s).length + n) % wordLimit = (buffer s).length + n :=
    Nat.mod_eq_of_lt (h.trans (by decide))
  have hfound := bufferSizeFor_rounds hsize
  rw [hmod] at hfound ⊢
  obtain ⟨k, hk⟩ := bufferSizeFor_grown h hfound
  refine ⟨size, hfound, bufferSizeFor_enough h hfound, ?_⟩
  have hle := iterate_grown_le k
  have hne := iterate_grown_ne k
  simp only [maxSize]
  omega

/-- Any other sum asks for more than a vector can have, or wraps and is no longer than the buffer. -/
theorem size_of_above (h : overflowThreshold ≤ (buffer s).length + n) (hn : n ≤ sizeMax)
    (hbuffer : (buffer s).length ≤ maxSize) (hret : GrowReturns n s) :
    ∃ size, bufferSizeFor wordLimit (((buffer s).length + n) % wordLimit) = .ok size ∧
      (size ≤ maxSize → size < n) := by
  obtain ⟨rounds, size, hsize⟩ := hret
  refine ⟨size, bufferSizeFor_rounds hsize, ?_⟩
  intro hmax
  rcases Nat.lt_or_ge ((buffer s).length + n) wordLimit with hword | hword
  · rw [Nat.mod_eq_of_lt hword, bufferSizeFor_above h] at hsize
    cases hsize
    exact absurd hmax (by decide)
  · simp only [maxSize, wordLimit, sizeMax] at *
    omega

/-- Below the threshold there is as much room as was asked for, or the allocator has refused. -/
theorem doGrow_below (h : (buffer s).length + n < overflowThreshold) (hret : GrowReturns n s) :
    (∃ t, doGrow n s = (.ok (), t) ∧ written t = written s ∧ n ≤ t.free.length ∧ (buffer t).length ≤ maxSize) ∨
      ∃ grants, doGrow n s = (.error (.errc .notEnoughMemory), answered grants s) := by
  obtain ⟨size, hsize, henough, hmax⟩ := size_of_below h hret
  have hlen := buffer_length (s := s)
  rcases doGrow_cases hsize with ⟨hlarge, -⟩ | ⟨-, -, -, hrefused⟩ | ⟨hsmall, -⟩ |
    ⟨-, t, ht, hwritten, hfree, hbuffer⟩
  · omega
  · exact .inr hrefused
  · omega
  · exact .inl ⟨t, ht, hwritten, by omega, by omega⟩

/-- An allocator that provides all the memory it is asked for does not make up for a sum that is too large. -/
theorem doGrow_above (h : overflowThreshold ≤ (buffer s).length + n) (hn : n ≤ sizeMax)
    (hbuffer : (buffer s).length ≤ maxSize) (hret : GrowReturns n s) (hgrants : s.derived.grants = [true]) :
    (doGrow n s).1 = .error .terminated ∨ (doGrow n s).1 = .error .outOfBounds ∨
      ∃ t, doGrow n s = (.ok (), t) ∧ t.free.length < n := by
  obtain ⟨size, hsize, hsmall⟩ := size_of_above h hn hbuffer hret
  rcases doGrow_cases hsize with ⟨-, hthrown⟩ | ⟨-, -, hrefused, -⟩ | ⟨-, hout⟩ | ⟨hmax, t, ht, -, hfree, -⟩
  · exact .inl hthrown
  · exact absurd (by rw [hgrants]; rfl) hrefused
  · exact .inr (.inl hout)
  · have hlt := hsmall hmax
    exact .inr (.inr ⟨t, ht, by omega⟩)

/-- The bytes go into the memory that was grown. -/
theorem doBulkWrite_below (h : (buffer s).length + bytes.length < overflowThreshold)
    (hret : GrowReturns bytes.length s) :
    (∃ t, doBulkWrite bytes s = (.ok (), t) ∧ written t = written s ++ bytes ∧ (buffer t).length ≤ maxSize) ∨
      ∃ grants, doBulkWrite bytes s = (.error (.errc .notEnoughMemory), answered grants s) := by
  unfold doBulkWrite
  rcases doGrow_below h hret with ⟨t, ht, hwritten, hroom, hmax⟩ | ⟨grants, hrefused⟩
  · left
    have hroom' : 0 + bytes.length ≤ t.free.length := by omega
    have hput := OutputBuffer.put_take t hroom'
    rw [Nat.zero_add, List.take_zero, List.nil_append] at hput
    refine ⟨(t.put 0 bytes).commit bytes.length, ?_, ?_, ?_⟩
    · rw [Action.bind_ok _ ht, Action.bind_ok _ (OutputBuffer.store_apply hroom')]
      apply OutputBuffer.commitWritten_apply
      rwa [OutputBuffer.put_length t hroom']
    · rw [written_commit, written_put, hwritten, hput]
    · rwa [buffer_commit, buffer_put hroom']
  · exact .inr ⟨grants, Action.bind_error _ hrefused⟩

theorem doBulkWrite_above (h : overflowThreshold ≤ (buffer s).length + bytes.length) (hn : bytes.length ≤ sizeMax)
    (hbuffer : (buffer s).length ≤ maxSize) (hret : GrowReturns bytes.length s)
    (hgrants : s.derived.grants = [true]) :
    (doBulkWrite bytes s).1 = .error .terminated ∨ (doBulkWrite bytes s).1 = .error .outOfBounds := by
  unfold doBulkWrite
  rcases doGrow_above h hn hbuffer hret hgrants with hthrown | hout | ⟨t, ht, hroom⟩
  · left
    rcases hgrow : doGrow bytes.length s with ⟨r, t⟩
    obtain rfl : r = .error .terminated := by simpa [hgrow] using hthrown
    simp [Action.bind_error _ hgrow]
  · right
    rcases hgrow : doGrow bytes.length s with ⟨r, t⟩
    obtain rfl : r = .error .outOfBounds := by simpa [hgrow] using hout
    simp [Action.bind_error _ hgrow]
  · right
    rw [Action.bind_ok _ ht]
    have hstore : OutputBuffer.store 0 bytes t = (.error .outOfBounds, t) := by
      unfold OutputBuffer.store
      rw [if_neg (by omega)]
    simp [Action.bind_error _ hstore]

/-! ### Each of the calls -/

variable {call : OutputCall} {calls : List OutputCall}

theorem kept_ok (hperform : perform call s = (.ok (), t)) (hroom : ∀ n, call = .ensureSize n → n ≤ t.free.length)
    (hlog : written t = written s ++ taken call s) : Kept call s := by
  refine ⟨?_, ?_, ?_, ?_⟩ <;> simp only [performOn, hperform]
  · exact fun _ hfault => by cases hfault
  · exact fun n hcall _ => hroom n hcall
  · exact fun _ _ _ herror => by cases herror
  · exact hlog

theorem kept_error {e : Errc} (hperform : perform call s = (.error (.errc e), t))
    (hunchanged : ∀ n, call = .ensureSize n → ∃ grants, t = answered grants s)
    (hlog : written t = written s ++ taken call s) : Kept call s := by
  refine ⟨?_, ?_, ?_, ?_⟩ <;> simp only [performOn, hperform]
  · exact fun _ hfault => ⟨e, (Except.error.inj hfault).symm⟩
  · exact fun _ _ hok => by cases hok
  · exact fun n _ hcall _ => hunchanged n hcall
  · exact hlog

theorem kept_ensureSize (hpermitted : Permitted (.ensureSize n) s) (hspared : Spared (.ensureSize n) s)
    (hmax : (buffer s).length ≤ maxSize) :
    Kept (.ensureSize n) s ∧ (buffer (performOn (.ensureSize n) s)).length ≤ maxSize := by
  have hnothing : taken (.ensureSize n) s = [] := rfl
  rcases Nat.lt_or_ge s.free.length n with hroom | hroom
  · have hgrow : perform (.ensureSize n) s = doGrow n s := OutputBuffer.ensureSize_grow hroom
    rcases doGrow_below (hspared hroom) (hpermitted.2 hroom) with ⟨t, ht, hwritten, hfree, hbuffer⟩ | ⟨grants, ht⟩
    · rw [ht] at hgrow
      refine ⟨kept_ok hgrow ?_ (by simpa [hnothing] using hwritten), by simpa [performOn, hgrow] using hbuffer⟩
      intro m hm
      obtain rfl := OutputCall.ensureSize.inj hm
      exact hfree
    · rw [ht] at hgrow
      exact ⟨kept_error hgrow (fun _ _ => ⟨grants, rfl⟩) (by simp [hnothing]),
        by simpa [performOn, hgrow] using hmax⟩
  · have henough : perform (.ensureSize n) s = (.ok (), s) := OutputBuffer.ensureSize_enough hroom
    refine ⟨kept_ok henough ?_ (by simp [hnothing]), by simpa [performOn, henough] using hmax⟩
    intro m hm
    obtain rfl := OutputCall.ensureSize.inj hm
    exact hroom

/-- A bulk write that does not fit grows the buffer when it is full. -/
theorem bulkWrite_filled (hroom : s.free.length < bytes.length) :
    ∃ filled, perform (.bulkWrite bytes) s = doBulkWrite (bytes.drop s.free.length) filled ∧
      written filled = written s ++ bytes.take s.free.length ∧ (buffer filled).length = (buffer s).length ∧
      filled.derived.grants = s.derived.grants := by
  obtain ⟨filled, hbulk, hbehind, hfree, hderived⟩ := OutputBuffer.bulkWrite_full hroom
  refine ⟨filled, hbulk, ?_, ?_, by rw [hderived]⟩
  · simp [written_eq, hbehind, hderived]
  · simp only [buffer, hderived, hbehind, hfree, List.length_append, List.length_take, List.length_nil]
    omega

theorem kept_bulkWrite (hpermitted : Permitted (.bulkWrite bytes) s) (hspared : Spared (.bulkWrite bytes) s)
    (hmax : (buffer s).length ≤ maxSize) :
    Kept (.bulkWrite bytes) s ∧ (buffer (performOn (.bulkWrite bytes) s)).length ≤ maxSize := by
  have hother : ∀ n, OutputCall.bulkWrite bytes = .ensureSize n → False := fun _ h => by cases h
  rcases Nat.lt_or_ge s.free.length bytes.length with hroom | hroom
  · obtain ⟨filled, hperform, hwritten, hlen, -⟩ := bulkWrite_filled hroom
    have hrest : (bytes.drop s.free.length).length = bytes.length - s.free.length := List.length_drop
    have hret : GrowReturns (bytes.drop s.free.length).length filled := by
      rw [GrowReturns, hrest, hlen]
      exact hpermitted.2 hroom
    rcases doBulkWrite_below (by rw [hlen, hrest]; exact hspared hroom) hret with ⟨t, ht, hlog, hbuffer⟩ |
      ⟨grants, ht⟩
    · rw [ht] at hperform
      refine ⟨kept_ok hperform (fun n hn => (hother n hn).elim) ?_, by simpa [performOn, hperform] using hbuffer⟩
      rw [hlog, hwritten, List.append_assoc, List.take_append_drop, taken, hperform]
    · rw [ht] at hperform
      refine ⟨kept_error hperform (fun n hn => (hother n hn).elim) ?_, ?_⟩
      · rw [answered_written, hwritten, taken, hperform]
      · rw [performOn, hperform, answered_buffer, hlen]
        exact hmax
  · obtain ⟨t, ht, hbehind, hfree, hderived⟩ := OutputBuffer.bulkWrite_enough hroom
    have hperform : perform (.bulkWrite bytes) s = (.ok (), t) := ht
    refine ⟨kept_ok hperform (fun n hn => (hother n hn).elim) ?_, ?_⟩
    · rw [taken, hperform, written_eq, written_eq, hbehind, hderived, List.append_assoc]
    · rw [performOn, hperform, buffer, hderived, hbehind, hfree]
      simp only [buffer, List.length_append, List.length_drop] at hmax ⊢
      omega

theorem kept_of_spared (hpermitted : Permitted call s) (hspared : Spared call s)
    (hmax : (buffer s).length ≤ maxSize) : Kept call s ∧ (buffer (performOn call s)).length ≤ maxSize := by
  cases call with
  | ensureSize n => exact kept_ensureSize hpermitted hspared hmax
  | store i bytes =>
    have hperform : perform (.store i bytes) s = (.ok (), s.put i bytes) := OutputBuffer.store_apply hpermitted
    refine ⟨kept_ok hperform (fun n hn => by cases hn) ?_, ?_⟩
    · simp [written_put, taken]
    · rwa [performOn, hperform, buffer_put hpermitted]
  | commitWritten n =>
    have hperform : perform (.commitWritten n) s = (.ok (), s.commit n) :=
      OutputBuffer.commitWritten_apply hpermitted
    refine ⟨kept_ok hperform (fun m hm => by cases hm) written_commit, ?_⟩
    rwa [performOn, hperform, buffer_commit]
  | bulkWrite bytes => exact kept_bulkWrite hpermitted hspared hmax
  | syncOutput =>
    have hperform : perform .syncOutput s = (.ok (), s) := rfl
    refine ⟨kept_ok hperform (fun n hn => by cases hn) ?_, hmax⟩
    simp [taken]

/-- The conditions on a call do not depend on what the allocator answers. -/
theorem keeps_of_spared (hpermitted : Permitted call s) (hspared : Spared call s)
    (hmax : (buffer s).length ≤ maxSize) : Keeps call s := by
  intro grants
  have hpermitted' : Permitted call (answered grants s) := by cases call <;> exact hpermitted
  have hspared' : Spared call (answered grants s) := by cases call <;> exact hspared
  exact (kept_of_spared hpermitted' hspared' hmax).1

/-- A sum that is too large shows if the allocator provides what it is asked for. -/
theorem spared_of_keeps (hpermitted : Permitted call s) (hmax : (buffer s).length ≤ maxSize)
    (hkeeps : Keeps call s) : Spared call s := by
  have hkept := hkeeps [true]
  cases call with
  | ensureSize n =>
    intro hroom
    by_contra hlarge
    have hgrow : perform (.ensureSize n) (answered [true] s) = doGrow n (answered [true] s) :=
      OutputBuffer.ensureSize_grow hroom
    rcases doGrow_above (s := answered [true] s) (Nat.not_lt.mp hlarge) hpermitted.1 hmax
      (hpermitted.2 hroom) rfl with
      hfault | hfault | ⟨t, ht, hsmall⟩
    · obtain ⟨e, he⟩ := hkept.returns .terminated (by rw [hgrow, hfault])
      cases he
    · obtain ⟨e, he⟩ := hkept.returns .outOfBounds (by rw [hgrow, hfault])
      cases he
    · have hroom' := hkept.room n rfl (by rw [hgrow, ht])
      rw [performOn, hgrow, ht] at hroom'
      exact absurd hroom' (Nat.not_le.mpr hsmall)
  | bulkWrite bytes =>
    intro hroom
    by_contra hlarge
    have hroom' : (answered [true] s).free.length < bytes.length := hroom
    obtain ⟨filled, hperform, -, hlen, hgrants⟩ := bulkWrite_filled hroom'
    rw [answered_free] at hperform
    rw [answered_buffer] at hlen
    have hrest : (bytes.drop s.free.length).length = bytes.length - s.free.length := List.length_drop
    have hret : GrowReturns (bytes.drop s.free.length).length filled := by
      rw [GrowReturns, hrest, hlen]
      exact hpermitted.2 hroom
    have hword : (bytes.drop s.free.length).length ≤ sizeMax := by
      rw [hrest]
      exact (Nat.sub_le _ _).trans hpermitted.1
    have hover : overflowThreshold ≤ (buffer filled).length + (bytes.drop s.free.length).length := by
      rw [hlen, hrest]
      exact Nat.not_lt.mp hlarge
    rcases doBulkWrite_above hover hword (by rwa [hlen]) hret hgrants with hfault | hfault
    · obtain ⟨e, he⟩ := hkept.returns .terminated (by rw [hperform, hfault])
      cases he
    · obtain ⟨e, he⟩ := hkept.returns .outOfBounds (by rw [hperform, hfault])
      cases he
  | store i bytes => trivial
  | commitWritten n => trivial
  | syncOutput => trivial

/-! ### Runs -/

/-- The log of a run of calls of which each is kept. -/
theorem written_run (hpermitted : EveryStep performOn Permitted calls s)
    (hspared : EveryStep performOn Spared calls s)
    (hmax : (buffer s).length ≤ maxSize) : written (runSteps performOn calls s) = written s ++
    committed calls s := by
  induction calls generalizing s with
  | nil => simp [runSteps, committed]
  | cons call rest ih =>
    obtain ⟨hkept, hnext⟩ := kept_of_spared hpermitted.1 hspared.1 hmax
    rw [runSteps, ih hpermitted.2 hspared.2 hnext, hkept.log, committed, List.append_assoc]

/-- In every run for which `buffer_size_for` returns, growing keeps what was written and neither goes out of
bounds nor ends the program as long as the sums of sizes stay below the threshold, and only then. Then what is
written is what was committed. -/
theorem growing_keeps_written {initial : List UInt8} (hinitial : initial.length ≤ maxSize)
    (hpermitted : EveryStep performOn Permitted calls (fromVector initial grants)) :
    (EveryStep performOn Keeps calls (fromVector initial grants) ↔
      EveryStep performOn Spared calls (fromVector initial grants)) ∧
    (EveryStep performOn Spared calls (fromVector initial grants) →
      written (runSteps performOn calls (fromVector initial grants)) =
      committed calls (fromVector initial grants)) := by
  have hfirst : (buffer (fromVector initial grants)).length ≤ maxSize := hinitial
  constructor
  · apply EveryStep.iff_of_invariant (fun s => (buffer s).length ≤ maxSize) hpermitted hfirst
    · intro call s hmax hcall
      exact ⟨spared_of_keeps hcall hmax, fun hspared => keeps_of_spared hcall hspared hmax⟩
    · intro call s hmax hcall hkeeps
      exact (kept_of_spared hcall (spared_of_keeps hcall hmax hkeeps) hmax).2
  · intro hspared
    rw [written_run hpermitted hspared hfirst]
    simp [written_eq, fromVector]

/-- Two bytes are bulk written where one is left. -/
theorem growing_keeps_written_grown :
    EveryStep performOn Keeps [.ensureSize 1, .store 0 [5], .commitWritten 1, .bulkWrite [6, 7]]
      (fromVector [0, 0] [true]) ∧
    written (runSteps performOn [.ensureSize 1, .store 0 [5], .commitWritten 1, .bulkWrite [6, 7]]
      (fromVector [0, 0] [true])) = [5, 6, 7] := by
  have hpermitted : EveryStep performOn Permitted [.ensureSize 1, .store 0 [5], .commitWritten 1,
    .bulkWrite [6, 7]]
      (fromVector [0, 0] [true]) :=
    ⟨⟨by decide, fun h => absurd h (by decide)⟩, show 0 + 1 ≤ 2 by decide, show 1 ≤ 2 by decide,
      ⟨by decide, fun _ => ⟨1, 4096, by decide +kernel⟩⟩, trivial⟩
  have hspared : EveryStep performOn Spared [.ensureSize 1, .store 0 [5], .commitWritten 1, .bulkWrite [6, 7]]
      (fromVector [0, 0] [true]) :=
    ⟨fun h => absurd h (by decide), trivial, trivial, fun _ => by decide +kernel, trivial⟩
  have hwhole := growing_keeps_written (by decide) hpermitted
  exact ⟨hwhole.1.mpr hspared, (hwhole.2 hspared).trans (by decide +kernel)⟩

/-- The largest word is not a size that a vector can have, and that is thrown. -/
theorem growing_may_throw : ¬ ∀ initial grants calls, initial.length ≤ maxSize →
    EveryStep performOn Permitted calls (fromVector initial grants) →
    EveryStep performOn Keeps calls (fromVector initial grants) := by
  intro h
  have hpermitted : EveryStep performOn Permitted [.ensureSize sizeMax] (fromVector [] []) :=
    ⟨⟨le_refl _, fun _ => ⟨0, sizeMax, by decide⟩⟩, trivial⟩
  have hkeeps := (h [] [] [.ensureSize sizeMax] (by decide) hpermitted).1
  obtain ⟨e, he⟩ := (hkeeps []).returns .terminated (by decide +kernel)
  cases he

end DynamicMemoryOutputStream
end DeepPack
