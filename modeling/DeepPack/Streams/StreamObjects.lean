import DeepPack.Library.Heap
import DeepPack.Library.Runs
import DeepPack.Streams.DynamicMemoryOutputStream

/-! Streams into memory that grows, as objects that are copied and moved.

The stream is a vector, and a base class with a pointer into it. A vector owns its storage: a
copy has storage of its own, and a move hands the storage on. The base class is copied and
moved member by member, and the pointer with it. -/
namespace DeepPack
open Library DynamicMemoryOutputStream

/-- A pointer: the storage it points into, and the offset there. The null pointer is none. -/
abbrev Pointer : Type := Option (Nat × Nat)

/-! ### Vectors -/

/-- `std::vector<std::byte>`: its storage, if it has any, and how much of it are elements. -/
structure ByteVector where
  storage : Option Nat
  size : Nat
  deriving DecidableEq, Repr

namespace ByteVector

def empty : ByteVector := ⟨none, 0⟩

/-- What the storage holds. -/
def memory (v : ByteVector) (h : Heap UInt8) : List UInt8 := (v.storage.bind h.block).getD []

def contents (v : ByteVector) (h : Heap UInt8) : List UInt8 := (v.memory h).take v.size

def capacity (v : ByteVector) (h : Heap UInt8) : Nat := (v.memory h).length

def data (v : ByteVector) : Pointer := v.storage.map fun a => (a, 0)

/-- New storage for these elements, and for more of them up to a capacity. -/
def allocate (elements : List UInt8) (capacity : Nat) (h : Heap UInt8) : ByteVector × Heap UInt8 :=
  (⟨some h.next, elements.length⟩, h.alloc (elements ++ List.replicate (capacity - elements.length) 0))

/-- A vector with these elements, which has no storage if it needs none. -/
def ofElements (elements : List UInt8) (capacity : Nat) (h : Heap UInt8) : ByteVector × Heap UInt8 :=
  if elements = [] ∧ capacity = 0 then (empty, h) else allocate elements capacity h

/-- The storage is freed. -/
def release (v : ByteVector) (h : Heap UInt8) : Heap UInt8 :=
  match v.storage with
  | some a => h.free a
  | none => h

/-- The elements from this one on are written in the storage there is. -/
def fill (first : Nat) (elements : List UInt8) (v : ByteVector) (h : Heap UInt8) : Heap UInt8 :=
  (v.storage.bind fun a => h.write a first elements).getD h

/-- `resize`. The allocator refuses, or provides storage with at least some capacity. -/
def resize (newSize : Nat) (answer : Option Nat) (v : ByteVector) (h : Heap UInt8) :
    Except Thrown (ByteVector × Heap UInt8) :=
  if maxSize < newSize then .error .lengthError
  else if newSize ≤ v.size then .ok (⟨v.storage, newSize⟩, h)
  else
    let added := List.replicate (newSize - v.size) 0
    if newSize ≤ v.capacity h then .ok (⟨v.storage, newSize⟩, v.fill v.size added h)
    else
      match answer with
      | none => .error .badAlloc
      | some capacity =>
        let (w, h) := allocate (v.contents h ++ added) capacity h
        .ok (w, v.release h)

/-- The copy constructor. A vector without elements needs no storage. -/
def copy (answer : Option Nat) (v : ByteVector) (h : Heap UInt8) : Except Thrown (ByteVector × Heap UInt8) :=
  if v.size = 0 then .ok (empty, h)
  else
    match answer with
    | none => .error .badAlloc
    | some capacity => .ok (allocate (v.contents h) capacity h)

/-- Copy assignment of `w`: in new storage, or in the storage there is. -/
def assign (answer : Option Nat) (w v : ByteVector) (h : Heap UInt8) :
    Except Thrown (ByteVector × Heap UInt8) :=
  match answer with
  | some capacity => do
    let (u, h) ← w.copy (some capacity) h
    .ok (u, v.release h)
  | none =>
    if w.size ≤ v.capacity h then .ok (⟨v.storage, w.size⟩, v.fill 0 (w.contents h) h) else .error .badAlloc

end ByteVector

/-! ### Objects -/

/-- `dynamic_memory_output_stream`: `mOutputBuffer` and `mOutputBufferSize` of the base class, and `mBuffer`. -/
structure StreamObject where
  data : Pointer
  size : Nat
  buffer : ByteVector
  deriving DecidableEq, Repr

namespace StreamObject

/-- The constructors without a vector. -/
def empty : StreamObject := ⟨none, 0, .empty⟩

/-- The constructor from an existing vector. -/
def ofVector (buffer : ByteVector) : StreamObject := ⟨buffer.data, buffer.size, buffer⟩

def writtenSize (s : StreamObject) : Nat := wrapSub 64 s.buffer.size s.size

def written (s : StreamObject) (h : Heap UInt8) : List UInt8 := (s.buffer.contents h).take s.writtenSize

/-- `data() - mBuffer.data()`, for pointers into the same storage. -/
def offset (s : StreamObject) : Option Nat :=
  match s.data, s.buffer.storage with
  | none, none => some 0
  | some (a, i), some b => if a = b then some i else none
  | _, _ => none

/-- What works on an object and on the memory. -/
abbrev Method : Type := Action Fault (StreamObject × Heap UInt8) Unit

def doGrow (requestedSize : Nat) (answer : Option Nat) : Method := fun o =>
  match o.1.offset with
  | none => (.error .outOfBounds, o)
  | some offset =>
    match bufferSizeFor wordLimit ((o.1.buffer.size + requestedSize) % wordLimit) with
    | .error fault => (.error fault, o)
    | .ok newSize =>
      match o.1.buffer.resize newSize answer o.2 with
      -- only `std::bad_alloc` is caught
      | .error .lengthError => (.error .terminated, o)
      | .error .badAlloc => (.error (.errc .notEnoughMemory), o)
      | .ok (buffer, h) =>
        (.ok (), (⟨buffer.storage.map fun a => (a, offset), wrapSub 64 buffer.size offset, buffer⟩, h))

def ensureSize (requestedSize : Nat) (answer : Option Nat) : Method := fun o =>
  if o.1.size < requestedSize then doGrow requestedSize answer o else (.ok (), o)

/-- Writes `bytes` to `data() + i`, wherever that is. -/
def store (i : Nat) (bytes : List UInt8) : Method := fun o =>
  if i + bytes.length ≤ o.1.size then
    if bytes = [] then (.ok (), o)
    else
      match o.1.data.bind fun p => o.2.write p.1 (p.2 + i) bytes with
      | some h => (.ok (), (o.1, h))
      | none => (.error .outOfBounds, o)
  else (.error .outOfBounds, o)

def commitWritten (numBytes : Nat) : Method := fun o =>
  if numBytes ≤ o.1.size then
    (.ok (), (⟨o.1.data.map fun p => (p.1, p.2 + numBytes), o.1.size - numBytes, o.1.buffer⟩, o.2))
  else (.error .outOfBounds, o)

def doBulkWrite (bytes : List UInt8) (answer : Option Nat) : Method := do
  doGrow bytes.length answer
  store 0 bytes
  commitWritten bytes.length

def bulkWrite (bytes : List UInt8) (answer : Option Nat) : Method := fun o =>
  if bytes.length = 0 then (.ok (), o)
  else
    -- nothing is copied if the buffer is full
    let copyAmount := min bytes.length o.1.size
    (do
      store 0 (bytes.take copyAmount)
      commitWritten copyAmount
      if (bytes.drop copyAmount).length = 0 then pure ()
      else doBulkWrite (bytes.drop copyAmount) answer : Method) o

/-- The vector is the caller's, at this size. -/
def handOver (newSize : Nat) (answer : Option Nat) :
    Action Fault (StreamObject × Heap UInt8) ByteVector := fun o =>
  match o.1.buffer.resize newSize answer o.2 with
  -- nothing may be thrown
  | .error _ => (.error .terminated, o)
  | .ok (buffer, h) => (.ok buffer, (empty, h))

/-- `written() &&`: the vector ends behind what was written. -/
def extract (answer : Option Nat) : Action Fault (StreamObject × Heap UInt8) ByteVector := fun o =>
  handOver o.1.writtenSize answer o

end StreamObject

/-! ### Objects by name -/

inductive ObjectCall (ι : Type) where
  | construct (x : ι)
  /-- From a vector with these elements and this capacity. -/
  | constructFrom (x : ι) (elements : List UInt8) (capacity : Nat)
  | ensureSize (x : ι) (n : Nat) (answer : Option Nat)
  | store (x : ι) (i : Nat) (bytes : List UInt8)
  | commitWritten (x : ι) (n : Nat)
  | bulkWrite (x : ι) (bytes : List UInt8) (answer : Option Nat)
  | extract (x : ι) (answer : Option Nat)
  | copyConstruct (x source : ι) (answer : Option Nat)
  | moveConstruct (x source : ι)
  | copyAssign (x source : ι) (answer : Option Nat)
  | moveAssign (x source : ι)
  | destroy (x : ι)
  deriving DecidableEq, Repr

/-- The streams there are, and the memory they share. -/
structure Objects (ι : Type) where
  streams : ι → Option StreamObject
  heap : Heap UInt8

namespace Objects
variable {ι : Type} [DecidableEq ι]

def start : Objects ι := ⟨fun _ => none, ⟨[]⟩⟩

def set (x : ι) (s : Option StreamObject) (h : Heap UInt8) (w : Objects ι) : Objects ι :=
  ⟨Function.update w.streams x s, h⟩

/-- A method is called on the stream of this name. -/
def on (x : ι) (method : StreamObject.Method) : Action Fault (Objects ι) Unit := fun w =>
  match w.streams x with
  | none => (.error .outOfBounds, w)
  | some s => ((method (s, w.heap)).1, w.set x (some (method (s, w.heap)).2.1) (method (s, w.heap)).2.2)

def perform : ObjectCall ι → Action Fault (Objects ι) Unit
  | .construct x => Action.modify fun w => w.set x (some .empty) w.heap
  | .constructFrom x elements capacity => Action.modify fun w =>
    let (buffer, h) := ByteVector.ofElements elements capacity w.heap
    w.set x (some (.ofVector buffer)) h
  | .ensureSize x n answer => on x (StreamObject.ensureSize n answer)
  | .store x i bytes => on x (StreamObject.store i bytes)
  | .commitWritten x n => on x (StreamObject.commitWritten n)
  | .bulkWrite x bytes answer => on x (StreamObject.bulkWrite bytes answer)
  | .extract x answer => on x (do
    let _ ← StreamObject.extract answer
    pure ())
  | .copyConstruct x source answer => fun w =>
    match w.streams source with
    | none => (.error .outOfBounds, w)
    | some t =>
      match t.buffer.copy answer w.heap with
      -- the exception leaves the constructor, and there is no object
      | .error _ => (.error (.errc .notEnoughMemory), w)
      | .ok (buffer, h) => (.ok (), w.set x (some ⟨t.data, t.size, buffer⟩) h)
  | .moveConstruct x source => fun w =>
    match w.streams source with
    | none => (.error .outOfBounds, w)
    | some t => (.ok (), (w.set source (some ⟨t.data, t.size, .empty⟩) w.heap).set x (some t) w.heap)
  | .copyAssign x source answer => fun w =>
    match w.streams x, w.streams source with
    | some s, some t =>
      if x = source then (.ok (), w)
      else
        -- the base class is assigned first
        match ByteVector.assign answer t.buffer s.buffer w.heap with
        | .error _ => (.error (.errc .notEnoughMemory), w.set x (some ⟨t.data, t.size, s.buffer⟩) w.heap)
        | .ok (buffer, h) => (.ok (), w.set x (some ⟨t.data, t.size, buffer⟩) h)
    | _, _ => (.error .outOfBounds, w)
  | .moveAssign x source => fun w =>
    match w.streams x, w.streams source with
    | some s, some t =>
      let h := s.buffer.release w.heap
      -- a stream moved to itself is left without its vector
      (.ok (), (w.set x (some t) h).set source (some ⟨t.data, t.size, .empty⟩) h)
    | _, _ => (.error .outOfBounds, w)
  | .destroy x => fun w =>
    match w.streams x with
    | none => (.error .outOfBounds, w)
    | some s => (.ok (), w.set x none (s.buffer.release w.heap))

def performOn (call : ObjectCall ι) (w : Objects ι) : Objects ι := (perform call w).2

/-- What `written()` returns. -/
def written (x : ι) (w : Objects ι) : Option (List UInt8) := (w.streams x).map fun s => s.written w.heap

end Objects
end DeepPack
