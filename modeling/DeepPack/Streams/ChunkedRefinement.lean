import DeepPack.Library.Runs
import DeepPack.Streams.ChunkedRead
import DeepPack.Streams.MemoryInputStream

/-! The calls on a stream over chunks, next to the same calls on a stream over the same bytes in memory. -/
namespace DeepPack
open Library

/-- The calls on an input buffer. -/
inductive InputCall where
  | requireInput (n : Nat)
  | discardBuffered (n : Nat)
  | bulkRead (n : Nat)
  deriving DecidableEq, Repr

/-- The call, and the bytes it delivers. -/
def InputCall.perform {σ : Type} [InputStream σ] : InputCall → Input σ (List UInt8)
  | requireInput n => do
    InputBuffer.requireInput n
    pure []
  | discardBuffered n => do
    InputBuffer.discardBuffered n
    pure []
  | bulkRead n => InputBuffer.bulkRead n

namespace ChunkedInputStream

/-- The two streams side by side. -/
abbrev Both : Type := InputBuffer ChunkedInputStream × InputBuffer MemoryInputStream

def performOnBoth (call : InputCall) (p : Both) : Both := ((call.perform p.1).2, (call.perform p.2).2)

/-- What a call may ask for. -/
def Permitted : InputCall → Both → Prop
  | .requireInput n, _ => n ≤ minimumInputBufferSize
  | .discardBuffered n, p => n ≤ p.1.buffer.length
  | .bulkRead _, _ => True

instance : ∀ call p, Decidable (Permitted call p)
  | .requireInput n, _ => inferInstanceAs (Decidable (n ≤ minimumInputBufferSize))
  | .discardBuffered n, p => inferInstanceAs (Decidable (n ≤ p.1.buffer.length))
  | .bulkRead _, _ => isTrue trivial

/-- The call does on the chunks what it does in memory. -/
structure Refines (call : InputCall) (p : Both) : Prop where
  succeeds : (∃ bytes, (call.perform p.1).1 = .ok bytes) ↔ ∃ bytes, (call.perform p.2).1 = .ok bytes
  delivers : ∀ bytes, (call.perform p.1).1 = .ok bytes → (call.perform p.2).1 = .ok bytes
  buffers : ∀ n, call = .requireInput n → (∃ bytes, (call.perform p.1).1 = .ok bytes) →
    n ≤ (call.perform p.1).2.buffer.length
  next : (call.perform p.1).2.buffer <+: (call.perform p.2).2.buffer
  inputSize : (call.perform p.1).2.inputSize = (call.perform p.2).2.buffer.length

/-- The next `n` bytes of the stream end behind the first `r` of a chunk that is still to come. -/
def EndsIn (s : InputBuffer ChunkedInputStream) (n : Nat) (chunk : List UInt8) (r : Nat)
    (post : List (List UInt8)) : Prop :=
  0 < r ∧ r ≤ chunk.length ∧ ∃ held front, s.derived.source = (front ++ chunk :: post).map .ok ∧
    s.inputSize = held + (front ++ chunk :: post).flatten.length ∧ n = held + (front.flatten.length + r)

/-- A bulk read does not end where the stream cannot go on. -/
def Spared : InputCall → Both → Prop
  | .bulkRead n, p => ∀ chunk r post, EndsIn p.1 n chunk r post → GoesOn chunk r post
  | _, _ => True

variable {s : InputBuffer ChunkedInputStream} {left : List UInt8} {n : Nat}

theorem Leaves.inputSize (h : Leaves s left) : s.inputSize = left.length := by
  obtain ⟨held, pending, h, rfl⟩ := h
  rw [h.counted.inputSize, List.length_append]

theorem Leaves.fits (h : Leaves s left) : left.length < wordLimit := by
  obtain ⟨held, pending, hholds, rfl⟩ := h
  rw [List.length_append, ← hholds.counted.inputSize]
  exact hholds.counted.fits

theorem Leaves.next (h : Leaves s left) : s.buffer <+: left := by
  obtain ⟨held, pending, h, rfl⟩ := h
  exact h.buffer_starts.trans (List.prefix_append held _)

/-- Side by side the same bytes are left. -/
def SameLeft (p : Both) : Prop := ∃ left, Leaves p.1 left ∧ p.2 = memoryInput left

theorem refines_ok {call : InputCall} {u : InputBuffer ChunkedInputStream} {bytes rest : List UInt8}
    (hs : call.perform s = (.ok bytes, u))
    (ht : call.perform (memoryInput left) = (.ok bytes, memoryInput rest))
    (hu : Leaves u rest) (hbuffers : ∀ n, call = .requireInput n → n ≤ u.buffer.length) :
    Refines call (s, memoryInput left) ∧ SameLeft (performOnBoth call (s, memoryInput left)) := by
  refine ⟨⟨?_, ?_, ?_, ?_, ?_⟩, rest, ?_, ?_⟩
  · exact ⟨fun _ => ⟨bytes, congrArg Prod.fst ht⟩, fun _ => ⟨bytes, congrArg Prod.fst hs⟩⟩
  · intro bytes' hbytes
    rw [hs] at hbytes
    cases hbytes
    exact congrArg Prod.fst ht
  · intro n hcall _
    rw [hs]
    exact hbuffers n hcall
  · rw [hs, ht]
    exact hu.next
  · rw [hs, ht]
    exact hu.inputSize
  · rw [performOnBoth, hs]
    exact hu
  · rw [performOnBoth, ht]

theorem refines_error {call : InputCall} {e : Fault} (h : Leaves s left) (hs : call.perform s = (.error e, s))
    (ht : call.perform (memoryInput left) = (.error e, memoryInput left)) :
    Refines call (s, memoryInput left) ∧ SameLeft (performOnBoth call (s, memoryInput left)) := by
  have hfails : ¬ ∃ bytes, (call.perform s).1 = .ok bytes := by
    intro hex
    obtain ⟨bytes, hbytes⟩ := hex
    rw [hs] at hbytes
    cases hbytes
  refine ⟨⟨?_, ?_, ?_, ?_, ?_⟩, left, ?_, ?_⟩
  · refine ⟨fun hex => absurd hex hfails, fun hex => ?_⟩
    obtain ⟨bytes, hbytes⟩ := hex
    rw [ht] at hbytes
    cases hbytes
  · intro bytes hbytes
    exact absurd ⟨bytes, hbytes⟩ hfails
  · intro n _ hex
    exact absurd hex hfails
  · rw [hs, ht]
    exact h.next
  · rw [hs, ht]
    exact h.inputSize
  · rw [performOnBoth, hs]
    exact h
  · rw [performOnBoth, ht]

/-! ### Each of the calls -/

theorem requireInput_refines (h : Leaves s left) (hn : n ≤ minimumInputBufferSize) :
    Refines (.requireInput n) (s, memoryInput left) ∧
      SameLeft (performOnBoth (.requireInput n) (s, memoryInput left)) := by
  have hsize := h.inputSize
  have hmemory := MemoryInputStream.requireInput_memory (b := left) n
  by_cases hle : n ≤ left.length
  · obtain ⟨held, pending, hholds, rfl⟩ := h
    have hrounds : pending.length + 1 < rounds s := by
      rw [rounds, hholds.counted.source, List.length_map]
      omega
    obtain ⟨_, u, hu, hready⟩ := hholds.require (hle.trans hsize.ge) hn hrounds
    rw [← requireInput_rounds] at hu
    rw [if_pos hle] at hmemory
    refine refines_ok (Action.bind_ok _ hu) (Action.bind_ok _ hmemory) hready.1 fun m hm => ?_
    cases hm
    exact hready.2
  · rw [if_neg hle] at hmemory
    have hshort : InputBuffer.requireInput n s = (.error (.errc .endOfStream), s) := by
      rw [InputBuffer.requireInput, if_pos (by omega)]
    exact refines_error h (Action.bind_error _ hshort) (Action.bind_error _ hmemory)

theorem discardBuffered_refines (h : Leaves s left) (hn : n ≤ s.buffer.length) :
    Refines (.discardBuffered n) (s, memoryInput left) ∧
      SameLeft (performOnBoth (.discardBuffered n) (s, memoryInput left)) := by
  have hle : n ≤ left.length := hn.trans h.next.length_le
  have hmemory := MemoryInputStream.discardBuffered_memory h.fits hle
  obtain ⟨held, pending, hholds, rfl⟩ := h
  have hheld : n ≤ held.length := hn.trans hholds.buffer_starts.length_le
  refine refines_ok (Action.bind_ok _ (discardBuffered_eq hn)) (Action.bind_ok _ hmemory) ?_ nofun
  rw [List.drop_append_of_le_length hheld]
  exact (hholds.ahead hn).leaves

/-- What is read beyond the bytes held is the end of what is held, and so much of the chunks. -/
theorem EndsIn.pending_eq {held chunk : List UInt8} {pending post : List (List UInt8)} {r : Nat}
    (h : Counted s held pending) (hends : EndsIn s n chunk r post) :
    ∃ front, pending = front ++ chunk :: post ∧ n = held.length + (front.flatten.length + r) := by
  obtain ⟨-, -, count, front, hsource, hsize, hn⟩ := hends
  have hmap := h.source.symm.trans hsource
  obtain rfl : pending = front ++ chunk :: post := (List.map_inj_right fun _ _ => Except.ok.inj).mp hmap
  have hcount : count = held.length := by
    have hheld := h.inputSize
    omega
  exact ⟨front, rfl, hcount ▸ hn⟩

theorem bulkRead_refines (h : Leaves s left) (hspared : Spared (.bulkRead n) (s, memoryInput left)) :
    Refines (.bulkRead n) (s, memoryInput left) ∧
    SameLeft (performOnBoth (.bulkRead n) (s, memoryInput left)) := by
  have hsize := h.inputSize
  have hmemory := MemoryInputStream.bulkRead_memory n h.fits
  by_cases hle : n ≤ left.length
  · rw [if_pos hle] at hmemory
    obtain ⟨held, pending, hholds, rfl⟩ := h
    by_cases hheld : n ≤ held.length
    · obtain ⟨bytes, u, hu, rfl, hrest⟩ := hholds.bulk_held hheld
      rw [← bulkRead_rounds, ← List.take_append_of_le_length hheld] at hu
      refine refines_ok hu hmemory ?_ nofun
      rw [List.drop_append_of_le_length hheld]
      exact hrest.leaves
    · obtain ⟨t, ht, heq⟩ := hholds.bulk_beyond (hle.trans hsize.ge) (Nat.lt_of_not_le hheld)
      rw [← bulkRead_rounds] at heq
      rw [List.length_append] at hle
      obtain ⟨front, chunk, post, r, rfl, hamount, hr, hrle⟩ :=
        ht.chunks.ends (n - held.length) (by omega) (by omega)
      have hon := hspared chunk r post ⟨hr, hrle, held.length, front, hholds.counted.source,
        hholds.counted.inputSize, by omega⟩
      obtain ⟨bytes, u, hu, rfl, hrest, -⟩ := readChunks_goesOn ht (.inr hr) hrle hon
      rw [hamount] at heq
      have hleft : held ++ (front ++ chunk :: post).flatten =
          (held ++ (front.flatten ++ chunk.take r)) ++ (chunk.drop r ++ post.flatten) := by
        conv_lhs => rw [List.flatten_append, List.flatten_cons, ← List.take_append_drop r chunk]
        simp only [List.append_assoc]
      have hlen : (held ++ (front.flatten ++ chunk.take r)).length = n := by
        rw [List.length_append, List.length_append, List.length_take_of_le hrle]
        omega
      rw [hleft, List.take_left' hlen, List.drop_left' hlen] at hmemory
      rw [hleft]
      exact refines_ok (heq.trans (Action.bind_ok _ hu)) (hleft ▸ hmemory) hrest nofun
  · rw [if_neg hle] at hmemory
    have hshort : InputBuffer.bulkRead n s = (.error (.errc .endOfStream), s) := by
      rw [InputBuffer.bulkRead, if_neg (by omega), if_pos (by omega)]
    exact refines_error h hshort hmemory

/-- A bulk read that ends in a chunk to come reads what is held, and then chunk by chunk. -/
theorem EndsIn.bulk {chunk : List UInt8} {r : Nat} {post : List (List UInt8)} (hends : EndsIn s n chunk r post)
    (h : Leaves s left) : n ≤ left.length ∧ ∃ held front t, Plain t [] (front ++ chunk :: post) ∧
      InputBuffer.bulkRead n s = (do
        let rest ← readChunks (front.flatten.length + r)
        pure (held ++ rest) : Input ChunkedInputStream (List UInt8)) t := by
  have hsize := h.inputSize
  obtain ⟨held, pending, hholds, rfl⟩ := h
  obtain ⟨front, rfl, hn⟩ := EndsIn.pending_eq hholds.counted hends
  obtain ⟨hr, hrle, -⟩ := hends
  have hle : n ≤ (held ++ (front ++ chunk :: post).flatten).length := by
    rw [List.length_append, List.flatten_append, List.length_append, List.flatten_cons, List.length_append]
    omega
  obtain ⟨t, ht, heq⟩ := hholds.bulk_beyond (hle.trans hsize.ge) (by omega)
  have hamount : n - held.length = front.flatten.length + r := by omega
  rw [← bulkRead_rounds, hamount] at heq
  exact ⟨hle, held, front, t, ht, heq⟩

theorem spared_of_refines (h : Leaves s left) (hrefines : Refines (.bulkRead n) (s, memoryInput left)) :
    Spared (.bulkRead n) (s, memoryInput left) := by
  intro chunk r post hends
  by_contra hoff
  have hmemory := MemoryInputStream.bulkRead_memory n h.fits
  obtain ⟨hle, held, front, t, ht, heq⟩ := hends.bulk h
  rw [if_pos hle] at hmemory
  obtain ⟨e, u, hu⟩ := readChunks_fails ht hends.2.1 hoff
  obtain ⟨bytes, hbytes⟩ := hrefines.succeeds.mpr ⟨_, congrArg Prod.fst hmemory⟩
  rw [show (InputCall.bulkRead n).perform s = _ from heq.trans (Action.bind_error _ hu)] at hbytes
  cases hbytes

/-! ### Runs -/

/-- A stream over chunks that was just opened, and one over their bytes. -/
def openedOn (chunks : List (List UInt8)) : Both :=
  (chunkedInput [] chunks.flatten.length (chunks.map .ok), memoryInput chunks.flatten)

theorem sameLeft_openedOn {chunks : List (List UInt8)} (hchunks : AreChunks chunks)
    (hfits : chunks.flatten.length < wordLimit) : SameLeft (openedOn chunks) := by
  have hholds : Holds (openedOn chunks).1 [] chunks := by
    refine .inl ⟨⟨hchunks, rfl, List.length_replicate, ?_, hfits⟩, rfl, rfl⟩
    exact (Nat.zero_add _).symm
  exact ⟨chunks.flatten, hholds.leaves, rfl⟩

theorem refines_iff_spared {call : InputCall} {p : Both} (hp : SameLeft p) (hpermitted : Permitted call p) :
    (Refines call p ↔ Spared call p) ∧ (Refines call p → SameLeft (performOnBoth call p)) := by
  obtain ⟨s, t⟩ := p
  obtain ⟨left, hleft, rfl⟩ := hp
  cases call with
  | requireInput n =>
    have hrefines := requireInput_refines hleft hpermitted
    exact ⟨⟨fun _ => trivial, fun _ => hrefines.1⟩, fun _ => hrefines.2⟩
  | discardBuffered n =>
    have hrefines := discardBuffered_refines hleft hpermitted
    exact ⟨⟨fun _ => trivial, fun _ => hrefines.1⟩, fun _ => hrefines.2⟩
  | bulkRead n =>
    refine ⟨⟨spared_of_refines hleft, fun h => (bulkRead_refines hleft h).1⟩, fun h => ?_⟩
    exact (bulkRead_refines hleft (spared_of_refines hleft h)).2

/-- A run on the chunks is a run in memory exactly if every bulk read of it ends where the stream can go on. -/
theorem chunked_refines_memory {chunks : List (List UInt8)} {calls : List InputCall}
    (hchunks : AreChunks chunks) (hfits : chunks.flatten.length < wordLimit)
    (hpermitted : EveryStep performOnBoth Permitted calls (openedOn chunks)) :
    EveryStep performOnBoth Refines calls (openedOn chunks) ↔
      EveryStep performOnBoth Spared calls (openedOn chunks) := by
  refine hpermitted.iff_of_invariant SameLeft (sameLeft_openedOn hchunks hfits) ?_ ?_
  · intro call p hp hcall
    exact (refines_iff_spared hp hcall).1
  · intro call p hp hcall hrefines
    exact (refines_iff_spared hp hcall).2 hrefines

/-- Bytes are required across the end of a chunk, and read. -/
theorem chunked_refines_memory_fused :
    EveryStep performOnBoth Refines [.requireInput 2, .discardBuffered 1, .bulkRead 1]
    (openedOn [[1], [2, 3]]) := by
  refine (chunked_refines_memory (by decide) (by decide) (by decide)).mpr ⟨trivial, trivial, ?_, trivial⟩
  -- nothing is left to acquire
  intro chunk r post hends
  obtain ⟨_, _, _, front, hsource, _⟩ := hends
  have hempty := congrArg List.length hsource
  rw [List.length_map, List.length_append, List.length_cons] at hempty
  have hzero : (performOnBoth (.discardBuffered 1) (performOnBoth (.requireInput 2)
      (openedOn [[1], [2, 3]]))).1.derived.source.length = 0 := by decide
  omega

/-- The last byte of a stream cannot be read in bulk. -/
theorem last_bulk_read_fails : ¬ ∀ chunks calls, AreChunks chunks → chunks.flatten.length < wordLimit →
    EveryStep performOnBoth Permitted calls (openedOn chunks) →
    EveryStep performOnBoth Refines calls (openedOn chunks) := by
  intro h
  have hrefines := (h [[1]] [.bulkRead 1] (by decide) (by decide) (by decide)).1
  have hmemory : ((InputCall.bulkRead 1).perform (openedOn [[1]]).2).1 = .ok [1] := by decide
  have hfails : ((InputCall.bulkRead 1).perform (openedOn [[1]]).1).1 =
    .error (.errc .endOfStream) := by decide
  obtain ⟨bytes, hbytes⟩ := hrefines.succeeds.mpr ⟨[1], hmemory⟩
  rw [hfails] at hbytes
  cases hbytes

end ChunkedInputStream
end DeepPack
