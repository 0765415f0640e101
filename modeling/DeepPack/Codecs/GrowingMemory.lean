import DeepPack.Codecs.EncodePreserving
import DeepPack.Codecs.Transport
import DeepPack.Streams.DynamicMemoryOutputStream

/-! Into memory that grows, and out of it.

A stream into memory that grows is truthful about what was written, whatever the
allocator answers and also where the size of its buffer wraps. So values that are encoded
one after the other are there up to the one that fails, and decoding what was written
delivers them. -/
namespace DeepPack
open Library OutputBuffer

namespace DynamicMemoryOutputStream
variable {s t : OutputBuffer DynamicMemoryOutputStream} {bytes : List UInt8}

/-- Growing leaves what was written, also where it fails. -/
theorem written_doGrow (n : Nat) (s : OutputBuffer DynamicMemoryOutputStream) :
    written (doGrow n s).2 = written s := by
  unfold doGrow
  rcases bufferSizeFor wordLimit (((buffer s).length + n) % wordLimit) with fault | size
  · rfl
  rcases resize_cases size s with ⟨-, hresize⟩ | ⟨-, -, -, grants, hresize⟩ |
    ⟨-, resized, grants, hresize, hlen, htake⟩
  · simp only [hresize, answered_written]
  · simp only [hresize, answered_written]
  · by_cases hoffset : size < offset s
    · simp only [hresize, hlen, if_pos hoffset, answered_written]
    · simp only [hresize, hlen, if_neg hoffset]
      rw [written_eq, reset, List.append_nil]
      exact htake (Nat.not_lt.mp hoffset)

theorem written_ensureSize (n : Nat) (s : OutputBuffer DynamicMemoryOutputStream) :
    written (ensureSize n s).2 = written s := by
  unfold ensureSize
  split
  · exact written_doGrow n s
  · rfl

theorem written_doBulkWrite (hrun : doBulkWrite bytes s = (.ok (), t)) : written t = written s ++ bytes := by
  obtain ⟨_, u, hgrow, hrest⟩ := Action.bind_eq_ok.mp hrun
  obtain ⟨_, w, hstore, hcommit⟩ := Action.bind_eq_ok.mp hrest
  have hu : written u = written s := congrArg (fun p => written p.2) hgrow ▸ written_doGrow bytes.length s
  unfold store at hstore
  split at hstore <;> cases hstore
  rename_i hroom
  unfold commitWritten at hcommit
  split at hcommit <;> cases hcommit
  have hput := put_take u hroom
  rw [Nat.zero_add, List.take_zero, List.nil_append] at hput
  rw [written_commit, written_put, hput, hu]

/-- A bulk write that does not fit has filled the buffer when the stream is asked. -/
theorem written_filled (s : OutputBuffer DynamicMemoryOutputStream) (bytes : List UInt8) :
    written ⟨s.behind ++ bytes, [], s.derived⟩ = written s ++ bytes := by
  rw [written_eq, written_eq, List.append_assoc]

/-- The stream is truthful about what was written. -/
def truthful : TruthfulOutput DynamicMemoryOutputStream where
  Holds s out := written s = out
  ensure := by
    intro s out n t hs _ hrun
    have hkept := written_ensureSize n s
    rw [hrun] at hkept
    exact hkept.trans hs
  put := fun hs _ => (written_put _).trans hs
  commit := by
    intro s out n hs _
    rw [written_commit, hs]
  bulk := by
    intro s out bytes t hs hrun
    rcases Nat.lt_or_ge s.free.length bytes.length with hroom | hroom
    · rw [TruthfulOutput.bulkWrite_across hroom] at hrun
      rw [written_doBulkWrite hrun, written_filled, List.append_assoc, List.take_append_drop, hs]
    · obtain ⟨u, hu, hbehind, -, hderived⟩ := bulkWrite_enough hroom
      cases hrun.symm.trans hu
      rw [← hs, written_eq, written_eq, hbehind, hderived, List.append_assoc]

/-- What was written when a run began is still in front. -/
def InFront (front : List UInt8) (s : OutputBuffer DynamicMemoryOutputStream) : Prop := front <+: written s

variable {front : List UInt8}

theorem InFront.of_eq (h : InFront front s) (heq : written t = written s) : InFront front t := by
  rwa [InFront, heq]

theorem InFront.append (h : InFront front s) (heq : written t = written s ++ bytes) : InFront front t := by
  rw [InFront, heq]
  exact h.trans (List.prefix_append _ _)

theorem preserves_store (i : Nat) (bytes : List UInt8) :
    (store i bytes : Output DynamicMemoryOutputStream Unit).Preserves (InFront front) := by
  intro s hs
  unfold store
  split
  · exact hs.of_eq (written_put i)
  · exact hs

theorem preserves_commitWritten (n : Nat) :
    (commitWritten n : Output DynamicMemoryOutputStream Unit).Preserves (InFront front) := by
  intro s hs
  unfold commitWritten
  split
  · exact hs.append written_commit
  · exact hs

theorem preserves_doBulkWrite (bytes : List UInt8) : (doBulkWrite bytes).Preserves (InFront front) := by
  have hgrow : (doGrow bytes.length).Preserves (InFront front) := fun s hs => hs.of_eq (written_doGrow _ s)
  exact hgrow.bind fun _ => (preserves_store 0 bytes).bind fun _ => preserves_commitWritten _

/-- Whatever a call comes to, what was written stays in front. -/
def inFront (front : List UInt8) : OutputInvariant DynamicMemoryOutputStream where
  Holds := InFront front
  ensure n s hs := hs.of_eq (written_ensureSize n s)
  store := preserves_store
  commit := preserves_commitWritten
  bulk bytes s hs := by
    rcases Nat.lt_or_ge s.free.length bytes.length with hroom | hroom
    · rw [TruthfulOutput.bulkWrite_across hroom]
      exact preserves_doBulkWrite _ _ (hs.append (written_filled s _))
    · obtain ⟨u, hu, hbehind, -, hderived⟩ := bulkWrite_enough hroom
      rw [hu]
      exact hs.append (by rw [written_eq, written_eq, hbehind, hderived, List.append_assoc])

end DynamicMemoryOutputStream

open DynamicMemoryOutputStream

variable {n : Nat} {δ : Fin n → Type} {c : ∀ i, Encoder (δ i)} {d : ∀ i, Decoder (δ i)} {arrays : Prop}

/-- The values in front of the one that fails are written. -/
theorem encode_members_written (h : ∀ i, Encodable (c i)) {v : ∀ i, δ i} (hv : ∀ i, (c i).IsValue (v i))
    (l : List (Fin n)) {s o : OutputBuffer DynamicMemoryOutputStream} {r : Except Fault Unit}
    (hrun : Action.forList (fun i => (c i).encode (v i) DynamicMemoryOutputStream) l s = (r, o)) :
    (r = .ok () ∧ written o = written s ++ l.flatMap fun i => (c i).bytes (v i)) ∨
      ∃ pre k post u, l = pre ++ k :: post ∧
        Action.forList (fun i => (c i).encode (v i) DynamicMemoryOutputStream) pre s = (.ok (), u) ∧
        (c k).encode (v k) DynamicMemoryOutputStream u = (r, o) ∧ r ≠ .ok () ∧
        (written s ++ pre.flatMap fun i => (c i).bytes (v i)) <+: written o := by
  induction l generalizing s with
  | nil =>
    cases hrun
    exact .inl ⟨rfl, (List.append_nil _).symm⟩
  | cons i l ih =>
    rcases hi : (c i).encode (v i) DynamicMemoryOutputStream s with ⟨f | _, u⟩
    · -- the value is not whole, but what was there is
      cases hrun.symm.trans (Action.bind_error _ hi)
      have hfront := (h i).preserving (v i) (inFront (written s)) s (List.prefix_refl _)
      rw [hi] at hfront
      exact .inr ⟨[], i, l, s, rfl, rfl, hi, nofun, (List.append_nil _).symm ▸ hfront⟩
    · have hu : written u = written s ++ (c i).bytes (v i) := encode_truthful (h i) (hv i) truthful rfl hi
      rcases ih ((Action.bind_ok _ hi).symm.trans hrun) with ⟨hok, ho⟩ | ⟨pre, k, post, w, rfl, hpre, hk, hr, ho⟩
      · exact .inl ⟨hok, by rw [ho, hu, List.append_assoc, List.flatMap_cons]⟩
      · refine .inr ⟨i :: pre, k, post, w, rfl, (Action.bind_ok _ hi).trans hpre, hk, hr, ?_⟩
        rwa [List.flatMap_cons, ← List.append_assoc, ← hu]

/-- Decoding some members leaves the others. -/
theorem decode_members_others {σ : Type} [InputStream σ] (l : List (Fin n)) {s t : InputBuffer σ} {x y : ∀ i, δ i}
    {r : Except Fault Unit}
    (hrun : Action.forList (fun i => onMember i ((d i).decode σ)) l (s, x) = (r, (t, y))) {j : Fin n} (hj : j ∉ l) :
    y j = x j := by
  induction l generalizing s x with
  | nil =>
    cases hrun
    rfl
  | cons i l ih =>
    rw [List.mem_cons, not_or] at hj
    rcases hi : (d i).decode σ (s, x i) with ⟨f | _, u, w⟩
    · have hmember : onMember i ((d i).decode σ) (s, x) = (.error f, (u, Function.update x i w)) := by
        simp only [onMember, Action.within, hi]
      cases hrun.symm.trans (Action.bind_error _ hmember)
      exact Function.update_of_ne hj.1 _ _
    · have hmember : onMember i ((d i).decode σ) (s, x) = (.ok (), (u, Function.update x i w)) := Action.within_ok hi
      rw [ih ((Action.bind_ok _ hmember).symm.trans hrun) hj.2, Function.update_of_ne hj.1]

/-- Whatever the allocator answers, encoding to memory that grows adds to what was written. If all of it succeeds, the
encodings are what was added, and the values are decoded from any input of that. If one fails, the encodings of those in
front of it were added, and they are decoded. -/
theorem decodeAll_written (h : ∀ i, LibraryCodec LibraryLeaf arrays (c i) (d i)) {v : ∀ i, δ i}
    (hv : ∀ i, (c i).IsValue (v i)) {s o : OutputBuffer DynamicMemoryOutputStream} {r : Except Fault Unit}
    (hwrite : encodeAll c v DynamicMemoryOutputStream s = (r, o)) :
    ∃ added, written o = written s ++ added ∧
      ((r = .ok () ∧ added = memberBytes c v ∧
          ∀ {σ : Type} [InputStream σ] (C : InputContract σ) {i : InputBuffer σ} {rest : List UInt8}, C.Valid i →
            C.unread i = added ++ rest → ∀ x, ∃ t, decodeAll d σ (i, x) = (.ok (), (t, v)) ∧ C.Valid t ∧
              C.unread t = rest) ∨
        ∃ pre k post u, List.finRange n = pre ++ k :: post ∧
          Action.forList (fun i => (c i).encode (v i) DynamicMemoryOutputStream) pre s = (.ok (), u) ∧
          (c k).encode (v k) DynamicMemoryOutputStream u = (r, o) ∧ r ≠ .ok () ∧
          (pre.flatMap fun i => (c i).bytes (v i)) <+: added ∧
          ∀ {σ : Type} [InputStream σ] (C : InputContract σ) {i : InputBuffer σ} {rest : List UInt8}, C.Valid i →
            C.unread i = added ++ rest → ∀ x, ∀ j ∈ pre, (decodeAll d σ (i, x)).2.2 j = v j) := by
  have hencodable : ∀ i, Encodable (c i) := fun i => (h i).encodable LibraryLeaf.encodable
  rcases encode_members_written hencodable hv (List.finRange n) hwrite with
    ⟨hok, ho⟩ | ⟨pre, k, post, u, hsplit, hpre, hk, hr, tail, htail⟩
  · refine ⟨_, ho, .inl ⟨hok, rfl, fun C i rest hi hunread x => ?_⟩⟩
    obtain ⟨t, y, ht, hvt, hut, hdone, -⟩ := decode_members h hv (List.finRange n) hi hunread x
    obtain rfl : y = v := funext fun j => hdone j (List.mem_finRange j)
    exact ⟨t, ht, hvt, hut⟩
  · rw [List.append_assoc] at htail
    refine ⟨_, htail.symm, .inr ⟨pre, k, post, u, hsplit, hpre, hk, hr, List.prefix_append _ tail,
      fun C i rest hi hunread x j hj => ?_⟩⟩
    rw [List.append_assoc] at hunread
    obtain ⟨t, y, ht, -, -, hdone, -⟩ := decode_members h hv pre hi hunread x
    have hnodup : (pre ++ k :: post).Nodup := hsplit ▸ List.nodup_finRange n
    have hothers : j ∉ k :: post := List.disjoint_of_nodup_append hnodup hj
    rw [decodeAll, mpForDots, hsplit, Action.forList_append, Action.bind_ok _ ht, ← hdone j hj]
    exact decode_members_others (k :: post) rfl hothers

/-- There are two bytes of memory and no more: the second string is not written, the first is. -/
theorem decodeAll_written_refused :
    (decodeAll (fun _ : Fin 2 => stringDecoder) MemoryInputStream
      (memoryInput (written (encodeAll (fun _ : Fin 2 => stringEncoder) (twoStrings [0x41] [0x42])
        DynamicMemoryOutputStream (fromVector [0, 0] [])).2), fun _ => [])).2.2 0 = [0x41] := by
  have hcodec : ∀ _ : Fin 2, LibraryCodec LibraryLeaf False stringEncoder stringDecoder := fun _ => .leaf .string
  have hvalues : ∀ i, stringEncoder.IsValue (twoStrings [0x41] [0x42] i) := isValue_strings (by decide)
  rcases hrun : encodeAll (fun _ : Fin 2 => stringEncoder) (twoStrings [0x41] [0x42]) DynamicMemoryOutputStream
    (fromVector [0, 0] []) with ⟨r, o⟩
  have hr : r = .error (.errc .notEnoughMemory) := (congrArg Prod.fst hrun).symm.trans (by decide +kernel)
  have hfits : (written o).length < wordLimit := (congrArg (fun p => (written p.2).length) hrun) ▸ by decide +kernel
  obtain ⟨added, hadded, ⟨hok, -⟩ | ⟨pre, k, post, u, hsplit, hpre, hk, -, -, hread⟩⟩ :=
    decodeAll_written hcodec hvalues hrun
  · cases hr.symm.trans hok
  have hfirst : 0 ∈ pre := by
    cases pre with
    | nil =>
      obtain rfl : k = 0 := (List.cons.inj hsplit).1.symm
      cases hpre
      exact absurd (hr.symm.trans (congrArg Prod.fst hk).symm) (by decide +kernel)
    | cons i pre => exact (List.cons.inj hsplit).1 ▸ List.mem_cons_self
  exact hread MemoryInputStream.contract (MemoryInputStream.valid_memory hfits)
    (hadded.trans (List.append_nil _).symm) _ 0 hfirst

end DeepPack
