import DeepPack.Codecs.Chunks
import DeepPack.Codecs.EncodeCarrying
import DeepPack.Codecs.Sequences
import DeepPack.Streams.AppendLog

/-! From chunks to chunks.

A stream into chunks is truthful: what it took without failing is in its log, and after a
synchronization in the chunks. Values that are encoded one after the other are decoded
from the bytes of the chunks, whichever way these are cut into chunks again, up to the
first call that fails. -/
namespace DeepPack
open Library

namespace ChunkedOutputStream
variable {total : Nat} {s t : OutputBuffer ChunkedOutputStream} {out : List UInt8}

/-- A call that succeeds is logged. -/
theorem Logs.performed (h : Logs total s out) (call : OutputCall) (hpermitted : Permitted call (s, out))
    (hrun : perform call s = (.ok (), t)) : Logs total t (out ++ writes s call) := by
  have hlogs := (keeps_iff_spared h hpermitted).2 (keeps_ok hrun)
  rwa [performLogged, hrun] at hlogs

/-- A stream into chunks is truthful about its log. -/
def truthful (total : Nat) : TruthfulOutput ChunkedOutputStream where
  Holds := Logs total
  ensure := by
    intro s out n t hs hn hrun
    have hlogs : Logs total t (out ++ []) := hs.performed (.ensureSize n) hn hrun
    rwa [List.append_nil] at hlogs
  put := by
    intro s out i bytes hs hroom
    have hlogs : Logs total (s.put i bytes) (out ++ []) :=
      hs.performed (.store i bytes) hroom (OutputBuffer.store_apply hroom)
    rwa [List.append_nil] at hlogs
  commit := fun hs hroom => hs.performed (.commitWritten _) hroom (OutputBuffer.commitWritten_apply hroom)
  bulk := by
    intro s out bytes t hs hrun
    have hperform : perform (.bulkWrite bytes) s = (.ok (), t) := hrun
    have hlogs := hs.performed (.bulkWrite bytes) trivial hrun
    rwa [writes, hperform] at hlogs

/-- What was logged is in the chunks after a synchronization. -/
theorem Logs.synced (h : Logs total s out) (hrun : syncOutput s = (.ok (), t)) : out <+: contents t := by
  have hspared := (syncOutput_keeps h).2 (keeps_ok hrun)
  have hsync := ((syncOutput_keeps h).1 hspared).2
  rw [Action.Meets, hrun] at hsync
  exact hsync.2 rfl

end ChunkedOutputStream

variable {n : Nat} {δ : Fin n → Type} {c : ∀ i, Encoder (δ i)} {d : ∀ i, Decoder (δ i)} {arrays : Prop}

/-! ### Writing -/

theorem encode_members_truthful (h : ∀ i, Encodable (c i)) {v : ∀ i, δ i} (hv : ∀ i, (c i).IsValue (v i)) {σ : Type}
    [OutputStream σ] (T : TruthfulOutput σ) (l : List (Fin n)) {s t : OutputBuffer σ} {out : List UInt8} (hs : T.Holds s out)
    (hrun : Action.forList (fun i => (c i).encode (v i) σ) l s = (.ok (), t)) :
    T.Holds t (out ++ l.flatMap fun i => (c i).bytes (v i)) := by
  induction l generalizing s out with
  | nil =>
    cases hrun
    rwa [List.flatMap_nil, List.append_nil]
  | cons i l ih =>
    obtain ⟨_, u, hu, hrest⟩ := Action.bind_eq_ok.mp hrun
    have hnext := ih (encode_truthful (h i) (hv i) T hs hu) hrest
    rwa [List.append_assoc] at hnext

/-- What is encoded one after the other on a stream that may fail at any call, and may grow by less than it was asked
for, has been put out if all of it succeeds. -/
theorem encodeAll_truthful (h : ∀ i, Encodable (c i)) {v : ∀ i, δ i} (hv : ∀ i, (c i).IsValue (v i)) {σ : Type}
    [OutputStream σ] (T : TruthfulOutput σ) {s t : OutputBuffer σ} {out : List UInt8} (hs : T.Holds s out)
    (hrun : encodeAll c v σ s = (.ok (), t)) : T.Holds t (out ++ memberBytes c v) :=
  encode_members_truthful h hv T _ hs hrun

/-- Two strings into chunks of two bytes and of one. -/
theorem encodeAll_truthful_strings :
    ChunkedOutputStream.Logs 5 (encodeAll (fun _ : Fin 2 => stringEncoder) (twoStrings [0x41] []) ChunkedOutputStream
      (chunkedOutput [] 5 [.ok [0, 0], .ok [0], .ok [0, 0]])).2 [0x61, 0x41, 0x60] := by
  have hlogs : ChunkedOutputStream.Logs 5 (chunkedOutput [] 5 [.ok [0, 0], .ok [0], .ok [0, 0]]) [] :=
    (ChunkedOutputStream.logs_openedOn (by decide) (by decide) :
      ChunkedOutputStream.Logs 5 (ChunkedOutputStream.openedOn [[0, 0], [0], [0, 0]]).1 [])
  have hok : (encodeAll (fun _ : Fin 2 => stringEncoder) (twoStrings [0x41] []) ChunkedOutputStream
      (chunkedOutput [] 5 [.ok [0, 0], .ok [0], .ok [0, 0]])).1 = .ok () :=
    rfl
  have hbytes : memberBytes (fun _ : Fin 2 => stringEncoder) (twoStrings [0x41] []) = [0x61, 0x41, 0x60] :=
    rfl
  rw [← hbytes]
  exact encodeAll_truthful (fun _ => .string) (isValue_strings (by decide)) (ChunkedOutputStream.truthful 5) hlogs
    (Prod.ext hok rfl)

/-! ### Reading -/

section Reading
variable {σ : Type} [InputStream σ] {T : TruthfulInput σ} {s t : InputBuffer σ} {rest : List UInt8}

/-- The value in front of a stream that may fail at any call, if it is decoded. -/
theorem decode_next {α : Type} {c : Encoder α} {d : Decoder α} (h : LibraryCodec LibraryLeaf arrays c d) (hs : T.Valid s)
    {v x w : α} (hv : c.IsValue v) (hunread : T.unread s = c.bytes v ++ rest)
    (hrun : d.decode σ (s, x) = (.ok (), (t, w))) : w = v ∧ T.Valid t ∧ T.unread t = rest := by
  obtain ⟨hmemory, hvalid⟩ := decode_truthful (h.withLeaves .leaf) T hs hrun
  have hlen := T.inputSize_lt hs
  rw [hunread] at hmemory hlen
  obtain ⟨u, hu, -, hleft⟩ := h.decodes MemoryInputStream.contract (MemoryInputStream.valid_memory hlen) hv rfl x
  cases hmemory.symm.trans hu
  exact ⟨rfl, hvalid, hleft⟩

/-- The members in front of the one that fails are decoded, those behind it are left. -/
theorem decode_members_truthful (h : ∀ i, LibraryCodec LibraryLeaf arrays (c i) (d i)) {v : ∀ i, δ i}
    (hv : ∀ i, (c i).IsValue (v i)) {l : List (Fin n)} (hl : l.Nodup) (hs : T.Valid s)
    (hunread : T.unread s = (l.flatMap fun i => (c i).bytes (v i)) ++ rest) {x y : ∀ i, δ i} {r : Except Fault Unit}
    (hrun : Action.forList (fun i => onMember i ((d i).decode σ)) l (s, x) = (r, (t, y))) :
    (r = .ok () ∧ (∀ i ∈ l, y i = v i) ∧ (∀ i, i ∉ l → y i = x i) ∧ T.Valid t ∧ T.unread t = rest) ∨
      ∃ f, r = .error f ∧ ReadUpTo l v x y := by
  induction l generalizing s x with
  | nil =>
    cases hrun
    exact .inl ⟨rfl, nofun, fun _ _ => rfl, hs, hunread⟩
  | cons i l ih =>
    rw [List.flatMap_cons, List.append_assoc] at hunread
    rcases hi : (d i).decode σ (s, x i) with ⟨f | _, u, w⟩
    · -- the member fails
      have hmember : onMember i ((d i).decode σ) (s, x) = (.error f, (u, Function.update x i w)) := by
        simp only [onMember, Action.within, hi]
      cases hrun.symm.trans (Action.bind_error _ hmember)
      exact .inr ⟨f, rfl, readUpTo_head l v x i w⟩
    · obtain ⟨rfl, hu, hleft⟩ := decode_next (h i) hs (hv i) hunread hi
      have hmember : onMember i ((d i).decode σ) (s, x) = (.ok (), (u, Function.update x i (v i))) := Action.within_ok hi
      obtain ⟨hnotin, hnodup⟩ := List.nodup_cons.mp hl
      rcases ih hnodup hu hleft ((Action.bind_ok _ hmember).symm.trans hrun) with ⟨hok, hdone, hkept, ht⟩ | ⟨f, hf, hread⟩
      · refine .inl ⟨hok, fun j hj => ?_, fun j hj => ?_, ht⟩
        · rcases List.mem_cons.mp hj with rfl | hj
          · rw [hkept _ hnotin, Function.update_self]
          · exact hdone j hj
        · rw [List.mem_cons, not_or] at hj
          rw [hkept j hj.2, Function.update_of_ne hj.1]
      · exact .inr ⟨f, hf, hread.cons hnotin⟩

/-- What is decoded one after the other from a stream that may fail at any call is what was encoded one after the
other, up to the value where it fails; what comes after that is untouched. -/
theorem decodeAll_truthful (h : ∀ i, LibraryCodec LibraryLeaf arrays (c i) (d i)) {v : ∀ i, δ i}
    (hv : ∀ i, (c i).IsValue (v i)) (hs : T.Valid s) (hunread : T.unread s = memberBytes c v ++ rest) {x y : ∀ i, δ i}
    {r : Except Fault Unit} (hrun : decodeAll d σ (s, x) = (r, (t, y))) :
    (r = .ok () ∧ y = v ∧ T.Valid t ∧ T.unread t = rest) ∨
      ∃ f k, r = .error f ∧ (∀ i, i < k → y i = v i) ∧ ∀ i, k < i → y i = x i := by
  rcases decode_members_truthful h hv (List.nodup_finRange n) hs hunread hrun with
    ⟨hok, hdone, -, ht⟩ | ⟨f, hf, hread⟩
  · exact .inl ⟨hok, funext fun i => hdone i (List.mem_finRange i), ht⟩
  · obtain ⟨k, hdone, hkept⟩ := hread.of_all
    exact .inr ⟨f, k, hf, hdone, hkept⟩

/-- The source fails behind the first of two strings. -/
theorem decodeAll_truthful_strings :
    let run := decodeAll (fun _ : Fin 2 => stringDecoder) ChunkedInputStream
      (chunkedInput [0x61] 3 [.ok [0x41], .error .endOfStream, .ok [0x60]], fun _ => [0x42])
    ∃ k, (∀ i, i < k → run.2.2 i = twoStrings [0x41] [] i) ∧ ∀ i, k < i → run.2.2 i = [0x42] := by
  intro run
  have h : ∀ _ : Fin 2, LibraryCodec LibraryLeaf False stringEncoder stringDecoder := fun _ => .leaf .string
  have hbytes : memberBytes (fun _ : Fin 2 => stringEncoder) (twoStrings [0x41] []) ++ [] = [0x61, 0x41, 0x60] :=
    rfl
  have hsized : ChunkedInputStream.AreSized [.ok [0x41], .error .endOfStream, .ok [0x60]] :=
    ChunkedInputStream.areSized_iff.mp (by decide)
  have hvalid : (ChunkedInputStream.truthfulOver [0x61, 0x41, 0x60]).Valid
      (chunkedInput [0x61] 3 [.ok [0x41], .error .endOfStream, .ok [0x60]]) :=
    ChunkedInputStream.valid_chunkedInput hsized (by decide)
  have hunread := (ChunkedInputStream.unread_chunkedInput [0x61] [.ok [0x41], .error .endOfStream, .ok [0x60]]).trans
    hbytes.symm
  rcases decodeAll_truthful h (isValue_strings (by decide)) hvalid hunread (x := fun _ => [0x42]) (t := run.2.1)
    (y := run.2.2) (r := run.1) rfl with ⟨hok, -⟩ | ⟨f, k, -, hread⟩
  · have hfails : run.1 ≠ .ok () := by decide +kernel
    exact absurd hok hfails
  · exact ⟨k, hread⟩

end Reading

/-! ### Through chunks -/

section Through
open ChunkedOutputStream ChunkedInputStream
variable {area first : List UInt8} {chunks : List (List UInt8)} {source : List (Except Errc (List UInt8))}
  {o : OutputBuffer ChunkedOutputStream}

theorem logs_chunkedOutput (hne : ∀ chunk ∈ chunks, chunk ≠ []) (hfits : chunks.flatten.length < wordLimit) :
    Logs (area.length + chunks.flatten.length) (chunkedOutput area chunks.flatten.length (chunks.map .ok)) [] := by
  have hsized : Sized (chunkedOutput area chunks.flatten.length (chunks.map .ok)) chunks
      (area.length + chunks.flatten.length) :=
    ⟨hne, rfl, rfl, hfits, rfl, List.length_replicate, congrArg (· + _) (Nat.zero_add _)⟩
  exact Direct.logs ⟨hsized, rfl, .inl ⟨0, rfl, Nat.zero_add _, rfl⟩⟩

theorem encodeAll_chunked (h : ∀ i, Encodable (c i)) {v : ∀ i, δ i} (hv : ∀ i, (c i).IsValue (v i))
    (hne : ∀ chunk ∈ chunks, chunk ≠ []) (hfits : chunks.flatten.length < wordLimit)
    (hrun : (do
      encodeAll c v ChunkedOutputStream
      syncOutput) (chunkedOutput area chunks.flatten.length (chunks.map .ok)) = (.ok (), o)) :
    memberBytes c v <+: contents o := by
  obtain ⟨_, s, hencode, hsync⟩ := Action.bind_eq_ok.mp hrun
  exact Logs.synced (encode_members_truthful h hv (truthful _) _ (logs_chunkedOutput hne hfits) hencode) hsync

/-- Values that are encoded one after the other to a stream into chunks, without a write behind a chunk, which is then
synchronized, are decoded from any stream over chunks that hold the bytes of these, cut into other chunks of less than
2 GiB and with a source that may fail: up to the value where it fails they are the same. -/
theorem decodeAll_chunks (h : ∀ i, LibraryCodec LibraryLeaf arrays (c i) (d i)) {v : ∀ i, δ i}
    (hv : ∀ i, (c i).IsValue (v i)) (hne : ∀ chunk ∈ chunks, chunk ≠ []) (hfits : chunks.flatten.length < wordLimit)
    (hwrite : (do
      encodeAll c v ChunkedOutputStream
      syncOutput) (chunkedOutput area chunks.flatten.length (chunks.map .ok)) = (.ok (), o))
    (hbytes : first ++ arrivals source = contents o) (hshort : AreShort first source)
    (hlen : (contents o).length < wordLimit) {x y : ∀ i, δ i} {r : Except Fault Unit} {t : InputBuffer ChunkedInputStream}
    (hread : decodeAll d ChunkedInputStream (chunkedInput first (contents o).length source, x) = (r, (t, y))) :
    r = .ok () ∧ y = v ∨ ∃ f k, r = .error f ∧ (∀ i, i < k → y i = v i) ∧ ∀ i, k < i → y i = x i := by
  obtain ⟨rest, hrest⟩ := encodeAll_chunked (fun i => (h i).encodable LibraryLeaf.encodable) hv hne hfits hwrite
  rw [← hbytes] at hrest hlen hread
  have hunread := (unread_chunkedInput first source).trans hrest.symm
  rcases decode_members_truthful h hv (List.nodup_finRange n) (valid_chunkedInput hshort.sized hlen) hunread hread with
    ⟨hok, hdone, -⟩ | ⟨f, hf, hupTo⟩
  · exact .inl ⟨hok, funext fun i => hdone i (List.mem_finRange i)⟩
  · obtain ⟨k, hdone, hkept⟩ := hupTo.of_all
    exact .inr ⟨f, k, hf, hdone, hkept⟩

/-- Two strings, through chunks of two bytes into chunks of one byte, of two and of one. -/
theorem decodeAll_chunks_strings :
    (decodeAll (fun _ : Fin 2 => stringDecoder) ChunkedInputStream
      (chunkedInput [0x61] 4 [.ok [0x41, 0x60], .ok [0]], fun _ => [])).2.2 = twoStrings [0x41] [] := by
  have h : ∀ _ : Fin 2, LibraryCodec LibraryLeaf False stringEncoder stringDecoder := fun _ => .leaf .string
  obtain ⟨o, hwrite, hbytes⟩ : ∃ o, (do
      encodeAll (fun _ : Fin 2 => stringEncoder) (twoStrings [0x41] []) ChunkedOutputStream
      syncOutput : Output ChunkedOutputStream Unit) (chunkedOutput [] 4 [.ok [0, 0], .ok [0, 0]]) = (.ok (), o) ∧
        [0x61] ++ arrivals [.ok [0x41, 0x60], .ok [0]] = contents o :=
    ⟨_, Prod.ext rfl rfl, rfl⟩
  have hlen : (contents o).length = 4 := by
    rw [← hbytes]
    rfl
  have hok : (decodeAll (fun _ : Fin 2 => stringDecoder) ChunkedInputStream
      (chunkedInput [0x61] 4 [.ok [0x41, 0x60], .ok [0]], fun _ => [])).1 = .ok () :=
    rfl
  rcases hread : decodeAll (fun _ : Fin 2 => stringDecoder) ChunkedInputStream
      (chunkedInput [0x61] 4 [.ok [0x41, 0x60], .ok [0]], fun _ => []) with ⟨r, t, y⟩
  rw [hread] at hok
  rw [← hlen] at hread
  have hvalue : ∀ i, stringEncoder.IsValue (twoStrings [0x41] [] i) := isValue_strings (by decide)
  have hchunks : ∀ chunk ∈ [[0, 0], [0, 0]], chunk ≠ ([] : List UInt8) := by decide
  have hshort : AreShort [0x61] [.ok [0x41, 0x60], .ok [0]] := areShort_of 2 (by decide) (by decide) (by decide)
  rcases decodeAll_chunks h hvalue hchunks (by decide) hwrite hbytes hshort (hlen ▸ by decide) hread with
    ⟨-, hy⟩ | ⟨f, k, hf, -⟩
  · exact hy
  · cases hok.symm.trans hf

end Through

end DeepPack
