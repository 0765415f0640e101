import DeepPack.Codecs.Carrying
import DeepPack.Streams.ChunkedTruthful

/-! Decoding from streams that may fail.

A decoder that succeeds on a stream that may fail at any call has done what it would have
done on the stream's rescued form, and so in memory. The streams over chunks are among
them: until its source fails such a stream is as good as one whose source goes on with
empty chunks, and that one is truthful about the bytes the source hands out. -/
namespace DeepPack
open Library

variable {α : Type} {c : Encoder α} {d : Decoder α} {arrays : Prop}

/-- A decoder that succeeds on a stream that may fail at any call succeeds on the bytes of the stream in memory: it
delivers the same value, and leaves the bytes the stream has left. -/
theorem decode_truthful (h : LibraryCodec FixedLeaf arrays c d) {σ : Type} [InputStream σ] (T : TruthfulInput σ)
    {s t : InputBuffer σ} (hs : T.Valid s) {v w : α} (hrun : d.decode σ (s, v) = (.ok (), (t, w))) :
    d.decode MemoryInputStream (memoryInput (T.unread s), v) = (.ok (), (memoryInput (T.unread t), w)) ∧ T.Valid t := by
  let _ := T.rescued
  have hrescued : d.decode (Rescued σ) (s.map .stream, v) = (.ok (), (t.map .stream, w)) :=
    h.carried FixedLeaf.carried T.rescue _ _ _ hrun
  have hvalid : T.honest.Valid (s.map .stream) := hs
  have hindependent : d.Independent := h.independent FixedLeaf.independent
  obtain ⟨r, rest, w', hmemory, -, t', ht', hvalid', rfl⟩ := hindependent.memory T.honest hvalid v
  rw [hrescued] at ht'
  cases ht'
  exact ⟨hmemory, hvalid'⟩

/-! ### Chunks -/

namespace ChunkedInputStream
variable {first : List UInt8} {source : List (Except Errc (List UInt8))}

/-- No read ends so far inside a chunk that an `int` could not say it. -/
structure AreShort (first : List UInt8) (source : List (Except Errc (List UInt8))) : Prop where
  first : first.length < 2 ^ 31
  chunks : ∀ chunk, .ok chunk ∈ source → chunk.length < 2 ^ 31

theorem AreShort.sized (h : AreShort first source) : AreSized source :=
  fun chunk hchunk => (h.chunks chunk hchunk).trans (by decide)

theorem areShort_of (limit : Nat) (hlimit : limit < 2 ^ 31) (hfirst : first.length ≤ limit)
    (hchunks : ∀ r ∈ source, ∀ chunk ∈ r.toOption, chunk.length ≤ limit) : AreShort first source :=
  ⟨hfirst.trans_lt hlimit, fun chunk hchunk => (hchunks _ hchunk chunk rfl).trans_lt hlimit⟩

end ChunkedInputStream

open ChunkedInputStream

/-- A decoder that succeeds on a stream over chunks, whichever they are as long as none is as long as 2 GiB, and wherever
the source may fail, succeeds on their bytes in memory: it delivers the same value and takes as many bytes. -/
theorem decode_chunked (h : LibraryCodec FixedLeaf arrays c d) {first : List UInt8}
    {source : List (Except Errc (List UInt8))} (hshort : AreShort first source)
    (hfits : (first ++ arrivals source).length < wordLimit) {v w : α} {t : InputBuffer ChunkedInputStream}
    (hrun : d.decode ChunkedInputStream (chunkedInput first (first ++ arrivals source).length source, v) =
      (.ok (), (t, w))) :
    ∃ left, d.decode MemoryInputStream (memoryInput (first ++ arrivals source), v) = (.ok (), (memoryInput left, w)) ∧
      t.inputSize = left.length ∧ t.buffer <+: left := by
  obtain ⟨hmemory, hvalid⟩ := decode_truthful h (truthfulOver _) (valid_chunkedInput hshort.sized hfits) hrun
  rw [unread_chunkedInput] at hmemory
  exact ⟨_, hmemory, TruthfulInput.inputSize_eq _ hvalid, TruthfulInput.buffer_starts _ hvalid⟩

/-- A string of three bytes in chunks, one of them empty; behind it the source would fail. -/
theorem decode_chunked_string :
    ∃ left, stringDecoder.decode MemoryInputStream (memoryInput [0x63, 0x41, 0x42, 0x43, 0x07], []) =
      (.ok (), (memoryInput left, [0x41, 0x42, 0x43])) ∧ left.length = 1 := by
  have hstring : LibraryCodec FixedLeaf False stringEncoder stringDecoder := .leaf (.leaf .string)
  have hshort : AreShort [0x63] [.ok [0x41], .ok [], .ok [0x42, 0x43, 0x07], .error .endOfStream] :=
    areShort_of 3 (by decide) (by decide) (by decide)
  have hdecode := decode_chunked hstring hshort (by decide) (v := [])
    (run_eq_ok (w := [0x41, 0x42, 0x43]) (by decide +kernel) (by decide +kernel))
  obtain ⟨left, hmemory, hleft, -⟩ := hdecode
  exact ⟨left, hmemory, hleft.symm.trans (by decide +kernel)⟩

end DeepPack
