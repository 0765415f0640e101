import DeepPack.Legacy.MemoryBuffer
import DeepPack.Codecs.Buffering
import DeepPack.Codecs.Encodable

/-! Where encoding and decoding leave the window of a memory buffer.

The streams of a memory buffer are honest, so that the codecs of the library keep to the
interface. What such a codec reads or writes moves the window exactly as long as it is
shorter than 2^31 bytes. From there on the way does not fit the `int` it is handed over in,
and the window begins 2^32 bytes too early. -/
namespace DeepPack
open Library

namespace LegacyMemoryInputStream
variable {view : MemoryBuffer} {s : InputBuffer LegacyMemoryInputStream} {n : Nat}

/-- The stream is somewhere in the window. -/
def Within (view : MemoryBuffer) (s : InputBuffer LegacyMemoryInputStream) : Prop :=
  s.derived = (legacyInput view).derived ∧ s.buffer <:+ view.remaining ∧ s.inputSize = s.buffer.length

theorem within_legacyInput (hview : view.WellFormed) : Within view (legacyInput view) :=
  ⟨rfl, List.suffix_refl _, hview.remaining_length.symm⟩

theorem Within.length_lt (hview : view.WellFormed) (h : Within view s) : s.buffer.length < 2 ^ 32 := by
  have hle := h.2.1.length_le
  have hlen := hview.remaining_length
  have hwindow := hview.window_le
  have hlt := hview.allocation_lt
  omega

theorem Within.length_lt_word (hview : view.WellFormed) (h : Within view s) : s.buffer.length < wordLimit := by
  have hlt := h.length_lt hview
  rw [wordLimit]
  omega

/-- So far into the window. -/
theorem Within.drop (hview : view.WellFormed) (h : Within view s) (hn : n ≤ s.buffer.length) :
    Within view {s with buffer := s.buffer.drop n, inputSize := wrapSub 64 s.inputSize n} := by
  have hlt := h.length_lt hview
  obtain ⟨hderived, hsuffix, hsize⟩ := h
  refine ⟨hderived, (List.drop_suffix n _).trans hsuffix, ?_⟩
  simp only [hsize, List.length_drop]
  exact wrapSub_of_le hn (by omega)

theorem Within.requireInput (h : Within view s) (hn : n ≤ s.buffer.length) :
    InputBuffer.requireInput n s = (.ok (), s) := by
  rw [InputBuffer.requireInput, if_neg (by rw [h.2.2]; omega), if_neg (by omega)]

theorem Within.bulkRead (hview : view.WellFormed) (h : Within view s) (hn : n ≤ s.buffer.length) :
    ∃ t, InputBuffer.bulkRead n s = (.ok (s.buffer.take n), t) ∧ Within view t ∧ t.buffer = s.buffer.drop n := by
  by_cases h0 : n = 0
  · subst h0
    exact ⟨s, rfl, h, rfl⟩
  · refine ⟨_, ?_, h.drop hview hn, rfl⟩
    simp only [InputBuffer.bulkRead, if_neg h0, Nat.min_eq_right hn, Nat.sub_self, if_true]
    rw [if_neg (by rw [h.2.2]; omega)]

/-- A stream over a window is honest. -/
def contract (hview : view.WellFormed) : InputContract LegacyMemoryInputStream where
  Valid := Within view
  unread s := s.buffer
  inputSize_eq h := h.2.2
  inputSize_lt h := h.length_lt_word hview
  buffer_starts _ := List.prefix_refl _
  discard := by
    intro s n h hn
    refine ⟨_, ?_, h.drop hview hn, rfl⟩
    rw [InputBuffer.discardBuffered, if_pos hn]
  require := by
    intro s n h _ hn
    exact ⟨s, h.requireInput hn, h, rfl, hn⟩
  bulk h hn := h.bulkRead hview hn

end LegacyMemoryInputStream

namespace LegacyMemoryOutputStream
variable {b : MemoryBuffer}

/-- The stream holds what was written into the window. -/
def Holds (b : MemoryBuffer) (s : OutputBuffer LegacyMemoryOutputStream) (out : List UInt8) : Prop :=
  s.behind = out ∧ out.length + s.free.length = b.windowSize ∧ s.derived = (legacyOutput b).derived

theorem holds_legacyOutput (hb : b.WellFormed) : Holds b (legacyOutput b) [] :=
  ⟨rfl, (Nat.zero_add _).trans hb.remaining_length, rfl⟩

/-- A stream into a window takes what the window has room for. -/
def contract (b : MemoryBuffer) : OutputContract LegacyMemoryOutputStream where
  limit := some b.windowSize
  Holds := Holds b
  room h := Limit.fits_some.mpr h.2.1.le
  ensure := by
    intro s out n h _ hfits
    have hn := Limit.fits_some.mp hfits
    have hlen := h.2.1
    exact ⟨s, OutputBuffer.ensureSize_enough (by omega), h, by omega⟩
  ensure_full := by
    intro s out n h _ hno
    have hn := Limit.fits_some.not.mp hno
    have hlen := h.2.1
    exact ⟨.endOfStream, s, OutputBuffer.ensureSize_grow (by omega), h⟩
  put := by
    intro s out i bytes h hroom
    obtain ⟨hout, hlen, hderived⟩ := h
    exact ⟨hout, by rw [OutputBuffer.put_length s hroom]; exact hlen, hderived⟩
  commit := by
    intro s out n h hroom
    obtain ⟨rfl, hlen, hderived⟩ := h
    refine ⟨rfl, ?_, hderived⟩
    rw [OutputBuffer.commit_free, List.length_append, List.length_take, List.length_drop]
    omega
  bulk := by
    intro s out bytes h hfits
    obtain ⟨rfl, hlen, hderived⟩ := h
    have hn := Limit.fits_some.mp hfits
    have hroom : bytes.length ≤ s.free.length := by omega
    obtain ⟨t, ht, hbehind, hfree, hsame⟩ := OutputBuffer.bulkWrite_enough hroom
    refine ⟨t, ht, hbehind, ?_, hsame.trans hderived⟩
    rw [hfree, List.length_append, List.length_drop]
    omega
  bulk_full := by
    intro s out bytes h hno
    obtain ⟨rfl, hlen, hderived⟩ := h
    have hn := Limit.fits_some.not.mp hno
    have hfull : s.free.length < bytes.length := by omega
    obtain ⟨t, ht, hbehind, hfree, hsame⟩ := OutputBuffer.bulkWrite_full hfull
    refine ⟨.endOfStream, t, s.free.length, ht, hbehind, ?_, hsame.trans hderived⟩
    rw [hfree, List.length_append, List.length_take, List.length_nil]
    omega

end LegacyMemoryOutputStream

namespace MemoryBuffer
variable {α : Type}

/-- The decoders of the library keep to the interface. -/
theorem readsThrough_decodable {d : Decoder α} (h : Decodable StringLeaf d) :
    ReadsThrough (d.decode LegacyMemoryInputStream) := by
  intro view v hview
  have hwithin := LegacyMemoryInputStream.within_legacyInput hview
  let C := LegacyMemoryInputStream.contract hview
  obtain ⟨-, hok, herr⟩ := h.independent StringLeaf.independent C C (legacyInput view, v) (legacyInput view, v)
    ⟨⟨hwithin, hwithin, rfl⟩, rfl⟩
  have hafter : LegacyMemoryInputStream.Within view
    (d.decode LegacyMemoryInputStream (legacyInput view, v)).2.1 := by
    rcases hrun : (d.decode LegacyMemoryInputStream (legacyInput view, v)).1 with e | a
    · exact (herr e hrun).1.1
    · exact (hok a hrun).1.1
  exact ⟨hafter.1, hafter.2.1⟩

variable {c : Encoder α} {b : MemoryBuffer}

/-- What an encoder leaves in the window, whether or not all of it found room. -/
theorem encode_holds (h : Encodable c) (v : c.Value) (hb : b.WellFormed) :
    ∃ r s k, c.encode v.1 LegacyMemoryOutputStream (legacyOutput b) = (r, s) ∧
      LegacyMemoryOutputStream.Holds b s ((c.bytes v.1).take k) ∧
      (r = .ok () → (c.bytes v.1).take k = c.bytes v.1) ∧ ((c.bytes v.1).length ≤ b.windowSize → r = .ok ()) := by
  have hholds := LegacyMemoryOutputStream.holds_legacyOutput hb
  obtain ⟨hok, hfull⟩ := (h.puts v).emits (LegacyMemoryOutputStream.contract b) (legacyOutput b) [] hholds
  by_cases hfits : (c.bytes v.1).length ≤ b.windowSize
  · obtain ⟨t, ht, hout⟩ := hok (Limit.fits_some.mpr (by simpa using hfits))
    have hout : LegacyMemoryOutputStream.Holds b t (c.bytes v.1) := hout
    refine ⟨.ok (), t, (c.bytes v.1).length, ht, ?_, fun _ => List.take_length, fun _ => rfl⟩
    simpa using hout
  · obtain ⟨e, t, k, ht, hout⟩ := hfull (Limit.fits_some.not.mpr (by simpa using hfits))
    exact ⟨.error (.errc e), t, k, ht, hout, by simp, fun h => absurd h hfits⟩

/-- And so do its encoders. -/
theorem writesThrough_encodable (h : Encodable c) (v : c.Value) :
    WritesThrough (c.encode v.1 LegacyMemoryOutputStream) := by
  intro b hb
  obtain ⟨r, s, k, hrun, ⟨hbehind, hlen, hderived⟩, -⟩ := encode_holds h v hb
  rw [hrun]
  refine ⟨hderived, ?_⟩
  rw [hbehind]
  exact hlen

/-- Decoding and encoding move the window exactly or not at all if and only if a codec that
succeeds has read, or written, fewer than 2^31 bytes; and a second sync changes nothing. -/
theorem window_moves_iff {b : MemoryBuffer} (hb : b.WellFormed) :
    (∀ {δ α : Type} (codecDecode : Parse LegacyMemoryInputStream δ α) (d : δ), ReadsThrough codecDecode →
      (DecodeMoves codecDecode b d ↔
        ((∃ v, (codecDecode (legacyInput b, d)).1 = .ok v) → bytesRead codecDecode b d < 2 ^ 31))) ∧
    (∀ codecEncode : Output LegacyMemoryOutputStream Unit, WritesThrough codecEncode →
      (EncodeMoves codecEncode b ↔
        ((codecEncode (legacyOutput b)).1 = .ok () → bytesWritten codecEncode b < 2 ^ 31))) ∧
    (∀ s, LegacyMemoryInputStream.syncInput (LegacyMemoryInputStream.syncInput s).2 =
      LegacyMemoryInputStream.syncInput s) ∧
    ∀ s, LegacyMemoryOutputStream.syncOutput (LegacyMemoryOutputStream.syncOutput s).2 =
      LegacyMemoryOutputStream.syncOutput s :=
  ⟨fun _ d hcodec => decodeMoves_iff hcodec hb d, fun _ hcodec => encodeMoves_iff hcodec hb,
    LegacyMemoryInputStream.syncInput_twice, LegacyMemoryOutputStream.syncOutput_twice⟩

/-- A buffer of three bytes, one of them consumed, decoded from and encoded to. -/
theorem window_moves_iff_bool :
    DecodeMoves (boolDecoder.decode LegacyMemoryInputStream) (ofMemory [0, 0xf5, 7] 3 1) false ∧
      EncodeMoves (boolEncoder.encode true LegacyMemoryOutputStream) (ofMemory [0, 0xf5, 7] 3 1) := by
  have hb : (ofMemory [0, 0xf5, 7] 3 1).WellFormed := wellFormed_ofMemory (by decide) (by decide)
  have hdecode : ReadsThrough (boolDecoder.decode LegacyMemoryInputStream) :=
    readsThrough_decodable (.leaf (.leaf .bool))
  have hencode : WritesThrough (boolEncoder.encode true LegacyMemoryOutputStream) :=
    writesThrough_encodable .bool ⟨true, trivial⟩
  have hmoves := window_moves_iff hb
  exact ⟨(hmoves.1 _ false hdecode).mpr fun _ => by decide +kernel,
    (hmoves.2.1 _ hencode).mpr fun _ => by decide +kernel⟩

theorem bytes_large {content : List UInt8} (hlen : content.length = 2 ^ 31) :
    (blobEncoder.bytes content).length = 2 ^ 31 + 5 := by
  have hword : content.length < wordLimit := by
    simp only [hlen, wordLimit]
    decide
  rw [show blobEncoder.bytes content = _ from (puts_emitBinary hword).bytes_eq, List.length_append, hlen]
  have hhead : (Detail.varUintHead .binary (2 ^ 31)).length = 5 := by decide
  rw [hhead, Nat.add_comm]

/-- A byte string of 2^31 bytes fits a buffer of its size and does not move the window as it should. -/
theorem not_encodeMoves_large {content memory : List UInt8} (hlen : content.length = 2 ^ 31)
    (hmemory : memory.length = 2 ^ 31 + 5) :
    (ofMemory memory memory.length 0).WellFormed ∧
      ¬ EncodeMoves (blobEncoder.encode content LegacyMemoryOutputStream) (ofMemory memory memory.length 0) := by
  have hb : (ofMemory memory memory.length 0).WellFormed := wellFormed_ofMemory (by omega) (by omega)
  have hvalue : blobEncoder.IsValue content := by
    show content.length < wordLimit
    simp only [hlen, wordLimit]
    decide
  have hbytes := bytes_large hlen
  have hwindow : (ofMemory memory memory.length 0).windowSize = 2 ^ 31 + 5 := by
    simp only [ofMemory, hmemory]
    decide
  obtain ⟨r, s, k, hrun, ⟨hbehind, -⟩, hall, hfits⟩ := encode_holds .blob ⟨content, hvalue⟩ hb
  have hok : r = .ok () := hfits (by rw [hbytes, hwindow])
  refine ⟨hb, ?_⟩
  intro hmoves
  have hlt := (encodeMoves_iff (writesThrough_encodable .blob ⟨content, hvalue⟩) hb).mp hmoves (by rw [hrun, hok])
  rw [bytesWritten, hrun] at hlt
  simp only [hbehind, hall hok, hbytes] at hlt
  omega

theorem encode_moves_back :
    let memory : List UInt8 := List.replicate (2 ^ 31 + 5) 0
    (ofMemory memory memory.length 0).WellFormed ∧
      ¬ EncodeMoves (blobEncoder.encode (List.replicate (2 ^ 31) 0) LegacyMemoryOutputStream)
        (ofMemory memory memory.length 0) :=
  not_encodeMoves_large List.length_replicate List.length_replicate

end MemoryBuffer
end DeepPack
