import DeepPack.Codecs.Objects
import DeepPack.Items.SkipItem
import DeepPack.Streams.MemoryOutputStream
import DeepPack.Streams.VoidStream

/-! What encoding does, for all types built from the library's codecs.

`Encodable` is how encoders are built. That every one of them is exact is an
induction over it, and each property of encoding follows: on which streams it
succeeds, what it leaves there, and that the result is one well-formed item. -/
namespace DeepPack
open Library

inductive Encodable : {α : Type} → Encoder α → Prop where
  | null : Encodable nullEncoder
  | bool : Encodable boolEncoder
  | integer {t : IntType} : t.EncodableInt → Encodable (integerEncoder t)
  | float : Encodable floatEncoder
  | double : Encodable doubleEncoder
  | string : Encodable stringEncoder
  | fixedU8string (capacity : Nat) : Encodable (fixedU8stringEncoder capacity)
  | blob : Encodable blobEncoder
  | byteArray (n : Nat) : Encodable (byteArrayEncoder n)
  | enum {ε : Type} {t : IntType} (underlying : ε → BitVec t.width) : t.EncodableInt →
      Encodable (enumEncoder t underlying)
  | duration {δ : Type} {rep : IntType} (count : δ → BitVec rep.width) : rep.EncodableInt →
      Encodable (durationEncoder rep count)
  | uuid {υ : Type} (canonical : υ → ByteArrayOf uuidStateSize) :
      Encodable (uuidEncoder canonical)
  | path {π : Type} (genericU8string : π → List UInt8) : Encodable (pathEncoder genericU8string)
  | stringRef {ρ : Type} (data : ρ → List UInt8) : Encodable (stringRefEncoder data)
  | range {α : Type} {c : Encoder α} {digits : Nat} : digits = 32 ∨ digits = 64 → Encodable c →
      Encodable (rangeEncoder digits c)
  | indefiniteRange {α : Type} {c : Encoder α} : Encodable c → Encodable (indefiniteRangeEncoder c)
  | map {κ ν : Type} {k : Encoder κ} {c : Encoder ν} {digits : Nat} : digits = 32 ∨ digits = 64 →
      Encodable k → Encodable c → Encodable (mapEncoder digits k c)
  | indefiniteMap {κ ν : Type} {k : Encoder κ} {c : Encoder ν} : Encodable k → Encodable c →
      Encodable (indefiniteMapEncoder k c)
  | set {κ : Type} {k : Encoder κ} (lt : κ → κ → Bool) : Encodable k → Encodable (setEncoder lt k)
  | orderedMap {κ ν : Type} {k : Encoder κ} {c : Encoder ν} (lt : κ → κ → Bool) : Encodable k →
      Encodable c → Encodable (orderedMapEncoder lt k c)
  | array {α : Type} {c : Encoder α} (n : Nat) : Encodable c → Encodable (arrayEncoder n c)
  | tuple {n : Nat} {α : Fin n → Type} {c : ∀ i, Encoder (α i)} : n < wordLimit → (∀ i, Encodable (c i)) →
      Encodable (tupleEncoder c)
  | packableTuple {n : Nat} {α : Fin n → Type} {c : ∀ i, Encoder (α i)} (version : BitVec 32) :
      n + 1 < wordLimit → (∀ i, Encodable (c i)) → Encodable (packableTupleEncoder version c)
  | object {n : Nat} {ι : Type} {α : Fin n → Type} {D : ObjectDef ι n} {key : Encoder ι}
      {c : ∀ i, Encoder (α i)} : n + 1 < wordLimit → Encodable key → (∀ i, key.IsValue (D.ids i)) →
      (∀ i, Encodable (c i)) → Encodable (objectEncoder D key c)

variable {α : Type} {c : Encoder α}

theorem Encodable.exact (h : Encodable c) : c.Exact := by
  induction h with
  | null => exact nullEncoder_exact
  | bool => exact boolEncoder_exact
  | integer ht => exact integerEncoder_exact ht
  | float => exact floatEncoder_exact
  | double => exact doubleEncoder_exact
  | string => exact stringEncoder_exact
  | fixedU8string capacity => exact fixedU8stringEncoder_exact capacity
  | blob => exact blobEncoder_exact
  | byteArray n => exact byteArrayEncoder_exact n
  | enum underlying ht => exact (integerEncoder_exact ht).via underlying
  | duration count ht => exact (integerEncoder_exact ht).via count
  | uuid canonical => exact uuidEncoder_exact canonical
  | path genericU8string => exact stringEncoder_exact.via genericU8string
  | stringRef data => exact stringEncoder_exact.via data
  | range hd _ ih => exact rangeEncoder_exact hd ih
  | indefiniteRange _ ih => exact indefiniteRangeEncoder_exact ih
  | map hd _ _ ihk ihc => exact mapEncoder_exact hd ihk ihc
  | indefiniteMap _ _ ihk ihc => exact indefiniteMapEncoder_exact ihk ihc
  | set lt _ ih => exact setEncoder_exact lt ih
  | orderedMap lt _ _ ihk ihc => exact orderedMapEncoder_exact lt ihk ihc
  | array n _ ih => exact arrayEncoder_exact n ih
  | tuple hn _ ih => exact tupleEncoder_exact hn ih
  | packableTuple version hn _ ih => exact packableTupleEncoder_exact hn version ih
  | object hn _ hids _ ihkey ih => exact objectEncoder_exact hn ihkey hids ih

namespace Encodable

theorem puts (h : Encodable c) (v : c.Value) : Puts (c.encode v.1) (c.sizeOf v.1) (c.bytes v.1) :=
  (h.exact v.1 v.2).1

theorem wellFormed (h : Encodable c) (v : c.Value) : WellFormed .item (c.bytes v.1) := (h.exact v.1 v.2).2

theorem sizeOf_toNat (h : Encodable c) (v : c.Value) (hsize : (c.bytes v.1).length < wordLimit) :
    (c.sizeOf v.1).toNat = (c.bytes v.1).length := by
  rw [(h.puts v).size_eq, UInt64.toNat_ofNat', Nat.mod_eq_of_lt hsize]

end Encodable

/-! ### Sizes -/

/-- A void stream counts an encoding, wherever its buffer stands. -/
theorem encode_void (h : Encodable c) (v : c.Value) (s : OutputBuffer VoidStream)
    (hs : s.behind.length + s.free.length = voidBufferSize) :
    ∃ t, c.encode v.1 VoidStream s = (.ok (), t) ∧ t.behind.length + t.free.length = voidBufferSize ∧
      VoidStream.total t = (VoidStream.total s + (c.bytes v.1).length) % wordLimit := by
  have hstart : VoidStream.Holds (VoidStream.total s) s [] :=
    ⟨hs, (Nat.mod_eq_of_lt (Nat.mod_lt _ (by decide))).symm⟩
  obtain ⟨t, ht, hlen, htotal⟩ := ((h.puts v).emits (VoidStream.contract _) s [] hstart).1 (Limit.fits_none _)
  exact ⟨t, ht, hlen, htotal⟩

/-- The computed size is the number of bytes a stream with enough space is given, and what a
void stream counts. -/
theorem encodedSizeOf_exact (h : Encodable c) (v : c.Value) (hsize : (c.bytes v.1).length < wordLimit) :
    (∀ (σ : Type) [OutputStream σ] (C : OutputContract σ) (s : OutputBuffer σ) (out : List UInt8),
      C.Holds s out → C.limit.Fits (out.length + (c.sizeOf v.1).toNat) →
      ∃ t committed, c.encode v.1 σ s = (.ok (), t) ∧ C.Holds t (out ++ committed) ∧
        committed.length = (c.sizeOf v.1).toNat) ∧
    ∀ s : OutputBuffer VoidStream, s.behind.length + s.free.length = voidBufferSize →
      ∃ t, c.encode v.1 VoidStream s = (.ok (), t) ∧ t.behind.length + t.free.length = voidBufferSize ∧
        VoidStream.total t = (VoidStream.total s + (c.sizeOf v.1).toNat) % wordLimit := by
  rw [h.sizeOf_toNat v hsize]
  refine ⟨fun σ _ C s out hs hfits => ?_, encode_void h v⟩
  obtain ⟨t, ht, hout⟩ := ((h.puts v).emits C s out hs).1 hfits
  exact ⟨t, c.bytes v.1, ht, hout, rfl⟩

theorem encodedSizeOf_exact_vector :
    ∃ t, (rangeEncoder 64 boolEncoder).encode [true, false] VoidStream VoidStream.fresh = (.ok (), t) ∧
      VoidStream.total t = 3 := by
  have h : Encodable (rangeEncoder 64 boolEncoder) := .range (.inr rfl) .bool
  have hv : (rangeEncoder 64 boolEncoder).IsValue [true, false] := ⟨by decide, fun _ _ => trivial⟩
  have hbytes : ((rangeEncoder 64 boolEncoder).bytes [true, false]).length = 3 := by decide
  have hsize := hbytes.trans_lt (show 3 < wordLimit by decide)
  obtain ⟨t, ht, -, htotal⟩ := (encodedSizeOf_exact h ⟨_, hv⟩ hsize).2 _ VoidStream.fresh_length
  rw [h.sizeOf_toNat ⟨_, hv⟩ hsize, hbytes, VoidStream.total_fresh] at htotal
  exact ⟨t, ht, htotal⟩

/-! ### Well-formedness -/

/-- An encoding is one item: skipping it leaves what stands behind it. -/
theorem skipItem_encode (h : Encodable c) (v : c.Value) (s : List UInt8)
    (hfits : (c.bytes v.1 ++ s).length < wordLimit) :
    (c.encode v.1 EndlessStream EndlessStream.fresh).1 = .ok () ∧
      Action.Returns skipItem (memoryInput (c.bytes v.1 ++ s)) (.ok (), memoryInput s) := by
  constructor
  · obtain ⟨t, ht, -, -⟩ := ((h.puts v).emits EndlessStream.documented.contract).documented
      (s := EndlessStream.fresh) trivial
    exact congrArg Prod.fst ht
  · exact (skipItem_accepts ⟨_, hfits⟩ _).mpr ⟨_, s, rfl, h.wellFormed v, rfl⟩

theorem skipItem_encode_map :
    Action.Returns skipItem (memoryInput [0xbf, 0xf5, 0xf6, 0xff, 0x07]) (.ok (), memoryInput [0x07]) := by
  have h : Encodable (indefiniteMapEncoder boolEncoder nullEncoder) := .indefiniteMap .bool .null
  have hv : (indefiniteMapEncoder boolEncoder nullEncoder).IsValue [(true, ())] :=
    fun _ _ => ⟨trivial, trivial⟩
  have hbytes : (indefiniteMapEncoder boolEncoder nullEncoder).bytes [(true, ())] = [0xbf, 0xf5, 0xf6, 0xff] := by
    decide
  have hlen := (congrArg List.length (congrArg (· ++ [0x07]) hbytes)).trans_lt (show 5 < wordLimit by decide)
  have hskip := (skipItem_encode h ⟨_, hv⟩ [0x07] hlen).2
  rwa [hbytes] at hskip

/-! ### Streams -/

/-- Two documented streams are given the same bytes. -/
theorem encode_documented (h : Encodable c) (v : c.Value) {σ τ : Type} [OutputStream σ] [OutputStream τ]
    (D : DocumentedOutput σ) (E : DocumentedOutput τ) {s : OutputBuffer σ} {t : OutputBuffer τ}
    (hs : D.Valid s) (ht : E.Valid t) :
    ∃ encoding s' t', c.encode v.1 σ s = (.ok (), s') ∧ D.output s' = D.output s ++ encoding ∧
      c.encode v.1 τ t = (.ok (), t') ∧ E.output t' = E.output t ++ encoding := by
  obtain ⟨s', hs', -, hout⟩ := ((h.puts v).emits D.contract).documented hs
  obtain ⟨t', ht', -, hout'⟩ := ((h.puts v).emits E.contract).documented ht
  exact ⟨_, s', t', hs', hout, ht', hout'⟩

theorem encode_documented_endless :
    ∃ encoding s' t', floatEncoder.encode 1 EndlessStream ⟨[], [], ⟨[]⟩⟩ = (.ok (), s') ∧
      EndlessStream.output s' = encoding ∧
      floatEncoder.encode 1 EndlessStream ⟨[], [0, 0, 0, 0, 0, 0, 0, 0, 0, 0], ⟨[]⟩⟩ = (.ok (), t') ∧
      EndlessStream.output t' = encoding :=
  encode_documented .float ⟨1, trivial⟩ EndlessStream.documented EndlessStream.documented trivial trivial

/-- A memory stream takes an encoding if it is large enough for it, and else a prefix of it. -/
theorem encode_memory (h : Encodable c) (v : c.Value) (hsize : (c.bytes v.1).length < wordLimit)
    (memory : List UInt8) :
    ((∃ s, c.encode v.1 MemoryOutputStream (memoryOutput memory) = (.ok (), s)) ↔
      (c.sizeOf v.1).toNat ≤ memory.length) ∧
    (∀ s, c.encode v.1 MemoryOutputStream (memoryOutput memory) = (.ok (), s) →
      MemoryOutputStream.written s = c.bytes v.1) ∧
    ∀ e s, c.encode v.1 MemoryOutputStream (memoryOutput memory) = (.error e, s) →
      MemoryOutputStream.written s <+: c.bytes v.1 := by
  rw [h.sizeOf_toNat v hsize]
  obtain ⟨hok, hfull⟩ := (h.puts v).emits (MemoryOutputStream.contract memory.length) (memoryOutput memory) []
    (MemoryOutputStream.holds_fresh memory)
  rw [List.length_nil, Nat.zero_add] at hok hfull
  by_cases hroom : (c.bytes v.1).length ≤ memory.length
  · obtain ⟨t, ht, hout⟩ := hok (Limit.fits_some.mpr hroom)
    rw [ht]
    refine ⟨⟨fun _ => hroom, fun _ => ⟨t, rfl⟩⟩, ?_, nofun⟩
    intro _ hx
    cases hx
    exact MemoryOutputStream.written_of_holds hout
  · obtain ⟨e, t, k, ht, hout⟩ := hfull (Limit.fits_some.not.mpr hroom)
    rw [ht]
    refine ⟨⟨nofun, fun hle => absurd hle hroom⟩, nofun, ?_⟩
    intro _ _ hx
    cases hx
    rw [MemoryOutputStream.written_of_holds hout]
    exact List.take_prefix _ _

theorem encode_memory_vector :
    ∃ e s, (rangeEncoder 64 boolEncoder).encode [true, false] MemoryOutputStream (memoryOutput [0, 0]) =
      (.error e, s) ∧ MemoryOutputStream.written s <+: [0x82, 0xf5, 0xf4] := by
  have h : Encodable (rangeEncoder 64 boolEncoder) := .range (.inr rfl) .bool
  have hv : (rangeEncoder 64 boolEncoder).IsValue [true, false] := ⟨by decide, fun _ _ => trivial⟩
  have hbytes : (rangeEncoder 64 boolEncoder).bytes [true, false] = [0x82, 0xf5, 0xf4] := by decide
  have hsize := (congrArg List.length hbytes).trans_lt (show 3 < wordLimit by decide)
  obtain ⟨-, -, hprefix⟩ := encode_memory h ⟨_, hv⟩ hsize [0, 0]
  rw [hbytes] at hprefix
  exact ⟨_, _, rfl, hprefix _ _ rfl⟩

/-- The encoding of a range of so many booleans is longer than a 64 bit size can say: the
computed size is 8. -/
theorem encode_memory_wraps :
    (rangeEncoder 64 boolEncoder).IsValue (List.replicate sizeMax true) ∧
      ¬ ((∃ s, (rangeEncoder 64 boolEncoder).encode (List.replicate sizeMax true) MemoryOutputStream
          (memoryOutput [0, 0, 0, 0, 0, 0, 0, 0]) = (.ok (), s)) ↔
        ((rangeEncoder 64 boolEncoder).sizeOf (List.replicate sizeMax true)).toNat ≤ 8) := by
  have hv : (rangeEncoder 64 boolEncoder).IsValue (List.replicate sizeMax true) :=
    ⟨by rw [List.length_replicate]; decide, fun _ _ => trivial⟩
  have hputs := puts_rangeEncoder (.inr rfl) boolEncoder_exact hv
  have hlen : (Detail.varUintHead .array (List.replicate sizeMax true).length ++
      (List.replicate sizeMax true).flatMap boolEncoder.bytes).length = wordLimit + 8 := by
    have hbool : (boolEncoder.bytes true).length = 1 := by decide
    rw [List.length_append, List.length_flatMap, List.map_replicate, List.sum_replicate_nat, hbool,
      List.length_replicate, Nat.mul_one]
    decide
  refine ⟨hv, ?_⟩
  rw [hputs.size_eq, hlen]
  intro hiff
  obtain ⟨s, hs⟩ := hiff.mpr (by decide)
  obtain ⟨-, hfull⟩ := hputs.emits (MemoryOutputStream.contract 8) (memoryOutput [0, 0, 0, 0, 0, 0, 0, 0]) []
    (MemoryOutputStream.holds_fresh _)
  obtain ⟨e, t, k, ht, -⟩ := hfull (by rw [hlen]; exact Limit.fits_some.not.mpr (by decide))
  rw [ht] at hs
  cases hs

end DeepPack
