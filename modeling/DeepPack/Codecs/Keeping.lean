import DeepPack.Codecs.Codable
import DeepPack.Codecs.DuplicateKeys
import DeepPack.Codecs.RequiredProperties
import DeepPack.Codecs.Wrappers
import DeepPack.Items.Definite
import DeepPack.Items.Keeping

/-! What decoding keeps, whatever the input.

`LibraryCodec` is how the types the library encodes and decodes are built. Whatever
bytes there are, a decoder returns: it succeeds or returns an error code, the input
has only moved on, and the destination is a value of its type again. The exception is
a fixed size array, whose elements can be decoded past its end. -/
namespace DeepPack
open Library

/-- The decoder ends in a way `G` allows, and in a destination that is in `V` if it was. -/
structure Decoder.Keeps {α : Type} (G : Fault → Prop) (V : α → Prop) (d : Decoder α) : Prop where
  init : V d.init
  decode : ∀ {σ : Type} [InputStream σ] (C : InputContract σ) (b : List UInt8),
    ParseKeeps G C b V (fun _ => V) V (d.decode σ)

variable {σ : Type} [InputStream σ] {C : InputContract σ} {b : List UInt8}
variable {α β κ ν ι : Type} {G : Fault → Prop}

/-- A part of the destination is worked on. -/
theorem keeps_within {τ δ : Type} {x : Parse σ τ β} {get : δ → τ} {set : τ → δ → δ} {V U : τ → Prop}
    {W : β → τ → Prop} {Y F : δ → Prop} {Z : β → δ → Prop} (h : ParseKeeps G C b V W U x) (hget : ∀ d, Y d → V (get d))
    (hset : ∀ a v d, W a v → Y d → Z a (set v d)) (hfail : ∀ v d, U v → Y d → F (set v d)) :
    ParseKeeps G C b Y Z F (Action.within get set x) := by
  refine (h.within hget).mono (fun _ hs => hs) (fun a s hs => ?_) fun e s hs => ?_
  · obtain ⟨v, d, hW, hY, heq⟩ := hs
    exact ⟨hW.1, heq ▸ hset a v d hW.2 hY⟩
  · obtain ⟨v, d, hU, hY, heq⟩ := hs
    exact ⟨hU.1, heq ▸ hfail v d hU.2 hY⟩

theorem keeps_fresh {τ : Type} {init : τ} {V U : τ → Prop} {x : Parse σ τ Unit} (h : ParseKeeps G C b V (fun _ => V) U x)
    (hinit : V init) : InputKeeps G C b V (Action.fresh init x) := by
  refine (h.fresh hinit).mono (fun _ hs => hs) (fun v s hs => ⟨hs.2, hs.1⟩) fun e s hs => ?_
  obtain ⟨v, hv⟩ := hs
  exact hv.1

namespace Decoder.Keeps
variable {V : α → Prop} {d : Decoder α}

theorem asValue (h : d.Keeps G V) : InputKeeps G C b V (d.asValue σ) := keeps_fresh (h.decode C b) h.init

theorem via {W : β → Prop} {f : α → β} (h : d.Keeps G V) (hf : ∀ v, V v → W (f v)) : (d.via f).Keeps G W where
  init := hf _ h.init
  decode _ _ := keeps_onFst_bind h.asValue (fun _ hw => hw) fun v hv => keeps_assign _ (hf v hv)

end Decoder.Keeps

/-! ### Strings -/

/-- A failure that is looked at leaves what the action left. -/
theorem keeps_attempt {δ : Type} {V U : δ → Prop} {W : α → δ → Prop} {x : Parse σ δ α} (h : ParseKeeps G C b V W U x) :
    ParseKeeps G C b V (fun r d => (∀ a, r = .ok a → W a d) ∧ ∀ e, r = .error e → U d) U (attempt x) := by
  intro s hs
  unfold attempt
  rcases hx : x s with ⟨f | a, t⟩
  · have hfail := h.error hs hx
    cases f with
    | errc e =>
      refine ⟨fun _ _ heq => ?_, nofun⟩
      cases heq
      exact ⟨hfail.1.2, nofun, fun _ _ => hfail.2⟩
    | outOfBounds =>
      refine ⟨nofun, fun _ _ heq => ?_⟩
      cases heq
      exact hfail
    | running =>
      refine ⟨nofun, fun _ _ heq => ?_⟩
      cases heq
      exact hfail
    | terminated =>
      refine ⟨nofun, fun _ _ heq => ?_⟩
      cases heq
      exact hfail
  · have hok := h.ok hs hx
    refine ⟨fun _ _ heq => ?_, nofun⟩
    cases heq
    exact ⟨hok.1, fun _ ha => Except.ok.inj ha ▸ hok.2, nofun⟩

/-- A string that grows is as long as was asked for. -/
theorem keeps_growable :
    BlobContainer.growable.Keeps (fun d => d.length < wordLimit) fun n d => d.length = n ∧ n < wordLimit where
  resize := by
    intro n d d' hn hd hresize
    cases hresize
    refine ⟨?_, hn⟩
    rw [List.length_append, List.length_take, List.length_replicate]
    omega
  overwrite := by
    intro n i bytes d hd hi
    refine ⟨?_, hd.2⟩
    show (BlobContainer.putAt i bytes d).length = n
    rw [BlobContainer.putAt, List.length_append, List.length_append, List.length_take, List.length_drop]
    omega
  kept hd := hd.1 ▸ hd.2

/-- A span is as long as ever. -/
theorem keeps_span (N : Nat) :
    BlobContainer.span.Keeps (fun d => d.length = N) fun n d => d.length = N ∧ n ≤ N where
  resize := by
    intro n d d' hn hd hresize
    replace hresize : (if n ≤ d.length then some d else none) = some d' := hresize
    split at hresize <;> cases hresize
    rename_i hle
    exact ⟨hd, hd ▸ hle⟩
  overwrite := by
    intro n i bytes d hd hi
    refine ⟨?_, hd.2⟩
    show (BlobContainer.putAt i bytes d).length = N
    rw [BlobContainer.putAt, List.length_append, List.length_append, List.length_take, List.length_drop]
    omega
  kept hd := hd.1

/-- Nothing is asked of any container. -/
theorem keeps_anyContainer {δ : Type} (B : BlobContainer δ) : B.Keeps (fun _ => True) fun _ _ => True :=
  ⟨fun _ _ _ => trivial, fun _ _ => trivial, fun _ => trivial⟩

section Blobs
variable {V : List UInt8 → Prop} {Room : Nat → List UInt8 → Prop}

theorem keeps_decodeString (hG : ReturnsErrors G) (hB : BlobContainer.growable.Keeps V Room) :
    ParseKeeps G C b V (fun _ => V) V (stringDecoder.decode σ) :=
  (keeps_parseBlob hG hB true sizeMax .text).bind fun _ => keeps_pure _ fun _ hd => hd.2

theorem keeps_decodeBlob (hG : ReturnsErrors G) (hB : BlobContainer.growable.Keeps V Room) (hclear : V []) :
    ParseKeeps G C b V (fun _ => V) V (blobDecoder.decode σ) := by
  refine (keeps_attempt (keeps_parseBlob (C := C) (b := b) hG hB true sizeMax .binary)).bind fun r => ?_
  cases r with
  | ok size => exact keeps_pure _ fun d hd => (hd.1 size rfl).2
  | error e =>
    exact (keeps_modify (W := fun _ => V) fun _ _ => hclear).bind fun _ => keeps_parseErr hG (fun _ hd => hd) e

theorem keeps_decodeByteSpan (hG : ReturnsErrors G) (hB : BlobContainer.span.Keeps V Room)
    (hzero : ∀ d, V d → V (List.replicate d.length 0)) :
    ParseKeeps G C b V (fun _ => V) V (Detail.decodeByteSpan σ) := by
  have hspan := keeps_attempt (keeps_parseBlob (C := C) (b := b) hG hB true sizeMax .binary)
  have hcleared : ∀ e, ParseKeeps G C b V (fun (_ : Unit) => V) V (do
      Action.onSnd (Action.modify fun value : List UInt8 => List.replicate value.length 0)
      err e) := fun e =>
    (keeps_modify (W := fun _ => V) hzero).bind fun _ => keeps_parseErr hG (fun _ hd => hd) e
  refine (hspan.mono (fun _ hs => hs) (fun _ _ hs => hs) fun _ _ hs => hs).bind fun r => ?_
  cases r with
  | ok size =>
    refine Action.Triple.bind (Q := fun _ => Action.Both (Ahead C b) V) ?_ fun len => ?_
    · exact keeps_onSnd (F := fun _ _ => False) (Action.triple_gets fun d hd => (hd.1 size rfl).2) fun _ _ => False.elim
    · exact .ite (fun _ => hcleared _) fun _ => keeps_pure _ fun _ hd => hd
  | error e => exact (hcleared e).weaken fun _ hs => ⟨hs.1, hs.2.2 e rfl⟩

end Blobs

theorem keeps_string (hG : ReturnsErrors G) : stringDecoder.Keeps G stringEncoder.IsValue where
  init := by
    show ([] : List UInt8).length < wordLimit
    decide
  decode _ _ := keeps_decodeString hG keeps_growable

theorem keeps_blob (hG : ReturnsErrors G) : blobDecoder.Keeps G blobEncoder.IsValue where
  init := by
    show ([] : List UInt8).length < wordLimit
    decide
  decode _ _ := keeps_decodeBlob hG keeps_growable (show 0 < wordLimit by decide)

theorem keeps_byteArray (hG : ReturnsErrors G) {n : Nat} (hn : n < wordLimit) :
    (byteArrayDecoder n).Keeps G (byteArrayEncoder n).IsValue where
  init := hn
  decode _ _ := keeps_within (keeps_decodeByteSpan hG (keeps_span n) fun _ hd => List.length_replicate.trans hd)
    (fun d _ => d.property) (fun _ _ _ _ _ => hn) fun _ _ _ _ => hn

theorem keeps_fixedU8string (hG : ReturnsErrors G) {capacity : Nat} (hcapacity : capacity < 2 ^ 32) :
    (fixedU8stringDecoder capacity).Keeps G (fixedU8stringEncoder capacity).IsValue where
  init := FixedU8string.fits_ofUnits hcapacity (Nat.zero_le _)
  decode C b := by
    have hmod : capacity % 2 ^ 32 = capacity := Nat.mod_eq_of_lt hcapacity
    have htext := keeps_parseBlob (C := C) (b := b) hG (keeps_span capacity) false (capacity % 2 ^ 32) .text
    have hfits : ∀ s : FixedU8string, FixedU8string.Fits capacity s → s.codeUnits.length = capacity := fun _ hs => hs.2.1
    refine Action.Triple.bind (keeps_modify (W := fun _ => FixedU8string.Fits capacity) fun s hs => ?_) fun _ => ?_
    · exact ⟨hcapacity, hs.2.1, Nat.zero_le _⟩
    refine Action.Triple.bind (keeps_within (Z := fun len s => len ≤ capacity ∧ FixedU8string.Fits capacity s)
      (F := FixedU8string.Fits capacity) htext hfits (fun len units s hunits hs => ?_) fun units s hunits hs => ?_) fun len => ?_
    · exact ⟨hmod ▸ hunits.1, hcapacity, hunits.2, hs.2.2⟩
    · exact ⟨hcapacity, hunits, hs.2.2⟩
    · exact keeps_modify fun s hs => ⟨hcapacity, hs.2.2.1, hs.1⟩

theorem keeps_uuid {υ : Type} (hG : ReturnsErrors G) (uuid : List UInt8 → υ) :
    (uuidDecoder uuid).Keeps G fun _ => True where
  init := trivial
  decode _ _ := keeps_onFst_bind (keeps_expectItemHead hG _ _) (fun _ h => h) fun _ _ =>
    keeps_onFst_bind (keeps_bulkRead hG _) (fun _ h => h) fun _ _ => keeps_assign _ trivial

/-! ### Containers -/

/-- So many elements at most, and all of them values. -/
def Holding (V : α → Prop) (k : Nat) (vs : List α) : Prop := vs.length ≤ k ∧ ∀ v ∈ vs, V v

/-- A container can hold a `size_t` of elements. -/
theorem Holding.fits {V : α → Prop} {k : Nat} {vs : List α} (h : Holding V k vs) (hk : k ≤ sizeMax) :
    vs.length < 2 ^ 64 ∧ ∀ v ∈ vs, V v :=
  ⟨(h.1.trans hk).trans_lt (by decide), h.2⟩

theorem keeps_vector (hG : ReturnsErrors G) {c : Encoder α} {d : Decoder α} (h : d.Keeps G c.IsValue) :
    (vectorDecoder d).Keeps G (rangeEncoder 64 c).IsValue where
  init := ⟨Nat.two_pow_pos 64, nofun⟩
  decode C b := by
    have helement : ∀ k, k < sizeMax → ParseKeeps G C b (fun vs => k ≤ sizeMax ∧ Holding c.IsValue k vs)
        (fun _ vs => k + 1 ≤ sizeMax ∧ Holding c.IsValue (k + 1) vs) (rangeEncoder 64 c).IsValue
        (Detail.decodeElement d) := by
      intro k hk
      have hlast : ∀ v vs, c.IsValue v → vs ≠ [] ∧ Holding c.IsValue (k + 1) vs →
          Holding c.IsValue (k + 1) (vs.dropLast ++ [v]) := by
        intro v vs hv hvs
        refine ⟨?_, fun u hu => ?_⟩
        · have hpos := List.length_pos_of_ne_nil hvs.1
          have hlen := hvs.2.1
          rw [List.length_append, List.length_dropLast, List.length_singleton]
          omega
        · rcases List.mem_append.mp hu with hu | hu
          · exact hvs.2.2 u (List.dropLast_subset vs hu)
          · exact List.mem_singleton.mp hu ▸ hv
      refine (keeps_modify (W := fun _ vs => vs ≠ [] ∧ Holding c.IsValue (k + 1) vs) fun vs hvs => ?_).bind fun _ => ?_
      · refine ⟨by simp, ?_, fun u hu => ?_⟩
        · have hlen := hvs.2.1
          rw [List.length_append, List.length_singleton]
          omega
        · rcases List.mem_append.mp hu with hu | hu
          · exact hvs.2.2 u hu
          · exact List.mem_singleton.mp hu ▸ h.init
      · refine keeps_within (h.decode C b) (fun vs hvs => ?_) (fun _ v vs hv hvs => ⟨hk, hlast v vs hv hvs⟩)
          fun v vs hv hvs => (hlast v vs hv hvs).fits hk
        rw [List.getLastD_eq_getLast?, List.getLast?_eq_some_getLast hvs.1]
        exact hvs.2.2 _ (List.getLast_mem hvs.1)
    have hempty : Holding c.IsValue 0 [] := ⟨Nat.le_refl _, nofun⟩
    refine (keeps_assign [] (W := fun _ vs => 0 ≤ sizeMax ∧ Holding c.IsValue 0 vs) ⟨Nat.zero_le _, hempty⟩).bind fun _ => ?_
    exact (keeps_parseArrayLike hG (fun k vs hvs => hvs.2.fits hvs.1) helement true sizeMax .array).bind fun n =>
      keeps_pure _ fun vs hvs => hvs.2.fits hvs.1

/-- A container of so many elements at most, which ascend. -/
def Ascending (V : α → Prop) (lt : α → α → Bool) (k : Nat) (vs : List α) : Prop :=
  k ≤ sizeMax ∧ Holding V k vs ∧ vs.Pairwise fun a b => lt a b = true

section Ascending
variable {V : α → Prop} {lt : α → α → Bool}

theorem Ascending.fits {k : Nat} {vs : List α} (h : Ascending V lt k vs) :
    (vs.length < 2 ^ 64 ∧ ∀ v ∈ vs, V v) ∧ vs.Pairwise fun a b => lt a b = true :=
  ⟨h.2.1.fits h.1, h.2.2⟩

theorem ascending_nil : Ascending V lt 0 [] := ⟨Nat.zero_le _, ⟨Nat.le_refl _, nofun⟩, .nil⟩

/-- A new element finds its place among those that ascend, or none are left. -/
theorem keeps_emplaceOrClear [IsStrictWeakOrder α fun a b => lt a b = true] (hG : ReturnsErrors G) {v : α}
    (hv : V v) {k : Nat} (hk : k < sizeMax) :
    ParseKeeps G C b (Ascending V lt k) (fun _ => Ascending V lt (k + 1))
      (fun vs => (vs.length < 2 ^ 64 ∧ ∀ v ∈ vs, V v) ∧ vs.Pairwise fun a b => lt a b = true)
      (Action.onSnd (Detail.emplaceOrClear lt v)) := by
  refine keeps_onSnd (F := fun e vs => G e ∧ vs = []) (fun vs hvs => ?_) fun e vs hvs => ⟨hvs.1, ?_⟩
  · rw [Detail.emplaceOrClear]
    rcases hplace : Detail.emplace lt v vs with _ | vs'
    · refine ⟨fun _ _ heq => ?_, fun _ _ heq => ?_⟩ <;> cases heq
      exact ⟨hG _, rfl⟩
    · refine ⟨fun _ _ heq => ?_, fun _ _ heq => ?_⟩ <;> cases heq
      have hperm := Detail.emplace_perm hplace
      refine ⟨hk, ⟨?_, fun u hu => ?_⟩, Detail.emplace_ascending hvs.2.2 hplace⟩
      · have hlen := hvs.2.1.1
        rw [hperm.length_eq, List.length_cons]
        omega
      · rcases List.mem_cons.mp (hperm.mem_iff.mp hu) with rfl | hu
        · exact hv
        · exact hvs.2.1.2 u hu
  · rw [hvs.2]
    exact ascending_nil.fits

end Ascending

theorem keeps_set (hG : ReturnsErrors G) {lt : κ → κ → Bool} [IsStrictWeakOrder κ fun a b => lt a b = true]
    {k : Encoder κ} {kd : Decoder κ} (h : kd.Keeps G k.IsValue) : (setDecoder lt kd).Keeps G (setEncoder lt k).IsValue where
  init := (ascending_nil (V := k.IsValue)).fits
  decode C b := by
    have hkey : ∀ i, i < sizeMax → ParseKeeps G C b (Ascending k.IsValue lt i) (fun _ => Ascending k.IsValue lt (i + 1))
        (setEncoder lt k).IsValue (Detail.decodeKey lt kd) := fun i hi =>
      keeps_onFst_bind h.asValue (fun _ hvs => hvs.fits) fun _ hv => keeps_emplaceOrClear hG hv hi
    refine (keeps_assign [] (W := fun _ => Ascending k.IsValue lt 0) ascending_nil).bind fun _ => ?_
    exact (keeps_parseArrayLike hG (fun _ _ hvs => hvs.fits) hkey true sizeMax .array).bind fun _ =>
      keeps_pure _ fun _ hvs => hvs.fits

theorem keeps_map (hG : ReturnsErrors G) {lt : κ → κ → Bool} [IsStrictWeakOrder κ fun a b => lt a b = true]
    {k : Encoder κ} {kd : Decoder κ} {c : Encoder ν} {d : Decoder ν} (hk : kd.Keeps G k.IsValue)
    (h : d.Keeps G c.IsValue) : (mapDecoder lt kd d).Keeps G (orderedMapEncoder lt k c).IsValue := by
  have horder : IsStrictWeakOrder (κ × ν) fun a b => lt a.1 b.1 = true :=
    inferInstanceAs (IsStrictWeakOrder (κ × ν) (Order.Preimage Prod.fst fun a b => lt a b = true))
  have hnil : Ascending (Detail.IsPairValue k c) (fun a b => lt a.1 b.1) 0 [] := ascending_nil
  refine ⟨hnil.fits, fun C b => ?_⟩
  have hpair : ∀ i, i < sizeMax → ParseKeeps G C b (Ascending (Detail.IsPairValue k c) (fun a b => lt a.1 b.1) i)
      (fun _ => Ascending (Detail.IsPairValue k c) (fun a b => lt a.1 b.1) (i + 1)) (orderedMapEncoder lt k c).IsValue
      (Detail.decodePair lt kd d) := fun i hi =>
    keeps_onFst_bind hk.asValue (fun _ hvs => hvs.fits) fun key hkey =>
      keeps_onFst_bind h.asValue (fun _ hvs => hvs.fits) fun mapped hmapped =>
        keeps_emplaceOrClear hG ⟨hkey, hmapped⟩ hi
  refine (keeps_assign [] (W := fun _ => Ascending (Detail.IsPairValue k c) (fun a b => lt a.1 b.1) 0)
    hnil).bind fun _ => ?_
  exact (keeps_parseArrayLike hG (fun _ _ hvs => hvs.fits) hpair true sizeMax .map).bind fun _ =>
    keeps_pure _ fun _ hvs => hvs.fits

theorem isValue_ofFn {n : Nat} (hn : n < wordLimit) {c : Encoder α} {v : Fin n → α} (hv : ∀ i, c.IsValue (v i)) :
    (arrayEncoder n c).IsValue v := by
  refine ⟨List.length_ofFn.trans_lt hn, fun u hu => ?_⟩
  obtain ⟨i, rfl⟩ := (List.mem_ofFn' v u).mp hu
  exact hv i

theorem keeps_array (hG : ReturnsErrors G) (hout : G .outOfBounds) {n : Nat} (hn : n < wordLimit) {c : Encoder α}
    {d : Decoder α} (h : d.Keeps G c.IsValue) : (arrayDecoder n d).Keeps G (arrayEncoder n c).IsValue where
  init := isValue_ofFn hn fun _ => h.init
  decode C b := by
    have hvalues : ∀ v : Fin n → α, (arrayEncoder n c).IsValue v → ∀ i, c.IsValue (v i) := fun v hv i =>
      hv.2 _ (List.mem_ofFn.mpr ⟨i, rfl⟩)
    have hat : ∀ i, i < sizeMax → ParseKeeps G C b (arrayEncoder n c).IsValue (fun _ => (arrayEncoder n c).IsValue)
        (arrayEncoder n c).IsValue (Detail.decodeAt d i) := by
      intro i _
      unfold Detail.decodeAt
      split
      · rename_i hi
        have hupdate : ∀ (v : α) (vs : Fin n → α), c.IsValue v → (arrayEncoder n c).IsValue vs →
            (arrayEncoder n c).IsValue (Function.update vs ⟨i, hi⟩ v) := by
          intro v vs hv hvs
          refine isValue_ofFn hn fun j => ?_
          by_cases hj : j = ⟨i, hi⟩
          · rw [hj, Function.update_self]
            exact hv
          · rw [Function.update_of_ne hj]
            exact hvalues vs hvs j
        exact keeps_within (h.decode C b) (fun vs hvs => hvalues vs hvs _) (fun _ => hupdate) hupdate
      · exact Action.triple_fail fun _ hs => ⟨⟨hout, hs.1⟩, hs.2⟩
    refine (keeps_parseArrayLike (I := fun _ => (arrayEncoder n c).IsValue) hG (fun _ _ hvs => hvs) hat true n .array).bind
      fun size => ?_
    exact .ite (fun _ => keeps_parseErr hG (fun _ hvs => hvs) _) fun _ => keeps_pure _ fun _ hvs => hvs

/-! ### Tuples and objects -/

section Members
variable {n : Nat} {δ : Fin n → Type} {V : ∀ i, δ i → Prop}

/-- Every member is as it should be. -/
def AllMembers (V : ∀ i, δ i → Prop) (v : ∀ i, δ i) : Prop := ∀ i, V i (v i)

theorem AllMembers.update {v : ∀ i, δ i} (h : AllMembers V v) {i : Fin n} {w : δ i} (hw : V i w) :
    AllMembers V (Function.update v i w) := by
  intro j
  by_cases hj : j = i
  · subst hj
    rw [Function.update_self]
    exact hw
  · rw [Function.update_of_ne hj]
    exact h j

theorem keeps_onMember {i : Fin n} {x : Parse σ (δ i) Unit} (h : ParseKeeps G C b (V i) (fun _ => V i) (V i) x) :
    ParseKeeps G C b (AllMembers V) (fun _ => AllMembers V) (AllMembers V) (onMember i x) :=
  keeps_within h (fun _ hv => hv i) (fun _ _ _ hw hv => hv.update hw) fun _ _ hw hv => hv.update hw

theorem keeps_mpForDots {d : ∀ i, Decoder (δ i)} (h : ∀ i, (d i).Keeps G (V i)) :
    ParseKeeps G C b (AllMembers V) (fun _ => AllMembers V) (AllMembers V)
      (mpForDots fun i => onMember i ((d i).decode σ)) :=
  Action.Triple.forList (fun i => keeps_onMember ((h i).decode C b)) _

theorem keeps_tuple (hG : ReturnsErrors G) {d : ∀ i, Decoder (δ i)} (h : ∀ i, (d i).Keeps G (V i)) :
    (tupleDecoder d).Keeps G (AllMembers V) where
  init i := (h i).init
  decode _ _ := keeps_onFst_bind (keeps_expectItemHead hG _ _) (fun _ hv => hv) fun _ _ => keeps_mpForDots h

theorem keeps_readUnsigned (hG : ReturnsErrors G) (t : IntType) (limit : Nat) :
    InputKeeps G C b (fun _ => True) (Action.fresh (0 : BitVec t.width) (parseUnsignedInteger t limit)) :=
  keeps_fresh (V := fun _ => True) (keeps_parseUnsignedInteger hG t limit) trivial

theorem keeps_parseVersion (hG : ReturnsErrors G) : InputKeeps G C b (fun _ => True) parseVersion :=
  keeps_readUnsigned hG _ _

theorem keeps_decodeTupleHead (hG : ReturnsErrors G) (isVersioned : Bool) :
    InputKeeps G C b (fun _ => True) (decodeTupleHead isVersioned) := by
  have herr : ∀ e, InputKeeps G C b (fun _ : HeadInfo => True) (err e) := fun e => keeps_err hG e
  have hdone : ∀ info, InputKeeps G C b (fun _ : HeadInfo => True) (pure info) := fun _ =>
    Action.triple_pure fun _ hs => ⟨trivial, hs⟩
  refine keeps_bind (keeps_parseItemHead hG) fun head _ => .ite (fun _ => herr _) fun _ => ?_
  refine keeps_bind keeps_inputSizeNow fun inputSize _ => .ite (fun _ => herr _) fun _ => .ite (fun _ => herr _) fun _ => ?_
  refine .ite (fun _ => .ite (fun _ => herr _) fun _ => ?_) fun _ => hdone _
  exact keeps_bind (keeps_parseVersion hG) fun _ _ => hdone _

theorem keeps_packableTuple (hG : ReturnsErrors G) (version : BitVec 32) {d : ∀ i, Decoder (δ i)}
    (h : ∀ i, (d i).Keeps G (V i)) : (packableTupleDecoder version d).Keeps G (AllMembers V) where
  init i := (h i).init
  decode _ _ := keeps_onFst_bind (keeps_decodeTupleHead hG _) (fun _ hv => hv) fun _ _ =>
    .ite (fun _ => keeps_parseErr hG (fun _ hv => hv) _) fun _ =>
      .ite (fun _ => keeps_parseErr hG (fun _ hv => hv) _) fun _ => keeps_mpForDots h

theorem keeps_decodeObjectHead (hG : ReturnsErrors G) (isVersioned : Bool) :
    InputKeeps G C b (fun _ => True) (decodeObjectHead isVersioned) := by
  have herr : ∀ e, InputKeeps G C b (fun _ : HeadInfo => True) (err e) := fun e => keeps_err hG e
  have hdone : ∀ info, InputKeeps G C b (fun _ : HeadInfo => True) (pure info) := fun _ =>
    Action.triple_pure fun _ hs => ⟨trivial, hs⟩
  refine keeps_bind (keeps_parseItemHead hG) fun head _ => .ite (fun _ => herr _) fun _ => .ite (fun _ => hdone _) fun _ => ?_
  refine keeps_bind keeps_inputSizeNow fun inputSize _ => .ite (fun _ => herr _) fun _ => .ite (fun _ => herr _) fun _ => ?_
  refine .ite (fun _ => ?_) fun _ => hdone _
  -- the byte at the front has been buffered, so that it can be discarded
  refine (keeps_peekByte hG).bind fun c => .ite (fun _ => (hdone _).weaken fun _ hs => hs.1) fun _ => ?_
  exact keeps_discardOne.bind fun _ => keeps_bind (keeps_parseVersion hG) fun _ _ => hdone _

/-- An id that is found has a member, which is decoded. -/
theorem keeps_decodeEntry (hG : ReturnsErrors G) {D : ObjectDef ι n} {readId : Input σ ι} {lookup : ι → Option Nat}
    {Q : ι → Prop} (hread : InputKeeps G C b Q readId) (hlookup : FindsIds D lookup) {d : ∀ i, Decoder (δ i)}
    (h : ∀ i, (d i).Keeps G (V i)) :
    ParseKeeps G C b (AllMembers V) (fun _ => AllMembers V) (AllMembers V) (decodeEntry readId lookup d) := by
  refine keeps_onFst_bind hread (fun _ hv => hv) fun id _ => ?_
  rcases hfound : lookup id with _ | idx
  · exact keeps_parseErr hG (fun _ hv => hv) _
  · obtain ⟨i, -, rfl⟩ := hlookup.eq hfound
    rw [Detail.decodePropByIndex_of_lt d i.isLt]
    exact (keeps_onMember ((h i).decode C b)).bind fun _ => keeps_pure _ fun _ hv => hv

theorem keeps_decodeFoundProperties {property : Parse σ (∀ i, δ i) Nat}
    (h : ParseKeeps G C b (AllMembers V) (fun _ => AllMembers V) (AllMembers V) property) (k : Nat)
    (foundProps : List (BitVec 64)) :
    ParseKeeps G C b (AllMembers V) (fun _ => AllMembers V) (AllMembers V) (decodeFoundProperties property k foundProps) := by
  induction k generalizing foundProps with
  | zero => exact keeps_pure _ fun _ hv => hv
  | succ k ih => exact h.bind fun which => ih _

theorem keeps_decodeObject (hG : ReturnsErrors G) (D : ObjectDef ι n) {property : Parse σ (∀ i, δ i) Nat}
    (h : ParseKeeps G C b (AllMembers V) (fun _ => AllMembers V) (AllMembers V) property) :
    ParseKeeps G C b (AllMembers V) (fun _ => AllMembers V) (AllMembers V) (decodeObject D property) := by
  have herr : ∀ e, ParseKeeps G C b (AllMembers V) (fun (_ : Unit) => AllMembers V) (AllMembers V) (err e) :=
    keeps_parseErr hG fun _ hv => hv
  refine keeps_onFst_bind (keeps_decodeObjectHead hG _) (fun _ hv => hv) fun head _ => .ite (fun _ => herr _) fun _ => ?_
  refine .ite (fun _ => ?_) fun _ => .ite (fun _ => herr _) fun _ => ?_
  · refine (keeps_decodeFoundProperties h _ _).bind fun foundProps => ?_
    exact .ite (fun _ => herr _) fun _ => keeps_pure _ fun _ hv => hv
  · exact Action.Triple.forRange (fun _ => Action.Both (Ahead C b) (AllMembers V)) fun _ _ _ =>
      h.bind fun _ => keeps_pure _ fun _ hv => hv

theorem keeps_object [DecidableEq ι] (hG : ReturnsErrors G) (lt : ι → ι → Bool) (D : ObjectDef ι n) {kd : Decoder ι}
    {Q : ι → Prop} (hkey : kd.Keeps G Q) {d : ∀ i, Decoder (δ i)} (h : ∀ i, (d i).Keeps G (V i)) :
    (objectDecoder lt D kd d).Keeps G (AllMembers V) where
  init i := (h i).init
  decode _ _ := keeps_decodeObject hG D (keeps_decodeEntry hG hkey.asValue (findsIds_propertyIdLookup lt D) h)

theorem keeps_unsignedObject {w : Nat} (hG : ReturnsErrors G) (D : ObjectDef (BitVec w) n) {d : ∀ i, Decoder (δ i)}
    (h : ∀ i, (d i).Keeps G (V i)) : (unsignedObjectDecoder D d).Keeps G (AllMembers V) where
  init i := (h i).init
  decode _ _ := keeps_decodeObject hG D (keeps_decodeEntry hG (keeps_readUnsigned hG _ _) (findsIds_unsignedIdLookup D) h)

end Members

end DeepPack
