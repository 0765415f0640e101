import DeepPack.Codecs.Core
import Mathlib.Logic.Function.Basic
import Mathlib.Data.List.OfFn

/-! The codecs of ranges and containers.

A container is its elements in iteration order. Ordered containers find the place
of a new element with their comparison; a key they hold already makes a decoder
fail. The containers that grow are given the memory they reserve and their elements
need. -/
namespace DeepPack
open Library

variable {α κ ν : Type}

/-! ### Encoders -/

/-- `codec<range>`, for ranges whose size type has `digits` bits. -/
def rangeEncoder (digits : Nat) (c : Encoder α) : Encoder (List α) where
  IsValue vs := vs.length < 2 ^ digits ∧ ∀ v ∈ vs, c.IsValue v
  sizeOf vs := Detail.itemSizeOfArrayLike vs c.sizeOf
  encode vs σ := Detail.emitArrayLike digits vs .array fun v => c.encode v σ

/-- Ranges whose size is not known beforehand: any number of elements. -/
def indefiniteRangeEncoder (c : Encoder α) : Encoder (List α) where
  IsValue vs := ∀ v ∈ vs, c.IsValue v
  sizeOf vs := Detail.itemSizeOfIndefiniteArrayLike vs c.sizeOf
  encode vs σ := Detail.emitIndefiniteArrayLike vs .array fun v => c.encode v σ

namespace Detail

def sizeOfPair (k : Encoder κ) (c : Encoder ν) (pair : κ × ν) : UInt64 := k.sizeOf pair.1 + c.sizeOf pair.2

def encodePair (k : Encoder κ) (c : Encoder ν) (pair : κ × ν) : Emitter := fun σ _ => do
  k.encode pair.1 σ
  c.encode pair.2 σ

/-- A key and a value. -/
def IsPairValue (k : Encoder κ) (c : Encoder ν) (pair : κ × ν) : Prop := k.IsValue pair.1 ∧ c.IsValue pair.2

end Detail

/-- `codec<mapping_associative_container>`. -/
def mapEncoder (digits : Nat) (k : Encoder κ) (c : Encoder ν) : Encoder (List (κ × ν)) where
  IsValue vs := vs.length < 2 ^ digits ∧ ∀ v ∈ vs, Detail.IsPairValue k c v
  sizeOf vs := Detail.itemSizeOfArrayLike vs (Detail.sizeOfPair k c)
  encode vs σ := Detail.emitArrayLike digits vs .map fun v => Detail.encodePair k c v σ

def indefiniteMapEncoder (k : Encoder κ) (c : Encoder ν) : Encoder (List (κ × ν)) where
  IsValue vs := ∀ v ∈ vs, Detail.IsPairValue k c v
  sizeOf vs := Detail.itemSizeOfIndefiniteArrayLike vs (Detail.sizeOfPair k c)
  encode vs σ := Detail.emitIndefiniteArrayLike vs .map fun v => Detail.encodePair k c v σ

/-- `std::set`: a range whose elements ascend. -/
def setEncoder (lt : κ → κ → Bool) (k : Encoder κ) : Encoder (List κ) :=
  {rangeEncoder 64 k with IsValue := fun vs => (rangeEncoder 64 k).IsValue vs ∧ vs.Pairwise fun a b => lt a b}

/-- `std::map`: a range of pairs whose keys ascend. -/
def orderedMapEncoder (lt : κ → κ → Bool) (k : Encoder κ) (c : Encoder ν) : Encoder (List (κ × ν)) :=
  {mapEncoder 64 k c with
    IsValue := fun vs => (mapEncoder 64 k c).IsValue vs ∧ vs.Pairwise fun a b => lt a.1 b.1}

/-- `std::array` and spans. -/
def arrayEncoder (n : Nat) (c : Encoder α) : Encoder (Fin n → α) := (rangeEncoder 64 c).via List.ofFn

/-! ### Decoders -/

namespace Detail
variable {σ : Type} [InputStream σ]

/-- `decode_element` of a sequence container: an element is emplaced and then decoded into. -/
def decodeElement (d : Decoder α) : Parse σ (List α) Unit := do
  Action.onSnd (Action.modify fun vs => vs ++ [d.init])
  Action.within (fun vs => vs.getLastD d.init) (fun v vs => vs.dropLast ++ [v]) (d.decode σ)

/-- `emplace`: the elements with a new one in its place, unless there is an equivalent one. -/
def emplace (lt : α → α → Bool) (v : α) : List α → Option (List α)
  | [] => some [v]
  | e :: rest =>
    if lt e v then (emplace lt v rest).map (e :: ·)
    else if lt v e then some (v :: e :: rest)
    else none

/-- A container that holds the key already is cleared. -/
def emplaceOrClear (lt : α → α → Bool) (v : α) : Action Fault (List α) Unit := fun vs =>
  match emplace lt v vs with
  | some vs' => (.ok (), vs')
  | none => (.error (.errc .duplicateKey), [])

def decodeKey (lt : κ → κ → Bool) (k : Decoder κ) : Parse σ (List κ) Unit := do
  let key ← Action.onFst (k.asValue σ)
  Action.onSnd (emplaceOrClear lt key)

def decodePair (lt : κ → κ → Bool) (k : Decoder κ) (d : Decoder ν) : Parse σ (List (κ × ν)) Unit := do
  let key ← Action.onFst (k.asValue σ)
  let mapped ← Action.onFst (d.asValue σ)
  Action.onSnd (emplaceOrClear (fun a b => lt a.1 b.1) (key, mapped))

/-- `decode_element` of a fixed size container: index `n` is past its end. -/
def decodeAt {n : Nat} (d : Decoder α) (i : Nat) : Parse σ (Fin n → α) Unit :=
  if h : i < n then
    Action.within (fun vs => vs ⟨i, h⟩) (fun v vs => Function.update vs ⟨i, h⟩ v) (d.decode σ)
  else Action.fail .outOfBounds

end Detail

def vectorDecoder (d : Decoder α) : Decoder (List α) where
  init := []
  decode _ := do
    assign []
    let _ ← parseArray sizeMax fun _ => Detail.decodeElement d

def setDecoder (lt : κ → κ → Bool) (k : Decoder κ) : Decoder (List κ) where
  init := []
  decode _ := do
    assign []
    let _ ← parseArray sizeMax fun _ => Detail.decodeKey lt k

def mapDecoder (lt : κ → κ → Bool) (k : Decoder κ) (d : Decoder ν) : Decoder (List (κ × ν)) where
  init := []
  decode _ := do
    assign []
    let _ ← parseMap sizeMax fun _ => Detail.decodePair lt k d

def arrayDecoder (n : Nat) (d : Decoder α) : Decoder (Fin n → α) where
  init _ := d.init
  decode _ := do
    let size ← parseArray n (Detail.decodeAt d)
    if size ≠ n then err .tupleSizeMismatch
    else pure ()

/-! ### What the encoders put out -/

section Exact
variable {c : Encoder α} {k : Encoder κ} {e : Encoder ν}

theorem puts_rangeEncoder {digits : Nat} (hd : digits = 32 ∨ digits = 64) (h : c.Exact) {vs : List α}
    (hvs : (rangeEncoder digits c).IsValue vs) :
    Puts ((rangeEncoder digits c).encode vs) ((rangeEncoder digits c).sizeOf vs)
      (Detail.varUintHead .array vs.length ++ vs.flatMap c.bytes) :=
  puts_arrayLike (m := 4) (.inl rfl) hd hvs.1 fun v hv => (h v (hvs.2 v hv)).1

theorem digits_le {digits n : Nat} (hd : digits = 32 ∨ digits = 64) (hn : n < 2 ^ digits) : n < wordLimit :=
  hn.trans_le (Nat.pow_le_pow_right (by decide) (by omega))

theorem rangeEncoder_exact {digits : Nat} (hd : digits = 32 ∨ digits = 64) (h : c.Exact) :
    (rangeEncoder digits c).Exact :=
  Encoder.exact_of fun _ hvs => ⟨puts_rangeEncoder hd h hvs,
    wellFormed_array (digits_le hd hvs.1) (wellFormed_items fun v hv => (h v (hvs.2 v hv)).2)⟩

theorem indefiniteRangeEncoder_exact (h : c.Exact) : (indefiniteRangeEncoder c).Exact :=
  Encoder.exact_of fun _ hvs =>
    ⟨puts_indefiniteArrayLike (m := 4) (.inl rfl) fun v hv => (h v (hvs v hv)).1,
      .arrayIndefinite (wellFormed_elements fun v hv => (h v (hvs v hv)).2)⟩

namespace Detail

def pairBytes (k : Encoder κ) (e : Encoder ν) (pair : κ × ν) : List UInt8 := k.bytes pair.1 ++ e.bytes pair.2

theorem puts_encodePair (hk : k.Exact) (he : e.Exact) {v : κ × ν} (hv : IsPairValue k e v) :
    Puts (encodePair k e v) (sizeOfPair k e v) (pairBytes k e v) :=
  (hk v.1 hv.1).1.bind (he v.2 hv.2).1

theorem isPair_pairBytes (hk : k.Exact) (he : e.Exact) {v : κ × ν} (hv : IsPairValue k e v) :
    IsPair (pairBytes k e v) :=
  ⟨_, _, rfl, (hk v.1 hv.1).2, (he v.2 hv.2).2⟩

end Detail

theorem puts_mapEncoder {digits : Nat} (hd : digits = 32 ∨ digits = 64) (hk : k.Exact) (he : e.Exact)
    {vs : List (κ × ν)} (hvs : (mapEncoder digits k e).IsValue vs) :
    Puts ((mapEncoder digits k e).encode vs) ((mapEncoder digits k e).sizeOf vs)
      (Detail.varUintHead .map vs.length ++ vs.flatMap (Detail.pairBytes k e)) :=
  puts_arrayLike (m := 5) (.inr rfl) hd hvs.1 fun v hv => Detail.puts_encodePair hk he (hvs.2 v hv)

theorem mapEncoder_exact {digits : Nat} (hd : digits = 32 ∨ digits = 64) (hk : k.Exact) (he : e.Exact) :
    (mapEncoder digits k e).Exact :=
  Encoder.exact_of fun _ hvs => ⟨puts_mapEncoder hd hk he hvs,
    wellFormed_map (digits_le hd hvs.1) (wellFormed_pairs fun v hv => Detail.isPair_pairBytes hk he (hvs.2 v hv))⟩

theorem indefiniteMapEncoder_exact (hk : k.Exact) (he : e.Exact) : (indefiniteMapEncoder k e).Exact :=
  Encoder.exact_of fun _ hvs =>
    ⟨puts_indefiniteArrayLike (m := 5) (.inr rfl) fun v hv => Detail.puts_encodePair hk he (hvs v hv),
      .mapIndefinite (wellFormed_entries fun v hv => Detail.isPair_pairBytes hk he (hvs v hv))⟩

theorem setEncoder_exact (lt : κ → κ → Bool) (hk : k.Exact) : (setEncoder lt k).Exact :=
  fun vs hvs => rangeEncoder_exact (.inr rfl) hk vs hvs.1

theorem orderedMapEncoder_exact (lt : κ → κ → Bool) (hk : k.Exact) (he : e.Exact) :
    (orderedMapEncoder lt k e).Exact :=
  fun vs hvs => mapEncoder_exact (.inr rfl) hk he vs hvs.1

theorem arrayEncoder_exact (n : Nat) (h : c.Exact) : (arrayEncoder n c).Exact :=
  (rangeEncoder_exact (.inr rfl) h).via List.ofFn

end Exact
end DeepPack
