import DeepPack.Items.ItemSize

/-! The emitters of ranges, and their sizes.

A range is written behind a head with its number of elements, or between an
indefinite head and a break. What an element is, one item or a key and its value,
is up to the emitter of its elements. -/
namespace DeepPack
open Library

variable {α : Type}

namespace Detail
variable {σ : Type} [OutputStream σ]

/-- `emit_array_like`: `digits` is the width of the range's size type. -/
def emitArrayLike (digits : Nat) (vs : List α) (type : TypeCode) (encodeElement : α → Output σ Unit) :
    Output σ Unit := do
  storeVarUint digits vs.length type
  Action.forList encodeElement vs

def emitIndefiniteArrayLike (vs : List α) (type : TypeCode) (encodeElement : α → Output σ Unit) :
    Output σ Unit := do
  storeInlineValue indefiniteAddInfo type
  Action.forList encodeElement vs
  emitBreak

/-- Arrays and maps have heads of one size. -/
def itemSizeOfArrayLike (vs : List α) (sizeOfElement : α → UInt64) : UInt64 :=
  vs.foldl (fun size v => size + sizeOfElement v) (encodedItemHeadSize .array vs.length)

/-- The first byte and the break, and what is between them. -/
def itemSizeOfIndefiniteArrayLike (vs : List α) (sizeOfElement : α → UInt64) : UInt64 :=
  vs.foldl (fun size v => size + sizeOfElement v) (1 + 1)

end Detail

/-! ### What is put out -/

section Puts
variable {f : α → Emitter} {size : α → UInt64} {bytes : α → List UInt8} {vs : List α}

/-- Adding up sizes counts bytes. -/
theorem foldl_size (h : ∀ v ∈ vs, size v = UInt64.ofNat (bytes v).length) (n : Nat) :
    vs.foldl (fun acc v => acc + size v) (UInt64.ofNat n) = UInt64.ofNat (n + (vs.flatMap bytes).length) := by
  induction vs generalizing n with
  | nil => rfl
  | cons v rest ih =>
    rw [List.foldl_cons, h v List.mem_cons_self, ← UInt64.ofNat_add,
      ih (fun w hw => h w (List.mem_cons_of_mem _ hw)), List.flatMap_cons, List.length_append, Nat.add_assoc]

/-- The elements one after the other. -/
theorem puts_forList (h : ∀ v ∈ vs, Puts (f v) (size v) (bytes v)) :
    Puts (fun σ _ => Action.forList (fun v => f v σ) vs) (vs.foldl (fun acc v => acc + size v) 0)
      (vs.flatMap bytes) where
  emits C := OutputContract.emits_forList fun v hv => (h v hv).emits C
  size_eq := by
    have hfold := foldl_size (fun v hv => (h v hv).size_eq) 0
    rwa [Nat.zero_add] at hfold

/-- A head in front of the elements adds to their size. -/
theorem foldl_size_from (h : ∀ v ∈ vs, Puts (f v) (size v) (bytes v)) (start : UInt64) :
    vs.foldl (fun acc v => acc + size v) start = start + vs.foldl (fun acc v => acc + size v) 0 := by
  have hstart := foldl_size (fun v hv => (h v hv).size_eq) start.toNat
  rw [UInt64.ofNat_toNat] at hstart
  rw [hstart, (puts_forList h).size_eq, UInt64.ofNat_add, UInt64.ofNat_toNat]

theorem puts_arrayLike {m digits : Nat} (hm : m = 4 ∨ m = 5) (hd : digits = 32 ∨ digits = 64)
    (hlen : vs.length < 2 ^ digits) (h : ∀ v ∈ vs, Puts (f v) (size v) (bytes v)) :
    Puts (fun σ _ => Detail.emitArrayLike digits vs (.ofMajor m) (fun v => f v σ))
      (Detail.itemSizeOfArrayLike vs size)
      (Detail.varUintHead (.ofMajor m) vs.length ++ vs.flatMap bytes) where
  emits C := by
    refine OutputContract.emits_bind (Detail.emits_storeVarUint hd hlen ?_) ((puts_forList h).emits C)
    rcases hm with rfl | rfl <;> rfl
  size_eq := by
    rw [Detail.itemSizeOfArrayLike, foldl_size_from h, (puts_forList h).size_eq, List.length_append,
      UInt64.ofNat_add]
    exact congrArg (· + _) (encodedItemHeadSize_eq (m := 4) (by decide) _ _)

theorem puts_indefiniteArrayLike {m : Nat} (hm : m = 4 ∨ m = 5)
    (h : ∀ v ∈ vs, Puts (f v) (size v) (bytes v)) :
    Puts (fun σ _ => Detail.emitIndefiniteArrayLike vs (.ofMajor m) (fun v => f v σ))
      (Detail.itemSizeOfIndefiniteArrayLike vs size)
      (initialByte m 31 :: (vs.flatMap bytes ++ [breakByte])) where
  emits C := by
    have hfirst : UInt8.ofNat (indefiniteAddInfo ||| (TypeCode.ofMajor m).toByte.toNat) = initialByte m 31 := by
      rcases hm with rfl | rfl <;> rfl
    rw [← hfirst]
    exact OutputContract.emits_bind (Detail.emits_storeInlineValue _ _)
      (OutputContract.emits_bind ((puts_forList h).emits C) (puts_emitBreak.emits C))
  size_eq := by
    rw [Detail.itemSizeOfIndefiniteArrayLike, foldl_size_from h, (puts_forList h).size_eq, List.length_cons,
      List.length_append, ← UInt64.ofNat_one, ← UInt64.ofNat_add, ← UInt64.ofNat_add]
    congr 1
    rw [List.length_singleton]
    omega

end Puts

/-! ### Items in a row -/

section WellFormed
variable {bytes : α → List UInt8} {vs : List α}

/-- A key and its value. -/
def IsPair (bytes : List UInt8) : Prop :=
  ∃ key value, bytes = key ++ value ∧ WellFormed .item key ∧ WellFormed .item value

theorem wellFormed_items (h : ∀ v ∈ vs, WellFormed .item (bytes v)) :
    WellFormed (.items vs.length) (vs.flatMap bytes) := by
  induction vs with
  | nil => exact .none
  | cons v rest ih =>
    exact .more (h v List.mem_cons_self) (ih fun w hw => h w (List.mem_cons_of_mem _ hw))

theorem wellFormed_pairs (h : ∀ v ∈ vs, IsPair (bytes v)) :
    WellFormed (.items (2 * vs.length)) (vs.flatMap bytes) := by
  induction vs with
  | nil => exact .none
  | cons v rest ih =>
    obtain ⟨key, value, hv, hkey, hvalue⟩ := h v List.mem_cons_self
    rw [List.flatMap_cons, hv, List.append_assoc, List.length_cons, Nat.mul_succ]
    exact .more hkey (.more hvalue (ih fun w hw => h w (List.mem_cons_of_mem _ hw)))

theorem wellFormed_elements (h : ∀ v ∈ vs, WellFormed .item (bytes v)) :
    WellFormed .elements (vs.flatMap bytes ++ [breakByte]) := by
  induction vs with
  | nil => exact .lastElement
  | cons v rest ih =>
    rw [List.flatMap_cons, List.append_assoc]
    exact .element (h v List.mem_cons_self) (ih fun w hw => h w (List.mem_cons_of_mem _ hw))

theorem wellFormed_entries (h : ∀ v ∈ vs, IsPair (bytes v)) :
    WellFormed .entries (vs.flatMap bytes ++ [breakByte]) := by
  induction vs with
  | nil => exact .lastEntry
  | cons v rest ih =>
    obtain ⟨key, value, hv, hkey, hvalue⟩ := h v List.mem_cons_self
    rw [List.flatMap_cons, hv, List.append_assoc, List.append_assoc]
    exact .entry hkey hvalue (ih fun w hw => h w (List.mem_cons_of_mem _ hw))

end WellFormed
end DeepPack
