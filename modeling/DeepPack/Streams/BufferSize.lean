import DeepPack.Disappointment
import DeepPack.Library.Loops

/-! The size to which a stream in dynamic memory grows its buffer.

The loop multiplies by three and halves, in words that wrap. The threshold in front of
it keeps the results in a word, but not the products: from a third of the largest word
on they overflow, the sizes stay below half of all words from there on, and a request
for more than that is never met. -/
namespace DeepPack
open Library

/-- `cncr::round_up_p2`, for a power of two. -/
def roundUpP2 (value p : Nat) : Nat := (value + (p - 1)) % wordLimit / p * p

namespace DynamicMemoryOutputStream

def pageSize : Nat := 4096

def overflowThreshold : Nat := sizeMax / 3 * 2 - pageSize

/-- The loop's body. -/
def grown (acc : Nat) : Nat := roundUpP2 (acc * 3 % wordLimit / 2) pageSize

/-- `buffer_size_for`, for so many rounds of its loop. -/
def bufferSizeFor (rounds required : Nat) : Except Fault Nat :=
  if overflowThreshold ≤ required then .ok sizeMax
  else
    match whileLoop (fun acc => acc < required) grown rounds pageSize with
    | some acc => .ok acc
    | none => .error .running

/-- The loop ends, and the size it comes to is enough. -/
def Covers (required : Nat) : Prop :=
  ∃ rounds size, bufferSizeFor rounds required = .ok size ∧ required ≤ size ∧
    (overflowThreshold ≤ required → size = sizeMax)

/-- One of the products that the loop needs for this size does not fit in a word. -/
def Overflows (required : Nat) : Prop :=
  required < overflowThreshold ∧
    ∃ k, (∀ j, j ≤ k → grown^[j] pageSize < required) ∧ sizeMax < grown^[k] pageSize * 3

/-- The first of the sizes whose product with three overflows. -/
def firstOverflow : Nat := 6169361790258962432

variable {required rounds size : Nat}

theorem bufferSizeFor_below (h : required < overflowThreshold) :
    bufferSizeFor rounds required = .ok size ↔
      whileLoop (fun acc => acc < required) grown rounds pageSize = some size := by
  rw [bufferSizeFor, if_neg (Nat.not_le.mpr h)]
  cases whileLoop (fun acc => acc < required) grown rounds pageSize <;> simp

theorem bufferSizeFor_above (h : overflowThreshold ≤ required) : bufferSizeFor rounds required = .ok sizeMax := by
  rw [bufferSizeFor, if_pos h]

/-- What comes back is large enough, below the threshold. -/
theorem bufferSizeFor_enough (h : required < overflowThreshold)
    (hsize : bufferSizeFor rounds required = .ok size) :
    required ≤ size := by
  have hexit := whileLoop_exit ((bufferSizeFor_below h).mp hsize)
  simpa using hexit

/-- One of the sizes that are grown from a page. -/
theorem bufferSizeFor_grown (h : required < overflowThreshold) (hsize : bufferSizeFor rounds required = .ok size) :
    ∃ k, grown^[k] pageSize = size :=
  whileLoop_iterate ((bufferSizeFor_below h).mp hsize)

theorem grown_le (acc : Nat) : grown acc ≤ 2 ^ 63 := by
  have hhalf : acc * 3 % wordLimit / 2 < 2 ^ 63 := by
    simp only [wordLimit]
    omega
  have hword : acc * 3 % wordLimit / 2 + (pageSize - 1) < wordLimit := by
    simp only [pageSize, wordLimit] at *
    omega
  rw [grown, roundUpP2, Nat.mod_eq_of_lt hword, pageSize]
  omega

theorem iterate_grown_le (k : Nat) : grown^[k] pageSize ≤ 2 ^ 63 := by
  cases k with
  | zero => simp [pageSize]
  | succ k =>
    rw [Function.iterate_succ_apply']
    exact grown_le _

/-- The sizes up to the first overflow. -/
theorem iterate_grown_first : grown^[85] pageSize = firstOverflow ∧
    ∀ j, j < 86 → grown^[j] pageSize ≤ firstOverflow ∧ (j < 85 → grown^[j] pageSize * 3 ≤ sizeMax) := by
  decide +kernel

theorem overflows_iff : Overflows required ↔ firstOverflow < required ∧ required < overflowThreshold := by
  obtain ⟨hfirst, hearly⟩ := iterate_grown_first
  constructor
  · intro h
    obtain ⟨hbelow, k, hgrown, hover⟩ := h
    refine ⟨?_, hbelow⟩
    have hk : 85 ≤ k := by
      by_contra hlt
      have hfits := (hearly k (by omega)).2 (by omega)
      omega
    rw [← hfirst]
    exact hgrown 85 hk
  · intro h
    obtain ⟨hlt, hbelow⟩ := h
    refine ⟨hbelow, 85, ?_, ?_⟩
    · intro j hj
      have hle := (hearly j (by omega)).1
      omega
    · rw [hfirst]
      decide

/-- Where no product overflows the loop ends in time. -/
theorem covers_of_not_overflows (h : ¬ Overflows required) (hword : required ≤ sizeMax) : Covers required := by
  rw [overflows_iff] at h
  rcases Nat.lt_or_ge required overflowThreshold with hbelow | habove
  · have hexit : decide (grown^[85] pageSize < required) = false := by
      rw [iterate_grown_first.1]
      simp
      omega
    obtain ⟨size, hsize⟩ : ∃ size, whileLoop (fun acc => decide (acc < required)) grown 86 pageSize = some size :=
      whileLoop_of_exit hexit
    have hok := (bufferSizeFor_below hbelow).mpr hsize
    refine ⟨86, size, hok, bufferSizeFor_enough hbelow hok, ?_⟩
    intro habove
    omega
  · exact ⟨0, sizeMax, bufferSizeFor_above habove, hword, fun _ => rfl⟩

/-- Beyond half of all words no size is ever large enough. -/
theorem bufferSizeFor_endless (hlarge : 2 ^ 63 < required) (h : required < overflowThreshold) (rounds : Nat) :
    bufferSizeFor rounds required = .error .running := by
  have hnone : whileLoop (fun acc => decide (acc < required)) grown rounds pageSize = none := by
    apply whileLoop_endless
    intro k
    have hle := iterate_grown_le k
    simp
    omega
  rw [bufferSizeFor, if_neg (Nat.not_le.mpr h), hnone]

/-! ### Half of all words is never a size -/

/-- The loop's body on numbers of pages. -/
def grownPages (pages : Nat) : Nat := (pages * 3 % 2 ^ 52 + 1) / 2

/-- The numbers of pages that may grow to this one: the inverse of three undoes the product. -/
def pagesBefore (pages : Nat) : List Nat :=
  (([2 * pages - 1, 2 * pages].filter (· < 2 ^ 52)).map fun product => product * 3002399751580331 % 2 ^ 52).filter
    (· ≤ 2 ^ 51)

theorem grown_pages (pages : Nat) : grown (pageSize * pages) = pageSize * grownPages pages := by
  have hproduct : pageSize * pages * 3 % wordLimit = pageSize * (pages * 3 % 2 ^ 52) := by
    rw [Nat.mul_assoc, show wordLimit = pageSize * 2 ^ 52 by decide, Nat.mul_mod_mul_left]
  have hlt : pages * 3 % 2 ^ 52 < 2 ^ 52 := Nat.mod_lt _ (by decide)
  rw [grown, roundUpP2, hproduct, grownPages, Nat.mod_eq_of_lt]
  · simp only [pageSize]
    omega
  · simp only [pageSize, wordLimit]
    omega

theorem iterate_grown_pages (k : Nat) : grown^[k] pageSize = pageSize * grownPages^[k] 1 := by
  induction k with
  | zero => rfl
  | succ k ih => rw [Function.iterate_succ_apply', Function.iterate_succ_apply', ih, grown_pages]

theorem grownPages_le (pages : Nat) : grownPages pages ≤ 2 ^ 51 := by
  rw [grownPages]
  omega

theorem mem_pagesBefore {pages : Nat} (h : pages ≤ 2 ^ 51) : pages ∈ pagesBefore (grownPages pages) := by
  have hinverse : pages * 3 % 2 ^ 52 * 3002399751580331 % 2 ^ 52 = pages := by omega
  have hproduct : pages * 3 % 2 ^ 52 = 2 * grownPages pages - 1 ∨ pages * 3 % 2 ^ 52 = 2 * grownPages pages := by
    rw [grownPages]
    omega
  rw [pagesBefore, List.mem_filter]
  have hlt : pages * 3 % 2 ^ 52 < 2 ^ 52 := Nat.mod_lt _ (by decide)
  refine ⟨List.mem_map.mpr ⟨pages * 3 % 2 ^ 52, ?_, hinverse⟩, by simpa using h⟩
  exact List.mem_filter.mpr ⟨by simpa using hproduct, by simpa using hlt⟩

/-- Searched backwards from there the tree of sizes is finite, and the page is not in it. -/
theorem iterate_grown_ne (k : Nat) : grown^[k] pageSize ≠ 2 ^ 63 := by
  have hnever : grownPages^[k] 1 ≠ 2 ^ 51 :=
    never_reached (d := 148) (fun pages (_ : pages ≤ 2 ^ 51) => grownPages_le pages)
      (fun _ => mem_pagesBefore) (by decide) (by decide +kernel) (by decide +kernel)
  rw [iterate_grown_pages, pageSize]
  omega

/-- A size that is found within some rounds is found within as many as there are words. -/
theorem bufferSizeFor_rounds (hsize : bufferSizeFor rounds required = .ok size) :
    bufferSizeFor wordLimit required = .ok size := by
  rcases Nat.lt_or_ge required overflowThreshold with hbelow | habove
  · rw [bufferSizeFor_below hbelow] at hsize ⊢
    have hbound : ∀ k, grown^[k] pageSize < 2 ^ 63 + 1 := fun k => Nat.lt_succ_of_le (iterate_grown_le k)
    exact whileLoop_mono (whileLoop_bounded hbound hsize) (by decide)
  · rwa [bufferSizeFor_above habove] at hsize ⊢

/-! ### All requests -/

/-- The loop ends with a size that is large enough where no product overflows. A product does for every size
from the first of them up to the threshold, and beyond half of all words the loop then never ends. -/
theorem bufferSizeFor_covers (h : required ≤ sizeMax) :
    (required ≤ firstOverflow ∨ overflowThreshold ≤ required → Covers required) ∧
      (Overflows required ↔ ¬ (required ≤ firstOverflow ∨ overflowThreshold ≤ required)) ∧
      (2 ^ 63 < required → required < overflowThreshold →
        ¬ Covers required ∧ ∀ rounds, bufferSizeFor rounds required = .error .running) := by
  have hiff : Overflows required ↔ ¬ (required ≤ firstOverflow ∨ overflowThreshold ≤ required) := by
    rw [overflows_iff]
    omega
  refine ⟨?_, hiff, ?_⟩
  · intro hfits
    exact covers_of_not_overflows (fun hover => hiff.mp hover hfits) h
  · intro hlarge hbelow
    have hendless := bufferSizeFor_endless hlarge hbelow
    refine ⟨?_, hendless⟩
    intro hcovers
    obtain ⟨rounds, size, hok, -⟩ := hcovers
    rw [hendless rounds] at hok
    cases hok

/-- A size that the loop covers, and one for which it goes on for ever. -/
theorem bufferSizeFor_covers_sample : (Covers 5000) ∧ ¬ Covers (2 ^ 63 + 1) :=
  ⟨(bufferSizeFor_covers (by decide)).1 (.inl (by decide)),
    ((bufferSizeFor_covers (by decide)).2.2 (by decide) (by decide)).1⟩

theorem bufferSizeFor_not_total : ¬ ∀ required, required ≤ sizeMax → Covers required := by
  intro h
  obtain ⟨rounds, size, hok, -⟩ := h (2 ^ 63 + 1) (by decide)
  rw [bufferSizeFor_endless (by decide) (by decide)] at hok
  cases hok

end DynamicMemoryOutputStream
end DeepPack
