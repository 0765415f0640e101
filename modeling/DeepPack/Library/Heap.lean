import DeepPack.Library.Memory
import Mathlib.Logic.Function.Basic

/-! Blocks of memory that are allocated, written and freed.

A block is known by its identity, which is not used again after it was freed. What works on
one block leaves all others alone, so that blocks with one owner each can be reasoned about
one by one. -/
namespace DeepPack.Library

/-- The blocks by their identities. The ones that were freed are gone. -/
structure Heap (β : Type) where
  blocks : List (Option (List β))
  deriving DecidableEq, Repr

namespace Heap
variable {β : Type} {h k l : Heap β} {a b i : Nat} {bytes memory : List β} {own mine : Option Nat}

def block (h : Heap β) (a : Nat) : Option (List β) := (h.blocks[a]?).join

/-- The identity that the next block gets. -/
def next (h : Heap β) : Nat := h.blocks.length

def alloc (memory : List β) (h : Heap β) : Heap β := ⟨h.blocks ++ [some memory]⟩

def free (a : Nat) (h : Heap β) : Heap β := ⟨h.blocks.set a none⟩

/-- `bytes` written at offset `i` of a block, if they fit in it. -/
def write (a i : Nat) (bytes : List β) (h : Heap β) : Option (Heap β) :=
  match h.block a with
  | some memory =>
    if i + bytes.length ≤ memory.length then some ⟨h.blocks.set a (some (overwrite i bytes memory))⟩ else none
  | none => none

theorem lt_next (hblock : h.block a = some memory) : a < h.next := by
  by_contra hlarge
  rw [block, List.getElem?_eq_none (Nat.not_lt.mp hlarge)] at hblock
  exact absurd hblock (by simp)

@[simp] theorem next_alloc : (h.alloc memory).next = h.next + 1 := by simp [alloc, next]

@[simp] theorem next_free : (h.free a).next = h.next := by simp [free, next]

@[simp] theorem block_alloc : (h.alloc memory).block h.next = some memory := by simp [block, alloc, next]

theorem block_alloc_of_lt (ha : a < h.next) : (h.alloc memory).block a = h.block a := by
  rw [block, alloc, List.getElem?_append_left ha, block]

theorem block_free_of_ne (hne : a ≠ b) : (h.free a).block b = h.block b := by
  rw [block, free, List.getElem?_set_ne hne, block]

/-- A write changes bytes of one block. -/
theorem write_spec (hblock : h.block a = some memory) (hroom : i + bytes.length ≤ memory.length) :
    ∃ k, h.write a i bytes = some k ∧ k.block a = some (overwrite i bytes memory) ∧ k.next = h.next ∧
      ∀ b, a ≠ b → k.block b = h.block b := by
  have ha : a < h.blocks.length := lt_next hblock
  rw [write, hblock]
  refine ⟨_, if_pos hroom, ?_, List.length_set, fun b hne => ?_⟩
  · simp [block, ha]
  · rw [block, List.getElem?_set_ne hne, block]

theorem write_eq_none (hblock : h.block a = some memory) (hroom : memory.length < i + bytes.length) :
    h.write a i bytes = none := by
  rw [write, hblock]
  exact if_neg (Nat.not_le.mpr hroom)

/-! ### Frames -/

/-- From `h` to `k` no block that there was is changed but `own`. -/
structure Frame (own : Option Nat) (h k : Heap β) : Prop where
  next_le : h.next ≤ k.next
  block_eq : ∀ a, a < h.next → own ≠ some a → k.block a = h.block a

theorem Frame.refl (own : Option Nat) (h : Heap β) : Frame own h h := ⟨le_rfl, fun _ _ _ => rfl⟩

/-- The block that is worked on next is the same one, or was not there at first. -/
theorem Frame.trans (hfirst : Frame own h k) (hsecond : Frame mine k l)
    (hmine : ∀ a, mine = some a → own = some a ∨ h.next ≤ a) : Frame own h l where
  next_le := hfirst.next_le.trans hsecond.next_le
  block_eq := by
    intro a ha hown
    rw [← hfirst.block_eq a ha hown]
    apply hsecond.block_eq a (ha.trans_le hfirst.next_le)
    intro hmine'
    rcases hmine a hmine' with hsame | hnew
    · exact hown hsame
    · exact absurd ha (Nat.not_lt.mpr hnew)

theorem frame_alloc (own : Option Nat) (memory : List β) (h : Heap β) : Frame own h (h.alloc memory) where
  next_le := by simp
  block_eq := fun _ ha _ => block_alloc_of_lt ha

theorem frame_free (a : Nat) (h : Heap β) : Frame (some a) h (h.free a) where
  next_le := by simp
  block_eq := fun _ _ hne => block_free_of_ne fun heq => hne (congrArg some heq)

theorem frame_write (hnext : k.next = h.next) (hother : ∀ b, a ≠ b → k.block b = h.block b) :
    Frame (some a) h k :=
  ⟨hnext.ge, fun b _ hne => hother b fun heq => hne (congrArg some heq)⟩

/-! ### Owners -/

section Owners
variable {ι : Type} {owner : ι → Option Nat} {x : ι}

/-- Every owner has a block of its own. -/
structure Owned (owner : ι → Option Nat) (h : Heap β) : Prop where
  lt_next : ∀ x a, owner x = some a → a < h.next
  unique : ∀ x y a, owner x = some a → owner y = some a → x = y

/-- One owner changes its block, or takes another one that is nobody's. -/
theorem Owned.update [DecidableEq ι] (hown : Owned owner h) (hnext : h.next ≤ k.next)
    (hmine : ∀ a, mine = some a → a < k.next)
    (hnobody : ∀ a, mine = some a → ∀ y, y ≠ x → owner y ≠ some a) :
    Owned (Function.update owner x mine) k where
  lt_next := by
    intro y a hy
    by_cases hyx : y = x
    · subst hyx
      exact hmine a (by simpa using hy)
    · rw [Function.update_of_ne hyx] at hy
      exact (hown.lt_next y a hy).trans_le hnext
  unique := by
    intro y z a hy hz
    by_cases hyx : y = x
    · by_cases hzx : z = x
      · rw [hyx, hzx]
      · subst hyx
        rw [Function.update_of_ne hzx] at hz
        exact absurd hz (hnobody a (by simpa using hy) z hzx)
    · rw [Function.update_of_ne hyx] at hy
      by_cases hzx : z = x
      · subst hzx
        exact absurd hy (hnobody a (by simpa using hz) y hyx)
      · rw [Function.update_of_ne hzx] at hz
        exact hown.unique y z a hy hz

/-- What one owner does leaves the blocks of the others alone. -/
theorem Owned.block_eq (hown : Owned owner h) (hframe : Frame (owner x) h k) {y : ι} (hne : y ≠ x)
    (hy : owner y = some a) : k.block a = h.block a :=
  hframe.block_eq a (hown.lt_next y a hy) fun hx => hne (hown.unique y x a hy hx)

end Owners
end Heap
end DeepPack.Library
