import DeepPack.Legacy.MemoryBuffer
import DeepPack.Library.Runs

/-! The address a memory buffer begins at.

It is not kept, but computed from the window. Two of the functions that move the window add
a difference of 32 bit sizes to a pointer of 64 bits: the pointer is moved forward, where it
should be moved back, and the buffer begins 2^32 bytes too late from there on. -/
namespace DeepPack
open Library

inductive WindowCall where
  | consume (amount : Int)
  | moveConsumer (amount : Int)
  | moveConsumerTo (absoluteOffset : Int)
  | reset
  deriving DecidableEq, Repr

namespace MemoryBuffer

def performOn : WindowCall → MemoryBuffer → MemoryBuffer
  | .consume amount, b => (b.consume amount).2
  | .moveConsumer amount, b => b.moveConsumer amount
  | .moveConsumerTo absoluteOffset, b => b.moveConsumerTo absoluteOffset
  | .reset, b => b.reset

/-- The call stays inside the allocation. -/
def Permitted : WindowCall → MemoryBuffer → Prop
  | .consume amount, b | .moveConsumer amount, b => -(b.consumedSize : Int) ≤ amount ∧ amount ≤ b.remainingSize
  | .moveConsumerTo absoluteOffset, b => 0 ≤ absoluteOffset ∧ absoluteOffset ≤ b.bufferSize
  | .reset, _ => True

/-- The window is not moved back by a difference of sizes. -/
def Forward : WindowCall → MemoryBuffer → Prop
  | .moveConsumerTo absoluteOffset, b => b.consumedSize ≤ absoluteOffset
  | .reset, b => b.consumedSize = 0
  | _, _ => True

/-- A pointer into an allocation at this address, as a 64 bit address. -/
def address (base pointer : Int) : Int := (base + pointer) % 2 ^ 64

/-- The buffer is the one it was at the start, and cut in two where the window begins. -/
structure SameBuffer (base : Int) (start b : MemoryBuffer) : Prop where
  begins : address base b.consumedBegin = address base start.consumedBegin
  size : b.bufferSize = start.bufferSize
  cut : address base b.remainingBegin = address base (b.consumedBegin + b.consumedSize)
  sizes : b.consumedSize + b.remainingSize = b.bufferSize

/-- The call leaves the buffer the same, and a reset makes all of it remain. -/
def KeepsBase (base : Int) (start : MemoryBuffer) (call : WindowCall) (b : MemoryBuffer) : Prop :=
  SameBuffer base start (performOn call b) ∧
    (call = .reset → (performOn call b).remainingSize = start.bufferSize ∧
      address base (performOn call b).remainingBegin = address base start.consumedBegin)

section Calls
variable {start b : MemoryBuffer} {call : WindowCall} {calls : List WindowCall} {base : Int}

theorem WellFormed.consumedSize_eq (hb : b.WellFormed) : b.consumedSize = b.allocationSize - b.windowSize :=
  wrapSub_of_le hb.window_le hb.allocation_lt

theorem WellFormed.consumedBegin_eq (hb : b.WellFormed) : b.consumedBegin = 0 := by
  have hend := hb.window_end
  rw [consumedBegin]
  omega

/-- A difference of sizes that is not negative is that difference, and any other is 2^32 too large. -/
theorem wrapSub_unsigned {x y : Nat} (hx : x < 2 ^ 32) (hy : y < 2 ^ 32) :
    (wrapSub 32 x y : Int) = if y ≤ x then (x : Int) - y else 2 ^ 32 - ((y : Int) - x) := by
  by_cases hle : y ≤ x
  · rw [wrapSub_of_le hle hx, if_pos hle, Nat.cast_sub hle]
  · rw [wrapSub_of_lt (Nat.lt_of_not_le hle), if_neg hle]
    omega

@[simp] theorem performOn_memory (call : WindowCall) (b : MemoryBuffer) :
    (performOn call b).memory = b.memory := by
  cases call <;> rfl

@[simp] theorem performOn_allocationSize (call : WindowCall) (b : MemoryBuffer) :
    (performOn call b).allocationSize = b.allocationSize := by
  cases call <;> rfl

/-- A window is in its allocation wherever the call moves it within. -/
theorem WellFormed.performOn (hb : b.WellFormed) (hle : (performOn call b).windowSize ≤ b.allocationSize)
    (hend : (performOn call b).windowBegin + (performOn call b).windowSize = b.allocationSize) :
    (performOn call b).WellFormed where
  memory_length := by simp [hb.memory_length]
  allocation_lt := by simpa using hb.allocation_lt
  window_le := by simpa using hle
  window_end := by simpa using hend

theorem WellFormed.moveConsumer (hb : b.WellFormed) {amount : Int} (hmin : -(b.consumedSize : Int) ≤ amount)
    (hmax : amount ≤ b.remainingSize) :
    ((b.moveConsumer amount).windowSize : Int) = b.windowSize - amount := by
  have hlt := hb.allocation_lt
  have hle := hb.window_le
  rw [hb.consumedSize_eq] at hmin
  rw [remainingSize] at hmax
  have hexact : ((b.windowSize : Int) - amount) % 2 ^ 32 = b.windowSize - amount :=
    Int.emod_eq_of_lt (by omega) (by omega)
  rw [MemoryBuffer.moveConsumer, hexact]
  exact Int.toNat_of_nonneg (by omega)

/-- Forward the window comes to the offset, and backward to 2^32 bytes behind it. -/
theorem WellFormed.moveConsumerTo (hb : b.WellFormed) {offset : Nat} (hmax : offset ≤ b.allocationSize) :
    b.moveConsumerTo offset = {b with
      windowBegin := if b.consumedSize ≤ offset then (offset : Int) else offset + 2 ^ 32
      windowSize := b.allocationSize - offset} := by
  have hlt := hb.allocation_lt
  have hle := hb.window_le
  have hend := hb.window_end
  have hexact : ((b.allocationSize : Int) - offset) % 2 ^ 32 = (b.allocationSize - offset : Nat) := by
    rw [Int.emod_eq_of_lt (by omega) (by omega)]
    omega
  have hgap := wrapSub_unsigned (show b.windowSize < 2 ^ 32 by omega)
    (show b.allocationSize - offset < 2 ^ 32 by omega)
  rw [MemoryBuffer.moveConsumerTo, hexact, Int.toNat_natCast, hgap, hb.consumedSize_eq]
  ext1
  · rfl
  · by_cases hforward : b.allocationSize - b.windowSize ≤ offset
    · rw [if_pos (by omega), if_pos hforward]
      show b.windowBegin + (b.windowSize - (b.allocationSize - offset : Nat) : Int) = offset
      omega
    · rw [if_neg (by omega), if_neg hforward]
      show b.windowBegin + (2 ^ 32 - ((b.allocationSize - offset : Nat) - b.windowSize) : Int) = offset + 2 ^ 32
      omega
  · rfl
  · rfl

/-- A reset is a move to the beginning. -/
theorem WellFormed.reset_eq (hb : b.WellFormed) : b.reset = b.moveConsumerTo 0 := by
  have hlt := hb.allocation_lt
  have hexact : ((b.allocationSize : Int) - 0) % 2 ^ 32 = b.allocationSize := by
    rw [Int.sub_zero]
    exact Int.emod_eq_of_lt (by omega) (by omega)
  rw [MemoryBuffer.moveConsumerTo, hexact, Int.toNat_natCast, reset]

/-- A call leaves the window inside its allocation, or it goes back by a difference of sizes and the
buffer begins 2^32 bytes too late. -/
theorem performOn_cases (hb : b.WellFormed) (hpermitted : Permitted call b) :
    (Forward call b ∧ (MemoryBuffer.performOn call b).WellFormed) ∨
      (¬ Forward call b ∧ (MemoryBuffer.performOn call b).consumedBegin = 2 ^ 32) := by
  have hto : ∀ offset : Nat, offset ≤ b.allocationSize →
      (b.consumedSize ≤ offset ∧ (b.moveConsumerTo offset).WellFormed) ∨
        (¬ b.consumedSize ≤ offset ∧ (b.moveConsumerTo offset).consumedBegin = 2 ^ 32) := by
    intro offset hmax
    by_cases hforward : b.consumedSize ≤ offset
    · left
      have hmoved : (MemoryBuffer.performOn (.moveConsumerTo offset) b).WellFormed := by
        apply hb.performOn
        · simp only [MemoryBuffer.performOn, hb.moveConsumerTo hmax]
          omega
        · simp only [MemoryBuffer.performOn, hb.moveConsumerTo hmax, if_pos hforward]
          omega
      exact ⟨hforward, hmoved⟩
    · right
      refine ⟨hforward, ?_⟩
      simp only [hb.moveConsumerTo hmax, if_neg hforward, consumedBegin]
      omega
  cases call with
  | consume amount | moveConsumer amount =>
    have hle := hb.window_le
    have hend := hb.window_end
    have hsize := hb.moveConsumer hpermitted.1 hpermitted.2
    have hmin := hpermitted.1
    rw [hb.consumedSize_eq] at hmin
    refine .inl ⟨trivial, hb.performOn ?_ ?_⟩
    · show (b.moveConsumer amount).windowSize ≤ b.allocationSize
      omega
    · show b.windowBegin + amount + (b.moveConsumer amount).windowSize = b.allocationSize
      omega
  | moveConsumerTo absoluteOffset =>
    obtain ⟨hmin, hmax⟩ := hpermitted
    obtain ⟨offset, rfl⟩ := Int.eq_ofNat_of_zero_le hmin
    rcases hto offset (Int.ofNat_le.mp hmax) with ⟨hforward, hwell⟩ | ⟨hback, hbegin⟩
    · exact .inl ⟨Int.ofNat_le.mpr hforward, hwell⟩
    · exact .inr ⟨fun h => hback (Int.ofNat_le.mp h), hbegin⟩
  | reset =>
    rw [MemoryBuffer.performOn, hb.reset_eq]
    rcases hto 0 (Nat.zero_le _) with ⟨hforward, hwell⟩ | ⟨hback, hbegin⟩
    · exact .inl ⟨Nat.le_zero.mp hforward, hwell⟩
    · exact .inr ⟨fun h => hback (Nat.le_zero.mpr h), hbegin⟩

theorem reset_windowSize : (MemoryBuffer.performOn .reset b).windowSize = b.allocationSize := rfl

/-- Windows of one allocation are windows of the same buffer. -/
theorem WellFormed.sameBuffer (hstart : start.WellFormed) (hb : b.WellFormed)
    (hsize : b.allocationSize = start.allocationSize) : SameBuffer base start b := by
  have hend := hb.window_end
  have hle := hb.window_le
  constructor
  · rw [hb.consumedBegin_eq, hstart.consumedBegin_eq]
  · exact hsize
  · rw [hb.consumedBegin_eq, hb.consumedSize_eq, remainingBegin]
    congr 1
    omega
  · rw [hb.consumedSize_eq, remainingSize, bufferSize]
    omega

/-- A call keeps the base exactly if it does not go back by a difference of sizes. -/
theorem keepsBase_iff (hstart : start.WellFormed) (hb : b.WellFormed)
    (hsize : b.allocationSize = start.allocationSize) (hpermitted : Permitted call b) :
    KeepsBase base start call b ↔ Forward call b := by
  rcases performOn_cases hb hpermitted with ⟨hforward, hwell⟩ | ⟨hback, hbegin⟩
  · refine iff_of_true ⟨hstart.sameBuffer hwell (by simpa using hsize), ?_⟩ hforward
    rintro rfl
    have hwhole := reset_windowSize (b := b)
    have hend := hwell.window_end
    rw [performOn_allocationSize] at hend
    refine ⟨hwhole.trans hsize, ?_⟩
    rw [hstart.consumedBegin_eq, remainingBegin]
    congr 1
    omega
  · refine iff_of_false (fun hkeeps => ?_) hback
    have hbegins := hkeeps.1.begins
    rw [hbegin, hstart.consumedBegin_eq, address, address] at hbegins
    omega

/-- A buffer is the same through a run of calls exactly if none of them moves the window back by a
difference of sizes. -/
theorem base_kept_iff (base : Int) (hstart : start.WellFormed)
    (hpermitted : EveryStep performOn Permitted calls start) :
    SameBuffer base start start ∧ EveryStep performOn (KeepsBase base start) calls start ↔
      EveryStep performOn Forward calls start := by
  refine (and_iff_right (hstart.sameBuffer hstart rfl)).trans ?_
  apply hpermitted.iff_of_invariant (fun b => b.WellFormed ∧ b.allocationSize = start.allocationSize)
    ⟨hstart, rfl⟩
  · intro call b hb hcall
    exact keepsBase_iff hstart hb.1 hb.2 hcall
  · intro call b hb hcall hkeeps
    have hforward := (keepsBase_iff hstart hb.1 hb.2 hcall).mp hkeeps
    rcases performOn_cases hb.1 hcall with ⟨-, hwell⟩ | ⟨hback, -⟩
    · exact ⟨hwell, by simpa using hb.2⟩
    · exact absurd hforward hback

/-- Two bytes, the first of them read, then not read after all, and the buffer made whole again. -/
theorem base_kept_iff_two : SameBuffer 4096 (ofMemory [0, 0] 2 0) (ofMemory [0, 0] 2 0) ∧
      EveryStep performOn (KeepsBase 4096 (ofMemory [0, 0] 2 0)) [.consume 1, .moveConsumer (-1), .reset]
        (ofMemory [0, 0] 2 0) ↔
    EveryStep performOn Forward [.consume 1, .moveConsumer (-1), .reset] (ofMemory [0, 0] 2 0) :=
  base_kept_iff 4096 (wellFormed_ofMemory (by decide) (by decide))
    ⟨⟨by decide, by decide⟩, ⟨by decide, by decide⟩, trivial, trivial⟩

/-- With one of two bytes read, a reset makes the buffer begin elsewhere. -/
theorem base_not_kept : ¬ ∀ (base : Int) (b : MemoryBuffer) (calls : List WindowCall), b.WellFormed →
    EveryStep performOn Permitted calls b →
      SameBuffer base b b ∧ EveryStep performOn (KeepsBase base b) calls b := by
  intro h
  have hkeeps := h 4096 (ofMemory [0, 0] 2 0) [.consume 1, .reset] (wellFormed_ofMemory (by decide) (by decide))
    ⟨⟨by decide, by decide⟩, trivial, trivial⟩
  exact absurd hkeeps.2.2.1.1.begins (by decide)

end Calls

end MemoryBuffer
end DeepPack
