import DeepPack.Disappointment
import DeepPack.Library.Tables
import Mathlib.Data.Nat.Prime.Basic
import Mathlib.Data.Nat.Prime.Infinite

/-! The hash table that knows its keys.

The constructor puts the keys into buckets by their hash. A bucket with several keys is
given a seed under which these hash to slots of their own, and the remaining keys are each
given one of the slots that are left. One table holds both, told apart by the flag every
seed carries. -/
namespace DeepPack.Detail
open Library

/-! ### The number of buckets -/

/-- The binary search of `approx_integer_sqrt`. The square is one of 64 bits. -/
def approxSqrtSearch (v l r : Nat) : Nat :=
  -- they meet, and never pass each other, for every number but 0
  if l < r then
    let mid := (l + r) / 2
    if mid * mid % wordLimit ≥ v then approxSqrtSearch v l mid else approxSqrtSearch v (mid + 1) r
  else r
termination_by r - l

def approxIntegerSqrt (v : Nat) : Nat :=
  let x := 2 ^ 32
  approxSqrtSearch v 1 (if v / 2 < x then v else x - 1)

/-- The loop of `is_prime`: every prime above 3 is next to a multiple of 6. -/
def divisorSearch (i divisor : Nat) : Bool :=
  if divisor * divisor - 2 * divisor + 1 ≤ i then
    if i % (divisor - 1) = 0 ∨ i % (divisor + 1) = 0 then false else divisorSearch i (divisor + 6)
  else true
termination_by i + 3 - divisor
decreasing_by
  have hle : divisor ≤ i + 2 := by
    rcases Nat.lt_or_ge divisor 3 with hsmall | hlarge
    · omega
    · have hsquare : 3 * divisor ≤ divisor * divisor := Nat.mul_le_mul_right _ hlarge
      omega
  omega

def isPrime (i : Nat) : Bool :=
  if i % 2 = 0 ∨ i % 3 = 0 then false else divisorSearch i 6

def smallPrimes : List Nat := [2, 3, 5, 7, 11, 13, 17, 19, 23, 29, 31, 37, 41, 43, 47, 53]

theorem divisorSearch_prime {i divisor : Nat} (hi : i.Prime) (hdivisor : 6 ≤ divisor) :
    divisorSearch i divisor = true := by
  fun_induction divisorSearch i divisor with
  | case1 divisor hle hdvd =>
    exfalso
    have hsquare : 6 * divisor ≤ divisor * divisor := Nat.mul_le_mul_right _ hdivisor
    have hself : ∀ d, i % d = 0 → d = 1 ∨ d = i := fun d h => (Nat.dvd_prime hi).mp (Nat.dvd_of_mod_eq_zero h)
    rcases hdvd with h | h
    · have hcases := hself _ h
      omega
    · have hcases := hself _ h
      omega
  | case2 divisor _ _ ih => exact ih (by omega)
  | case3 => rfl

theorem isPrime_prime {i : Nat} (hi : i.Prime) (h3 : 3 < i) : isPrime i = true := by
  have h2 : ¬ i % 2 = 0 := by
    intro h
    rcases (Nat.dvd_prime hi).mp (Nat.dvd_of_mod_eq_zero h) with h | h <;> omega
  have hthree : ¬ i % 3 = 0 := by
    intro h
    rcases (Nat.dvd_prime hi).mp (Nat.dvd_of_mod_eq_zero h) with h | h <;> omega
  rw [isPrime, if_neg (by omega)]
  exact divisorSearch_prime hi le_rfl

/-- The search among the odd numbers ends. -/
theorem exists_isPrime (i : Nat) : ∃ k, isPrime ((i ||| 1) + 2 * k) = true := by
  obtain ⟨p, hle, hp⟩ := Nat.exists_infinite_primes ((i ||| 1) + 4)
  have hodd : p % 2 = 1 := hp.eq_two_or_odd.resolve_left (by omega)
  have hor : (i ||| 1) % 2 = 1 := by simp
  refine ⟨(p - (i ||| 1)) / 2, ?_⟩
  have hsum : (i ||| 1) + 2 * ((p - (i ||| 1)) / 2) = p := by omega
  rw [hsum]
  exact isPrime_prime hp (by omega)

/-- `next_prime`: above the table every other number is tried. -/
def nextPrime (i : Nat) : Nat :=
  match smallPrimes.find? fun p => i ≤ p with
  | some p => p
  | none => (i ||| 1) + 2 * Nat.find (exists_isPrime i)

/-- `remap_size`, for so many keys. -/
def remapSize (n : Nat) : Nat := nextPrime (approxIntegerSqrt n)

theorem nextPrime_pos (i : Nat) : 0 < nextPrime i := by
  unfold nextPrime
  split
  · rename_i p hp
    have hmem := List.mem_of_find?_eq_some hp
    have hpos : ∀ p ∈ smallPrimes, 0 < p := by decide
    exact hpos p hmem
  · have hor : 1 ≤ i ||| 1 := Nat.right_le_or
    omega

theorem remapSize_pos (n : Nat) : 0 < remapSize n := nextPrime_pos _

/-! ### Values -/

/-- `least_uint`: the largest value of the smallest type that `n` fits. -/
def leastUintMax (n : Nat) : Nat :=
  if n ≤ 2 ^ 8 - 1 then 2 ^ 8 - 1
  else if n ≤ 2 ^ 16 - 1 then 2 ^ 16 - 1
  else if n ≤ 2 ^ 32 - 1 then 2 ^ 32 - 1
  else sizeMax

/-- What becomes of a number in that type. -/
def toValue (n i : Nat) : Nat := i % (leastUintMax n + 1)

def invalidValue (n : Nat) : Nat := toValue n sizeMax

/-! ### Seeds -/

def seedFlag : UInt64 := 0x8000000000000000

def initialSeed : UInt64 := seedFlag

def seedRerollMask : UInt64 := 0x7fffffff00000000

/-- The next seed, after a hash that collided. -/
def reroll (seed hash : UInt64) : UInt64 := (seed ^^^ (hash &&& seedRerollMask)) + 1

/-- A key hash function, without a seed and with one. -/
structure KeyHash (T : Type) where
  hash : T → UInt64
  seeded : T → UInt64 → UInt64

/-! ### The table -/

/-- The indices of the keys in one bucket. -/
abbrev Pattern : Type := List Nat

/-- The order of the patterns: by the number of keys, the largest first. -/
def largerPattern (l r : Pattern) : Bool := l.length > r.length

structure PerfectHasher where
  remap : List UInt64
  values : List Nat
  deriving DecidableEq, Repr

namespace PerfectHasher

section Arrays
variable {α : Type}

def fetch (xs : List α) (i : Nat) : Except Fault α :=
  match xs[i]? with
  | some x => .ok x
  | none => .error .outOfBounds

def store (xs : List α) (i : Nat) (x : α) : Except Fault (List α) :=
  if i < xs.length then .ok (xs.set i x) else .error .outOfBounds

/-- The next place of an array is written that has `capacity` of them and keeps their number. -/
def push (capacity : Nat) (xs : List α) (x : α) : Except Fault (List α) :=
  if xs.length < capacity then .ok (xs ++ [x]) else .error .outOfBounds

end Arrays

variable {T : Type} [LinearOrder T] (H : KeyHash T) (keys : List T)

/-- `key_hash(key) % remap_size`. -/
def flhash (key : T) : Nat := (H.hash key).toNat % remapSize keys.length

/-- A key is added to the pattern of its bucket. -/
def addKey (patterns : List Pattern) (i : Nat) : Except Fault (List Pattern) := do
  let key ← fetch keys i
  let pattern ← fetch patterns (flhash H keys key)
  let pattern ← push keys.length pattern i
  store patterns (flhash H keys key) pattern

def remapPatterns : Except Fault (List Pattern) :=
  (List.range keys.length).foldlM (addKey H keys) (List.replicate (remapSize keys.length) [])

/-- The slots of a pattern's keys under a seed, or the hash that collided. -/
def place (values : List Nat) (seed : UInt64) : Pattern → List Nat → Except Fault (UInt64 ⊕ List Nat)
  | [], slots => .ok (.inr slots)
  | i :: pattern, slots => do
    let key ← fetch keys i
    let hash := H.seeded key seed
    let slot := hash.toNat % values.length
    let value ← fetch values slot
    if value ≠ invalidValue keys.length ∨ slot ∈ slots then .ok (.inl hash)
    else do
      let slots ← push keys.length slots slot
      place values seed pattern slots

/-- The loop over the seeds. It starts over with every reroll, of which there may be so many. -/
def findSeed (values : List Nat) (pattern : Pattern) : Nat → UInt64 → Except Fault (UInt64 × List Nat)
  | rerolls, seed => do
    match ← place H keys values seed pattern [] with
    | .inr slots => .ok (seed, slots)
    | .inl hash =>
      match rerolls with
      | 0 => .error .running
      | rerolls + 1 => findSeed values pattern rerolls (reroll seed hash)

/-- `values[slots[j]] = pattern[j]`, for all keys of a pattern. -/
def storeValues (n : Nat) (entries : List (Nat × Nat)) (values : List Nat) : Except Fault (List Nat) :=
  entries.foldlM (fun values e => store values e.1 (toValue n e.2)) values

/-- A pattern with more than one key is given its seed. -/
def assignPattern (rerolls : Nat) (h : PerfectHasher) (pattern : Pattern) : Except Fault PerfectHasher := do
  let (seed, slots) ← findSeed H keys h.values pattern rerolls initialSeed
  let key ← fetch keys (← fetch pattern 0)
  let remap ← store h.remap (flhash H keys key) seed
  let values ← storeValues keys.length (slots.zip pattern) h.values
  .ok ⟨remap, values⟩

/-- The loop over these patterns. What comes behind them is returned. -/
def assignPatterns (rerolls : Nat) : List Pattern → PerfectHasher → Except Fault (PerfectHasher × List Pattern)
  | [], h => .ok (h, [])
  | pattern :: patterns, h =>
    if pattern.length > 1 then do
      let h ← assignPattern H keys rerolls h pattern
      assignPatterns rerolls patterns h
    else .ok (h, pattern :: patterns)

/-- The slots not used by patterns with many keys. -/
def freeSlots (values : List Nat) : Except Fault (List Nat) :=
  (List.range keys.length).foldlM (fun free j => do
    let value ← fetch values j
    if value = invalidValue keys.length then push keys.length free j else .ok free) []

/-- `freeSlots[--freeSlots.back()]`. -/
def takeFree (free : List Nat) : Except Fault (Nat × List Nat) := do
  let slot ← fetch free (free.length - 1)
  .ok (slot, free.dropLast)

/-- `std::lower_bound`, in the keys. -/
def lowerBound (key : T) : Nat := keys.findIdx fun e => !decide (e < key)

/-- The free slots are assigned to the patterns with exactly one key. -/
def assignFree : List Pattern → List Nat → PerfectHasher → Except Fault PerfectHasher
  | [], _, h => .ok h
  | pattern :: patterns, free, h =>
    if pattern.length ≠ 0 then do
      let key ← fetch keys (← fetch pattern 0)
      let (slot, free) ← takeFree free
      let remap ← store h.remap (flhash H keys key) (UInt64.ofNat slot)
      let values ← store h.values slot (toValue keys.length (lowerBound keys key))
      assignFree patterns free ⟨remap, values⟩
    else .ok h

/-- The constructor, with so many rerolls for a bucket. -/
def construct (S : Sorting largerPattern) (rerolls : Nat) : Except Fault PerfectHasher := do
  let patterns ← remapPatterns H keys
  let unassigned : PerfectHasher :=
    ⟨List.replicate (remapSize keys.length) 0, List.replicate keys.length (invalidValue keys.length)⟩
  let (h, patterns) ← assignPatterns H keys rerolls (S.sort patterns) unassigned
  let free ← freeSlots keys h.values
  assignFree H keys patterns free h

/-- `operator()`. -/
def call (h : PerfectHasher) (key : T) : Except Fault Nat := do
  let remapped ← fetch h.remap (flhash H keys key)
  if remapped &&& seedFlag = 0 then fetch h.values remapped.toNat
  else fetch h.values ((H.seeded key remapped).toNat % keys.length)

/-- `property_id_lookup_fn` with a perfect hash of the ids. -/
def lookup (h : PerfectHasher) (id : T) : Except Fault (Option Nat) := do
  let idx ← call H keys h id
  let found ← fetch keys idx
  if found ≠ id then .ok none else .ok (some idx)

end PerfectHasher
end DeepPack.Detail
