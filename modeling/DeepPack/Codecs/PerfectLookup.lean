import DeepPack.Codecs.PerfectHasher
import DeepPack.Codecs.PropertyLookup
import Mathlib.Data.Nat.Bitwise

/-! The perfect hasher is perfect.

`Assigned` says what holds when some keys have their slots, and `Assigned.assign` that it
still does with the next bucket, whichever of the two loops assigns it: the keys are
found, and they stand in as many slots as they are. When all keys have one no slot is left
free, so that even an id that is not in the table leads to a slot that holds the index of
a key. -/
namespace DeepPack.Detail
open Library

/-! ### Values and seeds -/

section Values
variable {n i : Nat}

theorem le_leastUintMax (hn : n ≤ sizeMax) : n ≤ leastUintMax n := by
  unfold leastUintMax
  split
  · assumption
  · split
    · assumption
    · split <;> assumption

theorem invalidValue_eq (n : Nat) : invalidValue n = leastUintMax n := by
  unfold invalidValue toValue leastUintMax
  split
  · rfl
  · split
    · rfl
    · split <;> rfl

/-- An index is stored as it is, and is no mark. -/
theorem toValue_of_lt (hn : n ≤ sizeMax) (hi : i < n) : toValue n i = i :=
  Nat.mod_eq_of_lt (Nat.lt_succ_of_lt (hi.trans_le (le_leastUintMax hn)))

theorem ne_invalidValue (hn : n ≤ sizeMax) (hi : i < n) : i ≠ invalidValue n := by
  rw [invalidValue_eq]
  exact (hi.trans_le (le_leastUintMax hn)).ne

end Values

/-- The flag is the highest bit. -/
theorem and_seedFlag_eq_zero {r : UInt64} : r &&& seedFlag = 0 ↔ r.toNat < 2 ^ 63 := by
  have hflag : seedFlag.toNat = 2 ^ 63 := rfl
  have hr := r.toNat_lt
  rw [← UInt64.toNat_inj, UInt64.toNat_and, hflag, Nat.and_two_pow, Nat.testBit_eq_decide_div_mod_eq]
  simp
  omega

/-- A seed after so many rerolls: flagged, and counting them in its lower half. -/
def IsSeed (rerolls : Nat) (seed : UInt64) : Prop := 2 ^ 63 ≤ seed.toNat ∧ seed.toNat % 2 ^ 32 = rerolls

theorem isSeed_initial : IsSeed 0 initialSeed := by
  unfold IsSeed
  decide

theorem IsSeed.reroll {rerolls : Nat} {seed : UInt64} (h : IsSeed rerolls seed) (hlt : rerolls + 1 < 2 ^ 32)
    (hash : UInt64) : IsSeed (rerolls + 1) (reroll seed hash) := by
  obtain ⟨hflag, hcount⟩ := h
  have hmask : seedRerollMask.toNat = 0x7fffffff00000000 := rfl
  have hlow : (seed ^^^ (hash &&& seedRerollMask)).toNat % 2 ^ 32 = seed.toNat % 2 ^ 32 := by
    rw [UInt64.toNat_xor, UInt64.toNat_and, Nat.xor_mod_two_pow, Nat.and_mod_two_pow, hmask]
    simp
  have hhigh : (seed ^^^ (hash &&& seedRerollMask)).toNat / 2 ^ 63 = seed.toNat / 2 ^ 63 := by
    rw [UInt64.toNat_xor, UInt64.toNat_and, Nat.xor_div_two_pow, Nat.and_div_two_pow, hmask]
    simp
  have hseed := seed.toNat_lt
  have hbound := (seed ^^^ (hash &&& seedRerollMask)).toNat_lt
  have hsucc : (Detail.reroll seed hash).toNat = (seed ^^^ (hash &&& seedRerollMask)).toNat + 1 := by
    rw [Detail.reroll, UInt64.toNat_add]
    apply Nat.mod_eq_of_lt
    have hone : (1 : UInt64).toNat = 1 := rfl
    omega
  constructor
  · omega
  · omega

namespace PerfectHasher

/-! ### Arrays -/

section Arrays
variable {α : Type} {xs : List α} {i : Nat} {x : α}

theorem fetch_ok (h : xs[i]? = some x) : fetch xs i = .ok x := by
  rw [fetch, h]

theorem store_ok (h : i < xs.length) (x : α) : store xs i x = .ok (xs.set i x) := if_pos h

theorem push_ok {capacity : Nat} (h : xs.length < capacity) (x : α) : push capacity xs x = .ok (xs ++ [x]) :=
  if_pos h

end Arrays

theorem storeValues_ok {n : Nat} {entries : List (Nat × Nat)} {values : List Nat} (hn : n ≤ sizeMax)
    (h : ∀ e ∈ entries, e.1 < values.length ∧ e.2 < n) : storeValues n entries values =
    .ok (fill entries values) := by
  induction entries generalizing values with
  | nil => rfl
  | cons e entries ih =>
    obtain ⟨hslot, hvalue⟩ := h e List.mem_cons_self
    rw [storeValues, List.foldlM_cons, toValue_of_lt hn hvalue, store_ok hslot]
    apply ih
    intro e' he'
    rw [List.length_set]
    exact h e' (List.mem_cons_of_mem _ he')

theorem takeFree_concat (front : List Nat) (slot : Nat) : takeFree (front ++ [slot]) = .ok (slot, front) := by
  have hlast : fetch (front ++ [slot]) ((front ++ [slot]).length - 1) = .ok slot := by
    apply fetch_ok
    simp
  rw [takeFree, hlast, List.dropLast_concat]
  rfl

variable {T : Type} {H : KeyHash T} {keys : List T} {i : Nat} {key : T}

/-! ### The patterns -/

/-- The bucket of the key at an index. -/
def home (H : KeyHash T) (keys : List T) (i : Nat) : Nat :=
  match keys[i]? with
  | some key => flhash H keys key
  | none => 0

theorem home_eq (h : keys[i]? = some key) : home H keys i = flhash H keys key := by
  rw [home, h]

theorem flhash_lt (H : KeyHash T) (keys : List T) (key : T) : flhash H keys key < remapSize keys.length :=
  Nat.mod_lt _ (remapSize_pos _)

theorem home_lt (H : KeyHash T) (keys : List T) (i : Nat) : home H keys i < remapSize keys.length := by
  unfold home
  split
  · exact flhash_lt H keys _
  · exact remapSize_pos _

theorem addKey_buckets {k : Nat} (hk : k < keys.length) :
    addKey H keys (buckets (home H keys) (remapSize keys.length) (List.range k)) k =
      .ok (buckets (home H keys) (remapSize keys.length) (List.range (k + 1))) := by
  have hkey : keys[k]? = some keys[k] := List.getElem?_eq_getElem hk
  have hhome := home_eq (H := H) hkey
  have hlt := flhash_lt H keys keys[k]
  have hroom : ((List.range k).filter fun i => home H keys i = flhash H keys keys[k]).length < keys.length := by
    apply lt_of_le_of_lt (List.length_filter_le _ _)
    simpa using hk
  have hbucket : flhash H keys keys[k] <
      (buckets (home H keys) (remapSize keys.length) (List.range k)).length := by rwa [buckets_length]
  have hstore := store_ok hbucket (((List.range k).filter fun i => home H keys i = flhash H keys keys[k]) ++ [k])
  rw [List.range_succ, buckets_concat, hhome]
  simp only [addKey, fetch_ok hkey, bind, Except.bind, fetch_ok (buckets_getElem? hlt), push_ok hroom, hstore]

/-- The keys are in their buckets. -/
theorem remapPatterns_eq :
    remapPatterns H keys = .ok (buckets (home H keys) (remapSize keys.length) (List.range keys.length)) := by
  have hprefix : ∀ k ≤ keys.length,
    (List.range k).foldlM (addKey H keys) (List.replicate (remapSize keys.length) []) =
      .ok (buckets (home H keys) (remapSize keys.length) (List.range k)) := by
    intro k hk
    induction k with
    | zero => rw [List.range_zero, buckets_nil]; rfl
    | succ k ih =>
      rw [List.range_succ, List.foldlM_append, ih (Nat.le_of_succ_le hk), ← List.range_succ]
      simp only [bind, Except.bind, List.foldlM_cons, List.foldlM_nil, addKey_buckets hk]
      rfl
  exact hprefix _ le_rfl

/-! ### The slots of a pattern -/

/-- The slot of the key at an index, under a seed. -/
def seededSlot (H : KeyHash T) (keys : List T) (seed : UInt64) (i : Nat) : Nat :=
  match keys[i]? with
  | some key => (H.seeded key seed).toNat % keys.length
  | none => 0

variable {values slots : List Nat} {pattern : Pattern} {seed : UInt64}

/-- The next key has a free slot that none of the others has. -/
theorem place_cons (hlen : values.length = keys.length) (hi : i < keys.length) (hroom : slots.length < keys.length) :
    (∃ hash, place H keys values seed (i :: pattern) slots = .ok (.inl hash)) ∨
      place H keys values seed (i :: pattern) slots =
          place H keys values seed pattern (slots ++ [seededSlot H keys seed i]) ∧
        values[seededSlot H keys seed i]? = some (invalidValue keys.length) ∧ seededSlot H keys seed i ∉ slots := by
  have hkey : keys[i]? = some keys[i] := List.getElem?_eq_getElem hi
  have hslot : seededSlot H keys seed i = (H.seeded keys[i] seed).toNat % values.length := by
    rw [seededSlot, hkey, hlen]
  have hlt : seededSlot H keys seed i < values.length := by
    rw [hslot]
    exact Nat.mod_lt _ (hlen ▸ Nat.zero_lt_of_lt hi)
  have hvalue := fetch_ok (List.getElem?_eq_getElem hlt)
  have hpush := push_ok hroom (seededSlot H keys seed i)
  by_cases hfree : values[seededSlot H keys seed i] ≠ invalidValue keys.length ∨ seededSlot H keys seed i ∈ slots
  · refine Or.inl ⟨H.seeded keys[i] seed, ?_⟩
    simp only [place, fetch_ok hkey, bind, Except.bind, ← hslot, hvalue, if_pos hfree]
  · right
    constructor
    · simp only [place, fetch_ok hkey, bind, Except.bind, ← hslot, hvalue, if_neg hfree, hpush]
    · rw [not_or, not_not] at hfree
      rwa [List.getElem?_eq_getElem hlt, Option.some.injEq]

/-- All keys of a pattern have a free slot of their own. -/
structure Fits (H : KeyHash T) (keys : List T) (values : List Nat) (seed : UInt64) (pattern : Pattern) : Prop where
  nodup : (pattern.map (seededSlot H keys seed)).Nodup
  free : ∀ i ∈ pattern, values[seededSlot H keys seed i]? = some (invalidValue keys.length)

/-- A hash collides, or all keys of the pattern get their slots. -/
theorem place_append (hlen : values.length = keys.length) (hmem : ∀ i ∈ pattern, i < keys.length)
    (hroom : slots.length + pattern.length ≤ keys.length) :
    (∃ hash, place H keys values seed pattern slots = .ok (.inl hash)) ∨
      place H keys values seed pattern slots = .ok (.inr (slots ++ pattern.map (seededSlot H keys seed))) ∧
        Fits H keys values seed pattern ∧ ∀ i ∈ pattern, seededSlot H keys seed i ∉ slots := by
  induction pattern generalizing slots with
  | nil => exact Or.inr ⟨by simp [place], ⟨by simp, by simp⟩, by simp⟩
  | cons i pattern ih =>
    rw [List.length_cons] at hroom
    have hfirst : slots.length < keys.length := by omega
    rcases place_cons (H := H) hlen (hmem i List.mem_cons_self) hfirst with hcollision | ⟨hstep, hvalue, hnew⟩
    · exact Or.inl hcollision
    · have hroom' : (slots ++ [seededSlot H keys seed i]).length + pattern.length ≤ keys.length := by
        rw [List.length_append, List.length_singleton]
        omega
      rw [hstep]
      rcases ih (fun j hj => hmem j (List.mem_cons_of_mem _ hj)) hroom' with hcollision | ⟨hok, hfits, hothers⟩
      · exact Or.inl hcollision
      · have hapart : ∀ j ∈ pattern, seededSlot H keys seed j ∉ slots ∧
            seededSlot H keys seed j ≠ seededSlot H keys seed i := by
          simpa using hothers
        refine Or.inr ⟨?_, ⟨?_, ?_⟩, ?_⟩
        · rw [hok, List.map_cons, List.append_assoc, List.singleton_append]
        · rw [List.map_cons, List.nodup_cons]
          refine ⟨?_, hfits.nodup⟩
          intro hmem
          obtain ⟨j, hj, hsame⟩ := List.mem_map.mp hmem
          exact (hapart j hj).2 hsame
        · simpa using ⟨hvalue, hfits.free⟩
        · simpa using ⟨hnew, fun j hj => (hapart j hj).1⟩

theorem place_cases (hlen : values.length = keys.length) (hmem : ∀ i ∈ pattern, i < keys.length)
    (hroom : pattern.length ≤ keys.length) (seed : UInt64) :
    (∃ hash, place H keys values seed pattern [] = .ok (.inl hash)) ∨
      place H keys values seed pattern [] = .ok (.inr (pattern.map (seededSlot H keys seed))) ∧
        Fits H keys values seed pattern := by
  have hempty : ([] : List Nat).length + pattern.length ≤ keys.length := by simpa using hroom
  rcases place_append hlen hmem hempty with hcollision | ⟨hok, hfits, -⟩
  · exact Or.inl hcollision
  · exact Or.inr ⟨hok, hfits⟩

theorem findSeed_ok (hok : place H keys values seed pattern [] = .ok (.inr slots)) (rerolls : Nat) :
    findSeed H keys values pattern rerolls seed = .ok (seed, slots) := by
  cases rerolls <;> simp only [findSeed, hok, bind, Except.bind]

/-- The search for a seed runs out of rerolls, or finds one that carries the flag. -/
theorem findSeed_cases (hlen : values.length = keys.length) (hmem : ∀ i ∈ pattern, i < keys.length)
    (hroom : pattern.length ≤ keys.length) {rerolls count : Nat} (hseed : IsSeed count seed)
    (hcount : count + rerolls < 2 ^ 32) :
    findSeed H keys values pattern rerolls seed = .error .running ∨
      ∃ found, findSeed H keys values pattern rerolls seed = .ok (found, pattern.map (seededSlot H keys found)) ∧
        2 ^ 63 ≤ found.toNat ∧ Fits H keys values found pattern := by
  induction rerolls generalizing count seed with
  | zero =>
    rcases place_cases (H := H) hlen hmem hroom seed with ⟨hash, hcollision⟩ | ⟨hok, hfits⟩
    · left
      simp only [findSeed, hcollision, bind, Except.bind]
    · exact Or.inr ⟨seed, findSeed_ok hok 0, hseed.1, hfits⟩
  | succ rerolls ih =>
    rcases place_cases (H := H) hlen hmem hroom seed with ⟨hash, hcollision⟩ | ⟨hok, hfits⟩
    · have hstep : findSeed H keys values pattern (rerolls + 1) seed =
          findSeed H keys values pattern rerolls (reroll seed hash) := by
        rw [findSeed, hcollision]
        rfl
      rw [hstep]
      exact ih (hseed.reroll (by omega) hash) (by omega)
    · exact Or.inr ⟨seed, findSeed_ok hok _, hseed.1, hfits⟩

/-! ### Keys that have their slots -/

/-- Where an entry of the remap table leads a key. -/
def directed (H : KeyHash T) (keys : List T) (remapped : UInt64) (key : T) : Nat :=
  if remapped &&& seedFlag = 0 then remapped.toNat else (H.seeded key remapped).toNat % keys.length

theorem call_eq {h : PerfectHasher} {remapped : UInt64} (hr : h.remap[flhash H keys key]? = some remapped) :
    call H keys h key = fetch h.values (directed H keys remapped key) := by
  simp only [call, fetch_ok hr, bind, Except.bind, directed]
  split <;> rfl

/-- The keys at these indices have their slots. -/
structure Assigned (H : KeyHash T) (keys : List T) (h : PerfectHasher) (done : List Nat) : Prop where
  remap_length : h.remap.length = remapSize keys.length
  values_length : h.values.length = keys.length
  occupied : (occupied (invalidValue keys.length) h.values).Perm done
  slots : ∀ r ∈ h.remap, r &&& seedFlag = 0 → r.toNat < keys.length
  found : ∀ i ∈ done, ∃ key r, keys[i]? = some key ∧ h.remap[flhash H keys key]? = some r ∧
    h.values[directed H keys r key]? = some i

variable {h : PerfectHasher} {done : List Nat}

theorem Assigned.lt (ha : Assigned H keys h done) (hi : i ∈ done) : i < keys.length := by
  obtain ⟨key, r, hkey, -⟩ := ha.found i hi
  exact (List.getElem?_eq_some_iff.mp hkey).1

/-- Nothing is assigned in a new table. -/
theorem assigned_nil (hn : 0 < keys.length) :
    Assigned H keys ⟨List.replicate (remapSize keys.length) 0,
      List.replicate keys.length (invalidValue keys.length)⟩ [] where
  remap_length := List.length_replicate
  values_length := List.length_replicate
  occupied := by simp [Library.occupied]
  slots := by
    intro r hr _
    rw [List.eq_of_mem_replicate hr]
    exact hn
  found := by simp

/-- The patterns still to come are buckets, the largest first. -/
structure Pending (H : KeyHash T) (keys : List T) (patterns : List Pattern) (done : List Nat) : Prop where
  mem : ∀ p ∈ patterns, ∀ i ∈ p, i < keys.length
  size : ∀ p ∈ patterns, p.length ≤ keys.length
  home : ∀ p ∈ patterns, ∀ i ∈ p, ∀ j ∈ p, home H keys i = home H keys j
  apart : patterns.Pairwise fun p q => ∀ i ∈ p, ∀ j ∈ q, PerfectHasher.home H keys i ≠ PerfectHasher.home H keys j
  other : ∀ p ∈ patterns, ∀ i ∈ p, ∀ j ∈ done, PerfectHasher.home H keys i ≠ PerfectHasher.home H keys j
  sorted : patterns.Pairwise fun p q => q.length ≤ p.length

variable {patterns : List Pattern}

theorem Pending.next (hp : Pending H keys (pattern :: patterns) done) :
    Pending H keys patterns (pattern ++ done) where
  mem p hmem := hp.mem p (List.mem_cons_of_mem _ hmem)
  size p hmem := hp.size p (List.mem_cons_of_mem _ hmem)
  home p hmem := hp.home p (List.mem_cons_of_mem _ hmem)
  apart := (List.pairwise_cons.mp hp.apart).2
  other := by
    intro p hmem i hi j hj
    rcases List.mem_append.mp hj with hnew | hold
    · exact ((List.pairwise_cons.mp hp.apart).1 p hmem j hnew i hi).symm
    · exact hp.other p (List.mem_cons_of_mem _ hmem) i hi j hold
  sorted := (List.pairwise_cons.mp hp.sorted).2

/-! ### Assigning a bucket -/

/-- The values of a pattern whose keys go to these slots. -/
def placed (slotFor : Nat → Nat) (pattern : Pattern) : List (Nat × Nat) := pattern.map fun i => (slotFor i, i)

theorem placed_fst (slotFor : Nat → Nat) (pattern : Pattern) :
    (placed slotFor pattern).map Prod.fst = pattern.map slotFor := by
  simp [placed]

theorem placed_snd (slotFor : Nat → Nat) (pattern : Pattern) : (placed slotFor pattern).map Prod.snd = pattern := by
  simp [placed, Function.comp_def]

theorem zip_placed (slotFor : Nat → Nat) (pattern : Pattern) :
    (pattern.map slotFor).zip pattern = placed slotFor pattern := by
  induction pattern with
  | nil => rfl
  | cons i pattern ih => simpa [placed] using ih

/-- An entry of the remap table leads every key of a pattern to a free slot of its own. -/
structure Directs (H : KeyHash T) (keys : List T) (values : List Nat) (remapped : UInt64) (slotFor : Nat → Nat)
    (pattern : Pattern) : Prop where
  nodup : (pattern.map slotFor).Nodup
  free : ∀ i ∈ pattern, values[slotFor i]? = some (invalidValue keys.length)
  slot : ∀ i ∈ pattern, ∀ key, keys[i]? = some key → directed H keys remapped key = slotFor i
  bound : remapped &&& seedFlag = 0 → remapped.toNat < keys.length

variable {remapped : UInt64} {slotFor : Nat → Nat}

theorem Directs.placed_room (hd : Directs H keys values remapped slotFor pattern) :
    ∀ e ∈ placed slotFor pattern, e.1 < values.length := by
  intro e he
  obtain ⟨i, hi, rfl⟩ := List.mem_map.mp he
  exact (List.getElem?_eq_some_iff.mp (hd.free i hi)).1

theorem Directs.fill_found (hd : Directs H keys values remapped slotFor pattern) (hi : i ∈ pattern) :
    (fill (placed slotFor pattern) values)[slotFor i]? = some i := by
  have hnodup : ((placed slotFor pattern).map Prod.fst).Nodup := by
    rw [placed_fst]
    exact hd.nodup
  exact fill_mem hnodup hd.placed_room (List.mem_map.mpr ⟨i, hi, rfl⟩)

/-- A slot that is taken is not free, and stays. -/
theorem Directs.fill_kept (hd : Directs H keys values remapped slotFor pattern) (hn : keys.length ≤ sizeMax)
    {slot : Nat} (hi : i < keys.length) (hvalue : values[slot]? = some i) :
    (fill (placed slotFor pattern) values)[slot]? = some i := by
  rw [fill_other, hvalue]
  intro hslot
  rw [placed_fst] at hslot
  obtain ⟨j, hj, rfl⟩ := List.mem_map.mp hslot
  have hmark := hd.free j hj
  rw [hvalue] at hmark
  exact ne_invalidValue hn hi (Option.some.inj hmark)

theorem Directs.occupied_fill (hd : Directs H keys values remapped slotFor pattern) (hn : keys.length ≤ sizeMax)
    (hmem : ∀ i ∈ pattern, i < keys.length) :
    (occupied (invalidValue keys.length) (fill (placed slotFor pattern) values)).Perm
      (pattern ++ occupied (invalidValue keys.length) values) := by
  have hnodup : ((placed slotFor pattern).map Prod.fst).Nodup := by
    rw [placed_fst]
    exact hd.nodup
  have hfree : ∀ e ∈ placed slotFor pattern, values[e.1]? = some (invalidValue keys.length) := by
    intro e he
    obtain ⟨i, hi, rfl⟩ := List.mem_map.mp he
    exact hd.free i hi
  have hmark : ∀ e ∈ placed slotFor pattern, e.2 ≠ invalidValue keys.length := by
    intro e he
    obtain ⟨i, hi, rfl⟩ := List.mem_map.mp he
    exact ne_invalidValue hn (hmem i hi)
  have hperm := Library.occupied_fill hnodup hfree hmark
  rwa [placed_snd] at hperm

/-- The bucket of the next pattern is assigned. -/
theorem Assigned.assign (ha : Assigned H keys h done) (hp : Pending H keys (pattern :: patterns) done)
    (hn : keys.length ≤ sizeMax) (hd : Directs H keys h.values remapped slotFor pattern) (hi : i ∈ pattern)
    (hkey : keys[i]? = some key) :
    Assigned H keys ⟨h.remap.set (flhash H keys key) remapped, fill (placed slotFor pattern) h.values⟩
      (pattern ++ done) := by
  have hbucket := home_eq (H := H) hkey
  have hmem := hp.mem pattern List.mem_cons_self
  constructor
  · rw [List.length_set, ha.remap_length]
  · rw [fill_length, ha.values_length]
  · exact (hd.occupied_fill hn hmem).trans (ha.occupied.append_left _)
  · intro r hr hflag
    rcases List.mem_or_eq_of_mem_set hr with hold | rfl
    · exact ha.slots r hold hflag
    · exact hd.bound hflag
  · intro j hj
    rcases List.mem_append.mp hj with hnew | hold
    · have hlt := hmem j hnew
      have hkey' : keys[j]? = some keys[j] := List.getElem?_eq_getElem hlt
      have hsame : flhash H keys keys[j] = flhash H keys key := by
        rw [← home_eq hkey', ← hbucket]
        exact hp.home pattern List.mem_cons_self j hnew i hi
      refine ⟨keys[j], remapped, hkey', ?_, ?_⟩
      · rw [hsame]
        apply List.getElem?_set_self
        rw [ha.remap_length]
        exact flhash_lt H keys key
      · rw [hd.slot j hnew _ hkey']
        exact hd.fill_found hnew
    · obtain ⟨key', r, hkey', hremap, hvalue⟩ := ha.found j hold
      have hne : flhash H keys key ≠ flhash H keys key' := by
        rw [← home_eq hkey', ← hbucket]
        exact hp.other pattern List.mem_cons_self i hi j hold
      refine ⟨key', r, hkey', ?_, hd.fill_kept hn (ha.lt hold) hvalue⟩
      rwa [List.getElem?_set_ne hne]

/-! ### The loops -/

/-- The seed that is found directs the keys of the pattern. -/
theorem assignPattern_cases (ha : Assigned H keys h done) (hp : Pending H keys (pattern :: patterns) done)
    (hn : keys.length ≤ sizeMax) {rerolls : Nat} (hrerolls : rerolls < 2 ^ 32) (hpattern : pattern ≠ []) :
    assignPattern H keys rerolls h pattern = .error .running ∨
      ∃ h', assignPattern H keys rerolls h pattern = .ok h' ∧ Assigned H keys h' (pattern ++ done) := by
  have hmem := hp.mem pattern List.mem_cons_self
  have hseed := findSeed_cases (H := H) ha.values_length hmem (hp.size pattern List.mem_cons_self) isSeed_initial
    (by rwa [Nat.zero_add])
  rcases hseed with hrunning | ⟨seed, hfind, hflag, hfits⟩
  · left
    simp only [assignPattern, hrunning, bind, Except.bind]
  · obtain ⟨i, tail, rfl⟩ := List.exists_cons_of_ne_nil hpattern
    have hi := hmem i List.mem_cons_self
    have hkey : keys[i]? = some keys[i] := List.getElem?_eq_getElem hi
    have hflagged : ¬ seed &&& seedFlag = 0 := by
      rw [and_seedFlag_eq_zero]
      omega
    have hd : Directs H keys h.values seed (seededSlot H keys seed) (i :: tail) := by
      refine ⟨hfits.nodup, hfits.free, ?_, fun h0 => absurd h0 hflagged⟩
      intro j _ key hkey
      rw [directed, if_neg hflagged, seededSlot, hkey]
    refine Or.inr ⟨_, ?_, ha.assign hp hn hd List.mem_cons_self hkey⟩
    have hfirst : fetch (i :: tail) 0 = .ok i := rfl
    have hlt := flhash_lt H keys keys[i]
    have hstore := store_ok (show flhash H keys keys[i] < h.remap.length by rwa [ha.remap_length]) seed
    have hvalues := storeValues_ok hn fun e he => ⟨hd.placed_room e he, by
      obtain ⟨j, hj, rfl⟩ := List.mem_map.mp he
      exact hmem j hj⟩
    simp only [assignPattern, hfind, bind, Except.bind, hfirst, fetch_ok hkey, hstore, zip_placed, hvalues]

/-- The patterns with several keys are assigned, and those with fewer are left. -/
theorem assignPatterns_cases (ha : Assigned H keys h done) (hp : Pending H keys patterns done)
    (hn : keys.length ≤ sizeMax) {rerolls : Nat} (hrerolls : rerolls < 2 ^ 32) :
    assignPatterns H keys rerolls patterns h = .error .running ∨
      ∃ h' rest done', assignPatterns H keys rerolls patterns h = .ok (h', rest) ∧ Assigned H keys h' done' ∧
        Pending H keys rest done' ∧ (∀ p ∈ rest, p.length ≤ 1) ∧
        (rest.flatten ++ done').Perm (patterns.flatten ++ done) := by
  induction patterns generalizing h done with
  | nil => exact Or.inr ⟨h, [], done, rfl, ha, hp, by simp, .refl _⟩
  | cons pattern patterns ih =>
    by_cases hmany : pattern.length > 1
    · have hpattern : pattern ≠ [] := by
        intro hnil
        simp [hnil] at hmany
      rcases assignPattern_cases ha hp hn hrerolls hpattern with hrunning | ⟨h₁, hok, ha₁⟩
      · left
        simp only [assignPatterns, if_pos hmany, hrunning, bind, Except.bind]
      · have hstep : assignPatterns H keys rerolls (pattern :: patterns) h =
            assignPatterns H keys rerolls patterns h₁ := by
          simp only [assignPatterns, if_pos hmany, hok, bind, Except.bind]
        rw [hstep]
        rcases ih ha₁ hp.next with hrunning | ⟨h', rest, done', hok', ha', hp', hsmall, hperm⟩
        · exact Or.inl hrunning
        · refine Or.inr ⟨h', rest, done', hok', ha', hp', hsmall, hperm.trans ?_⟩
          rw [List.flatten_cons, ← List.append_assoc]
          exact List.perm_append_comm.append_right _
    · refine Or.inr ⟨h, pattern :: patterns, done, ?_, ha, hp, ?_, .refl _⟩
      · simp only [assignPatterns, if_neg hmany]
      · intro p hmem
        rcases List.mem_cons.mp hmem with rfl | hmem
        · omega
        · have hle := (List.pairwise_cons.mp hp.sorted).1 p hmem
          omega

theorem freeSlots_eq (hlen : values.length = keys.length) :
    freeSlots keys values = .ok (vacant (invalidValue keys.length) values) := by
  let free := fun k => (List.range k).filter fun j => values[j]? = some (invalidValue keys.length)
  have hprefix : ∀ k ≤ keys.length, (List.range k).foldlM (fun free j => do
      let value ← fetch values j
      if value = invalidValue keys.length then push keys.length free j else .ok free) [] =
        (.ok (free k) : Except Fault (List Nat)) := by
    intro k hk
    induction k with
    | zero => rfl
    | succ k ih =>
      have hlt : k < values.length := by omega
      have hroom : (free k).length < keys.length := by
        apply lt_of_le_of_lt (List.length_filter_le _ _)
        rwa [List.length_range]
      have hfetch := fetch_ok (List.getElem?_eq_getElem hlt)
      rw [List.range_succ, List.foldlM_append, ih (Nat.le_of_succ_le hk)]
      simp only [bind, Except.bind, List.foldlM_cons, List.foldlM_nil, hfetch, free, List.range_succ,
        List.filter_append]
      by_cases hv : values[k] = invalidValue keys.length
      · simp only [if_pos hv, push_ok hroom, free]
        simp [hlt, hv, pure, Except.pure]
      · simp only [if_neg hv]
        simp [hlt, hv, pure, Except.pure]
  rw [freeSlots, vacant, hlen]
  exact hprefix _ le_rfl

/-- The first patterns are all buckets. -/
theorem pending_sort (S : Sorting largerPattern) :
    Pending H keys (S.sort (buckets (home H keys) (remapSize keys.length) (List.range keys.length))) [] := by
  have hperm := S.perm (buckets (home H keys) (remapSize keys.length) (List.range keys.length))
  have hmem := fun p => hperm.mem_iff (a := p)
  have hsorted := S.sorted (buckets (home H keys) (remapSize keys.length) (List.range keys.length))
  constructor
  · intro p hp i hi
    exact List.mem_range.mp (mem_bucket ((hmem p).mp hp) hi)
  · intro p hp
    obtain ⟨b, -, rfl⟩ := List.mem_map.mp ((hmem p).mp hp)
    simpa using List.length_filter_le (fun x => decide (home H keys x = b)) (List.range keys.length)
  · intro p hp i hi j hj
    exact home_eq_of_bucket ((hmem p).mp hp) hi hj
  · apply (hperm.pairwise_iff _).mpr (buckets_pairwise _ _ _)
    intro p q hpq i hi j hj
    exact (hpq j hj i hi).symm
  · simp
  · apply hsorted.imp
    intro p q hpq
    simpa [largerPattern] using hpq

/-- A free slot directs the only key of a pattern. -/
theorem directs_free {slot : Nat} (hn : keys.length < 2 ^ 63) (hslot : slot < keys.length)
    (hfree : values[slot]? = some (invalidValue keys.length)) :
    Directs H keys values (UInt64.ofNat slot) (fun _ => slot) [i] := by
  have hval : (UInt64.ofNat slot).toNat = slot := by
    rw [UInt64.toNat_ofNat']
    exact Nat.mod_eq_of_lt (by omega)
  have hunflagged : UInt64.ofNat slot &&& seedFlag = 0 := by
    rw [and_seedFlag_eq_zero, hval]
    omega
  constructor
  · simp
  · simpa using hfree
  · intro _ _ _ _
    rw [directed, if_pos hunflagged, hval]
  · intro _
    rwa [hval]

/-- Behind an empty pattern there are only empty ones. -/
theorem Pending.flatten_eq_nil (hp : Pending H keys (pattern :: patterns) done) (hempty : pattern.length = 0) :
    (pattern :: patterns).flatten = [] := by
  rw [List.flatten_eq_nil_iff]
  intro p hmem
  rcases List.mem_cons.mp hmem with rfl | hmem
  · exact List.length_eq_zero_iff.mp hempty
  · have hle := (List.pairwise_cons.mp hp.sorted).1 p hmem
    exact List.length_eq_zero_iff.mp (by omega)

section Ordered
variable [LinearOrder T]

theorem lowerBound_getElem (hasc : keys.Pairwise (· < ·)) {i : Nat} (hi : i < keys.length) :
    lowerBound keys keys[i] = i := by
  have hirr : ∀ a : T, decide (a < a) = false := by simp
  have hascending : keys.Pairwise fun a b => decide (a < b) = true := by simpa using hasc
  exact (findIdx_eq_of_ascending hirr hascending hi).2

/-- The last free slot is assigned to the next pattern. -/
theorem assignFree_step (hasc : keys.Pairwise (· < ·)) (ha : Assigned H keys h done) (hn : keys.length ≤ sizeMax)
    {front : List Nat} {slot : Nat} (hslot : slot < keys.length) (hi : i < keys.length) :
    assignFree H keys ([i] :: patterns) (front ++ [slot]) h =
      assignFree H keys patterns front
        ⟨h.remap.set (flhash H keys keys[i]) (UInt64.ofNat slot), fill (placed (fun _ => slot) [i]) h.values⟩ := by
  have hkey : keys[i]? = some keys[i] := List.getElem?_eq_getElem hi
  have hfirst : fetch [i] 0 = .ok i := rfl
  have hone : [i].length ≠ 0 := Nat.one_ne_zero
  have hlt := flhash_lt H keys keys[i]
  have hremap := store_ok (show flhash H keys keys[i] < h.remap.length by rwa [ha.remap_length]) (UInt64.ofNat slot)
  have hvalues := store_ok (show slot < h.values.length by rwa [ha.values_length]) i
  simp only [assignFree, if_pos hone, hfirst, bind, Except.bind, fetch_ok hkey, takeFree_concat, hremap,
    lowerBound_getElem hasc hi, toValue_of_lt hn hi, hvalues]
  rfl

/-- With free slots enough every pattern is assigned. -/
theorem assignFree_cases (hasc : keys.Pairwise (· < ·)) (ha : Assigned H keys h done)
    (hp : Pending H keys patterns done) (hn : keys.length < 2 ^ 63) (hsmall : ∀ p ∈ patterns, p.length ≤ 1)
    {free : List Nat} (hnodup : free.Nodup) (hfree : ∀ j ∈ free, h.values[j]? = some (invalidValue keys.length))
    (henough : patterns.flatten.length ≤ free.length) :
    ∃ h' done', assignFree H keys patterns free h = .ok h' ∧ Assigned H keys h' done' ∧
      done'.Perm (patterns.flatten ++ done) := by
  have hsize : keys.length ≤ sizeMax := by
    simp only [sizeMax, wordLimit]
    omega
  induction patterns generalizing h done free with
  | nil => exact ⟨h, done, rfl, ha, .refl _⟩
  | cons pattern patterns ih =>
    by_cases hempty : pattern.length = 0
    · refine ⟨h, done, ?_, ha, ?_⟩
      · rw [assignFree, if_neg (not_not.mpr hempty)]
      · rw [hp.flatten_eq_nil hempty, List.nil_append]
    · obtain ⟨i, rfl⟩ : ∃ i, pattern = [i] := by
        have hle := hsmall pattern List.mem_cons_self
        exact List.length_eq_one_iff.mp (by omega)
      simp only [List.flatten_cons, List.singleton_append, List.length_cons] at henough
      have hne : free ≠ [] := by
        intro hnil
        simp [hnil] at henough
      obtain ⟨front, slot, rfl⟩ := (List.eq_nil_or_concat' free).resolve_left hne
      have hi := hp.mem _ List.mem_cons_self i List.mem_cons_self
      have hmark := hfree slot (by simp)
      have hslot := (List.getElem?_eq_some_iff.mp hmark).1
      rw [ha.values_length] at hslot
      have hassign := ha.assign hp hsize (directs_free hn hslot hmark) List.mem_cons_self
        (List.getElem?_eq_getElem hi)
      rw [List.nodup_append] at hnodup
      have hleft : ∀ j ∈ front, (fill (placed (fun _ => slot) [i]) h.values)[j]? =
          some (invalidValue keys.length) := by
        intro j hj
        rw [fill_other]
        · exact hfree j (List.mem_append_left _ hj)
        · intro heq
          exact hnodup.2.2 j hj slot (by simp) (by simpa [placed] using heq)
      obtain ⟨h', done', hok, ha', hperm⟩ := ih hassign hp.next
        (fun p hmem => hsmall p (List.mem_cons_of_mem _ hmem)) hnodup.1 hleft (by simpa using henough)
      refine ⟨h', done', (assignFree_step hasc ha hsize hslot hi).trans hok, ha', hperm.trans ?_⟩
      rw [List.flatten_cons, ← List.append_assoc]
      exact List.perm_append_comm.append_right _

/-! ### All keys have their slots -/

/-- Every key is found at its index, and nothing else is found. -/
def Exact (H : KeyHash T) (keys : List T) (h : PerfectHasher) : Prop :=
  (∀ i (hi : i < keys.length), call H keys h keys[i] = .ok i ∧ lookup H keys h keys[i] = .ok (some i)) ∧
    ∀ id ∉ keys, lookup H keys h id = .ok none

theorem Assigned.exact (ha : Assigned H keys h done) (hn : 0 < keys.length)
    (hall : done.Perm (List.range keys.length)) : Exact H keys h := by
  have hdone : ∀ i, i ∈ done ↔ i < keys.length := by
    intro i
    rw [hall.mem_iff, List.mem_range]
  have hcall : ∀ i (hi : i < keys.length), call H keys h keys[i] = .ok i := by
    intro i hi
    obtain ⟨key, r, hkey, hremap, hvalue⟩ := ha.found i ((hdone i).mpr hi)
    obtain rfl : keys[i] = key := by
      rw [List.getElem?_eq_getElem hi] at hkey
      exact Option.some.inj hkey
    rw [call_eq hremap, fetch_ok hvalue]
  -- no slot is free
  have hvalues : ∀ v ∈ h.values, v < keys.length := by
    have hlen : (Library.occupied (invalidValue keys.length) h.values).length = h.values.length := by
      rw [ha.occupied.length_eq, hall.length_eq, List.length_range, ha.values_length]
    have hnone := List.length_filter_eq_length_iff.mp hlen
    intro v hv
    have hmem : v ∈ Library.occupied (invalidValue keys.length) h.values := List.mem_filter.mpr ⟨hv, hnone v hv⟩
    exact (hdone v).mp (ha.occupied.mem_iff.mp hmem)
  have htotal : ∀ id, ∃ idx, call H keys h id = .ok idx ∧ idx < keys.length := by
    intro id
    have hlt := flhash_lt H keys id
    rw [← ha.remap_length] at hlt
    have hremap := List.getElem?_eq_getElem hlt
    have hslot : directed H keys h.remap[flhash H keys id] id < h.values.length := by
      rw [ha.values_length]
      unfold directed
      split
      · rename_i hflag
        exact ha.slots _ (List.getElem_mem hlt) hflag
      · exact Nat.mod_lt _ hn
    refine ⟨h.values[directed H keys h.remap[flhash H keys id] id], ?_, hvalues _ (List.getElem_mem hslot)⟩
    rw [call_eq hremap, fetch_ok (List.getElem?_eq_getElem hslot)]
  constructor
  · intro i hi
    refine ⟨hcall i hi, ?_⟩
    have hfetch := fetch_ok (List.getElem?_eq_getElem hi)
    simp only [lookup, hcall i hi, bind, Except.bind, hfetch, ne_eq, not_true_eq_false, if_false]
  · intro id hid
    obtain ⟨idx, hidx, hlt⟩ := htotal id
    have hfetch := fetch_ok (List.getElem?_eq_getElem hlt)
    have hne : keys[idx] ≠ id := fun heq => hid (heq ▸ List.getElem_mem hlt)
    simp only [lookup, hidx, bind, Except.bind, hfetch, if_pos hne]

/-- The keys of a table: at least one, ascending, and no more than an array of their indices can be
declared for. -/
structure KeySet (T : Type) [LinearOrder T] where
  keys : List T
  nonempty : 0 < keys.length
  ascending : keys.Pairwise (· < ·)
  fits : 8 * (keys.length + 1) < wordLimit

/-- The constructor is either not done, or all keys have their slots. -/
theorem construct_cases (H : KeyHash T) (S : Sorting largerPattern) (K : KeySet T) {rerolls : Nat}
    (hrerolls : rerolls < 2 ^ 32) :
    construct H K.keys S rerolls = .error .running ∨
      ∃ h done, construct H K.keys S rerolls = .ok h ∧ Assigned H K.keys h done ∧
        done.Perm (List.range K.keys.length) := by
  have hfits : K.keys.length < 2 ^ 63 := by
    have hfits := K.fits
    simp only [wordLimit] at hfits
    omega
  have hsize : K.keys.length ≤ sizeMax := by
    simp only [sizeMax, wordLimit]
    omega
  have hmany := assignPatterns_cases (assigned_nil (H := H) K.nonempty) (pending_sort S) hsize hrerolls
  rcases hmany with hrunning | ⟨h₁, rest, done, hok, ha, hp, hsmall, hperm⟩
  · left
    simp only [construct, remapPatterns_eq, hrunning, bind, Except.bind]
  · right
    have hflat := buckets_flatten (m := remapSize K.keys.length) List.nodup_range
      (fun i (_ : i ∈ List.range K.keys.length) => home_lt H K.keys i)
    have hall : (rest.flatten ++ done).Perm (List.range K.keys.length) := by
      rw [List.append_nil] at hperm
      exact hperm.trans ((S.perm _).flatten.trans hflat)
    have henough : rest.flatten.length ≤ (vacant (invalidValue K.keys.length) h₁.values).length := by
      have hvacant : (vacant (invalidValue K.keys.length) h₁.values).length +
          (Library.occupied (invalidValue K.keys.length) h₁.values).length = h₁.values.length := vacant_length
      have hlen := hall.length_eq
      rw [ha.occupied.length_eq, ha.values_length] at hvacant
      rw [List.length_append, List.length_range] at hlen
      omega
    obtain ⟨h, done', hfree, ha', hperm'⟩ := assignFree_cases K.ascending ha hp hfits hsmall vacant_nodup
      (fun j hj => mem_vacant.mp hj) henough
    refine ⟨h, done', ?_, ha', hperm'.trans hall⟩
    simp only [construct, remapPatterns_eq, hok, bind, Except.bind, freeSlots_eq ha.values_length, hfree]

/-- With fewer than `2 ^ 32` rerolls for a bucket the constructor is either not done, or the hasher it
makes finds every key at its index and no other id. -/
theorem construct_exact (H : KeyHash T) (S : Sorting largerPattern) (K : KeySet T) {rerolls : Nat}
    (hrerolls : rerolls < 2 ^ 32) :
    construct H K.keys S rerolls = .error .running ∨
      ∃ h, construct H K.keys S rerolls = .ok h ∧ Exact H K.keys h := by
  rcases construct_cases H S K hrerolls with hrunning | ⟨h, done, hok, ha, hall⟩
  · exact .inl hrunning
  · exact .inr ⟨h, hok, ha.exact K.nonempty hall⟩

/-- Two keys that share a bucket, and hash alike under every seed, are never given their slots. -/
theorem construct_collision (H : KeyHash T) (S : Sorting largerPattern) (K : KeySet T) {rerolls i j : Nat}
    (hrerolls : rerolls < 2 ^ 32) (hi : i < K.keys.length) (hj : j < K.keys.length) (hne : i ≠ j)
    (hbucket : flhash H K.keys K.keys[i] = flhash H K.keys K.keys[j])
    (hseeds : H.seeded K.keys[i] = H.seeded K.keys[j]) :
    construct H K.keys S rerolls = .error .running := by
  apply (construct_cases H S K hrerolls).resolve_right
  intro h
  obtain ⟨h, done, -, ha, hall⟩ := h
  obtain ⟨hexact, -⟩ := ha.exact K.nonempty hall
  have hsame : call H K.keys h K.keys[i] = call H K.keys h K.keys[j] := by
    unfold call
    rw [hbucket, hseeds]
  rw [(hexact i hi).1, (hexact j hj).1] at hsame
  exact hne (Except.ok.inj hsame)

end Ordered

/-- A hash under which the keys 2 and 4 share a bucket, and a slot until the first reroll. -/
def pairHash : KeyHash Nat where
  hash k := UInt64.ofNat k
  seeded k seed := UInt64.ofNat (k / 2) * (seed - seedFlag)

def pairKeys : KeySet Nat := ⟨[2, 4], by decide, by decide, by decide⟩

def sortPatterns : Sorting largerPattern := .insertion
  (by
    intro a b c
    simp only [largerPattern, decide_eq_false_iff_not]
    omega)
  (by
    intro a b
    simp only [largerPattern, decide_eq_false_iff_not]
    omega)

theorem construct_exact_pair : ∃ h, construct pairHash pairKeys.keys sortPatterns 1 = .ok h ∧
    Exact pairHash pairKeys.keys h := by
  apply (construct_exact pairHash sortPatterns pairKeys (by decide)).resolve_left
  decide +kernel

end PerfectHasher
end DeepPack.Detail
