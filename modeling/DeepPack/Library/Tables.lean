import Mathlib.Data.List.Nodup
import Mathlib.Data.List.Perm.Basic
import Mathlib.Data.List.Sort
import Mathlib.Order.Basic

/-! Tables that are filled slot by slot, what is sorted into buckets, and sorting.

A free slot carries a mark. Filling free slots adds to what is occupied and leaves the
other slots alone, so a table with as many slots as there are values to store ends without
a free one. -/
namespace DeepPack.Library

/-! ### Slots -/

section Slots
variable {α : Type} {mark x : α} {values : List α} {slot : Nat} {entries : List (Nat × α)}

/-- The table with all entries stored. -/
def fill (entries : List (Nat × α)) (values : List α) : List α :=
  entries.foldl (fun values e => values.set e.1 e.2) values

@[simp] theorem fill_nil (values : List α) : fill [] values = values := rfl

@[simp] theorem fill_cons (e : Nat × α) (entries : List (Nat × α)) (values : List α) :
    fill (e :: entries) values = fill entries (values.set e.1 e.2) := rfl

@[simp] theorem fill_length : (fill entries values).length = values.length := by
  induction entries generalizing values with
  | nil => rfl
  | cons e entries ih => simp [ih]

/-- Other slots are left alone. -/
theorem fill_other (h : slot ∉ entries.map Prod.fst) : (fill entries values)[slot]? = values[slot]? := by
  induction entries generalizing values with
  | nil => rfl
  | cons e entries ih =>
    simp only [List.map_cons, List.mem_cons, not_or] at h
    rw [fill_cons, ih h.2, List.getElem?_set_ne (Ne.symm h.1)]

/-- Different slots keep what is stored in them. -/
theorem fill_mem {e : Nat × α} (hnodup : (entries.map Prod.fst).Nodup)
    (hroom : ∀ e ∈ entries, e.1 < values.length) (he : e ∈ entries) : (fill entries values)[e.1]? = some e.2 := by
  induction entries generalizing values with
  | nil => cases he
  | cons first entries ih =>
    simp only [List.map_cons, List.nodup_cons] at hnodup
    rcases List.mem_cons.mp he with rfl | hmem
    · rw [fill_cons, fill_other hnodup.1]
      exact List.getElem?_set_self (hroom e List.mem_cons_self)
    · rw [fill_cons]
      apply ih hnodup.2 _ hmem
      intro e' he'
      rw [List.length_set]
      exact hroom e' (List.mem_cons_of_mem _ he')

variable [DecidableEq α]

/-- What stands in the slots that are not free. -/
def occupied (mark : α) (values : List α) : List α := values.filter (· ≠ mark)

/-- The free slots, in their order. -/
def vacant (mark : α) (values : List α) : List Nat :=
  (List.range values.length).filter fun i => values[i]? = some mark

theorem mem_vacant : slot ∈ vacant mark values ↔ values[slot]? = some mark := by
  simp only [vacant, List.mem_filter, List.mem_range, decide_eq_true_eq, and_iff_right_iff_imp]
  intro h
  exact (List.getElem?_eq_some_iff.mp h).1

theorem vacant_nodup : (vacant mark values).Nodup := List.nodup_range.filter _

/-- A slot is free or occupied. -/
theorem vacant_length : (vacant mark values).length + (occupied mark values).length = values.length := by
  have hmap : (List.range values.length).map (fun i => values[i]?) = values.map some := by
    apply List.ext_getElem
    · simp
    · intro i h _
      simp only [List.length_map, List.length_range] at h
      simp [h]
  have hcount : (vacant mark values).length = values.countP (· = mark) := by
    have hsome := congrArg (List.countP fun e => e = some mark) hmap
    rw [List.countP_map, List.countP_map, List.countP_eq_length_filter] at hsome
    simpa [vacant, Function.comp_def] using hsome
  have hsplit := List.length_eq_length_filter_add (l := values) fun x => decide (x = mark)
  rw [hcount, List.countP_eq_length_filter, hsplit]
  simp [occupied]

theorem occupied_set (hfree : values[slot]? = some mark) (hx : x ≠ mark) :
    (occupied mark (values.set slot x)).Perm (x :: occupied mark values) := by
  induction values generalizing slot with
  | nil => simp at hfree
  | cons a values ih =>
    cases slot with
    | zero =>
      obtain rfl : a = mark := by simpa using hfree
      simp [occupied, hx]
    | succ slot =>
      have hrest := ih (by simpa using hfree)
      by_cases ha : a = mark
      · simpa [occupied, ha] using hrest
      · simpa [occupied, ha] using (hrest.cons a).trans (List.Perm.swap x a _)

/-- What is stored in free slots is added to what there is. -/
theorem occupied_fill (hnodup : (entries.map Prod.fst).Nodup) (hfree : ∀ e ∈ entries, values[e.1]? = some mark)
    (hmark : ∀ e ∈ entries, e.2 ≠ mark) :
    (occupied mark (fill entries values)).Perm (entries.map Prod.snd ++ occupied mark values) := by
  induction entries generalizing values with
  | nil => simp
  | cons e entries ih =>
    simp only [List.map_cons, List.nodup_cons] at hnodup
    have hset : ∀ e' ∈ entries, (values.set e.1 e.2)[e'.1]? = some mark := by
      intro e' he'
      have hne : e.1 ≠ e'.1 := fun heq => hnodup.1 (heq ▸ List.mem_map_of_mem he')
      rw [List.getElem?_set_ne hne]
      exact hfree e' (List.mem_cons_of_mem _ he')
    have hrest := ih hnodup.2 hset fun e' he' => hmark e' (List.mem_cons_of_mem _ he')
    rw [fill_cons, List.map_cons, List.cons_append]
    apply hrest.trans
    have hfirst := occupied_set (hfree e List.mem_cons_self) (hmark e List.mem_cons_self)
    exact (hfirst.append_left _).trans List.perm_middle

end Slots

/-! ### Buckets -/

section Buckets
variable {α : Type} {home : α → Nat} {xs : List α} {m : Nat}

/-- The elements by their bucket, each bucket in the order of the list. -/
def buckets (home : α → Nat) (m : Nat) (xs : List α) : List (List α) :=
  (List.range m).map fun b => xs.filter fun x => home x = b

@[simp] theorem buckets_length (home : α → Nat) (m : Nat) (xs : List α) : (buckets home m xs).length = m := by
  simp [buckets]

theorem buckets_getElem? {b : Nat} (hb : b < m) :
    (buckets home m xs)[b]? = some (xs.filter fun x => home x = b) := by
  simp [buckets, hb]

theorem buckets_nil (home : α → Nat) (m : Nat) : buckets home m [] = List.replicate m [] := by
  simp [buckets, List.map_const']

/-- One more element goes to the end of its bucket. -/
theorem buckets_concat (x : α) :
    buckets home m (xs ++ [x]) = (buckets home m xs).set (home x)
    ((xs.filter fun y => home y = home x) ++ [x]) := by
  apply List.ext_getElem
  · simp
  · intro b hb _
    simp only [buckets_length] at hb
    by_cases heq : home x = b
    · subst heq
      simp [buckets]
    · simp [buckets, List.getElem_set_ne heq, heq]

theorem mem_bucket {p : List α} (hp : p ∈ buckets home m xs) {x : α} (hx : x ∈ p) : x ∈ xs := by
  obtain ⟨b, -, rfl⟩ := List.mem_map.mp hp
  exact List.mem_of_mem_filter hx

/-- The elements of a bucket belong together. -/
theorem home_eq_of_bucket {p : List α} (hp : p ∈ buckets home m xs) {x y : α} (hx : x ∈ p) (hy : y ∈ p) :
    home x = home y := by
  obtain ⟨b, -, rfl⟩ := List.mem_map.mp hp
  simp only [List.mem_filter, decide_eq_true_eq] at hx hy
  rw [hx.2, hy.2]

/-- And those of different buckets do not. -/
theorem buckets_pairwise (home : α → Nat) (m : Nat) (xs : List α) :
    (buckets home m xs).Pairwise fun p q => ∀ x ∈ p, ∀ y ∈ q, home x ≠ home y := by
  rw [buckets, List.pairwise_map]
  apply List.nodup_range.imp
  intro b c hne x hx y hy heq
  simp only [List.mem_filter, decide_eq_true_eq] at hx hy
  exact hne (hx.2.symm.trans (heq.trans hy.2))

theorem buckets_flatten [DecidableEq α] (hnodup : xs.Nodup) (hm : ∀ x ∈ xs, home x < m) :
    (buckets home m xs).flatten.Perm xs := by
  have hflat : (buckets home m xs).flatten.Nodup := by
    rw [List.nodup_flatten]
    constructor
    · intro p hp
      obtain ⟨b, -, rfl⟩ := List.mem_map.mp hp
      exact hnodup.filter _
    · apply (buckets_pairwise home m xs).imp
      intro p q hpq x hx hy
      exact hpq x hx x hy rfl
  rw [List.perm_ext_iff_of_nodup hflat hnodup]
  intro x
  constructor
  · intro hx
    obtain ⟨p, hp, hmem⟩ := List.mem_flatten.mp hx
    exact mem_bucket hp hmem
  · intro hx
    apply List.mem_flatten.mpr
    refine ⟨xs.filter fun y => home y = home x, List.mem_map.mpr ⟨home x, ?_, rfl⟩, ?_⟩
    · simpa using hm x hx
    · simpa using hx

end Buckets

/-! ### Sorting -/

/-- A sort by `before`, which leaves open the order of what neither comes before. -/
structure Sorting {α : Type} (before : α → α → Bool) where
  sort : List α → List α
  perm : ∀ l, (sort l).Perm l
  sorted : ∀ l, (sort l).Pairwise fun a b => before b a = false

/-- Sorting by insertion is one. -/
def Sorting.insertion {α : Type} {before : α → α → Bool}
    (htrans : ∀ a b c, before b a = false → before c b = false →
    before c a = false) (htotal : ∀ a b, before b a = false ∨ before a b = false) : Sorting before where
  sort l := l.insertionSort fun a b => before b a = false
  perm l := List.perm_insertionSort _ l
  sorted l := by
    have : Std.Total fun a b => before b a = false := ⟨htotal⟩
    have : IsTrans α fun a b => before b a = false := ⟨htrans⟩
    exact List.pairwise_insertionSort _ l

end DeepPack.Library
