import DeepPack.Items.RangeLog
import DeepPack.Items.HeadContract
import DeepPack.Items.RoundTrip

/-! Ranges with and without an announced length.

The definite parser counts, the indefinite one looks for a break before each element.
Over the same elements, none of which starts with the break's byte, both call the parser
of elements with the same indices on the same bytes. The check of the announced length
against the input passes because every element has a byte and every entry of a map two. -/
namespace DeepPack
open Library InputBuffer

variable {σ δ : Type} [InputStream σ]

namespace RequireContract
variable (R : RequireContract σ)

/-- Whatever follows them, the parser takes just these bytes and turns `d` into `d'`. -/
def Takes (x : Parse σ δ Unit) (bytes : List UInt8) (d d' : δ) : Prop :=
  ∀ s rest, R.Valid s → R.unread s = bytes ++ rest → R.Parses x s d (.ok ()) d' rest

variable {R} {s : InputBuffer σ} {c : UInt8} {rest : List UInt8} {f : Nat → Parse σ δ Unit}

theorem Takes.logged {i : Nat} {bytes : List UInt8} {d d' : δ} (h : R.Takes (f i) bytes d d') (l : List Nat) :
    R.Takes (logged f i) bytes (d, l) (d', l ++ [i]) := by
  intro s rest hs hu
  obtain ⟨t, ht, hvt, hut⟩ := h s rest hs hu
  exact ⟨t, logged_ok ht, hvt, hut⟩

/-- The next byte is seen, and can be taken. -/
theorem peekByte_cons (hs : R.Valid s) (hu : R.unread s = c :: rest) :
    ∃ t, peekByte s = (.ok c, t) ∧ R.Valid t ∧ R.unread t = c :: rest ∧ 1 ≤ t.buffer.length := by
  obtain ⟨t, ht, hvt, hut, hlt⟩ := R.require hs (n := 1) (by decide) (by rw [hu]; exact Nat.le_add_left 1 _)
  obtain ⟨tail, htail⟩ := R.buffer_starts hvt
  obtain ⟨first, others, hbuffer⟩ := List.exists_cons_of_length_pos hlt
  rw [hut, hu, hbuffer, List.cons_append] at htail
  have hdata : dataAt 0 t = (.ok c, t) := by
    rw [dataAt, hbuffer, (List.cons.inj htail).1]
    rfl
  exact ⟨t, (Action.bind_ok _ ht).trans hdata, hvt, hut.trans hu, hlt⟩

/-- From `s` and the destination `d`, `x` has the result `r` and leaves `d'` in the destination; when it is no
error, `rest` is left unread. -/
def Ends {α : Type} (R : RequireContract σ) (x : Parse σ δ α) (s : InputBuffer σ) (d : δ) (r : Except Fault α) (d' : δ)
    (rest : List UInt8) : Prop :=
  ∃ t, x (s, d) = (r, (t, d')) ∧ ((∃ a, r = .ok a) → R.Valid t ∧ R.unread t = rest)

theorem Ends.parses {α : Type} {x : Parse σ δ α} {d d' : δ} {a : α} (h : R.Ends x s d (.ok a) d' rest) :
    R.Parses x s d (.ok a) d' rest := by
  obtain ⟨t, ht, hend⟩ := h
  exact ⟨t, ht, hend ⟨a, rfl⟩⟩

theorem Ends.head {α : Type} {x : ItemHead → Parse σ δ α} {d d' : δ} {r : Except Fault α} {h : ItemHead}
    {p after : List UInt8} (hs : R.Valid s) (hread : ReadFrom h p) (hu : R.unread s = p ++ rest)
    (hx : ∀ t, R.Valid t → R.unread t = rest → R.Ends (x h) t d r d' after) :
    R.Ends (Action.onFst parseItemHead >>= x) s d r d' after := by
  obtain ⟨⟨t, ht, hvt, hut⟩, -⟩ := does_readFrom hs hread hu
  obtain ⟨u, hu, hend⟩ := hx t hvt hut
  exact ⟨u, (Action.bind_ok _ (Action.onFst_ok ht d)).trans hu, hend⟩

theorem endAtBreak_break {i : Nat} {more : Parse σ δ Nat} {d : δ} (hs : R.Valid s) (hu : R.unread s = breakByte :: rest) :
    R.Ends (Detail.endAtBreak i more) s d (.ok i) d rest := by
  obtain ⟨t, ht, hvt, hut, hlt⟩ := peekByte_cons hs hu
  obtain ⟨u, hu, hvu, huu⟩ := R.discard hvt hlt
  refine ⟨u, ?_, fun _ => ⟨hvu, by rw [huu, hut, List.drop_succ_cons, List.drop_zero]⟩⟩
  apply (Action.bind_ok _ (Action.onFst_ok ht d)).trans
  rw [if_pos (show breakByte = TypeCode.specialBreak.toByte from rfl)]
  exact Action.bind_ok _ (Action.onFst_ok hu d)

theorem endAtBreak_more {i : Nat} {r : Except Fault Nat} {more : Parse σ δ Nat} {d d' : δ} {after : List UInt8}
    (hs : R.Valid s) (hu : R.unread s = c :: rest) (hc : c ≠ breakByte)
    (hmore : ∀ t, R.Valid t → R.unread t = c :: rest → R.Ends more t d r d' after) :
    R.Ends (Detail.endAtBreak i more) s d r d' after := by
  obtain ⟨t, ht, hvt, hut, -⟩ := peekByte_cons hs hu
  obtain ⟨u, hu, hend⟩ := hmore t hvt hut
  refine ⟨u, ?_, hend⟩
  apply (Action.bind_ok _ (Action.onFst_ok ht d)).trans
  rwa [if_neg (show c ≠ TypeCode.specialBreak.toByte from hc)]

/-! ### The two loops over the same elements -/

/-- What a loop over elements makes of the destination, from index `i` on: the first one that fails ends it. -/
inductive Runs (R : RequireContract σ) (f : Nat → Parse σ δ Unit) (after : List UInt8) :
    List (List UInt8) → Nat → δ → Except Fault Unit → δ → Prop where
  | none {i : Nat} {d : δ} : Runs R f after [] i d (.ok ()) d
  | more {e : List UInt8} {es : List (List UInt8)} {i : Nat} {d d' d'' : δ} {r : Except Fault Unit} :
      (∀ s, R.Valid s → R.unread s = e ++ (es.flatten ++ after) →
        R.Parses (f i) s d (.ok ()) d' (es.flatten ++ after)) →
      Runs R f after es (i + 1) d' r d'' → Runs R f after (e :: es) i d r d''
  | fails {e : List UInt8} {es : List (List UInt8)} {i : Nat} {d d' : δ} {failure : Fault} :
      (∀ s, R.Valid s → R.unread s = e ++ (es.flatten ++ after) → ∃ t, f i (s, d) = (.error failure, (t, d'))) →
      Runs R f after (e :: es) i d (.error failure) d'

/-- The elements are taken one after the other, from index `i` on. -/
def TakesAll (R : RequireContract σ) (f : Nat → Parse σ δ Unit) (es : List (List UInt8)) (i : Nat) (d : Nat → δ) : Prop :=
  ∀ j (hj : j < es.length), R.Takes (f (i + j)) es[j] (d (i + j)) (d (i + j + 1))

theorem TakesAll.runs {es : List (List UInt8)} {d : Nat → δ} {i : Nat} (h : R.TakesAll f es i d) (after : List UInt8) :
    R.Runs f after es i (d i) (.ok ()) (d (i + es.length)) := by
  induction es generalizing i with
  | nil => exact .none
  | cons e es ih =>
    have hrest : R.TakesAll f es (i + 1) d := by
      intro j hj
      have hindex : i + 1 + j = i + (j + 1) := by omega
      rw [hindex]
      exact h (j + 1) (Nat.succ_lt_succ hj)
    have hruns := ih hrest
    rw [Nat.add_right_comm, Nat.add_assoc] at hruns
    exact .more (fun s hs hu => h 0 (Nat.zero_lt_succ _) s _ hs hu) hruns

section Loops
variable {es : List (List UInt8)} {d d' : δ} {i : Nat} {r : Except Fault Unit} {after : List UInt8}

theorem ends_forRange (h : R.Runs f after es i d r d') (hs : R.Valid s) (hu : R.unread s = es.flatten ++ after) :
    R.Ends (Action.forRange f i es.length) s d r d' after := by
  induction h generalizing s with
  | none => exact ⟨s, rfl, fun _ => ⟨hs, hu⟩⟩
  | more helement _ ih =>
    rw [List.flatten_cons, List.append_assoc] at hu
    obtain ⟨t, ht, hvt, hut⟩ := helement s hs hu
    obtain ⟨u, hu, hend⟩ := ih hvt hut
    exact ⟨u, (Action.bind_ok _ ht).trans hu, hend⟩
  | fails helement =>
    rw [List.flatten_cons, List.append_assoc] at hu
    obtain ⟨t, ht⟩ := helement s hs hu
    exact ⟨t, Action.bind_error _ ht, fun hok => by obtain ⟨a, ha⟩ := hok; cases ha⟩

/-- Where something other than a break comes next, an element is parsed. -/
theorem ends_nextElement {left : Nat} {e rest : List UInt8} {r : Except Fault Nat} (hleft : i + (left + 1) = sizeMax)
    (hne : ∃ c bytes, e = c :: bytes ∧ c ≠ breakByte) (hs : R.Valid s) (hu : R.unread s = e ++ rest)
    (hmore : ∀ t, R.Valid t → R.unread t = e ++ rest →
      R.Ends (f i >>= fun _ => Detail.parseIndefiniteElements sizeMax f left (i + 1)) t d r d' after) :
    R.Ends (Detail.parseIndefiniteElements sizeMax f (left + 1) i) s d r d' after := by
  obtain ⟨c, bytes, rfl, hc⟩ := hne
  refine endAtBreak_more hs hu hc fun t hvt hut => ?_
  rw [if_neg (by omega)]
  exact hmore t hvt hut

theorem ends_indefiniteElements {left : Nat} (hleft : i + left = sizeMax) (hroom : i + es.length < sizeMax)
    (h : R.Runs f (breakByte :: after) es i d r d') (hne : ∀ e ∈ es, ∃ c r, e = c :: r ∧ c ≠ breakByte)
    (hs : R.Valid s) (hu : R.unread s = es.flatten ++ breakByte :: after) :
    R.Ends (Detail.parseIndefiniteElements sizeMax f left i) s d (r.map fun _ => i + es.length) d' after := by
  induction h generalizing left s with
  | none =>
    cases left with
    | zero => exact endAtBreak_break hs hu
    | succ left => exact endAtBreak_break hs hu
  | @more e es i _ _ _ _ helement _ ih =>
    obtain ⟨left, rfl⟩ : ∃ k, left = k + 1 := ⟨left - 1, by omega⟩
    rw [List.flatten_cons, List.append_assoc] at hu
    refine ends_nextElement hleft (hne e List.mem_cons_self) hs hu fun t hvt hut => ?_
    obtain ⟨u, hu, hvu, huu⟩ := helement t hvt hut
    rw [List.length_cons] at hroom
    have hleft' : i + 1 + left = sizeMax := by omega
    obtain ⟨v, hv, hend⟩ := ih hleft' (by omega) (fun e' he' => hne e' (List.mem_cons_of_mem _ he')) hvu huu
    rw [Nat.add_right_comm, Nat.add_assoc] at hv hend
    exact ⟨v, (Action.bind_ok _ hu).trans hv, hend⟩
  | @fails e es i _ _ _ helement =>
    obtain ⟨left, rfl⟩ : ∃ k, left = k + 1 := ⟨left - 1, by omega⟩
    rw [List.flatten_cons, List.append_assoc] at hu
    refine ends_nextElement hleft (hne e List.mem_cons_self) hs hu fun t hvt hut => ?_
    obtain ⟨u, hu⟩ := helement t hvt hut
    exact ⟨u, Action.bind_error _ hu, fun hok => by obtain ⟨a, ha⟩ := hok; cases ha⟩

/-- A range with an announced length that the input can back. -/
theorem ends_definite {m info : Nat} {head : List UInt8} (hm : m = 4 ∨ m = 5) (hhead : Head m info es.length head)
    (hmax : es.length ≤ sizeMax) (hroom : (if m = 5 then 2 else 1) * es.length ≤ es.flatten.length)
    (h : R.Runs f after es 0 d r d') (hs : R.Valid s) (hu : R.unread s = head ++ (es.flatten ++ after)) :
    R.Ends (Detail.parseArrayLike true sizeMax (.ofMajor m) f) s d (r.map fun _ => es.length) d' after := by
  have hread : ReadFrom ⟨.ofMajor m, 0, head.length, es.length⟩ head := .definite (by omega) hhead fun hbad => by
    have := hbad.1
    omega
  refine Ends.head hs hread hu fun t hvt hut => ?_
  have hsize : Action.onFst inputSizeNow (t, d) = (.ok (es.flatten ++ after).length, (t, d)) := by
    rw [← hut, ← R.inputSize_eq hvt]
    rfl
  rw [if_neg (not_not.mpr rfl), ItemHead.indefinite_zero, if_neg Bool.false_ne_true]
  have hbacked : ¬ (es.flatten ++ after).length >>> (if TypeCode.ofMajor m = .map then 1 else 0) < es.length := by
    rw [List.length_append]
    rcases hm with rfl | rfl
    · rw [if_neg (by decide)] at hroom ⊢
      rw [Nat.shiftRight_zero]
      omega
    · rw [if_pos rfl] at hroom
      rw [if_pos (show TypeCode.ofMajor 5 = .map from rfl), Nat.shiftRight_eq_div_pow, pow_one]
      omega
  obtain ⟨u, hloop, hend⟩ := ends_forRange h hvt hut
  refine ⟨u, (Action.bind_ok _ hsize).trans ?_, fun hok => hend ?_⟩
  · rw [if_neg hbacked, if_neg (Nat.not_lt.mpr hmax)]
    cases r with
    | ok => exact Action.bind_ok _ hloop
    | error => exact Action.bind_error _ hloop
  · cases r with
    | ok => exact ⟨(), rfl⟩
    | error => obtain ⟨a, ha⟩ := hok; cases ha

/-- A range that ends with a break. -/
theorem ends_indefinite {m : Nat} (hm : m = 4 ∨ m = 5) (hmax : es.length < sizeMax)
    (h : R.Runs f (breakByte :: after) es 0 d r d') (hne : ∀ e ∈ es, ∃ c r, e = c :: r ∧ c ≠ breakByte) (hs : R.Valid s)
    (hu : R.unread s = initialByte m 31 :: (es.flatten ++ breakByte :: after)) :
    R.Ends (Detail.parseArrayLike true sizeMax (.ofMajor m) f) s d (r.map fun _ => es.length) d' after := by
  have hread : ReadFrom ⟨.ofMajor m, 1, 1, 31⟩ [initialByte m 31] := .indefinite (by omega) (by omega)
  refine Ends.head hs hread hu fun t hvt hut => ?_
  rw [if_neg (not_not.mpr rfl), ItemHead.indefinite_one, if_pos rfl, if_pos rfl]
  have hloop := ends_indefiniteElements (Nat.zero_add sizeMax) (by rwa [Nat.zero_add]) h hne hvt hut
  rwa [Nat.zero_add] at hloop

end Loops

theorem length_le_flatten {es : List (List UInt8)} {n : Nat} (h : ∀ e ∈ es, n ≤ e.length) :
    n * es.length ≤ es.flatten.length := by
  induction es with
  | nil => exact Nat.zero_le _
  | cons e es ih =>
    have hhead := h e List.mem_cons_self
    have hrest := ih fun e' he' => h e' (List.mem_cons_of_mem _ he')
    rw [List.length_cons, List.flatten_cons, List.length_append, Nat.mul_succ]
    omega

/-- Every element has bytes for what the head announces, and none starts like a break. -/
def Elements (m : Nat) (es : List (List UInt8)) : Prop :=
  ∀ e ∈ es, (if m = 5 then 2 else 1) ≤ e.length ∧ e.head? ≠ some breakByte

theorem Elements.length_le {es : List (List UInt8)} {m : Nat} (hes : Elements m es) :
    (if m = 5 then 2 else 1) * es.length ≤ es.flatten.length ∧ es.length ≤ es.flatten.length := by
  have hroom := length_le_flatten fun e he => (hes e he).1
  have hone : es.length ≤ (if m = 5 then 2 else 1) * es.length := Nat.le_mul_of_pos_left _ (by split <;> decide)
  exact ⟨hroom, hone.trans hroom⟩

/-- What elements are parsed to with an announced length. -/
theorem Elements.definite {es : List (List UInt8)} {m info : Nat} {head after : List UInt8} {d d' : δ}
    {r : Except Fault Unit} (hes : Elements m es) (hm : m = 4 ∨ m = 5) (hhead : Head m info es.length head)
    (h : R.Runs f after es 0 d r d') (hs : R.Valid s) (hu : R.unread s = head ++ (es.flatten ++ after)) :
    R.Ends (Detail.parseArrayLike true sizeMax (.ofMajor m) f) s d (r.map fun _ => es.length) d' after := by
  obtain ⟨hroom, hlen⟩ := hes.length_le
  have hsize : sizeMax = wordLimit - 1 := rfl
  have hlt := R.inputSize_lt hs
  rw [hu, List.length_append, List.length_append] at hlt
  exact ends_definite hm hhead (by omega) hroom h hs hu

/-- And with a break behind them. -/
theorem Elements.indefinite {es : List (List UInt8)} {m : Nat} {after : List UInt8} {d d' : δ}
    {r : Except Fault Unit} (hes : Elements m es) (hm : m = 4 ∨ m = 5) (h : R.Runs f (breakByte :: after) es 0 d r d')
    (hs : R.Valid s) (hu : R.unread s = initialByte m 31 :: (es.flatten ++ breakByte :: after)) :
    R.Ends (Detail.parseArrayLike true sizeMax (.ofMajor m) f) s d (r.map fun _ => es.length) d' after := by
  obtain ⟨-, hcount⟩ := hes.length_le
  have hsize : sizeMax = wordLimit - 1 := rfl
  have hlt := R.inputSize_lt hs
  rw [hu, List.length_cons, List.length_append, List.length_cons] at hlt
  refine ends_indefinite hm (by omega) h (fun e he => ?_) hs hu
  obtain ⟨hlen, hbreak⟩ := hes e he
  cases e with
  | nil =>
    rw [List.length_nil] at hlen
    split at hlen <;> omega
  | cons c bytes => exact ⟨c, bytes, rfl, fun hc => hbreak (congrArg some hc)⟩

/-! ### The same range, twice -/

variable {es : List (List UInt8)} {d : Nat → δ}

theorem TakesAll.logged (h : R.TakesAll f es 0 d) :
    R.TakesAll (DeepPack.logged f) es 0 fun i => (d i, List.range i) := by
  intro j hj
  show R.Takes _ _ _ (d (0 + j + 1), List.range (0 + j + 1))
  rw [List.range_succ]
  exact (h j hj).logged _

/-- With and without an announced length, a range of the same elements is parsed to the same. -/
theorem parses_both {m : Nat} (hm : m = 4 ∨ m = 5) (after : List UInt8) (h : R.TakesAll f es 0 d)
    (hes : Elements m es) {info : Nat} {head : List UInt8} (hhead : Head m info es.length head) :
    (∀ s, R.Valid s → R.unread s = head ++ (es.flatten ++ after) →
      R.Parses (Detail.parseArrayLike true sizeMax (.ofMajor m) f) s (d 0) (.ok es.length) (d es.length) after) ∧
    (∀ s, R.Valid s → R.unread s = initialByte m 31 :: (es.flatten ++ breakByte :: after) →
      R.Parses (Detail.parseArrayLike true sizeMax (.ofMajor m) f) s (d 0) (.ok es.length) (d es.length) after) := by
  have hdefinite := h.runs after
  have hindefinite := h.runs (breakByte :: after)
  rw [Nat.zero_add] at hdefinite hindefinite
  exact ⟨fun s hs hu => (hes.definite hm hhead hdefinite hs hu).parses,
    fun s hs hu => (hes.indefinite hm hindefinite hs hu).parses⟩

/-- The range has `n` elements, the parser of elements is called once for each index, in order, and
takes the destination from `d 0` to `d n`. -/
def CallsInOrder (R : RequireContract σ) (range : ∀ {δ : Type}, (Nat → Parse σ δ Unit) → Parse σ δ Nat)
    (f : Nat → Parse σ δ Unit) (d : Nat → δ) (s : InputBuffer σ) (n : Nat) (after : List UInt8) : Prop :=
  R.Parses (range f) s (d 0) (.ok n) (d n) after ∧
    R.Parses (range (DeepPack.logged f)) s (d 0, []) (.ok n) (d n, List.range n) after

end RequireContract

/-- Definite and indefinite ranges of the same elements are parsed alike: the same count, the same calls of
the element parser on the same bytes, and the same rest. -/
theorem parseRange_encodings (R : RequireContract σ) {f : Nat → Parse σ δ Unit} {es : List (List UInt8)} {d : Nat → δ}
    (h : R.TakesAll f es 0 d) (hbreak : ∀ e ∈ es, e.head? ≠ some breakByte) (after : List UInt8) :
    ((∀ e ∈ es, e ≠ []) → ∀ info head, Head 4 info es.length head → ∀ s t, R.Valid s → R.Valid t →
      R.unread s = head ++ (es.flatten ++ after) → R.unread t = initialByte 4 31 :: (es.flatten ++ breakByte :: after) →
      R.CallsInOrder (parseArray sizeMax) f d s es.length after ∧ R.CallsInOrder (parseArray sizeMax) f d t es.length after) ∧
    ((∀ e ∈ es, ∃ key value, e = key ++ value ∧ key ≠ [] ∧ value ≠ []) →
      ∀ info head, Head 5 info es.length head → ∀ s t, R.Valid s → R.Valid t →
      R.unread s = head ++ (es.flatten ++ after) → R.unread t = initialByte 5 31 :: (es.flatten ++ breakByte :: after) →
      R.CallsInOrder (parseMap sizeMax) f d s es.length after ∧ R.CallsInOrder (parseMap sizeMax) f d t es.length after) := by
  have hlogged := h.logged
  constructor
  · intro hne info head hhead s t hs ht hus hut
    have hes : RequireContract.Elements 4 es := fun e he => ⟨List.length_pos_iff.mpr (hne e he), hbreak e he⟩
    have hplain := RequireContract.parses_both (.inl rfl) after h hes hhead
    have hlog := RequireContract.parses_both (.inl rfl) after hlogged hes hhead
    exact ⟨⟨hplain.1 s hs hus, hlog.1 s hs hus⟩, ⟨hplain.2 t ht hut, hlog.2 t ht hut⟩⟩
  · intro hpairs info head hhead s t hs ht hus hut
    have hes : RequireContract.Elements 5 es := by
      intro e he
      refine ⟨?_, hbreak e he⟩
      obtain ⟨key, value, rfl, hkey, hvalue⟩ := hpairs e he
      have hk := List.length_pos_iff.mpr hkey
      have hv := List.length_pos_iff.mpr hvalue
      rw [if_pos rfl, List.length_append]
      omega
    have hplain := RequireContract.parses_both (.inr rfl) after h hes hhead
    have hlog := RequireContract.parses_both (.inr rfl) after hlogged hes hhead
    exact ⟨⟨hplain.1 s hs hus, hlog.1 s hs hus⟩, ⟨hplain.2 t ht hut, hlog.2 t ht hut⟩⟩

/-- Two booleans, counted or not. -/
theorem parseRange_encodings_bool :
    MemoryInputStream.contract.toRequire.Parses (parseArray sizeMax fun _ => parseBoolean) (memoryInput [0x82, 0xf4, 0xf5])
        false (.ok 2) true [] ∧
      MemoryInputStream.contract.toRequire.Parses (parseArray sizeMax fun _ => parseBoolean)
        (memoryInput [0x9f, 0xf4, 0xf5, 0xff]) false (.ok 2) true [] := by
  have htakes : ∀ v d, MemoryInputStream.contract.toRequire.Takes parseBoolean [initialByte 7 (20 + v.toNat)] d v := by
    intro v d s rest hs hu
    obtain ⟨b, rfl, hb⟩ := hs
    obtain rfl : b = [initialByte 7 (20 + v.toNat)] ++ rest := hu
    have htaken := takes_parseBoolean d v rest (Nat.zero_le _) hb
    exact ⟨memoryInput rest, htaken, MemoryInputStream.valid_memory (Nat.lt_of_succ_lt hb), rfl⟩
  have hall : MemoryInputStream.contract.toRequire.TakesAll (fun _ => parseBoolean)
      [[initialByte 7 20], [initialByte 7 21]] 0 fun i => i == 2 := by
    intro j hj
    match j, hj with
    | 0, _ => exact htakes false _
    | 1, _ => exact htakes true _
  have hboth := (parseRange_encodings MemoryInputStream.contract.toRequire hall (by decide) []).1 (by decide) 2
    [initialByte 4 2] (.inline (by decide)) (memoryInput [0x82, 0xf4, 0xf5]) (memoryInput [0x9f, 0xf4, 0xf5, 0xff])
    (MemoryInputStream.valid_memory (by decide)) (MemoryInputStream.valid_memory (by decide)) rfl rfl
  exact ⟨hboth.1.1, hboth.2.1⟩

end DeepPack
