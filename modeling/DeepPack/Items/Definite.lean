import DeepPack.Library.Whole
import DeepPack.Items.HeadContract

/-! Items of definite length, and how the parsers meet them.

Such an item says in front how much there is of it, and so do its parts. A parser
that is given one, or the beginning of one, takes it whole or returns an error. -/
namespace DeepPack
open Library InputBuffer

/-- How many bytes of content stand behind a head. -/
def contentLength (major argument : Nat) : Nat := if major = 2 ∨ major = 3 then argument else 0

/-- How many items do. -/
def childCount (major argument : Nat) : Nat :=
  if major = 4 then argument
  else if major = 5 then 2 * argument
  else if major = 6 then 1
  else 0

/-- The data items without anything indefinite. -/
inductive Definite : List UInt8 → Prop where
  | item {m info v : Nat} {head content : List UInt8} {children : List (List UInt8)} : m < 8 →
      Head m info v head → ¬ BadSimple m info v → content.length = contentLength m v →
      children.length = childCount m v → (∀ c ∈ children, Definite c) →
      Definite (head ++ (content ++ children.flatten))

/-- A key and a value. -/
def DefinitePair (w : List UInt8) : Prop := ∃ p q, w = p ++ q ∧ Definite p ∧ Definite q

theorem repeated_pairs {n : Nat} {w : List UInt8} : Repeated Definite (2 * n) w ↔ Repeated DefinitePair n w := by
  induction n generalizing w with
  | zero => exact ⟨fun h => h.eq_nil ▸ .none, fun h => h.eq_nil ▸ .none⟩
  | succ n ih =>
    constructor
    · intro h
      obtain ⟨p, _, rfl, hp, hrest⟩ := h.uncons
      obtain ⟨q, w, rfl, hq, hw⟩ := hrest.uncons
      rw [← List.append_assoc]
      exact .cons ⟨p, q, rfl, hp, hq⟩ (ih.mp hw)
    · intro h
      obtain ⟨_, w, rfl, ⟨p, q, rfl, hp, hq⟩, hw⟩ := h.uncons
      rw [List.append_assoc]
      exact .cons hp (.cons hq (ih.mpr hw))

/-- What stands behind the head of a definite item. -/
def Behind (m v : Nat) (r : List UInt8) : Prop :=
  ∃ content children, r = content ++ children ∧ content.length = contentLength m v ∧
    Repeated Definite (childCount m v) children

namespace Behind
variable {m v : Nat} {r : List UInt8}

theorem scalar (h : Behind m v r) (hm : m = 0 ∨ m = 1 ∨ m = 7) : r = [] := by
  obtain ⟨content, _, rfl, hcontent, us, hlen, -, rfl⟩ := h
  have hcount : us.length = 0 := by
    rw [hlen]
    rcases hm with rfl | rfl | rfl <;> rfl
  have hzero : content.length = 0 := by
    rw [hcontent]
    rcases hm with rfl | rfl | rfl <;> rfl
  rw [List.eq_nil_of_length_eq_zero hzero, List.eq_nil_of_length_eq_zero hcount]
  rfl

theorem string (h : Behind m v r) (hm : m = 2 ∨ m = 3) : r.length = v := by
  obtain ⟨content, _, rfl, hcontent, us, hlen, -, rfl⟩ := h
  have hcount : us.length = 0 := by
    rw [hlen]
    rcases hm with rfl | rfl <;> rfl
  rw [List.eq_nil_of_length_eq_zero hcount, List.flatten_nil, List.append_nil, hcontent, contentLength, if_pos hm]

theorem items (h : Behind m v r) (hm : m = 4 ∨ m = 5) : Repeated Definite (if m = 4 then v else 2 * v) r := by
  obtain ⟨content, children, rfl, hcontent, hchildren⟩ := h
  rw [contentLength, if_neg (by omega)] at hcontent
  rw [List.eq_nil_of_length_eq_zero hcontent, List.nil_append]
  rcases hm with rfl | rfl
  · exact hchildren
  · exact hchildren

theorem array (h : Behind 4 v r) : Repeated Definite v r := h.items (.inl rfl)

theorem map (h : Behind 5 v r) : Repeated DefinitePair v r := repeated_pairs.mp (h.items (.inr rfl))

end Behind

theorem Definite.cases {u : List UInt8} (h : Definite u) :
    ∃ m info v head r, u = head ++ r ∧ m < 8 ∧ Head m info v head ∧ ¬ BadSimple m info v ∧ Behind m v r := by
  obtain ⟨hm, hhead, hgood, hcontent, hcount, hchildren⟩ := h
  exact ⟨_, _, _, _, _, rfl, hm, hhead, hgood, _, _, rfl, hcontent, _, hcount, hchildren, rfl⟩

theorem Behind.definite {m info v : Nat} {head r : List UInt8} (hr : Behind m v r) (hm : m < 8)
    (hhead : Head m info v head) (hgood : ¬ BadSimple m info v) : Definite (head ++ r) := by
  obtain ⟨content, _, rfl, hcontent, us, hcount, hus, rfl⟩ := hr
  exact .item hm hhead hgood hcontent hcount hus

theorem Definite.length_pos {u : List UInt8} (h : Definite u) : 0 < u.length := by
  obtain ⟨m, info, v, head, r, rfl, -, hhead, -⟩ := h.cases
  rw [List.length_append]
  exact Nat.add_pos_left hhead.length_pos _

/-! ### What is put out -/

/-- Where no part is to follow the head is all of the item. -/
theorem definite_head {m info v : Nat} {head : List UInt8} (hm : m = 0 ∨ m = 1 ∨ m = 7) (hhead : Head m info v head)
    (hgood : ¬ BadSimple m info v) : Definite head := by
  have hr : Behind m v [] := by
    refine ⟨[], [], rfl, ?_, ?_⟩
    · rcases hm with rfl | rfl | rfl <;> rfl
    · rcases hm with rfl | rfl | rfl <;> exact .none
  have hitem := hr.definite (by omega) hhead hgood
  rwa [List.append_nil] at hitem

theorem definite_int {m v : Nat} (hm : m = 0 ∨ m = 1) (hv : v < wordLimit) :
    Definite (Detail.varUintHead (.ofMajor m) v) := by
  obtain ⟨info, hhead⟩ := Detail.head_varUintHead (m := m) (by omega) hv
  refine definite_head (by omega) hhead fun hbad => ?_
  have := hbad.1
  omega

theorem definite_string {m : Nat} {content : List UInt8} (hm : m = 2 ∨ m = 3) (hlen : content.length < wordLimit) :
    Definite (Detail.varUintHead (.ofMajor m) content.length ++ content) := by
  obtain ⟨info, hhead⟩ := Detail.head_varUintHead (m := m) (by omega) hlen
  have hr : Behind m content.length content := by
    refine ⟨content, [], (List.append_nil _).symm, (if_pos hm).symm, ?_⟩
    rcases hm with rfl | rfl <;> exact .none
  exact hr.definite (by omega) hhead fun hbad => by
    have := hbad.1
    omega

theorem definite_array {n : Nat} {body : List UInt8} (hn : n < wordLimit) (h : Repeated Definite n body) :
    Definite (Detail.varUintHead .array n ++ body) := by
  obtain ⟨info, hhead⟩ := Detail.head_varUintHead (m := 4) (by decide) hn
  have hr : Behind 4 n body := ⟨[], body, rfl, rfl, h⟩
  exact hr.definite (by decide) hhead fun hbad => absurd hbad.1 (by decide)

theorem definite_map {n : Nat} {body : List UInt8} (hn : n < wordLimit) (h : Repeated DefinitePair n body) :
    Definite (Detail.varUintHead .map n ++ body) := by
  obtain ⟨info, hhead⟩ := Detail.head_varUintHead (m := 5) (by decide) hn
  have hr : Behind 5 n body := ⟨[], body, rfl, rfl, repeated_pairs.mpr h⟩
  exact hr.definite (by decide) hhead fun hbad => absurd hbad.1 (by decide)

/-! ### The buffer -/

variable {δ α : Type} {behind u : List UInt8} {P : α → Prop}

/-- The failures that are errors the parser returned. -/
def IsErrc (f : Fault) : Prop := ∃ e, f = .errc e

/-- An input parser that takes these bytes whole or returns an error. -/
abbrev InputWhole (behind : List UInt8) (P : α → Prop) (x : Input MemoryInputStream α) (u : List UInt8) : Prop :=
  Action.TakesWhole Detail.OnMemory IsErrc behind P x u

/-- The same for parsers with a destination. -/
abbrev ParseWhole (behind : List UInt8) (P : α → Prop) (x : Parse MemoryInputStream δ α) (u : List UInt8) : Prop :=
  Action.TakesWhole (Action.LeftFst Detail.OnMemory) IsErrc behind P x u

/-- Whatever the result. -/
abbrev Any (_ : α) : Prop := True

theorem whole_err {σ : Type} {Left : σ → List UInt8 → Prop} (e : Errc) :
    Action.TakesWhole Left IsErrc behind P (err e) u := Action.whole_fail ⟨e, rfl⟩

theorem whole_modify (f : δ → δ) : ParseWhole behind Any (Action.onSnd (Action.modify f)) [] :=
  Action.whole_onSnd fun d => .inl ⟨(), f d, rfl, trivial⟩

theorem whole_assign (v : δ) : ParseWhole behind Any (assign v) [] := whole_modify fun _ => v

theorem whole_inputSizeNow : InputWhole behind Any inputSizeNow [] := Action.whole_gets fun _ => trivial

theorem whole_bulkRead : InputWhole behind Any (bulkRead u.length) u := by
  intro _ b h hb
  obtain ⟨rfl, hlt⟩ := h
  rw [MemoryInputStream.bulkRead_memory _ hlt]
  by_cases hlen : u.length ≤ b.length
  · obtain ⟨w, rfl⟩ := hb.left.exists_append hlen
    rw [if_pos hlen, List.take_left, List.drop_left]
    rw [List.length_append] at hlt
    exact .inl ⟨u, memoryInput w, w, rfl, rfl, ⟨rfl, by omega⟩, trivial⟩
  · rw [if_neg hlen]
    exact .inr ⟨_, _, rfl, _, rfl⟩

/-- The byte peeked at is the next one. -/
theorem whole_peekByte {c : UInt8} : InputWhole (c :: behind) (fun next => next = c) peekByte [] := by
  intro _ b h hb
  obtain ⟨rfl, hlt⟩ := h
  cases b with
  | nil => exact .inr ⟨_, _, rfl, _, rfl⟩
  | cons next b => exact .inl ⟨next, _, next :: b, peekByte_memory, rfl, ⟨rfl, hlt⟩, hb.tail.1⟩

/-- Where it is the byte looked for, it is taken. -/
theorem whole_takeByte {c : UInt8} {x y : Input MemoryInputStream α} (hy : InputWhole behind P y u) :
    InputWhole behind P (peekByte >>= fun next => if next ≠ c then x else discardBuffered 1 >>= fun _ => y)
      (c :: u) := by
  intro _ b h hb
  obtain ⟨rfl, hlt⟩ := h
  cases b with
  | nil => exact .inr ⟨_, _, rfl, _, rfl⟩
  | cons next b =>
    obtain ⟨rfl, hrest⟩ := hb.tail
    rw [Action.bind_ok _ peekByte_memory, if_neg (not_not.mpr rfl), Action.bind_ok _ (takeByte_memory hlt)]
    rcases hy _ b ⟨rfl, Nat.lt_of_succ_lt hlt⟩ hrest with ⟨a, t, w, ht, rfl, hleft, ha⟩ | hfail
    · exact .inl ⟨a, t, w, ht, rfl, hleft, ha⟩
    · exact .inr hfail

/-! ### Heads -/

theorem whole_parseItemHead {m info v : Nat} {head : List UInt8} (hm : m < 8) (hhead : Head m info v head)
    (hgood : ¬ BadSimple m info v) :
    InputWhole behind (fun h => h = ⟨.ofMajor m, 0, head.length, v⟩) parseItemHead head := by
  intro _ b h hb
  obtain ⟨rfl, hlt⟩ := h
  by_cases hlen : head.length ≤ b.length
  · obtain ⟨w, rfl⟩ := hb.left.exists_append hlen
    have hread := parseItemHead_memory hlt (hhead.headOf hm hgood w)
    rw [List.drop_left] at hread
    rw [List.length_append] at hlt
    exact .inl ⟨_, _, w, hread, rfl, ⟨rfl, by omega⟩, rfl⟩
  · rcases hh : headOf b with e | h
    · exact .inr ⟨_, _, parseItemHead_memory_error hlt hh, e, rfl⟩
    · obtain ⟨p, rest, rfl, hread⟩ := exists_readFrom hh
      obtain ⟨tail, htail⟩ := hb.left.resolve_left fun hle => hlen hle.length_le
      have heq : head ++ [] = p ++ (rest ++ tail) := by rw [List.append_nil, ← htail, List.append_assoc]
      obtain ⟨-, rfl, -⟩ := (ReadFrom.definite hm hhead hgood).unique hread heq
      exact absurd (List.length_append ▸ Nat.le_add_right _ _) hlen

/-- The head of a definite item is not indefinite. -/
theorem whole_definite {σ : Type} {Left : σ → List UInt8 → Prop} {type : TypeCode} {len v : Nat} {x y : Action Fault σ α}
    (hy : Action.TakesWhole Left IsErrc behind P y u) :
    Action.TakesWhole Left IsErrc behind P (if (⟨type, 0, len, v⟩ : ItemHead).indefinite then x else y) u := by
  rwa [ItemHead.indefinite_zero, if_neg Bool.false_ne_true]

/-- A parser that starts with a head has what is behind it left to take. -/
theorem whole_head {f : ItemHead → Parse MemoryInputStream δ α} (h : Definite u)
    (hf : ∀ m v len r, m < 8 → Behind m v r → ParseWhole behind P (f ⟨.ofMajor m, 0, len, v⟩) r) :
    ParseWhole behind P (Action.onFst parseItemHead >>= f) u := by
  obtain ⟨m, info, v, head, r, rfl, hm, hhead, hgood, hr⟩ := h.cases
  refine (whole_parseItemHead hm hhead hgood).onFst.bind fun h hh => ?_
  subst hh
  exact hf m v _ r hm hr

/-! ### Scalars -/

/-- Scalars that fit into the first byte are just that. -/
theorem Definite.eq_inline {m v : Nat} (hm : m = 0 ∨ m = 7) (hv : v ≤ 23) (h : Definite (initialByte m v :: u)) :
    u = [] := by
  obtain ⟨m', info, v', head, r, heq, hm', hhead, hgood, hr⟩ := h.cases
  have hinline : ReadFrom ⟨.ofMajor m, 0, 1, v⟩ [initialByte m v] := .definite (by omega) (.inline hv) fun hbad => by
    have := hbad.2.1
    omega
  obtain ⟨hitem, -, rfl⟩ := hinline.unique (.definite hm' hhead hgood) heq
  obtain rfl := (TypeCode.ofMajor_inj (by omega) hm').mp (congrArg ItemHead.type hitem)
  exact hr.scalar (by omega)

theorem whole_scalar {m v : Nat} {r : List UInt8} {x : Parse MemoryInputStream δ α} (hr : Behind m v r)
    (hm : m = 0 ∨ m = 1 ∨ m = 7) (hx : ParseWhole behind P x []) : ParseWhole behind P x r := by
  rwa [hr.scalar hm]

theorem whole_parseUnsignedInteger (t : IntType) (limit : Nat) (h : Definite u) :
    ParseWhole behind Any (parseUnsignedInteger t limit) u := by
  refine whole_head h fun m v len r hm hr => .ite (fun _ => whole_err _) fun htype => .ite (fun _ => whole_err _) fun _ => ?_
  obtain rfl := (TypeCode.ofMajor_inj (n := 0) hm (by decide)).mp (not_not.mp htype)
  exact whole_scalar hr (.inl rfl) (whole_assign _)

theorem whole_parseSignedInteger (t : IntType) (h : Definite u) : ParseWhole behind Any (parseSignedInteger t) u := by
  refine whole_head h fun m v len r hm hr => .ite (fun _ => whole_err _) fun htype => .ite (fun _ => whole_err _) fun _ => ?_
  have hm01 : m = 0 ∨ m = 1 := by
    by_contra hne
    rw [not_or] at hne
    refine htype ⟨fun hpos => hne.1 ?_, fun hneg => hne.2 ?_⟩
    · exact (TypeCode.ofMajor_inj (n := 0) hm (by decide)).mp hpos
    · exact (TypeCode.ofMajor_inj (n := 1) hm (by decide)).mp hneg
  exact whole_scalar hr (by omega) (whole_assign _)

theorem whole_parseInteger (t : IntType) (h : Definite u) : ParseWhole behind Any (parseInteger t) u :=
  .ite (fun _ => whole_parseSignedInteger t h) fun _ => whole_parseUnsignedInteger t _ h

theorem whole_parseFloatingPoint (t : FloatType) (h : Definite u) : ParseWhole behind Any (parseFloatingPoint t) u := by
  refine whole_head h fun m v len r hm hr => .ite (fun _ => whole_err _) fun htype => ?_
  rw [not_or, not_not] at htype
  obtain rfl := (TypeCode.ofMajor_inj (n := 7) hm (by decide)).mp htype.1
  refine whole_scalar hr (.inr (.inr rfl)) (.ite (fun _ => .ite (fun _ => whole_assign _) fun _ => whole_err _) fun _ => ?_)
  exact .ite (fun _ => whole_assign _) fun _ => whole_assign _

theorem whole_parseBoolean (h : Definite u) :
    ParseWhole behind Any (parseBoolean : Parse MemoryInputStream Bool Unit) u := by
  intro s b hs hb
  obtain ⟨_, d⟩ := s
  obtain ⟨rfl, hlt⟩ := hs
  cases b with
  | nil => exact .inr ⟨_, _, rfl, _, rfl⟩
  | cons c b =>
    rw [parseBoolean_memory hlt]
    split
    · exact .inr ⟨_, _, rfl, _, rfl⟩
    · rename_i hc
      obtain ⟨c', u, rfl⟩ := List.exists_cons_of_length_pos h.length_pos
      obtain ⟨rfl, -⟩ := hb.tail
      have hu : u = [] := by
        rcases boolean_initialByte hc with rfl | rfl
        · exact h.eq_inline (.inr rfl) (by decide)
        · exact h.eq_inline (.inr rfl) (by decide)
      rw [hu]
      exact .inl ⟨(), _, b, rfl, rfl, ⟨rfl, Nat.lt_of_succ_lt hlt⟩, trivial⟩

/-! ### Strings -/

theorem whole_readTo (B : BlobContainer δ) (i : Nat) : ParseWhole behind Any (Detail.readTo B i u.length) u :=
  (whole_bulkRead.onFst.after fun _ _ => whole_modify _).spoiling

theorem whole_containerResize (B : BlobContainer δ) (n : Nat) :
    ParseWhole behind Any (Action.onSnd (B.containerResize n)) [] := by
  refine Action.whole_onSnd fun d => ?_
  unfold BlobContainer.containerResize
  cases B.resize n d with
  | some d' => exact .inl ⟨(), d', rfl, trivial⟩
  | none => exact .inr ⟨_, d, rfl, _, rfl⟩

theorem whole_parseBlob {m : Nat} (hm : m = 2 ∨ m = 3) (B : BlobContainer δ) (allow : Bool) (maxSize : Nat)
    (h : Definite u) : ParseWhole behind Any (Detail.parseBlob B allow maxSize (.ofMajor m)) u := by
  refine whole_head h fun m' v len r hm' hr => .ite (fun _ => whole_err _) fun htype => ?_
  obtain rfl := (TypeCode.ofMajor_inj hm' (by omega)).mp (not_not.mp htype)
  obtain rfl := hr.string hm
  refine whole_definite (whole_inputSizeNow.onFst.before fun _ _ => .ite (fun _ => whole_err _) fun _ => ?_)
  refine .ite (fun _ => whole_err _) fun _ => (whole_containerResize B _).before fun _ _ => ?_
  exact (whole_readTo B 0).after fun _ _ => Action.whole_pure trivial

/-! ### Ranges -/

/-- A range that counts no more elements than it may is read element by element. -/
theorem whole_parseArrayLike {m : Nat} (hm : m = 4 ∨ m = 5) {f : Nat → Parse MemoryInputStream δ Unit} {maxSize : Nat}
    {E : List UInt8 → Prop} (hE : ∀ v r, Behind m v r → Repeated E v r)
    (hf : ∀ i w, i < maxSize → E w → ParseWhole [] Any (f i) w) (h : Definite u) :
    ParseWhole behind Any (Detail.parseArrayLike true maxSize (.ofMajor m) f) u := by
  refine whole_head h fun m' v len r hm' hr => .ite (fun _ => whole_err _) fun htype => ?_
  obtain rfl := (TypeCode.ofMajor_inj hm' (by omega)).mp (not_not.mp htype)
  refine whole_definite (whole_inputSizeNow.onFst.before fun _ _ => .ite (fun _ => whole_err _) fun _ => ?_)
  refine .ite (fun _ => whole_err _) fun hmax => ?_
  refine (Action.whole_forRange (fun i w hi hw => hf i w ?_ hw) (hE v r hr)).after fun _ _ => Action.whole_pure trivial
  rw [Nat.zero_add] at hi
  exact hi.trans_le (Nat.not_lt.mp hmax)

end DeepPack
