import DeepPack.Library.Language
import DeepPack.Items.SkipItem
import DeepPack.Items.EmitRanges
import DeepPack.Items.ParseMemory

/-! What the parsers accept.

On a memory stream every parser that succeeds has taken bytes of the grammar off the
front of the input: a head, an item, or as many items as it counted. Which value they
make of them does not matter here. -/
namespace DeepPack
open Library InputBuffer

variable {δ α : Type}

/-- An input parser takes bytes of this kind. -/
abbrev InputAccepts (L : α → List UInt8 → Prop) (x : Input MemoryInputStream α) : Prop :=
  Action.Accepts Detail.OnMemory L x

/-- The same for parsers with a destination. -/
abbrev ParseAccepts (L : α → List UInt8 → Prop) (x : Parse MemoryInputStream δ α) : Prop :=
  Action.Accepts (Action.LeftFst Detail.OnMemory) L x

/-- Nothing but one item. -/
abbrev OneItem (_ : α) (p : List UInt8) : Prop := WellFormed .item p

theorem accepts_err {σ : Type} {Left : σ → List UInt8 → Prop} {L : α → List UInt8 → Prop} (e : Errc) :
    Action.Accepts Left L (err e) := Action.accepts_fail _

theorem accepts_assign {L : Unit → List UInt8 → Prop} (v : δ) (h : L () []) : ParseAccepts L (assign v) :=
  Action.accepts_onSnd fun _ => h

/-! ### The buffer -/

theorem accepts_inputSizeNow : InputAccepts (fun _ p => p = []) inputSizeNow := Action.accepts_gets fun _ => rfl

theorem accepts_bulkRead (n : Nat) : InputAccepts (fun bytes p => p = bytes ∧ p.length = n) (bulkRead n) := by
  intro _ b h bytes t hx
  obtain ⟨rfl, hb⟩ := h
  rw [MemoryInputStream.bulkRead_memory n hb] at hx
  split at hx
  · rename_i hn
    cases hx
    exact ⟨b.take n, b.drop n, (List.take_append_drop n b).symm, ⟨rfl, MemoryInputStream.drop_lt n hb⟩, rfl,
      List.length_take_of_le hn⟩
  · cases hx

/-- A byte that is peeked at may be the next one. -/
theorem accepts_peekByte {c : UInt8} {L : α → List UInt8 → Prop} {x y : Input MemoryInputStream α}
    (hx : InputAccepts L x) (hy : InputAccepts (fun a p => L a (c :: p)) y) :
    InputAccepts L (peekByte >>= fun next => if next ≠ c then x else discardBuffered 1 >>= fun _ => y) := by
  intro _ b h a t hxy
  obtain ⟨rfl, hb⟩ := h
  cases b with
  | nil => cases hxy
  | cons next b =>
    rw [Action.bind_ok _ peekByte_memory] at hxy
    split at hxy
    · exact hx _ _ ⟨rfl, hb⟩ a t hxy
    · rename_i hnext
      rw [Action.bind_ok _ (takeByte_memory hb)] at hxy
      obtain ⟨p, rest, rfl, ht, hp⟩ := hy _ b ⟨rfl, Nat.lt_of_succ_lt hb⟩ a t hxy
      exact ⟨c :: p, rest, congrArg (· :: (p ++ rest)) (not_not.mp hnext), ht, hp⟩

/-! ### Heads -/

/-- The bytes a head was read from. -/
inductive ReadFrom : ItemHead → List UInt8 → Prop where
  | definite {m info v : Nat} {head : List UInt8} : m < 8 → Head m info v head → ¬ BadSimple m info v →
      ReadFrom ⟨.ofMajor m, 0, head.length, v⟩ head
  | indefinite {m : Nat} : m < 8 → m ≠ 0 ∧ m ≠ 1 ∧ m ≠ 6 → ReadFrom ⟨.ofMajor m, 1, 1, 31⟩ [initialByte m 31]

theorem accepts_parseItemHead : InputAccepts ReadFrom parseItemHead := by
  intro _ b hs h t hx
  obtain ⟨rfl, hb⟩ := hs
  rcases hh : headOf b with e | h'
  · rw [parseItemHead_memory_error hb hh] at hx
    cases hx
  rw [parseItemHead_memory hb hh] at hx
  cases hx
  refine ⟨b.take h.encodedLength, b.drop h.encodedLength, (List.take_append_drop _ b).symm,
    ⟨rfl, MemoryInputStream.drop_lt _ hb⟩, ?_⟩
  obtain ⟨m, hm, ⟨info, v, head, rest, rfl, hhead, hgood, rfl⟩ | ⟨rest, rfl, hmay, rfl⟩⟩ := headOf_sound hh
  · show ReadFrom _ ((head ++ rest).take head.length)
    rw [List.take_left]
    exact .definite hm hhead hgood
  · exact .indefinite hm hmay

namespace ReadFrom
variable {h : ItemHead} {p : List UInt8} {m : Nat}

/-- A head that is not indefinite is one of the grammar. -/
theorem head (hread : ReadFrom h p) (hm : m < 8) (htype : h.type = .ofMajor m) (hdefinite : ¬ h.indefinite) :
    ∃ info, Head m info h.value p ∧ ¬ BadSimple m info h.value := by
  cases hread with
  | definite hm' hhead hgood =>
    cases (TypeCode.ofMajor_inj hm' hm).mp htype
    exact ⟨_, hhead, hgood⟩
  | indefinite => exact absurd (ItemHead.indefinite_one _ _ _) hdefinite

theorem eq_of_indefinite (hread : ReadFrom h p) (hm : m < 8) (htype : h.type = .ofMajor m)
    (hindefinite : h.indefinite) : p = [initialByte m 31] := by
  cases hread with
  | definite hm' hhead =>
    rw [ItemHead.indefinite_zero] at hindefinite
    cases hindefinite
  | indefinite hm' =>
    cases (TypeCode.ofMajor_inj hm' hm).mp htype
    rfl

/-- Integers are heads. -/
theorem int (hread : ReadFrom h p) (hm : m = 0 ∨ m = 1) (htype : h.type = .ofMajor m) : WellFormed .item p := by
  cases hread with
  | definite hm' hhead =>
    cases (TypeCode.ofMajor_inj hm' (by omega)).mp htype
    exact .int hm hhead
  | indefinite hm' hmay =>
    cases (TypeCode.ofMajor_inj hm' (by omega)).mp htype
    omega

/-- So are simple values and floating point numbers; the break is not as long as those. -/
theorem float (hread : ReadFrom h p) (htype : h.type = .special) (hlen : ¬ h.encodedLength < 3) :
    WellFormed .item p := by
  cases hread with
  | definite hm hhead hgood =>
    cases (TypeCode.ofMajor_inj (n := 7) hm (by decide)).mp htype
    exact .simple hhead fun hbad => hgood ⟨rfl, hbad⟩
  | indefinite => exact absurd (show 1 < 3 by decide) hlen

end ReadFrom

/-! ### Scalars -/

theorem accepts_parseUnsignedInteger (t : IntType) (limit : Nat) :
    ParseAccepts OneItem (parseUnsignedInteger t limit) := by
  refine accepts_parseItemHead.onFst.bind fun h p hread => .ite (fun _ => accepts_err _) fun htype => ?_
  have hp := hread.int (.inl rfl) (not_not.mp htype)
  exact .ite (fun _ => accepts_err _) fun _ => accepts_assign _ (by rwa [OneItem, List.append_nil])

theorem accepts_parseSignedInteger (t : IntType) : ParseAccepts OneItem (parseSignedInteger t) := by
  refine accepts_parseItemHead.onFst.bind fun h p hread => .ite (fun _ => accepts_err _) fun htype => ?_
  have hp : WellFormed .item p := by
    by_cases hpos : h.type = .posint
    · exact hread.int (.inl rfl) hpos
    · exact hread.int (.inr rfl) (not_not.mp fun hneg => htype ⟨hpos, hneg⟩)
  exact .ite (fun _ => accepts_err _) fun _ => accepts_assign _ (by rwa [OneItem, List.append_nil])

theorem accepts_parseInteger (t : IntType) : ParseAccepts OneItem (parseInteger t) :=
  .ite (fun _ => accepts_parseSignedInteger t) fun _ => accepts_parseUnsignedInteger t _

theorem accepts_parseFloatingPoint (t : FloatType) : ParseAccepts OneItem (parseFloatingPoint t) := by
  refine accepts_parseItemHead.onFst.bind fun h p hread => .ite (fun _ => accepts_err _) fun htype => ?_
  rw [not_or, not_not] at htype
  have hp := hread.float htype.1 htype.2
  have hassign : ∀ v, ParseAccepts (fun _ q => WellFormed .item (p ++ q)) (assign (v : BitVec t.width)) :=
    fun v => accepts_assign v (by rwa [List.append_nil])
  refine .ite (fun _ => .ite (fun _ => hassign _) fun _ => accepts_err _) fun _ => ?_
  exact .ite (fun _ => hassign _) fun _ => hassign _

/-- The two first bytes a boolean can have. -/
theorem boolean_initialByte {c : UInt8} (h : ¬ 1 < wrapSub 32 c.toNat TypeCode.boolFalse.toByte.toNat) :
    c = initialByte 7 20 ∨ c = initialByte 7 21 := by
  have hall : ∀ n : Fin 256, ¬ 1 < wrapSub 32 n TypeCode.boolFalse.toByte.toNat → n = 244 ∨ n = 245 := by
    decide +kernel
  rcases hall ⟨c.toNat, c.toNat_lt⟩ h with heq | heq
  · exact .inl (UInt8.toNat_inj.mp (congrArg Fin.val heq))
  · exact .inr (UInt8.toNat_inj.mp (congrArg Fin.val heq))

theorem wellFormed_boolean {c : UInt8} (h : ¬ 1 < wrapSub 32 c.toNat TypeCode.boolFalse.toByte.toNat) :
    WellFormed .item [c] := by
  rcases boolean_initialByte h with rfl | rfl
  · exact .simple (.inline (by decide)) (by decide)
  · exact .simple (.inline (by decide)) (by decide)

theorem accepts_parseBoolean : ParseAccepts OneItem (parseBoolean : Parse MemoryInputStream Bool Unit) := by
  intro p b h _ t hx
  obtain ⟨_, v⟩ := p
  obtain ⟨rfl, hb⟩ := h
  cases b with
  | nil => cases hx
  | cons c b =>
    rw [parseBoolean_memory hb] at hx
    split at hx
    · cases hx
    · rename_i hc
      cases hx
      exact ⟨[c], b, rfl, ⟨rfl, Nat.lt_of_succ_lt hb⟩, wellFormed_boolean hc⟩

/-! ### Strings -/

theorem accepts_readTo (B : BlobContainer δ) (i n : Nat) :
    ParseAccepts (fun _ p => p.length = n) (Detail.readTo B i n) :=
  Action.Accepts.spoiling <| (accepts_bulkRead n).onFst.bind fun _ p hp => Action.accepts_onSnd fun _ => by
    rw [List.append_nil]
    exact hp.2

/-- A string that may not be indefinite. -/
theorem accepts_parseBlob {m : Nat} (hm : m = 2 ∨ m = 3) (B : BlobContainer δ) (maxSize : Nat) :
    ParseAccepts OneItem (Detail.parseBlob B false maxSize (.ofMajor m)) := by
  refine accepts_parseItemHead.onFst.bind fun h p hread => .ite (fun _ => accepts_err _) fun htype => ?_
  refine .ite (fun _ => accepts_err _) fun hdefinite => accepts_inputSizeNow.onFst.before fun _ => ?_
  refine .ite (fun _ => accepts_err _) fun _ => .ite (fun _ => accepts_err _) fun _ => ?_
  refine Action.Accepts.before (Action.accepts_onSnd fun _ => rfl) fun _ => (accepts_readTo B 0 h.value).bind fun _ q hq => ?_
  obtain ⟨info, hhead, -⟩ := hread.head (by omega) (not_not.mp htype) hdefinite
  apply Action.accepts_pure
  rw [OneItem, List.append_nil]
  exact .string hm hhead hq

/-! ### Ranges -/

theorem wellFormed_of_items {n : Nat} {p : List UInt8} (h : Repeated (WellFormed .item) n p) :
    WellFormed (.items n) p := by
  obtain ⟨us, rfl, hus, rfl⟩ := h
  rw [← List.flatMap_id]
  exact wellFormed_items hus

theorem wellFormed_of_pairs {n : Nat} {p : List UInt8} (h : Repeated IsPair n p) :
    WellFormed (.items (2 * n)) p := by
  obtain ⟨us, rfl, hus, rfl⟩ := h
  rw [← List.flatMap_id]
  exact wellFormed_pairs hus

section Ranges
variable {E : List UInt8 → Prop} {L : Nat → List UInt8 → Prop} {f : Nat → Parse MemoryInputStream δ Unit}

theorem accepts_endAtBreak {i : Nat} {more : Parse MemoryInputStream δ Nat} (hend : L i [breakByte])
    (hmore : ParseAccepts L more) : ParseAccepts L (Detail.endAtBreak i more) := by
  intro p b h n t hx
  obtain ⟨_, d⟩ := p
  obtain ⟨rfl, hb⟩ := h
  cases b with
  | nil => cases hx
  | cons c b =>
    rw [endAtBreak_memory hb] at hx
    split at hx
    · rename_i hc
      cases hx
      exact ⟨[breakByte], b, congrArg (· :: b) hc, ⟨rfl, Nat.lt_of_succ_lt hb⟩, hend⟩
    · exact hmore _ _ ⟨rfl, hb⟩ n t hx

/-- The elements of an indefinite range, its break included. -/
theorem accepts_parseIndefiniteElements (hf : ∀ i, ParseAccepts (fun _ => E) (f i)) (maxSize left i : Nat) :
    ParseAccepts (fun n p => ∃ k q, n = i + k ∧ p = q ++ [breakByte] ∧ Repeated E k q)
      (Detail.parseIndefiniteElements maxSize f left i) := by
  have hend : ∃ k q, i = i + k ∧ [breakByte] = q ++ [breakByte] ∧ Repeated E k q := ⟨0, [], rfl, rfl, .none⟩
  induction left generalizing i with
  | zero => exact accepts_endAtBreak hend (accepts_err _)
  | succ left ih =>
    refine accepts_endAtBreak hend (.ite (fun _ => accepts_err _) fun _ => (hf i).bind fun _ u hu => ?_)
    apply (ih (i + 1) ⟨0, [], rfl, rfl, .none⟩).mono
    intro _ _ hex
    obtain ⟨k, q, rfl, rfl, hq⟩ := hex
    exact ⟨k + 1, u ++ q, by omega, (List.append_assoc _ _ _).symm, .cons hu hq⟩

/-- A range is a head and as many elements as it says, or elements up to a break. -/
theorem accepts_parseArrayLike {m : Nat} (hm : m = 4 ∨ m = 5) (hf : ∀ i, ParseAccepts (fun _ => E) (f i))
    (maxSize : Nat) :
    ParseAccepts (fun n p => (∃ info head q, p = head ++ q ∧ Head m info n head ∧ Repeated E n q) ∨
        ∃ q, p = initialByte m 31 :: (q ++ [breakByte]) ∧ Repeated E n q)
      (Detail.parseArrayLike true maxSize (.ofMajor m) f) := by
  refine accepts_parseItemHead.onFst.bind fun h p hread => .ite (fun _ => accepts_err _) fun htype => ?_
  refine .ite (fun hindefinite => ?_) fun hdefinite => accepts_inputSizeNow.onFst.before fun _ => ?_
  · rw [hread.eq_of_indefinite (by omega) (not_not.mp htype) hindefinite]
    apply (accepts_parseIndefiniteElements hf _ _ 0).mono
    intro _ _ hex
    obtain ⟨k, q, rfl, rfl, hq⟩ := hex
    rw [Nat.zero_add]
    exact .inr ⟨q, rfl, hq⟩
  · obtain ⟨info, hhead, -⟩ := hread.head (by omega) (not_not.mp htype) hdefinite
    refine .ite (fun _ => accepts_err _) fun _ => .ite (fun _ => accepts_err _) fun _ => ?_
    refine (Action.Accepts.forRange hf 0 h.value).bind fun _ q hq => Action.accepts_pure ?_
    rw [List.append_nil]
    exact .inl ⟨info, p, q, rfl, hhead, hq⟩

/-- Arrays of items. -/
theorem accepts_parseArray (hf : ∀ i, ParseAccepts OneItem (f i)) (maxSize : Nat) :
    ParseAccepts OneItem (parseArray maxSize f) := by
  apply (accepts_parseArrayLike (m := 4) (.inl rfl) hf maxSize).mono
  intro n _ hor
  rcases hor with ⟨info, head, q, rfl, hhead, hq⟩ | ⟨_, rfl, us, rfl, hus, rfl⟩
  · exact .array hhead (wellFormed_of_items hq)
  · refine .arrayIndefinite ?_
    rw [← List.flatMap_id]
    exact wellFormed_elements hus

/-- Maps of keys and values. -/
theorem accepts_parseMap (hf : ∀ i, ParseAccepts (fun _ => IsPair) (f i)) (maxSize : Nat) :
    ParseAccepts OneItem (parseMap maxSize f) := by
  apply (accepts_parseArrayLike (m := 5) (.inr rfl) hf maxSize).mono
  intro n _ hor
  rcases hor with ⟨info, head, q, rfl, hhead, hq⟩ | ⟨_, rfl, us, rfl, hus, rfl⟩
  · exact .map hhead (wellFormed_of_pairs hq)
  · refine .mapIndefinite ?_
    rw [← List.flatMap_id]
    exact wellFormed_entries hus

end Ranges
end DeepPack
