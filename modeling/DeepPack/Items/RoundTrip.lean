import DeepPack.Library.Language
import DeepPack.Items.ParseMemory
import DeepPack.Items.EmitRanges

/-! What the emitters put out the parsers read back.

A parser on a memory stream takes a head, a string or the elements of a range off the
front of the input, whatever stands behind it, and makes of it what was emitted. The
checks of sizes against the input pass because every item takes a byte at least. -/
namespace DeepPack
open Library InputBuffer

variable {δ α : Type}

/-- The parser takes these bytes, if `ahead` others stand behind them, and comes to `a`. -/
abbrev InputTakesAhead (ahead : Nat) (x : Input MemoryInputStream α) (p : List UInt8) (a : α) : Prop :=
  Action.TakesWord wordLimit memoryInput ahead x p a

/-- It does so whatever stands behind. -/
abbrev InputTakes (x : Input MemoryInputStream α) (p : List UInt8) (a : α) : Prop := InputTakesAhead 0 x p a

/-- The same for parsers with a destination, which changes from `d` to `d'`. -/
abbrev ParseTakes (x : Parse MemoryInputStream δ α) (p : List UInt8) (a : α) (d d' : δ) : Prop :=
  Action.Takes wordLimit (Action.placeFst memoryInput) x p a d d'

theorem takes_assign (d v : δ) : ParseTakes (assign v) [] () d v := Action.takes_onSnd rfl

/-! ### The buffer -/

/-- The size of the input is at least that of the bytes to be taken and of those known to be behind. -/
theorem takes_inputSize {ahead : Nat} {x : Nat → Input MemoryInputStream α} {p : List UInt8} {a : α}
    (h : ∀ n, p.length + ahead ≤ n → InputTakesAhead ahead (x n) p a) :
    InputTakesAhead ahead (inputSizeNow >>= x) p a := by
  intro w hahead hw
  exact h (p ++ w).length (List.length_append ▸ Nat.add_le_add_left hahead _) w hahead hw

theorem takes_onFst_inputSize {x : Nat → Parse MemoryInputStream δ α} {p : List UInt8} {a : α} {d d' : δ}
    (h : ∀ n, p.length ≤ n → ParseTakes (x n) p a d d') : ParseTakes (Action.onFst inputSizeNow >>= x) p a d d' := by
  intro w hahead hw
  exact h (p ++ w).length (List.length_append ▸ Nat.le_add_right _ _) w hahead hw

theorem takes_bulkRead (bytes : List UInt8) : InputTakes (bulkRead bytes.length) bytes bytes := by
  intro w _ hw
  have hlen : bytes.length ≤ (bytes ++ w).length := by
    rw [List.length_append]
    exact Nat.le_add_right _ _
  rw [MemoryInputStream.bulkRead_memory _ hw, if_pos hlen, List.take_left, List.drop_left]

/-- The byte looked for is the next one. -/
theorem takes_peekByte {ahead : Nat} {c : UInt8} {p : List UInt8} {a : α} {x y : Input MemoryInputStream α}
    (hy : InputTakesAhead ahead y p a) :
    InputTakesAhead ahead (peekByte >>= fun next => if next ≠ c then x else discardBuffered 1 >>= fun _ => y)
      (c :: p) a := by
  intro w hahead hw
  apply (Action.bind_ok _ peekByte_memory).trans
  rw [if_neg (not_not.mpr rfl), Action.bind_ok _ (takeByte_memory hw)]
  exact hy w hahead (Nat.lt_of_succ_lt hw)

/-! ### Heads -/

theorem takes_parseItemHead {m info v : Nat} {head : List UInt8} (hm : m < 8) (hhead : Head m info v head)
    (hgood : ¬ BadSimple m info v) : InputTakes parseItemHead head ⟨.ofMajor m, 0, head.length, v⟩ := by
  intro w _ hw
  rw [parseItemHead_memory hw (hhead.headOf hm hgood w), List.drop_left]

/-- The shortest head of a value. -/
theorem takes_varUintHead {m v : Nat} (hm : m < 7) (hv : v < wordLimit) :
    InputTakes parseItemHead (Detail.varUintHead (.ofMajor m) v)
      ⟨.ofMajor m, 0, (Detail.varUintHead (.ofMajor m) v).length, v⟩ := by
  obtain ⟨info, hhead⟩ := Detail.head_varUintHead (m := m) (by omega) hv
  exact takes_parseItemHead (by omega) hhead fun hbad => by
    have := hbad.1
    omega

/-! ### Integers -/

theorem takes_parseUnsignedInteger {t : IntType} {limit v : Nat} (hlimit : v ≤ limit) (hv : v < wordLimit)
    (d : BitVec t.width) :
    ParseTakes (parseUnsignedInteger t limit) (Detail.varUintHead .posint v) () d (BitVec.ofNat t.width v) := by
  apply ((takes_varUintHead (m := 0) (by decide) hv).onFst d).after
  exact .ite_neg (fun h => h rfl) (.ite_neg (Nat.not_lt.mpr hlimit) (takes_assign _ _))

section Integers
variable {t : IntType}

theorem IntType.EncodableInt.width_pos (ht : t.EncodableInt) : 0 < t.width := by
  rcases ht with h | h | h | h <;> omega

theorem IntType.EncodableInt.width_le (ht : t.EncodableInt) : t.width ≤ 64 := by
  rcases ht with h | h | h | h <;> omega

/-- The sign mask repeats the sign bit. -/
theorem IntType.signmask_eq (ht : t.EncodableInt) (value : BitVec t.width) :
    t.signmask value = if value.msb then BitVec.allOnes t.width else 0 := by
  have hpos := ht.width_pos
  have hbit : ∀ i, i < t.width → (t.signmask value).getLsbD i = value.msb := by
    intro i hi
    have hlast := BitVec.msb_eq_getLsbD_last value
    rw [IntType.signmask, BitVec.getLsbD_sshiftRight]
    by_cases hzero : i = 0
    · rw [hzero, if_pos (by omega), Nat.add_zero, ← hlast]
      simp [ht.width_pos.ne']
    · simp [hi, show ¬ t.width - 1 + i < t.width by omega]
  refine BitVec.eq_of_getLsbD_eq fun i hi => ?_
  rw [hbit i hi]
  cases value.msb <;> simp [hi]

/-- A positive integer and a negative one have different types. -/
theorem IntType.category_signed (ht : t.EncodableInt) (hsigned : t.signed) (value : BitVec t.width) :
    t.category value = if value.msb then .negint else .posint := by
  obtain ⟨w, signed⟩ := t
  simp only at hsigned value
  rw [IntType.category, IntType.signmask_eq ht, hsigned]
  rcases ht with rfl | rfl | rfl | rfl <;> cases value.msb <;> decide

/-- The argument of an integer's head leaves its sign bit free. -/
theorem IntType.uvalue_le (ht : t.EncodableInt) (value : BitVec t.width) :
    (t.uvalue value).toNat ≤ t.maxValue := by
  rw [IntType.uvalue, IntType.maxValue, IntType.signmask_eq ht]
  by_cases hsigned : t.signed
  · rw [if_pos hsigned, if_pos hsigned]
    have hmsb : ((if value.msb then BitVec.allOnes t.width else 0) ^^^ value).msb = false := by
      cases hmsb : value.msb <;> simp [hmsb, ht.width_pos]
    have hlt := BitVec.msb_eq_false_iff_two_mul_lt.mp hmsb
    have hpow : 2 ^ t.width = 2 * 2 ^ (t.width - 1) := by rw [← pow_succ', Nat.sub_add_cancel ht.width_pos]
    omega
  · rw [if_neg hsigned, if_neg hsigned]
    exact Nat.le_sub_one_of_lt value.isLt

/-- The padding of the parser undoes the complement. -/
theorem IntType.uvalue_xor (ht : t.EncodableInt) (hsigned : t.signed) (value : BitVec t.width) :
    (BitVec.ofNat 64 (t.uvalue value).toNat ^^^
      (BitVec.ofNat 64 (t.category value).toByte.toNat <<< 58).sshiftRight 63).setWidth t.width = value := by
  have hpad : ((BitVec.ofNat 64 (t.category value).toByte.toNat <<< 58).sshiftRight 63).setWidth t.width =
      t.signmask value := by
    rw [IntType.category_signed ht hsigned, IntType.signmask_eq ht]
    cases value.msb
    · rw [if_neg Bool.false_ne_true, if_neg Bool.false_ne_true,
        show (BitVec.ofNat 64 TypeCode.posint.toByte.toNat <<< 58).sshiftRight 63 = 0 by decide]
      exact BitVec.setWidth_zero _ _
    · rw [if_pos rfl, if_pos rfl,
        show (BitVec.ofNat 64 TypeCode.negint.toByte.toNat <<< 58).sshiftRight 63 = BitVec.allOnes 64 by decide]
      refine BitVec.eq_of_getLsbD_eq fun i hi => ?_
      have hi64 := hi.trans_le ht.width_le
      rw [BitVec.getLsbD_setWidth, BitVec.getLsbD_allOnes, BitVec.getLsbD_allOnes, decide_eq_true hi,
        decide_eq_true hi64, Bool.true_and]
  rw [BitVec.setWidth_xor, hpad, BitVec.ofNat_toNat, BitVec.setWidth_setWidth_of_le _ ht.width_le,
    BitVec.setWidth_eq, IntType.uvalue, if_pos hsigned, BitVec.xor_comm, ← BitVec.xor_assoc, BitVec.xor_self]
  exact BitVec.zero_xor

/-- Integers come back. -/
theorem takes_parseInteger (ht : t.EncodableInt) (d value : BitVec t.width) :
    ParseTakes (parseInteger t) (Detail.varUintHead (t.category value) (t.uvalue value).toNat) () d value := by
  have hle := IntType.uvalue_le ht value
  have hlt := IntType.uvalue_lt ht value
  by_cases hsigned : t.signed
  · obtain ⟨m, hm, hcategory⟩ := t.category_eq value
    refine .ite_pos hsigned ?_
    have hxor := IntType.uvalue_xor ht hsigned value
    rw [hcategory] at hxor ⊢
    refine ((takes_varUintHead (m := m) (by omega) hlt).onFst d).after (.ite_neg ?_ (.ite_neg ?_ ?_))
    · intro hboth
      obtain ⟨hpos, hneg⟩ := hboth
      rcases hm with rfl | rfl
      · exact hpos rfl
      · exact hneg rfl
    · exact Nat.not_lt.mpr hle
    · show ParseTakes (assign (BitVec.setWidth t.width _)) _ _ _ _
      rw [hxor]
      exact takes_assign _ _
  · have hcategory : t.category value = .posint := if_neg fun h => hsigned h.1
    have huvalue : t.uvalue value = value := if_neg hsigned
    have htakes := takes_parseUnsignedInteger hle hlt d
    rw [huvalue, BitVec.ofNat_toNat, BitVec.setWidth_eq] at htakes
    rw [hcategory, huvalue]
    exact .ite_neg hsigned htakes

end Integers

/-! ### Booleans and floating point numbers -/

theorem takes_parseBoolean (d v : Bool) : ParseTakes parseBoolean [initialByte 7 (20 + v.toNat)] () d v := by
  intro w _ hw
  apply (parseBoolean_memory hw d).trans
  have hrolled : wrapSub 32 (initialByte 7 (20 + v.toNat)).toNat TypeCode.boolFalse.toByte.toNat = v.toNat := by
    cases v <;> decide
  rw [hrolled]
  cases v <;> rfl

/-- The head in front of a floating point pattern. -/
theorem takes_floatHead {p v : Nat} (hp : 1 ≤ p) (hp3 : p ≤ 3) (hv : v < 256 ^ 2 ^ p) :
    InputTakes parseItemHead (initialByte 7 (24 + p) :: toBytes (2 ^ p) v) ⟨.special, 0, 1 + 2 ^ p, v⟩ := by
  have hhead := takes_parseItemHead (m := 7) (by decide) (.payload hp3 (toBytes_length (2 ^ p) v)) fun hbad => by
    have := hbad.2.1
    omega
  rwa [ofBytes_toBytes_of_lt hv, List.length_cons, toBytes_length, Nat.add_comm (2 ^ p)] at hhead

theorem takes_parseFloatSingle (d v : BitVec 32) :
    ParseTakes (parseFloatingPoint .single) (initialByte 7 26 :: toBytes 4 v.toNat) () d v := by
  apply ((takes_floatHead (p := 2) (by decide) (by decide) v.isLt).onFst d).after
  refine .ite_neg (not_or.mpr ⟨fun h => h rfl, (by decide : ¬ 5 < 3)⟩) (.ite_neg (by decide : ¬ 5 = 9) (.ite_pos rfl ?_))
  show ParseTakes (assign (BitVec.ofNat 32 v.toNat)) _ _ _ _
  rw [BitVec.ofNat_toNat, BitVec.setWidth_eq]
  exact takes_assign d v

theorem takes_parseFloatDouble (d v : BitVec 64) :
    ParseTakes (parseFloatingPoint .double) (initialByte 7 27 :: toBytes 8 v.toNat) () d v := by
  apply ((takes_floatHead (p := 3) (by decide) (by decide) v.isLt).onFst d).after
  refine .ite_neg (not_or.mpr ⟨fun h => h rfl, (by decide : ¬ 9 < 3)⟩) (.ite_pos rfl (.ite_pos rfl ?_))
  show ParseTakes (assign (BitVec.ofNat 64 v.toNat)) _ _ _ _
  rw [BitVec.ofNat_toNat, BitVec.setWidth_eq]
  exact takes_assign d v

/-! ### Strings -/

/-- A string comes back where there is memory for it. -/
theorem takes_parseBlob {m : Nat} (hm : m = 2 ∨ m = 3) (B : BlobContainer δ) (allow : Bool) {maxSize : Nat}
    {content : List UInt8} {d d' : δ} (hlen : content.length < wordLimit) (hmax : content.length ≤ maxSize)
    (hresize : B.resize content.length d = some d') :
    ParseTakes (Detail.parseBlob B allow maxSize (.ofMajor m))
      (Detail.varUintHead (.ofMajor m) content.length ++ content) content.length d (B.overwrite 0 content d') := by
  refine ((takes_varUintHead (m := m) (by omega) hlen).onFst d).bind (.ite_neg (fun h => h rfl) (.ite_neg ?_ ?_))
  · simp
  refine takes_onFst_inputSize fun n hn => .ite_neg (Nat.not_lt.mpr hn) (.ite_neg (Nat.not_lt.mpr hmax) ?_)
  have hcontainer : B.containerResize content.length d = (.ok (), d') := by
    rw [BlobContainer.containerResize, hresize]
  have hput : (Action.modify (B.overwrite 0 content) : Action Fault δ Unit) d' = (.ok (), B.overwrite 0 content d') := rfl
  have hread : ParseTakes (Detail.readTo B 0 content.length) content () d' (B.overwrite 0 content d') :=
    (((takes_bulkRead content).onFst d').after (Action.takes_onSnd hput)).spoiling
  exact Action.TakesAhead.before (Action.takes_onSnd hcontainer) (hread.after (Action.takes_pure _))

/-! ### Ranges -/

/-- A range comes back if its elements do. -/
theorem takes_parseArrayLike {m : Nat} (hm : m = 4 ∨ m = 5) {maxSize n : Nat} (hn : n < wordLimit)
    (hmax : n ≤ maxSize) {f : Nat → Parse MemoryInputStream δ Unit} {body : List UInt8} {d d' : δ}
    (hbody : (if m = 5 then 2 else 1) * n ≤ body.length)
    (hf : ParseTakes (Action.forRange f 0 n) body () d d') :
    ParseTakes (Detail.parseArrayLike true maxSize (.ofMajor m) f) (Detail.varUintHead (.ofMajor m) n ++ body) n
      d d' := by
  refine ((takes_varUintHead (m := m) (by omega) hn).onFst d).bind (.ite_neg (fun h => h rfl) (.ite_neg ?_ ?_))
  · simp
  refine takes_onFst_inputSize fun size hsize => .ite_neg (Nat.not_lt.mpr ?_) (.ite_neg (Nat.not_lt.mpr hmax) ?_)
  · have hsize := hbody.trans hsize
    rcases hm with rfl | rfl
    · rw [if_neg (by decide), Nat.one_mul] at hsize
      rwa [if_neg (by decide), Nat.shiftRight_zero]
    · rw [if_pos rfl] at hsize
      rw [if_pos (show TypeCode.ofMajor 5 = TypeCode.map from rfl), Nat.shiftRight_eq_div_pow]
      show n ≤ size / 2
      omega
  · exact hf.after (Action.takes_pure n)

end DeepPack
