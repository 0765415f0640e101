import DeepPack.Items.HeadContract

/-! The head that is expected.

Simple values, floating point numbers and the break share a major type, and only the
length of the head tells a simple value from a number. `expectItemHead` looks at the
argument and does not look at the length. -/
namespace DeepPack
open Library

/-- Additional information 25 to 27 of major type 7: the three floating point formats. -/
def IsFloatHead (m info : Nat) : Prop := m = 7 ∧ 25 ≤ info

/-- The bytes start with a head of this type and argument that is not a number, or with the break where that is
what is asked for. -/
def StartsAsExpected (type : TypeCode) (value : Nat) (b : List UInt8) : Prop :=
  (∃ m info head rest, m < 8 ∧ type = .ofMajor m ∧ b = head ++ rest ∧ Head m info value head ∧
    ¬ BadSimple m info value ∧ ¬ IsFloatHead m info) ∨
  (type = .special ∧ value = 31 ∧ ∃ rest, b = breakByte :: rest)

/-- A special value is asked for, and the bytes start with a number whose bits are those of the value. -/
def StartsWithFloat (type : TypeCode) (value : Nat) (b : List UInt8) : Prop :=
  type = .special ∧ ∃ info head rest, b = head ++ rest ∧ Head 7 info value head ∧ IsFloatHead 7 info

/-- What the parser makes of the head. -/
def expectedHead (type : TypeCode) (value : Nat) (head : ItemHead) : Except Fault Unit :=
  if head.type ≠ type then .error (.errc .itemTypeMismatch)
  else if head.indefinite then
    if type = .special then
      if value = 0x1f then .ok () else .error (.errc .itemTypeMismatch)
    else .error (.errc .indefiniteItem)
  else if head.value ≠ value then .error (.errc .itemValueOutOfRange)
  else .ok ()

variable {type : TypeCode} {value : Nat} {h : ItemHead} {p b rest : List UInt8}

theorem expectedHead_ok :
    expectedHead type value h = .ok () ↔
      h.type = type ∧ if h.indefinite then type = .special ∧ value = 31 else h.value = value := by
  unfold expectedHead
  by_cases htype : h.type = type
  · by_cases hindefinite : h.indefinite
    · by_cases hspecial : type = .special
      · by_cases hvalue : value = 31 <;> simp [htype, hindefinite, hspecial, hvalue]
      · simp [htype, hindefinite, hspecial]
    · by_cases hvalue : h.value = value <;> simp [htype, hindefinite, hvalue]
  · simp [htype]

/-! ### The three kinds of heads -/

theorem breakByte_eq : breakByte = initialByte 7 31 := by decide

theorem ofMajor_special {m : Nat} (hm : m < 8) : TypeCode.ofMajor m = .special ↔ m = 7 :=
  TypeCode.ofMajor_inj (n := 7) hm (by decide)

theorem starts_definite {m info v : Nat} (hm : m < 8) (hhead : Head m info v p) (hgood : ¬ BadSimple m info v) :
    StartsAsExpected (.ofMajor m) v (p ++ rest) ∨ StartsWithFloat (.ofMajor m) v (p ++ rest) := by
  by_cases hfloat : IsFloatHead m info
  · right
    obtain ⟨rfl, hinfo⟩ := hfloat
    exact ⟨rfl, info, p, rest, rfl, hhead, rfl, hinfo⟩
  · exact .inl (.inl ⟨m, info, p, rest, hm, rfl, rfl, hhead, hgood, hfloat⟩)

/-- Both start with one head, of this type and argument. -/
theorem head_of_starts (h : StartsAsExpected type value b ∨ StartsWithFloat type value b) :
    ∃ h p rest, b = p ++ rest ∧ ReadFrom h p ∧ expectedHead type value h = .ok () := by
  rcases h with (⟨m, info, head, rest, hm, rfl, rfl, hhead, hgood, -⟩ | ⟨rfl, rfl, rest, rfl⟩) |
    ⟨rfl, info, head, rest, rfl, hhead, -, hinfo⟩
  · refine ⟨_, head, rest, rfl, .definite hm hhead hgood, ?_⟩
    simp [expectedHead_ok]
  · refine ⟨_, [initialByte 7 31], rest, by rw [breakByte_eq]; rfl, .indefinite (by decide) (by decide), ?_⟩
    simp [expectedHead_ok, TypeCode.ofMajor]
  · have hgood : ¬ BadSimple 7 info value := by
      intro hbad
      have h24 := hbad.2.1
      omega
    refine ⟨_, head, rest, rfl, .definite (by decide) hhead hgood, ?_⟩
    simp [expectedHead_ok, TypeCode.ofMajor]

/-- The head that is expected is of one of the three kinds. -/
theorem starts_of_head (hread : ReadFrom h p) (hok : expectedHead type value h = .ok ()) :
    StartsAsExpected type value (p ++ rest) ∨ StartsWithFloat type value (p ++ rest) := by
  rw [expectedHead_ok] at hok
  obtain ⟨rfl, hvalue⟩ := hok
  cases hread with
  | definite hm hhead hgood =>
    simp only [ItemHead.indefinite_zero, Bool.false_eq_true, if_false] at hvalue
    subst hvalue
    exact starts_definite hm hhead hgood
  | indefinite hm hmay =>
    simp only [ItemHead.indefinite_one, if_true] at hvalue
    obtain ⟨hspecial, rfl⟩ := hvalue
    obtain rfl := (ofMajor_special hm).mp hspecial
    exact .inl (.inr ⟨rfl, rfl, rest, by rw [breakByte_eq]; rfl⟩)

theorem head_first {m info v : Nat} (hhead : Head m info v p) : ∃ payload, p = initialByte m info :: payload := by
  cases hhead with
  | inline => exact ⟨[], rfl⟩
  | payload _ _ => exact ⟨_, rfl⟩

theorem head_info_lt {m info v : Nat} (hhead : Head m info v p) : info < 28 := by
  cases hhead <;> omega

theorem initialByte_special_inj {i j : Nat} (hi : i < 32) (hj : j < 32) (h : initialByte 7 i = initialByte 7 j) :
    i = j := by
  have hinj : ∀ i j : Fin 32, initialByte 7 i = initialByte 7 j → i = j := by decide +kernel
  exact congrArg Fin.val (hinj ⟨i, hi⟩ ⟨j, hj⟩ h)

/-- No head is a number and something else. -/
theorem not_expected_of_float (hfloat : StartsWithFloat type value b) : ¬ StartsAsExpected type value b := by
  intro hexpected
  obtain ⟨rfl, info, head, rest, rfl, hhead, -, hinfo⟩ := hfloat
  have hlt := head_info_lt hhead
  obtain ⟨payload, rfl⟩ := head_first hhead
  rcases hexpected with ⟨m, info', head', rest', hm, htype, heq, hhead', -, hother⟩ | ⟨-, -, rest', heq⟩
  · obtain rfl := (ofMajor_special hm).mp htype.symm
    have hlt' := head_info_lt hhead'
    obtain ⟨payload', rfl⟩ := head_first hhead'
    have hbyte : initialByte 7 info = initialByte 7 info' := (List.cons.inj heq).1
    obtain rfl := initialByte_special_inj (by omega) (by omega) hbyte
    exact hother ⟨rfl, hinfo⟩
  · have hbyte : initialByte 7 info = initialByte 7 31 := (List.cons.inj heq).1.trans breakByte_eq
    have hinfo31 := initialByte_special_inj (by omega) (by omega) hbyte
    omega

/-! ### The parser -/

section Parser
variable {σ : Type} [InputStream σ] {R : RequireContract σ} {s : InputBuffer σ}

theorem expectItemHead_head (hs : R.Valid s) (hread : ReadFrom h p) (hu : R.unread s = p ++ rest) :
    (expectItemHead type value s).1 = expectedHead type value h := by
  obtain ⟨⟨t, ht, -, -⟩, -⟩ := RequireContract.does_readFrom hs hread hu
  unfold expectItemHead expectedHead
  rw [Action.bind_ok _ ht]
  by_cases htype : h.type = type
  · by_cases hindefinite : h.indefinite
    · by_cases hspecial : type = .special
      · by_cases hvalue : value = 0x1f <;> simp [htype, hindefinite, hspecial, hvalue]
      · simp [htype, hindefinite, hspecial]
    · by_cases hvalue : h.value = value <;> simp [htype, hindefinite, hvalue]
  · simp [htype]

theorem expectItemHead_ok (hs : R.Valid s) :
    (expectItemHead type value s).1 = .ok () ↔
      StartsAsExpected type value (R.unread s) ∨ StartsWithFloat type value (R.unread s) := by
  constructor
  · intro hok
    by_cases hno : ∀ h p rest, ReadFrom h p → R.unread s ≠ p ++ rest
    · obtain ⟨e, ⟨t, ht, -, -⟩, -⟩ := RequireContract.does_noHead hs hno
      rw [expectItemHead, Action.bind_error _ ht] at hok
      cases hok
    · simp only [not_forall, not_not] at hno
      obtain ⟨h, p, rest, hread, hu⟩ := hno
      rw [expectItemHead_head hs hread hu] at hok
      rw [hu]
      exact starts_of_head hread hok
  · intro hstarts
    obtain ⟨h, p, rest, hu, hread, hok⟩ := head_of_starts hstarts
    rw [expectItemHead_head hs hread hu]
    exact hok

end Parser

/-- The expected head is found where it is, and only there, except that a number is taken for the special value
with the same bits. -/
theorem expectItemHead_accepts {σ : Type} [InputStream σ] (R : RequireContract σ) {s : InputBuffer σ}
    (hs : R.Valid s) :
    ((expectItemHead type value s).1 = .ok () ↔ StartsAsExpected type value (R.unread s)) ↔
      ¬ StartsWithFloat type value (R.unread s) := by
  rw [expectItemHead_ok hs]
  constructor
  · intro hiff hfloat
    exact not_expected_of_float hfloat (hiff.mp (.inr hfloat))
  · intro hno
    exact ⟨fun hor => hor.resolve_right hno, .inl⟩

/-- The first simple value that takes a byte of its own. -/
theorem expectItemHead_accepts_simple :
    ((expectItemHead .special 32 (memoryInput [0xf8, 0x20])).1 = .ok () ↔
      StartsAsExpected .special 32 [0xf8, 0x20]) ↔ ¬ StartsWithFloat .special 32 [0xf8, 0x20] :=
  expectItemHead_accepts MemoryInputStream.contract.toRequire
    (MemoryInputStream.valid_memory (b := [0xf8, 0x20]) (by decide))

/-- A half precision number is taken for `false`. -/
theorem expectItemHead_takes_float : ¬ ∀ type value (b : List UInt8), b.length < wordLimit →
    ((expectItemHead type value (memoryInput b)).1 = .ok () ↔ StartsAsExpected type value b) := by
  intro h
  have hfloat : StartsWithFloat .special 20 [0xf9, 0x00, 0x14] :=
    ⟨rfl, 24 + 1, _, [], rfl,
      .payload (show 1 ≤ 3 by decide) (show ([0x00, 0x14] : List UInt8).length = 2 from rfl), rfl, by decide⟩
  have hok : (expectItemHead .special 20 (memoryInput [0xf9, 0x00, 0x14])).1 = .ok () := by decide +kernel
  exact not_expected_of_float hfloat ((h .special 20 [0xf9, 0x00, 0x14] (by decide)).mp hok)

end DeepPack
