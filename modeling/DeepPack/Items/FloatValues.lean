import DeepPack.Library.FloatFormats
import DeepPack.Items.HeadContract
import DeepPack.Items.RoundTrip
import DeepPack.Items.ItemSize

/-! The numbers the heads of floats stand for, and what the parser of floats makes of them.

A head of three, five or nine bytes carries a pattern of half, single or double precision.
Where the destination is of another precision, the number stays the same: the conversions
are exact, those of subnormal numbers, of infinities and of zeros with a sign as well. -/
namespace DeepPack
open Library FloatFormat

namespace Detail

/-! ### Loading a small integer -/

/-- A number of at most `k + 1` bits times a power of two, as a `double`: the bits behind the leading one are moved to
the front of the significand. -/
theorem ldexp_eq {m k : Nat} (scale : Int) (hpos : 0 < m) (hlt : m < 2 ^ (k + 1)) (hk : k ≤ 52)
    (hlow : 1 - 1023 ≤ Nat.log2 m + scale) (hhigh : Nat.log2 m + scale < 1024) :
    ∃ exponent significand, ldexp m scale = exponent * 2 ^ 52 + significand * 2 ^ (52 - k) ∧
      significand < 2 ^ k ∧ (exponent : Int) = 1023 + Nat.log2 m + scale ∧
      double.magnitude exponent (significand * 2 ^ (52 - k)) = .finite false (m * 2 ^ scale) := by
  have hle : 2 ^ Nat.log2 m ≤ m := Nat.log2_self_le (by omega)
  have hself : m < 2 ^ (Nat.log2 m + 1) := Nat.lt_log2_self
  have htop : Nat.log2 m ≤ k := Nat.lt_succ_iff.mp ((Nat.log2_lt (by omega)).mpr hlt)
  simp only [ldexp, Nat.shiftLeft_eq]
  generalize Nat.log2 m = top at *
  obtain ⟨low, rfl⟩ : ∃ low, m = 2 ^ top + low := ⟨m - 2 ^ top, by omega⟩
  obtain ⟨exponent, hexponent⟩ : ∃ exponent : Nat, 1023 + (top : Int) + scale = exponent :=
    ⟨(1023 + top + scale).toNat, (Int.toNat_of_nonneg (by omega)).symm⟩
  have hlow : low < 2 ^ top := by
    rw [pow_succ] at hself
    omega
  have hmoved : low * 2 ^ (k - top) * 2 ^ (52 - k) = low * 2 ^ (52 - top) := by
    rw [Nat.mul_assoc, ← pow_add]
    congr 2
    omega
  have hunit : (2 : ℚ) ^ (52 - top) * double.ulp exponent = 2 ^ scale := by
    have hbias : double.bias = 1023 := rfl
    have hbits : double.significandBits = 52 := rfl
    rw [ulp, hbias, hbits, ← hexponent, ← zpow_natCast, ← zpow_add₀ (by decide)]
    congr 1
    omega
  refine ⟨exponent, low * 2 ^ (k - top), ?_, ?_, hexponent.symm, ?_⟩
  · rw [hexponent, Int.toNat_natCast, Nat.add_sub_cancel_left, hmoved]
  · calc low * 2 ^ (k - top) < 2 ^ top * 2 ^ (k - top) := Nat.mul_lt_mul_of_pos_right hlow (Nat.two_pow_pos _)
      _ = 2 ^ k := by rw [← pow_add, Nat.add_sub_of_le htop]
  · rw [double.magnitude_normal (by omega) (by show exponent ≠ 2 ^ 11 - 1; omega), hmoved, ← hunit, ← mul_assoc]
    congr 2
    have hone : (2 : ℚ) ^ double.significandBits = 2 ^ top * 2 ^ (52 - top) := by
      rw [← pow_add, Nat.add_sub_of_le (by omega)]
      rfl
    rw [hone]
    push_cast
    ring

/-! ### Conversions -/

/-- The double a half precision pattern is loaded as: a normal number if it is not zero, and a significand of ten bits. -/
theorem loadIec559Half_eq (bits : Nat) :
    ∃ exponent significand, significand < 2 ^ 10 ∧
      (exponent = 0 ∧ significand = 0 ∨ 896 < exponent ∧ exponent < 1151 ∨ exponent = 2047) ∧
      double.magnitude exponent (significand * 2 ^ 42) = half.magnitude (bits / 2 ^ 10 % 2 ^ 5) (bits % 2 ^ 10) ∧
      loadIec559Half bits = if bits / 2 ^ 15 % 2 = 0 then exponent * 2 ^ 52 + significand * 2 ^ 42
        else exponent * 2 ^ 52 + significand * 2 ^ 42 + 2 ^ 63 := by
  have hlt : bits % 2 ^ 10 < 2 ^ 10 := Nat.mod_lt _ (Nat.two_pow_pos 10)
  have hexp : bits / 2 ^ 10 % 2 ^ 5 < 2 ^ 5 := Nat.mod_lt _ (Nat.two_pow_pos 5)
  simp only [loadIec559Half, show (0x400 : Nat) = 2 ^ 10 from rfl, show (0x20 : Nat) = 2 ^ 5 from rfl,
    show (0x8000 : Nat) = 2 ^ 15 from rfl, show (0x1f : Nat) = 2 ^ 5 - 1 from rfl]
  generalize bits % 2 ^ 10 = significand at *
  generalize bits / 2 ^ 10 % 2 ^ 5 = exponent at *
  by_cases hzero : exponent = 0
  · subst hzero
    rw [if_pos rfl]
    by_cases hsig : significand = 0
    · subst hsig
      rw [if_pos rfl]
      exact ⟨0, 0, by decide, .inl ⟨rfl, rfl⟩, double.magnitude_zero.trans half.magnitude_zero.symm, rfl⟩
    · have htop : Nat.log2 significand < 11 := (Nat.log2_lt hsig).mpr (by omega)
      obtain ⟨e, s, heq, hs, he, hmagnitude⟩ := ldexp_eq (k := 10) (-24) (Nat.pos_of_ne_zero hsig)
        (by omega) (by decide) (by omega) (by omega)
      rw [if_neg hsig]
      exact ⟨e, s, hs, .inr (.inl (by omega)), hmagnitude, by rw [heq]⟩
  rw [if_neg hzero]
  by_cases hmax : exponent = 2 ^ 5 - 1
  · rw [if_neg (not_not.mpr hmax), hmax]
    by_cases hsig : significand = 0
    · subst hsig
      exact ⟨2047, 0, by decide, .inr (.inr rfl),
        (double.magnitude_infinite (by decide)).trans (half.magnitude_infinite (by decide)).symm, rfl⟩
    · rw [if_neg hsig]
      exact ⟨2047, 2 ^ 9, by decide, .inr (.inr rfl),
        (double.magnitude_nan (by decide) (by decide)).trans (half.magnitude_nan (by decide) hsig).symm, rfl⟩
  · have htop : Nat.log2 (significand + 2 ^ 10) = 10 :=
      (Nat.log2_eq_iff (by omega)).mpr ⟨Nat.le_add_left _ _, by omega⟩
    obtain ⟨e, s, heq, hs, he, hmagnitude⟩ := ldexp_eq (k := 10) (m := significand + 2 ^ 10) (exponent - 25)
      (by omega) (by omega) (by decide) (by omega) (by omega)
    rw [if_pos hmax, half.magnitude_normal hzero hmax]
    refine ⟨e, s, hs, .inr (.inl (by omega)), hmagnitude.trans ?_, by rw [heq]⟩
    have hulp : half.ulp exponent = 2 ^ ((exponent : Int) - 25) := by
      have hbias : half.bias = 15 := rfl
      have hbits : half.significandBits = 10 := rfl
      rw [ulp, hbias, hbits]
      congr 1
      omega
    have hone : (2 : ℚ) ^ half.significandBits = 2 ^ 10 := rfl
    rw [hulp, hone]
    congr 2
    push_cast
    ring

/-- The payload of what is not a number is kept behind the bit that makes it quiet. -/
theorem quietNaN_or {payload : Nat} (h : payload < 2 ^ 52) :
    ∃ significand, significand < 2 ^ 52 ∧ significand ≠ 0 ∧ quietNaN ||| payload = 2047 * 2 ^ 52 + significand := by
  have hlt : 2 ^ 51 ||| payload < 2 ^ 52 := Nat.or_lt_two_pow (by decide) h
  refine ⟨2 ^ 51 ||| payload, hlt, Nat.ne_of_gt (Nat.lt_of_lt_of_le (Nat.two_pow_pos 51) Nat.left_le_or), ?_⟩
  rw [← Nat.shiftLeft_eq, Nat.shiftLeft_add_eq_or_of_lt hlt, ← Nat.or_assoc]
  rfl

/-- The double of a single precision pattern. -/
theorem widen_eq (bits : Nat) :
    ∃ exponent significand, exponent < 2 ^ 11 ∧ significand < 2 ^ 52 ∧
      double.magnitude exponent significand = single.magnitude (bits / 2 ^ 23 % 2 ^ 8) (bits % 2 ^ 23) ∧
      widen bits = if bits / 2 ^ 31 % 2 = 0 then exponent * 2 ^ 52 + significand
        else exponent * 2 ^ 52 + significand + 2 ^ 63 := by
  have hlt : bits % 2 ^ 23 < 2 ^ 23 := Nat.mod_lt _ (Nat.two_pow_pos 23)
  have hexp : bits / 2 ^ 23 % 2 ^ 8 < 2 ^ 8 := Nat.mod_lt _ (Nat.two_pow_pos 8)
  simp only [widen, show (256 : Nat) = 2 ^ 8 from rfl, show (255 : Nat) = 2 ^ 8 - 1 from rfl, Nat.shiftLeft_eq]
  generalize bits % 2 ^ 23 = significand at *
  generalize bits / 2 ^ 23 % 2 ^ 8 = exponent at *
  by_cases hzero : exponent = 0
  · subst hzero
    rw [if_pos rfl]
    by_cases hsig : significand = 0
    · subst hsig
      rw [if_pos rfl]
      exact ⟨0, 0, by decide, by decide, double.magnitude_zero.trans single.magnitude_zero.symm, rfl⟩
    · have htop : Nat.log2 significand < 23 := (Nat.log2_lt hsig).mpr (by omega)
      obtain ⟨e, s, heq, hs, he, hmagnitude⟩ := ldexp_eq (k := 23) (-149) (Nat.pos_of_ne_zero hsig)
        (by omega) (by decide) (by omega) (by omega)
      rw [if_neg hsig]
      exact ⟨e, s * 2 ^ 29, by omega, by omega, hmagnitude, by rw [heq]⟩
  rw [if_neg hzero]
  by_cases hmax : exponent = 2 ^ 8 - 1
  · rw [if_neg (not_not.mpr hmax), hmax]
    by_cases hsig : significand = 0
    · subst hsig
      exact ⟨2047, 0, by decide, by decide,
        (double.magnitude_infinite (by decide)).trans (single.magnitude_infinite (by decide)).symm, rfl⟩
    · have hpayload : significand * 2 ^ 29 < 2 ^ 52 := by omega
      obtain ⟨s, hs, hne, heq⟩ := quietNaN_or hpayload
      rw [if_neg hsig, heq]
      exact ⟨2047, s, by decide, hs,
        (double.magnitude_nan (by decide) hne).trans (single.magnitude_nan (by decide) hsig).symm, rfl⟩
  · rw [if_pos hmax]
    refine ⟨exponent + 896, significand * 2 ^ 29, by omega, by omega, ?_, rfl⟩
    exact single.magnitude_widen hzero hmax (by omega) (by show exponent + 896 ≠ 2 ^ 11 - 1; omega)
      (by show ((exponent + 896 : Nat) : Int) - 1023 = exponent - 127; omega) rfl

/-- A double whose significand has but 23 bits, and that is not too small or too large, is narrowed to the same number. -/
theorem narrow_eq {exponent significand : Nat} (hsig : significand < 2 ^ 23)
    (hexp : exponent = 0 ∧ significand = 0 ∨ 896 < exponent ∧ exponent < 1151 ∨ exponent = 2047) (positive : Prop)
    [Decidable positive] :
    ∃ exponent', exponent' < 2 ^ 8 ∧ single.magnitude exponent' significand = double.magnitude exponent (significand * 2 ^ 29) ∧
      narrow (if positive then exponent * 2 ^ 52 + significand * 2 ^ 29 else exponent * 2 ^ 52 + significand * 2 ^ 29 + 2 ^ 63) =
        if positive then exponent' * 2 ^ 23 + significand else exponent' * 2 ^ 23 + significand + 2 ^ 31 := by
  have hfields : ∀ bits, (bits = exponent * 2 ^ 52 + significand * 2 ^ 29 ∨
      bits = exponent * 2 ^ 52 + significand * 2 ^ 29 + 2 ^ 63) →
      bits / 2 ^ 52 % 2048 = exponent ∧ bits % 2 ^ 52 = significand * 2 ^ 29 := by
    intro bits hbits
    constructor <;> omega
  have hshift : (significand * 2 ^ 29) >>> 29 = significand := by
    rw [Nat.shiftRight_eq_div_pow, Nat.mul_div_cancel _ (Nat.two_pow_pos 29)]
  -- the exponent is moved, that of zero and the largest stay what they are
  obtain ⟨exponent', hexp', hmagnitude, hvalue⟩ : ∃ exponent', exponent' < 2 ^ 8 ∧
      single.magnitude exponent' significand = double.magnitude exponent (significand * 2 ^ 29) ∧
      (if exponent = 0 then 0 else if exponent ≠ 2047 then (exponent - 896) * 2 ^ 23 + significand
        else 255 * 2 ^ 23 + significand) = exponent' * 2 ^ 23 + significand := by
    rcases hexp with ⟨rfl, rfl⟩ | ⟨hlow, hhigh⟩ | rfl
    · exact ⟨0, by decide, single.magnitude_zero.trans double.magnitude_zero.symm, rfl⟩
    · refine ⟨exponent - 896, by omega, ?_, by rw [if_neg (by omega), if_pos (by omega)]⟩
      exact (single.magnitude_widen (by omega) (by show exponent - 896 ≠ 2 ^ 8 - 1; omega) (by omega)
        (by show exponent ≠ 2 ^ 11 - 1; omega) (by show (exponent : Int) - 1023 = (exponent - 896 : Nat) - 127; omega)
        rfl).symm
    · refine ⟨255, by decide, ?_, rfl⟩
      by_cases hzero : significand = 0
      · subst hzero
        exact (single.magnitude_infinite (by decide)).trans (double.magnitude_infinite (by decide)).symm
      · have hne : significand * 2 ^ 29 ≠ 0 := Nat.mul_ne_zero hzero (by decide)
        exact (single.magnitude_nan (by decide) hzero).trans (double.magnitude_nan (by decide) hne).symm
  refine ⟨exponent', hexp', hmagnitude, ?_⟩
  by_cases hpositive : positive
  · obtain ⟨hexponent, hsignificand⟩ := hfields _ (.inl rfl)
    rw [if_pos hpositive, if_pos hpositive]
    simp only [narrow, hexponent, hsignificand, hshift, Nat.shiftLeft_eq, hvalue]
    exact if_pos (by omega)
  · obtain ⟨hexponent, hsignificand⟩ := hfields _ (.inr rfl)
    rw [if_neg hpositive, if_neg hpositive]
    simp only [narrow, hexponent, hsignificand, hshift, Nat.shiftLeft_eq, hvalue]
    exact if_neg (by omega)

/-! ### The numbers stay the same -/

theorem denote_loadIec559Half (bits : Nat) : double.denote (loadIec559Half bits) = half.denote bits := by
  obtain ⟨e, s, hs, hexp, hmagnitude, heq⟩ := loadIec559Half_eq bits
  have he : e < 2 ^ double.exponentBits := by show e < 2 ^ 11; omega
  have hs' : s * 2 ^ 42 < 2 ^ double.significandBits := by show s * 2 ^ 42 < 2 ^ 52; omega
  calc double.denote (loadIec559Half bits)
      = _ := congrArg double.denote heq
    _ = _ := double.denote_ite he hs' (bits / 2 ^ 15 % 2 = 0)
    _ = half.denote bits := by rw [hmagnitude]; rfl

theorem denote_widen (bits : Nat) : double.denote (widen bits) = single.denote bits := by
  obtain ⟨e, s, he, hs, hmagnitude, heq⟩ := widen_eq bits
  calc double.denote (widen bits)
      = _ := congrArg double.denote heq
    _ = _ := double.denote_ite he hs (bits / 2 ^ 31 % 2 = 0)
    _ = single.denote bits := by rw [hmagnitude]; rfl

theorem denote_narrow_half (bits : Nat) : single.denote (narrow (loadIec559Half bits)) = half.denote bits := by
  obtain ⟨e, s, hs, hexp, hmagnitude, heq⟩ := loadIec559Half_eq bits
  have hwide : s * 2 ^ 42 = s * 2 ^ 13 * 2 ^ 29 := by omega
  have hs' : s * 2 ^ 13 < 2 ^ single.significandBits := by show s * 2 ^ 13 < 2 ^ 23; omega
  have hexp' : e = 0 ∧ s * 2 ^ 13 = 0 ∨ 896 < e ∧ e < 1151 ∨ e = 2047 := by omega
  obtain ⟨e', he', hmagnitude', heq'⟩ := narrow_eq hs' hexp' (bits / 2 ^ 15 % 2 = 0)
  rw [hwide] at heq hmagnitude
  calc single.denote (narrow (loadIec559Half bits))
      = _ := congrArg single.denote ((congrArg narrow heq).trans heq')
    _ = _ := single.denote_ite he' hs' (bits / 2 ^ 15 % 2 = 0)
    _ = half.denote bits := by rw [hmagnitude', hmagnitude]; rfl

end Detail

def FloatType.format : FloatType → FloatFormat
  | .single => FloatFormat.single
  | .double => FloatFormat.double

/-- `emit_float_single` and `emit_float_double`. -/
def FloatType.emit {σ : Type} [OutputStream σ] : (t : FloatType) → BitVec t.width → Output σ Unit
  | .single => emitFloatSingle
  | .double => emitFloatDouble

/-- The format of the pattern a head carries. -/
def ItemHead.floatFormat (h : ItemHead) : Option FloatFormat :=
  if h.type ≠ .special then none
  else match h.encodedLength with
    | 3 => some half
    | 5 => some single
    | 9 => some double
    | _ => none

/-- The pattern of a type's format, as a value of the type. -/
theorem FloatType.denote_ofNat (t : FloatType) (bits : Nat) :
    t.format.denote (BitVec.ofNat t.width bits).toNat = t.format.denote bits := by
  have hwidth : t.width = t.format.magnitudeBits + 1 := by cases t <;> rfl
  rw [BitVec.toNat_ofNat, hwidth, denote_mod]

namespace RequireContract
variable {σ : Type} [InputStream σ] {R : RequireContract σ} {s : InputBuffer σ} {h : ItemHead} {p rest : List UInt8}

/-- The destination holds the number of the head, or is untouched and the error says why. -/
def DenotesFloat (R : RequireContract σ) (t : FloatType) (s : InputBuffer σ) (d : BitVec t.width) (rest : List UInt8)
    (h : ItemHead) : Prop :=
  match h.floatFormat with
  | none => R.Parses (parseFloatingPoint t) s d (.error (.errc .itemTypeMismatch)) d rest
  | some F =>
    (F.magnitudeBits ≤ t.format.magnitudeBits → ∃ v, t.format.denote v.toNat = F.denote h.value ∧
      R.Parses (parseFloatingPoint t) s d (.ok ()) v rest) ∧
    (¬ F.magnitudeBits ≤ t.format.magnitudeBits →
      R.Parses (parseFloatingPoint t) s d (.error (.errc .itemValueOutOfRange)) d rest)

/-- The head is not that of a pattern. -/
theorem parses_mismatch (t : FloatType) (hs : R.Valid s) (hread : ReadFrom h p) (hu : R.unread s = p ++ rest)
    (d : BitVec t.width) (hno : h.type ≠ .special ∨ h.encodedLength < 3) :
    R.Parses (parseFloatingPoint t) s d (.error (.errc .itemTypeMismatch)) d rest := by
  refine Parses.head hs hread hu fun s' hvs' hus' => ?_
  rw [if_pos hno]
  exact ⟨s', rfl, hvs', hus'⟩

theorem denotesFloat_parseFloatingPoint (t : FloatType) (hs : R.Valid s) (hread : ReadFrom h p)
    (hu : R.unread s = p ++ rest) (d : BitVec t.width) : R.DenotesFloat t s d rest h := by
  have hlen := hread.length_mem
  rw [← hread.encodedLength_eq] at hlen
  by_cases htype : h.type = .special
  · have hpattern : ∀ {r d'}, ¬ h.encodedLength < 3 → (∀ s', R.Valid s' → R.unread s' = rest → R.Parses
        (if h.encodedLength = 9 then
          if t = .double then assign (BitVec.ofNat t.width h.value) else err .itemValueOutOfRange
        else if h.encodedLength = 5 then
          assign (BitVec.ofNat t.width (if t = .double then Detail.widen h.value else h.value))
        else
          assign (BitVec.ofNat t.width (if t = .double then Detail.loadIec559Half h.value
            else Detail.narrow (Detail.loadIec559Half h.value)))) s' d r d' rest) →
        R.Parses (parseFloatingPoint t) s d r d' rest := by
      intro r d' hge hbody
      refine Parses.head hs hread hu fun s' hvs' hus' => ?_
      rw [if_neg (not_or.mpr ⟨not_not.mpr htype, hge⟩)]
      exact hbody s' hvs' hus'
    rw [DenotesFloat, ItemHead.floatFormat, if_neg (not_not.mpr htype)]
    simp only [List.mem_cons, List.not_mem_nil, or_false] at hlen
    rcases hlen with hlen | hlen | hlen | hlen | hlen <;> simp only [hlen] at hpattern ⊢
    · exact parses_mismatch t hs hread hu d (.inr (by omega))
    · exact parses_mismatch t hs hread hu d (.inr (by omega))
    · refine ⟨fun _ => ⟨_, ?_, hpattern (by decide) fun s' hvs' hus' => ⟨s', rfl, hvs', hus'⟩⟩, fun hwide => ?_⟩
      · refine (t.denote_ofNat _).trans ?_
        cases t with
        | single => exact Detail.denote_narrow_half h.value
        | double => exact Detail.denote_loadIec559Half h.value
      · exact absurd (by cases t <;> decide) hwide
    · refine ⟨fun _ => ⟨_, ?_, hpattern (by decide) fun s' hvs' hus' => ⟨s', rfl, hvs', hus'⟩⟩, fun hwide => ?_⟩
      · refine (t.denote_ofNat _).trans ?_
        cases t with
        | single => rfl
        | double => exact Detail.denote_widen h.value
      · exact absurd (by cases t <;> decide) hwide
    · cases t with
      | single =>
        refine ⟨fun hwide => absurd hwide (by decide), fun _ => ?_⟩
        exact hpattern (by decide) fun s' hvs' hus' => ⟨s', rfl, hvs', hus'⟩
      | double =>
        refine ⟨fun _ => ⟨_, ?_, hpattern (by decide) fun s' hvs' hus' => ⟨s', rfl, hvs', hus'⟩⟩,
          fun hwide => absurd (Nat.le_refl _) hwide⟩
        exact FloatType.denote_ofNat .double h.value
  · rw [DenotesFloat, ItemHead.floatFormat, if_pos htype]
    exact parses_mismatch t hs hread hu d (.inl htype)

end RequireContract

/-- What the emitter of floats puts out is the head of the pattern. -/
theorem FloatType.readFrom_emit (u : FloatType) (v : BitVec u.width) :
    ∃ h, ReadFrom h (Emitter.bytes fun _ _ => u.emit v) ∧ h.floatFormat = some u.format ∧ h.value = v.toNat := by
  have hhead : ∀ {k pattern : Nat}, 1 ≤ k → k ≤ 3 → pattern < 256 ^ 2 ^ k →
      ReadFrom ⟨.special, 0, 1 + 2 ^ k, pattern⟩ (initialByte 7 (24 + k) :: toBytes (2 ^ k) pattern) := by
    intro k pattern hk hk3 hlt
    have hread := ReadFrom.definite (m := 7) (by decide) (.payload hk3 (toBytes_length (2 ^ k) pattern)) fun hbad => by
      have := hbad.2.1
      omega
    rwa [ofBytes_toBytes_of_lt hlt, List.length_cons, toBytes_length, Nat.add_comm (2 ^ k)] at hread
  cases u with
  | single =>
    have hbytes : (Emitter.bytes fun _ _ => FloatType.single.emit v) = _ := (puts_emitFloatSingle v).bytes_eq
    exact ⟨_, hbytes ▸ hhead (k := 2) (by decide) (by decide) v.isLt, rfl, rfl⟩
  | double =>
    have hbytes : (Emitter.bytes fun _ _ => FloatType.double.emit v) = _ := (puts_emitFloatDouble v).bytes_eq
    exact ⟨_, hbytes ▸ hhead (k := 3) (by decide) (by decide) v.isLt, rfl, rfl⟩

/-- The parser of floats makes of a head the number the head stands for, or says that its type cannot hold the numbers
of the head's format. What either emitter puts out is the same number to it, where it is no narrower. -/
theorem parseFloatingPoint_denotes (t : FloatType) :
    (∀ {σ : Type} [InputStream σ] (R : RequireContract σ) (s : InputBuffer σ) (h : ItemHead) (p rest : List UInt8)
      (d : BitVec t.width), R.Valid s → ReadFrom h p → R.unread s = p ++ rest → R.DenotesFloat t s d rest h) ∧
    ∀ (u : FloatType) (v : BitVec u.width), u.width ≤ t.width →
      ∀ {σ : Type} [InputStream σ] (R : RequireContract σ) (s : InputBuffer σ) (rest : List UInt8) (d : BitVec t.width),
        R.Valid s → R.unread s = (Emitter.bytes fun _ _ => u.emit v) ++ rest →
          ∃ w, t.format.denote w.toNat = u.format.denote v.toNat ∧ R.Parses (parseFloatingPoint t) s d (.ok ()) w rest := by
  constructor
  · exact fun R s h p rest d hs hread hu => RequireContract.denotesFloat_parseFloatingPoint t hs hread hu d
  · intro u v hwidth σ _ R s rest d hs hu
    obtain ⟨h, hread, hformat, hvalue⟩ := u.readFrom_emit v
    have hdenotes := RequireContract.denotesFloat_parseFloatingPoint t hs hread hu d
    have hle : u.format.magnitudeBits ≤ t.format.magnitudeBits := by
      revert hwidth
      cases u <;> cases t <;> decide
    rw [RequireContract.DenotesFloat, hformat] at hdenotes
    exact hvalue ▸ hdenotes.1 hle

/-- The smallest subnormal number of half precision is a normal one to a `float`. -/
theorem parseFloatingPoint_denotes_half :
    ∃ v : BitVec 32, single.denote v.toNat = half.denote 1 ∧
      MemoryInputStream.contract.toRequire.Parses (parseFloatingPoint .single) (memoryInput [0xf9, 0x00, 0x01]) 0#32 (.ok ())
        v [] :=
  ((parseFloatingPoint_denotes .single).1 MemoryInputStream.contract.toRequire (memoryInput [0xf9, 0x00, 0x01])
    ⟨.special, 0, 3, 1⟩ [0xf9, 0x00, 0x01] [] 0#32 (MemoryInputStream.valid_memory (by decide))
    (.definite (m := 7) (by decide) (.payload (p := 1) (by decide) (show [(0x00 : UInt8), 0x01].length = 2 ^ 1 from rfl))
      fun hbad => absurd hbad.2.1 (by decide)) rfl).1 (by decide)

end DeepPack
