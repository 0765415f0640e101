import DeepPack.Items.HeadContract
import DeepPack.Items.ItemSize

/-! The heads of arguments: the shortest there are, on both paths.

Near the end of a buffer `storeVarUint` hands over to `storeVarUintEos`; what it passes
on is `storeVarUintNearEnd`. Both commit `varUintHead`, no head of the type and the
value is shorter, every size function knows its length, and it is parsed back. -/
namespace DeepPack
open Library OutputBuffer

namespace Detail
variable {σ : Type} [OutputStream σ] {digits value : Nat} {category : TypeCode}

/-- What `store_var_uint` makes of its arguments for `store_var_uint_eos`. -/
def storeVarUintNearEnd (value : Nat) (category : TypeCode) : Output σ Unit :=
  let rcategory := category.toByte.toNat
  if value ≤ inlineValueMax then
    storeVarUintEos (value + rcategory) (wrapSub 32 (value + rcategory) inlineValueMax) 1 1
  else
    let bytePowerPlus2 := findLastSetBit (findLastSetBit value)
    storeVarUintEos value rcategory bytePowerPlus2 (1 + (2 <<< bytePowerPlus2) >>> 3)

theorem storeVarUint_nearEnd (digits value : Nat) (category : TypeCode) {s : OutputBuffer σ}
    (h : s.free.length < 1 + digits / 8) : storeVarUint digits value category s = storeVarUintNearEnd value category s := by
  have hcoded : ∀ value rcategory bytePowerPlus2 bitSize byteSize,
      storeCoded digits value rcategory bytePowerPlus2 bitSize byteSize s =
        storeVarUintEos value rcategory bytePowerPlus2 byteSize s := by
    intro value rcategory bytePowerPlus2 bitSize byteSize
    rw [storeCoded, size, Action.gets_bind_apply, if_pos h]
  unfold storeVarUint storeVarUintNearEnd
  by_cases hinline : value ≤ inlineValueMax
  · rw [if_pos hinline, if_pos hinline]
    exact hcoded _ _ _ _ _
  · rw [if_neg hinline, if_neg hinline]
    exact hcoded _ _ _ _ _

/-- What is enough for the end of the buffer is enough everywhere: no free memory is asked for beyond the head. -/
theorem emits_storeVarUintNearEnd {C : OutputContract σ} (hv : value < wordLimit)
    (hcat : category.toByte.toNat % 32 = 0) :
    Emits C (storeVarUintNearEnd value category) (varUintHead category value) := by
  unfold storeVarUintNearEnd varUintHead
  by_cases hinline : value ≤ inlineValueMax
  · rw [if_pos hinline, if_pos hinline, Nat.add_comm category.toByte.toNat]
    exact emits_byte _
  · obtain ⟨hpower, -⟩ := findLastSetBit_bounds (Nat.lt_of_not_le hinline)
    have hp : bytePower value ≤ 3 := bytePower_le (p := 3) hv
    have hsize : 1 + (2 <<< (bytePower value + 2)) >>> 3 = 1 + 2 ^ bytePower value := by
      generalize bytePower value = p at hp
      interval_cases p <;> rfl
    rw [if_neg hinline, if_neg hinline]
    dsimp only
    rw [hpower, hsize]
    exact emits_storeVarUintEos hcat hp

/-- No head of a type and a value is shorter than the one that is emitted. -/
theorem varUintHead_shortest {m info v : Nat} {p : List UInt8} (h : Head m info v p) (category : TypeCode) :
    (varUintHead category v).length ≤ p.length := by
  rw [varUintHead]
  by_cases hinline : v ≤ inlineValueMax
  · rw [if_pos hinline]
    exact h.length_pos
  · rw [if_neg hinline]
    cases h with
    | inline hv => exact absurd hv hinline
    | payload hp hlen =>
      rename_i power bytes
      have hlt := ofBytes_lt bytes
      rw [hlen] at hlt
      rw [List.length_cons, List.length_cons, toBytes_length, hlen]
      exact Nat.succ_le_succ (Nat.pow_le_pow_right (by decide) (bytePower_le hlt))

end Detail

/-- The emitter of heads is minimal on both of its paths, and what it commits is parsed back. -/
theorem storeVarUint_minimal {m digits v : Nat} (hm : m < 7) (hd : digits = 32 ∨ digits = 64) (hv : v < 2 ^ digits) :
    (∀ {σ : Type} [OutputStream σ] (C : OutputContract σ),
      Emits C (Detail.storeVarUint digits v (.ofMajor m)) (Detail.varUintHead (.ofMajor m) v) ∧
      Emits C (Detail.storeVarUintNearEnd v (.ofMajor m)) (Detail.varUintHead (.ofMajor m) v)) ∧
    (∀ {σ : Type} [OutputStream σ] (s : OutputBuffer σ), s.free.length < 1 + digits / 8 →
      Detail.storeVarUint digits v (.ofMajor m) s = Detail.storeVarUintNearEnd v (.ofMajor m) s) ∧
    (∃ info, Head m info v (Detail.varUintHead (.ofMajor m) v)) ∧
    (∀ info p, Head m info v p → (Detail.varUintHead (.ofMajor m) v).length ≤ p.length) ∧
    encodedItemHeadSize (.ofMajor m) v = UInt64.ofNat (Detail.varUintHead (.ofMajor m) v).length ∧
    Detail.varUintEncodedSizeCt v = (Detail.varUintHead (.ofMajor m) v).length ∧
    Detail.varUintEncodedSizeBranching v = (Detail.varUintHead (.ofMajor m) v).length ∧
    (∀ {σ : Type} [InputStream σ] (R : RequireContract σ) (s : InputBuffer σ) (rest : List UInt8), R.Valid s →
      R.unread s = Detail.varUintHead (.ofMajor m) v ++ rest →
      R.Does parseItemHead s
        (.ok ⟨.ofMajor m, 0, (Detail.varUintHead (.ofMajor m) v).length, v⟩) rest) := by
  have hcat : (TypeCode.ofMajor m).toByte.toNat % 32 = 0 := by
    rw [Detail.toByte_ofMajor (by omega), Nat.mul_mod_left]
  have hword : v < wordLimit := by
    rcases hd with rfl | rfl
    · exact hv.trans (by decide)
    · exact hv
  obtain ⟨info, hhead⟩ := Detail.head_varUintHead (m := m) (by omega) hword
  have hread : ReadFrom ⟨.ofMajor m, 0, _, v⟩ _ := .definite (by omega) hhead fun hbad => by
    have := hbad.1
    omega
  have hct := Detail.varUintEncodedSizeCt_eq (.ofMajor m) v
  refine ⟨fun C => ⟨?_, ?_⟩, ?_, ⟨info, hhead⟩, ?_, ?_, hct, ?_, ?_⟩
  · exact Detail.emits_storeVarUint hd hv hcat
  · exact Detail.emits_storeVarUintNearEnd hword hcat
  · exact fun s hs => Detail.storeVarUint_nearEnd digits v _ hs
  · exact fun _ _ hp => Detail.varUintHead_shortest hp _
  · exact encodedItemHeadSize_eq (by omega) (.ofMajor m) v
  · exact (Detail.varUintEncodedSize_agree hword).trans hct
  · exact fun R s rest hs hu => (RequireContract.does_readFrom hs hread hu).1

/-- The head of an array of 256 elements. -/
theorem storeVarUint_minimal_array :
    (∃ info, Head 4 info 256 (Detail.varUintHead .array 256)) ∧ Detail.varUintEncodedSizeCt 256 = 3 := by
  obtain ⟨-, -, hhead, -, -, hct, -⟩ := @storeVarUint_minimal 4 32 256 (by decide) (.inl rfl) (by decide)
  exact ⟨hhead, hct.trans (by decide +kernel)⟩

end DeepPack
