import DeepPack.Codecs.Objects
import DeepPack.Library.BitSets

/-! The properties of a definition are found.

Where the ids of a definition ascend, looking one of them up gives its index, in a
short list and in a long one, and for integers whether they are small or not. And the bit
set of the properties found covers that of the required ones if none of these is missing. -/
namespace DeepPack.Detail
open Library

/-! ### Looking an id up -/

section Lookup
variable {ι : Type} [DecidableEq ι] {lt : ι → ι → Bool} {ids : List ι}

theorem findIdx_eq_of_ascending (hirr : ∀ a, lt a a = false) (hasc : ids.Pairwise fun a b => lt a b) {i : Nat}
    (hi : i < ids.length) : ids.findIdx (fun e => e == ids[i]) = i ∧ ids.findIdx (fun e => !lt e ids[i]) = i := by
  have hbelow : ∀ j (hj : j < i), lt ids[j] ids[i] = true := fun j hj =>
    List.pairwise_iff_getElem.mp hasc j i (hj.trans hi) hi hj
  constructor
  · refine (List.findIdx_eq hi).mpr ⟨beq_self_eq_true _, fun j hj => beq_eq_false_iff_ne.mpr fun heq => ?_⟩
    have hlt := hbelow j hj
    rw [heq, hirr] at hlt
    cases hlt
  · refine (List.findIdx_eq hi).mpr ⟨by rw [hirr]; rfl, fun j hj => ?_⟩
    rw [hbelow j hj]
    rfl

theorem propertyIdLookup_getElem (hirr : ∀ a, lt a a = false) (hasc : ids.Pairwise fun a b => lt a b) {i : Nat}
    (hi : i < ids.length) : propertyIdLookup lt ids ids[i] = some i := by
  obtain ⟨hlinear, hbound⟩ := findIdx_eq_of_ascending hirr hasc hi
  simp only [propertyIdLookup, hlinear, hbound, ite_self, List.getElem?_eq_getElem hi, if_true]

end Lookup

section UnsignedLookup
variable {w : Nat} {ids : List (BitVec w)}

/-- The ids at the front are below the limit and the others are not. -/
theorem lt_indexOfLimit_iff (hasc : ids.Pairwise (· < ·)) (limit : Nat) {i : Nat} (hi : i < ids.length) :
    i < indexOfLimit limit ids ↔ ids[i].toNat < limit := by
  constructor
  · intro hlt
    have hnot := List.not_of_lt_findIdx hlt
    simpa using hnot
  · intro hsmall
    by_contra hle
    have hk : indexOfLimit limit ids < ids.length := (Nat.le_of_not_lt hle).trans_lt hi
    have hlarge : limit ≤ ids[indexOfLimit limit ids].toNat := by
      exact of_decide_eq_true (List.findIdx_getElem (w := hk))
    rcases (Nat.le_of_not_lt hle).lt_or_eq with hlt | heq
    · have hids : ids[indexOfLimit limit ids] < ids[i] := List.pairwise_iff_getElem.mp hasc _ i hk hi hlt
      rw [BitVec.lt_def] at hids
      omega
    · simp only [heq] at hlarge
      omega

theorem unsignedIdLookup_getElem (hasc : ids.Pairwise (· < ·)) {i : Nat} (hi : i < ids.length) :
    unsignedIdLookup ids ids[i] = some i := by
  have hiff := lt_indexOfLimit_iff hasc smallIdLimit hi
  have hascending : ids.Pairwise fun a b => decide (a < b) = true := hasc.imp fun h => decide_eq_true h
  have hirr : ∀ a : BitVec w, decide (a < a) = false := fun a => decide_eq_false (BitVec.lt_irrefl a)
  unfold unsignedIdLookup
  generalize indexOfLimit smallIdLimit ids = k at hiff
  dsimp only
  by_cases hsmall : ids[i].toNat < smallIdLimit
  · have hk := hiff.mpr hsmall
    have htake : i < (ids.take k).length := by
      rw [List.length_take]
      omega
    have hfind := (findIdx_eq_of_ascending hirr (hascending.sublist (List.take_sublist k ids)) htake).1
    rw [List.getElem_take] at hfind
    rw [if_pos ⟨by omega, hsmall⟩, hfind, if_neg hk.ne]
  · have hk := Nat.le_of_not_lt (hiff.not.mpr hsmall)
    have hdrop : i - k < (ids.drop k).length := by
      rw [List.length_drop]
      omega
    have hlookup := propertyIdLookup_getElem hirr (hascending.sublist (List.drop_sublist k ids)) hdrop
    rw [List.getElem_drop] at hlookup
    simp only [Nat.add_sub_cancel' hk] at hlookup
    rw [if_neg fun h => hsmall h.2, if_pos (by omega), hlookup, Option.map_some, Nat.sub_add_cancel hk]

end UnsignedLookup

/-! ### Bit sets -/

/-- The properties found cover the required ones, bucket by bucket. -/
def Covers (foundProps required : List (BitVec 64)) : Prop :=
  List.Forall₂ (fun found req => found &&& req = req) foundProps required

theorem Covers.complete {foundProps required : List (BitVec 64)} (h : Covers foundProps required) :
    completeBuckets foundProps required = foundProps.length := by
  induction h with
  | nil => rfl
  | cons hbucket _ ih =>
    rw [completeBuckets] at ih ⊢
    rw [List.zipWith_cons_cons, decide_eq_true hbucket, List.count_cons_self, ih, List.length_cons]

section Marked
variable {n : Nat} {ι : Type}

theorem div_lt_noProperties {i : Nat} (h : i < n) : i / 64 < (noProperties n).length := by
  rw [noProperties, List.length_replicate, bucketDigits]
  omega

theorem bitAt_noProperties (i : Nat) : bitAt (noProperties n) i = false := bitAt_replicate_zero _ _

/-- Value `i` goes to bit `i % 64` of bucket `i / 64`. -/
theorem compressFrom_eq (vs : List Bool) {shift offset i : Nat} (hi : i = bucketDigits * offset + shift)
    (hshift : shift ≤ bucketDigits) (buckets : List (BitVec 64)) :
    compressFrom vs shift offset buckets =
      (vs.zipIdx i).foldl (fun b v => markProperty b v.2 v.1) buckets := by
  induction vs generalizing shift offset i buckets with
  | nil => rfl
  | cons v rest ih =>
    rw [compressFrom, List.zipIdx_cons, List.foldl_cons]
    by_cases hfull : shift = bucketDigits
    · simp only [if_pos hfull]
      rw [bucketDigits] at hi hshift hfull ih
      have hplace : i / 64 = offset + 1 ∧ i % 64 = 0 := by omega
      rw [ih (i := i + 1) (by omega) (by omega), markProperty, bucketDigits, hplace.1, hplace.2]
    · simp only [if_neg hfull]
      rw [bucketDigits] at hi hshift hfull ih
      have hplace : i / 64 = offset ∧ i % 64 = shift := by omega
      rw [ih (i := i + 1) (by omega) (by omega), markProperty, bucketDigits, hplace.1, hplace.2]

/-- The properties are marked that are required. -/
theorem requiredPropMask_eq (D : ObjectDef ι n) :
    requiredPropMask D =
      (List.finRange n).foldl (fun buckets i => markProperty buckets i.val (D.required i)) (noProperties n) := by
  have hflags : (List.ofFn D.required).zipIdx 0 = (List.finRange n).map fun i => (D.required i, i.val) := by
    refine List.ext_getElem (by simp) fun k hk hk' => ?_
    simp
  rw [requiredPropMask, compressBitset, compressFrom_eq _ (i := 0) rfl (Nat.zero_le _), hflags, List.foldl_map]

theorem bitAt_requiredPropMask (D : ObjectDef ι n) (j : Nat) :
    bitAt (requiredPropMask D) j = true ↔ ∃ i : Fin n, i.val = j ∧ D.required i = true := by
  rw [requiredPropMask_eq]
  refine (bitAt_foldl_orBit (w := 64) (by decide) (List.finRange n) (fun i => i.val) D.required
    (fun i _ => div_lt_noProperties i.isLt) j).trans ?_
  rw [bitAt_noProperties]
  constructor
  · intro h
    obtain ⟨i, -, hi⟩ := h.resolve_left Bool.false_ne_true
    exact ⟨i, hi⟩
  · intro h
    obtain ⟨i, hi⟩ := h
    exact .inr ⟨i, List.mem_finRange i, hi⟩

/-- All words are complete exactly if the bits required are among those found. -/
theorem completeBuckets_eq_length_iff {found required : List (BitVec 64)} (hlen : found.length = required.length) :
    completeBuckets found required = found.length ↔ ∀ i, bitAt required i = true → bitAt found i = true := by
  rw [← includes_iff (by decide) hlen]
  refine ⟨fun h => ?_, Covers.complete⟩
  have hzip : (List.zipWith (fun found req => decide (found &&& req = req)) found required).length = found.length := by
    rw [List.length_zipWith, ← hlen, Nat.min_self]
  have hall := List.count_eq_length.mp (h.trans hzip.symm)
  refine List.forall₂_iff_get.mpr ⟨hlen, fun k hk hk' => ?_⟩
  refine of_decide_eq_true (hall _ (List.mem_of_getElem (i := k) (h := ?_) ?_)).symm
  · rw [hzip]
    exact hk
  · exact List.getElem_zipWith

/-- The bit sets are compared with this outcome: every required property was found or not. -/
theorem completeBuckets_marked_iff (D : ObjectDef ι n) (entries : List (Fin n)) :
    let found := entries.foldl (fun b i => markProperty b i.val true) (noProperties n)
    completeBuckets found (requiredPropMask D) = found.length ↔
      ∀ i, D.required i = true → i ∈ entries := by
  intro found
  have hfound : ∀ j, bitAt found j = true ↔ ∃ i ∈ entries, i.val = j := by
    intro j
    refine (bitAt_foldl_orBit (w := 64) (by decide) entries (fun i => i.val) (fun _ => true)
      (fun i _ => div_lt_noProperties i.isLt) j).trans ?_
    rw [bitAt_noProperties]
    simp
  have hlen : found.length = (requiredPropMask D).length := by
    rw [requiredPropMask_eq]
    exact (foldl_orBit_length entries (fun i => i.val) (fun _ => true) _).trans
      (foldl_orBit_length (List.finRange n) (fun i => i.val) D.required _).symm
  rw [completeBuckets_eq_length_iff hlen]
  constructor
  · intro hbits i hi
    have hbit := hbits i.val ((bitAt_requiredPropMask D i.val).mpr ⟨i, rfl, hi⟩)
    obtain ⟨j, hj, hval⟩ := (hfound i.val).mp hbit
    rwa [Fin.ext hval] at hj
  · intro hmem j hj
    obtain ⟨i, rfl, hi⟩ := (bitAt_requiredPropMask D j).mp hj
    exact (hfound i.val).mpr ⟨i, hmem i hi, rfl⟩

end Marked
end DeepPack.Detail
