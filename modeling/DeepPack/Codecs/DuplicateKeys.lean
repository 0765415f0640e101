import DeepPack.Codecs.RoundTrip
import DeepPack.Items.RangeEncodings

/-! Sets and maps, decoded from ranges in which a key may come twice.

A key goes to its place among those already there, which ascend, unless one of them is equivalent
to it. What the container holds in between is a permutation of what was decoded so far, and so
the keys of the whole range are all emplaced exactly if no two of them are equivalent. How a key
was encoded makes no difference to that. -/
namespace DeepPack
open Library

/-! ### Emplacing -/

section Emplace
variable {α κ : Type} {lt : α → α → Bool} {v : α} {vs vs' l : List α}

/-- No two of the values are equivalent. -/
def Distinct (lt : α → α → Bool) (vs : List α) : Prop := vs.Pairwise fun a b => lt a b = true ∨ lt b a = true

instance : Decidable (Distinct lt vs) := inferInstanceAs (Decidable (vs.Pairwise _))

theorem Distinct.perm_iff (h : vs.Perm vs') : Distinct lt vs ↔ Distinct lt vs' :=
  h.pairwise_iff fun hab => hab.symm

/-- Equivalent values are equal where the comparison tells all others apart. -/
theorem distinct_iff_nodup (hirr : ∀ a, lt a a = false) (htri : ∀ a b, lt a b = true ∨ a = b ∨ lt b a = true) :
    Distinct lt vs ↔ vs.Nodup := by
  refine List.Pairwise.iff fun a b => ⟨fun h heq => ?_, fun hne => ?_⟩
  · rw [heq, hirr, or_self] at h
    cases h
  · exact (htri a b).imp_right fun h => h.resolve_left hne

namespace Detail

theorem emplace_perm (h : emplace lt v vs = some vs') : vs'.Perm (v :: vs) := by
  induction vs generalizing vs' with
  | nil =>
    cases h
    exact .refl _
  | cons e rest ih =>
    rw [emplace] at h
    split at h
    · obtain ⟨rest', hrest, rfl⟩ := Option.map_eq_some_iff.mp h
      exact ((ih hrest).cons e).trans (.swap v e rest)
    · split at h
      · cases h
        exact .refl _
      · cases h

variable [IsStrictWeakOrder α fun a b => lt a b = true]

theorem emplace_ascending (hasc : vs.Pairwise fun a b => lt a b = true) (h : emplace lt v vs = some vs') :
    vs'.Pairwise fun a b => lt a b = true := by
  induction vs generalizing vs' with
  | nil =>
    cases h
    exact List.pairwise_singleton _ v
  | cons e rest ih =>
    obtain ⟨hbelow, hrest⟩ := List.pairwise_cons.mp hasc
    rw [emplace] at h
    split at h
    · rename_i hev
      obtain ⟨rest', hsome, rfl⟩ := Option.map_eq_some_iff.mp h
      refine List.pairwise_cons.mpr ⟨fun b hb => ?_, ih hrest hsome⟩
      rcases List.mem_cons.mp ((emplace_perm hsome).mem_iff.mp hb) with rfl | hb
      · exact hev
      · exact hbelow b hb
    · split at h
      · rename_i hve
        cases h
        refine List.pairwise_cons.mpr ⟨fun b hb => ?_, hasc⟩
        rcases List.mem_cons.mp hb with rfl | hb
        · exact hve
        · exact IsTrans.trans (r := fun a b => lt a b = true) _ e _ hve (hbelow b hb)
      · cases h

/-- A value is emplaced exactly if it is equivalent to none that is there. -/
theorem emplace_isSome_iff (hasc : vs.Pairwise fun a b => lt a b = true) :
    (emplace lt v vs).isSome = true ↔ ∀ e ∈ vs, lt v e = true ∨ lt e v = true := by
  induction vs with
  | nil => exact iff_of_true rfl (List.forall_mem_nil _)
  | cons e rest ih =>
    obtain ⟨hbelow, hrest⟩ := List.pairwise_cons.mp hasc
    rw [emplace, List.forall_mem_cons]
    by_cases hev : lt e v = true
    · rw [if_pos hev, Option.isSome_map, ih hrest]
      exact (and_iff_right (.inr hev)).symm
    · rw [if_neg hev]
      by_cases hve : lt v e = true
      · rw [if_pos hve]
        exact iff_of_true rfl ⟨.inl hve, fun b hb =>
          .inl (IsTrans.trans (r := fun a b => lt a b = true) _ e _ hve (hbelow b hb))⟩
      · rw [if_neg hve]
        exact iff_of_false Bool.false_ne_true fun h => h.1.elim hve hev

/-- Values are emplaced one after the other, into a permutation of them all, if no two are equivalent. -/
theorem emplaceAll_distinct (hasc : vs.Pairwise fun a b => lt a b = true) (h : Distinct lt (l ++ vs)) :
    ∃ vs', Action.forList (emplaceOrClear lt) l vs = (.ok (), vs') ∧ vs'.Perm (l ++ vs) ∧
      vs'.Pairwise fun a b => lt a b = true := by
  induction l generalizing vs with
  | nil => exact ⟨vs, rfl, .refl _, hasc⟩
  | cons v l ih =>
    have hv := (List.pairwise_cons.mp h).1
    obtain ⟨vs₁, hsome⟩ := Option.isSome_iff_exists.mp
      ((emplace_isSome_iff hasc).mpr fun e he => hv e (List.mem_append_right l he))
    have hperm : (l ++ vs₁).Perm (v :: l ++ vs) := ((emplace_perm hsome).append_left l).trans List.perm_middle
    obtain ⟨vs', hrest, hvs', hasc'⟩ := ih (emplace_ascending hasc hsome) ((Distinct.perm_iff hperm).mpr h)
    have hone : emplaceOrClear lt v vs = (.ok (), vs₁) := by rw [emplaceOrClear, hsome]
    exact ⟨vs', (Action.bind_ok _ hone).trans hrest, hvs'.trans hperm, hasc'⟩

/-- And nothing is left of them if two are. -/
theorem emplaceAll_duplicate (hasc : vs.Pairwise fun a b => lt a b = true) (h : ¬ Distinct lt (l ++ vs)) :
    Action.forList (emplaceOrClear lt) l vs = (.error (.errc .duplicateKey), []) := by
  induction l generalizing vs with
  | nil => exact absurd (hasc.imp fun hab => .inl hab) h
  | cons v l ih =>
    cases hsome : emplace lt v vs with
    | none => exact Action.bind_error _ (by rw [emplaceOrClear, hsome])
    | some vs₁ =>
      have hperm : (l ++ vs₁).Perm (v :: l ++ vs) := ((emplace_perm hsome).append_left l).trans List.perm_middle
      have hone : emplaceOrClear lt v vs = (.ok (), vs₁) := by rw [emplaceOrClear, hsome]
      exact (Action.bind_ok _ hone).trans
        (ih (emplace_ascending hasc hsome) ((Distinct.perm_iff hperm).not.mpr h))

end Detail
end Emplace

/-! ### Ranges of values -/

section Ranges
variable {σ α κ ν : Type} [InputStream σ]

namespace RequireContract
variable (R : RequireContract σ)

/-- With `rest` behind them, the bytes are decoded to a value. -/
def Decodes (x : Input σ α) (bytes : List UInt8) (v : α) (rest : List UInt8) : Prop :=
  ∀ s, R.Valid s → R.unread s = bytes ++ rest → R.Does x s (.ok v) rest

/-- An element of a set: a key, which does not start like a break. -/
def IsKey (k : Decoder κ) (bytes : List UInt8) (key : κ) (rest : List UInt8) : Prop :=
  bytes ≠ [] ∧ bytes.head? ≠ some breakByte ∧ R.Decodes (k.asValue σ) bytes key rest

/-- An entry of a map: a key and a value. -/
def IsEntry (k : Decoder κ) (d : Decoder ν) (bytes : List UInt8) (pair : κ × ν) (rest : List UInt8) : Prop :=
  ∃ key value, bytes = key ++ value ∧ R.IsKey k key pair.1 (value ++ rest) ∧ value ≠ [] ∧
    R.Decodes (d.asValue σ) value pair.2 rest

end RequireContract

/-- Elements one after the other, and the values they stand for; `element` sees what is behind an element. -/
inductive DecodedElements (element : List UInt8 → α → List UInt8 → Prop) (after : List UInt8) :
    List (List UInt8) → List α → Prop where
  | none : DecodedElements element after [] []
  | more {e : List UInt8} {es : List (List UInt8)} {v : α} {vs : List α} : element e v (es.flatten ++ after) →
      DecodedElements element after es vs → DecodedElements element after (e :: es) (v :: vs)

variable {R : RequireContract σ} {element : List UInt8 → α → List UInt8 → Prop} {after : List UInt8}
  {es : List (List UInt8)} {vs : List α} {lt : α → α → Bool}

theorem DecodedElements.elements {m : Nat} (h : DecodedElements element after es vs)
    (helement : ∀ e v rest, element e v rest → (if m = 5 then 2 else 1) ≤ e.length ∧ e.head? ≠ some breakByte) :
    RequireContract.Elements m es := by
  induction h with
  | none => exact fun e he => by cases he
  | more hfirst _ ih => exact List.forall_mem_cons.mpr ⟨helement _ _ _ hfirst, ih⟩

/-- A loop that emplaces what it decodes does what emplacing the values does. -/
theorem DecodedElements.runs {f : Nat → Parse σ (List α) Unit} (h : DecodedElements element after es vs)
    (hf : ∀ i e v rest, element e v rest → ∀ s, R.Valid s → R.unread s = e ++ rest →
      ∃ t, R.Valid t ∧ R.unread t = rest ∧
        ∀ w, f i (s, w) = ((Detail.emplaceOrClear lt v w).1, (t, (Detail.emplaceOrClear lt v w).2)))
    (i : Nat) (w : List α) :
    R.Runs f after es i w (Action.forList (Detail.emplaceOrClear lt) vs w).1
      (Action.forList (Detail.emplaceOrClear lt) vs w).2 := by
  induction h generalizing i w with
  | none => exact .none
  | @more e es v vs hfirst _ ih =>
    have hone := hf i e v _ hfirst
    rcases hv : Detail.emplaceOrClear lt v w with ⟨failure | _, w'⟩
    · have hall : Action.forList (Detail.emplaceOrClear lt) (v :: vs) w = (.error failure, w') :=
        Action.bind_error _ hv
      rw [hall]
      refine .fails fun s hs hu => ?_
      obtain ⟨t, -, -, ht⟩ := hone s hs hu
      have htw := ht w
      rw [hv] at htw
      exact ⟨t, htw⟩
    · have hall : Action.forList (Detail.emplaceOrClear lt) (v :: vs) w =
          Action.forList (Detail.emplaceOrClear lt) vs w' := Action.bind_ok _ hv
      rw [hall]
      refine .more (fun s hs hu => ?_) (ih (i + 1) w')
      obtain ⟨t, hvt, hut, ht⟩ := hone s hs hu
      have htw := ht w
      rw [hv] at htw
      exact ⟨t, htw, hvt, hut⟩

/-- Whatever it held before, a container is made of the values if their keys are distinct, and is left empty
otherwise. -/
def BuildsContainer (R : RequireContract σ) (lt : κ → κ → Bool) (key : α → κ) (decode : Parse σ (List α) Unit)
    (s : InputBuffer σ) (vs : List α) (after : List UInt8) : Prop :=
  ∀ w, (Distinct lt (vs.map key) → ∃ content, R.Parses decode s w (.ok ()) content after ∧ content.Perm vs ∧
      content.Pairwise fun a b => lt (key a) (key b) = true) ∧
    (¬ Distinct lt (vs.map key) → ∃ t, decode (s, w) = (.error (.errc .duplicateKey), (t, [])))

/-- This is so for ranges of elements with an announced length, and for those that end with a break. -/
def DetectsDuplicates (R : RequireContract σ) (m : Nat) (lt : κ → κ → Bool) (key : α → κ)
    (element : List UInt8 → α → List UInt8 → Prop) (decode : Parse σ (List α) Unit) : Prop :=
  ∀ es vs after s, R.Valid s →
    (∀ info head, Head m info es.length head → DecodedElements element after es vs →
      R.unread s = head ++ (es.flatten ++ after) → BuildsContainer R lt key decode s vs after) ∧
    (DecodedElements element (breakByte :: after) es vs →
      R.unread s = initialByte m 31 :: (es.flatten ++ breakByte :: after) →
      BuildsContainer R lt key decode s vs after)

theorem detectsDuplicates {m : Nat} (hm : m = 4 ∨ m = 5) {lt : κ → κ → Bool} {key : α → κ}
    [IsStrictWeakOrder α fun a b => lt (key a) (key b) = true] {f : Nat → Parse σ (List α) Unit}
    (helement : ∀ e v rest, element e v rest → (if m = 5 then 2 else 1) ≤ e.length ∧ e.head? ≠ some breakByte)
    (hf : ∀ i e v rest, element e v rest → ∀ s, R.Valid s → R.unread s = e ++ rest →
      ∃ t, R.Valid t ∧ R.unread t = rest ∧
        ∀ w, f i (s, w) = ((Detail.emplaceOrClear (fun a b => lt (key a) (key b)) v w).1,
        (t, (Detail.emplaceOrClear (fun a b => lt (key a) (key b)) v w).2))) :
    DetectsDuplicates R m lt key element (do
      assign []
      let _ ← Detail.parseArrayLike true sizeMax (.ofMajor m) f) := by
  -- both kinds of ranges end with what emplacing their values makes of an empty container
  have hbuilds : ∀ {vs : List α} {s after} {n : Nat},
    R.Ends (Detail.parseArrayLike true sizeMax (.ofMajor m) f) s []
      ((Action.forList (Detail.emplaceOrClear fun a b => lt (key a) (key b)) vs []).1.map fun _ => n)
      (Action.forList (Detail.emplaceOrClear fun a b => lt (key a) (key b)) vs []).2 after →
      BuildsContainer R lt key (do
        assign []
        let _ ← Detail.parseArrayLike true sizeMax (.ofMajor m) f) s vs after := by
    intro vs s after n hends w
    obtain ⟨t, ht, hend⟩ := hends
    have hassign : assign [] (s, w) = (.ok (), (s, ([] : List α))) := rfl
    have hkeys : Distinct lt (vs.map key) ↔ Distinct (fun a b => lt (key a) (key b)) (vs ++ []) := by
      rw [List.append_nil]
      exact List.pairwise_map
    rw [hkeys]
    constructor
    · intro hdistinct
      obtain ⟨content, hall, hperm, hasc⟩ := Detail.emplaceAll_distinct List.Pairwise.nil hdistinct
      rw [hall] at ht hend
      rw [List.append_nil] at hperm
      exact ⟨content, ⟨t, (Action.bind_ok _ hassign).trans (Action.bind_ok _ ht), hend ⟨n, rfl⟩⟩, hperm, hasc⟩
    · intro hduplicate
      rw [Detail.emplaceAll_duplicate List.Pairwise.nil hduplicate] at ht
      exact ⟨t, (Action.bind_ok _ hassign).trans (Action.bind_error _ ht)⟩
  intro es vs after s hs
  constructor
  · intro info head hhead hes hu
    exact hbuilds ((hes.elements helement).definite hm hhead (hes.runs hf 0 []) hs hu)
  · intro hes hu
    exact hbuilds ((hes.elements helement).indefinite hm (hes.runs hf 0 []) hs hu)

end Ranges

/-- Sets and maps tell exactly whether two of the decoded keys are equivalent. -/
theorem decode_duplicateKeys {σ κ ν : Type} [InputStream σ] (R : RequireContract σ) (lt : κ → κ → Bool)
    [hlt : IsStrictWeakOrder κ fun a b => lt a b = true] (k : Decoder κ) (d : Decoder ν) :
    DetectsDuplicates R 4 lt (fun key => key) (R.IsKey k) ((setDecoder lt k).decode σ) ∧
      DetectsDuplicates R 5 lt Prod.fst (R.IsEntry k d) ((mapDecoder lt k d).decode σ) ∧
      ((∀ a b, lt a b = true ∨ a = b ∨ lt b a = true) → ∀ keys, Distinct lt keys ↔ keys.Nodup) := by
  refine ⟨?_, ?_, fun htri keys => distinct_iff_nodup (fun a => ?_) htri⟩
  · refine detectsDuplicates (σ := σ) (m := 4) (.inl rfl) (f := fun _ => Detail.decodeKey lt k) ?_ ?_
    · intro e v rest h
      exact ⟨List.length_pos_iff.mpr h.1, h.2.1⟩
    · intro i e v rest h s hs hu
      obtain ⟨t, ht, hvt, hut⟩ := h.2.2 s hs hu
      exact ⟨t, hvt, hut, fun w => Action.bind_ok _ (Action.onFst_ok ht w)⟩
  · have hpairs : IsStrictWeakOrder (κ × ν) fun a b => lt a.1 b.1 = true :=
      inferInstanceAs (IsStrictWeakOrder (κ × ν) (Order.Preimage Prod.fst fun a b => lt a b = true))
    refine detectsDuplicates (σ := σ) (m := 5) (.inr rfl) (f := fun _ => Detail.decodePair lt k d) ?_ ?_
    · intro e v rest h
      obtain ⟨key, value, rfl, hkey, hvalue, -⟩ := h
      have hk := List.length_pos_iff.mpr hkey.1
      have hv := List.length_pos_iff.mpr hvalue
      refine ⟨?_, ?_⟩
      · rw [if_pos rfl, List.length_append]
        omega
      · rw [List.head?_append_of_ne_nil _ hkey.1]
        exact hkey.2.1
    · intro i e v rest h s hs hu
      obtain ⟨key, value, rfl, hkey, -, hvalue⟩ := h
      rw [List.append_assoc] at hu
      obtain ⟨t, ht, hvt, hut⟩ := hkey.2.2 s hs hu
      obtain ⟨u, hu, hvu, huu⟩ := hvalue t hvt hut
      refine ⟨u, hvu, huu, fun w => ?_⟩
      exact (Action.bind_ok _ (Action.onFst_ok ht w)).trans (Action.bind_ok _ (Action.onFst_ok hu w))
  · exact Bool.eq_false_iff.mpr (hlt.irrefl a)

/-- The key 1 comes twice, the second time with a head that is longer than it needs to be. -/
theorem setDecoder_longHead :
    ∃ t, (setDecoder (fun a b : BitVec 8 => decide (a < b)) (integerDecoder ⟨8, false⟩)).decode MemoryInputStream
      (memoryInput [0x82, 0x01, 0x18, 0x01], [7]) = (.error (.errc .duplicateKey), (t, [])) := by
  have horder : IsStrictWeakOrder (BitVec 8) fun a b => decide (a < b) = true := {
    irrefl := fun a h => BitVec.lt_irrefl a (of_decide_eq_true h)
    trans := fun a b c hab hbc => decide_eq_true (BitVec.lt_trans (of_decide_eq_true hab) (of_decide_eq_true hbc))
    incomp_trans := fun a b c hab hbc => by
      simp only [decide_eq_true_iff, BitVec.lt_def] at hab hbc ⊢
      omega }
  have hfirst : MemoryInputStream.contract.toRequire.IsKey (integerDecoder ⟨8, false⟩) [0x01] 1 [0x18, 0x01] := by
    refine ⟨by decide, by decide, fun s hs hu => ?_⟩
    obtain ⟨b, rfl, -⟩ := hs
    obtain rfl : b = [0x01, 0x18, 0x01] := hu
    exact ⟨memoryInput [0x18, 0x01], rfl, MemoryInputStream.valid_memory (by decide), rfl⟩
  have hsecond : MemoryInputStream.contract.toRequire.IsKey (integerDecoder ⟨8, false⟩) [0x18, 0x01] 1 [] := by
    refine ⟨by decide, by decide, fun s hs hu => ?_⟩
    obtain ⟨b, rfl, -⟩ := hs
    obtain rfl : b = [0x18, 0x01] := hu
    exact ⟨memoryInput [], rfl, MemoryInputStream.valid_memory (by decide), rfl⟩
  have hdetects := (decode_duplicateKeys MemoryInputStream.contract.toRequire
    (fun a b : BitVec 8 => decide (a < b))
    (integerDecoder ⟨8, false⟩) boolDecoder).1
  have hvalid := MemoryInputStream.valid_memory (b := [0x82, 0x01, 0x18, 0x01]) (by decide)
  have helements : DecodedElements (MemoryInputStream.contract.toRequire.IsKey (integerDecoder ⟨8, false⟩)) []
      [[0x01], [0x18, 0x01]] [1, 1] := .more hfirst (.more hsecond .none)
  have hbuilds := (hdetects _ _ [] _ hvalid).1 2 [initialByte 4 2] (.inline (by decide)) helements rfl [7]
  exact hbuilds.2 (by decide)

end DeepPack
