import DeepPack.Codecs.RequiredProperties

/-! Which property an id is decoded into.

The tables an unsigned id is looked up in make one search of all ids together: where the
ids ascend, the index found is the one place the id stands at, if it stands anywhere. -/
namespace DeepPack
open Library

namespace Detail
variable {w : Nat} {ids : List (BitVec w)} {id : BitVec w} {idx : Nat}

/-- What is found by an unsigned id is the id. -/
theorem unsignedIdLookup_found (h : unsignedIdLookup ids id = some idx) : ids[idx]? = some id := by
  have hfinds := findsIds_unsignedIdLookup
    (⟨nullDefVersion, ids.get, fun _ => true⟩ : ObjectDef (BitVec w) ids.length)
  rw [FindsIds, List.ofFn_get] at hfinds
  exact hfinds id idx h

/-- An id is found at an index exactly if it stands there. -/
theorem unsignedIdLookup_eq_some_iff (hasc : ids.Pairwise (· < ·)) :
    unsignedIdLookup ids id = some idx ↔ ids[idx]? = some id := by
  constructor
  · exact unsignedIdLookup_found
  · intro h
    obtain ⟨hidx, rfl⟩ := List.getElem?_eq_some_iff.mp h
    exact unsignedIdLookup_getElem hasc hidx

theorem unsignedIdLookup_eq_none (h : id ∉ ids) : unsignedIdLookup ids id = none := by
  cases hidx : unsignedIdLookup ids id with
  | none => rfl
  | some idx => exact absurd (List.mem_of_getElem? (unsignedIdLookup_found hidx)) h

end Detail

section Dispatch
variable {w n : Nat} {α : Fin n → Type} {D : ObjectDef (BitVec w) n} {id : BitVec w} {d : ∀ i, Decoder (α i)}
  {σ : Type} [InputStream σ] {s t : InputBuffer σ × (∀ i, α i)}

theorem getElem?_ofFn_eq_some_iff {idx : Nat} :
    (List.ofFn D.ids)[idx]? = some id ↔ ∃ i : Fin n, i.val = idx ∧ D.ids i = id := by
  rw [List.getElem?_eq_some_iff]
  constructor
  · intro h
    obtain ⟨hlt, hval⟩ := h
    rw [List.length_ofFn] at hlt
    rw [List.getElem_ofFn] at hval
    exact ⟨⟨idx, hlt⟩, rfl, hval⟩
  · intro h
    obtain ⟨i, rfl, hi⟩ := h
    exact ⟨by rw [List.length_ofFn]; exact i.isLt, by rw [List.getElem_ofFn]; exact hi⟩

/-- Once the id was read, the member it stands for is decoded. -/
theorem decodeUnsignedObjectProperty_eq (hread : Action.onFst (readUnsignedId w) s = (.ok id, t)) :
    Detail.decodeUnsignedObjectProperty D d s =
      Detail.decodePropByIndex d (Detail.unsignedIdLookup (List.ofFn D.ids) id) t :=
  Action.bind_ok _ hread

theorem decodePropByIndex_fin (i : Fin n) :
    Detail.decodePropByIndex (σ := σ) d (some i.val) = (onMember i ((d i).decode σ) >>= fun _ => pure i.val) :=
  Detail.decodePropByIndex_of_lt d i.isLt

/-- An unsigned id is decoded into the property that has it, and is unknown if there is none. -/
theorem decodeUnsignedObjectProperty_exact (hasc : ∀ i j, i < j → D.ids i < D.ids j)
    (hread : Action.onFst (readUnsignedId w) s = (.ok id, t)) :
    (∀ p u, Detail.decodeUnsignedObjectProperty D d s = (.ok p, u) ↔
      ∃ i : Fin n, i.val = p ∧ D.ids i = id ∧ onMember i ((d i).decode σ) t = (.ok (), u)) ∧
    (∀ i, D.ids i = id →
      Detail.decodeUnsignedObjectProperty D d s = (onMember i ((d i).decode σ) >>= fun _ => pure i.val) t) ∧
    ((∀ i, D.ids i ≠ id) → Detail.decodeUnsignedObjectProperty D d s = (.error (.errc .unknownProperty), t)) := by
  have hascending : (List.ofFn D.ids).Pairwise (· < ·) := List.pairwise_ofFn.mpr fun i j hij => hasc i j hij
  have hdecodes : ∀ i, D.ids i = id →
      Detail.decodeUnsignedObjectProperty D d s = (onMember i ((d i).decode σ) >>= fun _ => pure i.val) t := by
    intro i hi
    have hlookup : Detail.unsignedIdLookup (List.ofFn D.ids) id = some i.val :=
      (Detail.unsignedIdLookup_eq_some_iff hascending).mpr (getElem?_ofFn_eq_some_iff.mpr ⟨i, rfl, hi⟩)
    rw [decodeUnsignedObjectProperty_eq hread, hlookup, decodePropByIndex_fin]
  refine ⟨fun p u => ⟨fun h => ?_, fun h => ?_⟩, hdecodes, fun hunknown => ?_⟩
  · have hfound := h
    rw [decodeUnsignedObjectProperty_eq hread] at hfound
    obtain ⟨i, rfl, hi⟩ :=
      getElem?_ofFn_eq_some_iff.mp (Detail.unsignedIdLookup_found (decodePropByIndex_ok hfound).1)
    rw [hdecodes i hi] at h
    obtain ⟨_, v, hmember, hpure⟩ := Action.bind_eq_ok.mp h
    cases hpure
    exact ⟨i, rfl, hi, hmember⟩
  · obtain ⟨i, rfl, hi, hmember⟩ := h
    rw [hdecodes i hi]
    exact Action.bind_ok _ hmember
  · have hnone : id ∉ List.ofFn D.ids := fun hmem => by
      obtain ⟨i, hi⟩ := List.mem_ofFn.mp hmem
      exact hunknown i hi
    rw [decodeUnsignedObjectProperty_eq hread, Detail.unsignedIdLookup_eq_none hnone]
    rfl

end Dispatch

/-- Behind two small ids and a large one: the large id is found by the index of its own table. -/
theorem decodeUnsignedObjectProperty_large :
    (Detail.decodeUnsignedObjectProperty (⟨nullDefVersion, fun i => [3, 7, 200].get i, fun _ => true⟩ :
        ObjectDef (BitVec 8) 3) (fun _ => boolDecoder) (memoryInput [0x18, 0xc8, 0xf5], fun _ => false)).1 =
        .ok 2 := by
  have hread : Action.onFst (readUnsignedId 8) (memoryInput [0x18, 0xc8, 0xf5], fun _ : Fin 3 => false) =
      (.ok 200, (memoryInput [0xf5], fun _ => false)) := by
    have hkey : InputTakes (readUnsignedId 8) ((integerEncoder ⟨8, false⟩).bytes 200) 200 :=
      (restores_integer (t := ⟨8, false⟩) (.inl rfl)).asValue trivial
    exact Action.onFst_ok (hkey [0xf5] (Nat.zero_le _) (by decide)) _
  have hexact := (decodeUnsignedObjectProperty_exact
    (D := ⟨nullDefVersion, fun i => [3, 7, 200].get i, fun _ => true⟩)
    (d := fun _ => boolDecoder) (by decide) hread).2.1 2 rfl
  have hvalue := takes_parseBoolean false true [] (Nat.zero_le _) (by decide)
  exact congrArg Prod.fst (hexact.trans (Action.bind_ok _ (Action.within_ok hvalue)))

end DeepPack
