import DeepPack.Codecs.Codable
import DeepPack.Codecs.PropertyDispatch

/-! Objects some of whose properties are optional.

Their decoder keeps the properties it found in a bit set, and compares that one word by
word with the bit set of the required ones. An object is decoded if every required
property is among its entries, whatever their order and number. -/
namespace DeepPack
open Library

/-! ### Entries with known keys -/

/-- Entries are decoded one after the other, each into the property whose key it has. -/
inductive KnownEntries {σ : Type} [InputStream σ] {ι : Type} {n : Nat} {α : Fin n → Type} (D : ObjectDef ι n)
    (readId : Input σ ι) (d : ∀ i, Decoder (α i)) :
    List (Fin n) → InputBuffer σ × (∀ i, α i) → InputBuffer σ × (∀ i, α i) → Prop where
  | none {s : InputBuffer σ × (∀ i, α i)} : KnownEntries D readId d [] s s
  | more {i : Fin n} {rest : List (Fin n)} {s t u v : InputBuffer σ × (∀ i, α i)} :
      Action.onFst readId s = (.ok (D.ids i), t) → onMember i ((d i).decode σ) t = (.ok (), u) →
      KnownEntries D readId d rest u v → KnownEntries D readId d (i :: rest) s v

section Entries
variable {σ : Type} [InputStream σ] {ι : Type} {n : Nat} {α : Fin n → Type}

/-- `value` was decoded into a member by the last entry with its key. -/
def LastDecoded (D : ObjectDef ι n) (readId : Input σ ι) (d : ∀ i, Decoder (α i)) (entries : List (Fin n))
    (i : Fin n) (s t : InputBuffer σ × (∀ i, α i)) (value : α i) : Prop :=
  ∃ pre post u v input, entries = pre ++ i :: post ∧ i ∉ post ∧ KnownEntries D readId d pre s u ∧
    Action.onFst readId u = (.ok (D.ids i), v) ∧ (d i).decode σ (v.1, v.2 i) = (.ok (), (input, value)) ∧
    KnownEntries D readId d post (input, Function.update v.2 i value) t

/-- Whatever entries with known keys decode: the required properties are among them, and that is told from one of
them missing; the members hold what the last entries say, or what they held. -/
def AccountsForPresence (D : ObjectDef ι n) (readId : Input σ ι) (d : ∀ i, Decoder (α i))
    (decode : Nat → Parse σ (∀ i, α i) Unit) : Prop :=
  ∀ entries s t, KnownEntries D readId d entries s t →
    ((∀ i, D.required i = true → i ∈ entries) → decode entries.length s = (.ok (), t)) ∧
    (¬ (∀ i, D.required i = true → i ∈ entries) →
      decode entries.length s = (.error (.errc .requiredObjectPropertyMissing), t)) ∧
    ∀ i, (i ∉ entries → t.2 i = s.2 i) ∧ (i ∈ entries → LastDecoded D readId d entries i s t (t.2 i))

variable {D : ObjectDef ι n} {readId : Input σ ι} {lookup : ι → Option Nat} {d : ∀ i, Decoder (α i)}
  {s t : InputBuffer σ × (∀ i, α i)} {entries : List (Fin n)}

/-- Each entry marks the property it was decoded into. -/
theorem KnownEntries.foundProperties (h : KnownEntries D readId d entries s t)
    (hlookup : ∀ i, lookup (D.ids i) = some i.val) (found : List (BitVec 64)) :
    decodeFoundProperties (decodeEntry readId lookup d) entries.length found s =
      (.ok (entries.foldl (fun b i => Detail.markProperty b i.val true) found), t) := by
  induction h generalizing found with
  | none => rfl
  | @more i _ _ t u _ hread hmember _ ih =>
    have hdecode : Detail.decodePropByIndex d (lookup (D.ids i)) t = (.ok i.val, u) := by
      rw [hlookup, decodePropByIndex_fin]
      exact Action.bind_ok _ hmember
    have hentry : decodeEntry readId lookup d _ = _ := (Action.bind_ok _ hread).trans hdecode
    exact (Action.bind_ok _ hentry).trans (ih _)

theorem KnownEntries.members (h : KnownEntries D readId d entries s t) (i : Fin n) :
    (i ∉ entries → t.2 i = s.2 i) ∧ (i ∈ entries → LastDecoded D readId d entries i s t (t.2 i)) := by
  induction h with
  | none => exact ⟨fun _ => rfl, fun hmem => by cases hmem⟩
  | @more j rest s u v t hread hmember hrest ih =>
    have hsame : u.2 = s.2 := (Action.onFst_eq_ok.mp hread).2
    obtain ⟨value, hrun, hvalue⟩ := Action.within_eq_ok hmember
    obtain ⟨hkeeps, hlast⟩ := ih
    rw [List.mem_cons]
    by_cases hlater : i ∈ rest
    · refine ⟨fun hnot => absurd (.inr hlater) hnot, fun _ => ?_⟩
      obtain ⟨pre, post, u', v', input, rfl, hpost, hpre, hlast⟩ := hlast hlater
      exact ⟨j :: pre, post, u', v', input, rfl, hpost, .more hread hmember hpre, hlast⟩
    · rw [hkeeps hlater, hvalue]
      by_cases hij : i = j
      · subst hij
        rw [Function.update_self]
        refine ⟨fun hnot => absurd (.inl rfl) hnot, fun _ => ?_⟩
        exact ⟨[], rest, s, u, v.1, rfl, hlater, .none, hread, hrun, hvalue ▸ hrest⟩
      · rw [Function.update_of_ne hij, hsame]
        exact ⟨fun _ => rfl, fun hmem => absurd hmem (not_or.mpr ⟨hij, hlater⟩)⟩

theorem accountsForPresence (hoptional : D.hasOptionalProperties = true)
    (hlookup : ∀ i, lookup (D.ids i) = some i.val) :
    AccountsForPresence D readId d (decodeObjectProperties D (decodeEntry readId lookup d)) := by
  intro entries s t h
  have hcomplete := Detail.completeBuckets_marked_iff D entries
  have hfound := h.foundProperties hlookup (Detail.noProperties n)
  refine ⟨fun hall => ?_, fun hmissing => ?_, h.members⟩
  · rw [decodeObjectProperties, if_pos hoptional, Action.bind_ok _ hfound,
      if_neg (not_not.mpr (hcomplete.mpr hall))]
    rfl
  · rw [decodeObjectProperties, if_pos hoptional, Action.bind_ok _ hfound, if_pos (hcomplete.not.mpr hmissing)]
    rfl

end Entries

/-- An object with optional properties is decoded exactly if the required ones are there. -/
theorem decodeObjectProperties_presence {n : Nat} {α : Fin n → Type} (d : ∀ i, Decoder (α i)) {σ : Type}
    [InputStream σ] :
    (∀ {ι : Type} [DecidableEq ι] (lt : ι → ι → Bool) (D : ObjectDef ι n) (key : Decoder ι),
      D.hasOptionalProperties = true → (∀ a, lt a a = false) → (∀ i j, i < j → lt (D.ids i) (D.ids j)) →
      AccountsForPresence D (key.asValue σ) d
      (decodeObjectProperties D (Detail.decodeObjectProperty lt D key d))) ∧
    (∀ {w : Nat} (D : ObjectDef (BitVec w) n), D.hasOptionalProperties = true →
      (∀ i j, i < j → D.ids i < D.ids j) →
      AccountsForPresence (σ := σ) D (readUnsignedId w) d
        (decodeObjectProperties D (Detail.decodeUnsignedObjectProperty D d))) :=
  ⟨fun _ _ _ hoptional hirr hasc => accountsForPresence hoptional (propertyIdLookup_ofFn hirr hasc),
    fun _ hoptional hasc => accountsForPresence hoptional (unsignedIdLookup_ofFn hasc)⟩

/-- Of the ids 1 and 2, only the first is required: its entry is enough, and the other member stays. -/
theorem decodeObjectProperties_optionalPair :
    let D : ObjectDef (BitVec 8) 2 := {boolPair with required := fun i => i = 0}
    let decode : Nat → Parse MemoryInputStream (Fin 2 → Bool) Unit :=
      decodeObjectProperties D (Detail.decodeUnsignedObjectProperty D fun _ => boolDecoder)
    decode 1 (memoryInput [0x01, 0xf5, 0x2a], fun _ => false) =
      (Except.ok (), (memoryInput [0x2a], fun i => decide (i = 0))) := by
  intro D decode
  have hkey : InputTakes (readUnsignedId 8) ((integerEncoder ⟨8, false⟩).bytes 1) 1 :=
    (restores_integer (t := ⟨8, false⟩) (.inl rfl)).asValue trivial
  have hread : Action.onFst (readUnsignedId 8) (memoryInput [0x01, 0xf5, 0x2a], fun _ : Fin 2 => false) =
      (.ok (D.ids 0), (memoryInput [0xf5, 0x2a], fun _ => false)) :=
    Action.onFst_ok (hkey [0xf5, 0x2a] (Nat.zero_le _) (by decide)) _
  have hmember : onMember 0 (boolDecoder.decode MemoryInputStream)
    (memoryInput [0xf5, 0x2a], fun _ : Fin 2 => false) =
      (.ok (), (memoryInput [0x2a], Function.update (fun _ => false) 0 true)) :=
    Action.within_ok (takes_parseBoolean false true [0x2a] (Nat.zero_le _) (by decide))
  have hentries : KnownEntries D (readUnsignedId 8) (fun _ => boolDecoder) [0]
      (memoryInput [0x01, 0xf5, 0x2a], fun _ => false)
      (memoryInput [0x2a], Function.update (fun _ => false) 0 true) :=
    .more hread hmember .none
  have hpresence := (decodeObjectProperties_presence (σ := MemoryInputStream)
    (fun _ : Fin 2 => boolDecoder)).2 D (by decide)
    (by decide)
  have hdecode := (hpresence [0] _ _ hentries).1 (by decide)
  have hmembers : (fun i : Fin 2 => decide (i = 0)) = Function.update (fun _ => false) 0 true := by decide
  rwa [← hmembers] at hdecode

end DeepPack
