import DeepPack.Items.RangeLog
import DeepPack.Codecs.Containers
import DeepPack.Items.RoundTrip

/-! The element limit of arrays and maps.

The definite encoding respects the limit: the log of the parser of elements says so. The
indefinite one lets a single element through behind the last allowed one: the inputs
with that element are the `OverLong` ones, and only they go wrong. -/
namespace DeepPack
open Library InputBuffer

variable {σ δ α : Type}

/-- No element was asked for at or behind the limit, and no more elements were counted. -/
def Respects (maxSize : Nat) (r : Except Fault Nat × (InputBuffer σ × (δ × List Nat))) : Prop :=
  (∀ i ∈ r.2.2.2, i < maxSize) ∧ ∀ n, r.1 = .ok n → n ≤ maxSize

variable [InputStream σ]

/-- Something other than a break comes next, seen in the state `t`. -/
def GoesOn (s t : InputBuffer σ) : Prop := ∃ c, peekByte s = (.ok c, t) ∧ c ≠ TypeCode.specialBreak.toByte

/-- So many elements of an indefinite range parse, from index `i` on, none of them a break. -/
inductive ParsedElements (f : Nat → Parse σ δ Unit) : Nat → Nat → InputBuffer σ × δ → InputBuffer σ × δ → Prop where
  | none {i : Nat} {s : InputBuffer σ × δ} : ParsedElements f i 0 s s
  | more {i n : Nat} {s t : InputBuffer σ} {d : δ} {u v : InputBuffer σ × δ} : GoesOn s t →
      f i (t, d) = (.ok (), u) → ParsedElements f (i + 1) n u v → ParsedElements f i (n + 1) (s, d) v

/-- The first `n` elements from index `i` on parse, and one more follows. -/
def RunsOver (f : Nat → Parse σ δ Unit) (i n : Nat) (s : InputBuffer σ × δ) : Prop :=
  ∃ u t, ParsedElements f i n s u ∧ GoesOn u.1 t

/-- An indefinite range of the type with more elements than the limit allows. -/
def OverLong (maxSize : Nat) (type : TypeCode) (f : Nat → Parse σ δ Unit) (s : InputBuffer σ) (d : δ) : Prop :=
  maxSize < sizeMax ∧ ∃ h t, parseItemHead s = (.ok h, t) ∧ h.type = type ∧ h.indefinite ∧ RunsOver f 0 maxSize (t, d)

section Limits
variable {f : Nat → Parse σ δ Unit} {maxSize : Nat}

theorem runsOver_zero {i : Nat} {s : InputBuffer σ} {d : δ} : RunsOver f i 0 (s, d) ↔ ∃ t, GoesOn s t := by
  constructor
  · intro h
    obtain ⟨u, t, hparsed, hmore⟩ := h
    cases hparsed
    exact ⟨t, hmore⟩
  · intro h
    obtain ⟨t, hmore⟩ := h
    exact ⟨(s, d), t, .none, hmore⟩

/-- There is an element to parse, and then there are the others. -/
theorem runsOver_succ {i n : Nat} {s t : InputBuffer σ} {d : δ} (hmore : GoesOn s t) :
    RunsOver f i (n + 1) (s, d) ↔ ∃ u, f i (t, d) = (.ok (), u) ∧ RunsOver f (i + 1) n u := by
  constructor
  · intro h
    obtain ⟨u, t', hparsed, hover⟩ := h
    cases hparsed with
    | more hmore' hf hrest =>
      obtain ⟨c, hc, -⟩ := hmore
      obtain ⟨c', hc', -⟩ := hmore'
      rw [hc] at hc'
      cases hc'
      exact ⟨_, hf, u, t', hrest, hover⟩
  · intro h
    obtain ⟨u, hf, v, t', hrest, hover⟩ := h
    exact ⟨v, t', .more hmore hf hrest, hover⟩

theorem not_runsOver {i n : Nat} {s : InputBuffer σ} {d : δ} (hend : ∀ t, ¬ GoesOn s t) : ¬ RunsOver f i n (s, d) := by
  intro h
  obtain ⟨u, t, hparsed, hmore⟩ := h
  cases hparsed with
  | none => exact hend t hmore
  | more hmore' => exact hend _ hmore'

/-! ### The loops -/

/-- What an indefinite range does at its next byte. -/
theorem endAtBreak_cases (i : Nat) (more : Parse σ δ Nat) (s : InputBuffer σ) (d : δ) :
    ((∀ t, ¬ GoesOn s t) ∧ ∃ r t, Detail.endAtBreak i more (s, d) = (r, (t, d)) ∧ ∀ n, r = .ok n → n = i) ∨
      ∃ t, GoesOn s t ∧ Detail.endAtBreak i more (s, d) = more (t, d) := by
  rcases hpeek : peekByte s with ⟨e | c, t⟩
  · refine .inl ⟨fun t' h => ?_, .error e, t, Action.bind_error _ (by rw [Action.onFst_apply, hpeek]), nofun⟩
    obtain ⟨c, hc, -⟩ := h
    rw [hpeek] at hc
    cases hc
  have hstep : Detail.endAtBreak i more (s, d) = _ := Action.bind_ok _ (Action.onFst_ok hpeek d)
  by_cases hbreak : c = TypeCode.specialBreak.toByte
  · rw [if_pos hbreak] at hstep
    refine .inl ⟨fun t' h => ?_, ?_⟩
    · obtain ⟨c', hc', hne⟩ := h
      rw [hpeek] at hc'
      cases hc'
      exact hne hbreak
    · rcases hdiscard : discardBuffered 1 t with ⟨e | _, t'⟩
      · exact ⟨.error e, t', hstep.trans (Action.bind_error _ (by rw [Action.onFst_apply, hdiscard])), nofun⟩
      · refine ⟨.ok i, t', hstep.trans (Action.bind_ok _ (Action.onFst_ok hdiscard d)), fun n hn => ?_⟩
        cases hn
        rfl
  · rw [if_neg hbreak] at hstep
    exact .inr ⟨t, ⟨c, hpeek, hbreak⟩, hstep⟩

/-- The log only grows. -/
theorem log_parseIndefiniteElements (left i : Nat) (s : InputBuffer σ) (d : δ) (l : List Nat) :
    l <+: (Detail.parseIndefiniteElements maxSize (logged f) left i (s, (d, l))).2.2.2 := by
  induction left generalizing i s d l with
  | zero =>
    rcases endAtBreak_cases i (err .itemValueOutOfRange) s (d, l) with ⟨-, r, t, ht, -⟩ | ⟨t, -, ht⟩
    · rw [Detail.parseIndefiniteElements, ht]
    · rw [Detail.parseIndefiniteElements, ht, err_apply]
  | succ left ih =>
    rw [Detail.parseIndefiniteElements]
    generalize hmore : (if maxSize < i then err .itemValueOutOfRange
      else logged f i >>= fun _ => Detail.parseIndefiniteElements maxSize (logged f) left (i + 1)) = more
    rcases endAtBreak_cases i more s (d, l) with ⟨-, r, t, ht, -⟩ | ⟨t, -, ht⟩
    · rw [ht]
    rw [ht, ← hmore]
    split
    · exact List.prefix_refl l
    · have hgrow : l <+: l ++ [i] := List.prefix_append l [i]
      rcases hf : f i (t, d) with ⟨e | _, u, d'⟩
      · rw [Action.bind_error _ (logged_error hf)]
        exact hgrow
      · rw [Action.bind_ok _ (logged_ok hf)]
        exact hgrow.trans (ih (i + 1) u d' (l ++ [i]))

/-- An indefinite range respects the limit if it does not run over it. -/
theorem respects_parseIndefiniteElements {left i : Nat} (hleft : i + left = sizeMax) (hi : i ≤ maxSize)
    (s : InputBuffer σ) (d : δ) {l : List Nat} (hl : ∀ j ∈ l, j < maxSize) :
    Respects maxSize (Detail.parseIndefiniteElements maxSize (logged f) left i (s, (d, l))) ↔
      ¬ (maxSize < sizeMax ∧ RunsOver f i (maxSize - i) (s, d)) := by
  induction left generalizing i s d l with
  | zero =>
    rw [Detail.parseIndefiniteElements]
    refine iff_of_true ?_ fun h => by omega
    rcases endAtBreak_cases i (err .itemValueOutOfRange) s (d, l) with ⟨-, r, t, ht, hr⟩ | ⟨t, -, ht⟩
    · rw [ht]
      exact ⟨hl, fun n hn => (hr n hn).le.trans hi⟩
    · rw [ht]
      exact ⟨hl, nofun⟩
  | succ left ih =>
    rw [Detail.parseIndefiniteElements]
    generalize hmore : (if maxSize < i then err .itemValueOutOfRange
      else logged f i >>= fun _ => Detail.parseIndefiniteElements maxSize (logged f) left (i + 1)) = more
    rcases endAtBreak_cases i more s (d, l) with ⟨hend, r, t, ht, hr⟩ | ⟨t, hgoes, ht⟩
    · rw [ht]
      exact iff_of_true ⟨hl, fun n hn => (hr n hn).le.trans hi⟩ fun h => not_runsOver hend h.2
    rw [ht, ← hmore, if_neg (Nat.not_lt.mpr hi)]
    rcases Nat.eq_or_lt_of_le hi with rfl | hlt
    · -- one element too many: its index is in the log, whatever becomes of it
      refine iff_of_false (fun hrespects => ?_) (not_not.mpr ⟨by omega, ?_⟩)
      · have hlog : i ∈ ((logged f i >>= fun _ => Detail.parseIndefiniteElements i (logged f) left (i + 1))
            (t, (d, l))).2.2.2 := by
          rcases hf : f i (t, d) with ⟨e | _, u, d'⟩
          · rw [Action.bind_error _ (logged_error hf)]
            exact List.mem_append_right l List.mem_cons_self
          · rw [Action.bind_ok _ (logged_ok hf)]
            exact (log_parseIndefiniteElements left (i + 1) u d' (l ++ [i])).subset
              (List.mem_append_right l List.mem_cons_self)
        exact Nat.lt_irrefl i (hrespects.1 i hlog)
      · rw [Nat.sub_self]
        exact runsOver_zero.mpr ⟨t, hgoes⟩
    · have hl' : ∀ j ∈ l ++ [i], j < maxSize := by
        intro j hj
        rcases List.mem_append.mp hj with hj | hj
        · exact hl j hj
        · rwa [List.mem_singleton.mp hj]
      obtain ⟨k, hk⟩ : ∃ k, maxSize - i = k + 1 := ⟨maxSize - i - 1, by omega⟩
      rw [hk, runsOver_succ hgoes]
      rcases hf : f i (t, d) with ⟨e | _, u, d'⟩
      · rw [Action.bind_error _ (logged_error hf)]
        refine iff_of_true ⟨hl', nofun⟩ fun h => ?_
        obtain ⟨-, v, hv, -⟩ := h
        cases hv
      · have hk' : maxSize - (i + 1) = k := by omega
        have hrest := ih (i := i + 1) (by omega) (by omega) u d' hl'
        rw [hk'] at hrest
        rw [Action.bind_ok _ (logged_ok hf)]
        refine hrest.trans (not_congr (and_congr_right fun _ => ?_))
        constructor
        · exact fun h => ⟨_, rfl, h⟩
        · intro h
          obtain ⟨v, hv, h⟩ := h
          cases hv
          exact h

omit [InputStream σ] in
/-- A range of no more elements than allowed respects the limit. -/
theorem respects_forRange {n : Nat} (hle : n ≤ maxSize) (s : InputBuffer σ) (d : δ) :
    Respects maxSize ((Action.forRange (logged f) 0 n >>= fun _ => pure n) (s, (d, []))) := by
  have hlog : ∀ j ∈ (Action.forRange (logged f) 0 n (s, (d, []))).2.2.2, j < maxSize := by
    intro j hj
    rcases log_forRange n 0 s d [] j hj with hj | hj
    · cases hj
    · omega
  rcases hrange : Action.forRange (logged f) 0 n (s, (d, [])) with ⟨e | _, u⟩
  · rw [hrange] at hlog
    rw [Action.bind_error _ hrange]
    exact ⟨hlog, nofun⟩
  · rw [hrange] at hlog
    rw [Action.bind_ok _ hrange]
    refine ⟨hlog, fun m hm => ?_⟩
    cases hm
    exact hle

/-- A range respects its limit exactly if it is not over long. -/
theorem respects_parseArrayLike (type : TypeCode) (s : InputBuffer σ) (d : δ) :
    Respects maxSize (Detail.parseArrayLike true maxSize type (logged f) (s, (d, []))) ↔
      ¬ OverLong maxSize type f s d := by
  have hnil : ∀ j ∈ ([] : List Nat), j < maxSize := nofun
  rcases hhead : parseItemHead s with ⟨e | h, t⟩
  · have hstep : Detail.parseArrayLike true maxSize type (logged f) (s, (d, [])) = _ :=
      Action.bind_error _ (by rw [Action.onFst_apply, hhead])
    rw [hstep]
    refine iff_of_true ⟨hnil, nofun⟩ fun hlong => ?_
    obtain ⟨-, h, t', hhead', -⟩ := hlong
    rw [hhead] at hhead'
    cases hhead'
  have hstep : Detail.parseArrayLike true maxSize type (logged f) (s, (d, [])) = _ :=
    Action.bind_ok _ (Action.onFst_ok hhead (d, []))
  have hlong : OverLong maxSize type f s d ↔
      maxSize < sizeMax ∧ h.type = type ∧ h.indefinite ∧ RunsOver f 0 maxSize (t, d) := by
    refine and_congr_right fun _ => ?_
    constructor
    · intro hex
      obtain ⟨h', t', hhead', hrest⟩ := hex
      rw [hhead] at hhead'
      cases hhead'
      exact hrest
    · exact fun hrest => ⟨h, t, hhead, hrest⟩
  rw [hstep, hlong]
  by_cases htype : h.type ≠ type
  · rw [if_pos htype]
    exact iff_of_true ⟨hnil, nofun⟩ fun hlong => htype hlong.2.1
  rw [if_neg htype]
  by_cases hindefinite : h.indefinite
  · rw [if_pos hindefinite, if_pos rfl]
    have hloop := respects_parseIndefiniteElements (f := f) (i := 0) (Nat.zero_add _) (Nat.zero_le maxSize) t d hnil
    rw [Nat.sub_zero] at hloop
    refine hloop.trans (not_congr (and_congr_right fun _ => ?_))
    exact ⟨fun hover => ⟨not_not.mp htype, hindefinite, hover⟩, fun hlong => hlong.2.2⟩
  · rw [if_neg hindefinite]
    refine iff_of_true ?_ fun hlong => hindefinite hlong.2.2.1
    have hsize : Action.onFst inputSizeNow (t, (d, ([] : List Nat))) = (.ok t.inputSize, (t, (d, []))) := rfl
    rw [Action.bind_ok _ hsize]
    generalize (t.inputSize >>> if type = .map then 1 else 0) = most
    by_cases hmissing : most < h.value
    · rw [if_pos hmissing]
      exact ⟨hnil, nofun⟩
    rw [if_neg hmissing]
    by_cases hle : maxSize < h.value
    · rw [if_pos hle]
      exact ⟨hnil, nofun⟩
    rw [if_neg hle]
    exact respects_forRange (Nat.not_lt.mp hle) t d

/-- If the parser of elements always fails at the limit, an over long range fails in that way. -/
theorem parseIndefiniteElements_runsOver {e : Fault} (he : ∀ p, (f maxSize p).1 = .error e) (hmax : maxSize < sizeMax)
    {n left i : Nat} (hn : i + n = maxSize) (hleft : i + left = sizeMax) {s : InputBuffer σ} {d : δ}
    (hover : RunsOver f i n (s, d)) : (Detail.parseIndefiniteElements maxSize f left i (s, d)).1 = .error e := by
  obtain ⟨left, rfl⟩ : ∃ k, left = k + 1 := ⟨left - 1, by omega⟩
  have hle : ¬ maxSize < i := by omega
  induction n generalizing left i s d with
  | zero =>
    obtain rfl : i = maxSize := hn
    obtain ⟨t, hgoes⟩ := runsOver_zero.mp hover
    rw [Detail.parseIndefiniteElements]
    rcases endAtBreak_cases i _ s d with ⟨hend, -⟩ | ⟨u, -, hstep⟩
    · exact absurd hgoes (hend t)
    rw [hstep, if_neg hle]
    have hfails := he (u, d)
    rcases hf : f i (u, d) with ⟨e' | _, v⟩ <;> rw [hf] at hfails <;> cases hfails
    exact congrArg Prod.fst (Action.bind_error _ hf)
  | succ n ih =>
    rw [Detail.parseIndefiniteElements]
    rcases endAtBreak_cases i _ s d with ⟨hend, -⟩ | ⟨u, hgoes, hstep⟩
    · exact absurd hover (not_runsOver hend)
    rw [hstep, if_neg hle]
    obtain ⟨⟨v, d'⟩, hf, hrest⟩ := (runsOver_succ hgoes).mp hover
    obtain ⟨left, rfl⟩ : ∃ k, left = k + 1 := ⟨left - 1, by omega⟩
    exact (congrArg Prod.fst (Action.bind_ok _ hf)).trans (ih (by omega) hrest left (by omega) (by omega))

/-- An over long input takes the decoder of an array past the array's end. -/
theorem arrayDecoder_overLong {n : Nat} (c : Decoder α) (s : InputBuffer σ) (vs : Fin n → α)
    (hlong : OverLong n .array (Detail.decodeAt c) s vs) :
    ((arrayDecoder n c).decode σ (s, vs)).1 = .error .outOfBounds := by
  obtain ⟨hmax, h, t, hhead, htype, hindefinite, hover⟩ := hlong
  have hend : ∀ p : InputBuffer σ × (Fin n → α), (Detail.decodeAt c n p).1 = .error .outOfBounds := by
    intro p
    rw [Detail.decodeAt, dif_neg (Nat.lt_irrefl n)]
    rfl
  have hparse : (parseArray n (Detail.decodeAt c) (s, vs)).1 = .error .outOfBounds := by
    have hstep : parseArray n (Detail.decodeAt c) (s, vs) = _ := Action.bind_ok _ (Action.onFst_ok hhead vs)
    rw [hstep, if_neg (not_not.mpr htype), if_pos hindefinite]
    exact parseIndefiniteElements_runsOver hend hmax (Nat.zero_add n) (Nat.zero_add _) hover
  rcases hrun : parseArray n (Detail.decodeAt c) (s, vs) with ⟨e | _, u⟩ <;> rw [hrun] at hparse <;> cases hparse
  exact congrArg Prod.fst (Action.bind_error _ hrun)

end Limits

/-- The limit on elements is kept exactly on the inputs that are not over long. -/
theorem parseArrayLike_respects_iff (f : Nat → Parse σ δ Unit) (maxSize : Nat) (s : InputBuffer σ) (d : δ) :
    (AgreeButLog (parseArray maxSize (logged f)) (parseArray maxSize f) ∧
      (Respects maxSize (parseArray maxSize (logged f) (s, (d, []))) ↔ ¬ OverLong maxSize .array f s d)) ∧
    (AgreeButLog (parseMap maxSize (logged f)) (parseMap maxSize f) ∧
      (Respects maxSize (parseMap maxSize (logged f) (s, (d, []))) ↔ ¬ OverLong maxSize .map f s d)) ∧
    ∀ {α : Type} (n : Nat) (c : Decoder α) (vs : Fin n → α),
      (Respects n (parseArray n (logged (Detail.decodeAt c)) (s, (vs, []))) ↔
        ¬ OverLong n .array (Detail.decodeAt c) s vs) ∧
      (OverLong n .array (Detail.decodeAt c) s vs → ((arrayDecoder n c).decode σ (s, vs)).1 = .error .outOfBounds) :=
  ⟨⟨agree_parseArrayLike_log f true maxSize .array, respects_parseArrayLike .array s d⟩,
    ⟨agree_parseArrayLike_log f true maxSize .map, respects_parseArrayLike .map s d⟩,
    fun _ c vs => ⟨respects_parseArrayLike .array s vs, arrayDecoder_overLong c s vs⟩⟩

/-- Two booleans without an announced count, for an array of one. -/
theorem overLong_boolArray :
    OverLong 1 .array (Detail.decodeAt boolDecoder) (memoryInput [0x9f, 0xf4, 0xf4, 0xff]) fun _ : Fin 1 => true := by
  have htakes := takes_parseBoolean true false [0xf4, 0xff] (Nat.zero_le _) (by decide)
  have hfirst : Detail.decodeAt boolDecoder 0 (memoryInput [0xf4, 0xf4, 0xff], fun _ : Fin 1 => true) =
      (.ok (), (memoryInput [0xf4, 0xff], Function.update (fun _ => true) ⟨0, by decide⟩ false)) := by
    rw [Detail.decodeAt, dif_pos (by decide)]
    exact Action.within_ok htakes
  refine ⟨by decide, ⟨.array, 1, 1, 31⟩, memoryInput [0xf4, 0xf4, 0xff],
    parseItemHead_memory (b := [0x9f, 0xf4, 0xf4, 0xff]) (by decide) (by decide +kernel), rfl, rfl, ?_⟩
  exact (runsOver_succ ⟨0xf4, peekByte_memory, by decide⟩).mpr ⟨_, hfirst,
    runsOver_zero.mpr ⟨_, 0xf4, peekByte_memory, by decide⟩⟩

/-- The second of them is decoded past the end of the array. -/
theorem parseArrayLike_notRespects :
    ¬ Respects 1 (parseArray 1 (logged (Detail.decodeAt boolDecoder))
        (memoryInput [0x9f, 0xf4, 0xf4, 0xff], ((fun _ : Fin 1 => true), []))) ∧
      ((arrayDecoder 1 boolDecoder).decode MemoryInputStream
        (memoryInput [0x9f, 0xf4, 0xf4, 0xff], fun _ => true)).1 = .error .outOfBounds :=
  ⟨fun h => (respects_parseArrayLike .array _ _).mp h overLong_boolArray,
    arrayDecoder_overLong boolDecoder _ _ overLong_boolArray⟩

end DeepPack
