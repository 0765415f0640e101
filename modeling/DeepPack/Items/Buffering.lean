import DeepPack.Items.Head
import DeepPack.Items.ParseRanges

/-! Parsing does not depend on how the input is buffered.

Two inputs are the same when they have the same bytes left to give. The parsers of
items, run on two such inputs, come to one result and to inputs that are the same
again, whether they succeed or fail and wherever the buffers end. -/
namespace DeepPack
open Library InputBuffer

theorem agree_err {ρ υ β : Type} {R : ρ → υ → Prop} (e : Errc) :
    Action.Agree R R R (err e : Action Fault ρ β) (err e : Action Fault υ β) :=
  Action.agree_fail _ fun _ _ h => h

variable {σ τ δ α : Type} [InputStream σ] [InputStream τ]

/-- Two inputs with the same bytes left. -/
def Same (C : InputContract σ) (D : InputContract τ) (s : InputBuffer σ) (t : InputBuffer τ) : Prop :=
  C.Valid s ∧ D.Valid t ∧ C.unread s = D.unread t

/-- So many of these bytes are buffered on both sides. -/
def SameBuffered (C : InputContract σ) (D : InputContract τ) (n : Nat) (s : InputBuffer σ)
    (t : InputBuffer τ) : Prop :=
  Same C D s t ∧ n ≤ s.buffer.length ∧ n ≤ t.buffer.length

/-- Parsers that make the same of the same input. -/
abbrev InputAgree (C : InputContract σ) (D : InputContract τ) (x : Input σ α) (y : Input τ α) : Prop :=
  Action.Agree (Same C D) (Same C D) (Same C D) x y

/-- The same for parsers with a destination. -/
abbrev ParseAgree (C : InputContract σ) (D : InputContract τ) (x : Parse σ δ α) (y : Parse τ δ α) : Prop :=
  Action.Agree (Action.Beside (Same C D)) (Action.Beside (Same C D)) (Action.Beside (Same C D)) x y

variable {C : InputContract σ} {D : InputContract τ}

/-- What is a function of the unread bytes is the same for the same input. -/
theorem agree_of_does {x : Input σ α} {y : Input τ α} (r : List UInt8 → Except Fault α)
    (rest : List UInt8 → List UInt8)
    (hx : ∀ s, C.Valid s → C.Does x s (r (C.unread s)) (rest (C.unread s)))
    (hy : ∀ t, D.Valid t → D.Does y t (r (D.unread t)) (rest (D.unread t))) : InputAgree C D x y := by
  intro s t h
  obtain ⟨hs, ht, hst⟩ := h
  obtain ⟨s', hs', hvs, hus⟩ := hx s hs
  obtain ⟨t', ht', hvt, hut⟩ := hy t ht
  have hsame : Same C D s' t' := ⟨hvs, hvt, by rw [hus, hut, hst]⟩
  rw [hs', ht']
  exact ⟨by rw [hst], fun _ _ => hsame, fun _ _ => hsame⟩

/-! ### The buffer -/

theorem agree_inputSizeNow : InputAgree C D inputSizeNow inputSizeNow :=
  Action.agree_gets _ _ fun s t h => by rw [C.inputSize_eq h.1, D.inputSize_eq h.2.1, h.2.2]

theorem does_bulkRead {s : InputBuffer σ} (hs : C.Valid s) (n : Nat) :
    C.Does (bulkRead n) s
      (if n ≤ (C.unread s).length then .ok ((C.unread s).take n) else .error (.errc .endOfStream))
      (if n ≤ (C.unread s).length then (C.unread s).drop n else C.unread s) := by
  split
  · rename_i hn
    exact C.bulk hs hn
  · rename_i hn
    exact InputContract.bulk_short hs (Nat.lt_of_not_le hn)

theorem agree_bulkRead (n : Nat) : InputAgree C D (bulkRead n) (bulkRead n) :=
  agree_of_does (fun u => if n ≤ u.length then .ok (u.take n) else .error (.errc .endOfStream))
    (fun u => if n ≤ u.length then u.drop n else u)
    (fun _ hs => does_bulkRead hs n) fun _ ht => does_bulkRead ht n

/-- One byte is asked for: it is there on both sides or on neither. -/
theorem agree_requireOne : Action.Agree (Same C D) (SameBuffered C D 1) (Same C D) (requireInput 1) (requireInput 1) := by
  intro s t h
  obtain ⟨hs, ht, hst⟩ := h
  by_cases hlen : 1 ≤ (C.unread s).length
  · obtain ⟨s', hs', hvs, hus, hbs⟩ := C.require hs (by decide) hlen
    obtain ⟨t', ht', hvt, hut, hbt⟩ := D.require ht (by decide) (hst ▸ hlen)
    rw [hs', ht']
    exact ⟨rfl, fun _ _ => ⟨⟨hvs, hvt, by rw [hus, hut, hst]⟩, hbs, hbt⟩, nofun⟩
  · obtain ⟨s', hs', hvs, hus⟩ := InputContract.require_short hs (Nat.lt_of_not_le hlen)
    obtain ⟨t', ht', hvt, hut⟩ := InputContract.require_short ht (Nat.lt_of_not_le (hst ▸ hlen))
    rw [hs', ht']
    exact ⟨rfl, nofun, fun _ _ => ⟨hvs, hvt, by rw [hus, hut, hst]⟩⟩

theorem agree_dataAt_zero :
    Action.Agree (SameBuffered C D 1) (SameBuffered C D 1) (Same C D) (dataAt 0) (dataAt 0) := by
  intro s t h
  obtain ⟨⟨hs, ht, hst⟩, hbs, hbt⟩ := h
  have hlen := InputContract.buffer_length_le hs
  obtain ⟨x, hx⟩ : ∃ x, (C.unread s)[0]? = some x := ⟨_, List.getElem?_eq_getElem (by omega)⟩
  rw [InputContract.dataAt_eq hs hbs hx, InputContract.dataAt_eq ht hbt (hst ▸ hx)]
  exact ⟨rfl, fun _ _ => ⟨⟨hs, ht, hst⟩, hbs, hbt⟩, nofun⟩

theorem agree_discardBuffered (n : Nat) :
    Action.Agree (SameBuffered C D n) (Same C D) (Same C D) (discardBuffered n) (discardBuffered n) := by
  intro s t h
  obtain ⟨⟨hs, ht, hst⟩, hbs, hbt⟩ := h
  obtain ⟨s', hs', hvs, hus⟩ := C.discard hs hbs
  obtain ⟨t', ht', hvt, hut⟩ := D.discard ht hbt
  rw [hs', ht']
  exact ⟨rfl, fun _ _ => ⟨hvs, hvt, by rw [hus, hut, hst]⟩, nofun⟩

theorem agree_peekByte : Action.Agree (Same C D) (SameBuffered C D 1) (Same C D) peekByte peekByte :=
  agree_requireOne.bind fun _ => agree_dataAt_zero

/-! ### Heads and scalars -/

theorem agree_parseItemHead : InputAgree C D parseItemHead parseItemHead :=
  agree_of_does (fun u => (headOf u).mapError .errc) (fun u => Detail.restAfter true u (headOf u))
    (fun _ hs => does_detailParseItemHead hs true) fun _ ht => does_detailParseItemHead ht true

theorem agree_expectItemHead (type : TypeCode) (value : Nat) :
    InputAgree C D (expectItemHead type value) (expectItemHead type value) :=
  agree_parseItemHead.bind fun _ =>
    (agree_err _).ite (.ite (.ite (.ite (Action.agree_pure _) (agree_err _)) (agree_err _))
      (.ite (agree_err _) (Action.agree_pure _)))

theorem agree_assign (v : δ) : ParseAgree C D (assign v) (assign v) := Action.agree_onSnd _

theorem agree_parseUnsignedInteger (t : IntType) (limit : Nat) :
    ParseAgree C D (parseUnsignedInteger t limit) (parseUnsignedInteger t limit) :=
  agree_parseItemHead.onFst.bind fun _ => (agree_err _).ite (.ite (agree_err _) (agree_assign _))

theorem agree_parseInteger (t : IntType) : ParseAgree C D (parseInteger t) (parseInteger t) := by
  refine .ite ?_ (agree_parseUnsignedInteger t _)
  exact agree_parseItemHead.onFst.bind fun _ => (agree_err _).ite (.ite (agree_err _) (agree_assign _))

theorem agree_parseFloatingPoint (t : FloatType) :
    ParseAgree C D (parseFloatingPoint t) (parseFloatingPoint t) :=
  agree_parseItemHead.onFst.bind fun _ =>
    (agree_err _).ite (.ite (.ite (agree_assign _) (agree_err _)) (.ite (agree_assign _) (agree_assign _)))

/-- Asking for a byte only if none is buffered comes to the same as asking for one. -/
theorem available_eq {β : Type} {s : InputBuffer σ × δ} (hs : C.Valid s.1) (k : Unit → Parse σ δ β) :
    (do if (← Action.onFst empty) = true then Action.onFst (requireInput 1) >>= k else k ()) s =
      (Action.onFst (requireInput 1) >>= k) s := by
  obtain ⟨i, d⟩ := s
  replace hs : C.Valid i := hs
  have hread : Action.onFst empty (i, d) = (.ok i.buffer.isEmpty, (i, d)) := rfl
  apply (Action.bind_ok _ hread).trans
  show (if i.buffer.isEmpty = true then Action.onFst (requireInput 1) >>= k else k ()) (i, d) = _
  by_cases hempty : i.buffer.isEmpty
  · rw [if_pos hempty]
  · have hbuffered : requireInput 1 i = (.ok (), i) := by
      have hlen := InputContract.buffer_length_le hs
      rw [List.isEmpty_iff_length_eq_zero] at hempty
      unfold requireInput
      rw [if_neg (by rw [C.inputSize_eq hs]; omega), if_neg (by omega)]
    have hrequire : Action.onFst (requireInput 1) (i, d) = (.ok (), (i, d)) := by
      rw [Action.onFst_apply, hbuffered]
    rw [if_neg hempty, Action.bind_ok k hrequire]

theorem agree_parseBoolean : ParseAgree C D parseBoolean parseBoolean := by
  intro s t hst
  unfold parseBoolean
  rw [available_eq hst.1.1, available_eq hst.1.2.1]
  refine Action.Agree.bind agree_requireOne.onFst (fun _ => agree_dataAt_zero.onFst.bind fun _ => ?_) s t hst
  refine .ite (Action.agree_fail _ fun _ _ h => ⟨h.1.1, h.2⟩) ?_
  exact ((Action.agree_onSnd _).weakenError fun _ _ h => ⟨h.1.1, h.2⟩).bind fun _ => (agree_discardBuffered 1).onFst

/-! ### Strings and ranges -/

/-- It is the reading that fails, where reading to a destination does. -/
theorem bulkRead_of_error {B : BlobContainer δ} {i n : Nat} {s t : InputBuffer σ × δ} {e : Fault}
    (h : (Action.onFst (bulkRead n) >>= fun bytes => Action.onSnd (Action.modify (B.overwrite i bytes))) s = (.error e, t)) :
    bulkRead n s.1 = (.error e, t.1) := by
  obtain ⟨s, d⟩ := s
  rcases hread : bulkRead n s with ⟨e' | bytes, u⟩
  · simp only [Action.bind_apply, Action.onFst_apply, hread] at h
    cases h
    rfl
  · simp only [Action.bind_apply, Action.onFst_apply, hread] at h
    cases h

theorem agree_readTo (B : BlobContainer δ) (i n : Nat) :
    ParseAgree C D (Detail.readTo B i n) (Detail.readTo B i n) := by
  have hread : ParseAgree C D
      (Action.onFst (bulkRead n) >>= fun bytes => Action.onSnd (Action.modify (B.overwrite i bytes)))
      (Action.onFst (bulkRead n) >>= fun bytes => Action.onSnd (Action.modify (B.overwrite i bytes))) :=
    (agree_bulkRead n).onFst.bind fun _ => Action.agree_onSnd _
  refine hread.spoiling fun s t e s' t' hst hs ht hend => ⟨hend.1, ?_⟩
  show B.overwrite i (bulkCopied n s.1) s'.2 = B.overwrite i (bulkCopied n t.1) t'.2
  rw [InputContract.bulkCopied_eq hst.1.1 (bulkRead_of_error hs),
    InputContract.bulkCopied_eq hst.1.2.1 (bulkRead_of_error ht), hend.2]

theorem agree_parseBlobChunks (B : BlobContainer δ) (maxSize : Nat) (expectedType : TypeCode) (rounds size : Nat) :
    ParseAgree C D (Detail.parseBlobChunks B maxSize expectedType rounds size)
      (Detail.parseBlobChunks B maxSize expectedType rounds size) := by
  induction rounds generalizing size with
  | zero => exact Action.agree_fail _ fun _ _ h => h
  | succ rounds ih =>
    refine agree_parseItemHead.onFst.bind fun chunkItem => ?_
    refine (Action.agree_pure _).ite ((agree_err _).ite (agree_inputSizeNow.onFst.bind fun _ => ?_))
    refine (agree_err _).ite ((agree_err _).ite ?_)
    exact (Action.agree_onSnd _).bind fun _ => (agree_readTo B _ _).bind fun _ => ih _

theorem agree_parseBlob (B : BlobContainer δ) (allow : Bool) (maxSize : Nat) (expectedType : TypeCode) :
    ParseAgree C D (Detail.parseBlob B allow maxSize expectedType)
      (Detail.parseBlob B allow maxSize expectedType) := by
  refine agree_parseItemHead.onFst.bind fun head => (agree_err _).ite (.ite (.ite ?_ (agree_err _)) ?_)
  · exact (Action.agree_onSnd _).bind fun _ => agree_inputSizeNow.onFst.bind fun _ =>
      agree_parseBlobChunks B maxSize expectedType _ 0
  · refine agree_inputSizeNow.onFst.bind fun _ => (agree_err _).ite ((agree_err _).ite ?_)
    exact (Action.agree_onSnd _).bind fun _ => (agree_readTo B 0 _).bind fun _ => Action.agree_pure _

section Ranges
variable {f : Nat → Parse σ δ Unit} {g : Nat → Parse τ δ Unit}

theorem agree_endAtBreak (i : Nat) {x : Parse σ δ Nat} {y : Parse τ δ Nat} (h : ParseAgree C D x y) :
    ParseAgree C D (Detail.endAtBreak i x) (Detail.endAtBreak i y) := by
  refine agree_peekByte.onFst.bind fun _ => .ite ?_ (h.weaken fun _ _ hst => ⟨hst.1.1, hst.2⟩)
  exact (agree_discardBuffered 1).onFst.bind fun _ => Action.agree_pure _

theorem agree_parseIndefiniteElements (h : ∀ i, ParseAgree C D (f i) (g i)) (maxSize left i : Nat) :
    ParseAgree C D (Detail.parseIndefiniteElements maxSize f left i)
      (Detail.parseIndefiniteElements maxSize g left i) := by
  induction left generalizing i with
  | zero => exact agree_endAtBreak i (agree_err _)
  | succ left ih => exact agree_endAtBreak i ((agree_err _).ite ((h i).bind fun _ => ih (i + 1)))

theorem agree_parseArrayLike (h : ∀ i, ParseAgree C D (f i) (g i)) (allow : Bool) (maxSize : Nat)
    (expectedType : TypeCode) :
    ParseAgree C D (Detail.parseArrayLike allow maxSize expectedType f)
      (Detail.parseArrayLike allow maxSize expectedType g) := by
  refine agree_parseItemHead.onFst.bind fun head => (agree_err _).ite (.ite (.ite ?_ (agree_err _)) ?_)
  · exact agree_parseIndefiniteElements h maxSize _ 0
  · refine agree_inputSizeNow.onFst.bind fun _ => (agree_err _).ite ((agree_err _).ite ?_)
    exact (Action.Agree.forRange h 0 _).bind fun _ => Action.agree_pure _

end Ranges
end DeepPack
