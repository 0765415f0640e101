import DeepPack.Items.ParseRanges
import DeepPack.Streams.MemoryInputStream

/-! The sizes the parsers of strings and ranges ask their container for.

A container is asked for no more than the input had when the item began. It is made to
watch the sizes: one above a limit leaves it in a state of its own, `none`, which it never
leaves again, and a run in which it is `some` at the end was asked for nothing above the
limit. -/
namespace DeepPack
open Library InputBuffer

/-- A stream whose `input_size()` is exact for as long as nothing fails: it falls by what
is consumed, and not otherwise. -/
structure ExactInput (σ : Type) [InputStream σ] where
  /-- The states the stream can be in. -/
  Valid : InputBuffer σ → Prop
  buffered : ∀ {s}, Valid s → s.buffer.length ≤ s.inputSize
  inputSize_lt : ∀ {s}, Valid s → s.inputSize < wordLimit
  discard : ∀ {s t n}, Valid s → discardBuffered n s = (.ok (), t) → Valid t
  require : ∀ {s t n}, Valid s → n ≤ 9 → requireInput n s = (.ok (), t) → Valid t ∧ t.inputSize = s.inputSize
  bulk : ∀ {s t n bytes}, Valid s → bulkRead n s = (.ok bytes, t) → Valid t ∧ t.inputSize + n = s.inputSize

/-- What was discarded was buffered. -/
theorem buffered_of_discard {σ : Type} {s t : InputBuffer σ} {n : Nat} (h : discardBuffered n s = (.ok (), t)) :
    n ≤ s.buffer.length := by
  by_contra hn
  simp [discardBuffered, hn] at h

/-- An honest input has an exact size. -/
def InputContract.toExact {σ : Type} [InputStream σ] (C : InputContract σ) : ExactInput σ where
  Valid := C.Valid
  buffered h := by
    rw [C.inputSize_eq h]
    exact C.buffer_length_le h
  inputSize_lt h := by
    rw [C.inputSize_eq h]
    exact C.inputSize_lt h
  discard := by
    intro s t n hs h
    obtain ⟨t', ht', hv, -⟩ := C.discard hs (buffered_of_discard h)
    rw [ht'] at h
    cases h
    exact hv
  require := by
    intro s t n hs hn h
    by_cases hshort : (C.unread s).length < n
    · obtain ⟨t', ht', -, -⟩ := C.require_short hs hshort
      rw [ht'] at h
      cases h
    · obtain ⟨t', ht', hv, hu, -⟩ := C.require hs hn (Nat.not_lt.mp hshort)
      rw [ht'] at h
      cases h
      rw [C.inputSize_eq hv, hu, C.inputSize_eq hs]
      exact ⟨hv, rfl⟩
  bulk := by
    intro s t n bytes hs h
    by_cases hshort : (C.unread s).length < n
    · obtain ⟨t', ht', -, -⟩ := C.bulk_short hs hshort
      rw [ht'] at h
      cases h
    · obtain ⟨t', ht', hv, hu⟩ := C.bulk hs (Nat.not_lt.mp hshort)
      rw [ht'] at h
      cases h
      rw [C.inputSize_eq hv, hu, C.inputSize_eq hs, List.length_drop]
      exact ⟨hv, by omega⟩

namespace ExactInput
variable {σ α β : Type} [InputStream σ] (C : ExactInput σ)

/-- What succeeds leaves no more input than there was. -/
def Consumes (x : Input σ α) : Prop :=
  ∀ s a t, C.Valid s → x s = (.ok a, t) → C.Valid t ∧ t.inputSize ≤ s.inputSize

variable {C}

theorem consumes_pure (a : α) : C.Consumes (pure a : Input σ α) := by
  intro s b t hs h
  cases h
  exact ⟨hs, Nat.le_refl _⟩

theorem consumes_err (e : Errc) : C.Consumes (err e : Input σ α) := by
  intro s a t hs h
  cases h

theorem consumes_gets (f : InputBuffer σ → α) : C.Consumes (Action.gets f : Input σ α) := by
  intro s a t hs h
  cases h
  exact ⟨hs, Nat.le_refl _⟩

theorem Consumes.bind {x : Input σ α} {f : α → Input σ β} (hx : C.Consumes x) (hf : ∀ a, C.Consumes (f a)) :
    C.Consumes (x >>= f) := by
  intro s b t hs h
  obtain ⟨a, u, hxu, hfu⟩ := Action.bind_eq_ok.mp h
  obtain ⟨hu, hle⟩ := hx _ _ _ hs hxu
  obtain ⟨ht, hle'⟩ := hf _ _ _ _ hu hfu
  exact ⟨ht, hle'.trans hle⟩

theorem Consumes.ite {c : Prop} [Decidable c] {x y : Input σ α} (hx : C.Consumes x) (hy : C.Consumes y) :
    C.Consumes (if c then x else y) := by
  split
  · exact hx
  · exact hy

theorem consumes_dataAt (i : Nat) : C.Consumes (dataAt i) := by
  intro s a t hs h
  unfold dataAt at h
  split at h
  · cases h
    exact ⟨hs, Nat.le_refl _⟩
  · cases h

theorem consumes_dataSpan (i n : Nat) : C.Consumes (dataSpan i n) := by
  intro s a t hs h
  unfold dataSpan at h
  split at h
  · cases h
    exact ⟨hs, Nat.le_refl _⟩
  · cases h

theorem consumes_require {n : Nat} (hn : n ≤ 9) : C.Consumes (requireInput n) := by
  intro s a t hs h
  obtain ⟨ht, hsize⟩ := C.require hs hn h
  exact ⟨ht, Nat.le_of_eq hsize⟩

theorem consumes_discard (n : Nat) : C.Consumes (discardBuffered n) := by
  intro s a t hs h
  have ht := C.discard hs h
  have hbuffered := C.buffered hs
  have hlt := C.inputSize_lt hs
  unfold discardBuffered at h
  split at h
  · cases h
    refine ⟨ht, ?_⟩
    simp only [wordLimit] at hlt
    simp only [wrapSub_of_le (show n ≤ s.inputSize by omega) hlt]
    omega
  · cases h

theorem consumes_loadArgument (speculative : Bool) {power : Nat} (hpower : power ≤ 3) :
    C.Consumes (Detail.loadArgument speculative power : Input σ Nat) := by
  unfold Detail.loadArgument
  have hsize : 1 + 1 <<< power ≤ 9 := by
    have hall : ∀ p ≤ 3, 1 + 1 <<< p ≤ 9 := by decide
    exact hall power hpower
  apply Consumes.ite
  · exact (consumes_dataSpan 1 8).bind fun _ => consumes_pure _
  · exact (consumes_require hsize).bind fun _ => (consumes_dataSpan _ _).bind fun _ => consumes_pure _

theorem consumes_completeHead (speculative : Bool) (info : ItemHead) :
    C.Consumes (Detail.completeHead speculative info : Input σ ItemHead) := by
  unfold Detail.completeHead
  by_cases hinline : info.value ≤ inlineValueMax
  · rw [if_pos hinline]
    exact consumes_pure _
  rw [if_neg hinline]
  by_cases hargument : info.value ≤ Detail.itemVarIntCodingThreshold
  · rw [if_pos hargument]
    have hpower : info.value - (inlineValueMax + 1) ≤ 3 := by
      simp only [Detail.itemVarIntCodingThreshold, inlineValueMax] at hargument ⊢
      omega
    exact (consumes_loadArgument speculative hpower).bind fun _ => (consumes_err _).ite (consumes_pure _)
  · rw [if_neg hargument]
    exact (consumes_pure _).ite (consumes_err _)

theorem consumes_parseItemHead : C.Consumes (parseItemHead : Input σ ItemHead) := by
  have hbody : ∀ speculative, C.Consumes (Detail.doParseItemHead speculative true : Input σ ItemHead) := by
    intro speculative
    apply (consumes_dataAt 0).bind
    intro first
    apply (consumes_completeHead speculative _).bind
    intro info
    exact (consumes_discard _).bind fun _ => consumes_pure _
  apply (consumes_gets _).bind
  intro nothing
  have hrest : C.Consumes (do
      if varUintMaxSize ≤ (← size) then Detail.doParseItemHead true true
      else Detail.doParseItemHead false true : Input σ ItemHead) :=
    (consumes_gets _).bind fun _ => (hbody true).ite (hbody false)
  cases nothing with
  | false => exact hrest
  | true => exact (consumes_require (by decide)).bind fun _ => hrest

end ExactInput

variable {σ δ α β : Type}

/-- The container, watched: it is `none` from the first size above the limit on. -/
def BlobContainer.watched (limit : Nat) (B : BlobContainer δ) : BlobContainer (Option δ) where
  resize n
    | some d => if n ≤ limit then (B.resize n d).map some else some none
    | none => some none
  overwrite i bytes := Option.map (B.overwrite i bytes)

example : (BlobContainer.growable.watched 3).resize 4 (some []) = some none := rfl

/-- A `container_reserve`, watched. -/
def watchedReserve (limit : Nat) (reserve : Nat → Action Fault δ Unit) (n : Nat) : Action Fault (Option δ) Unit
  | some d => if n ≤ limit then ((reserve n d).1, some (reserve n d).2) else (.ok (), none)
  | none => (.ok (), none)

/-- A parser of elements on a watched container. -/
def onWatched (f : Nat → Parse σ δ Unit) (i : Nat) : Parse σ (Option δ) Unit
  | (s, some d) => ((f i (s, d)).1, ((f i (s, d)).2.1, some (f i (s, d)).2.2))
  | (s, none) => (.ok (), (s, none))

/-- What came of a run, with a watched container that is still `some`. -/
def unnoticed (r : Except Fault α × (InputBuffer σ × δ)) : Except Fault α × (InputBuffer σ × Option δ) :=
  (r.1, (r.2.1, some r.2.2))

/-- The watched run is the plain one and the watch has seen nothing. -/
def Unnoticed (x' : Parse σ (Option δ) α) (x : Parse σ δ α) (s : InputBuffer σ) (d : δ) : Prop :=
  x' (s, some d) = unnoticed (x (s, d))

section Watching
variable {x' : Parse σ (Option δ) α} {x : Parse σ δ α} {s : InputBuffer σ} {d : δ}

theorem Unnoticed.bind {f' : α → Parse σ (Option δ) β} {f : α → Parse σ δ β} (hx : Unnoticed x' x s d)
    (hf : ∀ a t d', x (s, d) = (.ok a, (t, d')) → Unnoticed (f' a) (f a) t d') :
    Unnoticed (x' >>= f') (x >>= f) s d := by
  unfold Unnoticed at hx ⊢
  rw [Action.bind_apply, Action.bind_apply, hx]
  rcases hrun : x (s, d) with ⟨e | a, t, d'⟩
  · rfl
  · exact hf a t d' hrun

theorem Unnoticed.ite {c : Prop} [Decidable c] {y' : Parse σ (Option δ) α} {y : Parse σ δ α}
    (hx : c → Unnoticed x' x s d) (hy : ¬ c → Unnoticed y' y s d) :
    Unnoticed (if c then x' else y') (if c then x else y) s d := by
  split
  · exact hx ‹c›
  · exact hy ‹¬ c›

theorem unnoticed_pure (a : α) : Unnoticed (pure a) (pure a) s d := rfl

theorem unnoticed_err (e : Errc) : Unnoticed (err e : Parse σ (Option δ) α) (err e) s d := rfl

theorem unnoticed_onFst (x : Input σ α) : Unnoticed (Action.onFst x) (Action.onFst x) s d := rfl

theorem unnoticed_resize {limit n : Nat} (B : BlobContainer δ) (hn : n ≤ limit) :
    Unnoticed (Action.onSnd ((B.watched limit).containerResize n)) (Action.onSnd (B.containerResize n)) s d := by
  unfold Unnoticed unnoticed
  simp only [Action.onSnd_apply, BlobContainer.containerResize, BlobContainer.watched, if_pos hn]
  cases B.resize n d with
  | none => rfl
  | some d' => rfl

theorem unnoticed_reserve {limit n : Nat} (reserve : Nat → Action Fault δ Unit) (hn : n ≤ limit) :
    Unnoticed (Action.onSnd (watchedReserve limit reserve n)) (Action.onSnd (reserve n)) s d := by
  unfold Unnoticed unnoticed
  simp only [Action.onSnd_apply, watchedReserve, if_pos hn]

theorem unnoticed_onWatched (f : Nat → Parse σ δ Unit) (i : Nat) : Unnoticed (onWatched f i) (f i) s d := rfl

theorem unnoticed_forRange {f' : Nat → Parse σ (Option δ) Unit} {f : Nat → Parse σ δ Unit}
    (h : ∀ i s d, Unnoticed (f' i) (f i) s d) (n i : Nat) :
    Unnoticed (Action.forRange f' i n) (Action.forRange f i n) s d := by
  induction n generalizing i s d with
  | zero => exact unnoticed_pure ()
  | succ n ih =>
    apply (h i s d).bind
    intro _ t d' _
    exact ih (i + 1)

end Watching

namespace Detail
variable [InputStream σ]

/-- `parse_array_like` for a container with a `container_reserve`. -/
def reservingArrayLike (reserve : Nat → Action Fault δ Unit) (allowIndefiniteEncoding : Bool) (maxSize : Nat)
    (expectedType : TypeCode) (decodeElement : Nat → Parse σ δ Unit) : Parse σ δ Nat := do
  let head ← Action.onFst DeepPack.parseItemHead
  if head.type ≠ expectedType then err .itemTypeMismatch
  else if head.indefinite then
    if allowIndefiniteEncoding then parseIndefiniteArrayLike maxSize decodeElement else err .indefiniteItem
  else if (← Action.onFst inputSizeNow) >>> (if expectedType = .map then 1 else 0) < head.value then
    err .missingData
  else if maxSize < head.value then err .itemValueOutOfRange
  else do
    Action.onSnd (reserve head.value)
    Action.forRange decodeElement 0 head.value
    pure head.value

/-- Without a `container_reserve` nothing is reserved. -/
theorem reservingArrayLike_nothing (allow : Bool) (maxSize : Nat) (type : TypeCode) (f : Nat → Parse σ δ Unit) :
    reservingArrayLike (fun _ => pure ()) allow maxSize type f = parseArrayLike allow maxSize type f := rfl

/-- The most elements an input of the size may have. -/
def elementLimit (inputSize : Nat) (expectedType : TypeCode) : Nat :=
  if expectedType = .map then inputSize / 2 else inputSize

end Detail

section Requests
variable [InputStream σ] {C : ExactInput σ} {s : InputBuffer σ} {d : δ} {limit maxSize : Nat} {type : TypeCode}

theorem unnoticed_readTo (B : BlobContainer δ) (i n : Nat) :
    Unnoticed (σ := σ) (Detail.readTo (B.watched limit) i n) (Detail.readTo B i n) s d := by
  unfold Unnoticed unnoticed
  rcases hread : bulkRead n s with ⟨e | bytes, t⟩
  · simp only [Detail.readTo, Action.spoiling, Action.bind_apply, Action.onFst_apply, hread]
    rfl
  · simp only [Detail.readTo, Action.spoiling, Action.bind_apply, Action.onFst_apply, hread]
    rfl

/-- What is read is gone from the input. -/
theorem readTo_consumed (hs : C.Valid s) {B : BlobContainer δ} {i n : Nat} {t : InputBuffer σ} {d' : δ}
    (h : Detail.readTo B i n (s, d) = (.ok (), (t, d'))) : C.Valid t ∧ t.inputSize + n = s.inputSize := by
  obtain ⟨bytes, ⟨u, e⟩, hread, hput⟩ := Action.bind_eq_ok.mp (Action.spoiling_eq_ok h)
  obtain ⟨hbulk, -⟩ := Action.onFst_eq_ok.mp hread
  obtain ⟨-, ht⟩ := Action.onSnd_eq_ok.mp hput
  obtain rfl : t = u := ht
  exact C.bulk hs hbulk

/-- A parser that starts with a head leaves no more of the input than there was. -/
theorem Unnoticed.readHead {α : Type} {f' : ItemHead → Parse σ (Option δ) α} {f : ItemHead → Parse σ δ α}
    (hs : C.Valid s)
    (hf : ∀ h t d', C.Valid t → t.inputSize ≤ s.inputSize → Unnoticed (f' h) (f h) t d') :
    Unnoticed (Action.onFst parseItemHead >>= f') (Action.onFst parseItemHead >>= f) s d := by
  apply (unnoticed_onFst _).bind
  intro h t d' hrun
  obtain ⟨hhead, -⟩ := Action.onFst_eq_ok.mp hrun
  obtain ⟨ht, hle⟩ := C.consumes_parseItemHead _ _ _ hs hhead
  exact hf h t d' ht hle

omit [InputStream σ] in
theorem Unnoticed.readSize {α : Type} {f' : Nat → Parse σ (Option δ) α} {f : Nat → Parse σ δ α}
    (hf : Unnoticed (f' s.inputSize) (f s.inputSize) s d) :
    Unnoticed (Action.onFst inputSizeNow >>= f') (Action.onFst inputSizeNow >>= f) s d := by
  apply (unnoticed_onFst _).bind
  intro n t d' hrun
  obtain ⟨hnow, rfl⟩ := Action.onFst_eq_ok.mp hrun
  cases hnow
  exact hf

/-- The chunks stored so far and the input that is left come to no more than the limit. -/
theorem unnoticed_chunks (B : BlobContainer δ) (hs : C.Valid s) {size : Nat} (rounds : Nat)
    (hlimit : size + s.inputSize ≤ limit) :
    Unnoticed (Detail.parseBlobChunks (B.watched limit) maxSize type rounds size)
      (Detail.parseBlobChunks B maxSize type rounds size) s d := by
  induction rounds generalizing s d size with
  | zero => rfl
  | succ rounds ih =>
    apply Unnoticed.readHead hs
    intro h t d' ht hle
    apply Unnoticed.ite
    · exact fun _ => unnoticed_pure _
    intro _
    apply Unnoticed.ite
    · exact fun _ => unnoticed_err _
    intro _
    apply Unnoticed.readSize
    apply Unnoticed.ite
    · exact fun _ => unnoticed_err _
    intro hbacked
    have hvalue : h.value ≤ t.inputSize := Nat.not_lt.mp hbacked
    apply Unnoticed.ite
    · exact fun _ => unnoticed_err _
    intro _
    have hwrap : (size + h.value) % wordLimit ≤ size + h.value := Nat.mod_le _ _
    apply (unnoticed_resize B (by omega)).bind
    intro _ v e' hresize
    obtain ⟨-, rfl⟩ := Action.onSnd_eq_ok.mp hresize
    apply (unnoticed_readTo B _ _).bind
    intro _ w e'' hread
    obtain ⟨hw, hsum⟩ := readTo_consumed ht hread
    exact ih hw (by omega)

theorem unnoticed_indefinite (B : BlobContainer δ) (hs : C.Valid s) (hlimit : s.inputSize ≤ limit) :
    Unnoticed (Detail.parseBlobIndefinite (B.watched limit) maxSize type)
      (Detail.parseBlobIndefinite B maxSize type) s d := by
  apply (unnoticed_resize B (Nat.zero_le _)).bind
  intro _ t d' hresize
  obtain ⟨-, rfl⟩ := Action.onSnd_eq_ok.mp hresize
  apply Unnoticed.readSize
  exact unnoticed_chunks B hs _ (by omega)

theorem unnoticed_parseBlob (B : BlobContainer δ) (hs : C.Valid s) (allow : Bool) :
    Unnoticed (Detail.parseBlob (B.watched s.inputSize) allow maxSize type)
      (Detail.parseBlob B allow maxSize type) s d := by
  apply Unnoticed.readHead hs
  intro h t d' ht hle
  apply Unnoticed.ite
  · exact fun _ => unnoticed_err _
  intro _
  apply Unnoticed.ite
  · intro _
    exact .ite (fun _ => unnoticed_indefinite B ht hle) fun _ => unnoticed_err _
  intro _
  apply Unnoticed.readSize
  apply Unnoticed.ite
  · exact fun _ => unnoticed_err _
  intro hbacked
  have hvalue : h.value ≤ t.inputSize := Nat.not_lt.mp hbacked
  apply Unnoticed.ite
  · exact fun _ => unnoticed_err _
  intro _
  apply (unnoticed_resize B (hvalue.trans hle)).bind
  intro _ v e' _
  apply (unnoticed_readTo B _ _).bind
  intro _ w e'' _
  exact unnoticed_pure _

theorem unnoticed_elements {f' : Nat → Parse σ (Option δ) Unit} {f : Nat → Parse σ δ Unit}
    (h : ∀ i s d, Unnoticed (f' i) (f i) s d) (left i : Nat) :
    Unnoticed (Detail.parseIndefiniteElements maxSize f' left i)
      (Detail.parseIndefiniteElements maxSize f left i) s d := by
  have hend : ∀ {i x' x} {s : InputBuffer σ} {d : δ}, (∀ s d, Unnoticed x' x s d) →
      Unnoticed (Detail.endAtBreak i x') (Detail.endAtBreak i x) s d := by
    intro i x' x s d hx
    apply (unnoticed_onFst _).bind
    intro first t d' _
    apply Unnoticed.ite
    · exact fun _ => (unnoticed_onFst _).bind fun _ _ _ _ => unnoticed_pure _
    · exact fun _ => hx t d'
  induction left generalizing i s d with
  | zero => exact hend fun _ _ => unnoticed_err _
  | succ left ih =>
    apply hend
    intro t e
    apply Unnoticed.ite
    · exact fun _ => unnoticed_err _
    intro _
    apply (h i t e).bind
    intro _ u e' _
    exact ih (i + 1)

theorem unnoticed_arrayLike (reserve : Nat → Action Fault δ Unit) (f : Nat → Parse σ δ Unit) (hs : C.Valid s)
    (allow : Bool) :
    Unnoticed
      (Detail.reservingArrayLike (watchedReserve (Detail.elementLimit s.inputSize type) reserve) allow maxSize type
        (onWatched f))
      (Detail.reservingArrayLike reserve allow maxSize type f) s d := by
  apply Unnoticed.readHead hs
  intro h t d' ht hle
  apply Unnoticed.ite
  · exact fun _ => unnoticed_err _
  intro _
  apply Unnoticed.ite
  · intro _
    exact .ite (fun _ => unnoticed_elements (fun i s d => unnoticed_onWatched f i) _ 0) fun _ => unnoticed_err _
  intro _
  apply Unnoticed.readSize
  apply Unnoticed.ite
  · exact fun _ => unnoticed_err _
  intro hbacked
  apply Unnoticed.ite
  · exact fun _ => unnoticed_err _
  intro _
  have hfits : h.value ≤ Detail.elementLimit s.inputSize type := by
    unfold Detail.elementLimit
    by_cases hmap : type = .map
    · simp only [if_pos hmap, Nat.shiftRight_one] at hbacked ⊢
      omega
    · simp only [if_neg hmap, Nat.shiftRight_zero] at hbacked ⊢
      omega
  apply (unnoticed_reserve reserve hfits).bind
  intro _ v e' _
  apply (unnoticed_forRange (fun i s d => unnoticed_onWatched f i) _ _).bind
  intro _ w e'' _
  exact unnoticed_pure _

/-- Whatever comes of the parse, the container is asked for no size above that of the input
the item began with, over all chunks of a string, and a map for no more than half of it. -/
theorem requests_within_input (C : ExactInput σ) {s : InputBuffer σ} (hs : C.Valid s) (d : δ)
    (allow : Bool) (maxSize : Nat) (type : TypeCode) :
    (∀ B : BlobContainer δ,
      Unnoticed (Detail.parseBlob (B.watched s.inputSize) allow maxSize type)
        (Detail.parseBlob B allow maxSize type) s d ∧
      Unnoticed (Detail.parseBlobIndefinite (B.watched s.inputSize) maxSize type)
        (Detail.parseBlobIndefinite B maxSize type) s d) ∧
    ∀ (reserve : Nat → Action Fault δ Unit) (decodeElement : Nat → Parse σ δ Unit),
      Unnoticed
        (Detail.reservingArrayLike (watchedReserve
        (Detail.elementLimit s.inputSize type) reserve) allow maxSize type
          (onWatched decodeElement))
        (Detail.reservingArrayLike reserve allow maxSize type decodeElement) s d :=
  ⟨fun B => ⟨unnoticed_parseBlob B hs allow, unnoticed_indefinite B hs (Nat.le_refl _)⟩,
    fun reserve decodeElement => unnoticed_arrayLike reserve decodeElement hs allow⟩

/-- A byte string of two bytes, for a container that is watched for more than three. -/
theorem requests_within_input_two :
    Unnoticed (Detail.parseBlob (BlobContainer.growable.watched 3) true sizeMax .binary)
        (Detail.parseBlob .growable true sizeMax .binary) (memoryInput [0x42, 1, 2]) [] ∧
      Unnoticed
        (Detail.reservingArrayLike (watchedReserve 3 fun _ => pure ()) true sizeMax .binary
          (onWatched fun _ => pure ()))
        (Detail.reservingArrayLike (fun _ => pure ()) true sizeMax .binary fun _ => pure ())
        (memoryInput [0x42, 1, 2]) ([] : List UInt8) := by
  have hvalid : MemoryInputStream.contract.toExact.Valid (memoryInput [0x42, 1, 2]) :=
    MemoryInputStream.valid_memory (by decide)
  have h := requests_within_input MemoryInputStream.contract.toExact hvalid ([] : List UInt8) true sizeMax .binary
  exact ⟨(h.1 .growable).1, h.2 _ _⟩

end Requests
end DeepPack
