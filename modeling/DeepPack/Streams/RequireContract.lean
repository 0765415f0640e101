import DeepPack.Streams.InputContract

/-! What a parser of heads relies on.

`RequireContract` is the contract of `require_input` and of the base class alone: nothing
is promised about bulk reads. A stream that keeps it is honest once bulk reads are done
byte by byte, so that what holds on every honest input holds on these streams of every
parser that does not read in bulk. -/
namespace DeepPack
open Library InputBuffer

structure RequireContract (σ : Type) [InputStream σ] where
  /-- The states the stream can be in. -/
  Valid : InputBuffer σ → Prop
  /-- The bytes not consumed yet. -/
  unread : InputBuffer σ → List UInt8
  inputSize_eq : ∀ {s}, Valid s → s.inputSize = (unread s).length
  inputSize_lt : ∀ {s}, Valid s → (unread s).length < wordLimit
  buffer_starts : ∀ {s}, Valid s → s.buffer <+: unread s
  discard : ∀ {s n}, Valid s → n ≤ s.buffer.length →
    ∃ t, discardBuffered n s = (.ok (), t) ∧ Valid t ∧ unread t = (unread s).drop n
  require : ∀ {s n}, Valid s → n ≤ 9 → n ≤ (unread s).length →
    ∃ t, requireInput n s = (.ok (), t) ∧ Valid t ∧ unread t = unread s ∧ n ≤ t.buffer.length

/-- An honest input keeps the contract. -/
def InputContract.toRequire {σ : Type} [InputStream σ] (C : InputContract σ) : RequireContract σ where
  Valid := C.Valid
  unread := C.unread
  inputSize_eq := C.inputSize_eq
  inputSize_lt := C.inputSize_lt
  buffer_starts := C.buffer_starts
  discard := C.discard
  require := C.require

/-- The next `n` bytes, one at a time. -/
def nextBytes {σ : Type} [InputStream σ] : Nat → Input σ (List UInt8)
  | 0 => pure []
  | n + 1 => do
    requireInput 1
    let first ← dataAt 0
    discardBuffered 1
    let rest ← nextBytes n
    pure (first :: rest)

/-- The stream with bulk reads done byte by byte. -/
abbrev bytewise {σ : Type} (I : InputStream σ) : InputStream σ := {I with doBulkRead := nextBytes}

namespace RequireContract
variable {σ : Type} [I : InputStream σ] (R : RequireContract σ)

theorem nextBytes_ok {s : InputBuffer σ} (hs : R.Valid s) {n : Nat} (hn : n ≤ (R.unread s).length) :
    ∃ t, nextBytes n s = (.ok ((R.unread s).take n), t) ∧ R.Valid t ∧ R.unread t = (R.unread s).drop n := by
  induction n generalizing s with
  | zero => exact ⟨s, rfl, hs, rfl⟩
  | succ n ih =>
    obtain ⟨t, ht, hvt, hut, hlt⟩ := R.require hs (n := 1) (by decide) (by omega)
    obtain ⟨tail, htail⟩ := R.buffer_starts hvt
    obtain ⟨first, rest, hbuffer⟩ := List.exists_cons_of_length_pos hlt
    obtain ⟨t', ht', hvt', hut'⟩ := R.discard hvt hlt
    have hsplit : R.unread s = first :: R.unread t' := by
      rw [hut', ← hut, ← htail, hbuffer]
      rfl
    obtain ⟨t'', ht'', hvt'', hut''⟩ := ih hvt' (by
      rw [hsplit, List.length_cons] at hn
      omega)
    have hdata : dataAt 0 t = (.ok first, t) := by
      rw [dataAt, hbuffer]
      rfl
    refine ⟨t'', ?_, hvt'', by rw [hut'', hsplit, List.drop_succ_cons]⟩
    rw [nextBytes, Action.bind_ok _ ht, Action.bind_ok _ hdata, Action.bind_ok _ ht', Action.bind_ok _ ht'', hsplit]
    rfl

/-- Reading bulks byte by byte keeps the last law of an honest input. -/
theorem bulkRead_bytewise {s : InputBuffer σ} {n : Nat} (hs : R.Valid s) (hn : n ≤ (R.unread s).length) :
    ∃ t, @bulkRead σ (bytewise I) n s = (.ok ((R.unread s).take n), t) ∧ R.Valid t ∧ R.unread t = (R.unread s).drop n := by
  by_cases h0 : n = 0
  · subst h0
    exact ⟨s, rfl, hs, rfl⟩
  obtain ⟨t, ht, hvt, hut⟩ := R.discard hs (Nat.min_le_left s.buffer.length n)
  obtain ⟨tail, htail⟩ := R.buffer_starts hs
  have ht' : t = {s with
      buffer := s.buffer.drop (min s.buffer.length n)
      inputSize := wrapSub 64 s.inputSize (min s.buffer.length n)} := by
    rw [discardBuffered, if_pos (Nat.min_le_left _ _)] at ht
    exact (congrArg Prod.snd ht).symm
  have hsize : ¬ s.inputSize < n := by
    rw [R.inputSize_eq hs]
    omega
  unfold bulkRead
  rw [if_neg h0, if_neg hsize]
  dsimp only
  by_cases hle : n ≤ s.buffer.length
  · rw [Nat.min_eq_right hle] at ht' hut ⊢
    refine ⟨t, ?_, hvt, hut⟩
    rw [if_pos (Nat.sub_self n), ← ht', ← htail, List.take_append_of_le_length hle]
  · have hall : min s.buffer.length n = s.buffer.length := Nat.min_eq_left (by omega)
    rw [hall] at ht' hut ⊢
    obtain ⟨t', htt', hvt', hut'⟩ := R.nextBytes_ok (n := n - s.buffer.length) hvt (by
      rw [hut, List.length_drop]
      omega)
    have hadd : s.buffer.length + (n - s.buffer.length) = n := by omega
    refine ⟨t', ?_, hvt', by rw [hut', hut, List.drop_drop, hadd]⟩
    have hbytes : s.buffer.take s.buffer.length ++ (R.unread t).take (n - s.buffer.length) = (R.unread s).take n := by
      rw [List.take_length, hut, ← htail, List.drop_left]
      conv_rhs => rw [← hadd]
      rw [List.take_length_add_append]
    rw [if_neg (by omega), ← ht', ← hbytes]
    exact Action.bind_ok _ htt'

/-- The contract of the stream that reads bulks byte by byte. -/
def honest : @InputContract σ (bytewise I) :=
  @InputContract.mk σ (bytewise I) R.Valid R.unread R.inputSize_eq R.inputSize_lt R.buffer_starts R.discard
    R.require R.bulkRead_bytewise

end RequireContract
end DeepPack
