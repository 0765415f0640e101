import DeepPack.Streams.ChunkedSupply

/-! What a stream over chunks delivers when its source fails.

A call that fails where nothing is held leaves the stream where it was. With remnants held it
does not: the read area still is the old chunk, and its bytes are fused with the remnants once
more when input is required again. -/
namespace DeepPack
open Library InputBuffer

/-- The public calls: those on an input buffer, and `discard_input`. -/
inductive PublicCall where
  | input (call : InputCall)
  | discardInput (k : Nat)
  deriving DecidableEq, Repr

def PublicCall.perform {σ : Type} [InputStream σ] : PublicCall → Input σ (List UInt8)
  | input call => call.perform
  | discardInput k => do
    InputBuffer.discardInput k
    pure []

namespace ChunkedInputStream

def performPublic (call : PublicCall) (s : InputBuffer ChunkedInputStream) : InputBuffer ChunkedInputStream :=
  (call.perform s).2

def MayPerform : PublicCall → InputBuffer ChunkedInputStream → Prop
  | .input call, s => MayAsk call s
  | .discardInput _, _ => True

instance : ∀ call s, Decidable (MayPerform call s)
  | .input call, s => inferInstanceAs (Decidable (MayAsk call s))
  | .discardInput _, _ => isTrue trivial

/-- The call is supplied; input that is not buffered is discarded with nothing buffered, where the small buffer is
not in use. -/
def KeepsPlace : PublicCall → InputBuffer ChunkedInputStream → Prop
  | .input call, s => IsSupplied call s
  | .discardInput k, s => s.buffer.length < k → k ≤ s.inputSize →
      s.buffer = [] ∧ s.derived.bufferStart < 0 ∧ ReadsOn k s.inputSize s.derived.source

instance : ∀ call s, Decidable (KeepsPlace call s)
  | .input call, s => inferInstanceAs (Decidable (IsSupplied call s))
  | .discardInput k, s => inferInstanceAs
    (Decidable (s.buffer.length < k → k ≤ s.inputSize → _ ∧ _ ∧ ReadsOn _ _ _))

/-- Where the stream is, by the bytes it counts as left of so many. -/
def rest (stream : List UInt8) (size : Nat) (s : InputBuffer ChunkedInputStream) : List UInt8 :=
  stream.drop (size - s.inputSize)

/-- What the calls owe: a `require_input` leaves the stream where it is, and the buffer as it was if it fails; the
others move on by their bytes, and these are the ones delivered. -/
def Owes (stream : List UInt8) (size : Nat) (s : InputBuffer ChunkedInputStream) :
    PublicCall → Except Fault (List UInt8) → InputBuffer ChunkedInputStream → Prop
  | .input (.requireInput n), r, t => t.inputSize = s.inputSize ∧ (∀ bytes, r = .ok bytes → n ≤ t.buffer.length) ∧
      ∀ e, r = .error e → t.buffer = s.buffer
  | .input (.discardBuffered k), _, t => t.inputSize + k = s.inputSize
  | .input (.bulkRead k), r, t => t.inputSize ≤ s.inputSize ∧ ∀ bytes, r = .ok bytes →
      t.inputSize + k = s.inputSize ∧ bytes.length = k ∧ bytes <+: rest stream size s
  | .discardInput k, r, t => t.inputSize ≤ s.inputSize ∧ ∀ bytes, r = .ok bytes → t.inputSize + k = s.inputSize

/-- What is buffered and delivered are the next bytes of the stream, each of them once. -/
structure StaysTrue (stream : List UInt8) (size : Nat) (call : PublicCall) (s : InputBuffer ChunkedInputStream) :
    Prop where
  next : (performPublic call s).buffer <+: rest stream size (performPublic call s)
  owes : Owes stream size s call (call.perform s).1 (performPublic call s)

variable {s t : InputBuffer ChunkedInputStream} {stream left : List UInt8} {size k : Nat}

/-- The bytes left are those of the stream behind the ones counted. -/
def InPlaceOf (stream : List UInt8) (size : Nat) (s : InputBuffer ChunkedInputStream) : Prop :=
  Yields s (rest stream size s) ∧ s.inputSize ≤ size

theorem InPlaceOf.advances (h : InPlaceOf stream size s) (ht : Advances k (rest stream size s) s t) :
    InPlaceOf stream size t := by
  obtain ⟨hyields, hsize⟩ := ht
  have hle := h.2
  refine ⟨?_, by omega⟩
  rw [rest, List.drop_drop] at hyields
  rw [rest]
  have hplace : size - s.inputSize + k = size - t.inputSize := by omega
  rwa [← hplace]

theorem discardInput_drained (hempty : s.buffer = []) (hsize : k ≤ s.inputSize) (hfits : s.inputSize < wordLimit)
    (hpos : 0 < k) : discardInput k s = doDiscardInput none k s := by
  have hlen : s.buffer.length = 0 := congrArg List.length hempty
  have hamount : wrapSub 64 k 0 = k := wrapSub_of_le (Nat.zero_le _) (hsize.trans_lt hfits)
  have hcount : wrapSub 64 s.inputSize 0 = s.inputSize := wrapSub_of_le (Nat.zero_le _) hfits
  have hreset : reset {s with inputSize := wrapSub 64 s.inputSize s.buffer.length} = s := by
    show (⟨[], wrapSub 64 (wrapSub 64 s.inputSize s.buffer.length) s.buffer.length, s.derived⟩ : InputBuffer _) = s
    rw [hlen, hcount, hcount, ← hempty]
  rw [discardInput, if_neg (by omega), if_neg (Nat.not_lt.mpr hsize), hreset, hlen, hamount]
  rfl

theorem Yields.discardInput (h : Yields s left) (hkeeps : KeepsPlace (.discardInput k) s) :
    (discardInput k).Meets s fun r t => ∃ m, Advances m left s t ∧ (r = .ok () → m = k) := by
  by_cases hbuffered : k ≤ s.buffer.length
  · have hrun : InputBuffer.discardInput k s = (.ok (), advanced k s) :=
      (if_pos hbuffered).trans (discardBuffered_eq hbuffered)
    exact Action.meets_of_eq hrun ⟨k, h.discardBuffered hbuffered, fun _ => rfl⟩
  · by_cases hend : s.inputSize < k
    · have hrun : InputBuffer.discardInput k s = (.error (.errc .endOfStream), s) := by
        rw [InputBuffer.discardInput, if_neg hbuffered, if_pos hend]
      exact Action.meets_of_eq hrun ⟨0, h.stays, fun hok => by cases hok⟩
    · obtain ⟨hempty, hstart, hreads⟩ := hkeeps (Nat.lt_of_not_le hbuffered) (Nat.le_of_not_lt hend)
      obtain ⟨held, hbounded, rfl⟩ := h
      have hinplace : InPlace s held := by
        rcases hbounded.located with h | ⟨consumed, remnants, area, h⟩
        · exact h
        · exact absurd hstart (by rw [h.start]; omega)
      obtain rfl : held = [] := hinplace.buffer.symm.trans hempty
      have hsize : k ≤ s.inputSize := Nat.le_of_not_lt hend
      obtain ⟨m, -, hadvances, hok⟩ := readChunks_delivers hinplace hbounded.fits hbounded.sized hsize hreads
      refine .of_eq (discardInput_drained hempty hsize hbounded.fits (by omega)) ?_
      refine .step hinplace.bufferStart_eq (.ite_neg (by decide) ?_)
      rcases hrun : readChunks k s with ⟨e | bytes, t⟩ <;> rw [hrun] at hadvances hok
      · exact .stop hrun ⟨m, hadvances, fun hok => by cases hok⟩
      · exact .step hrun (Action.meets_of_eq rfl ⟨m, hadvances, fun _ => (hok bytes rfl).1⟩)

theorem InPlaceOf.step {call : PublicCall} (h : InPlaceOf stream size s) (hmay : MayPerform call s)
    (hkeeps : KeepsPlace call s) :
    call.perform.Meets s fun r t => InPlaceOf stream size t ∧ Owes stream size s call r t := by
  cases call with
  | discardInput k =>
    refine .replace ((h.1.discardInput hkeeps).mono fun r t ht => ?_)
    obtain ⟨m, hadvances, hok⟩ := ht
    refine ⟨h.advances hadvances, Nat.le.intro hadvances.2, fun bytes hbytes => ?_⟩
    cases r <;> cases hbytes
    exact hok rfl ▸ hadvances.2
  | input call =>
    cases call with
    | requireInput n =>
      refine .replace ((h.1.require hmay hkeeps).mono fun r t ht => ?_)
      obtain ⟨hadvances, henough, hfails⟩ := ht
      refine ⟨h.advances hadvances, hadvances.2, fun bytes hbytes => ?_, fun e he => ?_⟩
      · cases r <;> cases hbytes
        exact henough rfl
      · cases r <;> cases he
        exact hfails _ rfl
    | discardBuffered k =>
      have hadvances := h.1.discardBuffered hmay
      exact .replace (Action.meets_of_eq (discardBuffered_eq hmay) ⟨h.advances hadvances, hadvances.2⟩)
    | bulkRead k =>
      refine (h.1.bulkRead hkeeps).mono fun r t ht => ?_
      obtain ⟨m, -, hadvances, hok⟩ := ht
      refine ⟨h.advances hadvances, Nat.le.intro hadvances.2, fun bytes hbytes => ?_⟩
      obtain ⟨rfl, rfl, hlen⟩ := hok bytes hbytes
      exact ⟨hadvances.2, hlen, List.take_prefix _ _⟩

/-! ### Runs -/

/-- As long as every call keeps its place, the bytes buffered and delivered are those of the stream, whatever
failed before. -/
theorem chunked_stays_true {first : List UInt8} {size : Nat} {source : List (Except Errc (List UInt8))}
    {calls : List PublicCall} (hfirst : first.length ≤ size) (hfits : size < wordLimit) (hsized : AreSized source)
    (hmay : EveryStep performPublic MayPerform calls (chunkedInput first size source))
    (hkeeps : EveryStep performPublic KeepsPlace calls (chunkedInput first size source)) :
    EveryStep performPublic (StaysTrue ((first ++ arrivals source).take size) size) calls
      (chunkedInput first size source) := by
  have hopened : InPlaceOf ((first ++ arrivals source).take size) size (chunkedInput first size source) := by
    refine ⟨?_, Nat.le_refl _⟩
    rw [rest, show size - (chunkedInput first size source).inputSize = 0 from Nat.sub_self size, List.drop_zero]
    exact yields_chunkedInput hfirst hfits hsized
  refine (hmay.and hkeeps).of_invariant (InPlaceOf _ size) hopened fun call s hs hcall => ?_
  obtain ⟨hnext, howes⟩ := hs.step hcall.1 hcall.2
  exact ⟨⟨hnext.1.buffer_starts, howes⟩, hnext⟩

/-- The source fails where nothing is held; then it delivers. -/
theorem chunked_stays_true_retried :
    EveryStep performPublic (StaysTrue ([] ++ arrivals [.error .bad, .ok [1, 2], .ok [3, 4]] |>.take 4) 4)
      [.input (.requireInput 1), .input (.requireInput 1), .input (.requireInput 3), .discardInput 1,
        .input (.bulkRead 2)]
      (chunkedInput [] 4 [.error .bad, .ok [1, 2], .ok [3, 4]]) :=
  chunked_stays_true (by decide) (by decide) (by decide) (by decide) (by decide)

/-- The source fails where two bytes are held: required once more, they are buffered twice. -/
theorem failed_require_duplicates : ¬ ∀ first size source calls, first.length ≤ size → size < wordLimit →
    AreSized source → EveryStep performPublic MayPerform calls (chunkedInput first size source) →
    EveryStep performPublic (StaysTrue ((first ++ arrivals source).take size) size) calls
      (chunkedInput first size source) := by
  intro h
  have hnext := (h [] 3 [.ok [1, 2], .error .bad, .ok [3]]
    [.input (.requireInput 1), .input (.requireInput 3), .input (.requireInput 3)] (by decide) (by decide)
    (by decide)
    (by decide)).2.2.1.next
  revert hnext
  decide

end ChunkedInputStream
end DeepPack
