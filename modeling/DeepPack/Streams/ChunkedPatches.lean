import DeepPack.Items.Carrying
import DeepPack.Streams.ChunkedFailures

/-! A stream over chunks whose source fails, next to one whose source does not.

Where the source fails the stream does, so that as long as the stream does not, the
source might as well have handed out empty chunks instead of failing. -/
namespace DeepPack
open Library InputBuffer

namespace ChunkedInputStream
variable {α : Type}

/-- What is handed out instead of failing. -/
def patchedChunk : Except Errc (List UInt8) → List UInt8
  | .ok chunk => chunk
  | .error _ => []

/-- The stream over a source that hands out empty chunks where it would have failed. -/
def patched (s : ChunkedInputStream) : ChunkedInputStream := {s with source := s.source.map fun r => .ok (patchedChunk r)}

/-- The call does the same over the patched source, unless it fails. -/
abbrev Patches (x y : Input ChunkedInputStream α) : Prop := Action.Carries (map patched) x y

theorem patches_modify (f : InputBuffer ChunkedInputStream → InputBuffer ChunkedInputStream)
    (h : ∀ s, f (map patched s) = map patched (f s)) : Patches (Action.modify f) (Action.modify f) := by
  intro s a t hx
  cases hx
  exact congrArg (Prod.mk (Except.ok ())) (h s)

theorem patches_size : Patches size size := Action.carries_gets _ _ fun _ => rfl

theorem patches_buffer : Patches (Action.gets InputBuffer.buffer) (Action.gets InputBuffer.buffer) :=
  Action.carries_gets _ _ fun _ => rfl

theorem patches_inputSizeNow : Patches inputSizeNow inputSizeNow := Action.carries_gets _ _ fun _ => rfl

theorem patches_bufferStartNow : Patches bufferStartNow bufferStartNow := Action.carries_gets _ _ fun _ => rfl

theorem patches_consumedSize : Patches consumedSize consumedSize := Action.carries_gets _ _ fun _ => rfl

theorem patches_setBufferStart (start : Int) : Patches (setBufferStart start) (setBufferStart start) :=
  patches_modify _ fun _ => rfl

theorem patches_setReadArea (f : MemoryView → MemoryView) : Patches (setReadArea f) (setReadArea f) :=
  patches_modify _ fun _ => rfl

theorem patches_resetTo (buffer : List UInt8) (inputSize : Nat) : Patches (resetTo buffer inputSize) (resetTo buffer inputSize) :=
  patches_modify _ fun _ => rfl

theorem patches_remaining : Patches remaining remaining := by
  intro s bytes t hx
  have hsame : (map patched s).derived.readArea = s.derived.readArea := rfl
  unfold remaining at hx ⊢
  rw [hsame]
  split at hx <;> cases hx
  rfl

theorem patches_smallSpan (i k : Int) : Patches (smallSpan i k) (smallSpan i k) := by
  intro s bytes t hx
  unfold smallSpan at hx ⊢
  split at hx <;> cases hx
  exact if_pos ‹_›

theorem patches_copyToSmallBuffer (i : Int) (bytes : List UInt8) :
    Patches (copyToSmallBuffer i bytes) (copyToSmallBuffer i bytes) := by
  intro s a t hx
  unfold copyToSmallBuffer at hx ⊢
  split at hx <;> cases hx
  exact if_pos ‹_›

theorem patches_resetToReadArea : Patches resetToReadArea resetToReadArea :=
  patches_remaining.bind fun _ => patches_inputSizeNow.bind fun _ => patches_resetTo _ _

theorem patches_resetToSmallBuffer (k : Int) : Patches (resetToSmallBuffer k) (resetToSmallBuffer k) :=
  (patches_smallSpan 0 k).bind fun _ => patches_inputSizeNow.bind fun _ => patches_resetTo _ _

theorem patches_acquireNextChunkImpl : Patches acquireNextChunkImpl acquireNextChunkImpl := by
  intro s v t hx
  have hpatched : (map patched s).derived.source = s.derived.source.map fun r => .ok (patchedChunk r) := rfl
  unfold acquireNextChunkImpl at hx ⊢
  rcases hsource : s.derived.source with _ | ⟨e | chunk, source⟩ <;> rw [hsource] at hx hpatched <;> cases hx
  rw [hpatched]
  rfl

theorem patches_acquireNextChunk : Patches acquireNextChunk acquireNextChunk := by
  refine patches_acquireNextChunkImpl.bind fun _ => (patches_setReadArea _).bind fun _ =>
    patches_inputSizeNow.bind fun _ => ?_
  exact .ite (patches_remaining.bind fun _ => patches_setReadArea _) (Action.carries_pure _)

theorem patches_saveRemaining : Patches saveRemainingToSmallBuffer saveRemainingToSmallBuffer := by
  refine patches_buffer.bind fun _ => (patches_copyToSmallBuffer 0 _).bind fun _ => ?_
  exact patches_bufferStartNow.bind fun _ => (patches_setBufferStart _).bind fun _ => patches_resetToSmallBuffer _

theorem patches_appendCurrent : Patches appendCurrentToSmallBuffer appendCurrentToSmallBuffer := by
  refine patches_size.bind fun _ => patches_remaining.bind fun _ => patches_bufferStartNow.bind fun _ => ?_
  exact (patches_copyToSmallBuffer _ _).bind fun _ => patches_resetToSmallBuffer _

theorem patches_moveToFront : Patches moveSmallBufferContentToFront moveSmallBufferContentToFront := by
  refine patches_consumedSize.bind fun _ => patches_bufferStartNow.bind fun _ => (patches_setBufferStart _).bind fun _ => ?_
  exact (patches_smallSpan _ _).bind fun _ => (patches_copyToSmallBuffer 0 _).bind fun _ => patches_resetToSmallBuffer _

theorem patches_retire (consumed : Int) : Patches (retireSmallBuffer consumed) (retireSmallBuffer consumed) :=
  patches_bufferStartNow.bind fun _ => (patches_setReadArea _).bind fun _ => (patches_setBufferStart _).bind fun _ =>
    patches_resetToReadArea

/-! ### The virtual functions -/

theorem patches_consumeChunks (rounds amount : Nat) :
    Patches (consumeChunks rounds amount) (consumeChunks rounds amount) := by
  induction rounds generalizing amount with
  | zero => exact Action.carries_fail _ _
  | succ rounds ih =>
    refine patches_acquireNextChunk.bind fun _ => patches_remaining.bind fun _ => patches_inputSizeNow.bind fun _ => ?_
    refine (patches_resetTo _ _).bind fun _ => (patches_setReadArea _).bind fun _ => ?_
    exact .ite ((ih _).bind fun _ => Action.carries_pure _) (Action.carries_pure _)

theorem patches_readChunks (amount : Nat) : Patches (readChunks amount) (readChunks amount) := by
  intro s bytes t hx
  have hlen : (map patched s).derived.source.length = s.derived.source.length := List.length_map _
  have hwindow : Patches (Action.gets fun s => s.derived.readArea.windowSize)
      (Action.gets fun s => s.derived.readArea.windowSize) := Action.carries_gets _ _ fun _ => rfl
  unfold readChunks at hx ⊢
  rw [Action.gets_bind_apply] at hx ⊢
  rw [hlen]
  refine Action.Carries.bind (patches_consumeChunks _ amount) (fun _ => hwindow.bind fun _ => ?_) s bytes t hx
  refine .ite (patches_acquireNextChunk.bind fun _ => ?_) ?_
  all_goals exact patches_resetToReadArea.bind fun _ => Action.carries_pure _

/-- The virtual functions that parsers come to do the same over the patched source, unless they fail. -/
structure VirtualsPatch (base : InputStream ChunkedInputStream) : Prop where
  require : ∀ n, Patches (base.doRequireInput n) (base.doRequireInput n)
  bulk : ∀ n, Patches (base.doBulkRead n) (base.doBulkRead n)

section Virtuals
variable {base : InputStream ChunkedInputStream}

theorem VirtualsPatch.doRequireInput (h : VirtualsPatch base) (n : Nat) :
    Patches (doRequireInput base n) (doRequireInput base n) := by
  have hrequire : Patches (@requireInput _ base n) (@requireInput _ base n) := carries_requireInput (h.require n)
  have hmore : Patches (size >>= fun k => if k < n then @requireInput _ base n else pure ())
      (size >>= fun k => if k < n then @requireInput _ base n else pure ()) :=
    patches_size.bind fun _ => .ite hrequire (Action.carries_pure _)
  refine patches_bufferStartNow.bind fun _ => .ite (patches_size.bind fun _ => .ite ?_ (.ite (carries_err _ _) ?_)) ?_
  · exact patches_acquireNextChunk.bind fun _ => patches_resetToReadArea.bind fun _ => hmore
  · refine (patches_setBufferStart 0).bind fun _ => patches_saveRemaining.bind fun _ =>
      patches_acquireNextChunk.bind fun _ => patches_appendCurrent.bind fun _ => ?_
    exact patches_size.bind fun _ => .ite (Action.carries_pure _) hrequire
  · refine patches_bufferStartNow.bind fun _ => patches_consumedSize.bind fun _ => .ite ?_ (.ite (carries_err _ _) ?_)
    · exact patches_consumedSize.bind fun _ => (patches_retire _).bind fun _ => hmore
    · refine patches_moveToFront.bind fun _ => patches_appendCurrent.bind fun _ => patches_size.bind fun _ => ?_
      refine .ite (Action.carries_pure _) (patches_size.bind fun _ => (patches_setBufferStart _).bind fun _ => ?_)
      exact (patches_setReadArea _).bind fun _ => patches_acquireNextChunk.bind fun _ => hrequire

theorem VirtualsPatch.doBulkRead (h : VirtualsPatch base) (n : Nat) :
    Patches (doBulkRead base n) (doBulkRead base n) := by
  refine patches_bufferStartNow.bind fun _ => .ite ?_ (patches_readChunks n)
  exact patches_consumedSize.bind fun _ => (patches_retire _).bind fun _ => carries_bulkRead h.bulk n

end Virtuals

theorem virtualsPatch (rounds : Nat) : VirtualsPatch (virtuals rounds) := by
  induction rounds with
  | zero => exact ⟨fun _ => Action.carries_fail _ _, fun _ => Action.carries_fail _ _⟩
  | succ rounds ih => exact ⟨ih.doRequireInput, ih.doBulkRead⟩

/-- The patched source hands out as many chunks, and so the calls have as many rounds. -/
theorem rounds_patched (s : InputBuffer ChunkedInputStream) : rounds (map patched s) = rounds s :=
  congrArg (· + 3) (List.length_map _)

/-- A stream over chunks does over the patched source what it does, unless it fails. -/
def patch : StreamMap ChunkedInputStream ChunkedInputStream where
  onDerived := patched
  doRequire n s a t hx := by
    show (virtuals (rounds (map patched s))).doRequireInput n (map patched s) = _
    rw [rounds_patched]
    exact (virtualsPatch (rounds s)).require n s a t hx
  doBulk n s bytes t hx := by
    show (virtuals (rounds (map patched s))).doBulkRead n (map patched s) = _
    rw [rounds_patched]
    exact (virtualsPatch (rounds s)).bulk n s bytes t hx

end ChunkedInputStream
end DeepPack
