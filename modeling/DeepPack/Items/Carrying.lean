import DeepPack.Streams.TruthfulInput
import DeepPack.Items.ParseRanges

/-! The parsers, carried over along a map of streams.

A parser looks at its input through the calls of the buffer alone, and fails as soon as
one of them does. So if the calls are carried over to another stream, the parsers are. -/
namespace DeepPack
open Library InputBuffer

/-! ### The calls -/

section Calls
variable {σ τ : Type} {I : InputStream σ} {J : InputStream τ} {f : σ → τ}

theorem carries_requireInput {n : Nat} (h : Action.Carries (map f) (I.doRequireInput n) (J.doRequireInput n)) :
    Action.Carries (map f) (requireInput n) (requireInput n) := by
  intro s a t hx
  unfold requireInput at hx ⊢
  rw [map_inputSize, map_buffer]
  by_cases hsize : s.inputSize < n
  · rw [if_pos hsize] at hx
    cases hx
  · rw [if_neg hsize] at hx ⊢
    by_cases hn : s.buffer.length < n
    · rw [if_pos hn] at hx ⊢
      exact h s a t hx
    · rw [if_neg hn] at hx ⊢
      cases hx
      rfl

theorem carries_bulkRead (h : ∀ n, Action.Carries (map f) (I.doBulkRead n) (J.doBulkRead n)) (n : Nat) :
    Action.Carries (map f) (bulkRead n) (bulkRead n) := by
  intro s bytes t hx
  unfold bulkRead at hx ⊢
  rw [map_inputSize, map_buffer]
  by_cases h0 : n = 0
  · rw [if_pos h0] at hx ⊢
    cases hx
    rfl
  rw [if_neg h0] at hx ⊢
  by_cases hsize : s.inputSize < n
  · rw [if_pos hsize] at hx
    cases hx
  rw [if_neg hsize] at hx ⊢
  dsimp only at hx ⊢
  by_cases hn : n - min s.buffer.length n = 0
  · rw [if_pos hn] at hx ⊢
    cases hx
    rfl
  · rw [if_neg hn] at hx ⊢
    exact (Action.Carries.bind (h _) fun _ => Action.carries_pure _) _ _ _ hx

end Calls

/-- A map of streams along which what the streams do for a parser is carried over. -/
structure StreamMap (σ τ : Type) [InputStream σ] [InputStream τ] where
  onDerived : σ → τ
  doRequire : ∀ n, Action.Carries (map onDerived) (InputStream.doRequireInput n) (InputStream.doRequireInput n)
  doBulk : ∀ n, Action.Carries (map onDerived) (InputStream.doBulkRead n) (InputStream.doBulkRead n)

variable {σ τ δ α : Type} [InputStream σ] [InputStream τ]

/-- The input parser is carried over. -/
abbrev InputCarries (M : StreamMap σ τ) (x : Input σ α) (y : Input τ α) : Prop :=
  Action.Carries (map M.onDerived) x y

/-- The parser is carried over, with the same destination. -/
abbrev ParseCarries (M : StreamMap σ τ) (x : Parse σ δ α) (y : Parse τ δ α) : Prop :=
  Action.Carries (Action.mapFst (map M.onDerived)) x y

variable {M : StreamMap σ τ}

theorem carries_err {ρ υ : Type} {f : ρ → υ} (e : Errc) (y : Action Fault υ α) : Action.Carries f (err e) y :=
  Action.carries_fail _ y

/-! ### The buffer -/

theorem StreamMap.require (M : StreamMap σ τ) (n : Nat) : InputCarries M (requireInput n) (requireInput n) :=
  carries_requireInput (M.doRequire n)

theorem StreamMap.bulk (M : StreamMap σ τ) (n : Nat) : InputCarries M (bulkRead n) (bulkRead n) :=
  carries_bulkRead M.doBulk n

theorem carries_empty : InputCarries M empty empty := Action.carries_gets _ _ fun _ => rfl

theorem carries_size : InputCarries M size size := Action.carries_gets _ _ fun _ => rfl

theorem carries_inputSizeNow : InputCarries M inputSizeNow inputSizeNow := Action.carries_gets _ _ fun _ => rfl

theorem carries_dataAt (i : Nat) : InputCarries M (dataAt i) (dataAt i) := by
  intro s b t hx
  unfold dataAt at hx ⊢
  rw [map_buffer]
  split at hx <;> cases hx
  rfl

theorem carries_dataSpan (i n : Nat) : InputCarries M (dataSpan i n) (dataSpan i n) := by
  intro s bytes t hx
  unfold dataSpan at hx ⊢
  split at hx <;> cases hx
  exact if_pos ‹_›

theorem carries_discardBuffered (n : Nat) : InputCarries M (discardBuffered n) (discardBuffered n) := by
  intro s a t hx
  unfold discardBuffered at hx ⊢
  split at hx <;> cases hx
  exact if_pos ‹_›

theorem carries_peekByte : InputCarries M peekByte peekByte := (M.require 1).bind fun _ => carries_dataAt 0

/-! ### Heads and scalars -/

theorem carries_loadArgument (speculative : Bool) (power : Nat) :
    InputCarries M (Detail.loadArgument speculative power) (Detail.loadArgument speculative power) :=
  .ite ((carries_dataSpan 1 8).bind fun _ => Action.carries_pure _)
    ((M.require _).bind fun _ => (carries_dataSpan 1 _).bind fun _ => Action.carries_pure _)

theorem carries_completeHead (speculative : Bool) (info : ItemHead) :
    InputCarries M (Detail.completeHead speculative info) (Detail.completeHead speculative info) := by
  refine .ite (Action.carries_pure _) (.ite ?_ (.ite (Action.carries_pure _) (carries_err _ _)))
  exact (carries_loadArgument _ _).bind fun _ => .ite (carries_err _ _) (Action.carries_pure _)

theorem carries_doParseItemHead (speculative discard : Bool) :
    InputCarries M (Detail.doParseItemHead speculative discard) (Detail.doParseItemHead speculative discard) := by
  refine (carries_dataAt 0).bind fun _ => (carries_completeHead _ _).bind fun _ => .ite ?_ ?_
  · exact (carries_discardBuffered _).bind fun _ => Action.carries_pure _
  · exact Action.carries_pure _

theorem carries_parseItemHead : InputCarries M parseItemHead parseItemHead := by
  refine carries_empty.bind fun _ => .ite ((M.require 1).bind fun _ => ?_) ?_
  all_goals exact carries_size.bind fun _ => .ite (carries_doParseItemHead _ _) (carries_doParseItemHead _ _)

theorem carries_expectItemHead (type : TypeCode) (value : Nat) :
    InputCarries M (expectItemHead type value) (expectItemHead type value) := by
  have hdone : InputCarries M (pure () : Input σ Unit) (pure ()) := Action.carries_pure ()
  refine carries_parseItemHead.bind fun _ => .ite (carries_err _ _) (.ite (.ite (.ite hdone ?_) ?_) (.ite ?_ hdone))
  all_goals exact carries_err _ _

theorem carries_assign (v : δ) : ParseCarries M (assign v) (assign v) := Action.carries_onSnd _

theorem carries_parseUnsignedInteger (t : IntType) (limit : Nat) :
    ParseCarries M (parseUnsignedInteger t limit) (parseUnsignedInteger t limit) :=
  carries_parseItemHead.onFst.bind fun _ => .ite (carries_err _ _) (.ite (carries_err _ _) (carries_assign _))

theorem carries_parseInteger (t : IntType) : ParseCarries M (parseInteger t) (parseInteger t) := by
  refine .ite ?_ (carries_parseUnsignedInteger t _)
  exact carries_parseItemHead.onFst.bind fun _ => .ite (carries_err _ _) (.ite (carries_err _ _) (carries_assign _))

theorem carries_parseFloatingPoint (t : FloatType) :
    ParseCarries M (parseFloatingPoint t) (parseFloatingPoint t) :=
  carries_parseItemHead.onFst.bind fun _ => .ite (carries_err _ _)
    (.ite (.ite (carries_assign _) (carries_err _ _)) (.ite (carries_assign _) (carries_assign _)))

theorem carries_parseBoolean : ParseCarries M parseBoolean parseBoolean := by
  refine carries_empty.onFst.bind fun _ => .ite ((M.require 1).onFst.bind fun _ => ?_) ?_
  all_goals
    refine (carries_dataAt 0).onFst.bind fun _ => ?_
    exact Action.Carries.ite (carries_err _ _) ((carries_assign _).bind fun _ => (carries_discardBuffered 1).onFst)

/-! ### Strings and ranges -/

theorem carries_readTo (B : BlobContainer δ) (i n : Nat) :
    ParseCarries M (Detail.readTo B i n) (Detail.readTo B i n) :=
  ((M.bulk n).onFst.bind fun _ => Action.carries_onSnd _).spoiling

theorem carries_parseBlobChunks (B : BlobContainer δ) (maxSize : Nat) (expectedType : TypeCode) (rounds size : Nat) :
    ParseCarries M (Detail.parseBlobChunks B maxSize expectedType rounds size)
      (Detail.parseBlobChunks B maxSize expectedType rounds size) := by
  induction rounds generalizing size with
  | zero => exact Action.carries_fail _ _
  | succ rounds ih =>
    refine carries_parseItemHead.onFst.bind fun chunkItem => .ite (Action.carries_pure _) (.ite (carries_err _ _) ?_)
    refine carries_inputSizeNow.onFst.bind fun _ => .ite (carries_err _ _) (.ite (carries_err _ _) ?_)
    exact (Action.carries_onSnd _).bind fun _ => (carries_readTo B _ _).bind fun _ => ih _

theorem carries_parseBlob (B : BlobContainer δ) (allow : Bool) (maxSize : Nat) (expectedType : TypeCode) :
    ParseCarries M (Detail.parseBlob B allow maxSize expectedType)
      (Detail.parseBlob B allow maxSize expectedType) := by
  refine carries_parseItemHead.onFst.bind fun head => .ite (carries_err _ _) (.ite (.ite ?_ (carries_err _ _)) ?_)
  · exact (Action.carries_onSnd _).bind fun _ => carries_inputSizeNow.onFst.bind fun _ =>
      carries_parseBlobChunks B maxSize expectedType _ 0
  · refine carries_inputSizeNow.onFst.bind fun _ => .ite (carries_err _ _) (.ite (carries_err _ _) ?_)
    exact (Action.carries_onSnd _).bind fun _ => (carries_readTo B 0 _).bind fun _ => Action.carries_pure _

section Ranges
variable {f : Nat → Parse σ δ Unit} {g : Nat → Parse τ δ Unit}

theorem carries_endAtBreak (i : Nat) {x : Parse σ δ Nat} {y : Parse τ δ Nat} (h : ParseCarries M x y) :
    ParseCarries M (Detail.endAtBreak i x) (Detail.endAtBreak i y) :=
  carries_peekByte.onFst.bind fun _ =>
    .ite ((carries_discardBuffered 1).onFst.bind fun _ => Action.carries_pure _) h

theorem carries_parseIndefiniteElements (h : ∀ i, ParseCarries M (f i) (g i)) (maxSize left i : Nat) :
    ParseCarries M (Detail.parseIndefiniteElements maxSize f left i)
      (Detail.parseIndefiniteElements maxSize g left i) := by
  induction left generalizing i with
  | zero => exact carries_endAtBreak i (carries_err _ _)
  | succ left ih => exact carries_endAtBreak i (.ite (carries_err _ _) ((h i).bind fun _ => ih (i + 1)))

theorem carries_parseArrayLike (h : ∀ i, ParseCarries M (f i) (g i)) (allow : Bool) (maxSize : Nat)
    (expectedType : TypeCode) :
    ParseCarries M (Detail.parseArrayLike allow maxSize expectedType f)
      (Detail.parseArrayLike allow maxSize expectedType g) := by
  refine carries_parseItemHead.onFst.bind fun head => .ite (carries_err _ _) (.ite (.ite ?_ (carries_err _ _)) ?_)
  · exact carries_parseIndefiniteElements h maxSize _ 0
  · refine carries_inputSizeNow.onFst.bind fun _ => .ite (carries_err _ _) (.ite (carries_err _ _) ?_)
    exact (Action.Carries.forRange h 0 _).bind fun _ => Action.carries_pure _

end Ranges

/-! ### Rescued streams -/

theorem carries_orRescue {σ : Type} [InputStream σ] {T : TruthfulInput σ} (x : Input σ α)
    (rescue : List UInt8 → α × List UInt8) : Action.Carries (map .stream) x (T.orRescue x rescue) :=
  fun _ _ _ hx => TruthfulInput.orRescue_ok hx

/-- What a stream does where it does not fail, it does in its rescued form. -/
def TruthfulInput.rescue {σ : Type} [I : InputStream σ] (T : TruthfulInput σ) : @StreamMap σ (Rescued σ) I T.rescued :=
  @StreamMap.mk σ (Rescued σ) I T.rescued .stream (fun _ => carries_orRescue _ _) fun _ => carries_orRescue _ _

/-! ### Streams that are as truthful as others -/

/-- A stream is truthful if the one it is mapped to is. -/
def TruthfulInput.comap (T : TruthfulInput τ) (M : StreamMap σ τ) : TruthfulInput σ where
  Valid s := T.Valid (map M.onDerived s)
  unread s := T.unread (map M.onDerived s)
  inputSize_eq hs := T.inputSize_eq hs
  inputSize_lt hs := T.inputSize_lt hs
  buffer_starts hs := T.buffer_starts hs
  discard := by
    intro s n hs hn
    obtain ⟨t, ht, hnext⟩ := T.discard hs hn
    have hrun : discardBuffered n s = (.ok (), _) := if_pos hn
    cases (carries_discardBuffered (M := M) n s () _ hrun).symm.trans ht
    exact ⟨_, hrun, hnext⟩
  require hs hn hrun := T.require hs hn (M.require _ _ _ _ hrun)
  bulk hs hn hrun := T.bulk hs hn (M.bulk _ _ _ _ hrun)

end DeepPack
