import DeepPack.Streams.RequireContract
import DeepPack.Items.Accepting

/-! Heads, parsed off any input that keeps the contract of `require_input`.

Which of its two bodies the parser of heads runs, and where the buffers end, makes no
difference: it takes the head of the grammar the unread bytes start with, and nothing
if they start with none. With nine bytes buffered the two bodies do the same, down to
the state they leave. -/
namespace DeepPack
open Library InputBuffer

namespace ReadFrom
variable {h : ItemHead} {p : List UInt8}

theorem headOf (hread : ReadFrom h p) (rest : List UInt8) : DeepPack.headOf (p ++ rest) = .ok h := by
  cases hread with
  | definite hm hhead hgood => exact hhead.headOf hm hgood rest
  | indefinite hm hmay => exact headOf_indefinite hm hmay rest

theorem encodedLength_eq (hread : ReadFrom h p) : h.encodedLength = p.length := by
  cases hread <;> rfl

/-- The five lengths a head can have. -/
theorem length_mem (hread : ReadFrom h p) : p.length ∈ [1, 2, 3, 5, 9] := by
  cases hread with
  | definite hm hhead hgood =>
    cases hhead with
    | inline => exact List.mem_cons_self
    | payload hp hlen =>
      rename_i power _
      rw [List.length_cons, hlen]
      interval_cases power <;> decide
  | indefinite => exact List.mem_cons_self

end ReadFrom

theorem exists_readFrom {b : List UInt8} {h : ItemHead} (hh : headOf b = .ok h) :
    ∃ p rest, b = p ++ rest ∧ ReadFrom h p := by
  obtain ⟨m, hm, ⟨info, v, head, rest, rfl, hhead, hgood, rfl⟩ | ⟨rest, rfl, hmay, rfl⟩⟩ := headOf_sound hh
  · exact ⟨head, rest, rfl, .definite hm hhead hgood⟩
  · exact ⟨[initialByte m 31], rest, rfl, .indefinite hm hmay⟩

/-- An input starts with one head. -/
theorem ReadFrom.unique {h h' : ItemHead} {p p' x x' : List UInt8} (hread : ReadFrom h p) (hread' : ReadFrom h' p')
    (heq : p ++ x = p' ++ x') : h = h' ∧ p = p' ∧ x = x' := by
  have hhead := hread.headOf x
  rw [heq, hread'.headOf x'] at hhead
  obtain rfl : h' = h := Except.ok.inj hhead
  have hlen : p.length = p'.length := hread.encodedLength_eq.symm.trans hread'.encodedLength_eq
  obtain ⟨rfl, rfl⟩ := List.append_inj heq hlen
  exact ⟨rfl, rfl, rfl⟩

namespace RequireContract
variable {σ α : Type} [I : InputStream σ] (R : RequireContract σ) {s : InputBuffer σ}

/-- From `s`, `x` has the result `r` and leaves `rest` unread. -/
def Does (x : Input σ α) (s : InputBuffer σ) (r : Except Fault α) (rest : List UInt8) : Prop :=
  ∃ t, x s = (r, t) ∧ R.Valid t ∧ R.unread t = rest

/-- From `s` and the destination `d`, `x` has the result `r`, leaves `d'` in the destination and `rest` unread. -/
def Parses {δ α : Type} (x : Parse σ δ α) (s : InputBuffer σ) (d : δ) (r : Except Fault α) (d' : δ)
    (rest : List UInt8) : Prop :=
  ∃ t, x (s, d) = (r, (t, d')) ∧ R.Valid t ∧ R.unread t = rest

/-- Heads are not read in bulk. -/
theorem does_parseItemHead (hs : R.Valid s) (discard : Bool) :
    R.Does (Detail.parseItemHead discard) s ((headOf (R.unread s)).mapError .errc)
      (Detail.restAfter discard (R.unread s) (headOf (R.unread s))) :=
  @does_detailParseItemHead σ (bytewise I) R.honest s hs discard

variable {R} {h : ItemHead} {p rest : List UInt8}

theorem does_readFrom (hs : R.Valid s) (hread : ReadFrom h p) (hu : R.unread s = p ++ rest) :
    R.Does parseItemHead s (.ok h) rest ∧ R.Does peekItemHead s (.ok h) (R.unread s) := by
  have hh := hread.headOf rest
  rw [← hu] at hh
  have hparse := R.does_parseItemHead hs true
  have hpeek := R.does_parseItemHead hs false
  rw [hh] at hparse hpeek
  refine ⟨?_, hpeek⟩
  have hrest : Detail.restAfter true (R.unread s) (.ok h) = rest := by
    rw [hu, Detail.restAfter, if_pos rfl, hread.encodedLength_eq, List.drop_left]
  rwa [hrest] at hparse

theorem does_noHead (hs : R.Valid s) (hno : ∀ h p rest, ReadFrom h p → R.unread s ≠ p ++ rest) :
    ∃ e, R.Does parseItemHead s (.error (.errc e)) (R.unread s) ∧
      R.Does peekItemHead s (.error (.errc e)) (R.unread s) := by
  have hparse := R.does_parseItemHead hs true
  have hpeek := R.does_parseItemHead hs false
  rcases hh : headOf (R.unread s) with e | h
  · rw [hh] at hparse hpeek
    exact ⟨e, hparse, hpeek⟩
  · obtain ⟨p, rest, hu, hread⟩ := exists_readFrom hh
    exact absurd hu (hno h p rest hread)

theorem Parses.head {δ α : Type} {f : ItemHead → Parse σ δ α} {d d' : δ} {r : Except Fault α} {after : List UInt8}
    (hs : R.Valid s) (hread : ReadFrom h p) (hu : R.unread s = p ++ rest)
    (hf : ∀ t, R.Valid t → R.unread t = rest → R.Parses (f h) t d r d' after) :
    R.Parses (Action.onFst parseItemHead >>= f) s d r d' after := by
  obtain ⟨⟨t, ht, hvt, hut⟩, -⟩ := does_readFrom hs hread hu
  obtain ⟨u, hu, hvu, huu⟩ := hf t hvt hut
  exact ⟨u, (Action.bind_ok _ (Action.onFst_ok ht d)).trans hu, hvu, huu⟩

/-! ### The two bodies -/

theorem requireInput_buffered (hs : R.Valid s) {n : Nat} (hn : n ≤ s.buffer.length) :
    requireInput n s = (.ok (), s) := by
  have hle := (R.buffer_starts hs).length_le
  have hsize := R.inputSize_eq hs
  rw [requireInput, if_neg (by omega), if_neg (by omega)]

theorem loadArgument_same (hs : R.Valid s) (h9 : varUintMaxSize ≤ s.buffer.length) {power : Nat} (hp : power ≤ 3) :
    Detail.loadArgument true power s = Detail.loadArgument false power s := by
  have hn := Detail.one_shiftLeft_le hp
  have hnine : 9 ≤ s.buffer.length := h9
  have hrequire := requireInput_buffered hs (n := 1 + 1 <<< power) (by omega)
  have hspan : ∀ n, n ≤ 8 → dataSpan 1 n s = (.ok ((s.buffer.drop 1).take n), s) := by
    intro n hn
    rw [dataSpan, if_pos (by omega)]
  have hpayload : 8 ≤ (s.buffer.drop 1).length := by
    rw [List.length_drop]
    omega
  rw [Detail.loadArgument, Detail.loadArgument, if_pos rfl, if_neg Bool.false_ne_true, Action.bind_ok _ hrequire,
    Action.bind_ok _ (hspan 8 le_rfl), Action.bind_ok _ (hspan _ hn)]
  exact congrArg (fun v => (Except.ok v, s)) (Detail.ofBytes_speculative hpayload hp)

theorem completeHead_same (hs : R.Valid s) (h9 : varUintMaxSize ≤ s.buffer.length) (info : ItemHead) :
    Detail.completeHead true info s = Detail.completeHead false info s := by
  rw [Detail.completeHead, Detail.completeHead]
  by_cases hinline : info.value ≤ inlineValueMax
  · rw [if_pos hinline, if_pos hinline]
  rw [if_neg hinline, if_neg hinline]
  by_cases hvar : info.value ≤ Detail.itemVarIntCodingThreshold
  · have hp : info.value - (inlineValueMax + 1) ≤ 3 := by
      simp only [Detail.itemVarIntCodingThreshold, inlineValueMax] at *
      omega
    rw [if_pos hvar, if_pos hvar, Action.bind_apply, Action.bind_apply, loadArgument_same hs h9 hp]
  · rw [if_neg hvar, if_neg hvar]

/-- With nine bytes buffered the speculative body and the safe one are the same. -/
theorem doParseItemHead_same (hs : R.Valid s) (h9 : varUintMaxSize ≤ s.buffer.length) (discard : Bool) :
    Detail.doParseItemHead true discard s = Detail.doParseItemHead false discard s := by
  rw [Detail.doParseItemHead, Detail.doParseItemHead]
  rcases hdata : dataAt 0 s with ⟨e | indicator, t⟩
  · rw [Action.bind_error _ hdata, Action.bind_error _ hdata]
  · obtain rfl : t = s := by
      rw [dataAt] at hdata
      split at hdata <;> cases hdata
      rfl
    rw [Action.bind_ok _ hdata, Action.bind_ok _ hdata, Action.bind_apply, Action.bind_apply,
      completeHead_same hs h9]

end RequireContract

/-! ### The parser of heads -/

/-- The head parsers take exactly the heads of the grammar, on every input, and their two bodies agree. -/
theorem parseItemHead_correct {σ : Type} [InputStream σ] (R : RequireContract σ) {s : InputBuffer σ}
    (hs : R.Valid s) :
    (∀ h p rest, ReadFrom h p → R.unread s = p ++ rest →
      h.encodedLength = p.length ∧ p.length ∈ [1, 2, 3, 5, 9] ∧
        R.Does parseItemHead s (.ok h) rest ∧ R.Does peekItemHead s (.ok h) (R.unread s)) ∧
    ((∀ h p rest, ReadFrom h p → R.unread s ≠ p ++ rest) →
      ∃ e, R.Does parseItemHead s (.error (.errc e)) (R.unread s) ∧
        R.Does peekItemHead s (.error (.errc e)) (R.unread s)) ∧
    (varUintMaxSize ≤ s.buffer.length →
      ∀ discard, Detail.doParseItemHead true discard s = Detail.doParseItemHead false discard s) := by
  refine ⟨fun h p rest hread hu => ?_, RequireContract.does_noHead hs, RequireContract.doParseItemHead_same hs⟩
  obtain ⟨hparse, hpeek⟩ := RequireContract.does_readFrom hs hread hu
  exact ⟨hread.encodedLength_eq, hread.length_mem, hparse, hpeek⟩

/-- A head of two bytes, and the byte behind it. -/
theorem parseItemHead_correct_memory :
    MemoryInputStream.contract.toRequire.Does parseItemHead (memoryInput [0x18, 0x2a, 0xff])
      (.ok ⟨.posint, 0, 2, 42⟩) [0xff] := by
  have hhead : Head 0 (24 + 0) (ofBytes [0x2a]) (initialByte 0 (24 + 0) :: [0x2a]) := .payload (by decide) rfl
  have hcorrect := parseItemHead_correct MemoryInputStream.contract.toRequire
    (MemoryInputStream.valid_memory (b := [0x18, 0x2a, 0xff]) (by decide))
  exact (hcorrect.1 _ _ [0xff] (.definite (by decide) hhead (by decide)) rfl).2.2.1

end DeepPack
