import DeepPack.Items.ParseCore
import DeepPack.Streams.MemoryInputStream

/-! What a head is, as a function of the unread bytes.

`headOf` reads the head off a byte string. `does_parseItemHead` is the point of it:
on every honest input, wherever its buffers end and whichever of the two bodies
runs, `parseItemHead` has the result of `headOf` and consumes the head's bytes, or
nothing if it fails. -/
namespace DeepPack
open Library InputBuffer

/-- The head a byte string starts with, or the error that says why there is none. -/
def headOf : List UInt8 → Except Errc ItemHead
  | [] => .error .endOfStream
  | indicator :: payload =>
    let info := Detail.headOfIndicator indicator
    if info.value ≤ inlineValueMax then .ok info
    else if info.value ≤ Detail.itemVarIntCodingThreshold then
      let sizeBytesPower := info.value - (inlineValueMax + 1)
      let n := 1 <<< sizeBytesPower
      if payload.length < n then .error .endOfStream
      else
        let info := {info with encodedLength := 1 + n, value := ofBytes (payload.take n)}
        if Detail.invalidExtended info sizeBytesPower then .error .invalidAdditionalInformation
        else .ok info
    else if info.value = indefiniteAddInfo ∧ Detail.mayBeIndefinite info.type then .ok info.makeIndefinite
    else .error .invalidAdditionalInformation

namespace Detail
variable {σ : Type} [InputStream σ] {C : InputContract σ} {s : InputBuffer σ}

/-- The argument at the top of eight bytes, shifted down. -/
theorem ofBytes_speculative {payload : List UInt8} (h : 8 ≤ payload.length) {p : Nat} (hp : p ≤ 3) :
    ofBytes (payload.take 8) >>> ((0b00111000 <<< p) &&& 63) = ofBytes (payload.take (1 <<< p)) := by
  have key : ∀ n k : Nat, n + k = 8 → ofBytes (payload.take 8) / 256 ^ k = ofBytes (payload.take n) := by
    intro n k hk
    have hsplit : payload.take 8 = payload.take n ++ (payload.drop n).take k := by
      rw [← hk, List.take_add]
    have hlen : ((payload.drop n).take k).length = k := by
      rw [List.length_take, List.length_drop]
      omega
    have hdiv := ofBytes_append_div (payload.take n) ((payload.drop n).take k)
    rw [hlen] at hdiv
    rw [hsplit, hdiv]
  rw [Nat.shiftRight_eq_div_pow]
  interval_cases p
  · exact key 1 7 rfl
  · exact key 2 6 rfl
  · exact key 4 4 rfl
  · exact key 8 0 rfl

theorem one_shiftLeft_le {p : Nat} (hp : p ≤ 3) : 1 <<< p ≤ 8 := by
  interval_cases p <;> decide

/-- With the whole argument unread, both ways of loading find it. -/
theorem loadArgument_ok (hs : C.Valid s) {speculative : Bool} {indicator : UInt8} {payload : List UInt8}
    (hu : C.unread s = indicator :: payload) (h9 : speculative = true → 9 ≤ s.buffer.length) {p : Nat}
    (hp : p ≤ 3) (hn : 1 <<< p ≤ payload.length) :
    ∃ t, loadArgument speculative p s = (.ok (ofBytes (payload.take (1 <<< p))), t) ∧ C.Valid t ∧
      C.unread t = C.unread s ∧ 1 + 1 <<< p ≤ t.buffer.length := by
  have hn8 := one_shiftLeft_le hp
  cases speculative
  · obtain ⟨t, ht, hvt, hut, hlt⟩ := C.require hs (n := 1 + 1 <<< p) (by omega)
      (by rw [hu, List.length_cons]; omega)
    refine ⟨t, ?_, hvt, hut, hlt⟩
    rw [loadArgument, if_neg (by decide), Action.bind_ok _ ht,
      Action.bind_ok _ (InputContract.dataSpan_eq hvt hlt), hut, hu]
    rfl
  · have hlt := h9 rfl
    have hpay : 8 ≤ payload.length := by
      have := InputContract.buffer_length_le hs
      rw [hu, List.length_cons] at this
      omega
    refine ⟨s, ?_, hs, rfl, by omega⟩
    rw [loadArgument, if_pos rfl, Action.bind_ok _ (InputContract.dataSpan_eq hs (by omega)), hu]
    exact congrArg (fun v => (Except.ok v, s)) (ofBytes_speculative hpay hp)

/-- With less unread, only the safe way is taken, and it fails. -/
theorem loadArgument_short (hs : C.Valid s) {speculative : Bool} {indicator : UInt8}
    {payload : List UInt8} (hu : C.unread s = indicator :: payload)
    (h9 : speculative = true → 9 ≤ s.buffer.length) {p : Nat} (hp : p ≤ 3)
    (hn : payload.length < 1 <<< p) :
    C.Does (loadArgument speculative p) s (.error (.errc .endOfStream)) (C.unread s) := by
  have hn8 := one_shiftLeft_le hp
  cases speculative
  · rw [loadArgument, if_neg (by decide)]
    exact (InputContract.require_short hs (by rw [hu, List.length_cons]; omega)).bind_error
  · have := InputContract.buffer_length_le hs
    rw [hu, List.length_cons] at this
    have := h9 rfl
    omega

/-- What a completed head leaves behind: nothing consumed, the head's bytes buffered. -/
def Completes (C : InputContract σ) (x : Input σ ItemHead) (s : InputBuffer σ) :
    Except Errc ItemHead → Prop
  | .ok h => ∃ t, x s = (.ok h, t) ∧ C.Valid t ∧ C.unread t = C.unread s ∧
      h.encodedLength ≤ t.buffer.length
  | .error e => C.Does x s (.error (.errc e)) (C.unread s)

theorem completeHead_completes (hs : C.Valid s) {speculative : Bool} {indicator : UInt8}
    {payload : List UInt8} (hu : C.unread s = indicator :: payload) (h1 : 1 ≤ s.buffer.length)
    (h9 : speculative = true → 9 ≤ s.buffer.length) :
    Completes C (completeHead speculative (headOfIndicator indicator)) s (headOf (C.unread s)) := by
  rw [hu, headOf, completeHead]
  by_cases hinline : (headOfIndicator indicator).value ≤ inlineValueMax
  · rw [if_pos hinline, if_pos hinline]
    exact ⟨s, rfl, hs, rfl, h1⟩
  rw [if_neg hinline, if_neg hinline]
  by_cases hvar : (headOfIndicator indicator).value ≤ itemVarIntCodingThreshold
  · rw [if_pos hvar, if_pos hvar]
    have hp : (headOfIndicator indicator).value - (inlineValueMax + 1) ≤ 3 := by
      simp only [itemVarIntCodingThreshold, inlineValueMax] at *
      omega
    generalize (headOfIndicator indicator).value - (inlineValueMax + 1) = p at hp ⊢
    by_cases hn : payload.length < 1 <<< p
    · rw [if_pos hn]
      exact (loadArgument_short hs hu h9 hp hn).bind_error
    · obtain ⟨t, ht, hvt, hut, hlt⟩ := loadArgument_ok hs hu h9 hp (Nat.le_of_not_lt hn)
      rw [if_neg hn]
      dsimp only
      split
      · rename_i hinvalid
        exact ⟨t, by rw [Action.bind_ok _ ht, if_pos hinvalid, err_apply], hvt, hut⟩
      · rename_i hvalid
        exact ⟨t, by rw [Action.bind_ok _ ht, if_neg hvalid, Action.pure_apply], hvt, hut, hlt⟩
  · rw [if_neg hvar, if_neg hvar]
    split
    · exact ⟨s, rfl, hs, rfl, h1⟩
    · exact InputContract.does_err hs _

/-- What is left unread behind the head `headOf` found. -/
def restAfter (discard : Bool) (b : List UInt8) : Except Errc ItemHead → List UInt8
  | .ok h => if discard then b.drop h.encodedLength else b
  | .error _ => b

theorem does_doParseItemHead (hs : C.Valid s) {speculative : Bool} (discard : Bool)
    (h1 : 1 ≤ s.buffer.length) (h9 : speculative = true → 9 ≤ s.buffer.length) :
    C.Does (doParseItemHead speculative discard) s ((headOf (C.unread s)).mapError .errc)
      (restAfter discard (C.unread s) (headOf (C.unread s))) := by
  have hlen := InputContract.buffer_length_le hs
  obtain ⟨indicator, payload, hu⟩ : ∃ i p, C.unread s = i :: p := by
    cases h : C.unread s with
    | nil =>
      rw [h, List.length_nil] at hlen
      omega
    | cons i p => exact ⟨i, p, rfl⟩
  have hdata : dataAt 0 s = (.ok indicator, s) := InputContract.dataAt_eq hs h1 (by rw [hu]; rfl)
  have hc := completeHead_completes hs hu h1 h9
  unfold doParseItemHead
  rcases hh : headOf (C.unread s) with e | h <;> rw [hh] at hc
  · obtain ⟨t, ht, hvt, hut⟩ := hc
    exact ⟨t, by rw [Action.bind_ok _ hdata, Action.bind_error _ ht]; rfl, hvt, hut⟩
  · obtain ⟨t, ht, hvt, hut, hlt⟩ := hc
    cases discard
    · exact ⟨t, by rw [Action.bind_ok _ hdata, Action.bind_ok _ ht]; rfl, hvt, hut⟩
    · obtain ⟨t', ht', hvt', hut'⟩ := C.discard hvt hlt
      refine ⟨t', ?_, hvt', ?_⟩
      · rw [Action.bind_ok _ hdata, Action.bind_ok _ ht]
        exact Action.bind_ok _ ht'
      · rw [hut', hut]
        rfl

end Detail

variable {σ : Type} [InputStream σ] {C : InputContract σ} {s : InputBuffer σ}

/-- Parsing or peeking a head depends on the unread bytes only. -/
theorem does_detailParseItemHead (hs : C.Valid s) (discard : Bool) :
    C.Does (Detail.parseItemHead discard) s ((headOf (C.unread s)).mapError .errc)
      (Detail.restAfter discard (C.unread s) (headOf (C.unread s))) := by
  have hstart : ∀ t, C.Valid t → C.unread t = C.unread s → 1 ≤ t.buffer.length →
      C.Does (do
        if varUintMaxSize ≤ (← size) then Detail.doParseItemHead true discard
        else Detail.doParseItemHead false discard) t ((headOf (C.unread s)).mapError .errc)
        (Detail.restAfter discard (C.unread s) (headOf (C.unread s))) := by
    intro t hvt hut h1
    rw [← hut]
    by_cases h9 : varUintMaxSize ≤ t.buffer.length
    · have h9' : true = true → 9 ≤ t.buffer.length := fun _ => h9
      obtain ⟨t', ht', hv⟩ := Detail.does_doParseItemHead hvt discard h1 h9'
      exact ⟨t', by rw [size, Action.gets_bind_apply, if_pos h9, ht'], hv⟩
    · have h9' : false = true → 9 ≤ t.buffer.length := fun h => nomatch h
      obtain ⟨t', ht', hv⟩ := Detail.does_doParseItemHead hvt discard h1 h9'
      exact ⟨t', by rw [size, Action.gets_bind_apply, if_neg h9, ht'], hv⟩
  unfold Detail.parseItemHead
  by_cases hempty : s.buffer.isEmpty
  · by_cases hne : 1 ≤ (C.unread s).length
    · obtain ⟨t, ht, hvt, hut, hlt⟩ := C.require hs (n := 1) (by decide) hne
      obtain ⟨t', ht', hv⟩ := hstart t hvt hut hlt
      refine ⟨t', ?_, hv⟩
      rw [empty, Action.gets_bind_apply, if_pos hempty]
      exact (Action.bind_ok _ ht).trans ht'
    · have hnil : C.unread s = [] := List.eq_nil_of_length_eq_zero (by omega)
      obtain ⟨t', ht', hv⟩ := InputContract.require_short hs (n := 1) (by omega)
      rw [hnil] at hv ⊢
      refine ⟨t', ?_, hv⟩
      rw [empty, Action.gets_bind_apply, if_pos hempty, Action.bind_error _ ht']
      rfl
  · have h1 : 1 ≤ s.buffer.length := by
      rw [List.isEmpty_iff_length_eq_zero] at hempty
      omega
    obtain ⟨t', ht', hv⟩ := hstart s hs rfl h1
    refine ⟨t', ?_, hv⟩
    rw [empty, Action.gets_bind_apply, if_neg hempty]
    exact ht'

/-! ### On a memory stream -/

section Memory
variable {b : List UInt8} {h : ItemHead} {e : Errc}

theorem parseItemHead_memory (hb : b.length < wordLimit) (hh : headOf b = .ok h) :
    parseItemHead (memoryInput b) = (.ok h, memoryInput (b.drop h.encodedLength)) := by
  have hd := does_detailParseItemHead (MemoryInputStream.valid_memory hb) true
  simp only [MemoryInputStream.contract, memoryInput_buffer, hh] at hd
  exact MemoryInputStream.does_memory hd

theorem parseItemHead_memory_error (hb : b.length < wordLimit) (hh : headOf b = .error e) :
    parseItemHead (memoryInput b) = (.error (.errc e), memoryInput b) := by
  have hd := does_detailParseItemHead (MemoryInputStream.valid_memory hb) true
  simp only [MemoryInputStream.contract, memoryInput_buffer, hh] at hd
  exact MemoryInputStream.does_memory hd

theorem peekItemHead_memory (hb : b.length < wordLimit) (hh : headOf b = .ok h) :
    peekItemHead (memoryInput b) = (.ok h, memoryInput b) := by
  have hd := does_detailParseItemHead (MemoryInputStream.valid_memory hb) false
  simp only [MemoryInputStream.contract, memoryInput_buffer, hh] at hd
  exact MemoryInputStream.does_memory hd

theorem peekItemHead_memory_error (hb : b.length < wordLimit) (hh : headOf b = .error e) :
    peekItemHead (memoryInput b) = (.error (.errc e), memoryInput b) := by
  have hd := does_detailParseItemHead (MemoryInputStream.valid_memory hb) false
  simp only [MemoryInputStream.contract, memoryInput_buffer, hh] at hd
  exact MemoryInputStream.does_memory hd

end Memory

end DeepPack
