import DeepPack.Codecs.Core
import DeepPack.Items.Carrying
import DeepPack.Items.HeadContract
import DeepPack.Library.Runs
import DeepPack.Streams.ChunkedInputStream

/-! Strings in an array of their own.

The members are compared one by one: how many code units there are, and then the whole
array. Decoding writes the code units of the text and leaves those behind it as they
were, so that two strings of one text are equal as long as nothing is left of another. -/
namespace DeepPack
open Library InputBuffer

namespace FixedU8string

/-- `operator==`, which is defaulted. -/
def equal (lhs rhs : FixedU8string) : Bool :=
  lhs.numCodeUnits == rhs.numCodeUnits && lhs.codeUnits == rhs.codeUnits

/-- The code units of two arrays of one size, member by member. -/
def compareUnits : List UInt8 → List UInt8 → Ordering
  | a :: as, b :: bs => (compare a b).then (compareUnits as bs)
  | [], _ :: _ => .lt
  | _ :: _, [] => .gt
  | [], [] => .eq

/-- `operator<=>`, which is defaulted. -/
def threeWay (lhs rhs : FixedU8string) : Ordering :=
  (compare lhs.numCodeUnits rhs.numCodeUnits).then (compareUnits lhs.codeUnits rhs.codeUnits)

/-- The string in an array of another capacity. -/
def convert (capacity : Nat) (other : FixedU8string) : FixedU8string where
  numCodeUnits := other.numCodeUnits
  codeUnits := other.codeUnits ++ List.replicate (capacity - other.codeUnits.length) 0

/-- The array holds zeros behind the text. -/
def Clean (capacity : Nat) (s : FixedU8string) : Prop := s = ofUnits capacity s.view ∧ s.view.length ≤ capacity

variable {a b s : FixedU8string} {units : List UInt8} {capacity : Nat}

theorem equal_iff : equal a b = true ↔ a = b := by
  obtain ⟨n, units⟩ := a
  obtain ⟨m, others⟩ := b
  simp [equal]

theorem compareUnits_eq {as bs : List UInt8} : compareUnits as bs = .eq ↔ as = bs := by
  induction as generalizing bs with
  | nil => cases bs <;> simp [compareUnits]
  | cons a as ih => cases bs <;> simp [compareUnits, Ordering.then_eq_eq, ih]

theorem threeWay_eq : threeWay a b = .eq ↔ a = b := by
  obtain ⟨n, units⟩ := a
  obtain ⟨m, others⟩ := b
  simp [threeWay, Ordering.then_eq_eq, compareUnits_eq]

theorem clean_ofUnits (h : units.length ≤ capacity) : Clean capacity (ofUnits capacity units) := by
  have hview : (ofUnits capacity units).view = units := List.take_left
  rw [Clean, hview]
  exact ⟨rfl, h⟩

/-- Of two clean strings the texts are compared. -/
theorem Clean.eq_iff (ha : Clean capacity a) (hb : Clean capacity b) : a = b ↔ a.view = b.view := by
  constructor
  · intro h
    rw [h]
  · intro h
    rw [ha.1, hb.1, h]

end FixedU8string

/-! ### The parser of text, into a span -/

/-- The bytes start with a definite text of these code units, and not more than so many. -/
def TextAt (maxSize : Nat) (b text : List UInt8) : Prop :=
  ∃ info head rest, b = head ++ (text ++ rest) ∧ Head 3 info text.length head ∧ text.length ≤ maxSize

section Parser
variable {maxSize : Nat} {b d p rest text : List UInt8} {h : ItemHead}

theorem notBadSimple_text {info v : Nat} : ¬ BadSimple 3 info v := fun hbad => by cases hbad.1

/-- A text begins with its head. -/
theorem TextAt.read (htext : TextAt maxSize (p ++ rest) text) (hread : ReadFrom h p) :
    h.type = .text ∧ h.indefinite = false ∧ h.value = text.length ∧ text <+: rest ∧ text.length ≤ maxSize := by
  obtain ⟨info, head, tail, heq, hhead, hle⟩ := htext
  have hread' : ReadFrom ⟨.ofMajor 3, 0, head.length, text.length⟩ head :=
    .definite (by decide) hhead notBadSimple_text
  obtain ⟨rfl, rfl, rfl⟩ := hread.unique hread' heq
  exact ⟨rfl, ItemHead.indefinite_zero _ _ _, rfl, ⟨tail, rfl⟩, hle⟩

/-- An input starts with one text. -/
theorem TextAt.unique {other : List UInt8} (htext : TextAt maxSize b text) (hother : TextAt maxSize b other) :
    other = text := by
  obtain ⟨info, head, rest, rfl, hhead, hle⟩ := htext
  have hread : ReadFrom ⟨.ofMajor 3, 0, head.length, text.length⟩ head :=
    .definite (by decide) hhead notBadSimple_text
  obtain ⟨-, -, hlen, hprefix, -⟩ := hother.read hread
  exact (List.prefix_of_prefix_length_le hprefix (List.prefix_append text rest) hlen.ge).eq_of_length hlen.symm

theorem textAt_of_read (hread : ReadFrom h p) (htype : h.type = .text) (hindefinite : h.indefinite = false)
    (hlen : h.value ≤ rest.length) (hle : h.value ≤ maxSize) : TextAt maxSize (p ++ rest) (rest.take h.value) := by
  have htake : (rest.take h.value).length = h.value := List.length_take_of_le hlen
  cases hread with
  | @definite m info v head hm hhead hgood =>
    obtain rfl : m = 3 := (TypeCode.ofMajor_inj (n := 3) hm (by decide)).mp htype
    refine ⟨info, p, rest.drop v, by rw [List.take_append_drop], ?_, ?_⟩
    · rw [htake]
      exact hhead
    · rwa [htake]
  | indefinite => simp at hindefinite

end Parser

/-! ### What an input gives -/

section Arriving
variable {σ : Type} [InputStream σ] {T : TruthfulInput σ} {C : InputContract σ} {s t : InputBuffer σ}
  {maxSize : Nat} {d text copied : List UInt8} {h : ItemHead}

/-- What an input gives a parser of text: the text, or, where there is none or the input fails, what a bulk read has
copied of it. -/
def arriving (maxSize : Nat) (s : InputBuffer σ) : Except (List UInt8) (List UInt8) :=
  match parseItemHead s with
  | (.ok head, t) =>
    if head.type ≠ .text ∨ head.indefinite ∨ t.inputSize < head.value ∨ maxSize < head.value then .error []
    else
      match bulkRead head.value t with
      | (.ok text, _) => .ok text
      | (.error _, _) => .error (bulkCopied head.value t)
  | (.error _, _) => .error []

/-- A head that was read is what the bytes of the input start with. -/
theorem parseItemHead_truthful (hs : T.Valid s) (hrun : parseItemHead s = (.ok h, t)) :
    ∃ p, ReadFrom h p ∧ T.unread s = p ++ T.unread t ∧ T.Valid t := by
  let _ := T.rescued
  have hvalid : T.honest.Valid (s.map .stream) := hs
  obtain ⟨u, hu, hnext, hleft⟩ := does_detailParseItemHead hvalid true
  have hrescued : parseItemHead (s.map Rescued.stream) = (.ok h, t.map Rescued.stream) :=
    carries_parseItemHead (M := T.rescue) _ _ _ hrun
  change parseItemHead (s.map Rescued.stream) = _ at hu
  rw [hrescued] at hu
  obtain ⟨hresult, rfl⟩ := Prod.mk.inj hu
  have hhead : headOf (T.unread s) = .ok h := by
    change Except.ok h = (headOf (T.unread s)).mapError _ at hresult
    rcases hcases : headOf (T.unread s) with e | h' <;> rw [hcases] at hresult <;> cases hresult
    rfl
  obtain ⟨p, rest, hunread, hread⟩ := exists_readFrom hhead
  refine ⟨p, hread, ?_, hnext⟩
  change T.unread t = Detail.restAfter true (T.unread s) (headOf (T.unread s)) at hleft
  rw [hleft, hhead, Detail.restAfter, if_pos rfl, hunread, hread.encodedLength_eq, List.drop_left]

theorem readTo_span_ok (hread : bulkRead h.value s = (.ok text, t)) :
    Detail.readTo .span 0 h.value (s, d) = (.ok (), (t, text ++ d.drop text.length)) := by
  apply Action.spoiling_ok ((Action.bind_ok _ (Action.onFst_ok hread d)).trans ?_)
  simp [Action.modify, BlobContainer.span, BlobContainer.putAt]

theorem readTo_span_error {e : Fault} (hread : bulkRead h.value s = (.error e, t)) :
    Detail.readTo .span 0 h.value (s, d) =
      (.error e, (t, bulkCopied h.value s ++ d.drop (bulkCopied h.value s).length)) := by
  have hfails : Action.onFst (bulkRead h.value) (s, d) = (.error e, (t, d)) := by
    rw [Action.onFst_apply, hread]
  apply (Action.spoiling_error (Action.bind_error _ hfails)).trans
  simp [BlobContainer.span, BlobContainer.putAt]

/-- The text is written to the front of the span, or as much of it as was copied. -/
theorem parseTextFinite_span (hs : T.Valid s) (hsize : maxSize ≤ d.length) :
    (∃ text u, arriving maxSize s = .ok text ∧ TextAt maxSize (T.unread s) text ∧
      parseTextFinite .span maxSize (s, d) = (.ok text.length, (u, text ++ d.drop text.length))) ∨
    ∃ copied e u, arriving maxSize s = .error copied ∧ copied.length ≤ maxSize ∧
      parseTextFinite .span maxSize (s, d) = (.error e, (u, copied ++ d.drop copied.length)) := by
  unfold parseTextFinite Detail.parseBlob arriving
  rcases hhead : parseItemHead s with ⟨e | h, t⟩
  · right
    refine ⟨[], e, t, rfl, Nat.zero_le _, Action.bind_error _ ?_⟩
    rw [Action.onFst_apply, hhead]
    rfl
  obtain ⟨p, hread, hunread, ht⟩ := parseItemHead_truthful hs hhead
  have hinput : Action.onFst inputSizeNow (t, d) = (.ok t.inputSize, (t, d)) := rfl
  rw [Action.bind_ok _ (Action.onFst_ok hhead d)]
  by_cases htype : h.type = .text
  · by_cases hindefinite : h.indefinite
    · right
      exact ⟨[], .errc .indefiniteItem, t, by simp [hindefinite], Nat.zero_le _, by simp [htype, hindefinite]⟩
    rw [if_neg (not_not.mpr htype), if_neg hindefinite, Action.bind_ok _ hinput]
    by_cases hmissing : t.inputSize < h.value
    · right
      exact ⟨[], .errc .missingData, t, by simp [hmissing], Nat.zero_le _, by simp [hmissing, err_apply]⟩
    rw [if_neg hmissing]
    by_cases hlarge : maxSize < h.value
    · right
      exact ⟨[], .errc .stringExceedsSizeLimit, t, by simp [hlarge], Nat.zero_le _, by simp [hlarge, err_apply]⟩
    have hle := Nat.not_lt.mp hlarge
    have hresize : Action.onSnd (BlobContainer.span.containerResize h.value) (t, d) = (.ok (), (t, d)) := by
      rw [Action.onSnd_apply, BlobContainer.containerResize]
      simp [BlobContainer.span, hle.trans hsize]
    have hnone : ¬ (h.type ≠ .text ∨ h.indefinite ∨ t.inputSize < h.value ∨ maxSize < h.value) := by
      simp [htype, hindefinite, hmissing, hlarge]
    rw [if_neg hlarge, Action.bind_ok _ hresize]
    simp only [if_neg hnone]
    rcases hbulk : bulkRead h.value t with ⟨e | text, u⟩
    · right
      refine ⟨bulkCopied h.value t, e, u, rfl, (bulkCopied_length _ _).trans hle, ?_⟩
      exact Action.bind_error _ (readTo_span_error hbulk)
    · left
      have henough : h.value ≤ (T.unread t).length := by
        rw [← T.inputSize_eq ht]
        exact Nat.not_lt.mp hmissing
      obtain ⟨rfl, -, -⟩ := T.bulk ht henough hbulk
      have htake : ((T.unread t).take h.value).length = h.value := List.length_take_of_le henough
      refine ⟨_, u, rfl, ?_, ?_⟩
      · rw [hunread]
        exact textAt_of_read hread htype (by simpa using hindefinite) henough hle
      · rw [htake, Action.bind_ok _ (readTo_span_ok hbulk), htake]
        rfl
  · right
    exact ⟨[], .errc .itemTypeMismatch, t, by simp [htype], Nat.zero_le _, by simp [htype, err_apply]⟩

/-- An honest input gives the text it starts with. -/
theorem TextAt.arriving (hs : C.Valid s) (htext : TextAt maxSize (C.unread s) text) :
    DeepPack.arriving maxSize s = .ok text := by
  obtain ⟨info, head, rest, hunread, hhead, hle⟩ := htext
  obtain ⟨⟨t, ht, hvt, hut⟩, -⟩ := RequireContract.does_readFrom (R := C.toRequire) hs
    (.definite (by decide) hhead notBadSimple_text) hunread
  have hleft : C.unread t = text ++ rest := hut
  have hlen : text.length ≤ (C.unread t).length := by
    rw [hleft, List.length_append]
    exact Nat.le_add_right _ _
  obtain ⟨u, hu, -⟩ := C.bulk hvt hlen
  rw [hleft, List.take_left] at hu
  have hnone : ¬ (TypeCode.ofMajor 3 ≠ .text ∨ (⟨.ofMajor 3, 0, head.length, text.length⟩ : ItemHead).indefinite ∨
      t.inputSize < text.length ∨ maxSize < text.length) := by
    have htype : TypeCode.ofMajor 3 = .text := rfl
    rw [C.inputSize_eq hvt, ItemHead.indefinite_zero]
    simp [htype, hlen, hle]
  unfold DeepPack.arriving
  simp only [ht, if_neg hnone, hu]

/-- Where it gives no text, it starts with none, and nothing is copied. -/
theorem arriving_honest_error (hs : C.Valid s) (harriving : arriving maxSize s = .error copied) :
    (∀ text, ¬ TextAt maxSize (C.unread s) text) ∧ copied = [] := by
  constructor
  · intro text htext
    rw [htext.arriving hs] at harriving
    cases harriving
  · unfold arriving at harriving
    rcases hhead : parseItemHead s with ⟨e | h, t⟩
    · simp only [hhead] at harriving
      cases harriving
      rfl
    · obtain ⟨-, -, -, ht⟩ := parseItemHead_truthful (T := C.truthful) hs hhead
      simp only [hhead] at harriving
      split at harriving
      · cases harriving
        rfl
      · rcases hbulk : bulkRead h.value t with ⟨e | text, u⟩
        · simp only [hbulk] at harriving
          cases harriving
          exact InputContract.bulkCopied_eq ht hbulk
        · simp only [hbulk] at harriving
          cases harriving

end Arriving

/-! ### The histories of a string -/

/-- A string, and how many code units its array has. -/
structure HeldString where
  capacity : Nat
  string : FixedU8string
  deriving DecidableEq, Repr

/-- What happens to a string after it was constructed. -/
inductive StringEvent : Type 1 where
  /-- It is decoded from this input, whose stream may fail at any call. -/
  | decode {σ : Type} [InputStream σ] (T : TruthfulInput σ) (input : InputBuffer σ)
  /-- A string of this capacity is constructed from it. -/
  | convert (capacity : Nat)

namespace HeldString
open FixedU8string

/-- The string without text. -/
def empty (capacity : Nat) : HeldString := ⟨capacity, .ofUnits capacity []⟩

/-- The string of a literal. -/
def literal (units : List UInt8) : HeldString := ⟨units.length, ⟨units.length, units⟩⟩

/-- The capacity as an `unsigned`. -/
def maxlen (held : HeldString) : Nat := held.capacity % 2 ^ 32

def Constructed (start : HeldString) : Prop := (∃ capacity, start = empty capacity) ∨ ∃ units, start =
    literal units

/-- Decoding the string from the input. -/
def decoded {σ : Type} [InputStream σ] (input : InputBuffer σ) (held : HeldString) :
    Except Fault Unit × InputBuffer σ × FixedU8string :=
  (fixedU8stringDecoder held.capacity).decode σ (input, held.string)

def next : StringEvent → HeldString → HeldString
  | @StringEvent.decode _ _ _ input, held => {held with string := (decoded input held).2.2}
  | .convert capacity, held => ⟨capacity, held.string.convert capacity⟩

/-- Strings are converted to larger ones. -/
def Permitted : StringEvent → HeldString → Prop
  | @StringEvent.decode _ _ T input, _ => T.Valid input
  | .convert capacity, held => held.capacity ≤ capacity

/-- A string that was decoded is the string of its text, and one that could not be decoded the string of none. -/
def DependsOnText : StringEvent → HeldString → Prop
  | @StringEvent.decode _ _ T input, held =>
    ((decoded input held).1 = .ok () → ∃ text, TextAt held.maxlen (T.unread input) text ∧
      (decoded input held).2.2.view = text ∧
      equal (decoded input held).2.2 (.ofUnits held.capacity text) = true ∧
      threeWay (decoded input held).2.2 (.ofUnits held.capacity text) = .eq) ∧
    (∀ e, (decoded input held).1 = .error e → equal (decoded input held).2.2 (.ofUnits held.capacity []) = true)
  | .convert _, _ => True

/-- There are zeros in the array behind the text that is decoded, and nothing but zeros if there is none: neither from
before nor from a read that failed. -/
def Spared : StringEvent → HeldString → Prop
  | @StringEvent.decode _ _ _ input, held =>
    match arriving held.maxlen input with
    | .ok text => held.string.codeUnits.drop text.length = List.replicate (held.capacity - text.length) 0
    | .error copied => copied ++ held.string.codeUnits.drop copied.length = List.replicate held.capacity 0
  | .convert _, _ => True

/-- The length is that of a text in the array. -/
def Sized (held : HeldString) : Prop :=
  held.string.codeUnits.length = held.capacity ∧ held.string.numCodeUnits ≤ held.capacity

variable {held start : HeldString} {text copied : List UInt8} {event : StringEvent} {events : List StringEvent}

/-- Decoding changes the code units of the text, or of what was copied, and no others. -/
theorem decoded_cases {σ : Type} [InputStream σ] {T : TruthfulInput σ} {input : InputBuffer σ} (hinput : T.Valid input)
    (hsized : Sized held) :
    (∃ text u, arriving held.maxlen input = .ok text ∧ TextAt held.maxlen (T.unread input) text ∧
      decoded input held = (.ok (), (u, ⟨text.length, text ++ held.string.codeUnits.drop text.length⟩))) ∨
    ∃ copied e u, arriving held.maxlen input = .error copied ∧ copied.length ≤ held.maxlen ∧
      decoded input held = (.error e, (u, ⟨0, copied ++ held.string.codeUnits.drop copied.length⟩)) := by
  have hlen : held.maxlen ≤ held.string.codeUnits.length := by
    rw [hsized.1]
    exact Nat.mod_le _ _
  have hcleared : (Action.onSnd (Action.modify fun s => {s with numCodeUnits := 0}) : Parse σ FixedU8string Unit)
      (input, held.string) = (.ok (), (input, ⟨0, held.string.codeUnits⟩)) := rfl
  have hstart : decoded input held = Detail.decodeFixedU8string held.maxlen σ (input, held.string) := rfl
  rw [hstart, Detail.decodeFixedU8string, Action.bind_ok _ hcleared]
  rcases parseTextFinite_span hinput hlen with ⟨text, u, harriving, htext, hparse⟩ | ⟨copied, e, u, harriving, hle, hparse⟩
  · left
    refine ⟨text, u, harriving, htext, ?_⟩
    have hwithin : Action.within FixedU8string.codeUnits (fun units s => {s with codeUnits := units})
        (parseTextFinite .span held.maxlen) (input, (⟨0, held.string.codeUnits⟩ : FixedU8string)) =
          (.ok text.length, (u, ⟨0, text ++ held.string.codeUnits.drop text.length⟩)) := Action.within_ok hparse
    exact (Action.bind_ok _ hwithin).trans rfl
  · right
    refine ⟨copied, e, u, harriving, hle, Action.bind_error _ ?_⟩
    simp [Action.within, hparse]

/-- Zeros behind a text are what its string has there. -/
theorem ofUnits_iff {units : List UInt8} :
    (⟨text.length, text ++ units⟩ : FixedU8string) = .ofUnits held.capacity text ↔
      units = List.replicate (held.capacity - text.length) 0 := by
  simp [ofUnits]

/-- Zeros are what the string without text has. -/
theorem ofUnits_nil_iff {units : List UInt8} :
    (⟨0, units⟩ : FixedU8string) = .ofUnits held.capacity [] ↔ units = List.replicate held.capacity 0 := by
  simp [ofUnits]

theorem sized_next (hpermitted : Permitted event held) (hsized : Sized held) : Sized (next event held) := by
  cases event with
  | decode T input =>
    rcases decoded_cases hpermitted hsized with ⟨text, u, -, htext, hdecoded⟩ | ⟨copied, e, u, -, hle, hdecoded⟩
    · obtain ⟨-, -, -, -, -, hle⟩ := htext
      have hcapacity : text.length ≤ held.capacity := hle.trans (Nat.mod_le _ _)
      have hunits := hsized.1
      simp only [Sized, next, hdecoded, List.length_append, List.length_drop]
      omega
    · have hcapacity : copied.length ≤ held.capacity := hle.trans (Nat.mod_le _ _)
      have hunits := hsized.1
      simp only [Sized, next, hdecoded, List.length_append, List.length_drop]
      omega
  | convert capacity =>
    have hle : held.capacity ≤ capacity := hpermitted
    simp only [Sized, next, convert, List.length_append, List.length_replicate, hsized.1]
    have hnum := hsized.2
    omega

theorem depends_iff (hpermitted : Permitted event held) (hsized : Sized held) :
    DependsOnText event held ↔ Spared event held := by
  cases event with
  | convert capacity => exact Iff.rfl
  | decode T input =>
    rcases decoded_cases hpermitted hsized with
      ⟨text, u, harriving, htext, hdecoded⟩ | ⟨copied, e, u, harriving, -, hdecoded⟩
    · have hview : FixedU8string.view ⟨text.length, text ++ held.string.codeUnits.drop text.length⟩ = text :=
        List.take_left
      rw [Spared, harriving]
      constructor
      · intro hdepends
        obtain ⟨other, hother, -, hequal, -⟩ := hdepends.1 (by rw [hdecoded])
        obtain rfl := htext.unique hother
        rwa [hdecoded, equal_iff, ofUnits_iff] at hequal
      · intro hspared
        have hequal := ofUnits_iff.mpr hspared
        refine ⟨fun _ => ⟨text, htext, ?_, ?_, ?_⟩, fun e herror => ?_⟩
        · rw [hdecoded, hview]
        · rw [hdecoded, equal_iff, hequal]
        · rw [hdecoded, threeWay_eq, hequal]
        · rw [hdecoded] at herror
          cases herror
    · rw [Spared, harriving]
      constructor
      · intro hdepends
        have hequal := hdepends.2 e (by rw [hdecoded])
        rwa [hdecoded, equal_iff, ofUnits_nil_iff] at hequal
      · intro hspared
        refine ⟨fun hok => ?_, fun e' _ => ?_⟩
        · rw [hdecoded] at hok
          cases hok
        · rw [hdecoded, equal_iff, ofUnits_nil_iff]
          exact hspared

/-! ### Clean strings -/

theorem clean_convert {capacity : Nat} (hle : held.capacity ≤ capacity)
    (hclean : Clean held.capacity held.string) :
    Clean capacity (held.string.convert capacity) := by
  obtain ⟨hunits, hlen⟩ := hclean
  have hconvert : held.string.convert capacity = .ofUnits capacity held.string.view := by
    generalize held.string.view = units at *
    rw [hunits, convert, ofUnits, ofUnits, FixedU8string.mk.injEq]
    refine ⟨rfl, ?_⟩
    rw [List.append_assoc, List.length_append, List.length_replicate, List.replicate_append_replicate]
    congr 2
    omega
  rw [hconvert]
  exact clean_ofUnits (hlen.trans hle)

/-- A step that is spared leaves zeros behind the text. -/
theorem clean_next (hpermitted : Permitted event held) (hsized : Sized held)
    (hclean : Clean held.capacity held.string) (hspared : Spared event held) :
    Clean (next event held).capacity (next event held).string := by
  cases event with
  | convert capacity => exact clean_convert hpermitted hclean
  | decode T input =>
    rw [Spared] at hspared
    rcases decoded_cases hpermitted hsized with
      ⟨text, u, harriving, htext, hdecoded⟩ | ⟨copied, e, u, harriving, -, hdecoded⟩
    · rw [harriving] at hspared
      obtain ⟨-, -, -, -, -, hle⟩ := htext
      simp only [next, hdecoded, ofUnits_iff.mpr hspared]
      exact clean_ofUnits (hle.trans (Nat.mod_le _ _))
    · rw [harriving] at hspared
      simp only [next, hdecoded, ofUnits_nil_iff.mpr hspared]
      exact clean_ofUnits (Nat.zero_le _)

theorem Constructed.sized (h : Constructed start) : Sized start := by
  rcases h with ⟨capacity, rfl⟩ | ⟨units, rfl⟩
  · simp [Sized, empty, ofUnits]
  · simp [Sized, literal]

theorem Constructed.clean (h : Constructed start) : Clean start.capacity start.string := by
  rcases h with ⟨capacity, rfl⟩ | ⟨units, rfl⟩
  · exact clean_ofUnits (Nat.zero_le _)
  · have hunits : (literal units).string = .ofUnits units.length units := by simp [literal, ofUnits]
    rw [hunits]
    exact clean_ofUnits (le_refl _)

theorem clean_run (hstart : Constructed start) (hpermitted : EveryStep next Permitted events start)
    (hspared : EveryStep next Spared events start) :
    Clean (runSteps next events start).capacity (runSteps next events start).string := by
  have hrun := (hpermitted.and hspared).reaches (fun held => Sized held ∧ Clean held.capacity held.string)
    ⟨hstart.sized, hstart.clean⟩ fun event held hinv hstep =>
      ⟨sized_next hstep.1 hinv.1, clean_next hstep.1 hinv.1 hinv.2 hstep.2⟩
  exact hrun.2

/-- Through its whole history, whatever inputs it is decoded from, a string depends on the text that was decoded last if
and only if there were zeros behind each of the texts, and then comparing two strings is comparing their texts. -/
theorem decoded_string_is_text (hstart : Constructed start) (hpermitted : EveryStep next Permitted events start) :
    (EveryStep next DependsOnText events start ↔ EveryStep next Spared events start) ∧
    (EveryStep next Spared events start → ∀ start' events', Constructed start' →
      EveryStep next Permitted events' start' → EveryStep next Spared events' start' →
      (runSteps next events start).capacity = (runSteps next events' start').capacity →
      (equal (runSteps next events start).string (runSteps next events' start').string = true ↔
        (runSteps next events start).string.view = (runSteps next events' start').string.view) ∧
      (threeWay (runSteps next events start).string (runSteps next events' start').string = .eq ↔
        (runSteps next events start).string.view = (runSteps next events' start').string.view)) := by
  constructor
  · apply EveryStep.iff_of_invariant Sized hpermitted hstart.sized
    · exact fun event held hsized hstep => depends_iff hstep hsized
    · exact fun event held hsized hstep _ => sized_next hstep hsized
  · intro hspared start' events' hstart' hpermitted' hspared' hcapacity
    have hclean := clean_run hstart hpermitted hspared
    have hclean' := clean_run hstart' hpermitted' hspared'
    rw [← hcapacity] at hclean'
    rw [equal_iff, threeWay_eq]
    exact ⟨hclean.eq_iff hclean', hclean.eq_iff hclean'⟩

/-- An input in memory. -/
def inMemory (bytes : List UInt8) : StringEvent := .decode MemoryInputStream.contract.truthful (memoryInput bytes)

/-- Two characters decoded into a new string, and their literal. -/
theorem decoded_string_is_text_literal :
    EveryStep next DependsOnText [inMemory [0x62, 0x61, 0x62]] (empty 2) ∧
    (equal (runSteps next [inMemory [0x62, 0x61, 0x62]] (empty 2)).string (literal [0x61, 0x62]).string = true ↔
      (runSteps next [inMemory [0x62, 0x61, 0x62]] (empty 2)).string.view =
      (literal [0x61, 0x62]).string.view) := by
  have hpermitted : EveryStep next Permitted [inMemory [0x62, 0x61, 0x62]] (empty 2) :=
    ⟨MemoryInputStream.valid_memory (b := [0x62, 0x61, 0x62]) (by decide), trivial⟩
  have hspared : EveryStep next Spared [inMemory [0x62, 0x61, 0x62]] (empty 2) := ⟨rfl, trivial⟩
  have hwhole := decoded_string_is_text (.inl ⟨2, rfl⟩) hpermitted
  exact ⟨hwhole.1.mpr hspared,
    (hwhole.2 hspared (literal [0x61, 0x62]) [] (.inr ⟨_, rfl⟩) trivial trivial (by decide +kernel)).1⟩

/-- One character decoded where there were two before. -/
theorem decoded_string_keeps_residue : ¬ ∀ start events, Constructed start →
    EveryStep next Permitted events start → EveryStep next DependsOnText events start := by
  intro h
  have hdepends := h (empty 2) [inMemory [0x62, 0x61, 0x62], inMemory [0x61, 0x63]] (.inl ⟨2, rfl⟩)
    ⟨MemoryInputStream.valid_memory (b := [0x62, 0x61, 0x62]) (by decide),
      MemoryInputStream.valid_memory (b := [0x61, 0x63]) (by decide), trivial⟩
  obtain ⟨text, -, hview, hequal, -⟩ := hdepends.2.1.1 (by decide +kernel)
  rw [← hview] at hequal
  revert hequal
  decide +kernel

/-- A source that fails in the middle of a text has let its first character through. -/
example : (decoded (chunkedInput [0x62, 0x61] 3 [.error .bad]) (empty 2)).2.2 = ⟨0, [0x61, 0]⟩ := by
  decide +kernel

end HeldString
end DeepPack
