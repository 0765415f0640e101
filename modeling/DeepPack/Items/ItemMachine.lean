import DeepPack.Items.WellFormed

/-! The pushdown machine that walks over one item.

Skipping and copying are one machine on the unread bytes: a stack of heads whose
content is still to come, the innermost on top. They differ in how they take the
content of a string, which is the machine's `Reader`. `Reads` is what the machine
is for: the grammar, as a relation between the bytes before and after a part.
`Meets` says that a string with some property lies on the way, such as one whose
content the reader never comes back from. -/
namespace DeepPack.ItemMachine

/-- How the content of a string is taken off the unread bytes. -/
abbrev Reader : Type := ItemHead → List UInt8 → Except Fault (List UInt8)

/-- The next head, and what is unread behind it. -/
def subItem (b : List UInt8) : Except Fault (ItemHead × List UInt8) :=
  match headOf b with
  | .ok h => .ok (h, b.drop h.encodedLength)
  | .error e => .error (.errc e)

/-- One round of the loop. -/
def round (reader : Reader) : List ItemHead → List UInt8 → Except Fault (List ItemHead × List UInt8)
  | [], _ => .error .outOfBounds
  | item :: stack, b =>
    match item.type.major with
    | 0 | 1 => .ok (stack, b)
    | 2 | 3 => do
      let u ← reader item b
      .ok (stack, u)
    | 4 =>
      if item.value = 0 then .ok (stack, b)
      else do
        let (sub, u) ← subItem b
        if !item.indefinite || !sub.isSpecialBreak then
          .ok (sub :: {item with value := item.value - (!item.indefinite).toNat} :: stack, u)
        else .ok (stack, u)
    | 5 =>
      if item.value = 0 then .ok (stack, b)
      else do
        let decr := (item.flags >>> 1).toNat
        let (sub, u) ← subItem b
        if !item.indefinite || !sub.isSpecialBreak then
          .ok (sub :: {item with
            flags := item.flags ^^^ 2
            value := item.value - (decr &&& (!item.indefinite).toNat)} :: stack, u)
        else if decr ≠ 0 then .error (.errc .itemTypeMismatch)
        else .ok (stack, u)
    | 6 => do
      let (sub, u) ← subItem b
      .ok (sub :: stack, u)
    | _ => if item.indefinite then .error (.errc .itemTypeMismatch) else .ok (stack, b)

/-- The loop, for so many rounds. The reader gets what is left of them for a loop of its own. -/
def run (reader : Nat → Reader) : Nat → List ItemHead → List UInt8 → Except Fault (List UInt8)
  | 0, _, _ => .error .running
  | n + 1, stack, b => do
    let (stack, u) ← round (reader n) stack b
    if stack.isEmpty then .ok u else run reader n stack u

/-! ### What the machine reads -/

/-- What is still to come for an entry of the stack that is not a string. -/
inductive Goal where
  | item
  | items (n : Nat)
  | elements
  | entries
  /-- The value of an entry, and the entries behind it. -/
  | value

/-- The second bit of a map's flags: its next item is a value. -/
def expectsValue (h : ItemHead) : Prop := h.flags >>> 1 ≠ 0

instance (h : ItemHead) : Decidable (expectsValue h) := by
  unfold expectsValue
  infer_instance

def goalOf (h : ItemHead) : Goal :=
  if h.type.major = 4 then
    if h.indefinite then .elements else .items h.value
  else if h.type.major = 5 then
    if h.indefinite then if expectsValue h then .value else .entries
    else .items (2 * h.value - if expectsValue h then 1 else 0)
  else .item

/-- Which bytes are left behind the content of a string. -/
abbrev StringRule : Type := ItemHead → List UInt8 → List UInt8 → Prop

/-- A scalar item is its head. -/
def IsScalar (h : ItemHead) : Prop := h.type.major < 2 ∨ (h.type.major = 7 ∧ h.indefinite = false)

/-- The goal is met by the bytes before `rest`. -/
inductive Reads (S : StringRule) : Goal → List UInt8 → List UInt8 → Prop where
  | scalar {b : List UInt8} {h : ItemHead} : headOf b = .ok h → IsScalar h →
      Reads S .item b (b.drop h.encodedLength)
  | string {b rest : List UInt8} {h : ItemHead} : headOf b = .ok h → h.type.major = 2 ∨ h.type.major = 3 →
      S h (b.drop h.encodedLength) rest → Reads S .item b rest
  | container {b rest : List UInt8} {h : ItemHead} : headOf b = .ok h →
      4 ≤ h.type.major → h.type.major ≤ 6 →
      Reads S (goalOf h) (b.drop h.encodedLength) rest → Reads S .item b rest
  | none {b : List UInt8} : Reads S (.items 0) b b
  | more {n : Nat} {b u rest : List UInt8} : Reads S .item b u → Reads S (.items n) u rest →
      Reads S (.items (n + 1)) b rest
  | lastElement {rest : List UInt8} : Reads S .elements (breakByte :: rest) rest
  | element {b u rest : List UInt8} : Reads S .item b u → Reads S .elements u rest →
      Reads S .elements b rest
  | lastEntry {rest : List UInt8} : Reads S .entries (breakByte :: rest) rest
  | key {b u rest : List UInt8} : Reads S .item b u → Reads S .value u rest → Reads S .entries b rest
  | value {b u rest : List UInt8} : Reads S .item b u → Reads S .entries u rest → Reads S .value b rest

/-- On the way to the goal lies a string whose content satisfies `L`. -/
inductive Meets (S : StringRule) (L : ItemHead → List UInt8 → Prop) : Goal → List UInt8 → Prop where
  | string {b : List UInt8} {h : ItemHead} : headOf b = .ok h → h.type.major = 2 ∨ h.type.major = 3 →
      L h (b.drop h.encodedLength) → Meets S L .item b
  | container {b : List UInt8} {h : ItemHead} : headOf b = .ok h → 4 ≤ h.type.major → h.type.major ≤ 6 →
      Meets S L (goalOf h) (b.drop h.encodedLength) → Meets S L .item b
  | first {n : Nat} {b : List UInt8} : Meets S L .item b → Meets S L (.items (n + 1)) b
  | more {n : Nat} {b u : List UInt8} : Reads S .item b u → Meets S L (.items n) u →
      Meets S L (.items (n + 1)) b
  | firstElement {b : List UInt8} : Meets S L .item b → Meets S L .elements b
  | element {b u : List UInt8} : Reads S .item b u → Meets S L .elements u → Meets S L .elements b
  | firstKey {b : List UInt8} : Meets S L .item b → Meets S L .entries b
  | key {b u : List UInt8} : Reads S .item b u → Meets S L .value u → Meets S L .entries b
  | firstValue {b : List UInt8} : Meets S L .item b → Meets S L .value b
  | value {b u : List UInt8} : Reads S .item b u → Meets S L .entries u → Meets S L .value b

/-- The content of a stack entry. -/
def Content (S : StringRule) (h : ItemHead) (b rest : List UInt8) : Prop :=
  if h.type.major = 2 ∨ h.type.major = 3 then S h b rest
  else if 4 ≤ h.type.major ∧ h.type.major ≤ 6 then Reads S (goalOf h) b rest
  else IsScalar h ∧ rest = b

def ContentMeets (S : StringRule) (L : ItemHead → List UInt8 → Prop) (h : ItemHead) (b : List UInt8) :
    Prop :=
  if h.type.major = 2 ∨ h.type.major = 3 then L h b
  else if 4 ≤ h.type.major ∧ h.type.major ≤ 6 then Meets S L (goalOf h) b
  else False

/-- All that is still to come for a stack. -/
def Stacked (S : StringRule) : List ItemHead → List UInt8 → List UInt8 → Prop
  | [], b, rest => rest = b
  | h :: stack, b, rest => ∃ u, Content S h b u ∧ Stacked S stack u rest

def StackMeets (S : StringRule) (L : ItemHead → List UInt8 → Prop) : List ItemHead → List UInt8 → Prop
  | [], _ => False
  | h :: stack, b => ContentMeets S L h b ∨ ∃ u, Content S h b u ∧ StackMeets S L stack u

end DeepPack.ItemMachine
