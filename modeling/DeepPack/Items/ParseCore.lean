import DeepPack.Streams.InputBuffer
import DeepPack.Items.TypeCode
import DeepPack.Detail.Float

/-! Item heads and the parsers of scalar items.

`doParseItemHead` has two bodies: the speculative one loads eight payload bytes at
once and shifts the argument down, the safe one asks the stream for exactly the
bytes the head needs. Which one runs depends on how much is buffered. -/
namespace DeepPack
open Library InputBuffer

/-- The parsed first bytes of an item. Bit 0 of `flags` says indefinite. -/
structure ItemHead where
  type : TypeCode
  flags : UInt8
  encodedLength : Nat
  value : Nat
  deriving DecidableEq, Repr

namespace ItemHead

def flagIndefinite : UInt8 := 1

def indefinite (h : ItemHead) : Bool := h.flags &&& flagIndefinite != 0

def makeIndefinite (h : ItemHead) : ItemHead := {h with flags := h.flags ||| flagIndefinite}

def isSpecialBreak (h : ItemHead) : Bool := h.type == .special && h.indefinite

@[simp] theorem indefinite_zero (type : TypeCode) (len v : Nat) :
    (⟨type, 0, len, v⟩ : ItemHead).indefinite = false :=
  (by decide : ((0 : UInt8) &&& 1 != 0) = false)

@[simp] theorem indefinite_one (type : TypeCode) (len v : Nat) :
    (⟨type, 1, len, v⟩ : ItemHead).indefinite = true :=
  (by decide : ((1 : UInt8) &&& 1 != 0) = true)

end ItemHead

namespace Detail

def itemTypeMask : UInt8 := 0b11100000

def itemInlineInfoMask : UInt8 := 0b00011111

def itemVarIntCodingThreshold : Nat := 27

/-- The head as far as the first byte says. -/
def headOfIndicator (indicator : UInt8) : ItemHead where
  type := .ofMajor ((indicator &&& itemTypeMask) >>> 5).toNat
  flags := 0
  encodedLength := 1
  value := (indicator &&& itemInlineInfoMask).toNat

/-- Simple values below 32 must not take a byte of their own. -/
def invalidExtended (info : ItemHead) (sizeBytesPower : Nat) : Bool :=
  info.type == .special && sizeBytesPower == 0 && info.value < 0x20

/-- Which types have a meaning with additional information 31. -/
def mayBeIndefinite (type : TypeCode) : Bool :=
  type.toByte &&& 0b11000000 != 0 && type != .tag

variable {σ : Type} [InputStream σ]

/-- The `2 ^ sizeBytesPower` bytes of the argument behind the first byte: loaded
speculatively, eight bytes at once, or safely, as many as there are. -/
def loadArgument (speculative : Bool) (sizeBytesPower : Nat) : Input σ Nat :=
  if speculative then do
    let encodedValue := ofBytes (← dataSpan 1 8)
    -- 8 bytes shift by 0, 4 by 32, 2 by 48 and 1 by 56
    let varLenShift := (0b00111000 <<< sizeBytesPower) &&& 63
    pure (encodedValue >>> varLenShift)
  else do
    requireInput (1 + 1 <<< sizeBytesPower)
    let payload ← dataSpan 1 (1 <<< sizeBytesPower)
    pure (ofBytes payload)

/-- The head whose first byte says `info`. -/
def completeHead (speculative : Bool) (info : ItemHead) : Input σ ItemHead :=
  if info.value ≤ inlineValueMax then pure info
  else if info.value ≤ itemVarIntCodingThreshold then do
    let sizeBytesPower := info.value - (inlineValueMax + 1)
    let value ← loadArgument speculative sizeBytesPower
    let info := {info with encodedLength := 1 + 1 <<< sizeBytesPower, value}
    if invalidExtended info sizeBytesPower then err .invalidAdditionalInformation
    else pure info
  else if info.value = indefiniteAddInfo ∧ mayBeIndefinite info.type then pure info.makeIndefinite
  else err .invalidAdditionalInformation

def doParseItemHead (speculative discard : Bool) : Input σ ItemHead := do
  let info ← completeHead speculative (headOfIndicator (← dataAt 0))
  if discard then discardBuffered info.encodedLength
  pure info

def parseItemHead (discard : Bool) : Input σ ItemHead := do
  if (← empty) then requireInput 1
  if varUintMaxSize ≤ (← size) then doParseItemHead true discard
  else doParseItemHead false discard

end Detail

variable {σ : Type} [InputStream σ]

def parseItemHead : Input σ ItemHead := Detail.parseItemHead true

def peekItemHead : Input σ ItemHead := Detail.parseItemHead false

def expectItemHead (type : TypeCode) (value : Nat) : Input σ Unit := do
  let head ← parseItemHead
  if head.type ≠ type then err .itemTypeMismatch
  else if head.indefinite then
    if type = .special then
      if value = 0x1f then pure () else err .itemTypeMismatch
    else err .indefiniteItem
  else if head.value ≠ value then err .itemValueOutOfRange
  else pure ()

/-- A parser with a destination of type `δ`. -/
abbrev Parse (σ δ α : Type) : Type := Action Fault (InputBuffer σ × δ) α

/-- Assigns the destination. -/
def assign {δ : Type} (v : δ) : Parse σ δ Unit := Action.onSnd (Action.modify fun _ => v)

/-- Fixed-width integer types. -/
structure IntType where
  width : Nat
  signed : Bool
  deriving DecidableEq, Repr

/-- `numeric_limits<T>::max()`. -/
def IntType.maxValue (t : IntType) : Nat := 2 ^ (if t.signed then t.width - 1 else t.width) - 1

/-- `parse_integer` for signed types. -/
def parseSignedInteger (t : IntType) : Parse σ (BitVec t.width) Unit := do
  let head ← Action.onFst parseItemHead
  if head.type ≠ .posint ∧ head.type ≠ .negint then err .itemTypeMismatch
  -- one check for both signs: the additional information of the smallest
  -- representable number is that of the largest
  else if t.maxValue < head.value then err .itemValueOutOfRange
  else
    let signBit := BitVec.ofNat 64 head.type.toByte.toNat <<< 58
    let xorpad := signBit.sshiftRight 63
    assign ((BitVec.ofNat 64 head.value ^^^ xorpad).setWidth t.width)

/-- `parse_integer` for unsigned types. -/
def parseUnsignedInteger (t : IntType) (limit : Nat) : Parse σ (BitVec t.width) Unit := do
  let head ← Action.onFst parseItemHead
  if head.type ≠ .posint then err .itemTypeMismatch
  else if limit < head.value then err .itemValueOutOfRange
  else assign (BitVec.ofNat t.width head.value)

/-- `parse_integer` with the default limit. -/
def parseInteger (t : IntType) : Parse σ (BitVec t.width) Unit :=
  if t.signed then parseSignedInteger t else parseUnsignedInteger t t.maxValue

def parseBoolean : Parse σ Bool Unit := do
  if (← Action.onFst empty) then Action.onFst (requireInput 1)
  let value := (← Action.onFst (dataAt 0)).toNat
  -- the subtraction wraps for first bytes below that of `false`
  let rolled := wrapSub 32 value TypeCode.boolFalse.toByte.toNat
  if 1 < rolled then err .itemTypeMismatch
  else do
    assign (rolled == 1)
    Action.onFst (discardBuffered 1)

/-- The two floating point types, by their width. -/
inductive FloatType where
  | single
  | double
  deriving DecidableEq, Repr

def FloatType.width : FloatType → Nat
  | .single => 32
  | .double => 64

def parseFloatingPoint (t : FloatType) : Parse σ (BitVec t.width) Unit := do
  let head ← Action.onFst parseItemHead
  if head.type ≠ .special ∨ head.encodedLength < 3 then err .itemTypeMismatch
  else if head.encodedLength = 9 then
    if t = .double then assign (BitVec.ofNat t.width head.value) else err .itemValueOutOfRange
  else if head.encodedLength = 5 then
    assign (BitVec.ofNat t.width (if t = .double then Detail.widen head.value else head.value))
  else
    let value := Detail.loadIec559Half head.value
    assign (BitVec.ofNat t.width (if t = .double then value else Detail.narrow value))

end DeepPack
