import Mathlib.Data.UInt
import Mathlib.Tactic.IntervalCases

/-! Type codes: the eight major types in the top three bits of an item's first
byte, and the first bytes with a meaning of their own. -/
namespace DeepPack

inductive TypeCode where
  | posint
  | negint
  | binary
  | text
  | array
  | map
  | tag
  | special
  | boolFalse
  | boolTrue
  | null
  | undefined
  | specialExtended
  | floatHalf
  | floatSingle
  | floatDouble
  | specialBreak
  deriving DecidableEq, Repr

namespace TypeCode

def toByte : TypeCode → UInt8
  | posint => 0x00
  | negint => 0x20
  | binary => 0x40
  | text => 0x60
  | array => 0x80
  | map => 0xa0
  | tag => 0xc0
  | special => 0xe0
  | boolFalse => 0xf4
  | boolTrue => 0xf5
  | null => 0xf6
  | undefined => 0xf7
  | specialExtended => 0xf8
  | floatHalf => 0xf9
  | floatSingle => 0xfa
  | floatDouble => 0xfb
  | specialBreak => 0xff

/-- The major type number `m`, as a type code. -/
def ofMajor : Nat → TypeCode
  | 0 => posint
  | 1 => negint
  | 2 => binary
  | 3 => text
  | 4 => array
  | 5 => map
  | 6 => tag
  | _ => special

/-- The number of a code's major type: its top three bits. -/
def major (t : TypeCode) : Nat := (t.toByte >>> 5).toNat

theorem major_ofMajor {m : Nat} (h : m < 8) : (ofMajor m).major = m := by
  interval_cases m <;> rfl

theorem ofMajor_inj {m n : Nat} (hm : m < 8) (hn : n < 8) : ofMajor m = ofMajor n ↔ m = n := by
  constructor
  · intro h
    rw [← major_ofMajor hm, h, major_ofMajor hn]
  · intro heq
    subst heq
    rfl

end TypeCode

/-- The longest head. -/
def varUintMaxSize : Nat := 9

/-- The largest argument coded in the first byte itself. -/
def inlineValueMax : Nat := 23

/-- The additional information of an item of indefinite length. -/
def indefiniteAddInfo : Nat := 31

end DeepPack
