import Mathlib.Algebra.Order.Ring.Nat

/-! Binary floating point numbers as their bit patterns.

A `float` is its 32 bits, a `double` its 64. What the decoders need of the
language's arithmetic is three conversions: the half precision loader (`ldexp` of
a small integer, which is exact), the widening of a `float`, and the narrowing of
the `double` that the half precision loader returned, which is exact as well. -/
namespace DeepPack.Detail

/-- The pattern of `significand * 2 ^ scale` as a `double`, for a positive integer
of at most 53 bits and a result in the normal range. -/
def ldexp (significand : Nat) (scale : Int) : Nat :=
  let top := Nat.log2 significand
  (1023 + top + scale).toNat <<< 52 + (significand - 2 ^ top) <<< (52 - top)

def infinity : Nat := 0x7ff0000000000000

def quietNaN : Nat := 0x7ff8000000000000

/-- `load_iec559_half`: the `double` a half precision pattern stands for. -/
def loadIec559Half (bits : Nat) : Nat :=
  let significand := bits % 0x400
  let exponent := bits / 0x400 % 0x20
  let value :=
    if exponent = 0 then
      if significand = 0 then 0 else ldexp significand (-24)
    else if exponent ≠ 0x1f then ldexp (significand + 0x400) (exponent - 25)
    else if significand = 0 then infinity
    else quietNaN
  if bits / 0x8000 % 2 = 0 then value else value + 2 ^ 63

/-- `static_cast<double>` of a `float`. -/
def widen (bits : Nat) : Nat :=
  let significand := bits % 2 ^ 23
  let exponent := bits / 2 ^ 23 % 256
  let value :=
    if exponent = 0 then
      if significand = 0 then 0 else ldexp significand (-149)
    else if exponent ≠ 255 then (exponent + 896) <<< 52 + significand <<< 29
    else if significand = 0 then infinity
    else quietNaN ||| (significand <<< 29)
  if bits / 2 ^ 31 % 2 = 0 then value else value + 2 ^ 63

/-- `static_cast<float>` of a `double` that a `float` represents exactly. -/
def narrow (bits : Nat) : Nat :=
  let significand := bits % 2 ^ 52
  let exponent := bits / 2 ^ 52 % 2048
  let value :=
    if exponent = 0 then 0
    else if exponent ≠ 2047 then (exponent - 896) <<< 23 + significand >>> 29
    else 255 <<< 23 + significand >>> 29
  if bits / 2 ^ 63 % 2 = 0 then value else value + 2 ^ 31

-- 1.5, -2 and the smallest subnormal number, from half precision.
example : [0x3e00, 0xc000, 0x0001].map loadIec559Half =
    [0x3ff8000000000000, 0xc000000000000000, 0x3e70000000000000] := by decide

end DeepPack.Detail
