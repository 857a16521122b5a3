import Formulary.Numeral.Binary

/-!
# Rounding to decimal places

A value is rounded to `digits` decimal places by scaling with `10 ^ digits`, rounding to the
nearest whole number and scaling back, every step in floating-point arithmetic. The power of ten
is itself computed in floating-point arithmetic by repeated squaring, which fixes its last bits
for large exponents. From about three hundred places on the scale is infinite, and the result of
dividing infinity by infinity is NaN: at such a setting no value survives rounding.
-/

namespace Formulary.Places

/-- `acc · base ^ exponent` by repeated squaring, least significant binary digit first.

The first argument bounds the number of binary digits of the exponent. -/
def squarings : Nat → Float → Float → Nat → Float
  | 0, acc, _, _ => acc
  | bits + 1, acc, base, exponent =>
    let acc := if exponent % 2 = 1 then acc * base else acc
    if exponent / 2 = 0 then acc else squarings bits acc (base * base) (exponent / 2)

/-- The largest exponent that is told apart from larger ones. -/
def maxExponent : Nat := 0x7fffffff

/-- Ten to the given power, at most to the power `maxExponent`. -/
def powerOfTen (digits : Nat) : Float :=
  squarings 31 1.0 10.0 (min digits maxExponent)

/-- The value rounded to `digits` decimal places, halves away from zero. -/
def round (value : Float) (digits : Nat) : Float :=
  let scale := powerOfTen digits
  Binary.roundHalfAway (value * scale) / scale

end Formulary.Places
