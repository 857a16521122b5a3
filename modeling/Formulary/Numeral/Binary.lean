/-!
# Floating-point numbers as whole numbers times powers of two

A finite 64-bit floating-point number is `± mantissa · 2 ^ exponent` with a mantissa below
`2 ^ 53`. The functions here read sign, mantissa and exponent off the bit pattern, and round on
that representation: to the nearest whole number with halves away from zero, and toward zero.
Working on bits keeps both operations exact and open to proof.
-/

namespace Formulary.Binary

/-- Whether the sign bit is set; it is for `-0.0`. -/
def signBit (x : Float) : Bool :=
  x.toBits >>> 63 != 0

/-- The eleven exponent bits. -/
def exponentField (x : Float) : UInt64 :=
  (x.toBits >>> 52) &&& 0x7ff

/-- The fifty-two fraction bits. -/
def fractionField (x : Float) : UInt64 :=
  x.toBits &&& 0xfffffffffffff

/-- The leading bit of a mantissa: `2 ^ 52`. -/
def leadingBit : Nat := 0x10000000000000

/-- The whole number that is scaled; subnormal numbers have no implicit leading bit. -/
def mantissa (x : Float) : Nat :=
  if exponentField x = 0 then (fractionField x).toNat
  else leadingBit + (fractionField x).toNat

/-- The power of two that scales the mantissa. -/
def exponent (x : Float) : Int :=
  (max 1 (exponentField x).toNat : Int) - 1075

/-- The nearest whole number, halves away from zero; zeros keep their sign, and infinities and
NaN are returned as they are.

Below a half only the sign is left, from a half to one the magnitude is one, and from
`2 ^ 52` on every number is whole. In between, half a unit is added to the magnitude's bits (a
carry moves into the exponent, as it should) and the fraction bits are cleared. -/
def roundHalfAway (x : Float) : Float :=
  let bits := x.toBits
  let field := exponentField x
  if field < 1022 then Float.ofBits (bits &&& 0x8000000000000000)
  else if field = 1022 then Float.ofBits ((bits &&& 0x8000000000000000) ||| 0x3ff0000000000000)
  else if 1075 ≤ field then x
  else
    let places := 1075 - field
    let half := (1 : UInt64) <<< (places - 1)
    Float.ofBits (((bits + half) >>> places) <<< places)

/-- The whole part of the magnitude of a finite number. -/
def wholeMagnitude (x : Float) : Nat :=
  match exponent x with
  | .ofNat e => mantissa x <<< e
  | .negSucc e => mantissa x >>> (e + 1)

/-- The least signed 64-bit number. -/
def leastInt64 : Int := -0x8000000000000000

/-- The greatest signed 64-bit number. -/
def greatestInt64 : Int := 0x7fffffffffffffff

/-- The number cut off toward zero and kept within the signed 64-bit range; NaN becomes zero. -/
def truncate (x : Float) : Int :=
  if x.isNaN then 0
  else if x.isInf then
    if signBit x then leastInt64 else greatestInt64
  else
    let whole : Int := wholeMagnitude x
    max leastInt64 (min greatestInt64 (if signBit x then -whole else whole))

end Formulary.Binary
