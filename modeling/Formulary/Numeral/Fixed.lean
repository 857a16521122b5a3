import Formulary.Numeral.Binary

/-!
# Decimal text with a fixed number of places

The exact value of a floating-point number is a fraction whose denominator is a power of two.
Written with a fixed number of decimal places it is rounded once, on that exact value, and a
half goes to the even neighbour. A negative number keeps its sign even if every digit is zero.
-/

namespace Formulary.Fixed

/-- The quotient rounded to the nearest whole number, halves to the even neighbour. -/
def roundDiv (num den : Nat) : Nat :=
  let quotient := num / den
  let twice := 2 * (num % den)
  if twice < den then quotient
  else if den < twice then quotient + 1
  else quotient + quotient % 2

/-- Ten to the power `places`. -/
def tenTo (places : Nat) : Nat :=
  Nat.pow 10 places

/-- The magnitude of a finite number times `10 ^ places`, rounded to a whole number. -/
def scaledMagnitude (places : Nat) (x : Float) : Nat :=
  match Binary.exponent x with
  | .ofNat e => (Binary.mantissa x <<< e) * tenTo places
  | .negSucc e => roundDiv (Binary.mantissa x * tenTo places) (1 <<< (e + 1))

/-- Decimal digits padded on the left with zeros to at least `width`. -/
def padded (width n : Nat) : String :=
  let digits := toString n
  "".pushn '0' (width - digits.length) ++ digits

/-- A number that is not finite has a name instead of digits. -/
def special? (x : Float) : Option String :=
  if x.isNaN then some "NaN"
  else if x.isInf then some (if Binary.signBit x then "-inf" else "inf")
  else none

/-- Decimal text with exactly `places` digits after the point. -/
def text (places : Nat) (x : Float) : String :=
  match special? x with
  | some name => name
  | none =>
    let scaled := scaledMagnitude places x
    let sign := if Binary.signBit x then "-" else ""
    let whole := toString (scaled / tenTo places)
    if places = 0 then sign ++ whole
    else sign ++ whole ++ "." ++ padded places (scaled % tenTo places)

end Formulary.Fixed
