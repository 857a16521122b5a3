import Formulary.Numeral.Fixed

/-!
# Shortest decimal text that reads back

The shortest decimal text of a floating-point number has the fewest digits among the decimals
that round to the number, and among those the nearest one; a tie goes to the larger magnitude.
The decimals that round to `mantissa · 2 ^ exponent` form an interval around it: half a unit on
either side, or a quarter below a power of two, where the numbers underneath lie twice as dense.
The ends belong to the interval exactly if the mantissa is even.

All numbers are scaled to a common whole-number unit, so that the search compares whole numbers
only. It tries ever finer decimal grids and takes, on the first grid with a point in the
interval, the nearer of the number's two neighbours. The text is always positional, without an
exponent.
-/

namespace Formulary.Shortest

/-- A positive number and its rounding interval, all in the unit `1 / scale`. -/
structure Interval where
  low : Nat
  value : Nat
  high : Nat
  scale : Nat
  closed : Bool

/-- The rounding interval of a finite nonzero number, in units of at most a quarter of its
spacing. -/
def Interval.of (x : Float) : Interval :=
  let m := Binary.mantissa x
  let below := if m = Binary.leadingBit ∧ 1 < Binary.exponentField x then 1 else 2
  match Binary.exponent x with
  | .ofNat e =>
    let unit := 1 <<< e
    ⟨(4 * m - below) * unit, 4 * m * unit, (4 * m + 2) * unit, 4, m % 2 == 0⟩
  | .negSucc e =>
    ⟨4 * m - below, 4 * m, 4 * m + 2, 4 <<< (e + 1), m % 2 == 0⟩

/-- Whether a number in the interval's unit rounds to the interval's value. -/
def Interval.contains (i : Interval) (n : Nat) : Bool :=
  if i.closed then i.low ≤ n && n ≤ i.high else i.low < n && n < i.high

/-- A decimal number `digits · 10 ^ power`. -/
structure Decimal where
  digits : Nat
  power : Int

/-- The point of the grid of multiples of `10 ^ power` that is nearest to the value and lies in
the interval; of two that are equally near, the larger.

The interval is stretched so that the grid's spacing is a whole number of units. -/
def Interval.onGrid? (i : Interval) (power : Int) : Option Decimal :=
  let (stretch, spacing) : Nat × Nat :=
    match power with
    | .ofNat p => (1, i.scale * Fixed.tenTo p)
    | .negSucc p => (Fixed.tenTo (p + 1), i.scale)
  let stretched : Interval :=
    ⟨i.low * stretch, i.value * stretch, i.high * stretch, i.scale * stretch, i.closed⟩
  let lower := stretched.value / spacing
  let fromLower := stretched.value - lower * spacing
  let lowerIn := 0 < lower && stretched.contains (lower * spacing)
  let upperIn := stretched.contains ((lower + 1) * spacing)
  if lowerIn && (!upperIn || 2 * fromLower < spacing) then some ⟨lower, power⟩
  else if upperIn then some ⟨lower + 1, power⟩
  else none

/-- The first hit on the grids of `10 ^ power`, `10 ^ (power - 1)`, and so on. -/
def Interval.search (i : Interval) (power : Int) : Nat → Option Decimal
  | 0 => none
  | grids + 1 =>
    match i.onGrid? power with
    | some d => some d
    | none => i.search (power - 1) grids

/-- The power of ten of the coarsest grid worth trying: ten to the number of whole digits. -/
def Interval.topPower (i : Interval) : Int :=
  let whole := i.value / i.scale
  if whole = 0 then 0 else (toString whole).length

/-- Positional text of a decimal. -/
def Decimal.text (d : Decimal) : String :=
  match d.power with
  | .ofNat p => toString d.digits ++ (if d.digits = 0 then "" else "".pushn '0' p)
  | .negSucc p =>
    let places := p + 1
    let unit := Fixed.tenTo places
    toString (d.digits / unit) ++ "." ++ Fixed.padded places (d.digits % unit)

/-- The shortest positional decimal text that reads back as the number.

No finite number needs a grid finer than `10 ^ (-350)`, so the search ends with a hit. -/
def text (x : Float) : String :=
  match Fixed.special? x with
  | some name => name
  | none =>
    let sign := if Binary.signBit x then "-" else ""
    if Binary.mantissa x = 0 then sign ++ "0"
    else
      let i := Interval.of x
      match i.search i.topPower 700 with
      | some d => sign ++ d.text
      | none => sign ++ "0"

end Formulary.Shortest
