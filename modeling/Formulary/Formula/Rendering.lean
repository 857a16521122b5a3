import Formulary.Formula.Basic
import Formulary.Numeral.Fixed

/-!
# Infix text of a formula

A formula is written fully parenthesised, `(left op right)` without blanks. Slots are written as
letters, and as `x` and a number from the twenty-seventh on; or every slot is written as the value
put into it. A value that is a whole number is written as one, and any other with three decimal
places.

There is no text if a slot has no value or a code is unknown.
-/

namespace Formulary.Formula

/-- The name of a slot: `a` to `z`, then `x26`, `x27`, … -/
def slotLabel (slot : UInt8) : String :=
  if slot < 26 then String.singleton (Char.ofNat ('a'.toNat + slot.toNat))
  else "x" ++ toString slot.toNat

/-- Decimal places of a value that is not a whole number. -/
def shownPlaces : Nat := 3

/-- The text of a value: whole numbers without a point, others with three places. -/
def valueLabel (value : Float) : String :=
  if value.isFinite && value == Binary.roundHalfAway value then
    toString (Binary.truncate value)
  else Fixed.text shownPlaces value

/-- Run the rest of a postfix program on a stack of texts. -/
def renderFrom (table : OperatorTable) (label : UInt8 → Option String) :
    (shape : List Bool) → (slots codes : List UInt8) → (stack : List String) → Option String
  | [], _, _, stack => stack.head?
  | true :: shape, slot :: slots, codes, stack => do
    let text ← label slot
    renderFrom table label shape slots codes (text :: stack)
  | false :: shape, slots, code :: codes, right :: left :: stack =>
    match table.get code with
    | .error _ => none
    | .ok op =>
      renderFrom table label shape slots codes
        (("(" ++ left ++ String.singleton op.name ++ right ++ ")") :: stack)
  | _, _, _, _ => none

/-- The infix text with slots as letters. -/
def render (f : Formula) (table : OperatorTable) : Option String :=
  renderFrom table (fun slot => some (slotLabel slot)) f.shape f.slots f.codes []

/-- The infix text with the given values in place of the slots. -/
def renderWith (f : Formula) (table : OperatorTable) (values : List Float) : Option String :=
  renderFrom table (fun slot => values[slot.toNat]?.map valueLabel) f.shape f.slots f.codes []

end Formulary.Formula
