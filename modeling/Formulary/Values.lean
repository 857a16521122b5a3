import Formulary.Numeral.Shortest

/-!
# Input values

A search is given one finite number per slot. This module says what is wrong with a list of
numbers that does not meet that.
-/

namespace Formulary

/-- What can be wrong with a list of input values, or with a request for subsets of slots. -/
inductive InputError where
  | wrongValueCount (expected actual : Nat)
  | nonFiniteValue (position : Nat) (value : Float)
  | invalidCombination (total size : Nat)

/-- The text shown for an input error. -/
def InputError.message : InputError → String
  | .wrongValueCount expected actual => s!"Expected {expected} values, got {actual}"
  | .nonFiniteValue position value =>
    s!"Value at position {position} is not finite: {Shortest.text value}"
  | .invalidCombination total size => s!"Cannot choose {size} of {total} slots"

/-- Refuse a list that does not hold exactly `expected` finite numbers; the count comes first,
then the first number that is not finite. -/
def validateValues (values : List Float) (expected : Nat) : Except InputError Unit :=
  if values.length ≠ expected then .error (.wrongValueCount expected values.length)
  else
    match values.zipIdx.find? (fun (value, _) => !value.isFinite) with
    | some (value, position) => .error (.nonFiniteValue position value)
    | none => .ok ()

end Formulary
