import Std.Data.HashSet
import Formulary.Formula.Evaluation

/-!
# Fingerprints

A fingerprint is one assignment of values to slots together with the rounded values that formulas
have produced under it so far. A formula is new to a fingerprint if its rounded value is a number
that no earlier formula produced. NaN is never new and never recorded.
-/

namespace Formulary

/-- One assignment of values to slots and the keys of the values produced under it. -/
structure Fingerprint where
  values : List Float
  seen : Std.HashSet UInt64

namespace Fingerprint

/-- A fingerprint that has seen nothing. -/
def ofValues (values : List Float) : Fingerprint :=
  ⟨values, ∅⟩

/-- What tells two values apart: their bits, except that both zeros count as one value. -/
def key (value : Float) : UInt64 :=
  if value == 0.0 then 0 else value.toBits

/-- The number of different values recorded. -/
def size (fingerprint : Fingerprint) : Nat :=
  fingerprint.seen.size

/-- The key of a formula's rounded value, if it has a value. -/
def keyOf (values : List Float) (table : OperatorTable) (digits : Nat) (f : Formula) :
    Except FormulaError (Option UInt64) := do
  let value ← f.evaluate table values digits
  return if value.isNaN then none else some (key value)

/-- Evaluate a formula and record its value; the answer is whether the value was new. -/
def observe (fingerprint : Fingerprint) (table : OperatorTable) (digits : Nat) (f : Formula) :
    Except FormulaError Bool × Fingerprint :=
  match keyOf fingerprint.values table digits f with
  | .error error => (.error error, fingerprint)
  | .ok none => (.ok false, fingerprint)
  | .ok (some key) =>
    let (known, seen) := fingerprint.seen.containsThenInsert key
    (.ok !known, { fingerprint with seen := seen })

end Fingerprint

end Formulary
