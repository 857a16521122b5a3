import Formulary.Formula.Basic
import Formulary.Numeral.Places

/-!
# Evaluating a formula

The postfix program runs on a stack of numbers. A slot pushes its value; an operator pops the
right and then the left operand and pushes its result. The run stops at its first event: a slot
without a value, an unknown code, a malformed program, or an operator that yields NaN. The last
one is no error: such a formula has no value for these inputs, and the answer is NaN whatever
would have followed.
-/

namespace Formulary.Formula

/-- Run the rest of a postfix program.

`position` counts the entries already read; the lists are the slots and codes not used yet, and
the stack's top comes first. -/
def run (table : OperatorTable) (values : List Float) (position : Nat) :
    (shape : List Bool) → (slots codes : List UInt8) → (stack : List Float) →
      Except FormulaError Float
  | [], _, _, [value] => .ok value
  | [], _, _, _ => .error (.malformedShape position)
  | true :: _, [], _, _ => .error (.malformedShape position)
  | true :: shape, slot :: slots, codes, stack =>
    match values[slot.toNat]? with
    | none => .error (.missingValue slot values.length)
    | some value => run table values (position + 1) shape slots codes (value :: stack)
  | false :: shape, slots, codes, right :: left :: stack =>
    match codes with
    | [] => .error (.malformedShape position)
    | code :: codes =>
      match table.get code with
      | .error error => .error (.operator error)
      | .ok op =>
        let result := op.apply left right
        if result.isNaN then .ok result
        else run table values (position + 1) shape slots codes (result :: stack)
  | false :: _, _, _, _ => .error (.stackUnderflow position)

/-- The value of a formula with `values[s]` in slot `s`, as computed. -/
def evaluateRaw (f : Formula) (table : OperatorTable) (values : List Float) :
    Except FormulaError Float :=
  run table values 0 f.shape f.slots f.codes []

/-- The value of a formula rounded to `digits` decimal places; NaN stays NaN. -/
def evaluate (f : Formula) (table : OperatorTable) (values : List Float) (digits : Nat) :
    Except FormulaError Float := do
  let raw ← f.evaluateRaw table values
  return if raw.isNaN then raw else Places.round raw digits

end Formulary.Formula
