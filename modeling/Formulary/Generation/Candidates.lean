import Formulary.Formula.Basic

/-!
# Candidates

The candidates for a set of formulas are the combinations of a formula over one part of the slots
with a formula over the other part, under every operator. If the order of the operands matters to
an operator, both orders are candidates, one right after the other.
-/

namespace Formulary

/-- The combinations of two formulas under one operator. -/
def combinationsUnder (left right : Formula) (code : UInt8) (op : Operator) : List Formula :=
  if op.commutative then [Formula.combine left right code]
  else [Formula.combine left right code, Formula.combine right left code]

/-- The combinations of two formulas under every operator of a table. -/
def combinationsOf (table : OperatorTable) (left right : Formula) : List Formula :=
  table.entries.flatMap fun (code, op) => combinationsUnder left right code op

/-- The combinations of every formula of one list with every formula of another. -/
def products (table : OperatorTable) (lefts rights : List Formula) : List Formula :=
  lefts.flatMap fun left => rights.flatMap fun right => combinationsOf table left right

/-- Put formulas on the slots of a list, slot `s` on the list's entry `s`. -/
def transplant (formulas : List Formula) (slots : List UInt8) :
    Except FormulaError (List Formula) :=
  formulas.mapM fun f => f.relabel slots

end Formulary
