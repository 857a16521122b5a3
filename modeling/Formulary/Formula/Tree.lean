import Formulary.Formula.Basic

/-!
# The tree of a formula

A formula in postfix form describes a binary tree whose leaves are slots and whose inner nodes
are operator codes. The tree is the reading of a formula that a person has in mind: its leaves
from left to right are the formula's slots, its nodes in post-order are the formula's codes, and
the postfix walk over it is the formula's shape.
-/

namespace Formulary

/-- A binary tree with slots at its leaves and operator codes at its nodes. -/
inductive Tree where
  | leaf (slot : UInt8)
  | node (code : UInt8) (left right : Tree)
deriving DecidableEq

namespace Tree

/-- The slots at the leaves, from left to right. -/
def slots : Tree → List UInt8
  | leaf slot => [slot]
  | node _ left right => left.slots ++ right.slots

/-- The codes at the nodes, in post-order. -/
def codes : Tree → List UInt8
  | leaf _ => []
  | node code left right => left.codes ++ right.codes ++ [code]

/-- The postfix walk: `true` at a leaf, `false` after both operands of a node. -/
def shape : Tree → List Bool
  | leaf _ => [true]
  | node _ left right => left.shape ++ right.shape ++ [false]

/-- The postfix form of a tree. -/
def toFormula (t : Tree) : Formula :=
  ⟨t.slots, t.codes, t.shape⟩

/-- The leaf of slot zero is the slot alone. -/
@[simp] theorem toFormula_leaf_zero : (leaf 0).toFormula = Formula.operand := rfl

/-- The postfix form of a node is the combination of those of its operands. -/
@[simp] theorem toFormula_node (code : UInt8) (left right : Tree) :
    (node code left right).toFormula = Formula.combine left.toFormula right.toFormula code := rfl

end Tree

end Formulary
