import Formulary.BitLength

/-!
# Operators and operator tables

An operator is a named binary function on floating-point numbers together with a flag that says
whether its operands may be exchanged. A table is a list of at least one and at most sixteen
operators; an operator's position in the table is its code, so four bits always hold a code.

The flag is a declaration of the table's author: nothing here checks that the function of a
commutative operator is symmetric.
-/

namespace Formulary

/-- A binary operator on floating-point numbers. -/
structure Operator where
  name : Char
  commutative : Bool
  apply : Float → Float → Float

/-- What can be wrong with a table or with a code. -/
inductive OperatorError where
  | emptyTable
  | tooManyOperators (count : Nat)
  | unknownCode (code : UInt8)
deriving DecidableEq

/-- The most operators one table may hold: a code takes at most four bits. -/
def maxOperators : Nat := 16

/-- The text shown for an operator error. -/
def OperatorError.message : OperatorError → String
  | .emptyTable => "Operator table cannot be empty"
  | .tooManyOperators count =>
    s!"Operator table holds {count} operators, at most {maxOperators} are supported"
  | .unknownCode code => s!"Unknown operator code {code.toNat}"

namespace Operator

/-- Orders in which two given operands are worth combining: one if they may be exchanged. -/
def orderings (op : Operator) : Nat :=
  if op.commutative then 1 else 2

end Operator

/-- An ordered list of operators; the code of an operator is its position. -/
structure OperatorTable where
  operators : List Operator
  length_pos : 0 < operators.length
  length_le : operators.length ≤ maxOperators

namespace OperatorTable

/-- Make a table of the given operators, refusing none and more than sixteen. -/
def ofList (operators : List Operator) : Except OperatorError OperatorTable :=
  if hpos : 0 < operators.length then
    if hle : operators.length ≤ maxOperators then
      .ok ⟨operators, hpos, hle⟩
    else
      .error (.tooManyOperators operators.length)
  else
    .error .emptyTable

/-- The number of operators. -/
def size (table : OperatorTable) : Nat :=
  table.operators.length

/-- The operator with the given code. -/
def get (table : OperatorTable) (code : UInt8) : Except OperatorError Operator :=
  match table.operators[code.toNat]? with
  | some op => .ok op
  | none => .error (.unknownCode code)

/-- Every operator with its code, in code order. -/
def entries (table : OperatorTable) : List (UInt8 × Operator) :=
  table.operators.zipIdx.map fun (op, position) => (UInt8.ofNat position, op)

/-- How many formulas one pair of operands gives rise to, over all operators. -/
def orderingsPerPair (table : OperatorTable) : Nat :=
  table.operators.foldr (fun op total => op.orderings + total) 0

/-- Bits that hold one operator code; a table of one operator still spends one bit. -/
def codeBits (table : OperatorTable) : Nat :=
  max 1 (bitLength (table.size - 1))

/-- Whether the table lists exactly `+ - * /` with the usual flags. -/
def isArithmetic (table : OperatorTable) : Bool :=
  table.operators.map (fun op => (op.name, op.commutative)) ==
    [('+', true), ('-', false), ('*', true), ('/', false)]

/-- Division that has no value at a zero divisor, where IEEE division would give an infinity. -/
def divide (a b : Float) : Float :=
  if b == 0.0 then 0.0 / 0.0 else a / b

/-- The four arithmetic operators `+ - * /`. -/
def arithmetic : OperatorTable where
  operators :=
    [⟨'+', true, fun a b => a + b⟩, ⟨'-', false, fun a b => a - b⟩,
      ⟨'*', true, fun a b => a * b⟩, ⟨'/', false, divide⟩]
  length_pos := by decide
  length_le := by decide

/-- The operator with a code is the entry of the table at that index. -/
theorem get_eq_ok_iff (table : OperatorTable) (code : UInt8) (op : Operator) :
    table.get code = .ok op ↔ table.operators[code.toNat]? = some op := by
  unfold get
  split <;> simp_all

/-- Every code of a table fits into the table's code width. -/
theorem size_le_capacity_codeBits (table : OperatorTable) :
    table.size ≤ capacity table.codeBits :=
  Nat.le_trans (le_capacity_bitLength_pred table.size)
    (capacity_le_capacity (Nat.le_max_right 1 _))

end OperatorTable

end Formulary
