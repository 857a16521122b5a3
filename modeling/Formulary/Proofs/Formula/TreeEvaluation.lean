import Formulary.Proofs.Formula.Trees
import Formulary.Proofs.Formula.Evaluation

/-!
# The value of a tree

A tree is evaluated from left to right in post-order: both operands of a node come before the node.
The evaluation ends at its first event, which is a leaf whose slot has no value, a node whose code
has no operator, or an application that yields NaN; without an event the root has a value.

The run of a postfix program does the same. Whatever program follows the postfix form of a tree and
whatever lies on the stack, the run either goes on with the value of the tree on top of the stack
or ends with the tree's event, so it neither misses an entry nor leaves one over.
-/

namespace Formulary

/-- What ends an evaluation before the root of a tree has a value. -/
inductive Event where
  | missingValue (slot : UInt8)
  | unknownCode (code : UInt8)
  | notANumber (value : Float)

/-- The answer that a formula gives at an event, from `available` values: the first two are errors,
while an application that yields NaN is the answer itself. -/
def Event.answer (available : ℕ) : Event → Except FormulaError Float
  | missingValue slot => .error (.missingValue slot available)
  | unknownCode code => .error (.operator (.unknownCode code))
  | notANumber value => .ok value

/-- The answer that a formula gives for what comes of its tree. -/
def answerOf (available : ℕ) : Except Event Float → Except FormulaError Float
  | .ok value => .ok value
  | .error event => event.answer available

/-- Apply the operator with a code to two operands. -/
def OperatorTable.applyCode (table : OperatorTable) (code : UInt8) (left right : Float) :
    Except Event Float :=
  match table.operators[code.toNat]? with
  | none => .error (.unknownCode code)
  | some op =>
    if (op.apply left right).isNaN then .error (.notANumber (op.apply left right))
    else .ok (op.apply left right)

/-- The value of the root of a tree, or the first event on the way to it. -/
def Tree.evaluate (table : OperatorTable) (values : List Float) : Tree → Except Event Float
  | leaf slot =>
    match values[slot.toNat]? with
    | none => .error (.missingValue slot)
    | some value => .ok value
  | node code left right => do
    let x ← left.evaluate table values
    let y ← right.evaluate table values
    table.applyCode code x y

variable {table : OperatorTable} {values : List Float}

/-- An application that ends an evaluation has yielded NaN. -/
theorem OperatorTable.isNaN_of_applyCode {code : UInt8} {x y value : Float}
    (h : table.applyCode code x y = .error (.notANumber value)) : value.isNaN = true := by
  unfold applyCode at h
  split at h
  · cases h
  · split at h
    · next hnan =>
      cases h
      exact hnan
    · cases h

/-- An application without an event yields a number. -/
theorem OperatorTable.isNaN_eq_false_of_applyCode {code : UInt8} {x y value : Float}
    (h : table.applyCode code x y = .ok value) : value.isNaN = false := by
  unfold applyCode at h
  split at h
  · cases h
  · split at h
    · cases h
    · next hnumber =>
      cases h
      exact Bool.eq_false_of_not_eq_true hnumber

/-- An application that ends an evaluation has yielded NaN or has no operator. -/
theorem OperatorTable.applyCode_ne_missingValue (code slot : UInt8) (x y : Float) :
    table.applyCode code x y ≠ .error (.missingValue slot) := by
  unfold applyCode
  split
  · exact nofun
  · split
    · exact nofun
    · exact nofun

/-- What is no number and ends the evaluation of a tree is NaN. -/
theorem Tree.isNaN_of_evaluate {t : Tree} {value : Float}
    (h : t.evaluate table values = .error (.notANumber value)) : value.isNaN = true := by
  induction t with
  | leaf slot =>
    unfold evaluate at h
    split at h
    · cases h
    · cases h
  | node code left right ihLeft ihRight =>
    rcases Outcome.bind_eq_error_iff.mp h with hleft | ⟨x, -, h⟩
    · exact ihLeft hleft
    · rcases Outcome.bind_eq_error_iff.mp h with hright | ⟨y, -, h⟩
      · exact ihRight hright
      · exact OperatorTable.isNaN_of_applyCode h

namespace Formula

/-- A pop applies the next code to the two topmost entries. -/
theorem run_pop (position : ℕ) (shape : List Bool) (slots codes : List UInt8) (code : UInt8)
    (left right : Float) (stack : List Float) :
    run table values position (false :: shape) slots (code :: codes) (right :: left :: stack) =
      match table.applyCode code left right with
      | .ok value => run table values (position + 1) shape slots codes (value :: stack)
      | .error event => event.answer values.length := by
  unfold OperatorTable.applyCode
  rw [run, OperatorTable.get]
  cases table.operators[code.toNat]? with
  | none => rfl
  | some op =>
    by_cases hnan : (op.apply left right).isNaN = true
    · simp only [hnan, if_true]
      rfl
    · simp only [hnan]
      rfl

/-- The run of a program that begins with the postfix form of a tree goes through the tree, then
through the rest. -/
theorem run_toFormula_append (t : Tree) (position : ℕ) (shape : List Bool)
    (slots codes : List UInt8) (stack : List Float) :
    run table values position (t.shape ++ shape) (t.slots ++ slots) (t.codes ++ codes) stack =
      match t.evaluate table values with
      | .ok value => run table values (position + t.shape.length) shape slots codes (value :: stack)
      | .error event => event.answer values.length := by
  induction t generalizing position shape slots codes stack with
  | leaf slot =>
    simp only [Tree.shape, Tree.slots, Tree.codes, Tree.evaluate, List.singleton_append,
      List.nil_append, run]
    cases values[slot.toNat]? with
    | none => rfl
    | some value => rfl
  | node code left right ihLeft ihRight =>
    simp only [Tree.shape, Tree.slots, Tree.codes, Tree.evaluate, List.append_assoc]
    rw [ihLeft]
    cases left.evaluate table values with
    | error event => rfl
    | ok x =>
      simp only [bind, Except.bind]
      rw [ihRight]
      cases right.evaluate table values with
      | error event => rfl
      | ok y =>
        simp only [List.singleton_append, run_pop, List.length_append, List.length_singleton,
          Nat.add_assoc]

/-- The postfix form of a tree has the value of the tree. -/
theorem evaluateRaw_toFormula (t : Tree) :
    t.toFormula.evaluateRaw table values = answerOf values.length (t.evaluate table values) := by
  have hrun : run table values 0 (t.shape ++ []) (t.slots ++ []) (t.codes ++ []) [] = _ :=
    run_toFormula_append t 0 [] [] [] []
  simp only [List.append_nil] at hrun
  unfold evaluateRaw
  rw [Tree.toFormula, hrun]
  cases t.evaluate table values with
  | ok value => rfl
  | error event => rfl

/-- No answer is an error of the stack or of the shape. -/
theorem answerOf_ne_malformed (available position : ℕ) (outcome : Except Event Float) :
    answerOf available outcome ≠ .error (.stackUnderflow position) ∧
      answerOf available outcome ≠ .error (.malformedShape position) := by
  match outcome with
  | .ok value => exact ⟨nofun, nofun⟩
  | .error (.missingValue slot) => exact ⟨nofun, nofun⟩
  | .error (.unknownCode code) => exact ⟨nofun, nofun⟩
  | .error (.notANumber value) => exact ⟨nofun, nofun⟩

/-- Every tree is built from the slot alone by relabelling and combining, and whatever is built
with a tree evaluates as the tree does: from left to right in post-order up to the first event, so
to no error of the stack or of the shape. A formula that passes the check and uses codes of the
table has a value wherever there are as many values as it has slots. -/
theorem evaluateRaw_eq_answerOf (table : OperatorTable) (values : List Float) :
    (∀ t : Tree, ∃ f, t.Builds f) ∧
    (∀ (t : Tree) (f : Formula), t.Builds f →
      f.evaluateRaw table values = answerOf values.length (t.evaluate table values) ∧
        ∀ position, f.evaluateRaw table values ≠ .error (.stackUnderflow position) ∧
          f.evaluateRaw table values ≠ .error (.malformedShape position)) ∧
    (∀ f : Formula, f.validate = .ok () → (∀ code ∈ f.codes, code.toNat < table.size) →
      f.size ≤ values.length → ∃ value, f.evaluateRaw table values = .ok value) := by
  refine ⟨fun t => ⟨t.toFormula, t.builds_toFormula⟩, fun t f hbuilds => ?_, fun f hvalid hcodes hle => ?_⟩
  · obtain rfl := hbuilds.eq_toFormula
    rw [evaluateRaw_toFormula]
    exact ⟨rfl, fun position => answerOf_ne_malformed values.length position _⟩
  · exact (validate_eq_ok_iff.mp hvalid).exists_evaluateRaw_eq_ok hcodes hle

/-- A quotient by zero beside a slot without a value: the event that comes first is the answer. -/
theorem evaluateRaw_eq_answerOf_masked :
    let quotient := Tree.node 3 (.leaf 0) (.leaf 1)
    let values := [1.0, 0.0]
    (Tree.node 0 quotient (.leaf 7)).toFormula.evaluateRaw .arithmetic values = .ok (0.0 / 0.0) ∧
    (Tree.node 0 (.leaf 7) quotient).toFormula.evaluateRaw .arithmetic values =
      .error (.missingValue 7 2) ∧
    quotient.toFormula.validate = .ok () ∧
    ∃ value, quotient.toFormula.evaluateRaw .arithmetic values = .ok value := by
  intro quotient values
  obtain ⟨-, hbuilt, hvalid⟩ := evaluateRaw_eq_answerOf .arithmetic values
  have hcodes : ∀ code ∈ quotient.toFormula.codes, code.toNat < OperatorTable.arithmetic.size := by
    intro code hcode
    obtain rfl := List.mem_singleton.mp hcode
    decide
  refine ⟨?_, ?_, rfl, ?_⟩
  · exact (hbuilt (.node 0 quotient (.leaf 7)) _ (Tree.builds_toFormula _)).1
  · exact (hbuilt (.node 0 (.leaf 7) quotient) _ (Tree.builds_toFormula _)).1
  · exact hvalid quotient.toFormula rfl hcodes (Nat.le_refl 2)

end Formula

end Formulary
