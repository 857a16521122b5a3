import Formulary.Proofs.Numeral.Equality
import Formulary.Proofs.Formula.TreeEvaluation
import Formulary.Proofs.Admission.Novelty

/-!
# Exchanging operands

If the function of an operator does not tell the order of its operands, then neither does any
fingerprint: both orders of a combination have the same key under every vector. The evaluation ends
early at an operand without a number, so in one order it may never come to the other operand; but
then there is no key in either order.

The flag of a commutative operator promises such a function. Addition and multiplication keep this
promise.
-/

namespace Formulary

/-- Every operator that is flagged as commutative has a symmetric function, up to results that
compare equal or are no numbers. -/
def OperatorTable.Symmetric (table : OperatorTable) : Prop :=
  ∀ op ∈ table.operators, op.commutative = true → ∀ x y, Agree (op.apply x y) (op.apply y x)

/-- Addition and multiplication are symmetric. -/
theorem OperatorTable.symmetric_arithmetic : OperatorTable.arithmetic.Symmetric := by
  intro op hop hcommutative x y
  simp only [arithmetic, List.mem_cons, List.not_mem_nil, or_false] at hop
  rcases hop with rfl | rfl | rfl | rfl
  · exact Numeral.agree_of_eq (Numeral.add_comm x y)
  · cases hcommutative
  · exact Numeral.agree_of_eq (Numeral.mul_comm x y)
  · cases hcommutative

/-- The key that comes of the evaluation of a tree: an event leaves none. -/
def Fingerprint.keyOfOutcome (digits : ℕ) : Except Event Float → Option UInt64
  | .ok raw => keyOfRaw digits raw
  | .error _ => none

namespace AdmissionRule

variable {rule : AdmissionRule} {vector : List Float} {code : UInt8} {f g : Formula}

/-- The key of a formula is that of its value before rounding. -/
theorem keyUnder_of_evaluateRaw {raw : Float}
    (h : f.evaluateRaw rule.table vector = .ok raw) :
    rule.keyUnder vector f = Fingerprint.keyOfRaw rule.policy.digits raw := by
  have hrounded : f.evaluate rule.table vector rule.policy.digits =
      .ok (if raw.isNaN then raw else Places.round raw rule.policy.digits) := by
    rw [Formula.evaluate, h]
    rfl
  unfold keyUnder Fingerprint.keyOfRaw
  rw [hrounded]
  cases hnan : raw.isNaN with
  | true => simp only [if_true, hnan]
  | false => simp

/-- The key of a formula is the key of its tree. -/
theorem keyUnder_toFormula (rule : AdmissionRule) (vector : List Float) (t : Tree) :
    rule.keyUnder vector t.toFormula =
      Fingerprint.keyOfOutcome rule.policy.digits (t.evaluate rule.table vector) := by
  have hraw : t.toFormula.evaluateRaw rule.table vector = _ := Formula.evaluateRaw_toFormula t
  cases houtcome : t.evaluate rule.table vector with
  | ok raw =>
    rw [houtcome] at hraw
    exact keyUnder_of_evaluateRaw hraw
  | error event =>
    rw [houtcome] at hraw
    cases event with
    | missingValue slot =>
      unfold keyUnder Formula.evaluate
      rw [hraw]
      rfl
    | unknownCode code =>
      unfold keyUnder Formula.evaluate
      rw [hraw]
      rfl
    | notANumber value =>
      rw [keyUnder_of_evaluateRaw hraw, Fingerprint.keyOfRaw, if_pos (Tree.isNaN_of_evaluate houtcome)]
      rfl

/-- The key of a node depends on the operands through the application of its operator. -/
theorem keyOfOutcome_applyCode {op : Operator} (hop : rule.table.get code = .ok op) (x y : Float) :
    Fingerprint.keyOfOutcome rule.policy.digits (rule.table.applyCode code x y) =
      Fingerprint.keyOfRaw rule.policy.digits (op.apply x y) := by
  unfold OperatorTable.applyCode
  rw [(OperatorTable.get_eq_ok_iff _ _ _).mp hop]
  dsimp only
  cases hnan : (op.apply x y).isNaN with
  | true =>
    rw [Fingerprint.keyOfRaw, if_pos hnan]
    rfl
  | false => rfl

/-- Under an operator that does not tell its operands apart both orders have the same keys. -/
theorem keyUnder_combine_comm (hsymmetric : rule.table.Symmetric) (hf : f.IsPostfix)
    (hg : g.IsPostfix) {op : Operator} (hop : rule.table.get code = .ok op)
    (hcommutative : op.commutative = true) (vector : List Float) :
    rule.keyUnder vector (Formula.combine f g code) =
      rule.keyUnder vector (Formula.combine g f code) := by
  obtain ⟨left, rfl⟩ := hf
  obtain ⟨right, rfl⟩ := hg
  rw [← Tree.toFormula_node, ← Tree.toFormula_node, keyUnder_toFormula, keyUnder_toFormula,
    Tree.evaluate, Tree.evaluate]
  cases left.evaluate rule.table vector with
  | error event =>
    cases right.evaluate rule.table vector with
    | error event' => rfl
    | ok y => rfl
  | ok x =>
    cases right.evaluate rule.table vector with
    | error event => rfl
    | ok y =>
      have hmem : op ∈ rule.table.operators :=
        List.mem_of_getElem? ((OperatorTable.get_eq_ok_iff _ _ _).mp hop)
      have hagree := hsymmetric op hmem hcommutative x y
      simp only [bind, Except.bind]
      rw [keyOfOutcome_applyCode hop, keyOfOutcome_applyCode hop, hagree.keyOfRaw_eq]

/-- A combination under a code without an operator has no key. -/
theorem keyUnder_combine_of_size_le (hf : f.IsPostfix) (hg : g.IsPostfix)
    (hcode : rule.table.size ≤ code.toNat) (vector : List Float) :
    rule.keyUnder vector (Formula.combine f g code) = none := by
  obtain ⟨left, rfl⟩ := hf
  obtain ⟨right, rfl⟩ := hg
  rw [← Tree.toFormula_node, keyUnder_toFormula, Tree.evaluate]
  cases left.evaluate rule.table vector with
  | error event => rfl
  | ok x =>
    cases right.evaluate rule.table vector with
    | error event => rfl
    | ok y =>
      have hnone : rule.table.operators[code.toNat]? = none := List.getElem?_eq_none hcode
      simp only [bind, Except.bind, OperatorTable.applyCode, hnone]
      rfl

end AdmissionRule

end Formulary
