import Formulary.Proofs.Admission.Drawn
import Formulary.Proofs.Admission.Offering
import Formulary.Proofs.Formula.Splice

/-!
# Combinations under a code without an operator

Both operands of a combination are evaluated before the operator of its code is looked up. So a code
without an operator is an error where both operands have a number as their value, and where one of
them yields NaN the evaluation does not come to the code.

An offer of such a combination asks one fingerprint after another. It fails with that error as soon
as both operands have a number under one vector, and otherwise it is answered.
-/

namespace Formulary

namespace Formula

variable {table : OperatorTable} {values : List Float} {digits : ℕ} {f g : Formula} {code : UInt8}

/-- The value of a formula is a number. -/
def HasNumber (f : Formula) (table : OperatorTable) (values : List Float) : Prop :=
  ∃ value, f.evaluateRaw table values = .ok value ∧ value.isNaN = false

/-- Behind two numbers, a code without an operator is an error. -/
theorem evaluate_combine_eq_error (hf : f.IsPostfix) (hg : g.IsPostfix)
    (hnumbers : ∀ value ∈ values, value.isNaN = false) (hcode : table.size ≤ code.toNat)
    (hleft : f.HasNumber table values) (hright : g.HasNumber table values) :
    (combine f g code).evaluate table values digits = .error (.operator (.unknownCode code)) := by
  obtain ⟨x, hx, hxnumber⟩ := hleft
  obtain ⟨y, hy, hynumber⟩ := hright
  have hraw : (combine f g code).evaluateRaw table values = _ :=
    evaluateRaw_combine hf hg code hnumbers
  rw [hx, hy] at hraw
  have hanswer : table.applyToAnswers code (.ok x) (.ok y) = .error (.operator (.unknownCode code)) := by
    simp only [OperatorTable.applyToAnswers, hxnumber, hynumber, Bool.false_eq_true, if_false,
      OperatorTable.get_eq_error hcode]
  rw [evaluate, hraw, hanswer]
  rfl

/-- If both operands have values and one of them is NaN, a combination has a value under any code. -/
theorem exists_evaluate_combine_of_nan (hf : f.IsPostfix) (hg : g.IsPostfix)
    (hnumbers : ∀ value ∈ values, value.isNaN = false)
    (hleft : ∃ value, f.evaluateRaw table values = .ok value)
    (hright : ∃ value, g.evaluateRaw table values = .ok value)
    (hnan : ¬ (f.HasNumber table values ∧ g.HasNumber table values)) :
    ∃ value, (combine f g code).evaluate table values digits = .ok value := by
  obtain ⟨x, hx⟩ := hleft
  obtain ⟨y, hy⟩ := hright
  have hraw : (combine f g code).evaluateRaw table values = _ :=
    evaluateRaw_combine hf hg code hnumbers
  rw [hx, hy] at hraw
  cases hxnan : x.isNaN with
  | true =>
    rw [OperatorTable.applyToAnswers_nan_left hxnan] at hraw
    rw [evaluate, hraw]
    exact ⟨_, rfl⟩
  | false =>
    have hynan : y.isNaN = true := by
      rw [← Bool.not_eq_false]
      exact fun hynumber => hnan ⟨⟨x, hx, hxnan⟩, y, hy, hynumber⟩
    rw [OperatorTable.applyToAnswers_nan_right hxnan hynan] at hraw
    rw [evaluate, hraw]
    exact ⟨_, rfl⟩

end Formula

namespace NoveltyFilter

variable {table : OperatorTable} {digits slots : ℕ} {f g : Formula} {code : UInt8}
  {error : FormulaError} {fingerprints after : List Fingerprint} {filter : NoveltyFilter}
  {rule : AdmissionRule}

/-- The error that ends the round of all fingerprints is that of one of them. -/
theorem exists_evaluate_of_observeAll_eq_error
    (h : observeAll table digits f fingerprints = (.error error, after)) :
    ∃ fingerprint ∈ fingerprints, f.evaluate table fingerprint.values digits = .error error := by
  induction fingerprints generalizing after with
  | nil => cases h
  | cons first rest ih =>
    rcases hfirst : first.observe table digits f with ⟨answer, seen⟩
    rcases hothers : observeAll table digits f rest with ⟨outcome, others⟩
    rw [observeAll, hfirst, hothers] at h
    cases answer with
    | error _ =>
      cases h
      rcases Fingerprint.observe_cases hfirst with ⟨_, hfails, hanswer, -⟩ | ⟨_, -, -, hanswer, -⟩ |
        ⟨_, -, -, hanswer, -⟩
      · cases hanswer
        exact ⟨first, List.mem_cons_self, hfails⟩
      · cases hanswer
      · cases hanswer
    | ok new =>
      cases outcome with
      | ok votes => cases h
      | error _ =>
        cases h
        obtain ⟨fingerprint, hmem, hfails⟩ := ih hothers
        exact ⟨fingerprint, List.mem_cons_of_mem first hmem, hfails⟩

/-- If the evaluation of a candidate can fail with one error only and does so under some vector, the
offer fails with this error. -/
theorem offer_eq_error (hsize : f.size = filter.slots)
    (hsome : ∃ fingerprint ∈ filter.fingerprints,
      f.evaluate filter.table fingerprint.values filter.policy.digits = .error error)
    (honly : ∀ fingerprint ∈ filter.fingerprints, ∀ other,
      f.evaluate filter.table fingerprint.values filter.policy.digits = .error other → other = error) :
    (filter.offer f).1 = .error (.evaluation error) := by
  rcases hall : observeAll filter.table filter.policy.digits f filter.fingerprints with
    ⟨outcome, after⟩
  cases outcome with
  | ok votes =>
    obtain ⟨fingerprint, hmem, hfails⟩ := hsome
    obtain ⟨value, hvalue⟩ := (of_observeAll_eq_ok hall).1 fingerprint hmem
    rw [hfails] at hvalue
    cases hvalue
  | error other =>
    obtain ⟨fingerprint, hmem, hfails⟩ := exists_evaluate_of_observeAll_eq_error hall
    rw [offer_of_observeAll_eq_error hsize hall, honly fingerprint hmem other hfails]

/-- Every vector of a filter holds numbers. -/
def HoldsNumbers (filter : NoveltyFilter) : Prop :=
  ∀ fingerprint ∈ filter.fingerprints, ∀ value ∈ fingerprint.values, value.isNaN = false

/-- Vectors that are drawn hold numbers. -/
theorem Asks.holdsNumbers {policy : Policy} {fresh : ChaCha.Key}
    (h : filter.Asks slots (drawnRule slots policy table fresh)) : filter.HoldsNumbers := by
  intro fingerprint hmem value hvalue
  have hvector : fingerprint.values ∈ (drawnRule slots policy table fresh).vectors :=
    h.values_eq ▸ List.mem_map_of_mem hmem
  have hfinite := (ChaCha.exact_of_mem_vectors hvector hvalue).1
  exact (Numeral.isNaN_eq_false_of_isFinite hfinite).1

/-- A formula that can be an operand: it has a value under every vector of a filter. -/
structure Operand (filter : NoveltyFilter) (f : Formula) : Prop where
  isPostfix : f.IsPostfix
  exists_value : ∀ fingerprint ∈ filter.fingerprints,
    ∃ value, f.evaluateRaw filter.table fingerprint.values = .ok value

/-- Both formulas have a number as their value under one vector of a filter. -/
def HaveNumbers (filter : NoveltyFilter) (f g : Formula) : Prop :=
  ∃ fingerprint ∈ filter.fingerprints,
    f.HasNumber filter.table fingerprint.values ∧ g.HasNumber filter.table fingerprint.values

/-- It does not matter which of two formulas comes first. -/
theorem haveNumbers_comm : filter.HaveNumbers f g ↔ filter.HaveNumbers g f := by
  unfold HaveNumbers
  simp only [and_comm]

/-- Where one of two operands is NaN, their combination has a value. -/
theorem Operand.exists_evaluate_combine (hf : filter.Operand f) (hg : filter.Operand g)
    (hnumbers : filter.HoldsNumbers) {fingerprint : Fingerprint}
    (hmem : fingerprint ∈ filter.fingerprints)
    (hnan : ¬ (f.HasNumber filter.table fingerprint.values ∧
      g.HasNumber filter.table fingerprint.values)) (code : UInt8) :
    ∃ value, (Formula.combine f g code).evaluate filter.table fingerprint.values
      filter.policy.digits = .ok value :=
  Formula.exists_evaluate_combine_of_nan hf.isPostfix hg.isPostfix (hnumbers fingerprint hmem)
    (hf.exists_value fingerprint hmem) (hg.exists_value fingerprint hmem) hnan

/-- If both operands have a number under some vector, the offer fails at the code. -/
theorem Operand.offer_combine_eq_error (hf : filter.Operand f) (hg : filter.Operand g)
    (hnumbers : filter.HoldsNumbers) (hsize : (Formula.combine f g code).size = filter.slots)
    (hcode : filter.table.size ≤ code.toNat) (hboth : filter.HaveNumbers f g) :
    (filter.offer (Formula.combine f g code)).1 =
      .error (.evaluation (.operator (.unknownCode code))) := by
  have hfails : ∀ fingerprint ∈ filter.fingerprints, f.HasNumber filter.table fingerprint.values →
      g.HasNumber filter.table fingerprint.values →
      (Formula.combine f g code).evaluate filter.table fingerprint.values filter.policy.digits =
        .error (.operator (.unknownCode code)) := fun fingerprint hmem =>
    Formula.evaluate_combine_eq_error hf.isPostfix hg.isPostfix (hnumbers fingerprint hmem) hcode
  apply offer_eq_error hsize
  · obtain ⟨fingerprint, hmem, hleft, hright⟩ := hboth
    exact ⟨fingerprint, hmem, hfails fingerprint hmem hleft hright⟩
  · intro fingerprint hmem other hother
    by_cases hhere : f.HasNumber filter.table fingerprint.values ∧
        g.HasNumber filter.table fingerprint.values
    · rw [hfails fingerprint hmem hhere.1 hhere.2] at hother
      cases hother
      rfl
    · obtain ⟨value, hvalue⟩ := hf.exists_evaluate_combine hg hnumbers hmem hhere code
      rw [hvalue] at hother
      cases hother

/-- If under every vector one of the operands is NaN, the combination has a value under all of them. -/
theorem Operand.evaluates_combine (hf : filter.Operand f) (hg : filter.Operand g)
    (hnumbers : filter.HoldsNumbers) (hasks : filter.Asks slots rule)
    (hnan : ¬ filter.HaveNumbers f g) (code : UInt8) :
    rule.Evaluates (Formula.combine f g code) := by
  unfold AdmissionRule.Evaluates
  rw [← hasks.values_eq, ← hasks.table_eq, ← hasks.policy_eq, List.forall_mem_map]
  intro fingerprint hmem
  exact hf.exists_evaluate_combine hg hnumbers hmem
    (fun ⟨hleft, hright⟩ => hnan ⟨fingerprint, hmem, hleft, hright⟩) code

end NoveltyFilter

end Formulary
