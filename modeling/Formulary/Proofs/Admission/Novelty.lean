import Std.Data.HashSet.Lemmas
import Mathlib.Data.List.Basic
import Mathlib.Tactic.Common
import Formulary.Admission.Filter
import Formulary.Proofs.Formula.Evaluation

/-!
# What a novelty filter admits

A rule for admission consists of a table, a policy and the vectors. It says of every list of
candidates which of them are admitted: those with a new value under as many vectors as the
threshold asks for, where a value is new if it is a number and no earlier candidate has its key,
whether that candidate was admitted or not.

A filter follows its rule step by step. It does not keep the candidates that were offered, only
the keys of their values, and this is enough to recognise the values of later ones.
-/

namespace Formulary

/-- What decides which candidates are admitted. -/
structure AdmissionRule where
  table : OperatorTable
  policy : Policy
  vectors : List (List Float)

namespace AdmissionRule

/-- The key of a formula's rounded value under a vector, if the value is a number. -/
def keyUnder (rule : AdmissionRule) (vector : List Float) (f : Formula) : Option UInt64 :=
  match f.evaluate rule.table vector rule.policy.digits with
  | .ok value => if value.isNaN then none else some (Fingerprint.key value)
  | .error _ => none

/-- Whether the value of a formula is a number that no earlier formula has. -/
def isNew (rule : AdmissionRule) (earlier : List Formula) (f : Formula) (vector : List Float) :
    Bool :=
  match rule.keyUnder vector f with
  | some key => earlier.all fun other => rule.keyUnder vector other ≠ some key
  | none => false

/-- The number of vectors under which a formula is new. -/
def votes (rule : AdmissionRule) (earlier : List Formula) (f : Formula) : ℕ :=
  rule.vectors.countP (rule.isNew earlier f)

/-- Whether a formula is admitted after others were offered. -/
def admits (rule : AdmissionRule) (earlier : List Formula) (f : Formula) : Bool :=
  rule.policy.threshold ≤ rule.votes earlier f

/-- The candidates that are admitted, each of them judged by all candidates before it. -/
def admissions (rule : AdmissionRule) (candidates : List Formula) : List Formula :=
  (candidates.zipIdx.filter fun (f, index) => rule.admits (candidates.take index) f).map Prod.fst

/-- A value is new if it is a number and differs from the values of all earlier formulas. -/
theorem isNew_iff {rule : AdmissionRule} {earlier : List Formula} {f : Formula}
    {vector : List Float} :
    rule.isNew earlier f vector = true ↔
      ∃ key, rule.keyUnder vector f = some key ∧
        ∀ other ∈ earlier, rule.keyUnder vector other ≠ some key := by
  unfold isNew
  cases hkey : rule.keyUnder vector f with
  | none => simp
  | some key => simp

/-- Of no candidates none is admitted. -/
@[simp] theorem admissions_nil (rule : AdmissionRule) : rule.admissions [] = [] := rfl

/-- One more candidate is judged by all others and does not change what was decided before. -/
theorem admissions_append_singleton (rule : AdmissionRule) (candidates : List Formula)
    (f : Formula) :
    rule.admissions (candidates ++ [f]) =
      rule.admissions candidates ++ if rule.admits candidates f then [f] else [] := by
  have hbefore : ∀ entry ∈ candidates.zipIdx,
      rule.admits ((candidates ++ [f]).take entry.2) entry.1 =
        rule.admits (candidates.take entry.2) entry.1 := by
    intro entry hentry
    have hindex := List.snd_lt_of_mem_zipIdx hentry
    rw [List.take_append_of_le_length (by omega)]
  unfold admissions
  rw [List.zipIdx_append, List.filter_append, List.map_append, List.filter_congr hbefore]
  congr 1
  by_cases hadmits : rule.admits candidates f = true
  · simp [hadmits]
  · simp [hadmits]

/-- The admitted candidates stand in the order in which they were offered. -/
theorem admissions_sublist (rule : AdmissionRule) (candidates : List Formula) :
    (rule.admissions candidates).Sublist candidates := by
  have hzip : candidates.zipIdx.map Prod.fst = candidates := List.zipIdx_map_fst 0 candidates
  have hsublist := (List.filter_sublist (p := fun entry : Formula × ℕ =>
    rule.admits (candidates.take entry.2) entry.1) (l := candidates.zipIdx)).map Prod.fst
  rwa [hzip] at hsublist

/-- A formula has a value under every vector of a rule. -/
def Evaluates (rule : AdmissionRule) (f : Formula) : Prop :=
  ∀ vector ∈ rule.vectors, ∃ value, f.evaluate rule.table vector rule.policy.digits = .ok value

end AdmissionRule

namespace Fingerprint

/-- A fingerprint has seen exactly the keys of the formulas that were shown to it. -/
def Remembers (fingerprint : Fingerprint) (rule : AdmissionRule) (shown : List Formula) : Prop :=
  ∀ key, key ∈ fingerprint.seen ↔ ∃ other ∈ shown, rule.keyUnder fingerprint.values other = some key

variable {rule : AdmissionRule} {shown : List Formula} {f : Formula} {fingerprint : Fingerprint}

/-- A fresh fingerprint remembers nothing. -/
theorem remembers_ofValues (values : List Float) : (ofValues values).Remembers rule [] := by
  intro key
  simp [ofValues]

/-- The key that a fingerprint computes is the one that the rule speaks of. -/
theorem keyOf_eq_ok {values : List Float}
    (h : ∃ value, f.evaluate rule.table values rule.policy.digits = .ok value) :
    keyOf values rule.table rule.policy.digits f = .ok (rule.keyUnder values f) := by
  obtain ⟨value, hvalue⟩ := h
  unfold keyOf AdmissionRule.keyUnder
  rw [hvalue]
  rfl

/-- A formula that has a value is recognised as new or known, and remembered. -/
theorem Remembers.observe_eq_ok (h : fingerprint.Remembers rule shown)
    (hvalue : ∃ value, f.evaluate rule.table fingerprint.values rule.policy.digits = .ok value) :
    ∃ after, fingerprint.observe rule.table rule.policy.digits f =
        (.ok (rule.isNew shown f fingerprint.values), after) ∧
      after.values = fingerprint.values ∧ after.Remembers rule (shown ++ [f]) := by
  have hkeyOf := keyOf_eq_ok hvalue
  unfold observe AdmissionRule.isNew
  cases hkey : rule.keyUnder fingerprint.values f with
  | none =>
    rw [hkey] at hkeyOf
    rw [hkeyOf]
    refine ⟨fingerprint, rfl, rfl, fun key => ?_⟩
    simp [h key, hkey]
  | some key =>
    rw [hkey] at hkeyOf
    rw [hkeyOf]
    have hinsert : fingerprint.seen.containsThenInsert key =
        (fingerprint.seen.contains key, fingerprint.seen.insert key) :=
      Prod.ext Std.HashSet.containsThenInsert_fst Std.HashSet.containsThenInsert_snd
    have hknown : (!fingerprint.seen.contains key) =
        shown.all fun other => rule.keyUnder fingerprint.values other ≠ some key := by
      rw [Bool.eq_iff_iff, Bool.not_eq_true', ← Bool.not_eq_true, Std.HashSet.contains_iff_mem, h key]
      simp
    refine ⟨⟨fingerprint.values, fingerprint.seen.insert key⟩, ?_, rfl, fun other => ?_⟩
    · simp only [hinsert, hknown]
    · simp [h other, hkey, or_and_right, exists_or, or_comm]

end Fingerprint

namespace NoveltyFilter

/-- A filter over some slots that follows a rule and has been offered formulas. -/
structure Remembers (filter : NoveltyFilter) (slots : ℕ) (rule : AdmissionRule)
    (offered : List Formula) : Prop where
  slots_eq : filter.slots = slots
  table_eq : filter.table = rule.table
  policy_eq : filter.policy = rule.policy
  length_eq : ∀ vector ∈ rule.vectors, vector.length = slots
  values_eq : filter.fingerprints.map Fingerprint.values = rule.vectors
  remembers : ∀ fingerprint ∈ filter.fingerprints, fingerprint.Remembers rule offered

variable {filter : NoveltyFilter} {slots : ℕ} {rule : AdmissionRule} {offered : List Formula}
  {f : Formula}

/-- Every fingerprint votes on a formula and remembers it. -/
theorem observeAll_eq_ok {fingerprints : List Fingerprint}
    (hremembers : ∀ fingerprint ∈ fingerprints, fingerprint.Remembers rule offered)
    (hvalues : ∀ fingerprint ∈ fingerprints, ∃ value,
      f.evaluate rule.table fingerprint.values rule.policy.digits = .ok value) :
    ∃ after, observeAll rule.table rule.policy.digits f fingerprints =
        (.ok ((fingerprints.map Fingerprint.values).countP (rule.isNew offered f)), after) ∧
      after.map Fingerprint.values = fingerprints.map Fingerprint.values ∧
        ∀ fingerprint ∈ after, fingerprint.Remembers rule (offered ++ [f]) := by
  induction fingerprints with
  | nil => exact ⟨[], rfl, rfl, fun _ hmem => nomatch hmem⟩
  | cons first rest ih =>
    obtain ⟨seen, hobserve, hsame, hseen⟩ :=
      (hremembers first List.mem_cons_self).observe_eq_ok (hvalues first List.mem_cons_self)
    obtain ⟨after, hrest, hkept, hafter⟩ := ih
      (fun other hother => hremembers other (List.mem_cons_of_mem first hother))
      (fun other hother => hvalues other (List.mem_cons_of_mem first hother))
    refine ⟨seen :: after, ?_, ?_, ?_⟩
    · rw [observeAll, hobserve, hrest, List.map_cons, List.countP_cons]
      by_cases hnew : rule.isNew offered f first.values = true
      · simp [hnew]
      · simp [hnew]
    · rw [List.map_cons, List.map_cons, hsame, hkept]
    · intro fingerprint hmem
      rcases List.mem_cons.mp hmem with rfl | hmem
      · exact hseen
      · exact hafter fingerprint hmem

/-- Every formula that fits a filter has a value under its vectors. -/
theorem Remembers.evaluates (h : filter.Remembers slots rule offered)
    (hfits : f.Fits rule.table slots) : rule.Evaluates f := by
  intro vector hvector
  rw [← h.length_eq vector hvector] at hfits
  exact hfits.exists_evaluate_eq_ok rule.policy.digits

/-- A filter answers what its rule says, and remembers the formula. -/
theorem Remembers.offer_eq_ok (h : filter.Remembers slots rule offered) (hsize : f.size = slots)
    (hvalues : rule.Evaluates f) :
    ∃ after, filter.offer f = (.ok (rule.admits offered f), after) ∧
      after.Remembers slots rule (offered ++ [f]) := by
  have hevery : ∀ fingerprint ∈ filter.fingerprints, ∃ value,
      f.evaluate rule.table fingerprint.values rule.policy.digits = .ok value := by
    intro fingerprint hmem
    apply hvalues
    rw [← h.values_eq]
    exact List.mem_map_of_mem hmem
  obtain ⟨after, hall, hsame, hafter⟩ := observeAll_eq_ok h.remembers hevery
  rw [h.values_eq] at hall hsame
  unfold offer
  rw [if_neg (by simp [hsize, h.slots_eq]), h.table_eq, h.policy_eq, hall]
  exact ⟨_, rfl, h.slots_eq, rfl, rfl, h.length_eq, hsame, hafter⟩

/-- Fingerprints that make a filter fit its policy and its size, and nothing was offered to it. -/
theorem eq_of_ofFingerprints {policy : Policy} {table : OperatorTable}
    {fingerprints : List Fingerprint}
    (h : ofFingerprints slots policy table fingerprints = .ok filter) :
    policy.validate = .ok () ∧ fingerprints.length = policy.fingerprints ∧
      (∀ fingerprint ∈ fingerprints, fingerprint.values.length = slots) ∧
      filter = ⟨slots, policy, table, fingerprints, 0, 0⟩ := by
  obtain ⟨_, hpolicy, h⟩ := Outcome.bind_eq_ok_iff.mp h
  by_cases hcount : fingerprints.length ≠ policy.fingerprints
  · rw [if_pos hcount] at h
    cases h
  rw [if_neg hcount] at h
  dsimp only at h
  split at h
  · cases h
  · next hfind =>
    cases h
    refine ⟨Outcome.mapError_eq_ok_iff.mp hpolicy, not_not.mp hcount, fun fingerprint hmem => ?_, rfl⟩
    have hnone := List.find?_eq_none.mp hfind fingerprint hmem
    exact not_not.mp fun hother => hnone (decide_eq_true hother)

/-- As many vectors as the policy asks for, each with a value for every slot, make a filter. -/
theorem ofFingerprints_eq_ok {policy : Policy} {table : OperatorTable} {vectors : List (List Float)}
    (hpolicy : policy.validate = .ok ()) (hcount : vectors.length = policy.fingerprints)
    (hlength : ∀ vector ∈ vectors, vector.length = slots) :
    ∃ filter, ofFingerprints slots policy table (vectors.map .ofValues) = .ok filter ∧
      filter.Remembers slots ⟨table, policy, vectors⟩ [] := by
  have hfind : (vectors.map Fingerprint.ofValues).find?
      (fun fingerprint => fingerprint.values.length ≠ slots) = none := by
    apply List.find?_eq_none.mpr
    intro fingerprint hmem
    obtain ⟨vector, hvector, rfl⟩ := List.mem_map.mp hmem
    intro hother
    exact of_decide_eq_true hother (hlength vector hvector)
  refine ⟨⟨slots, policy, table, vectors.map .ofValues, 0, 0⟩, ?_, rfl, rfl, rfl, hlength, ?_, ?_⟩
  · unfold ofFingerprints
    rw [hpolicy, if_neg (by simpa using hcount), hfind]
    rfl
  · rw [List.map_map]
    exact List.map_id vectors
  · intro fingerprint hmem
    obtain ⟨values, -, rfl⟩ := List.mem_map.mp hmem
    exact Fingerprint.remembers_ofValues values

/-- The rule of a filter that is drawn. -/
def drawnRule (slots : ℕ) (policy : Policy) (table : OperatorTable) (fresh : ChaCha.Key) :
    AdmissionRule :=
  ⟨table, policy, ChaCha.vectors (drawKey policy fresh) policy.fingerprints slots⟩

/-- The vectors that are drawn have a value for every slot. -/
theorem length_of_mem_drawnRule {policy : Policy} {table : OperatorTable} {fresh : ChaCha.Key}
    {vector : List Float} (h : vector ∈ (drawnRule slots policy table fresh).vectors) :
    vector.length = slots := by
  simp only [drawnRule, ChaCha.vectors, List.mem_map] at h
  obtain ⟨_, -, rfl⟩ := h
  simp

/-- A filter that is drawn has been offered nothing. -/
theorem draw_eq_ok {policy : Policy} {table : OperatorTable} (hpolicy : policy.validate = .ok ())
    (fresh : ChaCha.Key) :
    ∃ filter, draw slots policy table fresh = .ok filter ∧
      filter.Remembers slots (drawnRule slots policy table fresh) [] := by
  have hcount : (drawnRule slots policy table fresh).vectors.length = policy.fingerprints := by
    simp [drawnRule, ChaCha.vectors]
  obtain ⟨filter, hfilter, hremembers⟩ := ofFingerprints_eq_ok hpolicy hcount
    fun _ h => length_of_mem_drawnRule h
  refine ⟨filter, ?_, hremembers⟩
  unfold draw
  rw [hpolicy]
  exact hfilter

/-- Whenever a filter is drawn, it has been offered nothing. -/
theorem remembers_of_draw {policy : Policy} {table : OperatorTable} {fresh : ChaCha.Key}
    (h : draw slots policy table fresh = .ok filter) :
    filter.Remembers slots (drawnRule slots policy table fresh) [] := by
  obtain ⟨_, hpolicy, -⟩ := Outcome.bind_eq_ok_iff.mp h
  obtain ⟨other, hother, hremembers⟩ := draw_eq_ok (Outcome.mapError_eq_ok_iff.mp hpolicy) fresh
  rw [h] at hother
  cases hother
  exact hremembers

end NoveltyFilter

end Formulary
