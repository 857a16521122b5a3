import Formulary.Proofs.Admission.Novelty

/-!
# One offer to a novelty filter

An offer that fails leaves the filter as it was. This is not so by its form, because the
fingerprints are asked one after another and each records what it sees. But a fingerprint that
records a value has seen a number, and a formula that has a number as its value under one vector has
a value under every other one, so a failure comes before anything is recorded.

An offer that is answered adds to the sizes of the seen sets as many keys as there are votes.
-/

namespace Formulary

namespace Fingerprint

variable {table : OperatorTable} {digits : ℕ} {f : Formula} {fingerprint after : Fingerprint}
  {answer : Except FormulaError Bool}

/-- A fingerprint fails with the evaluation, passes over what is no number, and records a number. -/
theorem observe_cases (h : fingerprint.observe table digits f = (answer, after)) :
    (∃ error, f.evaluate table fingerprint.values digits = .error error ∧ answer = .error error ∧
      after = fingerprint) ∨
    (∃ value, f.evaluate table fingerprint.values digits = .ok value ∧ value.isNaN = true ∧
      answer = .ok false ∧ after = fingerprint) ∨
    (∃ value, f.evaluate table fingerprint.values digits = .ok value ∧ value.isNaN = false ∧
      answer = .ok (!fingerprint.seen.contains (key value)) ∧
        after = ⟨fingerprint.values, fingerprint.seen.insert (key value)⟩) := by
  unfold observe at h
  cases hvalue : f.evaluate table fingerprint.values digits with
  | error error =>
    have hkey : keyOf fingerprint.values table digits f = .error error := by
      rw [keyOf, hvalue]
      rfl
    rw [hkey] at h
    cases h
    exact Or.inl ⟨error, rfl, rfl, rfl⟩
  | ok value =>
    have hkey : keyOf fingerprint.values table digits f =
        .ok (if value.isNaN then none else some (key value)) := by
      rw [keyOf, hvalue]
      rfl
    rw [hkey] at h
    cases hnan : value.isNaN with
    | true =>
      simp only [hnan, if_true] at h
      cases h
      exact Or.inr (Or.inl ⟨value, rfl, hnan, rfl, rfl⟩)
    | false =>
      have hinsert : fingerprint.seen.containsThenInsert (key value) =
          (fingerprint.seen.contains (key value), fingerprint.seen.insert (key value)) :=
        Prod.ext Std.HashSet.containsThenInsert_fst Std.HashSet.containsThenInsert_snd
      simp only [hnan, Bool.false_eq_true, if_false, hinsert] at h
      cases h
      exact Or.inr (Or.inr ⟨value, rfl, hnan, rfl, rfl⟩)

/-- A vote is a key more in the seen set. -/
theorem size_of_observe {new : Bool} (h : fingerprint.observe table digits f = (.ok new, after)) :
    after.size = fingerprint.size + new.toNat := by
  rcases observe_cases h with ⟨error, -, hanswer, -⟩ | ⟨value, -, -, hanswer, rfl⟩ |
    ⟨value, -, -, hanswer, rfl⟩
  · cases hanswer
  · cases hanswer
    rfl
  · cases hanswer
    unfold size
    rw [Std.HashSet.size_insert]
    cases hknown : fingerprint.seen.contains (key value) with
    | true => simp [Std.HashSet.mem_iff_contains, hknown]
    | false => simp [Std.HashSet.mem_iff_contains, hknown]

end Fingerprint

namespace NoveltyFilter

variable {table : OperatorTable} {digits slots votes : ℕ} {f : Formula}
  {fingerprints after : List Fingerprint}

/-- The number of keys in all seen sets. -/
def recorded (fingerprints : List Fingerprint) : ℕ :=
  (fingerprints.map Fingerprint.size).sum

/-- If the formula has a value under every vector, all fingerprints answer. -/
theorem exists_observeAll_eq_ok (h : ∀ fingerprint ∈ fingerprints,
    ∃ value, f.evaluate table fingerprint.values digits = .ok value) :
    ∃ votes after, observeAll table digits f fingerprints = (.ok votes, after) := by
  induction fingerprints with
  | nil => exact ⟨0, [], rfl⟩
  | cons first rest ih =>
    obtain ⟨votes, after, hrest⟩ := ih fun other hother => h other (List.mem_cons_of_mem first hother)
    obtain ⟨value, hvalue⟩ := h first List.mem_cons_self
    rcases hfirst : first.observe table digits f with ⟨answer, seen⟩
    rw [observeAll, hfirst, hrest]
    cases answer with
    | ok new => exact ⟨_, _, rfl⟩
    | error error =>
      rcases Fingerprint.observe_cases hfirst with ⟨_, hother, -⟩ | ⟨_, -, -, hanswer, -⟩ |
        ⟨_, -, -, hanswer, -⟩
      · rw [hvalue] at hother
        cases hother
      · cases hanswer
      · cases hanswer

/-- A failure under some vector leaves all fingerprints as they were. -/
theorem eq_of_observeAll_eq_error {error : FormulaError}
    (hlength : ∀ fingerprint ∈ fingerprints, fingerprint.values.length = slots)
    (h : observeAll table digits f fingerprints = (.error error, after)) : after = fingerprints := by
  induction fingerprints generalizing after with
  | nil => cases h
  | cons first rest ih =>
    have hrest := fun other hother => hlength other (List.mem_cons_of_mem first hother)
    rcases hfirst : first.observe table digits f with ⟨answer, seen⟩
    rcases hothers : observeAll table digits f rest with ⟨outcome, others⟩
    rw [observeAll, hfirst, hothers] at h
    have hcases := Fingerprint.observe_cases hfirst
    cases answer with
    | error _ =>
      cases h
      rcases hcases with ⟨_, -, -, rfl⟩ | ⟨_, -, -, hanswer, -⟩ | ⟨_, -, -, hanswer, -⟩
      · rfl
      · cases hanswer
      · cases hanswer
    | ok new =>
      cases outcome with
      | ok votes => cases h
      | error _ =>
        cases h
        rw [ih hrest hothers]
        rcases hcases with ⟨_, -, hanswer, -⟩ | ⟨_, -, -, -, rfl⟩ | ⟨value, hvalue, hnumber, -, -⟩
        · cases hanswer
        · rfl
        · -- a number under this vector rules out a failure under the others
          have hevery : ∀ other ∈ rest, ∃ value, f.evaluate table other.values digits = .ok value := by
            intro other hother
            have hsame : other.values.length = first.values.length :=
              (hrest other hother).trans (hlength first List.mem_cons_self).symm
            exact Formula.exists_evaluate_eq_ok_of_evaluate hsame hvalue hnumber
          obtain ⟨votes, _, hall⟩ := exists_observeAll_eq_ok hevery
          rw [hothers] at hall
          cases hall

/-- If all fingerprints answer, the formula has a value under every vector, and there are as many
keys more as there are votes. -/
theorem of_observeAll_eq_ok (h : observeAll table digits f fingerprints = (.ok votes, after)) :
    (∀ fingerprint ∈ fingerprints,
      ∃ value, f.evaluate table fingerprint.values digits = .ok value) ∧
    recorded after = recorded fingerprints + votes := by
  induction fingerprints generalizing votes after with
  | nil =>
    cases h
    exact ⟨fun _ hmem => (nomatch hmem), rfl⟩
  | cons first rest ih =>
    rcases hfirst : first.observe table digits f with ⟨answer, seen⟩
    rcases hothers : observeAll table digits f rest with ⟨outcome, others⟩
    rw [observeAll, hfirst, hothers] at h
    cases answer with
    | error _ => cases h
    | ok new =>
      cases outcome with
      | error _ => cases h
      | ok votes =>
        cases h
        obtain ⟨hvalues, hrecorded⟩ := ih hothers
        have hsize := Fingerprint.size_of_observe hfirst
        have hvalue : ∃ value, f.evaluate table first.values digits = .ok value := by
          rcases Fingerprint.observe_cases hfirst with ⟨_, -, hanswer, -⟩ | ⟨value, hvalue, -⟩ |
            ⟨value, hvalue, -⟩
          · cases hanswer
          · exact ⟨value, hvalue⟩
          · exact ⟨value, hvalue⟩
        refine ⟨List.forall_mem_cons.mpr ⟨hvalue, hvalues⟩, ?_⟩
        unfold recorded at hrecorded ⊢
        simp only [List.map_cons, List.sum_cons, hsize, hrecorded]
        cases new with
        | true =>
          simp only [Bool.toNat_true, if_true]
          omega
        | false =>
          simp only [Bool.toNat_false, Bool.false_eq_true, if_false]
          omega

/-- Where there is a vote, the formula has a number as its value. -/
theorem exists_number_of_votes_pos
    (h : observeAll table digits f fingerprints = (.ok votes, after)) (hpos : 0 < votes) :
    ∃ vector value, f.evaluate table vector digits = .ok value ∧ value.isNaN = false := by
  induction fingerprints generalizing votes after with
  | nil =>
    cases h
    exact absurd hpos (Nat.lt_irrefl 0)
  | cons first rest ih =>
    rcases hfirst : first.observe table digits f with ⟨answer, seen⟩
    rcases hothers : observeAll table digits f rest with ⟨outcome, others⟩
    rw [observeAll, hfirst, hothers] at h
    rcases Fingerprint.observe_cases hfirst with ⟨_, -, rfl, -⟩ | ⟨_, -, -, rfl, -⟩ |
      ⟨value, hvalue, hnumber, -⟩
    · cases h
    · -- a value that is no number is no vote
      cases outcome with
      | error _ => cases h
      | ok votes =>
        cases h
        exact ih hothers hpos
    · exact ⟨first.values, value, hvalue, hnumber⟩

/-- If all fingerprints answer, the votes are held against the threshold. -/
theorem offer_of_observeAll_eq_ok {filter : NoveltyFilter} (hsize : f.size = filter.slots)
    (h : observeAll filter.table filter.policy.digits f filter.fingerprints = (.ok votes, after)) :
    filter.offer f = (.ok (decide (filter.policy.threshold ≤ votes)), { filter with
      fingerprints := after
      offered := filter.offered + 1
      admitted := filter.admitted + (decide (filter.policy.threshold ≤ votes)).toNat }) := by
  unfold offer
  rw [if_neg (not_not_intro hsize), h]
  cases hadmits : decide (filter.policy.threshold ≤ votes) with
  | true => simp only [hadmits, if_true, Bool.toNat_true]
  | false => simp only [hadmits, Bool.false_eq_true, if_false, Bool.toNat_false, Nat.add_zero]

/-- A failure under some vector is the answer of the offer. -/
theorem offer_of_observeAll_eq_error {filter : NoveltyFilter} {error : FormulaError}
    (hsize : f.size = filter.slots)
    (h : observeAll filter.table filter.policy.digits f filter.fingerprints = (.error error, after)) :
    filter.offer f = (.error (.evaluation error), { filter with fingerprints := after }) := by
  unfold offer
  rw [if_neg (not_not_intro hsize), h]

/-- The fingerprints of a filter over some slots are asked as a rule says. They may have seen any
values before. -/
structure Asks (filter : NoveltyFilter) (slots : ℕ) (rule : AdmissionRule) : Prop where
  slots_eq : filter.slots = slots
  table_eq : filter.table = rule.table
  policy_eq : filter.policy = rule.policy
  length_eq : ∀ vector ∈ rule.vectors, vector.length = slots
  values_eq : filter.fingerprints.map Fingerprint.values = rule.vectors

section

variable {filter : NoveltyFilter} {rule : AdmissionRule} {shown : List Formula}

/-- A filter that was offered formulas asks its fingerprints as its rule says. -/
theorem Remembers.asks (h : filter.Remembers slots rule shown) : filter.Asks slots rule :=
  ⟨h.slots_eq, h.table_eq, h.policy_eq, h.length_eq, h.values_eq⟩

/-- Every vector of a filter has a value for each slot. -/
theorem Asks.length_values (h : filter.Asks slots rule) :
    ∀ fingerprint ∈ filter.fingerprints, fingerprint.values.length = slots := by
  intro fingerprint hmem
  apply h.length_eq
  rw [← h.values_eq]
  exact List.mem_map_of_mem hmem

/-- An offer fails and leaves the filter as it was, or it is answered by the votes. It is answered
exactly when the candidate has the right size and a value under every vector. -/
theorem Asks.offer_cases (h : filter.Asks slots rule) (f : Formula) :
    (∃ error, filter.offer f = (.error error, filter) ∧ ¬ (f.size = slots ∧ rule.Evaluates f)) ∨
    ∃ votes after, observeAll filter.table filter.policy.digits f filter.fingerprints =
        (.ok votes, after) ∧
      filter.offer f = (.ok (decide (filter.policy.threshold ≤ votes)), { filter with
        fingerprints := after
        offered := filter.offered + 1
        admitted := filter.admitted + (decide (filter.policy.threshold ≤ votes)).toNat }) ∧
      f.size = slots ∧ rule.Evaluates f := by
  by_cases hsize : f.size = slots
  · have hslots : f.size = filter.slots := hsize.trans h.slots_eq.symm
    have hevery : rule.Evaluates f ↔ ∀ fingerprint ∈ filter.fingerprints, ∃ value,
        f.evaluate filter.table fingerprint.values filter.policy.digits = .ok value := by
      unfold AdmissionRule.Evaluates
      rw [h.table_eq, h.policy_eq, ← h.values_eq, List.forall_mem_map]
    rcases hall : observeAll filter.table filter.policy.digits f filter.fingerprints with
      ⟨outcome, fingerprints⟩
    cases outcome with
    | error error =>
      have hoffer := offer_of_observeAll_eq_error hslots hall
      obtain rfl := eq_of_observeAll_eq_error h.length_values hall
      refine Or.inl ⟨_, hoffer, fun hboth => ?_⟩
      obtain ⟨votes, after, hok⟩ := exists_observeAll_eq_ok (hevery.mp hboth.2)
      rw [hall] at hok
      cases hok
    | ok votes =>
      have hvalues := (of_observeAll_eq_ok hall).1
      have hoffer := offer_of_observeAll_eq_ok hslots hall
      exact Or.inr ⟨votes, fingerprints, rfl, hoffer, hsize, hevery.mpr hvalues⟩
  · exact Or.inl ⟨_, if_pos fun heq => hsize (heq.trans h.slots_eq), fun hboth => hsize hboth.1⟩

end

/-- What an offer that is answered does to a filter: the formula is remembered, the counts go up,
and there is a key more for every vote. -/
structure Answered (filter after : NoveltyFilter) (slots : ℕ) (rule : AdmissionRule)
    (shown : List Formula) (f : Formula) : Prop where
  size_eq : f.size = slots
  evaluates : rule.Evaluates f
  remembers : after.Remembers slots rule (shown ++ [f])
  offered_eq : after.offered = filter.offered + 1
  admitted_eq : after.admitted = filter.admitted + (rule.admits shown f).toNat
  recorded_eq : recorded after.fingerprints = recorded filter.fingerprints + rule.votes shown f

/-- An offer fails and leaves the filter as it was, or it is answered as the rule says. The first
happens when the formula has another size or has no value under some vector. -/
theorem Remembers.offer_cases {filter : NoveltyFilter} {rule : AdmissionRule}
    {shown : List Formula} (h : filter.Remembers slots rule shown) (f : Formula) :
    (∃ error, filter.offer f = (.error error, filter) ∧ ¬ (f.size = slots ∧ rule.Evaluates f)) ∨
    ∃ after, filter.offer f = (.ok (rule.admits shown f), after) ∧
      filter.Answered after slots rule shown f := by
  rcases h.asks.offer_cases f with hfails |
    ⟨votes, fingerprints, hall, hoffer, hsize, hevaluates⟩
  · exact Or.inl hfails
  · obtain ⟨hvalues, hrecorded⟩ := of_observeAll_eq_ok hall
    rw [h.table_eq, h.policy_eq] at hvalues hall
    obtain ⟨_, hvotes, hvectors, hremembers⟩ := observeAll_eq_ok h.remembers hvalues
    rw [hall, h.values_eq] at hvotes
    cases hvotes
    rw [h.policy_eq] at hoffer
    exact Or.inr ⟨_, hoffer, hsize, hevaluates, ⟨h.slots_eq, h.table_eq, rfl, h.length_eq,
      hvectors.trans h.values_eq, hremembers⟩, rfl, rfl, hrecorded⟩

end NoveltyFilter

end Formulary
