import Formulary.Proofs.Admission.History

/-!
# Offers that fail

A filter may be made over fingerprints that have seen values before, and any candidates may be
offered to it, whatever their lists hold. All that an offer relies on is that every vector has a
value for each slot, and this stays so.

An offer fails if the candidate has another size or if its evaluation fails under some vector;
which values were seen before does not matter. It then leaves the filter as it was, so a run can
be repeated without the candidates whose offers failed.
-/

namespace Formulary.NoveltyFilter

variable {filter : NoveltyFilter} {slots digits votes : ℕ} {table : OperatorTable} {policy : Policy}
  {rule : AdmissionRule} {f : Formula} {fingerprints after : List Fingerprint}

/-- What a filter is made of is how its fingerprints are asked. -/
theorem asks_of_ofFingerprints
    (h : ofFingerprints slots policy table fingerprints = .ok filter) :
    filter.Asks slots ⟨table, policy, fingerprints.map Fingerprint.values⟩ := by
  obtain ⟨-, -, hlength, rfl⟩ := eq_of_ofFingerprints h
  exact ⟨rfl, rfl, rfl, List.forall_mem_map.mpr hlength, rfl⟩

/-- Observing a formula does not change a vector. -/
theorem values_observe (fingerprint : Fingerprint) (table : OperatorTable) (digits : ℕ)
    (f : Formula) : (fingerprint.observe table digits f).2.values = fingerprint.values := by
  rcases hobserve : fingerprint.observe table digits f with ⟨answer, after⟩
  rcases Fingerprint.observe_cases hobserve with ⟨_, -, -, rfl⟩ | ⟨_, -, -, -, rfl⟩ |
    ⟨_, -, -, -, rfl⟩
  · rfl
  · rfl
  · rfl

/-- Showing a formula to all fingerprints does not change the vectors. -/
theorem map_values_observeAll (table : OperatorTable) (digits : ℕ) (f : Formula)
    (fingerprints : List Fingerprint) :
    (observeAll table digits f fingerprints).2.map Fingerprint.values =
      fingerprints.map Fingerprint.values := by
  induction fingerprints with
  | nil => rfl
  | cons first rest ih =>
    have hfirst := values_observe first table digits f
    rcases hobserve : first.observe table digits f with ⟨answer, seen⟩
    rcases hothers : observeAll table digits f rest with ⟨outcome, others⟩
    rw [hobserve] at hfirst
    rw [hothers] at ih
    rw [observeAll, hobserve, hothers]
    cases answer with
    | error error => exact congrArg (· :: _) hfirst
    | ok new =>
      cases outcome with
      | error error => exact congrArg₂ List.cons hfirst ih
      | ok votes => exact congrArg₂ List.cons hfirst ih

/-- An offer does not change how fingerprints are asked. -/
theorem Asks.offer (h : filter.Asks slots rule) (f : Formula) :
    (filter.offer f).2.Asks slots rule := by
  have hvalues := (map_values_observeAll filter.table filter.policy.digits f
    filter.fingerprints).trans h.values_eq
  unfold NoveltyFilter.offer
  split
  · exact h
  · split
    · next hall =>
      rw [hall] at hvalues
      exact ⟨h.slots_eq, h.table_eq, h.policy_eq, h.length_eq, hvalues⟩
    · next hall =>
      rw [hall] at hvalues
      exact ⟨h.slots_eq, h.table_eq, h.policy_eq, h.length_eq, hvalues⟩

/-- No candidates change how fingerprints are asked. -/
theorem Asks.afterOffering (h : filter.Asks slots rule) (candidates : List Formula) :
    (filter.afterOffering candidates).Asks slots rule := by
  induction candidates generalizing filter with
  | nil => exact h
  | cons f rest ih => exact ih (h.offer f)

/-- An offer that fails leaves the filter as it was. -/
theorem Asks.offer_of_error (h : filter.Asks slots rule) {error : AdmissionError}
    (hoffer : (filter.offer f).1 = .error error) : (filter.offer f).2 = filter := by
  rcases h.offer_cases f with ⟨_, hfails, -⟩ | ⟨_, _, -, hanswers, -⟩
  · rw [hfails]
  · rw [hanswers] at hoffer
    cases hoffer

/-- An offer fails exactly when the candidate has another size or no value under some vector. -/
theorem Asks.exists_error_iff (h : filter.Asks slots rule) :
    (∃ error, (filter.offer f).1 = .error error) ↔ ¬ (f.size = slots ∧ rule.Evaluates f) := by
  rcases h.offer_cases f with ⟨error, hfails, hnot⟩ | ⟨_, _, -, hanswers, hboth⟩
  · rw [hfails]
    exact ⟨fun _ => hnot, fun _ => ⟨error, rfl⟩⟩
  · rw [hanswers]
    exact ⟨fun ⟨_, hanswer⟩ => (nomatch hanswer), fun hnot => absurd hboth hnot⟩

/-- The candidates whose offers failed can be left out of a run. -/
theorem Asks.afterOffering_answered (h : filter.Asks slots rule) (candidates : List Formula) :
    filter.afterOffering (answeredIn (filter.calls candidates)) = filter.afterOffering candidates := by
  induction candidates generalizing filter with
  | nil => rfl
  | cons f rest ih =>
    have hrest := ih (h.offer f)
    cases hanswer : (filter.offer f).1 with
    | error error =>
      have hskipped : answeredIn (filter.calls (f :: rest)) =
          answeredIn ((filter.offer f).2.calls rest) := by
        rw [calls, hanswer]
        rfl
      rw [hskipped, NoveltyFilter.afterOffering, ← hrest, h.offer_of_error hanswer]
    | ok admitted =>
      have hkept : answeredIn (filter.calls (f :: rest)) =
          f :: answeredIn ((filter.offer f).2.calls rest) := by
        rw [calls, hanswer]
        rfl
      rw [hkept, NoveltyFilter.afterOffering, NoveltyFilter.afterOffering, hrest]

/-- Whatever fingerprints a filter is made over and whatever was offered to it, an offer that fails
leaves the filter as it was before: no seen set has grown and no count has changed. An offer fails
exactly when the candidate has another size or its evaluation fails under some vector, and a run
without the candidates whose offers failed ends in the same filter. -/
theorem offer_error_leaves_filter
    (hfilter : ofFingerprints slots policy table fingerprints = .ok filter)
    (candidates : List Formula) :
    let before := filter.afterOffering candidates
    (∀ f error, (before.offer f).1 = .error error → (before.offer f).2 = before) ∧
    (∀ f, (∃ error, (before.offer f).1 = .error error) ↔ f.size ≠ slots ∨
      ∃ fingerprint ∈ fingerprints, ∃ error,
        f.evaluate table fingerprint.values policy.digits = .error error) ∧
    filter.afterOffering (answeredIn (filter.calls candidates)) = before := by
  intro before
  have hfresh := asks_of_ofFingerprints hfilter
  have hbefore : before.Asks slots _ := hfresh.afterOffering candidates
  refine ⟨fun f error => hbefore.offer_of_error, fun f => ?_,
    hfresh.afterOffering_answered candidates⟩
  rw [hbefore.exists_error_iff, not_and_or]
  refine or_congr_right ?_
  unfold AdmissionRule.Evaluates
  rw [List.forall_mem_map]
  simp only [not_forall, exists_prop]
  refine exists_congr fun fingerprint => and_congr_right fun _ => ?_
  cases f.evaluate table fingerprint.values policy.digits with
  | error error => simp
  | ok value => simp

/-- A quotient by zero hides an unknown code under the first vector, not under the second. -/
theorem offer_error_leaves_filter_masked :
    let hidden : Formula := ⟨[0, 1, 2], [3, 9], [true, true, false, true, false]⟩
    let sum : Formula := ⟨[0, 1, 2], [0, 0], [true, true, false, true, false]⟩
    let policy : Policy := { fingerprints := 2, threshold := 1 }
    ∃ filter, ofFingerprints 3 policy .arithmetic
        ([[1.0, 0.0, 1.0], [1.0, 2.0, 1.0]].map .ofValues) = .ok filter ∧
      (∃ error, ((filter.afterOffering [sum]).offer hidden).1 = .error error) ∧
      ((filter.afterOffering [sum]).offer hidden).2 = filter.afterOffering [sum] := by
  intro hidden sum policy
  obtain ⟨filter, hfilter⟩ : ∃ filter, ofFingerprints 3 policy .arithmetic
      ([[1.0, 0.0, 1.0], [1.0, 2.0, 1.0]].map .ofValues) = .ok filter := ⟨_, rfl⟩
  have hunknown : hidden.evaluate .arithmetic [1.0, 2.0, 1.0] policy.digits =
      .error (.operator (.unknownCode 9)) := by decide +kernel
  obtain ⟨hleaves, hfails, -⟩ := offer_error_leaves_filter hfilter [sum]
  obtain ⟨error, herror⟩ :=
    (hfails hidden).mpr (Or.inr ⟨.ofValues [1.0, 2.0, 1.0], by simp, _, hunknown⟩)
  exact ⟨filter, hfilter, ⟨error, herror⟩, hleaves hidden error herror⟩

end Formulary.NoveltyFilter
