import Formulary.Store.Filtered
import Formulary.Proofs.Admission.Novelty
import Formulary.Proofs.Store.Contents

/-!
# Sets hold what their rule admits

Candidates that fit a set are never refused with an error. After they were offered, the store
holds exactly those that the rule of the filter admits, in the order in which they were offered.
-/

namespace Formulary.FilteredStore

variable {β : Type} {set : FilteredStore β} {slots : ℕ} {rule : AdmissionRule}
  {offered : List Formula} {f : Formula}

/-- A set over some slots, of a given rule, to which candidates were offered. -/
structure Offered (set : FilteredStore β) (slots : ℕ) (rule : AdmissionRule)
    (offered : List Formula) : Prop where
  store : set.store.Holds rule.table slots (rule.admissions offered)
  filter : set.filter.Remembers slots rule offered

/-- A candidate that fits is stored if it is admitted. -/
theorem Offered.offer_eq_ok (h : set.Offered slots rule offered) (hfits : f.Fits rule.table slots) :
    ∃ after, set.offer f = (.ok (rule.admits offered f), after) ∧
      after.Offered slots rule (offered ++ [f]) := by
  obtain ⟨filter, hoffer, hfilter⟩ := h.filter.offer_eq_ok hfits.size_eq (h.filter.evaluates hfits)
  have hadmissions := rule.admissions_append_singleton offered f
  unfold offer
  rw [hoffer]
  cases hadmits : rule.admits offered f with
  | false =>
    refine ⟨⟨set.store, filter⟩, rfl, ?_, hfilter⟩
    rw [hadmissions, hadmits]
    simpa using h.store
  | true =>
    obtain ⟨store, hpush, hstore⟩ := h.store.push_eq_ok hfits
    refine ⟨⟨store, filter⟩, ?_, ?_, hfilter⟩
    · simp only [hpush]
    · rw [hadmissions, hadmits]
      exact hstore

/-- Candidates that all fit can be offered one after another. -/
theorem Offered.offerAll_eq_ok (h : set.Offered slots rule offered) {candidates : List Formula}
    (hfits : ∀ f ∈ candidates, f.Fits rule.table slots) :
    ∃ after, set.offerAll candidates = .ok after ∧
      after.Offered slots rule (offered ++ candidates) := by
  induction candidates generalizing set offered with
  | nil => exact ⟨set, rfl, by simpa using h⟩
  | cons first rest ih =>
    obtain ⟨next, hfirst, hnext⟩ := h.offer_eq_ok (hfits first List.mem_cons_self)
    obtain ⟨after, hrest, hafter⟩ :=
      ih hnext fun other hother => hfits other (List.mem_cons_of_mem first hother)
    refine ⟨after, ?_, ?_⟩
    · rw [offerAll, hfirst]
      exact hrest
    · rwa [List.append_assoc, List.singleton_append] at hafter

/-- Offering two lists one after the other is offering all of them. -/
theorem offerAll_append (set : FilteredStore β) (first second : List Formula) :
    set.offerAll (first ++ second) = set.offerAll first >>= fun set => set.offerAll second := by
  induction first generalizing set with
  | nil => rfl
  | cons f rest ih =>
    rw [List.cons_append, offerAll, offerAll]
    split
    · rfl
    · exact ih _

/-- Offering a candidate leaves what lies behind the store as it is. -/
theorem backing_offer (set : FilteredStore β) (f : Formula) :
    (set.offer f).2.store.backing = set.store.backing := by
  unfold offer
  split
  · rfl
  · rfl
  · have hpush := Store.backing_push set.store f
    split
    · next hfails => rwa [hfails] at hpush
    · next hstored => rwa [hstored] at hpush

/-- Offering candidates leaves what lies behind the store as it is. -/
theorem backing_offerAll {set after : FilteredStore β} {candidates : List Formula}
    (h : set.offerAll candidates = .ok after) : after.store.backing = set.store.backing := by
  induction candidates generalizing set with
  | nil =>
    cases h
    rfl
  | cons first rest ih =>
    have hfirst := set.backing_offer first
    rw [offerAll] at h
    split at h
    · cases h
    · next hoffer =>
      rw [hoffer] at hfirst
      exact (ih h).trans hfirst

end Formulary.FilteredStore
