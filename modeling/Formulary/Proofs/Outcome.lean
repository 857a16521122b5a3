import Mathlib.Tactic.Common

/-!
# Computations that can fail

When a chain of computations that can fail succeeds, each of its steps has succeeded. The lemmas
here take such a chain apart, and put the outcomes for the elements of a list together.
-/

namespace Formulary.Outcome

variable {ε ε' α β : Type}

/-- A chain of two computations succeeds exactly when both do, one on the result of the other. -/
theorem bind_eq_ok_iff {x : Except ε α} {f : α → Except ε β} {b : β} :
    (x >>= f) = .ok b ↔ ∃ a, x = .ok a ∧ f a = .ok b := by
  cases x with
  | error error => simp [bind, Except.bind]
  | ok a => simp [bind, Except.bind]

/-- A chain of two computations fails exactly when one of them does, the first one first. -/
theorem bind_eq_error_iff {x : Except ε α} {f : α → Except ε β} {error : ε} :
    (x >>= f) = .error error ↔ x = .error error ∨ ∃ a, x = .ok a ∧ f a = .error error := by
  cases x with
  | error other => simp [bind, Except.bind]
  | ok a => simp [bind, Except.bind]

/-- Renaming errors neither adds nor removes results. -/
theorem mapError_eq_ok_iff {x : Except ε α} {f : ε → ε'} {a : α} :
    x.mapError f = .ok a ↔ x = .ok a := by
  cases x with
  | error error => simp [Except.mapError]
  | ok b => simp [Except.mapError]

/-- A renamed error is the new name of an error. -/
theorem mapError_eq_error_iff {x : Except ε α} {f : ε → ε'} {error : ε'} :
    x.mapError f = .error error ↔ ∃ old, x = .error old ∧ f old = error := by
  cases x with
  | error old => simp [Except.mapError]
  | ok b => simp [Except.mapError]

/-- A result that is put into another form is there exactly when the first one is. -/
theorem map_eq_ok_iff {x : Except ε α} {f : α → β} {b : β} :
    x.map f = .ok b ↔ ∃ a, x = .ok a ∧ f a = b := by
  cases x with
  | error error => simp [Except.map]
  | ok a => simp [Except.map]

/-- What is left when errors are forgotten is the result. -/
theorem toOption_eq_some_iff {x : Except ε α} {a : α} : x.toOption = some a ↔ x = .ok a := by
  cases x with
  | error error => simp [Except.toOption]
  | ok b => simp [Except.toOption]

/-- The errors of a chain can be renamed step by step. -/
theorem mapError_bind {x : Except ε α} {g : α → Except ε β} {f : ε → ε'} :
    (x >>= g).mapError f = x.mapError f >>= fun a => (g a).mapError f := by
  cases x with
  | error error => rfl
  | ok a => rfl

/-- Only what a computation does on the elements of a list matters on the list. -/
theorem mapM_congr {f g : α → Except ε β} {items : List α}
    (h : ∀ item ∈ items, f item = g item) : items.mapM f = items.mapM g := by
  induction items with
  | nil => rfl
  | cons item rest ih =>
    have hrest := ih fun other hother => h other (List.mem_cons_of_mem item hother)
    rw [List.mapM_cons, List.mapM_cons, h item List.mem_cons_self, hrest]

/-- If a computation succeeds on every element of a list, it succeeds on the list. -/
theorem mapM_eq_ok_map {f : α → Except ε β} {g : α → β} {items : List α}
    (h : ∀ item ∈ items, f item = .ok (g item)) : items.mapM f = .ok (items.map g) := by
  induction items with
  | nil => rfl
  | cons item rest ih =>
    have hitem := h item List.mem_cons_self
    have hrest := ih fun other hother => h other (List.mem_cons_of_mem item hother)
    rw [List.mapM_cons, hitem, hrest]
    rfl

/-- If a computation succeeds on a list, the results are those for the elements one by one. -/
theorem map_eq_of_mapM_eq_ok {f : α → Except ε β} {items : List α} {results : List β}
    (h : items.mapM f = .ok results) : items.map f = results.map .ok := by
  induction items generalizing results with
  | nil =>
    cases h
    rfl
  | cons first rest ih =>
    rw [List.mapM_cons] at h
    obtain ⟨result, hfirst, h⟩ := bind_eq_ok_iff.mp h
    obtain ⟨others, hrest, h⟩ := bind_eq_ok_iff.mp h
    cases h
    rw [List.map_cons, List.map_cons, hfirst, ih hrest]

/-- If a computation succeeds on a list, it succeeds on every element. -/
theorem exists_of_mapM_eq_ok {f : α → Except ε β} {items : List α} {results : List β}
    (h : items.mapM f = .ok results) : ∀ item ∈ items, ∃ result, f item = .ok result := by
  intro item hmem
  have hresult : f item ∈ results.map Except.ok :=
    map_eq_of_mapM_eq_ok h ▸ List.mem_map_of_mem hmem
  obtain ⟨result, -, heq⟩ := List.mem_map.mp hresult
  exact ⟨result, heq.symm⟩

/-- A computation succeeds on a list exactly when it succeeds on every element. -/
theorem exists_mapM_eq_ok_iff {f : α → Except ε β} {items : List α} :
    (∃ results, items.mapM f = .ok results) ↔ ∀ item ∈ items, ∃ result, f item = .ok result := by
  constructor
  · rintro ⟨results, h⟩
    exact exists_of_mapM_eq_ok h
  · intro h
    induction items with
    | nil => exact ⟨[], rfl⟩
    | cons item rest ih =>
      obtain ⟨result, hresult⟩ := h item List.mem_cons_self
      obtain ⟨others, hothers⟩ := ih fun other hother => h other (List.mem_cons_of_mem item hother)
      refine ⟨result :: others, ?_⟩
      rw [List.mapM_cons, hresult, hothers]
      rfl

/-- What a computation gives for a list comes of the list's elements. -/
theorem exists_of_mem_of_mapM_eq_ok {f : α → Except ε β} {items : List α} {results : List β}
    (h : items.mapM f = .ok results) : ∀ result ∈ results, ∃ item ∈ items, f item = .ok result := by
  intro result hmem
  have hitem : Except.ok result ∈ items.map f :=
    map_eq_of_mapM_eq_ok h ▸ List.mem_map_of_mem hmem
  obtain ⟨item, hitem, heq⟩ := List.mem_map.mp hitem
  exact ⟨item, hitem, heq⟩

/-- If every step of a loop succeeds from every state, so does the loop. -/
theorem exists_foldlM {σ : Type} {step : σ → α → Except ε σ} {items : List α}
    (h : ∀ item ∈ items, ∀ state, ∃ next, step state item = .ok next) (start : σ) :
    ∃ last, items.foldlM step start = .ok last := by
  induction items generalizing start with
  | nil => exact ⟨start, rfl⟩
  | cons item rest ih =>
    obtain ⟨next, hnext⟩ := h item List.mem_cons_self start
    obtain ⟨last, hlast⟩ := ih (fun other hother => h other (List.mem_cons_of_mem item hother)) next
    refine ⟨last, ?_⟩
    rw [List.foldlM_cons, hnext]
    exact hlast

end Formulary.Outcome
