import Formulary.Proofs.Formula.Evaluation
import Formulary.Proofs.Search.Scheduling
import Formulary.Proofs.Store.Backing

/-!
# Searches that do not fail

An index that gives back a list of formulas, all of which fit its slots and its table, has a value
at every position for values that pass the check. So no search over it fails but for a target that
is not finite. Whatever course a search for all solutions takes, it gives solutions at positions in
their order, as many as are wanted or as there are. If there are no more than are wanted, the course
does not matter.
-/

namespace Formulary

/-- Values pass the check exactly when there are as many as expected and all are finite. -/
theorem validateValues_eq_ok_iff {values : List Float} {expected : ℕ} :
    validateValues values expected = .ok () ↔
      values.length = expected ∧ ∀ value ∈ values, value.isFinite = true := by
  unfold validateValues
  by_cases hlength : values.length = expected
  · rw [if_neg (not_not_intro hlength)]
    split
    · next value position hfound =>
      have hmem := List.fst_mem_of_mem_zipIdx (List.mem_of_find?_eq_some hfound)
      have hinfinite : value.isFinite = false := by
        simpa using List.find?_some hfound
      refine ⟨by simp, fun h => ?_⟩
      rw [h.2 value hmem] at hinfinite
      contradiction
    · next hfound =>
      rw [List.find?_eq_none] at hfound
      refine ⟨fun _ => ⟨hlength, fun value hvalue => ?_⟩, fun _ => rfl⟩
      obtain ⟨position, hposition⟩ := List.mem_iff_getElem?.mp hvalue
      have hentry : (value, position) ∈ values.zipIdx := List.mk_mem_zipIdx_iff_getElem?.mpr hposition
      simpa using hfound _ hentry
  · rw [if_pos hlength]
    exact ⟨by simp, fun h => absurd h.1 hlength⟩

/-- An index that gives back a list of formulas, all of which fit its slots and its table. -/
structure Index.Reads {β : Type} (index : Index β) (formulas : List Formula) : Prop where
  length_eq : index.length = formulas.length
  get_eq : ∀ position, (index.get position).toOption = formulas[position]?
  fits : ∀ f ∈ formulas, f.Fits index.table index.slots

/-- The index of a run is the table with the set at the end of the run. -/
theorem Index.generate_eq (entropy : Entropy) (request : Request) (table : OperatorTable) :
    (Index.generate entropy request table).1 =
      ((Formulary.generate entropy request table).1.mapError .generation).map (⟨table, ·⟩) := by
  unfold Index.generate
  rcases Formulary.generate entropy request table with ⟨outcome, warnings⟩
  cases outcome with
  | error error => rfl
  | ok store => rfl

/-- What a store holds is given back by the index over it. -/
theorem Store.Holds.reads {β : Type} {store : Store β} {table : OperatorTable} {slots : ℕ}
    {formulas : List Formula} (h : store.Holds table slots formulas)
    (hfits : ∀ f ∈ formulas, f.Fits table slots) : Index.Reads ⟨table, store⟩ formulas := by
  obtain rfl := h.slots_eq
  exact ⟨h.length_eq, h.toOption_get, hfits⟩

namespace Search

/-- The solutions at all positions of an index, in their order. -/
def matching {β : Type} (index : Index β) (config : SearchConfig) (values : List Float)
    (target : Float) : List Solution :=
  (List.range index.length).filterMap (foundBy (solutionAt index config values target))

/-- If no probe fails, neither does the search for what is found first. -/
theorem exists_firstOf {probe : ℕ → Except SearchError (Option Solution)} {positions : List ℕ}
    (h : ∀ position ∈ positions, ∃ found, probe position = .ok found) :
    ∃ first, firstOf probe positions = .ok first := by
  induction positions with
  | nil => exact ⟨none, rfl⟩
  | cons position rest ih =>
    obtain ⟨found, hfound⟩ := h position List.mem_cons_self
    rw [firstOf, hfound]
    cases found with
    | none => exact ih fun other hother => h other (List.mem_cons_of_mem position hother)
    | some solution => exact ⟨some solution, rfl⟩

/-- With values that pass the check, only a target that is not finite is refused. -/
theorem checkInputs_eq {β : Type} {index : Index β} {values : List Float} {target : Float}
    (hvalues : validateValues values index.slots = .ok ()) :
    checkInputs index values target =
      if target.isFinite then .ok () else .error (.invalidTarget target) := by
  unfold checkInputs
  rw [hvalues]
  cases target.isFinite with
  | true => rfl
  | false => rfl

end Search

namespace Index.Reads

open Search

variable {β : Type} {index : Index β} {formulas : List Formula} {values : List Float} {f : Formula}
  {position : ℕ} {target : Float}

/-- There is a value at every position. -/
theorem valueAt_eq_ok (h : index.Reads formulas) (config : SearchConfig)
    (hvalues : values.length = index.slots) (hf : formulas[position]? = some f) :
    ∃ value, f.evaluate index.table values config.digits = .ok value ∧
      valueAt index config values position = .ok (f, value) := by
  have hget : index.get position = .ok f :=
    Outcome.toOption_eq_some_iff.mp ((h.get_eq position).trans hf)
  have hfits : f.Fits index.table values.length :=
    hvalues ▸ h.fits f (List.mem_of_getElem? hf)
  obtain ⟨value, hvalue⟩ := hfits.exists_evaluate_eq_ok config.digits
  refine ⟨value, hvalue, ?_⟩
  unfold valueAt
  rw [hget]
  simp only [bind, Except.bind, Except.mapError, hvalue]
  rfl

/-- At every position there is a solution or none, according to the value there. -/
theorem solutionAt_eq_ok (h : index.Reads formulas) (config : SearchConfig) (target : Float)
    (hvalues : values.length = index.slots) (hf : formulas[position]? = some f) :
    ∃ value, f.evaluate index.table values config.digits = .ok value ∧
      solutionAt index config values target position =
        .ok (if isWithin config.tolerance value target then
          some ⟨position, f, values, target, value, index.table⟩ else none) := by
  obtain ⟨value, hvalue, hat⟩ := h.valueAt_eq_ok config hvalues hf
  refine ⟨value, hvalue, ?_⟩
  unfold solutionAt
  rw [hat]
  rfl

/-- Every position below the length is that of a formula. -/
theorem exists_getElem? (h : index.Reads formulas) (hposition : position ∈ List.range index.length) :
    ∃ f, formulas[position]? = some f := by
  rw [List.mem_range, h.length_eq] at hposition
  exact ⟨_, List.getElem?_eq_getElem hposition⟩

/-- No probe fails. -/
theorem exists_solutionAt (h : index.Reads formulas) (config : SearchConfig) (target : Float)
    (hvalues : values.length = index.slots) :
    ∀ position ∈ List.range index.length,
      ∃ found, solutionAt index config values target position = .ok found := by
  intro position hposition
  obtain ⟨f, hf⟩ := h.exists_getElem? hposition
  obtain ⟨value, -, hat⟩ := h.solutionAt_eq_ok config target hvalues hf
  exact ⟨_, hat⟩

/-- What is found at a position is the formula there with its value, which matches the target. -/
theorem of_foundBy {config : SearchConfig} {target : Float} {solution : Solution} (h : index.Reads formulas)
    (hvalues : values.length = index.slots) (hposition : position ∈ List.range index.length)
    (hfound : foundBy (solutionAt index config values target) position = some solution) :
    formulas[position]? = some solution.formula ∧
      solution.formula.evaluate index.table values config.digits = .ok solution.value ∧
      isWithin config.tolerance solution.value target = true ∧
      solution = ⟨position, solution.formula, values, target, solution.value, index.table⟩ := by
  obtain ⟨f, hf⟩ := h.exists_getElem? hposition
  obtain ⟨value, hvalue, hat⟩ := h.solutionAt_eq_ok config target hvalues hf
  rw [foundBy, hat] at hfound
  by_cases hwithin : isWithin config.tolerance value target = true
  · rw [if_pos hwithin] at hfound
    cases hfound
    exact ⟨hf, hvalue, hwithin, rfl⟩
  · rw [if_neg hwithin] at hfound
    cases hfound

/-- The solutions at all positions stand in the order of their positions. -/
theorem pairwise_position (h : index.Reads formulas) (config : SearchConfig) (target : Float)
    (hvalues : values.length = index.slots) :
    (matching index config values target).Pairwise
      fun first second => first.position < second.position := by
  have hposition {position : ℕ} {solution : Solution} (hrange : position ∈ List.range index.length)
      (hfound : foundBy (solutionAt index config values target) position = some solution) :
      solution.position = position := by
    obtain ⟨-, -, -, hsolution⟩ := h.of_foundBy hvalues hrange hfound
    rw [hsolution]
  rw [matching, List.pairwise_filterMap]
  refine List.pairwise_lt_range.imp_of_mem fun hfirst hsecond hlt first hfound second hfound' => ?_
  rwa [hposition hfirst hfound, hposition hsecond hfound']

/-- A search for all solutions in any course gives solutions in the order of their positions, as many
as are wanted or as there are. It fails only if the target is not finite. -/
theorem findAllBy_cases (h : index.Reads formulas) (schedule : Schedule index.length)
    (config : SearchConfig) (target : Float) (hvalues : validateValues values index.slots = .ok ()) :
    (target.isFinite = true ∧ ∃ solutions,
      findAllBy index schedule config values target = .ok solutions ∧
      solutions.Sublist (matching index config values target) ∧
      solutions.length = min config.maxSolutions (matching index config values target).length) ∨
    (target.isFinite = false ∧
      findAllBy index schedule config values target = .error (.invalidTarget target)) := by
  have hlength := (validateValues_eq_ok_iff.mp hvalues).1
  unfold findAllBy
  rw [checkInputs_eq hvalues]
  cases target.isFinite with
  | false => exact Or.inr ⟨rfl, rfl⟩
  | true =>
    rcases schedule.run_cases (solutionAt index config values target) config.maxSolutions with
      ⟨position, hposition, error, herror, -⟩ | ⟨last, hrun, hsubperm, hcount⟩
    · obtain ⟨found, hfound⟩ :=
        h.exists_solutionAt config target hlength position (List.mem_range.mpr hposition)
      cases hfound.symm.trans herror
    · refine Or.inl ⟨rfl, sortByPosition last.filed, ?_,
        sortByPosition_sublist hsubperm (h.pairwise_position config target hlength),
        (List.mergeSort_perm last.filed _).length_eq.trans hcount⟩
      simp only [if_true, bind, Except.bind, hrun]
      rfl

/-- If no more formulas match than are wanted, a search in any course gives all of them. -/
theorem findAllBy_eq_matching (h : index.Reads formulas) (schedule : Schedule index.length)
    {config : SearchConfig} (hvalues : validateValues values index.slots = .ok ())
    (htarget : target.isFinite = true)
    (hfew : (matching index config values target).length ≤ config.maxSolutions) :
    findAllBy index schedule config values target = .ok (matching index config values target) := by
  rcases h.findAllBy_cases schedule config target hvalues with
    ⟨-, solutions, hfound, hsublist, hcount⟩ | ⟨hinfinite, -⟩
  · rw [hfound, hsublist.eq_of_length (hcount.trans (Nat.min_eq_right hfew))]
  · cases htarget.symm.trans hinfinite

/-- A search for the first solution fails only if the target is not finite. -/
theorem findFirst_cases (h : index.Reads formulas) (config : SearchConfig) (target : Float)
    (hvalues : validateValues values index.slots = .ok ()) :
    (target.isFinite = true ∧ ∃ first, findFirst index config values target = .ok first) ∨
      (target.isFinite = false ∧
        findFirst index config values target = .error (.invalidTarget target)) := by
  have hlength := (validateValues_eq_ok_iff.mp hvalues).1
  unfold findFirst
  rw [checkInputs_eq hvalues]
  cases target.isFinite with
  | false => exact Or.inr ⟨rfl, rfl⟩
  | true => exact Or.inl ⟨rfl, exists_firstOf (h.exists_solutionAt config target hlength)⟩

/-- No search for solutions fails but for a target that is not finite. -/
theorem target_of_error {config : SearchConfig} {target : Float} {error : SearchError}
    (h : index.Reads formulas)
    (hvalues : validateValues values index.slots = .ok ())
    (herror : findAll index config values target = .error error ∨
      findFirst index config values target = .error error) :
    target.isFinite = false ∧ error = .invalidTarget target := by
  rcases herror with herror | herror
  · rcases h.findAllBy_cases (.inOrder index.length) config target hvalues with
      ⟨-, solutions, hfound, -⟩ | ⟨hinfinite, hrefused⟩
    · cases herror.symm.trans hfound
    · exact ⟨hinfinite, Except.error.inj (herror.symm.trans hrefused)⟩
  · rcases h.findFirst_cases config target hvalues with
      ⟨-, first, hfirst⟩ | ⟨hinfinite, hrefused⟩
    · cases herror.symm.trans hfirst
    · exact ⟨hinfinite, Except.error.inj (herror.symm.trans hrefused)⟩

/-- The integers that are reached can always be listed. -/
theorem exists_reachableIntegers (h : index.Reads formulas) (config : SearchConfig)
    (hvalues : validateValues values index.slots = .ok ()) (low high : ℤ) :
    ∃ reached, reachableIntegers index config values low high = .ok reached := by
  have hlength := (validateValues_eq_ok_iff.mp hvalues).1
  have hstep : ∀ position ∈ List.range index.length, ∀ reached, ∃ more,
      addReached index config values low high reached position = .ok more := by
    intro position hposition reached
    obtain ⟨f, hf⟩ := h.exists_getElem? hposition
    obtain ⟨value, -, hat⟩ := h.valueAt_eq_ok config hlength hf
    unfold addReached
    rw [hat]
    exact ⟨_, rfl⟩
  unfold reachableIntegers
  rw [hvalues]
  exact Outcome.exists_foldlM hstep ∅

end Index.Reads

end Formulary
