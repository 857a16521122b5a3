import Formulary.Proofs.Generation.Finished
import Formulary.Proofs.Search.Answers

/-!
# Formulas over given values

Looking for formulas over given values that match a target generates an index and searches it. For
one to eleven finite values the index can be generated whatever its fingerprint vectors are, and it
gives back formulas that all fit, so that the search cannot fail but for a target that is not finite.
What it finds are formulas of the index, at their positions, with the values that they have. This is
so for every course that the workers of the search take.
-/

namespace Formulary

variable {values : List Float} {target : Float} (entropy : Entropy)
  (schedule : (length : ℕ) → Search.Schedule length)

/-- What cannot be searched for: no values, too many, one that is not finite, or a target that is not
finite. -/
def BadInput (values : List Float) (target : Float) : Prop :=
  values = [] ∨ 11 < values.length ∨ (∃ value ∈ values, value.isFinite = false) ∨
    target.isFinite = false

instance (values : List Float) (target : Float) : Decidable (BadInput values target) :=
  inferInstanceAs (Decidable (values = [] ∨ 11 < values.length ∨
    (∃ value ∈ values, value.isFinite = false) ∨ target.isFinite = false))

/-- With finite values the index is generated and searched. -/
theorem findFormulasBy_eq (target : Float) (h : ∀ value ∈ values, value.isFinite = true) :
    findFormulasBy entropy schedule values target =
      ((Index.generate entropy { slots := values.length } .arithmetic).1 >>=
        fun index => Search.findAllBy index (schedule index.length) {} values target) := by
  have hvalues : validateValues values values.length = .ok () :=
    validateValues_eq_ok_iff.mpr ⟨rfl, h⟩
  unfold findFormulasBy
  rw [hvalues]
  rfl

/-- For one to eleven finite values there is an index, all of whose formulas fit, and the answer is
that of searching it. -/
theorem exists_index_of_findFormulasBy (target : Float)
    (h : ∀ value ∈ values, value.isFinite = true) (hpos : 1 ≤ values.length)
    (hle : values.length ≤ 11) :
    ∃ (index : Index WordFiles) (formulas : List Formula), index.Reads formulas ∧
      (Index.generate entropy { slots := values.length } .arithmetic).1 = .ok index ∧
      index.table = .arithmetic ∧ index.slots = values.length ∧
      findFormulasBy entropy schedule values target =
        Search.findAllBy index (schedule index.length) {} values target := by
  have hvalid : Request.validate { slots := values.length } = .ok () :=
    Request.validate_eq_ok_iff.mpr ⟨⟨hpos, hle⟩, rfl⟩
  obtain ⟨store, hstore⟩ := Generation.exists_generate_memory entropy .arithmetic hvalid rfl
  obtain ⟨formulas, hfinished⟩ := Generation.finished_of_generate hstore
  have hindex : (Index.generate entropy { slots := values.length } .arithmetic).1 =
      .ok ⟨.arithmetic, store⟩ := by
    rw [Index.generate_eq, hstore]
    rfl
  refine ⟨⟨.arithmetic, store⟩, formulas, hfinished.holds.reads hfinished.fits, hindex, rfl,
    hfinished.holds.slots_eq, ?_⟩
  rw [findFormulasBy_eq entropy schedule target h, hindex]
  rfl

/-- Bad input is refused: values that are not all finite by their check, a wrong number of values when
the index is generated, and a target that is not finite by the search. -/
theorem exists_error_of_badInput (h : BadInput values target) :
    ∃ error, findFormulasBy entropy schedule values target = .error error := by
  by_cases hfinite : ∀ value ∈ values, value.isFinite = true
  · by_cases hlength : values.length = 0 ∨ 11 < values.length
    · have hinvalid : Request.validate { slots := values.length } =
          .error (.invalidSize values.length) := if_pos hlength
      rw [findFormulasBy_eq entropy schedule target hfinite, Index.generate_eq,
        Generation.generate_of_validate_eq_error hinvalid]
      exact ⟨_, rfl⟩
    · have htarget : target.isFinite = false := by
        rcases h with rfl | hmany | ⟨value, hvalue, hinfinite⟩ | htarget
        · exact absurd (Or.inl rfl) hlength
        · exact absurd (Or.inr hmany) hlength
        · rw [hfinite value hvalue] at hinfinite
          cases hinfinite
        · exact htarget
      obtain ⟨index, formulas, hreads, -, -, hslots, hanswer⟩ :=
        exists_index_of_findFormulasBy entropy schedule target hfinite (by omega) (by omega)
      have hvalues : validateValues values index.slots = .ok () :=
        validateValues_eq_ok_iff.mpr ⟨hslots.symm, hfinite⟩
      rcases hreads.findAllBy_cases (schedule index.length) {} target hvalues with
        ⟨htarget', -⟩ | ⟨-, hrefused⟩
      · cases htarget.symm.trans htarget'
      · exact ⟨_, hanswer.trans hrefused⟩
  · cases hvalues : validateValues values values.length with
    | error error =>
      unfold findFormulasBy
      rw [hvalues]
      exact ⟨_, rfl⟩
    | ok done => exact absurd (validateValues_eq_ok_iff.mp hvalues).2 hfinite

/-- For any other input the index is searched, which gives solutions in the order of their positions, as
many as are wanted or as there are. -/
theorem exists_solutions_of_not_badInput (h : ¬ BadInput values target) :
    ∃ (index : Index WordFiles) (formulas : List Formula) (solutions : List Solution),
      index.Reads formulas ∧
      (Index.generate entropy { slots := values.length } .arithmetic).1 = .ok index ∧
      index.table = .arithmetic ∧ index.slots = values.length ∧
      findFormulasBy entropy schedule values target = .ok solutions ∧
      solutions.Sublist (Search.matching index {} values target) ∧
      solutions.length = min 200 (Search.matching index {} values target).length := by
  obtain ⟨hsome, hfew, hfinite, htarget⟩ : values ≠ [] ∧ ¬ 11 < values.length ∧
      (¬ ∃ value ∈ values, value.isFinite = false) ∧ ¬ target.isFinite = false := by
    simpa only [BadInput, not_or] using h
  have hall : ∀ value ∈ values, value.isFinite = true := by
    simpa using hfinite
  have hpos : 1 ≤ values.length := List.length_pos_iff.mpr hsome
  obtain ⟨index, formulas, hreads, hindex, htable, hslots, hanswer⟩ :=
    exists_index_of_findFormulasBy entropy schedule target hall hpos (Nat.le_of_not_lt hfew)
  have hvalues : validateValues values index.slots = .ok () :=
    validateValues_eq_ok_iff.mpr ⟨hslots.symm, hall⟩
  rcases hreads.findAllBy_cases (schedule index.length) {} target hvalues with
    ⟨-, solutions, hfound, hsublist, hcount⟩ | ⟨hinfinite, -⟩
  · exact ⟨index, formulas, solutions, hreads, hindex, htable, hslots, hanswer.trans hfound, hsublist,
      hcount⟩
  · exact absurd hinfinite htarget

/-- What is found for a target over given values: a formula of the index with its value. -/
structure Solution.Answers (solution : Solution) (index : Index WordFiles) (values : List Float)
    (target : Float) : Prop where
  get_eq : index.get solution.position = .ok solution.formula
  validate_eq : solution.formula.validate = .ok ()
  /-- There are as many slots as values, and every slot is there once. -/
  size_eq : solution.formula.size = values.length
  slots_perm : solution.formula.slots.Perm (slotsBelow values.length)
  /-- The value is rounded, and within the tolerance of the target. -/
  evaluate_eq : solution.formula.evaluate .arithmetic values 7 = .ok solution.value
  isWithin : Search.isWithin 1e-5 solution.value target = true
  values_eq : solution.values = values
  target_eq : solution.target = target

/-- Every match in an index of arithmetic formulas is an answer. -/
theorem Index.Reads.answers_of_mem_matching {index : Index WordFiles} {formulas : List Formula}
    {solution : Solution} (h : index.Reads formulas) (htable : index.table = .arithmetic)
    (hslots : index.slots = values.length)
    (hmem : solution ∈ Search.matching index {} values target) :
    solution.Answers index values target := by
  obtain ⟨position, hposition, hsome⟩ := List.mem_filterMap.mp hmem
  obtain ⟨hf, hvalue, hwithin, hrecorded⟩ := h.of_foundBy hslots.symm hposition hsome
  have hat : solution.position = position := by rw [hrecorded]
  have hfits : solution.formula.Fits .arithmetic values.length :=
    htable ▸ hslots ▸ h.fits _ (List.mem_of_getElem? hf)
  obtain ⟨hsize, hvalid, -⟩ := Formula.fits_iff.mp hfits
  refine ⟨?_, hvalid, hsize, hsize ▸ hfits.valid.slots_perm, htable ▸ hvalue, hwithin, ?_, ?_⟩
  · exact Outcome.toOption_eq_some_iff.mp ((h.get_eq _).trans (hat.symm ▸ hf))
  · rw [hrecorded]
  · rw [hrecorded]

/-- Looking for formulas fails exactly for bad input, whatever the fingerprint vectors are and whatever
course the search takes. What is found otherwise are at most two hundred formulas of the generated
index, in the order of their positions there: each passes the check over as many slots as there are
values, with every slot in it once, and its rounded value is within the tolerance of the target. -/
theorem findFormulas_answers (values : List Float) (target : Float) :
    ((∃ error, findFormulasBy entropy schedule values target = .error error) ↔
      BadInput values target) ∧
    ∀ solutions, findFormulasBy entropy schedule values target = .ok solutions →
      solutions.length ≤ 200 ∧
      (solutions.Pairwise fun first second => first.position < second.position) ∧
      ∃ index, (Index.generate entropy { slots := values.length } .arithmetic).1 = .ok index ∧
        ∀ solution ∈ solutions, solution.Answers index values target := by
  by_cases hbad : BadInput values target
  · obtain ⟨error, herror⟩ := exists_error_of_badInput entropy schedule hbad
    exact ⟨⟨fun _ => hbad, fun _ => ⟨error, herror⟩⟩,
      fun solutions hsolutions => nomatch herror.symm.trans hsolutions⟩
  obtain ⟨index, formulas, found, hreads, hindex, htable, hslots, hfound, hsublist, hcount⟩ :=
    exists_solutions_of_not_badInput entropy schedule hbad
  refine ⟨⟨fun ⟨error, herror⟩ => (nomatch herror.symm.trans hfound), fun h => absurd h hbad⟩, ?_⟩
  intro solutions hsolutions
  cases hsolutions.symm.trans hfound
  exact ⟨hcount.trans_le (Nat.min_le_left _ _),
    (hreads.pairwise_position {} target hslots.symm).sublist hsublist, index, hindex,
    fun solution hsolution => hreads.answers_of_mem_matching htable hslots
      (hsublist.subset hsolution)⟩

/-- Three finite values and a finite target are no bad input, so there is an answer in the course of one
worker. -/
theorem findFormulas_answers_threeValues :
    let fresh : Entropy := fun _ => Vector.replicate 8 0
    ∃ solutions, findFormulasBy fresh .inOrder [1, 2, 3] 6 = .ok solutions ∧
      solutions.length ≤ 200 := by
  intro fresh
  obtain ⟨hfails, hanswers⟩ := findFormulas_answers fresh .inOrder [1, 2, 3] 6
  have hgood : ¬ BadInput [1, 2, 3] 6 := by
    decide +kernel
  cases hanswer : findFormulasBy fresh .inOrder [1, 2, 3] 6 with
  | error error => exact absurd (hfails.mp ⟨error, hanswer⟩) hgood
  | ok solutions => exact ⟨solutions, rfl, (hanswers solutions hanswer).1⟩

end Formulary
