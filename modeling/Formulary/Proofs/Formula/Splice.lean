import Formulary.Proofs.Formula.TreeEvaluation

/-!
# The law of transplants

Two formulas are put on lists of slots and combined under an operator. The combination uses the
slots of both lists, so it is valid exactly if the lists together hold each slot once. Its value is
made of the values of the two formulas, each taken over the numbers that its own list picks: renaming
the leaves of a tree is picking other numbers for them.

The evaluation of the combination ends early if an operand yields NaN, while a slot that holds NaN
would go on to the operator. So what is said about values here is about slots that hold numbers.
-/

namespace Formulary

/-- The numbers that a list of slots picks, one for each slot. -/
def pickValues (values : List Float) (mapping : List UInt8) : List Float :=
  mapping.map fun slot => values.getD slot.toNat 0

/-- What an operator makes of the answers of its operands. An error or NaN is the answer itself, that
of the left operand first. -/
def OperatorTable.applyToAnswers (table : OperatorTable) (code : UInt8)
    (left right : Except FormulaError Float) : Except FormulaError Float :=
  match left with
  | .error error => .error error
  | .ok x =>
    if x.isNaN then .ok x
    else
      match right with
      | .error error => .error error
      | .ok y =>
        if y.isNaN then .ok y
        else
          match table.get code with
          | .error error => .error (.operator error)
          | .ok op => .ok (op.apply x y)

namespace OperatorTable

variable {table : OperatorTable} {code : UInt8} {x y : Float}

/-- NaN on the left is the answer. -/
theorem applyToAnswers_nan_left (hx : x.isNaN = true) (right : Except FormulaError Float) :
    table.applyToAnswers code (.ok x) right = .ok x :=
  if_pos hx

/-- Behind a number on the left, an error on the right is the answer. -/
theorem applyToAnswers_error_right (hx : x.isNaN = false) (error : FormulaError) :
    table.applyToAnswers code (.ok x) (.error error) = .error error :=
  if_neg (Bool.eq_false_iff.mp hx)

/-- Behind a number on the left, NaN on the right is the answer. -/
theorem applyToAnswers_nan_right (hx : x.isNaN = false) (hy : y.isNaN = true) :
    table.applyToAnswers code (.ok x) (.ok y) = .ok y :=
  (if_neg (Bool.eq_false_iff.mp hx)).trans (if_pos hy)

end OperatorTable

variable {table : OperatorTable} {values : List Float} {mapping : List UInt8}

/-- A slot of the list picks the number it stands for. -/
theorem getElem?_pickValues {place : ℕ} (hplace : place < mapping.length)
    (hentry : (mapping.getD place 0).toNat < values.length) :
    (pickValues values mapping)[place]? = values[(mapping.getD place 0).toNat]? := by
  rw [List.getD_eq_getElem _ _ hplace] at hentry ⊢
  rw [pickValues, List.getElem?_map, List.getElem?_eq_getElem hplace, Option.map_some,
    List.getD_eq_getElem _ _ hentry, List.getElem?_eq_getElem hentry]

namespace Tree

/-- Renaming the leaves of a tree picks other numbers for them. -/
theorem evaluate_relabel {t : Tree} (hslots : ∀ slot ∈ t.slots, slot.toNat < mapping.length)
    (hentries : ∀ slot ∈ mapping, slot.toNat < values.length) :
    (t.relabel mapping).evaluate table values = t.evaluate table (pickValues values mapping) := by
  induction t with
  | leaf slot =>
    have hplace := hslots slot (List.mem_singleton_self slot)
    have hmem : mapping.getD slot.toNat 0 ∈ mapping := by
      rw [List.getD_eq_getElem _ _ hplace]
      exact List.getElem_mem hplace
    rw [relabel, evaluate, evaluate, getElem?_pickValues hplace (hentries _ hmem),
      List.getElem?_eq_getElem (hentries _ hmem)]
  | node code left right ihLeft ihRight =>
    have hleft := ihLeft fun slot hslot => hslots slot (List.mem_append_left _ hslot)
    have hright := ihRight fun slot hslot => hslots slot (List.mem_append_right _ hslot)
    rw [relabel, evaluate, evaluate, hleft, hright]

/-- Where every slot holds a number, the value of a tree is a number. -/
theorem isNaN_eq_false_of_evaluate {t : Tree} {value : Float}
    (hnumbers : ∀ value ∈ values, value.isNaN = false) (h : t.evaluate table values = .ok value) :
    value.isNaN = false := by
  cases t with
  | leaf slot =>
    unfold evaluate at h
    split at h
    · cases h
    · next hfound =>
      cases h
      exact hnumbers value (List.mem_of_getElem? hfound)
  | node code left right =>
    obtain ⟨x, -, h⟩ := Outcome.bind_eq_ok_iff.mp h
    obtain ⟨y, -, h⟩ := Outcome.bind_eq_ok_iff.mp h
    exact OperatorTable.isNaN_eq_false_of_applyCode h

/-- Where every slot of a tree has a value, none is missed. -/
theorem evaluate_ne_missingValue {t : Tree} (hslots : ∀ slot ∈ t.slots, slot.toNat < values.length)
    (slot : UInt8) : t.evaluate table values ≠ .error (.missingValue slot) := by
  induction t with
  | leaf other =>
    rw [evaluate, List.getElem?_eq_getElem (hslots other (List.mem_singleton_self other))]
    intro h
    cases h
  | node code left right ihLeft ihRight =>
    have hleft := ihLeft fun slot hslot => hslots slot (List.mem_append_left _ hslot)
    have hright := ihRight fun slot hslot => hslots slot (List.mem_append_right _ hslot)
    intro h
    rcases Outcome.bind_eq_error_iff.mp h with hevent | ⟨x, -, h⟩
    · exact hleft hevent
    · rcases Outcome.bind_eq_error_iff.mp h with hevent | ⟨y, -, h⟩
      · exact hright hevent
      · exact OperatorTable.applyCode_ne_missingValue code slot x y h

end Tree

/-- An event at a tree whose slots all have values has the same answer wherever there are others. -/
theorem answerOf_evaluate_congr {t : Tree} (hslots : ∀ slot ∈ t.slots, slot.toNat < values.length)
    (available available' : ℕ) :
    answerOf available (t.evaluate table values) = answerOf available' (t.evaluate table values) := by
  cases hevaluate : t.evaluate table values with
  | ok value => rfl
  | error event =>
    cases event with
    | missingValue slot => exact absurd hevaluate (Tree.evaluate_ne_missingValue hslots slot)
    | unknownCode code => rfl
    | notANumber value => rfl

/-- The answer at the application of an operator to two numbers. -/
theorem answerOf_applyCode (available : ℕ) (code : UInt8) {x y : Float} (hx : x.isNaN = false)
    (hy : y.isNaN = false) :
    answerOf available (table.applyCode code x y) = table.applyToAnswers code (.ok x) (.ok y) := by
  simp only [OperatorTable.applyToAnswers, OperatorTable.applyCode, OperatorTable.get, hx, hy,
    Bool.false_eq_true, if_false]
  cases table.operators[code.toNat]? with
  | none => rfl
  | some op =>
    -- NaN ends the evaluation, and as its last step it is the answer all the same
    cases hnan : (op.apply x y).isNaN with
    | true => simp only [hnan, if_true, answerOf, Event.answer]
    | false => simp only [hnan, Bool.false_eq_true, if_false, answerOf]

/-- Where every slot holds a number, the answer at a node is made of the answers at its operands. -/
theorem answerOf_evaluate_node (available : ℕ) (code : UInt8) (left right : Tree)
    (hnumbers : ∀ value ∈ values, value.isNaN = false) :
    answerOf available ((Tree.node code left right).evaluate table values) =
      table.applyToAnswers code (answerOf available (left.evaluate table values))
        (answerOf available (right.evaluate table values)) := by
  rw [Tree.evaluate]
  cases hleft : left.evaluate table values with
  | error event =>
    cases event with
    | missingValue slot => rfl
    | unknownCode code => rfl
    | notANumber value =>
      -- the evaluation has ended, and the operator does not come to be applied
      exact (OperatorTable.applyToAnswers_nan_left (Tree.isNaN_of_evaluate hleft) _).symm
  | ok x =>
    have hx := Tree.isNaN_eq_false_of_evaluate hnumbers hleft
    cases hright : right.evaluate table values with
    | error event =>
      cases event with
      | missingValue slot => exact (OperatorTable.applyToAnswers_error_right hx _).symm
      | unknownCode code => exact (OperatorTable.applyToAnswers_error_right hx _).symm
      | notANumber value =>
        exact (OperatorTable.applyToAnswers_nan_right hx (Tree.isNaN_of_evaluate hright)).symm
    | ok y =>
      exact answerOf_applyCode available code hx (Tree.isNaN_eq_false_of_evaluate hnumbers hright)

namespace Formula

variable {left right : Formula} {onto behind : List UInt8}

/-- Where every slot holds a number, the value of a combination is made of those of its operands. -/
theorem evaluateRaw_combine (hleft : left.IsPostfix) (hright : right.IsPostfix) (code : UInt8)
    (hnumbers : ∀ value ∈ values, value.isNaN = false) :
    (combine left right code).evaluateRaw table values =
      table.applyToAnswers code (left.evaluateRaw table values) (right.evaluateRaw table values) := by
  obtain ⟨t, rfl⟩ := hleft
  obtain ⟨u, rfl⟩ := hright
  rw [← Tree.toFormula_node, evaluateRaw_toFormula, evaluateRaw_toFormula, evaluateRaw_toFormula,
    answerOf_evaluate_node _ _ _ _ hnumbers]

/-- A valid formula that was put on a list has the value that it has over what the list picks. -/
theorem Valid.evaluateRaw_placeOn {f : Formula} (h : f.Valid) (hlen : mapping.length = f.size)
    (hentries : ∀ slot ∈ mapping, slot.toNat < values.length) :
    (f.placeOn mapping).evaluateRaw table values = f.evaluateRaw table (pickValues values mapping) := by
  have hpicked : (pickValues values mapping).length = f.size := by
    rw [pickValues, List.length_map, hlen]
  have hslots : ∀ slot ∈ f.slots, slot.toNat < f.size := fun slot hslot => h.mem_slots_iff.mp hslot
  obtain ⟨t, rfl⟩ := h.isPostfix
  rw [← Tree.toFormula_relabel, evaluateRaw_toFormula, evaluateRaw_toFormula,
    Tree.evaluate_relabel (fun slot hslot => hlen ▸ hslots slot hslot) hentries]
  exact answerOf_evaluate_congr (fun slot hslot => hpicked ▸ hslots slot hslot) _ _

/-- Valid formulas on two lists combine to a valid formula exactly if the lists together hold each
slot once. -/
theorem Valid.combine_placeOn_iff (hleft : left.Valid) (hright : right.Valid)
    (honto : onto.length = left.size) (hbehind : behind.length = right.size)
    (hsize : left.size + right.size ≤ maxSlots) (code : UInt8) :
    (combine (left.placeOn onto) (right.placeOn behind) code).Valid ↔
      (onto ++ behind).Perm (slotsBelow (left.size + right.size)) := by
  constructor
  · intro h
    have hslots := (hleft.slots_placeOn_perm honto).append (hright.slots_placeOn_perm hbehind)
    have hperm := h.slots_perm
    rw [size_combine, size_placeOn, size_placeOn] at hperm
    exact hslots.symm.trans hperm
  · intro hperm
    exact hleft.combine_placeOn hright honto hbehind hsize hperm code

/-- Two valid formulas can be put on any lists of as many slots. Their combination is valid exactly if
the lists together are a permutation of its slots. Where the slots of the lists hold numbers, its value
is what the operator makes of the values of the two formulas over the numbers that the lists pick: an
error or NaN of an operand is its own, and a code without an operator is an error. -/
theorem combine_of_transplants (hleft : left.validate = .ok ()) (hright : right.validate = .ok ())
    (hsize : left.size + right.size ≤ 255) (honto : onto.length = left.size)
    (hbehind : behind.length = right.size) (code : UInt8) :
    ∃ f g, left.relabel onto = .ok f ∧ right.relabel behind = .ok g ∧
      ((combine f g code).validate = .ok () ↔
        (onto ++ behind).Perm (slotsBelow (left.size + right.size))) ∧
      ∀ (table : OperatorTable) (values : List Float), (∀ value ∈ values, value.isNaN = false) →
        (∀ slot ∈ onto ++ behind, slot.toNat < values.length) →
        (combine f g code).evaluateRaw table values =
          table.applyToAnswers code (left.evaluateRaw table (pickValues values onto))
            (right.evaluateRaw table (pickValues values behind)) := by
  have hl := validate_eq_ok_iff.mp hleft
  have hr := validate_eq_ok_iff.mp hright
  refine ⟨_, _, hl.relabel_eq_ok honto, hr.relabel_eq_ok hbehind, ?_,
    fun table values hnumbers hentries => ?_⟩
  · rw [validate_eq_ok_iff]
    exact hl.combine_placeOn_iff hr honto hbehind hsize code
  · have honto' := fun slot hslot => hentries slot (List.mem_append_left behind hslot)
    have hbehind' := fun slot hslot => hentries slot (List.mem_append_right onto hslot)
    rw [evaluateRaw_combine (hl.isPostfix.placeOn onto) (hr.isPostfix.placeOn behind) code hnumbers,
      hl.evaluateRaw_placeOn honto honto', hr.evaluateRaw_placeOn hbehind hbehind']

/-- A quotient by zero, put on slots 2 and 0, hides an unknown code in the operand on slots 3 and 1; in
the other order the unknown code is met first. The combinations are valid in both orders. -/
theorem combine_of_transplants_masked :
    let quotient : Formula := ⟨[0, 1], [3], [true, true, false]⟩
    let unknown : Formula := ⟨[1, 0], [9], [true, true, false]⟩
    ∃ f g, quotient.relabel [2, 0] = .ok f ∧ unknown.relabel [3, 1] = .ok g ∧
      (combine f g 0).validate = .ok () ∧
      (combine f g 0).evaluateRaw .arithmetic [0.0, 1.0, 2.0, 3.0] = .ok (0.0 / 0.0) ∧
      (combine g f 0).evaluateRaw .arithmetic [0.0, 1.0, 2.0, 3.0] =
        .error (.operator (.unknownCode 9)) := by
  intro quotient unknown
  have hnumbers : ∀ value ∈ [0.0, 1.0, 2.0, 3.0], Float.isNaN value = false := by decide +kernel
  have hquotient : quotient.validate = .ok () := rfl
  have hunknown : unknown.validate = .ok () := rfl
  have honto : ([2, 0] : List UInt8).length = quotient.size := rfl
  have hbehind : ([3, 1] : List UInt8).length = unknown.size := rfl
  have hentries : ∀ slot ∈ ([2, 0, 3, 1] : List UInt8), slot.toNat < 4 := by decide +kernel
  have hentries' : ∀ slot ∈ ([3, 1, 2, 0] : List UInt8), slot.toNat < 4 := by decide +kernel
  obtain ⟨f, g, hf, hg, hvalid, hvalue⟩ :=
    combine_of_transplants hquotient hunknown (by decide) honto hbehind 0
  obtain ⟨g', f', hg', hf', -, hvalue'⟩ :=
    combine_of_transplants hunknown hquotient (by decide) hbehind honto 0
  obtain rfl : f' = f := Except.ok.inj (hf'.symm.trans hf)
  obtain rfl : g' = g := Except.ok.inj (hg'.symm.trans hg)
  refine ⟨f', g', hf, hg, hvalid.mpr (by decide), ?_, ?_⟩
  · rw [hvalue .arithmetic _ hnumbers hentries]
    rfl
  · rw [hvalue' .arithmetic _ hnumbers hentries']
    rfl

end Formula

end Formulary
