import Formulary.Formula.Evaluation
import Formulary.Proofs.Operator
import Formulary.Proofs.Formula.Valid

/-!
# Which formulas have values

The run of a postfix program can fail for want of a value, a code or a stack entry. If the depth
of the stack can be followed through the shape, there are as many slots as pushes and as many
codes as pops, and all of them are known, then none of this happens.

What a run wants does not depend on the numbers in it, and a run whose answer is a number has gone
through the whole program. So a formula that has a number as its value has a value for any other
numbers in its slots.
-/

namespace Formulary.Formula

variable {table : OperatorTable} {values : List Float}

/-- A program that finds its slots, codes and stack entries runs to a value. -/
theorem exists_run_eq_ok {shape : List Bool} {slots codes : List UInt8} {stack : List Float}
    {position : ℕ} (hdepth : depthAfter stack.length shape = some 1)
    (hslots : slots.length = shape.count true) (hcodes : codes.length = shape.count false)
    (hvalues : ∀ slot ∈ slots, slot.toNat < values.length)
    (hknown : ∀ code ∈ codes, code.toNat < table.size) :
    ∃ value, run table values position shape slots codes stack = .ok value := by
  induction shape generalizing slots codes stack position with
  | nil =>
    obtain ⟨value, rfl⟩ := List.length_eq_one_iff.mp (Option.some.inj hdepth)
    exact ⟨value, rfl⟩
  | cons push rest ih =>
    cases push with
    | true =>
      cases slots with
      | nil => simp at hslots
      | cons slot slots =>
        have hvalue := List.getElem?_eq_getElem (hvalues slot List.mem_cons_self)
        simp only [run, hvalue]
        apply ih
        · exact hdepth
        · simpa using hslots
        · simpa using hcodes
        · exact fun other hother => hvalues other (List.mem_cons_of_mem slot hother)
        · exact hknown
    | false =>
      obtain ⟨htwo, hrest⟩ := depthAfter_pop_eq_some hdepth
      match stack, htwo, hrest with
      | right :: left :: stack, _, hrest =>
        cases codes with
        | nil => simp at hcodes
        | cons code codes =>
          simp only [run, OperatorTable.get_eq_ok (hknown code List.mem_cons_self)]
          split
          · exact ⟨_, rfl⟩
          · apply ih
            · exact hrest
            · simpa using hslots
            · simpa using hcodes
            · exact hvalues
            · exact fun other hother => hknown other (List.mem_cons_of_mem code hother)

/-- A valid formula with known codes has a value wherever each of its slots has one. -/
theorem Valid.exists_evaluateRaw_eq_ok {f : Formula} (h : f.Valid) (hcodes : f.UsesCodesOf table)
    (hvalues : f.size ≤ values.length) : ∃ value, f.evaluateRaw table values = .ok value := by
  have hslots : ∀ slot ∈ f.slots, slot.toNat < values.length := by
    intro slot hslot
    exact Nat.lt_of_lt_of_le (h.mem_slots_iff.mp hslot) hvalues
  exact exists_run_eq_ok h.balanced h.count_push.symm h.count_pop.symm hslots hcodes

/-- A formula that fits has a rounded value wherever there are as many values as slots. -/
theorem Fits.exists_evaluate_eq_ok {f : Formula} (h : f.Fits table values.length) (digits : ℕ) :
    ∃ value, f.evaluate table values digits = .ok value := by
  obtain ⟨raw, hraw⟩ := h.valid.exists_evaluateRaw_eq_ok h.codes (Nat.le_of_eq h.size_eq)
  unfold evaluate
  rw [hraw]
  exact ⟨_, rfl⟩

/-- A run to a number does not fail with other values and other numbers on the stack. -/
theorem exists_run_eq_ok_of_run {other : List Float} (hlength : other.length = values.length)
    {shape : List Bool} {slots codes : List UInt8} {stack : List Float} {position : ℕ}
    {value : Float} (hrun : run table values position shape slots codes stack = .ok value)
    (hnumber : value.isNaN = false) {stack' : List Float} (hstack : stack'.length = stack.length) :
    ∃ value', run table other position shape slots codes stack' = .ok value' := by
  induction shape generalizing position slots codes stack stack' with
  | nil =>
    match stack, stack', hstack, hrun with
    | [_], [value'], _, _ => exact ⟨value', rfl⟩
  | cons push rest ih =>
    cases push with
    | true =>
      match slots, hrun with
      | slot :: slots, hrun =>
        rw [run] at hrun
        split at hrun
        · cases hrun
        · next found hfound =>
          have hlt := (List.getElem?_eq_some_iff.mp hfound).1
          rw [run, List.getElem?_eq_getElem (hlength.symm ▸ hlt)]
          exact ih hrun (by simp [hstack])
    | false =>
      match stack, stack', codes, hstack, hrun with
      | _ :: _ :: stack, _ :: _ :: stack', code :: codes, hstack, hrun =>
        simp only [run] at hrun ⊢
        split at hrun
        · cases hrun
        · split at hrun
          · next hnan =>
            -- an application that yields NaN would have been the answer
            cases hrun
            rw [hnan] at hnumber
            cases hnumber
          · split
            · exact ⟨_, rfl⟩
            · exact ih hrun (by simpa using hstack)

/-- A run to a number applies every code for which there is a pop. -/
theorem lt_size_of_run {shape : List Bool} {slots codes : List UInt8} {stack : List Float}
    {position : ℕ} {value : Float}
    (hrun : run table values position shape slots codes stack = .ok value)
    (hnumber : value.isNaN = false) (hcodes : codes.length = shape.count false) :
    ∀ code ∈ codes, code.toNat < table.size := by
  induction shape generalizing position slots codes stack with
  | nil =>
    obtain rfl := List.length_eq_zero_iff.mp hcodes
    exact fun _ hcode => nomatch hcode
  | cons push rest ih =>
    cases push with
    | true =>
      match slots, hrun with
      | slot :: slots, hrun =>
        rw [run] at hrun
        split at hrun
        · cases hrun
        · exact ih hrun (by simpa using hcodes)
    | false =>
      match stack, codes, hrun with
      | _ :: _ :: stack, code :: codes, hrun =>
        simp only [run] at hrun
        split at hrun
        · cases hrun
        · next op hop =>
          split at hrun
          · next hnan =>
            cases hrun
            rw [hnan] at hnumber
            cases hnumber
          · have hrest := ih hrun (by simpa using hcodes)
            exact List.forall_mem_cons.mpr ⟨table.lt_size_of_get hop, hrest⟩

/-- The value before rounding is a number if the rounded value is. -/
theorem exists_evaluateRaw_of_evaluate {f : Formula} {digits : ℕ} {value : Float}
    (hvalue : f.evaluate table values digits = .ok value) (hnumber : value.isNaN = false) :
    ∃ raw, f.evaluateRaw table values = .ok raw ∧ raw.isNaN = false := by
  obtain ⟨raw, hraw, hrounded⟩ := Outcome.bind_eq_ok_iff.mp hvalue
  refine ⟨raw, hraw, ?_⟩
  by_contra hnan
  rw [Bool.not_eq_false] at hnan
  rw [if_pos hnan] at hrounded
  cases hrounded
  rw [hnan] at hnumber
  cases hnumber

/-- A valid formula whose rounded value is a number uses codes of the table only. -/
theorem Valid.usesCodesOf_of_evaluate {f : Formula} {digits : ℕ} {value : Float} (h : f.Valid)
    (hvalue : f.evaluate table values digits = .ok value) (hnumber : value.isNaN = false) :
    f.UsesCodesOf table := by
  obtain ⟨raw, hraw, hrawNumber⟩ := exists_evaluateRaw_of_evaluate hvalue hnumber
  exact lt_size_of_run hraw hrawNumber h.count_pop.symm

/-- A formula whose rounded value is a number has a value for any other numbers in its slots. -/
theorem exists_evaluate_eq_ok_of_evaluate {f : Formula} {other : List Float} {digits : ℕ}
    {value : Float} (hlength : other.length = values.length)
    (hvalue : f.evaluate table values digits = .ok value) (hnumber : value.isNaN = false) :
    ∃ value', f.evaluate table other digits = .ok value' := by
  obtain ⟨raw, hraw, hrawNumber⟩ := exists_evaluateRaw_of_evaluate hvalue hnumber
  obtain ⟨raw', hraw'⟩ := exists_run_eq_ok_of_run hlength hraw hrawNumber rfl
  unfold evaluate
  rw [evaluateRaw, hraw']
  exact ⟨_, rfl⟩

end Formulary.Formula
