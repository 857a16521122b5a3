import Formulary.Proofs.Numeral.Equality
import Formulary.Proofs.Formula.TreeEvaluation
import Formulary.Proofs.Formula.Grammar

/-!
# Where NaN goes

If every application of a tree were carried out, also behind NaN, each node would yield a result. The
evaluation ends at the first of these results that is NaN, so what it answers can be read off the list
of results. A value that is NaN is no result: the slot pushes it like any number, and the next operator
is applied to it. Operators that keep NaN, such as those of arithmetic, make NaN of it, and NaN anywhere
in the computation is the answer then. An operator that drops an operand drops NaN with it.
-/

namespace Formulary

/-- Apply the operator with a code to any two operands. -/
def OperatorTable.result (table : OperatorTable) (code : UInt8) (left right : Float) : Float :=
  (table.operators[code.toNat]?.map fun op => op.apply left right).getD 0

/-- Every operator makes NaN of NaN, on whichever side it stands. -/
def OperatorTable.KeepsNaN (table : OperatorTable) : Prop :=
  ∀ op ∈ table.operators, ∀ x y : Float, x.isNaN = true ∨ y.isNaN = true → (op.apply x y).isNaN = true

namespace Tree

/-- The value of a tree if every application is carried out. -/
def value (table : OperatorTable) (values : List Float) : Tree → Float
  | leaf slot => values.getD slot.toNat 0
  | node code left right => table.result code (left.value table values) (right.value table values)

/-- What the applications of a tree yield, in post-order, if every one is carried out. -/
def results (table : OperatorTable) (values : List Float) : Tree → List Float
  | leaf _ => []
  | node code left right =>
    left.results table values ++ right.results table values ++
      [table.result code (left.value table values) (right.value table values)]

end Tree

variable {table : OperatorTable} {values : List Float} {code : UInt8} {t : Tree}

namespace OperatorTable

/-- An application under a known code yields its result, or ends an evaluation with it. -/
theorem applyCode_eq (hcode : code.toNat < table.size) (x y : Float) :
    table.applyCode code x y =
      if (table.result code x y).isNaN then .error (.notANumber (table.result code x y))
      else .ok (table.result code x y) := by
  have hop := List.getElem?_eq_getElem hcode
  simp only [applyCode, result, hop, Option.map_some, Option.getD_some]

/-- An operator that keeps NaN yields NaN for it, whichever operand it is. -/
theorem KeepsNaN.result (h : table.KeepsNaN) (hcode : code.toNat < table.size) {x y : Float}
    (hnan : x.isNaN = true ∨ y.isNaN = true) : (table.result code x y).isNaN = true := by
  have hop := List.getElem?_eq_getElem hcode
  simp only [OperatorTable.result, hop, Option.map_some, Option.getD_some]
  exact h _ (List.getElem_mem hcode) x y hnan

end OperatorTable

namespace Tree

/-- The evaluation of a tree ends at the first result that is NaN, and if there is none it comes to the
value of the tree. -/
theorem evaluate_eq (hslots : ∀ slot ∈ t.slots, slot.toNat < values.length)
    (hcodes : ∀ code ∈ t.codes, code.toNat < table.size) :
    t.evaluate table values =
      match (t.results table values).find? Float.isNaN with
      | some result => .error (.notANumber result)
      | none => .ok (t.value table values) := by
  induction t with
  | leaf slot =>
    have hslot : slot.toNat < values.length := hslots slot (by simp [slots])
    simp [evaluate, results, value, hslot]
  | node code left right ihLeft ihRight =>
    have hleft := ihLeft (fun slot h => hslots slot (by simp [slots, h]))
      (fun code h => hcodes code (by simp [codes, h]))
    have hright := ihRight (fun slot h => hslots slot (by simp [slots, h]))
      (fun code h => hcodes code (by simp [codes, h]))
    have hcode : code.toNat < table.size := hcodes code (by simp [codes])
    rw [evaluate, results, value, hleft, hright, List.append_assoc, List.find?_append]
    cases (left.results table values).find? Float.isNaN with
    | some result => rfl
    | none =>
      rw [Option.none_or, List.find?_append]
      cases (right.results table values).find? Float.isNaN with
      | some result => rfl
      | none =>
        change table.applyCode code _ _ = _
        rw [OperatorTable.applyCode_eq hcode, Option.none_or, List.find?_singleton]
        split
        · rfl
        · rfl

/-- Only a leaf has a single slot. -/
theorem slots_eq_singleton_iff {slot : UInt8} : t.slots = [slot] ↔ t = leaf slot := by
  constructor
  · intro h
    cases t with
    | leaf other => rw [List.singleton_inj.mp h]
    | node code left right =>
      have hleft := left.leaves_pos
      have hright := right.leaves_pos
      have hleaves := leaves_node code left right
      have hone : (node code left right).leaves = 1 := congrArg List.length h
      omega
  · rintro rfl
    rfl

/-- The root of a tree that is no leaf yields the value of the tree. -/
theorem value_mem_results (code : UInt8) (left right : Tree) :
    (node code left right).value table values ∈ (node code left right).results table values := by
  simp [results, value]

/-- Operators that keep NaN bring it from any leaf to the root. -/
theorem isNaN_value (h : table.KeepsNaN) (hcodes : ∀ code ∈ t.codes, code.toNat < table.size)
    (hnan : ∃ slot ∈ t.slots, (values.getD slot.toNat 0).isNaN = true) :
    (t.value table values).isNaN = true := by
  induction t with
  | leaf slot => simpa [slots, value] using hnan
  | node code left right ihLeft ihRight =>
    obtain ⟨slot, hslot, hslotNaN⟩ := hnan
    have hcode : code.toNat < table.size := hcodes code (by simp [codes])
    apply h.result hcode
    rcases List.mem_append.mp hslot with hslot | hslot
    · exact Or.inl (ihLeft (fun code h => hcodes code (by simp [codes, h])) ⟨slot, hslot, hslotNaN⟩)
    · exact Or.inr (ihRight (fun code h => hcodes code (by simp [codes, h])) ⟨slot, hslot, hslotNaN⟩)

/-- The answer that a tree gives is NaN if an application yields NaN, or if the tree is a single slot that
holds NaN. -/
theorem isNaN_evaluate_iff (hslots : ∀ slot ∈ t.slots, slot.toNat < values.length)
    (hcodes : ∀ code ∈ t.codes, code.toNat < table.size) :
    ∃ raw, answerOf values.length (t.evaluate table values) = .ok raw ∧
      (raw.isNaN = true ↔ (∃ result ∈ t.results table values, result.isNaN = true) ∨
        ∃ slot, t.slots = [slot] ∧ (values.getD slot.toNat 0).isNaN = true) := by
  rw [evaluate_eq hslots hcodes]
  cases hfirst : (t.results table values).find? Float.isNaN with
  | some result =>
    have hnan := List.find?_some hfirst
    exact ⟨result, rfl, iff_of_true hnan (Or.inl ⟨result, List.mem_of_find?_eq_some hfirst, hnan⟩)⟩
  | none =>
    have hnumbers := List.find?_eq_none.mp hfirst
    refine ⟨t.value table values, rfl, ?_⟩
    cases t with
    | leaf slot => simp [results, value, slots]
    | node code left right =>
      refine iff_of_false (hnumbers _ (value_mem_results code left right)) ?_
      rintro (⟨result, hmem, hnan⟩ | ⟨slot, hslot, -⟩)
      · exact hnumbers result hmem hnan
      · cases slots_eq_singleton_iff.mp hslot

/-- Under operators that keep NaN, a slot with NaN is as good as an application that yields it. -/
theorem isNaN_results_of_slot (h : table.KeepsNaN) (hcodes : ∀ code ∈ t.codes, code.toNat < table.size)
    (hnan : ∃ slot ∈ t.slots, (values.getD slot.toNat 0).isNaN = true) :
    (∃ result ∈ t.results table values, result.isNaN = true) ∨
      ∃ slot, t.slots = [slot] ∧ (values.getD slot.toNat 0).isNaN = true := by
  have hvalue := isNaN_value h hcodes hnan
  cases t with
  | leaf slot => exact Or.inr ⟨slot, rfl, hvalue⟩
  | node code left right => exact Or.inl ⟨_, value_mem_results code left right, hvalue⟩

end Tree

namespace Numeral

open Float.Model (UnpackedFloat)

variable {x y : Float}

/-- What is NaN is unpacked as no number. -/
theorem unpack_eq_notANumber (h : x.isNaN = true) : x.toModel.unpack = .notANumber := by
  have hnan : x.toModel.unpack.isNaN = true := h
  cases hread : x.toModel.unpack with
  | notANumber => rfl
  | _ =>
    rw [hread] at hnan
    cases hnan

/-- An operation that makes NaN of NaN on both sides does so on packed numbers. -/
theorem isNaN_packed (operation : UnpackedFloat → UnpackedFloat → UnpackedFloat)
    (hleft : ∀ v, operation .notANumber v = .notANumber)
    (hright : ∀ u, operation u .notANumber = .notANumber) (h : x.isNaN = true ∨ y.isNaN = true) :
    (⟨.pack (operation x.toModel.unpack y.toModel.unpack)⟩ : Float).isNaN = true := by
  rcases h with h | h
  · rw [unpack_eq_notANumber h, hleft]
    rfl
  · rw [unpack_eq_notANumber h, hright]
    rfl

end Numeral

/-- The operators of arithmetic keep NaN. -/
theorem OperatorTable.keepsNaN_arithmetic : OperatorTable.arithmetic.KeepsNaN := by
  intro op hop x y h
  simp only [arithmetic, List.mem_cons, List.not_mem_nil, or_false] at hop
  rcases hop with rfl | rfl | rfl | rfl
  · exact Numeral.isNaN_packed (.add .binary64) (fun _ => rfl) (fun u => by cases u <;> rfl) h
  · exact Numeral.isNaN_packed (.sub .binary64) (fun _ => rfl) (fun u => by cases u <;> rfl) h
  · exact Numeral.isNaN_packed (.mul .binary64) (fun _ => rfl) (fun u => by cases u <;> rfl) h
  · change (divide x y).isNaN = true
    unfold divide
    split
    · rfl
    · exact Numeral.isNaN_packed (.div .binary64) (fun _ => rfl) (fun u => by cases u <;> rfl) h

namespace Formula

/-- A formula that passes the check, has known codes and a value for each slot is evaluated without an
error, and rounding leaves NaN as it is. The answer is NaN if and only if an application in its tree yields
NaN or the formula is a single slot that holds NaN. Under operators that keep NaN it is NaN if and only if
a slot holds NaN or an application yields it. -/
theorem evaluateRaw_isNaN_iff (table : OperatorTable) (values : List Float) {f : Formula}
    (hvalid : f.validate = .ok ()) (hcodes : ∀ code ∈ f.codes, code.toNat < table.size)
    (hvalues : ∀ slot ∈ f.slots, slot.toNat < values.length) :
    ∃ t : Tree, t.toFormula = f ∧ ∃ raw, f.evaluateRaw table values = .ok raw ∧
      (∀ digits, ∃ rounded, f.evaluate table values digits = .ok rounded ∧
        (raw.isNaN = true → rounded = raw)) ∧
      (raw.isNaN = true ↔ (∃ result ∈ t.results table values, result.isNaN = true) ∨
        ∃ slot, f.slots = [slot] ∧ (values.getD slot.toNat 0).isNaN = true) ∧
      (table.KeepsNaN → (raw.isNaN = true ↔
        (∃ slot ∈ f.slots, (values.getD slot.toNat 0).isNaN = true) ∨
          ∃ result ∈ t.results table values, result.isNaN = true)) := by
  obtain ⟨t, rfl⟩ := (validate_eq_ok_iff.mp hvalid).isPostfix
  obtain ⟨raw, hraw, hiff⟩ := Tree.isNaN_evaluate_iff hvalues hcodes
  rw [← evaluateRaw_toFormula] at hraw
  refine ⟨t, rfl, raw, hraw, fun digits => ?_, hiff, fun hkeeps => ?_⟩
  · unfold evaluate
    rw [hraw]
    exact ⟨_, rfl, fun hnan => if_pos hnan⟩
  · rw [hiff]
    constructor
    · rintro (hresult | ⟨slot, hslot, hnan⟩)
      · exact Or.inr hresult
      · have hmem : slot ∈ t.slots := by simp [hslot]
        exact Or.inl ⟨slot, hmem, hnan⟩
    · rintro (hslot | hresult)
      · exact Tree.isNaN_results_of_slot hkeeps hcodes hslot
      · exact Or.inl hresult

/-- NaN in a slot of a quotient, and NaN from a quotient by zero, mark the whole formula. -/
theorem evaluateRaw_isNaN_iff_quotient :
    let quotient : Formula := ⟨[0, 1, 2], [3, 0], [true, true, false, true, false]⟩
    (∃ raw, quotient.evaluateRaw .arithmetic [1.0, Float.nan, 2.0] = .ok raw ∧ raw.isNaN = true) ∧
      ∃ raw, quotient.evaluateRaw .arithmetic [1.0, 0.0, 2.0] = .ok raw ∧ raw.isNaN = true := by
  intro quotient
  have hvalid : quotient.validate = .ok () := rfl
  have hcodes : ∀ code ∈ quotient.codes, code.toNat < OperatorTable.arithmetic.size := by
    decide +kernel
  have hslots : ∀ slot ∈ quotient.slots, slot.toNat < 3 := by decide +kernel
  have hslot : ∃ slot ∈ quotient.slots,
      ([1.0, Float.nan, 2.0].getD slot.toNat 0).isNaN = true := ⟨1, by simp [quotient], rfl⟩
  obtain ⟨_, _, raw, hraw, -, -, hkept⟩ :=
    evaluateRaw_isNaN_iff .arithmetic [1.0, Float.nan, 2.0] hvalid hcodes hslots
  obtain ⟨t, ht, raw', hraw', -, hiff, -⟩ :=
    evaluateRaw_isNaN_iff .arithmetic [1.0, 0.0, 2.0] hvalid hcodes hslots
  obtain rfl : t = .node 0 (.node 3 (.leaf 0) (.leaf 1)) (.leaf 2) := Tree.toFormula_injective ht
  refine ⟨⟨raw, hraw, ?_⟩, raw', hraw', ?_⟩
  · exact (hkept OperatorTable.keepsNaN_arithmetic).mpr (Or.inl hslot)
  · exact hiff.mpr (Or.inl ⟨_, List.mem_cons_self, rfl⟩)

/-- An operator that gives back its left operand. -/
def keepLeft : OperatorTable where
  operators := [⟨'<', false, fun x _ => x⟩]
  length_pos := by decide
  length_le := by decide

/-- NaN in the slot that an operator drops does not come to the answer. -/
theorem evaluateRaw_drops_nan :
    let pair : Formula := ⟨[0, 1], [0], [true, true, false]⟩
    pair.validate = .ok () ∧ (∀ code ∈ pair.codes, code.toNat < keepLeft.size) ∧
      (∀ slot ∈ pair.slots, slot.toNat < [1.0, Float.nan].length) ∧
      ([1.0, Float.nan].getD 1 0).isNaN = true ∧
      pair.evaluateRaw keepLeft [1.0, Float.nan] = .ok 1.0 ∧ Float.isNaN 1.0 = false ∧
      pair.evaluate keepLeft [1.0, Float.nan] 3 = .ok 1.0 := by
  refine ⟨rfl, by decide +kernel, by decide +kernel, rfl, rfl, rfl, ?_⟩
  decide +kernel

end Formula

end Formulary
