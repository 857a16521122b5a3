import Mathlib.Data.Bool.Count
import Formulary.Subsets
import Formulary.Proofs.Outcome
import Formulary.Proofs.Permutation
import Formulary.Proofs.Formula.Shape

/-!
# Valid formulas

The check of a formula asks for lengths that fit together, for a permutation of slots and for a
balanced shape. A valid formula over `m` slots has `m` pushes and `m - 1` pops in its shape, and
a formula that uses only codes of a table can be evaluated wherever each slot has a value.
-/

namespace Formulary.Formula

/-- Every slot of a formula is a byte. -/
theorem maxSlots_le : maxSlots ≤ UInt8.size := by decide

/-- What the check of a formula asks for. -/
structure Valid (f : Formula) : Prop where
  pos : 0 < f.size
  le : f.size ≤ maxSlots
  codes_length : f.codes.length = f.size - 1
  shape_length : f.shape.length = 2 * f.size - 1
  slots_perm : f.slots.Perm (slotsBelow f.size)
  balanced : Balanced f.shape

/-- Every code of a formula is the code of an operator. -/
def UsesCodesOf (table : OperatorTable) (f : Formula) : Prop :=
  ∀ code ∈ f.codes, code.toNat < table.size

instance (table : OperatorTable) (f : Formula) : Decidable (f.UsesCodesOf table) :=
  List.decidableBAll (fun code : UInt8 => code.toNat < table.size) f.codes

/-- A valid formula over some slots with codes of a table. -/
structure Fits (f : Formula) (table : OperatorTable) (slots : ℕ) : Prop where
  size_eq : f.size = slots
  valid : f.Valid
  codes : f.UsesCodesOf table

/-- A formula passes the check exactly when it is valid. -/
theorem validate_eq_ok_iff {f : Formula} : f.validate = .ok () ↔ f.Valid := by
  unfold validate
  dsimp only
  split
  · next hzero =>
    exact ⟨fun h => (nomatch h), fun h => absurd hzero (Nat.ne_of_gt h.pos)⟩
  · next hpos =>
    split
    · next hlengths =>
      refine ⟨fun h => (nomatch h), fun h => ?_⟩
      rcases hlengths with hsize | hcodes | hshape
      · exact absurd h.le (Nat.not_le_of_lt hsize)
      · exact absurd h.codes_length hcodes
      · exact absurd h.shape_length hshape
    · next hlengths =>
      have hle : f.slots.length ≤ maxSlots := by
        unfold size at hlengths
        omega
      have hperm := Permutation.isPermutation_iff_perm (Nat.le_trans hle maxSlots_le)
      split
      · next hnot =>
        refine ⟨fun h => (nomatch h), fun h => ?_⟩
        rw [hperm.mpr h.slots_perm] at hnot
        cases hnot
      · next his =>
        rw [checkShape_eq_ok_iff]
        constructor
        · intro hbalanced
          exact ⟨by omega, hle, by omega, by omega, hperm.mp (by simpa using his), hbalanced⟩
        · intro h
          exact h.balanced

/-- A formula over some slots with known codes fits exactly when it passes the check. -/
theorem fits_iff {f : Formula} {table : OperatorTable} {slots : ℕ} :
    f.Fits table slots ↔
      f.size = slots ∧ f.validate = .ok () ∧ ∀ code ∈ f.codes, code.toNat < table.size := by
  rw [validate_eq_ok_iff]
  exact ⟨fun h => ⟨h.size_eq, h.valid, h.codes⟩, fun h => ⟨h.1, h.2.1, h.2.2⟩⟩

instance (f : Formula) (table : OperatorTable) (slots : ℕ) : Decidable (f.Fits table slots) :=
  decidable_of_iff (f.size = slots ∧ f.validate = .ok () ∧ f.UsesCodesOf table) fits_iff.symm

/-- Three lists make a formula exactly when the formula they make is valid. -/
theorem ofParts_eq_ok_iff {slots codes : List UInt8} {shape : List Bool} {f : Formula} :
    ofParts slots codes shape = .ok f ↔ f = ⟨slots, codes, shape⟩ ∧ f.Valid := by
  unfold ofParts
  rw [Outcome.bind_eq_ok_iff]
  constructor
  · rintro ⟨_, hvalid, hf⟩
    cases hf
    exact ⟨rfl, validate_eq_ok_iff.mp hvalid⟩
  · rintro ⟨rfl, hvalid⟩
    exact ⟨(), validate_eq_ok_iff.mpr hvalid, rfl⟩

/-- The slot alone passes the check. -/
theorem valid_operand : operand.Valid :=
  validate_eq_ok_iff.mp rfl

namespace Valid

variable {f : Formula}

/-- The slots of a valid formula are those below its size. -/
theorem mem_slots_iff (h : f.Valid) {slot : UInt8} : slot ∈ f.slots ↔ slot.toNat < f.size := by
  rw [h.slots_perm.mem_iff]
  exact Permutation.mem_identity (Nat.le_trans h.le maxSlots_le)

/-- The shape of a valid formula pushes every slot. -/
theorem count_push (h : f.Valid) : f.shape.count true = f.size := by
  have hbalance := depth_add_count h.balanced
  have htotal := List.count_true_add_count_false f.shape
  have hlength := h.shape_length
  have hpos := h.pos
  omega

/-- The shape of a valid formula pops for every code. -/
theorem count_pop (h : f.Valid) : f.shape.count false = f.codes.length := by
  have hbalance := depth_add_count h.balanced
  have hpush := h.count_push
  have hcodes := h.codes_length
  omega

/-- The only valid formula over one slot is the slot itself. -/
theorem eq_operand (h : f.Valid) (hone : f.size = 1) : f = operand := by
  obtain ⟨slots, codes, shape⟩ := f
  have hslots := h.slots_perm
  have hcodes := h.codes_length
  have hshape := h.shape_length
  have hbalanced := h.balanced
  simp only [hone] at hslots hcodes hshape hbalanced
  have hslots' : slots = [0] := List.perm_singleton.mp hslots
  have hcodes' : codes = [] := List.length_eq_zero_iff.mp hcodes
  obtain ⟨push, rfl⟩ := List.length_eq_one_iff.mp hshape
  cases push with
  | true => rw [hslots', hcodes']; rfl
  | false => exact nomatch hbalanced

end Valid

end Formulary.Formula
