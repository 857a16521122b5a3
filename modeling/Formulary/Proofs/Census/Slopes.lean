import Mathlib.RingTheory.Derivation.Basic
import Mathlib.Order.Partition.Finpartition
import Mathlib.Tactic.FieldSimp
import Mathlib.Tactic.LinearCombination
import Mathlib.Tactic.Ring

/-!
# Values and their slopes

The value of a formula is an element of a field in which every slot is a variable. Along every slot a
value has a slope, and the slopes tell how a value is built. The rate of a sum, its slope, is the sum of
the rates of its groups, and so is the rate of a product, its slope divided by its value. Two slots are
linked in a family if the rate along one changes along the other. Slots of different groups are not
linked in the family of a formula, and for that reason they are linked in the other one.
-/

namespace Formulary.Census

open Finset

/-- A field with a variable for every slot and the slopes of its elements along the slots. -/
structure Coordinates (σ K : Type*) [DecidableEq σ] [Field K] where
  var : σ → K
  slope : σ → Derivation ℤ K K
  slope_var : ∀ x y, slope x (var y) = if x = y then 1 else 0
  slope_comm : ∀ x y q, slope x (slope y q) = slope y (slope x q)
  two_ne_zero : (2 : K) ≠ 0

/-- The outermost operators of a formula are `+` and `-`, or they are `*` and `/`. -/
inductive Family where
  | sum
  | product
deriving DecidableEq

namespace Family

variable {K ι : Type*} [Field K]

/-- The family that the groups of a formula belong to. -/
def other : Family → Family
  | sum => product
  | product => sum

/-- The sum or product over several groups. -/
def total (F : Family) (groups : Finset ι) (value : ι → K) : K :=
  match F with
  | sum => ∑ group ∈ groups, value group
  | product => ∏ group ∈ groups, value group

/-- A value that is subtracted or divided by, if it is flipped, and otherwise added or multiplied. -/
def flip (F : Family) (flipped : Bool) (q : K) : K :=
  match F, flipped with
  | _, false => q
  | sum, true => -q
  | product, true => q⁻¹

/-- What is not flipped stays as it is. -/
@[simp] theorem flip_false (F : Family) (q : K) : F.flip false q = q := by
  cases F <;> rfl

/-- The groups of a sum are products. -/
@[simp] theorem other_sum : sum.other = product := rfl

/-- The groups of a product are sums. -/
@[simp] theorem other_product : product.other = sum := rfl

/-- The groups of groups belong to the family that one began with. -/
theorem other_other (F : Family) : F.other.other = F := by
  cases F <;> rfl

/-- The total depends on the values of the groups only. -/
theorem total_congr {F : Family} {groups : Finset ι} {value value' : ι → K}
    (h : ∀ group ∈ groups, value group = value' group) :
    F.total groups value = F.total groups value' := by
  cases F with
  | sum => exact sum_congr rfl h
  | product => exact prod_congr rfl h

end Family

namespace Coordinates

variable {σ K : Type*} [DecidableEq σ] [Field K] (C : Coordinates σ K)
variable {F : Family} {s : Finset σ} {q : K} {x y : σ}

/-- The slope that adds up over the groups of a formula. -/
def rate (F : Family) (x : σ) (q : K) : K :=
  match F with
  | .sum => C.slope x q
  | .product => C.slope x q / q

/-- The rate of a value along one slot changes along another. -/
def Linked (F : Family) (q : K) (x y : σ) : Prop :=
  C.slope x (C.rate F y q) ≠ 0

/-- A value that changes along the slots of a set and along no others. -/
structure On (s : Finset σ) (q : K) : Prop where
  ne_zero : q ≠ 0
  slope_ne_zero_iff : ∀ x, C.slope x q ≠ 0 ↔ x ∈ s

variable {C}

/-- A rate vanishes exactly where the slope does. -/
theorem rate_eq_zero_iff (hq : q ≠ 0) : C.rate F x q = 0 ↔ C.slope x q = 0 := by
  cases F with
  | sum => rfl
  | product => exact div_eq_zero_iff.trans (or_iff_left hq)

/-- Flipping a value turns the sign of its rates. -/
theorem rate_flip (F : Family) (flipped : Bool) (x : σ) (q : K) :
    C.rate F x (F.flip flipped q) = if flipped then -C.rate F x q else C.rate F x q := by
  cases flipped with
  | false => simp
  | true =>
    cases F with
    | sum => exact map_neg _ _
    | product =>
      simp only [rate, Family.flip, Derivation.leibniz_inv, smul_eq_mul, if_true]
      by_cases hq : q = 0
      · simp [hq]
      · field_simp

/-- The rates of several groups add up. -/
theorem rate_total {ι : Type*} (F : Family) (x : σ) {groups : Finset ι} {value : ι → K}
    (hvalue : ∀ group ∈ groups, value group ≠ 0) :
    C.rate F x (F.total groups value) = ∑ group ∈ groups, C.rate F x (value group) := by
  cases F with
  | sum => exact map_sum _ _ _
  | product =>
    -- the product rule, divided by the product
    classical
    induction groups using Finset.induction with
    | empty => simp [rate, Family.total]
    | insert group groups hnew ih =>
      obtain ⟨hfirst, hrest⟩ := (forall_mem_insert ..).mp hvalue
      have hprod : ∏ group ∈ groups, value group ≠ 0 := prod_ne_zero_iff.mpr hrest
      rw [sum_insert hnew, ← ih hrest]
      simp only [rate, Family.total, prod_insert hnew, Derivation.leibniz, smul_eq_mul]
      field_simp
      ring

/-- A value on a set has a rate exactly along the slots of the set. -/
theorem On.rate_ne_zero_iff (h : C.On s q) : C.rate F x q ≠ 0 ↔ x ∈ s := by
  rw [← h.slope_ne_zero_iff, ne_eq, rate_eq_zero_iff h.ne_zero]

/-- A value on a set has no slope along other slots. -/
theorem On.slope_eq_zero (h : C.On s q) (hx : x ∉ s) : C.slope x q = 0 := by
  simpa using mt (h.slope_ne_zero_iff x).mp hx

/-- A value on a set has no rate along other slots. -/
theorem On.rate_eq_zero (h : C.On s q) (hx : x ∉ s) : C.rate F x q = 0 :=
  (rate_eq_zero_iff h.ne_zero).mpr (h.slope_eq_zero hx)

/-- The rates of a value tell the slots along which it changes. -/
theorem on_of_rate (hs : s.Nonempty) (h : ∀ x, C.rate F x q ≠ 0 ↔ x ∈ s) : C.On s q := by
  have hq : q ≠ 0 := by
    rintro rfl
    obtain ⟨x, hx⟩ := hs
    exact (h x).mpr hx (by cases F <;> simp [rate])
  exact ⟨hq, fun x => by rw [← h x, ne_eq, ne_eq, rate_eq_zero_iff hq]⟩

/-- A variable changes along its own slot only. -/
theorem on_var (x : σ) : C.On {x} (C.var x) := by
  have hslope (y : σ) : C.slope y (C.var x) ≠ 0 ↔ y ∈ ({x} : Finset σ) := by
    rw [C.slope_var, mem_singleton]
    simp
  exact on_of_rate (F := .sum) (singleton_nonempty x) hslope

/-- A value that is flipped changes along the same slots. -/
theorem On.flip (h : C.On s q) (F : Family) (flipped : Bool) : C.On s (F.flip flipped q) := by
  cases flipped with
  | false => simpa using h
  | true =>
    cases F with
    | sum => exact ⟨neg_ne_zero.mpr h.ne_zero, fun x => by simpa [Family.flip] using h.slope_ne_zero_iff x⟩
    | product =>
      refine ⟨inv_ne_zero h.ne_zero, fun x => ?_⟩
      simpa [Family.flip, Derivation.leibniz_inv, h.ne_zero] using h.slope_ne_zero_iff x

/-- Along a slot of a group only the rate of this group counts. -/
theorem rate_total_of_mem {P : Finpartition s} {value : Finset σ → K} {block : Finset σ}
    (hvalue : ∀ block ∈ P.parts, C.On block (value block)) (hblock : block ∈ P.parts) (hx : x ∈ block) :
    C.rate F x (F.total P.parts value) = C.rate F x (value block) := by
  rw [rate_total F x fun block hblock => (hvalue block hblock).ne_zero]
  refine sum_eq_single_of_mem block hblock fun other hother hne => ?_
  exact (hvalue other hother).rate_eq_zero fun hmem => hne (P.eq_of_mem_parts hother hblock hmem hx)

/-- The value of several groups changes along the slots of all of them. -/
theorem On.total {P : Finpartition s} {value : Finset σ → K} (hs : s.Nonempty)
    (hvalue : ∀ block ∈ P.parts, C.On block (value block)) (F : Family) :
    C.On s (F.total P.parts value) := by
  refine on_of_rate (F := F) hs fun x => ?_
  by_cases hx : x ∈ s
  · obtain ⟨block, hblock, hmem⟩ := P.exists_mem hx
    rw [rate_total_of_mem hvalue hblock hmem, (hvalue block hblock).rate_ne_zero_iff]
    exact iff_of_true hmem hx
  · refine iff_of_false (not_not.mpr ?_) hx
    rw [rate_total F x fun block hblock => (hvalue block hblock).ne_zero]
    exact sum_eq_zero fun block hblock =>
      (hvalue block hblock).rate_eq_zero fun hmem => hx (P.le hblock hmem)

/-- Where a value does not change, its rates do not change either. -/
theorem slope_rate_eq_zero (hx : C.slope x q = 0) : C.slope x (C.rate F y q) = 0 := by
  have hmixed : C.slope x (C.slope y q) = 0 := by rw [C.slope_comm, hx, map_zero]
  cases F with
  | sum => exact hmixed
  | product => simp [rate, Derivation.leibniz_div, hmixed, hx]

/-- Linked slots are slots along which the value changes. -/
theorem Linked.mem (h : C.On s q) (hlinked : C.Linked F q x y) : x ∈ s ∧ y ∈ s := by
  refine ⟨(h.slope_ne_zero_iff x).mp fun hx => hlinked (slope_rate_eq_zero hx), ?_⟩
  refine (h.rate_ne_zero_iff (F := F)).mp fun hy => hlinked ?_
  rw [hy, map_zero]

/-- Flipping a value does not change its links. -/
theorem linked_flip {flipped : Bool} :
    C.Linked F (F.flip flipped q) x y ↔ C.Linked F q x y := by
  rw [Linked, Linked, rate_flip]
  cases flipped <;> simp

/-- Slots are linked with those of a group as they are in the group. -/
theorem linked_total_iff {P : Finpartition s} {value : Finset σ → K} {block : Finset σ}
    (hvalue : ∀ block ∈ P.parts, C.On block (value block)) (hblock : block ∈ P.parts) (hy : y ∈ block) :
    C.Linked F (F.total P.parts value) x y ↔ C.Linked F (value block) x y := by
  rw [Linked, Linked, rate_total_of_mem hvalue hblock hy]

/-- Slots are linked in a sum if the mixed slope does not vanish. -/
theorem linked_sum_iff : C.Linked .sum q x y ↔ C.slope x (C.slope y q) ≠ 0 :=
  Iff.rfl

/-- Slots are linked in a product if the mixed slope is not the one of a product of two values, one
for each slot. -/
theorem linked_product_iff (hq : q ≠ 0) :
    C.Linked .product q x y ↔ q * C.slope x (C.slope y q) ≠ C.slope x q * C.slope y q := by
  have hslope : C.slope x (C.rate .product y q) =
      (q * C.slope x (C.slope y q) - C.slope x q * C.slope y q) / q ^ 2 := by
    simp only [rate, Derivation.leibniz_div, smul_eq_mul]
    field_simp
  rw [Linked, hslope, div_ne_zero_iff, sub_ne_zero]
  exact and_iff_left (pow_ne_zero 2 hq)

/-- Slots that are not linked in one family are linked in the other. -/
theorem linked_other (h : C.On s q) (hx : x ∈ s) (hy : y ∈ s) (hlinked : ¬C.Linked F q x y) :
    C.Linked F.other q x y := by
  have hslopes : C.slope x q * C.slope y q ≠ 0 :=
    mul_ne_zero ((h.slope_ne_zero_iff x).mpr hx) ((h.slope_ne_zero_iff y).mpr hy)
  cases F with
  | sum =>
    rw [linked_sum_iff, not_not] at hlinked
    rw [Family.other, linked_product_iff h.ne_zero, hlinked, mul_zero]
    exact hslopes.symm
  | product =>
    rw [linked_product_iff h.ne_zero, not_not] at hlinked
    exact right_ne_zero_of_mul (hlinked ▸ hslopes)

end Coordinates

end Formulary.Census
