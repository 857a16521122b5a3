import Mathlib.Data.List.Nodup
import Mathlib.Algebra.Order.BigOperators.Group.List
import Mathlib.Tactic.Ring
import Formulary.Census

/-!
# Lists of group sizes

The sizes of groups are listed with the largest first. A first size that is at least the average, leaves
one for each of the others and does not exceed the cap is followed by all lists of smaller sizes for
what is left. So every decreasing list of positive sizes with the right sum is listed, and none twice.
-/

namespace Formulary.Census

/-- Positive sizes in decreasing order that sum up to a number. -/
structure Decreasing (sizes : List ℕ) (total : ℕ) : Prop where
  sum_eq : sizes.sum = total
  pos : ∀ size ∈ sizes, 1 ≤ size
  ordered : sizes.Pairwise (· ≥ ·)

/-- One size alone is decreasing, and its total is the size. -/
theorem decreasing_singleton_iff {size total : ℕ} :
    Decreasing [size] total ↔ size = total ∧ 1 ≤ size := by
  constructor
  · intro h
    exact ⟨by simpa using h.sum_eq, h.pos size (by simp)⟩
  · rintro ⟨rfl, hpos⟩
    exact ⟨by simp, by simpa using hpos, by simp⟩

/-- A first size comes before smaller ones that sum up to what is left. -/
theorem decreasing_cons_iff {size total : ℕ} {sizes : List ℕ} :
    Decreasing (size :: sizes) total ↔
      1 ≤ size ∧ size ≤ total ∧ (∀ other ∈ sizes, other ≤ size) ∧ Decreasing sizes (total - size) := by
  constructor
  · rintro ⟨hsum, hpos, hordered⟩
    rw [List.sum_cons] at hsum
    obtain ⟨hsize, hothers⟩ := List.forall_mem_cons.mp hpos
    obtain ⟨hle, hrest⟩ := List.pairwise_cons.mp hordered
    exact ⟨hsize, by omega, hle, by omega, hothers, hrest⟩
  · rintro ⟨hsize, htotal, hle, hsum, hpos, hordered⟩
    refine ⟨?_, List.forall_mem_cons.mpr ⟨hsize, hpos⟩, List.pairwise_cons.mpr ⟨hle, hordered⟩⟩
    rw [List.sum_cons, hsum]
    omega

/-- There are no more sizes than their sum. -/
theorem Decreasing.length_le {sizes : List ℕ} {total : ℕ} (h : Decreasing sizes total) :
    sizes.length ≤ total := by
  have hle := List.card_nsmul_le_sum sizes 1 h.pos
  simpa [h.sum_eq] using hle

/-- Sizes are bounded by the largest that is allowed. -/
theorem Decreasing.total_le {sizes : List ℕ} {total cap : ℕ} (h : Decreasing sizes total)
    (hcap : ∀ size ∈ sizes, size ≤ cap) : total ≤ sizes.length * cap := by
  have hle := List.sum_le_card_nsmul sizes cap hcap
  simpa [h.sum_eq] using hle

/-- The first size is listed if it is at least the average and leaves enough for the others. -/
theorem mem_firstSizes_iff {count left cap size : ℕ} :
    size ∈ List.range' ((left + (count + 1)) / (count + 2))
        (min (left - (count + 1)) cap + 1 - (left + (count + 1)) / (count + 2)) ↔
      left ≤ (count + 2) * size ∧ size ≤ left - (count + 1) ∧ size ≤ cap := by
  have hleast : (left + (count + 1)) / (count + 2) ≤ size ↔ left ≤ (count + 2) * size := by
    rw [← Nat.lt_succ_iff, Nat.div_lt_iff_lt_mul (by omega), Nat.succ_mul, Nat.mul_comm]
    omega
  rw [List.mem_range'_1, hleast]
  omega

/-- Whatever is listed has the right number of sizes, none above the cap, if there are lists of that
kind at all. -/
theorem mem_sizesFrom_iff {count left cap : ℕ} {sizes : List ℕ} (hleft : count + 1 ≤ left)
    (hcap : left ≤ (count + 1) * cap) :
    sizes ∈ sizesFrom count left cap ↔
      sizes.length = count + 1 ∧ Decreasing sizes left ∧ ∀ size ∈ sizes, size ≤ cap := by
  induction count generalizing left cap sizes with
  | zero =>
    rw [sizesFrom, List.mem_singleton]
    constructor
    · rintro rfl
      exact ⟨rfl, decreasing_singleton_iff.mpr ⟨rfl, hleft⟩, by simpa using hcap⟩
    · rintro ⟨hlength, hsizes, -⟩
      obtain ⟨size, rfl⟩ := List.length_eq_one_iff.mp hlength
      rw [(decreasing_singleton_iff.mp hsizes).1]
  | succ count ih =>
    simp only [sizesFrom, List.mem_flatMap, List.mem_map, mem_firstSizes_iff]
    constructor
    · rintro ⟨size, ⟨haverage, hroom, hsize⟩, rest, hrest, rfl⟩
      have hsplit : (count + 2) * size = (count + 1) * size + size := by ring
      obtain ⟨hlength, hdecreasing, hle⟩ := (ih (by omega) (by omega)).mp hrest
      refine ⟨by simp [hlength], decreasing_cons_iff.mpr ⟨?_, by omega, hle, hdecreasing⟩,
        List.forall_mem_cons.mpr ⟨hsize, fun other hother => (hle other hother).trans hsize⟩⟩
      exact Nat.pos_of_ne_zero fun hzero => by simp [hzero] at haverage; omega
    · rintro ⟨hlength, hdecreasing, hle⟩
      obtain ⟨size, rest, rfl⟩ := List.exists_cons_of_length_eq_add_one hlength
      rw [List.length_cons, Nat.add_right_cancel_iff] at hlength
      obtain ⟨hpos, htotal, hsize, hrest⟩ := decreasing_cons_iff.mp hdecreasing
      have hsplit : (count + 2) * size = (count + 1) * size + size := by ring
      have hfew := hrest.length_le
      have hmuch := hrest.total_le hsize
      rw [hlength] at hfew hmuch
      refine ⟨size, ⟨by omega, by omega, (List.forall_mem_cons.mp hle).1⟩, rest, ?_, rfl⟩
      exact (ih (by omega) (by omega)).mpr ⟨hlength, hrest, hsize⟩

/-- Lists that begin with different sizes are different. -/
theorem nodup_sizesFrom (count left cap : ℕ) : (sizesFrom count left cap).Nodup := by
  induction count generalizing left cap with
  | zero => exact List.nodup_singleton _
  | succ count ih =>
    rw [sizesFrom, List.nodup_flatMap]
    refine ⟨fun size _ => (ih _ _).map List.cons_injective, ?_⟩
    refine List.Pairwise.imp (fun {size other} hne => ?_) List.nodup_range'
    intro sizes hsizes hother
    obtain ⟨rest, -, rfl⟩ := List.mem_map.mp hsizes
    obtain ⟨rest', -, heq⟩ := List.mem_map.mp hother
    exact hne (List.cons.inj heq).1.symm

/-- The lists of one length. -/
theorem mem_sizesFrom_total_iff {n groups : ℕ} {sizes : List ℕ} (hmany : 2 ≤ groups) (hfew : groups ≤ n) :
    sizes ∈ sizesFrom (groups - 1) n n ↔ sizes.length = groups ∧ Decreasing sizes n := by
  have hgroups : groups - 1 + 1 = groups := by omega
  rw [mem_sizesFrom_iff (by omega) (by rw [hgroups]; exact Nat.le_mul_of_pos_left n (by omega)),
    hgroups]
  refine and_congr_right fun _ => and_iff_left_of_imp fun h size hsize => ?_
  rw [← h.sum_eq]
  exact List.single_le_sum (by simp) size hsize

/-- The sizes of at least two groups are listed in decreasing order. -/
theorem mem_groupSizes_iff {n : ℕ} {sizes : List ℕ} :
    sizes ∈ groupSizes n ↔ 2 ≤ sizes.length ∧ Decreasing sizes n := by
  simp only [groupSizes, List.mem_flatMap, List.mem_range'_1]
  constructor
  · rintro ⟨groups, hgroups, hsizes⟩
    obtain ⟨rfl, hdecreasing⟩ := (mem_sizesFrom_total_iff (by omega) (by omega)).mp hsizes
    exact ⟨hgroups.1, hdecreasing⟩
  · rintro ⟨hmany, hdecreasing⟩
    have hfew := hdecreasing.length_le
    exact ⟨sizes.length, by omega, (mem_sizesFrom_total_iff hmany hfew).mpr ⟨rfl, hdecreasing⟩⟩

/-- No list of sizes comes twice. -/
theorem nodup_groupSizes (n : ℕ) : (groupSizes n).Nodup := by
  rw [groupSizes, List.nodup_flatMap]
  refine ⟨fun groups _ => nodup_sizesFrom _ _ _, ?_⟩
  refine List.Pairwise.imp_of_mem (fun {groups groups'} hmem hmem' hne => ?_) List.nodup_range'
  rw [List.mem_range'_1] at hmem hmem'
  intro sizes hsizes hsizes'
  have hlength := ((mem_sizesFrom_total_iff (by omega) (by omega)).mp hsizes).1
  have hlength' := ((mem_sizesFrom_total_iff (by omega) (by omega)).mp hsizes').1
  exact hne (hlength.symm.trans hlength')

end Formulary.Census
