import Mathlib.Data.Multiset.Sort
import Formulary.Proofs.Census.Distributions

/-!
# The counts as sums over partitions

The counts for a number of slots are sums over the lists of group sizes, each weighted by the ways to
distribute the slots. Collecting the partitions of a set by the sizes of their blocks turns them into
sums over all partitions into at least two blocks, of a product over the blocks.
-/

namespace Formulary.Census

open Finset

variable {α : Type*} [DecidableEq α] {s : Finset α}

/-- The partitions into at least two blocks. -/
def groupings (s : Finset α) : Finset (Finpartition s) :=
  univ.filter fun P => 2 ≤ #P.parts

/-- The groupings of a set are its partitions into at least two blocks. -/
@[simp] theorem mem_groupings {P : Finpartition s} : P ∈ groupings s ↔ 2 ≤ #P.parts := by
  simp [groupings]

/-- The blocks of a partition into several are smaller sets of slots. -/
theorem ssubset_of_mem_groupings {P : Finpartition s} (hP : P ∈ groupings s) {block : Finset α}
    (hblock : block ∈ P.parts) : block ⊂ s := by
  refine ssubset_of_subset_of_ne (P.le hblock) ?_
  rintro rfl
  obtain ⟨other, hother, hne⟩ := exists_mem_ne (mem_groupings.mp hP) block
  obtain ⟨x, hx⟩ := P.nonempty_of_mem_parts hother
  exact hne (P.eq_of_mem_parts hother hblock hx (P.le hother hx))

/-- There are as many sizes as blocks. -/
theorem card_blockSizes (P : Finpartition s) : (blockSizes P).card = #P.parts := by
  rw [blockSizes, Multiset.card_map, card_val]

/-- The sizes of the blocks in decreasing order. -/
def sortedSizes (P : Finpartition s) : List ℕ :=
  (blockSizes P).sort (· ≥ ·)

/-- In order or not, the sizes of the blocks are the same. -/
theorem coe_sortedSizes (P : Finpartition s) : (sortedSizes P : Multiset ℕ) = blockSizes P :=
  Multiset.sort_eq ..

/-- A size is in the list if some block has it. -/
theorem mem_sortedSizes {P : Finpartition s} {size : ℕ} :
    size ∈ sortedSizes P ↔ ∃ block ∈ P.parts, block.card = size := by
  rw [← Multiset.mem_coe, coe_sortedSizes, blockSizes, Multiset.mem_map]
  rfl

/-- The sizes of the blocks in decreasing order add up to the size of the set. -/
theorem decreasing_sortedSizes (P : Finpartition s) : Decreasing (sortedSizes P) #s := by
  refine ⟨?_, fun size hsize => ?_, Multiset.pairwise_sort ..⟩
  · rw [← Multiset.sum_coe, coe_sortedSizes, blockSizes]
    exact P.sum_card_parts
  · obtain ⟨block, hblock, rfl⟩ := mem_sortedSizes.mp hsize
    exact card_pos.mpr (P.nonempty_of_mem_parts hblock)

/-- The sizes of the blocks of a grouping are one of the lists of group sizes. -/
theorem sortedSizes_mem_groupSizes {P : Finpartition s} (hP : P ∈ groupings s) :
    sortedSizes P ∈ groupSizes #s := by
  refine mem_groupSizes_iff.mpr ⟨?_, decreasing_sortedSizes P⟩
  rw [← Multiset.coe_card, coe_sortedSizes, card_blockSizes]
  exact mem_groupings.mp hP

/-- The partitions into at least two blocks are collected by the sizes of their blocks. -/
theorem sum_groupings (weight : Multiset ℕ → ℕ) :
    ∑ P ∈ groupings s, weight (blockSizes P) =
      ((groupSizes #s).map fun sizes => distributions #s sizes * weight sizes).sum := by
  rw [← List.sum_toFinset _ (nodup_groupSizes _),
    ← sum_fiberwise_of_maps_to fun P hP => List.mem_toFinset.mpr (sortedSizes_mem_groupSizes hP)]
  refine sum_congr rfl fun sizes hsizes => ?_
  obtain ⟨hmany, hdecreasing⟩ := mem_groupSizes_iff.mp (List.mem_toFinset.mp hsizes)
  have hfiber : {P ∈ groupings s | sortedSizes P = sizes} = withSizes s sizes := by
    ext P
    rw [mem_filter, mem_groupings, mem_withSizes]
    constructor
    · rintro ⟨-, rfl⟩
      exact (coe_sortedSizes P).symm
    · intro hP
      refine ⟨by rwa [← card_blockSizes, hP, Multiset.coe_card], ?_⟩
      have hperm : (sortedSizes P).Perm sizes := Multiset.coe_eq_coe.mp ((coe_sortedSizes P).trans hP)
      exact hperm.eq_of_pairwise (fun _ _ _ _ hle hge => le_antisymm hge hle)
        (decreasing_sortedSizes P).ordered hdecreasing.ordered
  rw [hfiber, distributions_eq_card hdecreasing]
  exact sum_const_nat fun P hP => by rw [mem_withSizes.mp hP]

/-- The counts for `n` slots. -/
def countsAt (n : ℕ) : Counts :=
  ((tableUpTo n)[n]?).getD ⟨0, 0, 0, 0⟩

/-- The table for up to `n` slots has an entry for each number from zero to `n`. -/
theorem size_tableUpTo (n : ℕ) : (tableUpTo n).size = n + 1 := by
  induction n using tableUpTo.induct with
  | case1 => rfl
  | case2 => rfl
  | case3 n ih => rw [tableUpTo, Array.size_push, ih]

/-- A longer table keeps the entries of a shorter one. -/
theorem tableUpTo_getElem? {n size : ℕ} (hsize : size ≤ n) :
    (tableUpTo n)[size]? = some (countsAt size) := by
  induction n, hsize using Nat.le_induction with
  | base =>
    rw [countsAt, Array.getElem?_eq_getElem (by rw [size_tableUpTo]; omega), Option.getD_some]
  | succ n hle ih =>
    cases n with
    | zero =>
      obtain rfl : size = 0 := by omega
      rfl
    | succ n =>
      rw [tableUpTo, Array.getElem?_push_lt (by rw [size_tableUpTo]; omega),
        ← Array.getElem?_eq_getElem, ih]

/-- A single slot counts once in every family. -/
theorem countsAt_one : countsAt 1 = .single :=
  rfl

/-- From two slots on the counts come from the table for fewer. -/
theorem countsAt_eq (n : ℕ) : countsAt (n + 2) = countsOf (tableUpTo (n + 1)) (n + 2) := by
  have hsize := size_tableUpTo (n + 1)
  rw [countsAt, tableUpTo, ← hsize, Array.getElem?_push_size, Option.getD_some]

/-- From two slots on the number of formulas is the total of the four counts. -/
theorem count_add_two (n : ℕ) : count (n + 2) = (countsAt (n + 2)).total := by
  rw [count, tableUpTo_getElem? le_rfl]
  rfl

/-- A field of a total of counts is the total of the field. -/
theorem foldl_add (field : Counts → ℕ) (hadd : ∀ a b, field (a.add b) = field a + field b)
    (counts : List ℕ → Counts) (lists : List (List ℕ)) (start : Counts) :
    field (lists.foldl (fun total sizes => total.add (counts sizes)) start) =
      field start + (lists.map fun sizes => field (counts sizes)).sum := by
  induction lists generalizing start with
  | nil => simp
  | cons first lists ih =>
    rw [List.foldl_cons, ih, hadd, List.map_cons, List.sum_cons, Nat.add_assoc]

/-- The product over groups that the table has counts for. -/
theorem productOver_tableUpTo {n : ℕ} (field : Counts → ℕ) {sizes : List ℕ}
    (hsizes : ∀ size ∈ sizes, size ≤ n) :
    productOver (tableUpTo n) field sizes = (sizes.map fun size => field (countsAt size)).prod := by
  rw [productOver, List.prod_eq_foldl, List.foldl_map]
  refine List.foldl_ext _ _ _ fun acc size hsize => ?_
  rw [tableUpTo_getElem? (hsizes size hsize)]
  rfl

/-- The sizes of several groups are smaller than their sum. -/
theorem lt_of_mem_groupSizes {n size : ℕ} {sizes : List ℕ} (hsizes : sizes ∈ groupSizes n)
    (hsize : size ∈ sizes) : size < n := by
  obtain ⟨hmany, hdecreasing⟩ := mem_groupSizes_iff.mp hsizes
  have hothers : 0 < (sizes.erase size).sum := by
    have hlength := List.length_erase_of_mem hsize
    refine List.sum_pos _ (fun other hother => hdecreasing.pos other (List.mem_of_mem_erase hother)) ?_
    exact List.ne_nil_of_length_pos (by omega)
  have hsum := (List.perm_cons_erase hsize).sum_eq
  rw [hdecreasing.sum_eq, List.sum_cons] at hsum
  omega

/-- A count that is a product over the groups, times a factor for their number, is the same over all
partitions into at least two blocks. -/
theorem countsAt_eq_sum (field inner : Counts → ℕ) (factor : ℕ → ℕ)
    (hadd : ∀ a b, field (a.add b) = field a + field b) (hzero : field ⟨0, 0, 0, 0⟩ = 0)
    (hfield : ∀ table n sizes, field (countsFor table n sizes) =
      distributions n sizes * (factor sizes.length * productOver table inner sizes)) (hs : 2 ≤ #s) :
    field (countsAt #s) =
      ∑ P ∈ groupings s, factor #P.parts * ∏ block ∈ P.parts, inner (countsAt block.card) := by
  obtain ⟨n, hn⟩ := Nat.exists_eq_add_of_le' hs
  calc field (countsAt #s)
      = ((groupSizes #s).map fun sizes => distributions #s sizes *
          (factor sizes.length * (sizes.map fun size => inner (countsAt size)).prod)).sum := by
        rw [hn, countsAt_eq, countsOf, foldl_add field hadd, hzero, Nat.zero_add]
        refine congrArg List.sum (List.map_congr_left fun sizes hsizes => ?_)
        rw [hfield, productOver_tableUpTo]
        exact fun size hsize => Nat.le_of_lt_succ (lt_of_mem_groupSizes hsizes hsize)
    _ = ∑ P ∈ groupings s, factor #P.parts * ∏ block ∈ P.parts, inner (countsAt block.card) := by
        have hsum := sum_groupings (s := s) fun sizes =>
          factor sizes.card * (sizes.map fun size => inner (countsAt size)).prod
        simp only [Multiset.coe_card, Multiset.map_coe, Multiset.prod_coe] at hsum
        rw [← hsum]
        refine sum_congr rfl fun P _ => ?_
        rw [card_blockSizes, blockSizes, Multiset.map_map]
        rfl

/-- Products are counted by the groupings of the slots, where not all groups are inverted. -/
theorem products_countsAt (hs : 2 ≤ #s) : (countsAt #s).products =
    ∑ P ∈ groupings s, (2 ^ #P.parts - 1) * ∏ block ∈ P.parts, (countsAt block.card).sums :=
  countsAt_eq_sum Counts.products Counts.sums (fun groups => 2 ^ groups - 1) (fun _ _ => rfl) rfl
    (fun _ _ _ => Nat.mul_assoc ..) hs

/-- Sums are counted by the groupings of the slots, up to a common sign. -/
theorem sums_countsAt (hs : 2 ≤ #s) : (countsAt #s).sums =
    ∑ P ∈ groupings s, 2 ^ (#P.parts - 1) * ∏ block ∈ P.parts, (countsAt block.card).products :=
  countsAt_eq_sum Counts.sums Counts.products (fun groups => 2 ^ (groups - 1)) (fun _ _ => rfl) rfl
    (fun _ _ _ => Nat.mul_assoc ..) hs

/-- Products without subtractions are counted by the groupings into sums without subtractions. -/
theorem plainProducts_countsAt (hs : 2 ≤ #s) : (countsAt #s).plainProducts =
    ∑ P ∈ groupings s, (2 ^ #P.parts - 1) * ∏ block ∈ P.parts, (countsAt block.card).plainSums :=
  countsAt_eq_sum Counts.plainProducts Counts.plainSums (fun groups => 2 ^ groups - 1) (fun _ _ => rfl) rfl
    (fun _ _ _ => Nat.mul_assoc ..) hs

/-- Sums without subtractions are counted by the groupings into products without subtractions. -/
theorem plainSums_countsAt (hs : 2 ≤ #s) : (countsAt #s).plainSums =
    ∑ P ∈ groupings s, ∏ block ∈ P.parts, (countsAt block.card).plainProducts := by
  simpa using countsAt_eq_sum Counts.plainSums Counts.plainProducts (fun _ => 1) (fun _ _ => rfl) rfl
    (fun _ _ _ => by rw [Nat.one_mul]; rfl) hs

end Formulary.Census
