import Mathlib.Order.Partition.Finpartition
import Mathlib.Combinatorics.Enumerative.DoubleCounting
import Mathlib.Data.Nat.Choose.Basic
import Mathlib.Tactic.Ring
import Formulary.Proofs.Census.GroupSizes

/-!
# Distributing slots to groups

The ways to distribute slots to groups of given sizes are the partitions of a set with blocks of these
sizes. A block of a given size can be taken out of such a partition in as many ways as there are blocks
of its size, and put back for every choice of its slots. So the number of partitions, times the
arrangements inside the blocks and those of blocks with the same size, is the number of arrangements of
the whole set, and every division on the way to it is exact.
-/

namespace Formulary.Census

open Finset Nat

variable {α : Type*} [DecidableEq α] {s block : Finset α}

/-- The sizes of the blocks of a partition. -/
def blockSizes (P : Finpartition s) : Multiset ℕ :=
  P.parts.val.map card

/-- The partitions with blocks of the given sizes. -/
def withSizes (s : Finset α) (sizes : Multiset ℕ) : Finset (Finpartition s) :=
  univ.filter fun P => blockSizes P = sizes

/-- The partitions with some sizes are those whose blocks have these sizes. -/
@[simp] theorem mem_withSizes {sizes : Multiset ℕ} {P : Finpartition s} :
    P ∈ withSizes s sizes ↔ blockSizes P = sizes := by
  simp [withSizes]

/-- A set without a block of its partition is partitioned by the others. -/
theorem parts_avoid {P : Finpartition s} (hblock : block ∈ P.parts) :
    (P.avoid block).parts = P.parts.erase block := by
  ext other
  rw [Finpartition.mem_avoid, mem_erase]
  constructor
  · rintro ⟨part, hpart, hle, rfl⟩
    have hne : part ≠ block := fun heq => hle heq.le
    have hdisjoint : Disjoint part block := P.disjoint hpart hblock hne
    rw [sdiff_eq_self_of_disjoint hdisjoint]
    exact ⟨hne, hpart⟩
  · rintro ⟨hne, hother⟩
    have hdisjoint : Disjoint other block := P.disjoint hother hblock hne
    refine ⟨other, hother, fun hle => P.ne_bot hother ?_, sdiff_eq_self_of_disjoint hdisjoint⟩
    exact disjoint_self.mp (hdisjoint.mono_right hle)

/-- The sizes of the blocks are that of one block and those of the rest. -/
theorem blockSizes_eq_cons {P : Finpartition s} (hblock : block ∈ P.parts) :
    blockSizes P = block.card ::ₘ blockSizes (P.avoid block) := by
  rw [blockSizes, blockSizes, parts_avoid hblock, ← Multiset.map_cons,
    ← insert_val_of_notMem (notMem_erase _ _), insert_erase hblock]

/-- A block is put back next to the others. -/
def putBack (hsubset : block ⊆ s) (hne : block.Nonempty) (P : Finpartition (s \ block)) :
    Finpartition s :=
  P.extend hne.ne_empty sdiff_disjoint (sdiff_union_of_subset hsubset)

/-- The blocks of a partition with a block put back are this block and the old ones. -/
theorem parts_putBack (hsubset : block ⊆ s) (hne : block.Nonempty) (P : Finpartition (s \ block)) :
    (putBack hsubset hne P).parts = insert block P.parts :=
  rfl

/-- A block that is taken out and put back leaves a partition as it was. -/
theorem putBack_avoid (hsubset : block ⊆ s) (hne : block.Nonempty) {P : Finpartition s}
    (hblock : block ∈ P.parts) : putBack hsubset hne (P.avoid block) = P := by
  ext1
  rw [parts_putBack, parts_avoid hblock, insert_erase hblock]

/-- A block that is put back and taken out leaves a partition as it was. -/
theorem avoid_putBack (hsubset : block ⊆ s) (hne : block.Nonempty) (P : Finpartition (s \ block)) :
    (putBack hsubset hne P).avoid block = P := by
  have hnew : block ∉ P.parts := fun hmem =>
    hne.ne_empty (disjoint_self.mp (sdiff_disjoint.mono_left (P.le hmem)))
  ext1
  rw [parts_avoid (mem_insert_self _ _), parts_putBack, erase_insert hnew]

/-- The partitions that have a certain block are those of what is left. -/
theorem card_withSizes_filter_mem (hsubset : block ⊆ s) (hne : block.Nonempty) (sizes : Multiset ℕ) :
    #{P ∈ withSizes s (block.card ::ₘ sizes) | block ∈ P.parts} = #(withSizes (s \ block) sizes) := by
  refine card_nbij' (·.avoid block) (putBack hsubset hne) ?_ ?_ ?_ ?_
  · intro P hP
    obtain ⟨hsizes, hblock⟩ := mem_filter.mp hP
    rw [mem_withSizes, blockSizes_eq_cons hblock, Multiset.cons_inj_right] at hsizes
    exact mem_withSizes.mpr hsizes
  · intro P hP
    have hblock : block ∈ (putBack hsubset hne P).parts := mem_insert_self _ _
    refine mem_filter.mpr ⟨mem_withSizes.mpr ?_, hblock⟩
    rw [blockSizes_eq_cons hblock, avoid_putBack, mem_withSizes.mp hP]
  · intro P hP
    exact putBack_avoid hsubset hne (mem_filter.mp hP).2
  · intro P _
    exact avoid_putBack hsubset hne P

/-- The blocks of one size in a partition. -/
theorem card_bipartiteAbove_parts (P : Finpartition s) (size : ℕ) :
    #((powersetCard size s).bipartiteAbove (fun P block => block ∈ P.parts) P) =
      (blockSizes P).count size := by
  have hblocks : (powersetCard size s).bipartiteAbove (fun P block => block ∈ P.parts) P =
      {block ∈ P.parts | size = block.card} := by
    ext block
    rw [mem_bipartiteAbove, mem_powersetCard, mem_filter]
    exact ⟨fun h => ⟨h.2, h.1.2.symm⟩, fun h => ⟨⟨P.le h.1, h.2.symm⟩, h.1⟩⟩
  rw [hblocks, blockSizes, Multiset.count_map]
  rfl

/-- A block is taken out and put back in the same number of ways. -/
theorem card_withSizes_cons_mul {size : ℕ} (hsize : 1 ≤ size) (sizes : Multiset ℕ) :
    #(withSizes s (size ::ₘ sizes)) * (sizes.count size + 1) =
      ∑ block ∈ powersetCard size s, #(withSizes (s \ block) sizes) := by
  have hdouble := sum_card_bipartiteAbove_eq_sum_card_bipartiteBelow
    (s := withSizes s (size ::ₘ sizes)) (t := powersetCard size s) (fun P block => block ∈ P.parts)
  calc #(withSizes s (size ::ₘ sizes)) * (sizes.count size + 1)
      = ∑ P ∈ withSizes s (size ::ₘ sizes),
          #((powersetCard size s).bipartiteAbove (fun P block => block ∈ P.parts) P) := by
        refine (sum_const_nat fun P hP => ?_).symm
        rw [card_bipartiteAbove_parts, mem_withSizes.mp hP, Multiset.count_cons_self]
    _ = ∑ block ∈ powersetCard size s, #(withSizes (s \ block) sizes) := by
        rw [hdouble]
        refine sum_congr rfl fun block hblock => ?_
        obtain ⟨hsubset, rfl⟩ := mem_powersetCard.mp hblock
        exact card_withSizes_filter_mem hsubset (card_pos.mp hsize) sizes

/-- The empty set has one partition, which has no blocks. -/
theorem withSizes_empty : withSizes (∅ : Finset α) 0 = {⊥} := by
  ext P
  have hparts (Q : Finpartition (∅ : Finset α)) : Q.parts = ∅ := Q.parts_eq_empty_iff.mpr rfl
  have hP : P = ⊥ := Finpartition.ext (by rw [hparts, hparts])
  simp [hP, blockSizes, hparts]

/-- The ways to arrange groups of the same size among each other. -/
def symmetries : List ℕ → ℕ
  | [] => 1
  | size :: sizes => symmetries sizes * (sizes.count size + 1)

/-- The partitions, the arrangements inside their blocks and those of blocks of one size make up the
arrangements of a set. -/
theorem card_withSizes_mul (sizes : List ℕ) (hpos : ∀ size ∈ sizes, 1 ≤ size) (hsum : sizes.sum = #s) :
    #(withSizes s sizes) * ((sizes.map (·!)).prod * symmetries sizes) = (#s)! := by
  induction sizes generalizing s with
  | nil =>
    obtain rfl : s = ∅ := card_eq_zero.mp hsum.symm
    simp [withSizes_empty, symmetries]
  | cons size sizes ih =>
    obtain ⟨hsize, hothers⟩ := List.forall_mem_cons.mp hpos
    rw [List.sum_cons] at hsum
    have hrest (block : Finset α) (hblock : block ∈ powersetCard size s) :
        #(withSizes (s \ block) sizes) * ((sizes.map (·!)).prod * symmetries sizes) = (#s - size)! := by
      obtain ⟨hsubset, rfl⟩ := mem_powersetCard.mp hblock
      rw [← card_sdiff_of_subset hsubset]
      exact ih hothers (by rw [card_sdiff_of_subset hsubset]; omega)
    have hmany := card_withSizes_cons_mul (s := s) hsize (sizes : Multiset ℕ)
    rw [Multiset.coe_count, Multiset.cons_coe] at hmany
    calc #(withSizes s (size :: sizes : List ℕ)) *
          (((size :: sizes).map (·!)).prod * symmetries (size :: sizes))
        = size ! * (#(withSizes s (size :: sizes : List ℕ)) * (sizes.count size + 1) *
            ((sizes.map (·!)).prod * symmetries sizes)) := by
          rw [List.map_cons, List.prod_cons, symmetries]
          ring
      _ = size ! * ((#s).choose size * (#s - size)!) := by
          rw [hmany, sum_mul, sum_const_nat hrest, card_powersetCard]
      _ = (#s)! := by
          rw [← Nat.choose_mul_factorial_mul_factorial (show size ≤ #s by omega)]
          ring

/-- The factorial of the model is the usual one. -/
theorem factorial_eq (n : ℕ) : factorial n = n ! := by
  induction n with
  | zero => rfl
  | succ n ih => rw [Nat.factorial_succ, ← ih]; rfl

/-- Dividing by one number after the other is dividing by their product. -/
theorem foldl_div_factorial (ways : ℕ) (numbers : List ℕ) :
    numbers.foldl (fun ways number => ways / factorial number) ways =
      ways / (numbers.map (·!)).prod := by
  induction numbers generalizing ways with
  | nil => simp
  | cons number numbers ih =>
    rw [List.foldl_cons, ih, List.map_cons, List.prod_cons, Nat.div_div_eq_div_mul, factorial_eq]

/-- The first run of decreasing sizes has all that are equal to the first, and the lengths of the runs
give the symmetries. -/
theorem runs_cons {size : ℕ} {sizes : List ℕ} (hordered : (size :: sizes).Pairwise (· ≥ ·)) :
    ∃ others, runs (size :: sizes) = (size :: sizes).count size :: others ∧
      ((runs (size :: sizes)).map (·!)).prod = symmetries (size :: sizes) := by
  induction sizes generalizing size with
  | nil => exact ⟨[], by simp [runs], by simp [runs, symmetries]⟩
  | cons next sizes ih =>
    obtain ⟨hle, hrest⟩ := List.pairwise_cons.mp hordered
    obtain ⟨others, hruns, hprod⟩ := ih hrest
    rw [symmetries, ← hprod, runs, hruns]
    dsimp only
    -- an equal size makes the first run longer, a greater one begins a run of its own
    by_cases heq : size = next
    · subst heq
      refine ⟨others, by simp, ?_⟩
      simp only [if_true, List.map_cons, List.prod_cons, Nat.factorial_succ]
      ring
    · have hless : size ∉ next :: sizes := by
        intro hmem
        rcases List.mem_cons.mp hmem with rfl | hmem
        · exact heq rfl
        · have hnext := hle next (List.mem_cons_self ..)
          have hback := (List.pairwise_cons.mp hrest).1 size hmem
          exact heq (le_antisymm hback hnext)
      rw [List.count_cons_self (a := size), List.count_eq_zero_of_not_mem hless, if_neg heq]
      exact ⟨_, rfl, by simp⟩

/-- The slots can be distributed in as many ways as there are partitions with blocks of these sizes. -/
theorem distributions_eq_card {sizes : List ℕ} (h : Decreasing sizes #s) :
    distributions #s sizes = #(withSizes s sizes) := by
  have hruns : ((runs sizes).map (·!)).prod = symmetries sizes := by
    cases sizes with
    | nil => rfl
    | cons size sizes => exact (runs_cons h.ordered).elim fun _ hruns => hruns.2
  have hcount := card_withSizes_mul (s := s) sizes h.pos h.sum_eq
  have hpos : 0 < (sizes.map (·!)).prod * symmetries sizes :=
    Nat.pos_of_mul_pos_left (hcount ▸ Nat.factorial_pos _)
  rw [distributions, foldl_div_factorial, foldl_div_factorial, hruns, factorial_eq,
    Nat.div_div_eq_div_mul, ← hcount, Nat.mul_div_cancel _ hpos]

end Formulary.Census
