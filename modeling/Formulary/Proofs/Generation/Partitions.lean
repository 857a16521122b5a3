import Mathlib.Data.Finset.Interval
import Mathlib.Order.Partition.Finpartition
import Formulary.Proofs.Generation.Enumeration

/-!
# Every partition of the slots in two sets is visited once

A partition of the slots in two sets is a cut with its complement. Exactly one of both leads, and the
splits that are visited are those that a leading part names, each once; so each partition is met once,
by its larger part, or of two equal parts by the one with slot zero.

The number of subsets that are visited for a size is a binomial coefficient, and half of it where the
subset has half of the slots: there the subsets with slot zero are those of the other slots with one
slot less. Together they are as many as the parts that lead, and so as many as the parts that hold slot
zero and leave another slot: these are the sets between `{0}` and all slots, without the last.
-/

namespace Formulary

/-- The numbers of the slots of a list. -/
def numbersOf (slots : List UInt8) : Finset ℕ :=
  (slots.map UInt8.toNat).toFinset

/-- Both parts of a split, as sets. -/
def Split.parts (split : Split) : Finset (Finset ℕ) :=
  {numbersOf split.left, numbersOf split.right}

variable {m size : ℕ} {part : Finset ℕ}

/-- The slots of a part in ascending order are those of the part. -/
theorem numbersOf_ascending (hm : m ≤ UInt8.size) (h : part ⊆ Finset.range m) :
    numbersOf (ascending part) = part := by
  have hback : ∀ number ∈ part.sort (· ≤ ·), (UInt8.toNat ∘ UInt8.ofNat) number = id number := by
    intro number hnumber
    have hlt := Finset.mem_range.mp (h ((Finset.mem_sort _).mp hnumber))
    exact UInt8.toNat_ofNat_of_lt' (Nat.lt_of_lt_of_le hlt hm)
  rw [numbersOf, ascending, List.map_map, List.map_congr_left hback, List.map_id,
    Finset.sort_toFinset]

/-- A split that a part names has this part and what it leaves out. -/
theorem parts_splitOf (hm : m ≤ UInt8.size) (h : part ⊆ Finset.range m) :
    (splitOf m part).parts = {part, Finset.range m \ part} := by
  rw [Split.parts, splitOf, numbersOf_ascending hm h, numbersOf_ascending hm Finset.sdiff_subset]

namespace Cut

/-- A cut and its complement are a partition of the slots. -/
theorem exists_partition (h : Cut m part) :
    ∃ P : Finpartition (Finset.range m), P.parts.card = 2 ∧ P.parts = {part, Finset.range m \ part} := by
  have hlt : part < Finset.range m := h.subset.ssubset_of_ne h.proper
  let single : Finpartition part := Finpartition.indiscrete h.nonempty.ne_empty
  have hparts : (single.extendOfLE hlt.le).parts = {part, Finset.range m \ part} := by
    rw [single.parts_extendOfLE_of_lt hlt, Finset.pair_comm]
    rfl
  refine ⟨single.extendOfLE hlt.le, ?_, hparts⟩
  rw [hparts, Finset.card_pair h.ne_compl]

/-- Of a cut and its complement one leads. -/
theorem exists_leads (h : Cut m part) : ∃ lead, Leads m lead ∧
    ({lead, Finset.range m \ lead} : Finset (Finset ℕ)) = {part, Finset.range m \ part} := by
  by_cases hleads : Leads m part
  · exact ⟨part, hleads, rfl⟩
  · refine ⟨Finset.range m \ part, h.leads_compl_iff.mpr hleads, ?_⟩
    rw [h.compl_compl, Finset.pair_comm]

end Cut

/-- A partition of the slots in two sets is a cut and its complement. -/
theorem exists_cut_of_card_eq_two (P : Finpartition (Finset.range m)) (h : P.parts.card = 2) :
    ∃ part, Cut m part ∧ P.parts = {part, Finset.range m \ part} := by
  obtain ⟨part, other, hne, hparts⟩ := Finset.card_eq_two.mp h
  have hpart : part ∈ P.parts := by simp [hparts]
  have hother : other ∈ P.parts := by simp [hparts]
  have hall : part ∪ other = Finset.range m := by
    have hsup := P.sup_parts
    rwa [hparts, Finset.sup_insert, Finset.sup_singleton] at hsup
  have hdisjoint : Disjoint part other := P.disjoint hpart hother hne
  have hrest : Finset.range m \ part = other := by
    rw [← hall, Finset.union_sdiff_cancel_left hdisjoint]
  refine ⟨part, ⟨P.le hpart, P.nonempty_of_mem_parts hpart, ?_⟩, by rw [hparts, hrest]⟩
  intro hwhole
  rw [hwhole, Finset.sdiff_self] at hrest
  exact (P.nonempty_of_mem_parts hother).ne_empty hrest.symm

/-- A partition in two sets is named by one leading part only. -/
theorem Leads.eq_of_parts_eq {lead other : Finset ℕ} (h : Leads m lead) (hother : Leads m other)
    (heq : ({lead, Finset.range m \ lead} : Finset (Finset ℕ)) = {other, Finset.range m \ other}) :
    lead = other := by
  have hmem : lead ∈ ({other, Finset.range m \ other} : Finset (Finset ℕ)) := by simp [← heq]
  rcases Finset.mem_insert.mp hmem with hsame | hcompl
  · exact hsame
  · rw [Finset.mem_singleton.mp hcompl] at h
    exact absurd h (hother.cut.not_leads_compl hother)

/-- Each partition of the slots in two sets is met by one of the splits that are visited. -/
theorem countP_allSplits (hm : m ≤ UInt8.size) (P : Finpartition (Finset.range m))
    (h : P.parts.card = 2) : (allSplits m).countP (fun split => split.parts = P.parts) = 1 := by
  obtain ⟨part, hcut, hparts⟩ := exists_cut_of_card_eq_two P h
  obtain ⟨lead, hleads, hlead⟩ := hcut.exists_leads
  -- only the split that the leading part names has the parts of the partition
  have hmeets : ∀ split ∈ allSplits m, decide (split.parts = P.parts) = true ↔
      (split == splitOf m lead) = true := by
    intro split hsplit
    obtain ⟨other, hother, rfl⟩ := (mem_allSplits hm).mp hsplit
    rw [decide_eq_true_eq, beq_iff_eq, parts_splitOf hm hother.1, hparts, ← hlead]
    constructor
    · intro heq
      rw [hother.eq_of_parts_eq hleads heq]
    · intro heq
      rw [splitOf_inj hm hother.1 hleads.1 heq]
  rw [List.countP_congr hmeets]
  exact List.count_eq_one_of_mem (nodup_allSplits hm) ((mem_allSplits hm).mpr ⟨lead, hleads, rfl⟩)

/-- The choices that begin with the first element are those from the others with one element less. -/
theorem filter_head?_choices {α : Type} [DecidableEq α] {a : α} {rest : List α} (ha : a ∉ rest)
    (size : ℕ) : (choices (size + 1) (a :: rest)).filter (fun choice => choice.head? = some a) =
      (choices size rest).map (a :: ·) := by
  have hwithout : ∀ choice ∈ choices (size + 1) rest, ¬ decide (choice.head? = some a) = true := by
    intro choice hchoice hhead
    have hmem := List.mem_of_head? (of_decide_eq_true hhead)
    exact ha ((mem_choices.mp hchoice).1.subset hmem)
  rw [choices, List.filter_append, List.filter_map, List.filter_eq_nil_iff.mpr hwithout,
    List.append_nil]
  congr 1
  exact List.filter_eq_self.mpr fun choice _ => by simp

/-- Of the ways to choose half of the elements, half do without a given one. -/
theorem choose_half (n : ℕ) : (2 * (n + 1)).choose (n + 1) = 2 * (2 * n + 1).choose n :=
  calc (2 * (n + 1)).choose (n + 1)
      = (2 * n + 1).choose n + (2 * n + 1).choose (n + 1) := Nat.choose_succ_succ' (2 * n + 1) n
    _ = (2 * n + 1).choose n + (2 * n + 1).choose n := by rw [Nat.choose_symm_half]
    _ = 2 * (2 * n + 1).choose n := (Nat.two_mul _).symm

/-- The number of subsets that are visited for a size. -/
theorem length_splitsVisited (hm : m ≤ UInt8.size) (hsize : size ∈ splitSizes m) :
    (splitsVisited m size).length = splitCount m size := by
  obtain ⟨hhalf, hlt⟩ := mem_splitSizes.mp hsize
  rw [splitsVisited, List.length_map, splitCount, binomial_eq_choose]
  -- of two equal parts only the one with slot zero is visited, otherwise every subset is
  by_cases heq : 2 * size = m
  · obtain ⟨fewer, rfl⟩ := Nat.exists_eq_succ_of_ne_zero (show size ≠ 0 by omega)
    subst heq
    have hstands : standsForSplit (fewer + 1) (2 * (fewer + 1)) =
        fun subset => decide (subset.head? = some 0) := by
      funext subset
      simp [standsForSplit]
    have hslots : slotsBelow (2 * (fewer + 1)) = 0 :: Subsets.consecutive 1 (2 * fewer + 1) :=
      Subsets.slotsBelow_eq_consecutive _
    have hnodup : (slotsBelow (2 * (fewer + 1))).Nodup := Permutation.nodup_identity hm
    rw [hslots, List.nodup_cons] at hnodup
    rw [if_pos rfl, Nat.succ_eq_add_one, choose_half, Nat.mul_div_cancel_left _ Nat.two_pos, hstands,
      hslots, filter_head?_choices hnodup.1, List.length_map, length_choices,
      Subsets.length_consecutive]
  · have hstands : standsForSplit size m = fun _ => true := by
      funext subset
      simp [standsForSplit, heq]
    rw [if_neg heq, hstands, List.filter_true, length_choices, Subsets.slotsBelow_eq_consecutive,
      Subsets.length_consecutive]

/-- The parts with slot zero that leave a slot are all but one of those with slot zero. -/
theorem card_filter_zero_mem (hpos : 0 < m) :
    ((Finset.range m).powerset.filter fun part => 0 ∈ part ∧ part ≠ Finset.range m).card =
      2 ^ (m - 1) - 1 := by
  have hzero : ({0} : Finset ℕ) ⊆ Finset.range m :=
    Finset.singleton_subset_iff.mpr (Finset.mem_range.mpr hpos)
  have hbetween : ((Finset.range m).powerset.filter fun part => 0 ∈ part ∧ part ≠ Finset.range m) =
      Finset.Ico {0} (Finset.range m) := by
    ext part
    rw [Finset.mem_filter, Finset.mem_powerset, Finset.mem_Ico, Finset.singleton_subset_iff,
      Finset.ssubset_iff_subset_ne]
    exact and_left_comm
  rw [hbetween, Finset.card_Ico_finset hzero, Finset.card_range, Finset.card_singleton]

/-- The number of all splits that are visited. -/
theorem length_allSplits (hm : m ≤ UInt8.size) (hpos : 0 < m) :
    (allSplits m).length = 2 ^ (m - 1) - 1 := by
  have hleading := sum_allSplits hm fun _ => 1
  have hcomm (a b : ℕ) : (fun _ _ => 1 : ℕ → ℕ → ℕ) a b = (fun _ _ => 1 : ℕ → ℕ → ℕ) b a := rfl
  have hnames := (names_leads m).sum_eq_sum (names_zero m) hcomm
  rw [hnames, Finset.sum_const, card_filter_zero_mem hpos] at hleading
  simpa using hleading

/-- Going through all sizes of the larger part, through the subsets of each size and leaving out those
without slot zero where the subset has half of the slots, the loop over splits meets every partition of
the slots in two sets exactly once, with the larger part first and the slots that it leaves out second.
No size is refused, the number of splits of each size is as computed, and there are `2 ^ (m - 1) - 1` of
them in all. -/
theorem splits_partition (hmany : 2 ≤ m) (hm : m ≤ maxSubsetTotal) :
    ∃ visits : List (List Split), (splitSizes m).mapM (splitsOfSize m) = .ok visits ∧
      (∀ size ∈ splitSizes m, isProperSplit size m = true) ∧
      visits.map List.length = (splitSizes m).map (splitCount m) ∧
      ((splitSizes m).map (splitCount m)).sum = 2 ^ (m - 1) - 1 ∧
      (∀ split ∈ visits.flatten, split.right = complement split.left m ∧
        split.right.length ≤ split.left.length ∧
        ∃ P : Finpartition (Finset.range m), P.parts.card = 2 ∧ split.parts = P.parts) ∧
      ∀ P : Finpartition (Finset.range m), P.parts.card = 2 →
        visits.flatten.countP (fun split => split.parts = P.parts) = 1 := by
  have hbyte : m ≤ UInt8.size := Nat.le_trans hm maxSubsetTotal_le
  have hvisits : (splitSizes m).mapM (splitsOfSize m) =
      .ok ((splitSizes m).map (splitsVisited m)) :=
    Outcome.mapM_eq_ok_map fun size hsize =>
      splitsOfSize_eq_ok hm (Nat.le_of_lt (mem_splitSizes.mp hsize).2)
  have hlengths : ((splitSizes m).map (splitsVisited m)).map List.length =
      (splitSizes m).map (splitCount m) := by
    rw [List.map_map]
    exact List.map_congr_left fun size hsize => length_splitsVisited hbyte hsize
  have hflat : ((splitSizes m).map (splitsVisited m)).flatten = allSplits m :=
    List.flatMap_def.symm
  refine ⟨_, hvisits, fun size hsize => ?_, hlengths, ?_, ?_, ?_⟩
  · obtain ⟨hhalf, hlt⟩ := mem_splitSizes.mp hsize
    rw [isProperSplit, Bool.and_eq_true, decide_eq_true_eq, decide_eq_true_eq]
    omega
  · rw [← hlengths, ← List.length_flatten, hflat, length_allSplits hbyte (by omega)]
  · rw [hflat]
    intro split hsplit
    obtain ⟨part, hleads, rfl⟩ := (mem_allSplits hbyte).mp hsplit
    obtain ⟨P, hcard, hparts⟩ := hleads.cut.exists_partition
    obtain ⟨hsubset, hlt, hhalf⟩ := hleads
    refine ⟨(complement_ascending hbyte hsubset).symm, ?_, P, hcard, ?_⟩
    · rw [splitOf, length_ascending, length_ascending, card_range_sdiff hsubset]
      omega
    · rw [parts_splitOf hbyte hsubset, hparts]
  · rw [hflat]
    exact countP_allSplits hbyte

/-- Four slots are cut in four ways into three slots and one, and in three ways into two slots and two,
one of which is `{0, 3}` and `{1, 2}`. -/
theorem splits_partition_fourSlots :
    2 ≤ 4 ∧ 4 ≤ maxSubsetTotal ∧ ∃ visits, (splitSizes 4).mapM (splitsOfSize 4) = .ok visits ∧
      visits.map List.length = [4, 3] ∧ 4 + 3 = 2 ^ (4 - 1) - 1 ∧
      visits.flatten.countP (fun split => split.parts = {{0, 3}, {1, 2}}) = 1 := by
  have hmany : 2 ≤ 4 := by decide
  have hm : 4 ≤ maxSubsetTotal := by decide
  have hcut : Cut 4 {0, 3} := ⟨by decide, by decide, by decide⟩
  have hrest : Finset.range 4 \ {0, 3} = {1, 2} := by decide
  have hcounts : (splitSizes 4).map (splitCount 4) = [4, 3] := by decide
  obtain ⟨P, hcard, hparts⟩ := hcut.exists_partition
  obtain ⟨visits, hvisits, -, hlengths, hsum, -, honce⟩ := splits_partition hmany hm
  have hmet := honce P hcard
  rw [hcounts] at hlengths hsum
  rw [hparts, hrest] at hmet
  exact ⟨hmany, hm, visits, hvisits, hlengths, hsum, hmet⟩

end Formulary
