import Mathlib.Data.Finset.Sort
import Mathlib.Data.Finset.Powerset
import Formulary.Generation.Splits
import Formulary.Proofs.Subsets

/-!
# Every split once

A split of the slots is named by its leading part: the larger one, or of two equal parts the one
with slot zero. Of two complementary parts exactly one leads, so going through the sizes of the
larger part, and through the subsets of each size that stand for their split, visits every way to
cut the slots in two exactly once.
-/

namespace Formulary

/-- The slots of a set, in increasing order. -/
def ascending (part : Finset ℕ) : List UInt8 :=
  (part.sort (· ≤ ·)).map UInt8.ofNat

/-- A part has as many slots in ascending order as it has elements. -/
@[simp] theorem length_ascending (part : Finset ℕ) : (ascending part).length = part.card := by
  simp [ascending]

/-- The numbers of a set that are found in order are its sorted list. -/
private theorem sort_toFinset_of_sublist {m : ℕ} {numbers : List ℕ}
    (h : numbers.Sublist (List.range m)) : numbers.toFinset.sort (· ≤ ·) = numbers := by
  have hnodup := List.nodup_range.sublist h
  apply (List.toFinset_sort (· ≤ ·) hnodup).mpr
  exact (List.pairwise_le_range).sublist h

/-- A part of the slots is listed by going through all of them. -/
theorem ascending_eq_filter {m : ℕ} {part : Finset ℕ} (h : part ⊆ Finset.range m) :
    ascending part = ((List.range m).filter (· ∈ part)).map UInt8.ofNat := by
  have hset : ((List.range m).filter (· ∈ part)).toFinset = part := by
    ext slot
    simp only [List.mem_toFinset, List.mem_filter, List.mem_range, decide_eq_true_eq]
    exact ⟨fun hslot => hslot.2, fun hslot => ⟨Finset.mem_range.mp (h hslot), hslot⟩⟩
  have hsort := sort_toFinset_of_sublist (List.filter_sublist (p := (· ∈ part)) (l := List.range m))
  rw [hset] at hsort
  rw [ascending, hsort]

/-- The choices of slots are the parts in increasing order. -/
theorem sublist_slotsBelow_iff {m : ℕ} {slots : List UInt8} :
    slots.Sublist (slotsBelow m) ↔ ∃ part ⊆ Finset.range m, ascending part = slots := by
  constructor
  · intro h
    obtain ⟨numbers, hnumbers, rfl⟩ := List.sublist_map_iff.mp h
    refine ⟨numbers.toFinset, ?_, ?_⟩
    · intro slot hslot
      exact Finset.mem_range.mpr (List.mem_range.mp (hnumbers.subset (List.mem_toFinset.mp hslot)))
    · rw [ascending, sort_toFinset_of_sublist hnumbers]
  · intro h
    obtain ⟨part, hpart, rfl⟩ := h
    rw [ascending_eq_filter hpart]
    exact List.filter_sublist.map _

/-- A part and what it leaves out are all slots. -/
theorem ascending_append_perm {m : ℕ} {part : Finset ℕ} (h : part ⊆ Finset.range m) :
    (ascending part ++ ascending (Finset.range m \ part)).Perm (slotsBelow m) := by
  have hrest : (List.range m).filter (· ∈ Finset.range m \ part) =
      (List.range m).filter fun slot => !decide (slot ∈ part) := by
    apply List.filter_congr
    intro slot hslot
    simp [List.mem_range.mp hslot]
  rw [ascending_eq_filter h, ascending_eq_filter Finset.sdiff_subset, hrest, ← List.map_append]
  exact (List.filter_append_perm _ _).map _

section Parts

variable {m : ℕ} (hm : m ≤ UInt8.size) {part other : Finset ℕ}
include hm

/-- The list of a part holds the slots of the part. -/
theorem mem_ascending (h : part ⊆ Finset.range m) {slot : UInt8} :
    slot ∈ ascending part ↔ slot.toNat ∈ part := by
  simp only [ascending, List.mem_map, Finset.mem_sort]
  constructor
  · rintro ⟨number, hnumber, rfl⟩
    have hlt := Nat.lt_of_lt_of_le (Finset.mem_range.mp (h hnumber)) hm
    rwa [UInt8.toNat_ofNat_of_lt' hlt]
  · intro hslot
    exact ⟨slot.toNat, hslot, UInt8.ofNat_toNat⟩

/-- The list of a part holds no slot twice. -/
theorem nodup_ascending (h : part ⊆ Finset.range m) : (ascending part).Nodup :=
  (sublist_slotsBelow_iff.mpr ⟨part, h, rfl⟩).nodup (Permutation.nodup_identity hm)

/-- Different parts have lists of different slots. -/
theorem ascending_inj_of_perm (h : part ⊆ Finset.range m) (hother : other ⊆ Finset.range m)
    (hperm : (ascending part).Perm (ascending other)) : part = other := by
  have hmem (number : ℕ) (hlt : number < m) : number ∈ part ↔ number ∈ other := by
    have hslot : (UInt8.ofNat number).toNat = number :=
      UInt8.toNat_ofNat_of_lt' (Nat.lt_of_lt_of_le hlt hm)
    rw [← hslot, ← mem_ascending hm h, ← mem_ascending hm hother]
    exact hperm.mem_iff
  ext number
  constructor
  · intro hnumber
    exact (hmem number (Finset.mem_range.mp (h hnumber))).mp hnumber
  · intro hnumber
    exact (hmem number (Finset.mem_range.mp (hother hnumber))).mpr hnumber

/-- Different parts have different lists. -/
theorem ascending_inj (h : part ⊆ Finset.range m) (hother : other ⊆ Finset.range m)
    (heq : ascending part = ascending other) : part = other :=
  ascending_inj_of_perm hm h hother (List.Perm.of_eq heq)

/-- What a part leaves out is the complementary part, in order as well. -/
theorem complement_ascending (h : part ⊆ Finset.range m) :
    complement (ascending part) m = ascending (Finset.range m \ part) := by
  rw [ascending_eq_filter Finset.sdiff_subset, complement, slotsBelow, List.filter_map]
  congr 1
  apply List.filter_congr
  intro number hnumber
  have hlt := Nat.lt_of_lt_of_le (List.mem_range.mp hnumber) hm
  have hmem : UInt8.ofNat number ∈ ascending part ↔ (UInt8.ofNat number).toNat ∈ part :=
    mem_ascending hm h
  rw [UInt8.toNat_ofNat_of_lt' hlt] at hmem
  simp [hmem, List.mem_range.mp hnumber]

/-- The list of a part begins with slot zero if the part has slot zero. -/
theorem head?_ascending (h : part ⊆ Finset.range m) :
    (ascending part).head? = some 0 ↔ 0 ∈ part := by
  constructor
  · intro hhead
    exact (mem_ascending hm h).mp (List.mem_of_head? hhead)
  · intro hzero
    obtain ⟨n, rfl⟩ := Nat.exists_eq_succ_of_ne_zero
      (Nat.ne_of_gt (Finset.mem_range.mp (h hzero)))
    rw [ascending_eq_filter h, List.range_succ_eq_map, List.filter_cons_of_pos (by simpa using hzero)]
    rfl

end Parts

/-- A part that cuts the slots in two: neither the part nor what it leaves out is empty. -/
structure Cut (m : ℕ) (part : Finset ℕ) : Prop where
  subset : part ⊆ Finset.range m
  nonempty : part.Nonempty
  proper : part ≠ Finset.range m

/-- A part leads its split if it is the larger one, or of two equal parts the one with slot zero. -/
def Leads (m : ℕ) (part : Finset ℕ) : Prop :=
  part ⊆ Finset.range m ∧ part.card < m ∧ (m < 2 * part.card ∨ 2 * part.card = m ∧ 0 ∈ part)

instance (m : ℕ) (part : Finset ℕ) : Decidable (Leads m part) :=
  inferInstanceAs (Decidable (_ ∧ _ ∧ _))

/-- The split into a part and the slots that it leaves out. -/
def splitOf (m : ℕ) (part : Finset ℕ) : Split :=
  ⟨ascending part, ascending (Finset.range m \ part)⟩

/-- The splits whose larger part has the given size, in the order in which they are visited. -/
def splitsVisited (m size : ℕ) : List Split :=
  ((choices size (slotsBelow m)).filter (standsForSplit size m)).map fun subset =>
    ⟨subset, complement subset m⟩

/-- All splits of the slots, in the order in which they are visited. -/
def allSplits (m : ℕ) : List Split :=
  (splitSizes m).flatMap (splitsVisited m)

/-- The sizes of larger parts are at least half of all slots, and leave a slot. -/
theorem mem_splitSizes {m size : ℕ} : size ∈ splitSizes m ↔ m ≤ 2 * size ∧ size < m := by
  unfold splitSizes
  dsimp only
  rw [List.mem_reverse, List.mem_range'_1]
  split
  · omega
  · omega

/-- No size of the larger part comes twice. -/
theorem nodup_splitSizes (m : ℕ) : (splitSizes m).Nodup :=
  List.nodup_reverse.mpr List.nodup_range'

/-- The splits of one size can be listed for up to 255 slots. -/
theorem splitsOfSize_eq_ok {m size : ℕ} (hm : m ≤ maxSubsetTotal) (hsize : size ≤ m) :
    splitsOfSize m size = .ok (splitsVisited m size) := by
  unfold splitsOfSize
  rw [subsetsOf_eq_ok hm hsize]
  rfl

/-- Lists without repetitions, no two of which share an element, have none in a row either. -/
theorem nodup_flatMap_of_unique {α β : Type} {items : List α} {listFor : α → List β}
    (hitems : items.Nodup) (hlists : ∀ item ∈ items, (listFor item).Nodup)
    (hunique : ∀ item ∈ items, ∀ other ∈ items, ∀ b ∈ listFor item, b ∈ listFor other → item = other) :
    (items.flatMap listFor).Nodup := by
  apply List.nodup_flatMap.mpr
  refine ⟨hlists, hitems.pairwise_of_forall_ne fun item hitem other hother hne => ?_⟩
  intro b hb hb'
  exact hne (hunique item hitem other hother b hb hb')

section Visits

variable {m : ℕ} (hm : m ≤ UInt8.size)
include hm

/-- The splits of one size are those named by the leading parts of that size. -/
theorem mem_splitsVisited {size : ℕ} (hsize : size ∈ splitSizes m) {split : Split} :
    split ∈ splitsVisited m size ↔
      ∃ part, Leads m part ∧ part.card = size ∧ split = splitOf m part := by
  obtain ⟨hhalf, hlt⟩ := mem_splitSizes.mp hsize
  simp only [splitsVisited, List.mem_map, List.mem_filter, mem_choices, sublist_slotsBelow_iff]
  constructor
  · intro h
    obtain ⟨_, ⟨⟨⟨part, hpart, rfl⟩, hcard⟩, hstands⟩, rfl⟩ := h
    rw [length_ascending] at hcard
    simp only [standsForSplit, Bool.or_eq_true, decide_eq_true_eq, head?_ascending hm hpart]
      at hstands
    refine ⟨part, ⟨hpart, by omega, ?_⟩, hcard, by rw [splitOf, complement_ascending hm hpart]⟩
    rcases hstands with hne | hzero
    · exact Or.inl (by omega)
    · by_cases heq : 2 * part.card = m
      · exact Or.inr ⟨heq, hzero⟩
      · exact Or.inl (by omega)
  · intro h
    obtain ⟨part, ⟨hpart, _, hleads⟩, hcard, rfl⟩ := h
    refine ⟨ascending part, ⟨⟨⟨part, hpart, rfl⟩, by rw [length_ascending, hcard]⟩, ?_⟩, ?_⟩
    · simp only [standsForSplit, Bool.or_eq_true, decide_eq_true_eq, head?_ascending hm hpart]
      rcases hleads with hlarge | ⟨_, hzero⟩
      · exact Or.inl (by omega)
      · exact Or.inr hzero
    · rw [splitOf, complement_ascending hm hpart]

/-- The splits that are visited are those named by the leading parts. -/
theorem mem_allSplits {split : Split} :
    split ∈ allSplits m ↔ ∃ part, Leads m part ∧ split = splitOf m part := by
  rw [allSplits, List.mem_flatMap]
  constructor
  · intro h
    obtain ⟨size, hsize, hsplit⟩ := h
    obtain ⟨part, hleads, _, rfl⟩ := (mem_splitsVisited hm hsize).mp hsplit
    exact ⟨part, hleads, rfl⟩
  · intro h
    obtain ⟨part, hleads, rfl⟩ := h
    obtain ⟨hlt, hhalf⟩ := hleads.2
    have hsize : part.card ∈ splitSizes m := mem_splitSizes.mpr ⟨by omega, hlt⟩
    exact ⟨part.card, hsize, (mem_splitsVisited hm hsize).mpr ⟨part, hleads, rfl, rfl⟩⟩

/-- No split is visited twice. -/
theorem nodup_allSplits : (allSplits m).Nodup := by
  apply nodup_flatMap_of_unique (nodup_splitSizes m)
  · intro size _
    apply List.Nodup.map
    · intro subset other h
      exact congrArg Split.left h
    · exact (nodup_choices (Permutation.nodup_identity hm) size).filter _
  · intro size hsize other hother split hsplit hsplit'
    obtain ⟨part, _, rfl, rfl⟩ := (mem_splitsVisited hm hsize).mp hsplit
    obtain ⟨part', _, rfl, heq⟩ := (mem_splitsVisited hm hother).mp hsplit'
    have hlength := congrArg (fun split : Split => split.left.length) heq
    simpa only [splitOf, length_ascending] using hlength

/-- Different parts make different splits. -/
theorem splitOf_inj {part other : Finset ℕ} (h : part ⊆ Finset.range m)
    (hother : other ⊆ Finset.range m) (heq : splitOf m part = splitOf m other) : part = other :=
  ascending_inj hm h hother (congrArg Split.left heq)

end Visits

/-- What a part leaves out has the rest of the slots. -/
theorem card_range_sdiff {m : ℕ} {part : Finset ℕ} (h : part ⊆ Finset.range m) :
    (Finset.range m \ part).card = m - part.card := by
  rw [Finset.card_sdiff_of_subset h, Finset.card_range]

namespace Cut

variable {m : ℕ} {part : Finset ℕ}

/-- A part that cuts the slots in two leaves some. -/
theorem card_lt (h : Cut m part) : part.card < m := by
  have hlt := Finset.card_lt_card (h.subset.ssubset_of_ne h.proper)
  rwa [Finset.card_range] at hlt

/-- What the rest of the slots leaves is the part itself. -/
theorem compl_compl (h : Cut m part) : Finset.range m \ (Finset.range m \ part) = part :=
  Finset.sdiff_sdiff_eq_self h.subset

/-- The complement of a cut is a cut. -/
theorem compl (h : Cut m part) : Cut m (Finset.range m \ part) := by
  have hlt := h.card_lt
  have hpos := h.nonempty.card_pos
  have hcard := card_range_sdiff h.subset
  refine ⟨Finset.sdiff_subset, ?_, ?_⟩
  · apply Finset.card_pos.mp
    omega
  · intro heq
    rw [heq, Finset.card_range] at hcard
    omega

/-- Slot zero is in a part or in its complement. -/
theorem zero_mem_compl_iff (h : Cut m part) : 0 ∈ Finset.range m \ part ↔ 0 ∉ part := by
  simp only [Finset.mem_sdiff, Finset.mem_range]
  exact and_iff_right (Nat.zero_lt_of_lt h.card_lt)

/-- Of two complementary parts exactly one leads. -/
theorem leads_compl_iff (h : Cut m part) : Leads m (Finset.range m \ part) ↔ ¬ Leads m part := by
  have hlt := h.card_lt
  have hpos := h.nonempty.card_pos
  simp only [Leads, card_range_sdiff h.subset, h.zero_mem_compl_iff, h.subset, Finset.sdiff_subset,
    true_and, hlt]
  by_cases hmem : 0 ∈ part
  · simp only [hmem, not_true_eq_false, and_false, or_false, and_true]
    omega
  · simp only [hmem, not_false_eq_true, and_false, or_false, and_true]
    omega

/-- No part is its own complement. -/
theorem ne_compl (h : Cut m part) : part ≠ Finset.range m \ part := by
  intro heq
  obtain ⟨slot, hslot⟩ := h.nonempty
  have hother := hslot
  rw [heq] at hother
  exact (Finset.mem_sdiff.mp hother).2 hslot

/-- If a part leads, its complement does not. -/
theorem not_leads_compl (h : Cut m part) (hleads : Leads m part) :
    ¬ Leads m (Finset.range m \ part) :=
  fun hcompl => h.leads_compl_iff.mp hcompl hleads

end Cut

/-- A part that leads has a slot and leaves one. -/
theorem Leads.cut {m : ℕ} {part : Finset ℕ} (h : Leads m part) : Cut m part := by
  obtain ⟨hsubset, hlt, hhalf⟩ := h
  refine ⟨hsubset, ?_, ?_⟩
  · apply Finset.card_pos.mp
    omega
  · intro heq
    rw [heq, Finset.card_range] at hlt
    exact Nat.lt_irrefl m hlt

end Formulary
