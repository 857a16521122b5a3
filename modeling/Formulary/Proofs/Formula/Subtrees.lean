import Formulary.Proofs.Formula.Grammar
import Formulary.Proofs.Permutation.Order

/-!
# The parts of a formula

The parts of a formula are the subtrees of its tree. A part holds some of the slots, and becomes a
formula of its own when its slots are renumbered in their order from zero on. There is such a
renumbering for every choice of slots. On slots that are numbered from zero on already it changes
nothing, and a renumbering of slots that were renamed in order renumbers the slots they had before.
-/

namespace Formulary

namespace Tree

/-- The subtrees of a tree, the tree itself among them. -/
def subtrees : Tree → List Tree
  | leaf slot => [leaf slot]
  | node code left right => node code left right :: (left.subtrees ++ right.subtrees)

variable {s t : Tree}

/-- The subtrees of a tree with renamed leaves are its subtrees with renamed leaves. -/
theorem subtrees_relabel (t : Tree) (mapping : List UInt8) :
    (t.relabel mapping).subtrees = t.subtrees.map (relabel mapping) := by
  induction t with
  | leaf slot => rfl
  | node code left right ihLeft ihRight => simp [relabel, subtrees, ihLeft, ihRight]

/-- Renaming the leaves of a tree renames its slots one by one. -/
theorem slots_relabel (t : Tree) (mapping : List UInt8) :
    (t.relabel mapping).slots = t.slots.map fun slot => mapping.getD slot.toNat 0 := by
  induction t with
  | leaf slot => rfl
  | node code left right ihLeft ihRight => simp [relabel, slots, ihLeft, ihRight]

/-- Renaming the leaves of a tree does not change their number. -/
@[simp] theorem leaves_relabel (t : Tree) (mapping : List UInt8) :
    (t.relabel mapping).leaves = t.leaves := by
  rw [leaves, slots_relabel, List.length_map, leaves]

/-- A subtree holds some of the slots. -/
theorem slots_sublist (h : s ∈ t.subtrees) : s.slots.Sublist t.slots := by
  induction t with
  | leaf slot =>
    obtain rfl := List.mem_singleton.mp h
    exact List.Sublist.refl _
  | node code left right ihLeft ihRight =>
    rw [subtrees, List.mem_cons, List.mem_append] at h
    rcases h with rfl | h | h
    · exact List.Sublist.refl _
    · exact (ihLeft h).trans (List.sublist_append_left ..)
    · exact (ihRight h).trans (List.sublist_append_right ..)

end Tree

/-- A list that renames slots to as many slots from zero on, and keeps their order. -/
structure Renumbers (mapping slots : List UInt8) : Prop where
  room : ∀ slot ∈ slots, slot.toNat < mapping.length
  ordered : ∀ a ∈ slots, ∀ b ∈ slots, a < b → mapping.getD a.toNat 0 < mapping.getD b.toNat 0
  onto : (slots.map fun slot => mapping.getD slot.toNat 0).Perm (slotsBelow slots.length)

variable {slots mapping : List UInt8}

/-- In a list in increasing order a smaller entry stands before a greater one. -/
theorem idxOf_lt_idxOf {sorted : List UInt8} (hsorted : sorted.Pairwise (· < ·)) {a b : UInt8}
    (ha : a ∈ sorted) (hb : b ∈ sorted) (hlt : a < b) : sorted.idxOf a < sorted.idxOf b := by
  have ha' := List.idxOf_lt_length_of_mem ha
  have hb' := List.idxOf_lt_length_of_mem hb
  by_contra hle
  rcases Nat.lt_or_eq_of_le (Nat.le_of_not_lt hle) with hbefore | hsame
  · have hback := List.pairwise_iff_getElem.mp hsorted _ _ hb' ha' hbefore
    rw [List.getElem_idxOf, List.getElem_idxOf] at hback
    exact UInt8.lt_asymm hlt hback
  · have heq : a = b := (List.idxOf_inj ha).mp hsame.symm
    rw [heq] at hlt
    exact UInt8.lt_irrefl b hlt

/-- Different slots can be renumbered in their order. -/
theorem exists_renumbers (hslots : slots.Nodup) : ∃ mapping, Renumbers mapping slots := by
  have hbyte (slot : UInt8) : slot ∈ slotsBelow UInt8.size :=
    (Permutation.mem_identity le_rfl).mpr slot.toNat_lt
  have hsorted : ((slotsBelow UInt8.size).filter (· ∈ slots)).Pairwise (· < ·) :=
    (Permutation.sorted_identity le_rfl).sublist List.filter_sublist
  have hnodup : ((slotsBelow UInt8.size).filter (· ∈ slots)).Nodup :=
    (Permutation.nodup_identity le_rfl).sublist List.filter_sublist
  have hlength : ((slotsBelow UInt8.size).filter (· ∈ slots)).length ≤ UInt8.size :=
    List.filter_sublist.length_le.trans (Permutation.length_identity _).le
  have hperm : slots.Perm ((slotsBelow UInt8.size).filter (· ∈ slots)) := by
    refine (List.perm_ext_iff_of_nodup hslots hnodup).mpr fun slot => ?_
    simp [hbyte]
  -- each slot gets its place among the slots in increasing order
  generalize (slotsBelow UInt8.size).filter (· ∈ slots) = sorted at hsorted hnodup hlength hperm
  have hgetD (slot : UInt8) : ((slotsBelow UInt8.size).map fun slot => UInt8.ofNat (sorted.idxOf slot)).getD
      slot.toNat 0 = UInt8.ofNat (sorted.idxOf slot) := by
    have hlt : slot.toNat < UInt8.size := slot.toNat_lt
    simp [slotsBelow, hlt]
  refine ⟨(slotsBelow UInt8.size).map fun slot => UInt8.ofNat (sorted.idxOf slot), ?_, ?_, ?_⟩
  · intro slot _
    simpa [slotsBelow] using slot.toNat_lt
  · intro a ha b hb hlt
    have hplace := idxOf_lt_idxOf hsorted (hperm.mem_iff.mp ha) (hperm.mem_iff.mp hb) hlt
    have hplaceB := List.idxOf_lt_length_of_mem (hperm.mem_iff.mp hb)
    rw [hgetD, hgetD, UInt8.lt_iff_toNat_lt, UInt8.toNat_ofNat_of_lt' (by omega),
      UInt8.toNat_ofNat_of_lt' (by omega)]
    exact hplace
  · simp only [hgetD]
    have hplaces : sorted.map (fun slot => UInt8.ofNat (sorted.idxOf slot)) = slotsBelow slots.length := by
      refine List.ext_getElem (by simp [slotsBelow, hperm.length_eq]) fun i hi hi' => ?_
      simp [slotsBelow, hnodup.idxOf_getElem]
    rw [← hplaces]
    exact hperm.map _

/-- Slots that are numbered from zero on keep their numbers. -/
theorem Renumbers.eq_self (h : Renumbers mapping slots) (hperm : slots.Perm (slotsBelow slots.length))
    (hle : slots.length ≤ UInt8.size) {slot : UInt8} (hslot : slot ∈ slots) :
    mapping.getD slot.toNat 0 = slot := by
  have hsorted : (slotsBelow slots.length).Pairwise (· < ·) := Permutation.sorted_identity hle
  have hmapped : ((slotsBelow slots.length).map fun slot => mapping.getD slot.toNat 0).Pairwise
      (· < ·) := by
    rw [List.pairwise_map]
    exact hsorted.imp_of_mem fun ha hb hlt =>
      h.ordered _ (hperm.mem_iff.mpr ha) _ (hperm.mem_iff.mpr hb) hlt
  -- both lists hold the same numbers, and both stand in increasing order
  have heq : (slotsBelow slots.length).map (fun slot => mapping.getD slot.toNat 0) =
      slotsBelow slots.length := by
    have hsame := (hperm.map fun slot : UInt8 => mapping.getD slot.toNat 0).symm.trans h.onto
    exact hsame.eq_of_pairwise (fun _ _ _ _ hlt hgt => absurd hlt (UInt8.lt_asymm hgt)) hmapped hsorted
  exact List.map_inj_left.mp (heq.trans (List.map_id _).symm) slot (hperm.mem_iff.mp hslot)

/-- Two lists one after the other rename as one list does. -/
theorem getD_map_getD {part : List UInt8} {place : ℕ} (hplace : place < part.length) :
    (part.map fun slot => mapping.getD slot.toNat 0).getD place 0 =
      mapping.getD (part.getD place 0).toNat 0 := by
  rw [List.getD_eq_getElem _ _ (by rwa [List.length_map]), List.getD_eq_getElem _ _ hplace,
    List.getElem_map]

/-- To put a formula on one list and then on another is to put it on the list that both make. -/
theorem Formula.placeOn_placeOn {f : Formula} {part : List UInt8}
    (hroom : ∀ slot ∈ f.slots, slot.toNat < part.length) :
    (f.placeOn part).placeOn mapping = f.placeOn (part.map fun slot => mapping.getD slot.toNat 0) := by
  have hslots : (f.placeOn part).slots.map (fun slot => mapping.getD slot.toNat 0) =
      f.slots.map fun slot => (part.map fun slot => mapping.getD slot.toNat 0).getD slot.toNat 0 := by
    rw [placeOn, List.map_map]
    exact List.map_congr_left fun slot hslot => (getD_map_getD (hroom slot hslot)).symm
  rw [placeOn, hslots]
  rfl

/-- Slots that were renamed in order are renumbered as they were before. -/
theorem Renumbers.comp {part : List UInt8} (hpart : part.Pairwise (· < ·))
    (hroom : ∀ slot ∈ slots, slot.toNat < part.length)
    (h : Renumbers mapping (slots.map fun slot => part.getD slot.toNat 0)) :
    Renumbers (part.map fun slot => mapping.getD slot.toNat 0) slots := by
  have hmem (slot : UInt8) (hslot : slot ∈ slots) :
      part.getD slot.toNat 0 ∈ slots.map fun slot => part.getD slot.toNat 0 :=
    List.mem_map_of_mem hslot
  refine ⟨fun slot hslot => by simpa using hroom slot hslot, fun a ha b hb hlt => ?_, ?_⟩
  · rw [getD_map_getD (hroom a ha), getD_map_getD (hroom b hb)]
    refine h.ordered _ (hmem a ha) _ (hmem b hb) ?_
    rw [List.getD_eq_getElem _ _ (hroom a ha), List.getD_eq_getElem _ _ (hroom b hb)]
    exact List.pairwise_iff_getElem.mp hpart _ _ _ _ (UInt8.lt_iff_toNat_lt.mp hlt)
  · rw [List.map_congr_left fun slot hslot => getD_map_getD (hroom slot hslot)]
    simpa [Function.comp_def] using h.onto

end Formulary
