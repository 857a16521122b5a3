import Mathlib.Data.List.Sort
import Formulary.Proofs.Permutation.Order
import Formulary.Proofs.Subsets

/-!
# Subsets in lexicographic order

The choices from increasing slots are the increasing lists of these slots, and they come in
lexicographic order: a choice with the first slot is before every choice without it. A position in
the sequence of subsets is therefore known by the number of subsets before it. After that many calls
the upcoming subset is the choice with that number, and behind the last choice there is none, however
often the next one is asked for.
-/

namespace Formulary

/-- Choices from increasing elements come in lexicographic order. -/
theorem sorted_choices {α : Type} [LT α] {items : List α} (h : items.Pairwise (· < ·)) (size : ℕ) :
    (choices size items).Pairwise (· < ·) := by
  induction items generalizing size with
  | nil =>
    cases size with
    | zero => exact List.pairwise_singleton _ _
    | succ size => exact List.Pairwise.nil
  | cons a rest ih =>
    obtain ⟨hfirst, hrest⟩ := List.pairwise_cons.mp h
    cases size with
    | zero => exact List.pairwise_singleton _ _
    | succ size =>
      rw [choices, List.pairwise_append, List.pairwise_map]
      refine ⟨(ih hrest size).imp fun hlt => List.Lex.cons hlt, ih hrest (size + 1), ?_⟩
      intro earlier hearlier later hlater
      obtain ⟨choice, -, rfl⟩ := List.mem_map.mp hearlier
      obtain ⟨hsublist, hlength⟩ := mem_choices.mp hlater
      cases later with
      | nil => cases hlength
      | cons b choice' => exact List.Lex.rel (hfirst b (hsublist.subset List.mem_cons_self))

/-- The slots below a number stand in increasing order. -/
theorem sorted_slotsBelow {total : ℕ} (htotal : total ≤ UInt8.size) :
    (slotsBelow total).Pairwise (· < ·) :=
  Permutation.sorted_identity htotal

/-- The slots below a number that bytes can count are those that are less. -/
theorem mem_slotsBelow {total : ℕ} (htotal : total ≤ UInt8.size) {slot : UInt8} :
    slot ∈ slotsBelow total ↔ slot.toNat < total :=
  Permutation.mem_identity htotal

/-- The increasing lists of slots are what can be chosen from all slots in order. -/
theorem mem_choices_slotsBelow {total size : ℕ} (htotal : total ≤ UInt8.size) {slots : List UInt8} :
    slots ∈ choices size (slotsBelow total) ↔
      slots.Pairwise (· < ·) ∧ (∀ slot ∈ slots, slot.toNat < total) ∧ slots.length = size := by
  have hsorted := sorted_slotsBelow htotal
  rw [mem_choices, ← and_assoc, and_congr_left_iff]
  intro _
  constructor
  · intro hsublist
    exact ⟨hsorted.sublist hsublist,
      fun slot hslot => (mem_slotsBelow htotal).mp (hsublist.subset hslot)⟩
  · intro h
    obtain ⟨hincreasing, hbelow⟩ := h
    have hsubset : slots ⊆ slotsBelow total :=
      fun slot hslot => (mem_slotsBelow htotal).mpr (hbelow slot hslot)
    have hnodup : slots.Nodup := hincreasing.imp fun hlt => UInt8.ne_of_lt hlt
    exact List.sublist_of_subperm_of_pairwise (hnodup.subperm hsubset) hincreasing hsorted

namespace Subsets

/-- In a list that is gone through by successors, each element is followed by its successor, and the
last one by nothing. -/
theorem bind_successor_getElem? {total : ℕ} {subsets : List (List UInt8)}
    (hchain : subsets.IsChain (fun a b => successor total a = some b))
    (hlast : ∀ last ∈ subsets.getLast?, successor total last = none) (count : ℕ) :
    subsets[count]?.bind (successor total) = subsets[count + 1]? := by
  rcases Nat.lt_trichotomy (count + 1) subsets.length with hlt | heq | hgt
  · rw [List.getElem?_eq_getElem hlt, List.getElem?_eq_getElem (Nat.lt_of_succ_lt hlt)]
    exact List.isChain_iff_getElem.mp hchain count hlt
  · have hcount : subsets[count]? = subsets.getLast? := by
      rw [List.getLast?_eq_getElem?, ← heq, Nat.add_sub_cancel]
    rw [hcount, List.getElem?_eq_none (Nat.le_of_eq heq.symm)]
    cases hget : subsets.getLast? with
    | none => rfl
    | some last => exact hlast last hget
  · rw [List.getElem?_eq_none (Nat.le_of_lt_succ hgt), List.getElem?_eq_none (Nat.le_of_lt hgt)]
    rfl

/-- The position in the sequence of subsets that has a number of them before it. -/
def position (total size count : ℕ) : Subsets :=
  ⟨total, (choices size (slotsBelow total))[count]?⟩

variable {total size : ℕ}

/-- The sequence begins with all subsets still to come. -/
theorem start_eq_ok (htotal : total ≤ maxSubsetTotal) (hsize : size ≤ total) :
    Subsets.start total size = .ok (position total size 0) := by
  have hfirst : (choices size (slotsBelow total))[0]? = some (consecutive 0 size) := by
    rw [← List.head?_eq_getElem?, slotsBelow_eq_consecutive, head?_choices_consecutive, if_pos hsize]
  rw [position, hfirst]
  exact if_neg (by omega)

/-- Asking for the next subset gives the one at the position, and goes on by one. -/
theorem next_position (htotal : total ≤ maxSubsetTotal) (count : ℕ) :
    (position total size count).next =
      ((choices size (slotsBelow total))[count]?, position total size (count + 1)) := by
  have hzero : (0 : UInt8).toNat + total = total := Nat.zero_add total
  obtain ⟨hchain, hlast⟩ := isChain_choices htotal hzero size
  rw [← slotsBelow_eq_consecutive] at hchain hlast
  rw [position, position, ← bind_successor_getElem? hchain hlast]
  rfl

/-- Steps that are left out move the place on. -/
theorem drop_position (htotal : total ≤ maxSubsetTotal) (count more : ℕ) :
    (position total size count).drop more = position total size (count + more) := by
  induction more generalizing count with
  | zero => rfl
  | succ more ih =>
    rw [drop, next_position htotal, ih, Nat.add_assoc, Nat.add_comm 1 more]

end Subsets

end Formulary
