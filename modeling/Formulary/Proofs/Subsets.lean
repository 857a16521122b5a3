import Mathlib.Data.List.Chain
import Mathlib.Data.List.Sublists
import Mathlib.Data.Nat.Choose.Basic
import Formulary.Proofs.Permutation
import Formulary.Subsets

/-!
# Enumerating subsets

Taking the successor again and again runs through all increasing lists of slots of one size in
lexicographic order and then stops. The number of subsets is the binomial coefficient, so asking
for that many of them gives each exactly once.
-/

namespace Formulary

/-- Every slot of a subset is a byte. -/
theorem maxSubsetTotal_le : maxSubsetTotal ≤ UInt8.size := by decide

/-- The sublists of a given length, those with the first element first. -/
def choices {α : Type} : ℕ → List α → List (List α)
  | 0, _ => [[]]
  | _ + 1, [] => []
  | size + 1, a :: rest => (choices size rest).map (a :: ·) ++ choices (size + 1) rest

/-- Up to their order these are the sublists of that length. -/
theorem choices_perm_sublistsLen {α : Type} (size : ℕ) (items : List α) :
    (choices size items).Perm (List.sublistsLen size items) := by
  induction items generalizing size with
  | nil =>
    cases size with
    | zero => exact List.Perm.refl _
    | succ size => exact List.Perm.refl _
  | cons a rest ih =>
    cases size with
    | zero => simp [choices]
    | succ size =>
      rw [List.sublistsLen_succ_cons]
      exact (((ih size).map _).append (ih (size + 1))).trans List.perm_append_comm

/-- The choices of a list are its sublists of one length. -/
theorem mem_choices {α : Type} {size : ℕ} {items choice : List α} :
    choice ∈ choices size items ↔ choice.Sublist items ∧ choice.length = size := by
  rw [(choices_perm_sublistsLen size items).mem_iff, List.mem_sublistsLen]

/-- If no item comes twice, no choice does. -/
theorem nodup_choices {α : Type} {items : List α} (h : items.Nodup) (size : ℕ) :
    (choices size items).Nodup :=
  (choices_perm_sublistsLen size items).nodup_iff.mpr (List.nodup_sublistsLen size h)

/-- The number of choices is the binomial coefficient. -/
@[simp] theorem length_choices {α : Type} (size : ℕ) (items : List α) :
    (choices size items).length = items.length.choose size := by
  rw [(choices_perm_sublistsLen size items).length_eq, List.length_sublistsLen]

namespace Subsets

/-- Consecutive slots are consecutive numbers. -/
theorem consecutive_ofNat (first count : ℕ) :
    consecutive (UInt8.ofNat first) count = (List.range' first count).map UInt8.ofNat := by
  induction count generalizing first with
  | zero => rfl
  | succ count ih =>
    have hnext : UInt8.ofNat first + 1 = UInt8.ofNat (first + 1) := (UInt8.ofNat_add first 1).symm
    rw [consecutive, List.range'_succ, List.map_cons, hnext, ih]

/-- The slots below a number follow one another from zero on. -/
theorem slotsBelow_eq_consecutive (total : ℕ) : slotsBelow total = consecutive 0 total := by
  rw [slotsBelow, List.range_eq_range', ← consecutive_ofNat]
  rfl

/-- The slot behind one that is not the last. -/
private theorem toNat_succ {slot : UInt8} {count total : ℕ} (htotal : total ≤ maxSubsetTotal)
    (h : slot.toNat + (count + 1) = total) : (slot + 1).toNat + count = total := by
  have hlt : slot.toNat + 1 < 256 := by
    unfold maxSubsetTotal at htotal
    omega
  rw [UInt8.toNat_add, UInt8.toNat_one, Nat.mod_eq_of_lt hlt]
  omega

/-- The first choice takes the first elements. -/
theorem head?_choices_consecutive (first : UInt8) (count size : ℕ) :
    (choices size (consecutive first count)).head? =
      if size ≤ count then some (consecutive first size) else none := by
  induction count generalizing first size with
  | zero =>
    cases size with
    | zero => rfl
    | succ size => rfl
  | succ count ih =>
    cases size with
    | zero => simp [choices, consecutive]
    | succ size =>
      rw [consecutive, choices, List.head?_append, List.head?_map, ih]
      by_cases hsize : size ≤ count
      · simp [hsize, consecutive]
      · have hnone : ¬ size + 1 ≤ count := by omega
        simp [hsize, hnone, ih]

/-- Where the rest of a choice has no successor, the first slot moves on. -/
theorem successor_cons_of_none {total : ℕ} {first : UInt8} {count : ℕ} {choice : List UInt8}
    (h : first.toNat + (count + 1) = total) (hlast : successor total choice = none) :
    successor total (first :: choice) =
      (choices (choice.length + 1) (consecutive (first + 1) count)).head? := by
  rw [successor, hlast, head?_choices_consecutive]
  by_cases hroom : choice.length + 1 ≤ count
  · rw [if_pos hroom]
    exact if_pos (by omega)
  · rw [if_neg hroom]
    exact if_neg (by omega)

/-- Each choice from consecutive slots is followed by its successor, and the last one has none. -/
theorem isChain_choices {total : ℕ} (htotal : total ≤ maxSubsetTotal) {first : UInt8} {count : ℕ}
    (h : first.toNat + count = total) (size : ℕ) :
    (choices size (consecutive first count)).IsChain (fun a b => successor total a = some b) ∧
      ∀ last ∈ (choices size (consecutive first count)).getLast?, successor total last = none := by
  induction count generalizing first size with
  | zero =>
    cases size with
    | zero => simp [choices, successor]
    | succ size => simp [choices, consecutive]
  | succ count ih =>
    cases size with
    | zero => simp [choices, successor]
    | succ size =>
      have hnext := toNat_succ htotal h
      obtain ⟨hwith, hwithLast⟩ := ih hnext size
      obtain ⟨hwithout, hwithoutLast⟩ := ih hnext (size + 1)
      rw [consecutive, choices]
      -- the last choice with the first slot is followed by the first choice without it
      have hmoves : ∀ choice ∈ (choices size (consecutive (first + 1) count)).getLast?,
          successor total (first :: choice) =
            (choices (size + 1) (consecutive (first + 1) count)).head? := by
        intro choice hchoice
        have hlength := (mem_choices.mp (List.mem_of_getLast? hchoice)).2
        rw [successor_cons_of_none h (hwithLast choice hchoice), hlength]
      constructor
      · apply List.IsChain.append _ hwithout
        · intro last hlast next hhead
          rw [List.getLast?_map] at hlast
          obtain ⟨choice, hchoice, rfl⟩ := Option.map_eq_some_iff.mp hlast
          rw [hmoves choice hchoice]
          exact hhead
        · apply List.isChain_map_of_isChain _ _ hwith
          intro a b hab
          rw [successor, hab]
      · intro last hlast
        rw [List.getLast?_append] at hlast
        rcases Option.or_eq_some_iff.mp hlast with hlast | ⟨hnone, hlast⟩
        · exact hwithoutLast last hlast
        · rw [List.getLast?_map] at hlast
          obtain ⟨choice, hchoice, rfl⟩ := Option.map_eq_some_iff.mp hlast
          rw [hmoves choice hchoice, List.getLast?_eq_none_iff.mp hnone, List.head?_nil]

/-- Going through a list by successors takes its elements in order. -/
theorem take_of_isChain {total : ℕ} {subsets : List (List UInt8)}
    (hchain : subsets.IsChain (fun a b => successor total a = some b))
    (hlast : ∀ last ∈ subsets.getLast?, successor total last = none) (count : ℕ) :
    (Subsets.mk total subsets.head?).take count = subsets.take count := by
  induction subsets generalizing count with
  | nil =>
    cases count with
    | zero => rfl
    | succ count => rfl
  | cons subset rest ih =>
    cases count with
    | zero => rfl
    | succ count =>
      have hnext : successor total subset = rest.head? := by
        cases rest with
        | nil => exact hlast subset rfl
        | cons following rest => exact (List.isChain_cons_cons.mp hchain).1
      have hrest : ∀ last ∈ rest.getLast?, successor total last = none := by
        intro last hmem
        exact hlast last (List.mem_getLast?_cons hmem)
      have htake := ih (List.IsChain.tail hchain) hrest count
      rw [← hnext] at htake
      rw [List.take_succ_cons, ← htake]
      rfl

end Subsets

/-- Multiplying and dividing in turn goes through binomial coefficients, so no division rounds. -/
theorem foldl_range_eq_choose (total count : ℕ) :
    (List.range count).foldl (fun acc i => acc * (total - i) / (i + 1)) 1 = total.choose count := by
  induction count with
  | zero => simp
  | succ count ih =>
    rw [List.range_succ, List.foldl_append, ih, List.foldl_cons, List.foldl_nil,
      ← Nat.choose_succ_right_eq, Nat.mul_div_cancel _ count.succ_pos]

/-- The number of subsets is the binomial coefficient. -/
theorem binomial_eq_choose (total size : ℕ) : binomial total size = total.choose size := by
  unfold binomial
  by_cases h : total < size
  · rw [if_pos h, Nat.choose_eq_zero_of_lt h]
  · have hle := Nat.le_of_not_lt h
    rw [if_neg h, foldl_range_eq_choose]
    rcases Nat.le_total size (total - size) with hsmall | hlarge
    · rw [Nat.min_eq_left hsmall]
    · rw [Nat.min_eq_right hlarge, Nat.choose_symm hle]

/-- The subsets of one size are the choices of that many slots, in lexicographic order. -/
theorem subsetsOf_eq_ok {total size : ℕ} (htotal : total ≤ maxSubsetTotal) (hsize : size ≤ total) :
    subsetsOf total size = .ok (choices size (slotsBelow total)) := by
  have hstart : Subsets.start total size = .ok ⟨total, some (Subsets.consecutive 0 size)⟩ :=
    if_neg (by omega)
  have hhead := Subsets.head?_choices_consecutive 0 total size
  rw [if_pos hsize] at hhead
  have hzero : (0 : UInt8).toNat + total = total := Nat.zero_add total
  obtain ⟨hchain, hlast⟩ := Subsets.isChain_choices htotal hzero size
  have htake := Subsets.take_of_isChain hchain hlast (binomial total size)
  have hlength : (choices size (Subsets.consecutive 0 total)).length = binomial total size := by
    rw [length_choices, Subsets.length_consecutive, binomial_eq_choose]
  rw [hhead, ← hlength, List.take_length] at htake
  unfold subsetsOf
  rw [hstart, Subsets.slotsBelow_eq_consecutive, ← htake, hlength]
  rfl

end Formulary
