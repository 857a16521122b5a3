import Formulary.Proofs.Census.Distributions
import Formulary.Proofs.Census.Filling

/-!
# Dividing by one factorial after the other

The ways to distribute slots to groups are found by dividing the arrangements of all slots, run by run
of groups with the same size: by the arrangements inside each group of the run, then by those of the
groups among each other. The factorials are read from an array.

A division is refused here if it leaves a remainder, and so is reading outside of the array. Neither
happens: the arrangements of all slots are the number of partitions times all that is divided by, and
what is left after each run is that number times what the runs behind it divide by.
-/

namespace Formulary.Census

open Finset Nat

/-- A quotient, unless the divisor is zero or there is a remainder. -/
def divide? (a b : ℕ) : Option ℕ :=
  if b ≠ 0 ∧ b ∣ a then some (a / b) else none

/-- A multiple is divided without a remainder. -/
theorem divide?_mul {b : ℕ} (quotient : ℕ) (hb : 0 < b) : divide? (quotient * b) b = some quotient := by
  rw [divide?, if_pos ⟨hb.ne', Dvd.intro_left quotient rfl⟩, Nat.mul_div_cancel _ hb]

/-- Divide several times by the same number. -/
def divideTimes? (divisor : ℕ) : (times number : ℕ) → Option ℕ
  | 0, number => some number
  | times + 1, number => do
    let quotient ← divide? number divisor
    divideTimes? divisor times quotient

/-- A multiple of a power is divided by the base as often as the exponent says. -/
theorem divideTimes?_mul {divisor : ℕ} (quotient times : ℕ) (hdivisor : 0 < divisor) :
    divideTimes? divisor times (quotient * divisor ^ times) = some quotient := by
  induction times with
  | zero => simp [divideTimes?]
  | succ times ih =>
    rw [divideTimes?, pow_succ, ← mul_assoc, divide?_mul _ hdivisor]
    exact ih

/-- The place behind all entries from a place on that are equal to `part`. -/
def runEnd (parts : Array ℕ) (part place : ℕ) : ℕ :=
  if h : place < parts.size then
    if parts[place] = part then runEnd parts part (place + 1) else place
  else
    place
termination_by parts.size - place

/-- A run does not end before the place where it is looked for. -/
theorem le_runEnd (parts : Array ℕ) (part place : ℕ) : place ≤ runEnd parts part place := by
  fun_induction runEnd parts part place with
  | case1 place _ _ ih => omega
  | case2 => rfl
  | case3 => rfl

/-- Divide the arrangements by those inside the groups and by those of groups of the same size, one
run after the other from a place on. -/
def divideRuns? (factorials parts : Array ℕ) (start ways : ℕ) : Option ℕ :=
  if h : start < parts.size then do
    let stop := runEnd parts parts[start] (start + 1)
    let repeats ← minus? stop start
    let inside ← factorials[parts[start]]?
    let ways ← divideTimes? inside repeats ways
    let among ← factorials[repeats]?
    let ways ← divide? ways among
    divideRuns? factorials parts stop ways
  else
    some ways
termination_by parts.size - start
decreasing_by
  have hstop := le_runEnd parts parts[start] (start + 1)
  omega

/-- The ways to distribute `n` slots to groups of the given sizes. -/
def distributions? (factorials : Array ℕ) (n : ℕ) (parts : Array ℕ) : Option ℕ := do
  let arrangements ← factorials[n]?
  divideRuns? factorials parts 0 arrangements

/-- A run ends before the first other entry. -/
theorem runEnd_eq (before rest : List ℕ) (part count : ℕ) (hrest : part ∉ rest) :
    runEnd (before ++ (List.replicate count part ++ rest)).toArray part before.length =
      before.length + count := by
  induction count generalizing before with
  | zero =>
    rw [runEnd]
    cases rest with
    | nil => simp
    | cons next rest =>
      have hne : next ≠ part := fun heq => hrest (by simp [heq])
      simp [hne]
  | succ count ih =>
    have hnext := ih (before ++ [part])
    rw [runEnd]
    simp [List.replicate_succ] at hnext ⊢
    omega

/-- Numbers in ascending order begin with a run of the first, and it does not come again. -/
theorem exists_run {part : ℕ} {parts : List ℕ} (hordered : (part :: parts).Pairwise (· ≤ ·)) :
    ∃ count rest, part :: parts = List.replicate (count + 1) part ++ rest ∧ part ∉ rest := by
  induction parts with
  | nil => exact ⟨0, [], by simp, by simp⟩
  | cons next parts ih =>
    obtain ⟨hle, hrest⟩ := List.pairwise_cons.mp hordered
    by_cases heq : part = next
    · subst heq
      obtain ⟨count, rest, hrun, hnot⟩ := ih hrest
      exact ⟨count + 1, rest, by rw [hrun]; rfl, hnot⟩
    · have hless : part < next := lt_of_le_of_ne (hle next List.mem_cons_self) heq
      refine ⟨0, next :: parts, by simp, fun hmem => ?_⟩
      rcases List.mem_cons.mp hmem with rfl | hmem
      · exact heq rfl
      · exact absurd ((List.pairwise_cons.mp hrest).1 part hmem) (by omega)

/-- A run of equal sizes can be put in any order, next to the symmetries of the other sizes. -/
theorem symmetries_replicate_append {part : ℕ} {rest : List ℕ} (hrest : part ∉ rest) (count : ℕ) :
    symmetries (List.replicate count part ++ rest) = count ! * symmetries rest := by
  induction count with
  | zero => simp
  | succ count ih =>
    have hcount : (List.replicate count part ++ rest).count part = count := by
      simp [List.count_eq_zero_of_not_mem hrest]
    rw [List.replicate_succ, List.cons_append, symmetries, ih, hcount, Nat.factorial_succ]
    ring

/-- An array has the values of a sequence for `1, …, most`. -/
def Tabulates (entries : Array ℕ) (value : ℕ → ℕ) (most : ℕ) : Prop :=
  ∀ i, 1 ≤ i → i ≤ most → entries[i]? = some (value i)

/-- One run divides by the arrangements inside its groups and among them, without a remainder. -/
theorem divideRuns?_run {factorials : Array ℕ} {most part count : ℕ}
    (hfactorials : Tabulates factorials Nat.factorial most) (hpart : 1 ≤ part) (hmost : part ≤ most)
    (hcount : count + 1 ≤ most) (before rest : List ℕ) (hrest : part ∉ rest) (quotient : ℕ) :
    divideRuns? factorials (before ++ (List.replicate (count + 1) part ++ rest)).toArray before.length
        (quotient * (count + 1)! * part ! ^ (count + 1)) =
      divideRuns? factorials (before ++ (List.replicate (count + 1) part ++ rest)).toArray
        (before.length + (count + 1)) quotient := by
  have hstop : runEnd (before ++ (List.replicate (count + 1) part ++ rest)).toArray part
      (before.length + 1) = before.length + (count + 1) := by
    have hend := runEnd_eq (before ++ [part]) rest part count hrest
    simpa [List.replicate_succ, Nat.add_assoc, Nat.add_comm 1 count] using hend
  have hfirst (h : before.length < (before ++ (List.replicate (count + 1) part ++ rest)).toArray.size) :
      (before ++ (List.replicate (count + 1) part ++ rest)).toArray[before.length] = part := by
    simp
  rw [divideRuns?, dif_pos (by simp)]
  simp only [hfirst, hstop, minus?_of_le (show before.length ≤ before.length + (count + 1) by omega),
    Nat.add_sub_cancel_left, hfactorials part hpart hmost, hfactorials (count + 1) (by omega) hcount,
    Option.bind_eq_bind, Option.bind_some, divideTimes?_mul _ _ (Nat.factorial_pos _),
    divide?_mul _ (Nat.factorial_pos _)]

/-- The runs from a place on divide by the arrangements inside their groups and among them, without a
remainder. -/
theorem divideRuns?_eq {factorials : Array ℕ} {most : ℕ}
    (hfactorials : Tabulates factorials Nat.factorial most) (before parts : List ℕ) (quotient : ℕ)
    (hordered : parts.Pairwise (· ≤ ·)) (hpos : ∀ part ∈ parts, 1 ≤ part) (hmost : parts.sum ≤ most) :
    divideRuns? factorials (before ++ parts).toArray before.length
      (quotient * ((parts.map (·!)).prod * symmetries parts)) = some quotient := by
  induction hlength : parts.length using Nat.strong_induction_on generalizing before parts with
  | _ length ih =>
    cases parts with
    | nil =>
      rw [divideRuns?]
      simp [symmetries]
    | cons part others =>
      obtain ⟨count, rest, hrun, hnot⟩ := exists_run hordered
      have hpart := hpos part List.mem_cons_self
      rw [hrun] at hordered hpos hmost hlength ⊢
      have hmany : (List.replicate (count + 1) part).sum = (count + 1) * part := by simp
      have hlarge : part ≤ (count + 1) * part := Nat.le_mul_of_pos_left part (by omega)
      have hfew : count + 1 ≤ (count + 1) * part := Nat.le_mul_of_pos_right (count + 1) hpart
      rw [List.sum_append, hmany] at hmost
      have hways : quotient * (((List.replicate (count + 1) part ++ rest).map (·!)).prod *
            symmetries (List.replicate (count + 1) part ++ rest)) =
          quotient * ((rest.map (·!)).prod * symmetries rest) * (count + 1)! * part ! ^ (count + 1) := by
        rw [symmetries_replicate_append hnot]
        simp
        ring
      have hrest := ih rest.length (by simp at hlength; omega)
        (before ++ List.replicate (count + 1) part) rest (List.pairwise_append.mp hordered).2.1
        (fun other hother => hpos other (List.mem_append_right _ hother)) (by omega) rfl
      rw [hways, divideRuns?_run hfactorials hpart (by omega) (by omega) before rest hnot]
      simpa using hrest

/-- The ways to distribute `n` slots come out without a remainder, and are the partitions with blocks
of the given sizes. -/
theorem distributions?_eq {factorials : Array ℕ} {most n : ℕ} {parts : Array ℕ}
    (hfactorials : Tabulates factorials Nat.factorial most) (hn : 1 ≤ n) (hmost : n ≤ most)
    (hparts : parts.toList.Pairwise (· ≤ ·)) (hpos : ∀ part ∈ parts, 1 ≤ part)
    (hsum : parts.toList.sum = n) :
    distributions? factorials n parts = some #(withSizes (univ : Finset (Fin n)) parts.toList) := by
  have hcard : #(univ : Finset (Fin n)) = n := Finset.card_fin n
  have harranged := card_withSizes_mul (s := univ) parts.toList (by simpa using hpos)
    (hsum.trans hcard.symm)
  rw [hcard] at harranged
  rw [distributions?, hfactorials n hn hmost, ← harranged]
  exact divideRuns?_eq hfactorials [] parts.toList _ hparts (by simpa using hpos) (hsum.trans_le hmost)

/-- The ways to distribute `n` slots are the partitions of all slots with blocks of these sizes. -/
theorem distributions_eq_card_univ {n : ℕ} {sizes : List ℕ} (h : Decreasing sizes n) :
    distributions n sizes = #(withSizes (univ : Finset (Fin n)) sizes) := by
  have hcard : #(univ : Finset (Fin n)) = n := Finset.card_fin n
  have hpartitions := distributions_eq_card (s := (univ : Finset (Fin n))) (by rwa [hcard])
  rwa [hcard] at hpartitions

/-- Run by run in ascending order comes to the same as all sizes first and then the runs. -/
theorem distributions?_reverse {factorials : Array ℕ} {most n : ℕ} {sizes : List ℕ}
    (hfactorials : Tabulates factorials Nat.factorial most) (hn : 1 ≤ n) (hmost : n ≤ most)
    (h : Decreasing sizes n) :
    distributions? factorials n sizes.reverse.toArray = some (distributions n sizes) := by
  rw [distributions_eq_card_univ h, distributions?_eq hfactorials hn hmost (by simpa [List.pairwise_reverse] using h.ordered)
    (by simpa using h.pos) (by simpa using h.sum_eq), Multiset.coe_eq_coe.mpr sizes.reverse_perm]

end Formulary.Census
