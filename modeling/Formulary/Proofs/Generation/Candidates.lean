import Formulary.Generation.Candidates
import Formulary.Proofs.Operator
import Formulary.Proofs.Formula.Transplant
import Formulary.Proofs.Generation.Splits

/-!
# What is offered

The candidates over `m` slots, as one list: for every split, in the order of the visits, the
formulas over both parts are put on their slots and combined under every operator. A candidate is
named by the slots of its first operand, its two operands and its code, and these can be read off
again. Both orders of two operands occur, the one whose first operand has the leading part for
every operator, the other one for those operators that tell them apart.
-/

namespace Formulary

/-- The candidates of one split, from the formulas over each number of slots. -/
def candidatesOf (table : OperatorTable) (level : ℕ → List Formula) (split : Split) :
    List Formula :=
  products table ((level split.left.length).map fun f => f.placeOn split.left)
    ((level split.right.length).map fun f => f.placeOn split.right)

/-- The candidates over `m` slots, from the formulas over each smaller number of slots. -/
def candidates (table : OperatorTable) (level : ℕ → List Formula) (m : ℕ) : List Formula :=
  if m = 1 then [Formula.operand] else (allSplits m).flatMap (candidatesOf table level)

/-- One formula on a part of the slots combined with another one on the rest. -/
def composed (m : ℕ) (part : Finset ℕ) (left right : Formula) (code : UInt8) : Formula :=
  Formula.combine (left.placeOn (ascending part))
    (right.placeOn (ascending (Finset.range m \ part))) code

/-- Two formulas that can be composed on a part of the slots and its complement. -/
structure Composable (level : ℕ → List Formula) (m : ℕ) (part : Finset ℕ) (left right : Formula) :
    Prop extends Cut m part where
  left_mem : left ∈ level part.card
  right_mem : right ∈ level (m - part.card)

section Candidates

variable {table : OperatorTable} {level : ℕ → List Formula} {m : ℕ} {part : Finset ℕ}
  {left right f : Formula} {code : UInt8}

/-- The two operands can change places together with their slots. -/
theorem Composable.swap (h : Composable level m part left right) :
    Composable level m (Finset.range m \ part) right left := by
  have hcard := card_range_sdiff h.subset
  refine ⟨h.toCut.compl, ?_, ?_⟩
  · rw [hcard]
    exact h.right_mem
  · rw [hcard, Nat.sub_sub_self (Nat.le_of_lt h.toCut.card_lt)]
    exact h.left_mem

/-- Formulas over a leading part and over the rest of the slots can be composed. -/
theorem Leads.composable (h : Leads m part) (hleft : left ∈ level part.card)
    (hright : right ∈ level (m - part.card)) : Composable level m part left right :=
  ⟨h.cut, hleft, hright⟩

/-- The combinations of two formulas under one operator come in one order or in both. -/
theorem mem_combinationsUnder_iff {op : Operator} :
    f ∈ combinationsUnder left right code op ↔
      f = Formula.combine left right code ∨
        op.commutative = false ∧ f = Formula.combine right left code := by
  unfold combinationsUnder
  cases op.commutative with
  | true => simp
  | false => simp

/-- The combinations of two formulas on their parts are compositions in one order or the other. -/
theorem mem_combinationsOf_iff (h : part ⊆ Finset.range m) :
    f ∈ combinationsOf table (left.placeOn (ascending part))
        (right.placeOn (ascending (Finset.range m \ part))) ↔
      ∃ code op, table.get code = .ok op ∧ (f = composed m part left right code ∨
        op.commutative = false ∧ f = composed m (Finset.range m \ part) right left code) := by
  simp only [combinationsOf, List.mem_flatMap, Prod.exists, OperatorTable.mem_entries_iff,
    mem_combinationsUnder_iff, composed, Finset.sdiff_sdiff_eq_self h]

/-- The candidates of a split, formula by formula. -/
theorem candidatesOf_splitOf (h : part ⊆ Finset.range m) :
    candidatesOf table level (splitOf m part) =
      (level part.card).flatMap fun left => (level (m - part.card)).flatMap fun right =>
        combinationsOf table (left.placeOn (ascending part))
          (right.placeOn (ascending (Finset.range m \ part))) := by
  simp only [candidatesOf, splitOf, products, length_ascending, card_range_sdiff h, List.flatMap_map]

/-- The candidates of a split are composed of formulas over its parts. -/
theorem mem_candidatesOf_splitOf (h : part ⊆ Finset.range m) :
    f ∈ candidatesOf table level (splitOf m part) ↔
      ∃ left ∈ level part.card, ∃ right ∈ level (m - part.card), ∃ code op,
        table.get code = .ok op ∧ (f = composed m part left right code ∨
          op.commutative = false ∧ f = composed m (Finset.range m \ part) right left code) := by
  simp only [candidatesOf_splitOf h, List.mem_flatMap, mem_combinationsOf_iff h]

/-- A candidate is composed on a part that leads, or under an operator that tells its operands
apart. -/
theorem mem_candidates_iff (hm : m ≤ UInt8.size) (hmany : m ≠ 1) :
    f ∈ candidates table level m ↔ ∃ part left right code op, Composable level m part left right ∧
      table.get code = .ok op ∧ (Leads m part ∨ op.commutative = false) ∧
        f = composed m part left right code := by
  rw [candidates, if_neg hmany, List.mem_flatMap]
  constructor
  · intro h
    obtain ⟨_, hsplit, hf⟩ := h
    obtain ⟨part, hleads, rfl⟩ := (mem_allSplits hm).mp hsplit
    obtain ⟨left, hleft, right, hright, code, op, hop, hf⟩ := (mem_candidatesOf_splitOf hleads.1).mp hf
    have hcomposable := hleads.composable hleft hright
    rcases hf with rfl | ⟨hop', rfl⟩
    · exact ⟨part, left, right, code, op, hcomposable, hop, Or.inl hleads, rfl⟩
    · exact ⟨_, right, left, code, op, hcomposable.swap, hop, Or.inr hop', rfl⟩
  · intro h
    obtain ⟨part, left, right, code, op, hcomposable, hop, hcases, rfl⟩ := h
    by_cases hleads : Leads m part
    · refine ⟨splitOf m part, (mem_allSplits hm).mpr ⟨part, hleads, rfl⟩, ?_⟩
      exact (mem_candidatesOf_splitOf hleads.1).mpr ⟨left, hcomposable.left_mem, right,
        hcomposable.right_mem, code, op, hop, Or.inl rfl⟩
    · have hother := hcomposable.toCut.leads_compl_iff.mpr hleads
      refine ⟨splitOf m (Finset.range m \ part), (mem_allSplits hm).mpr ⟨_, hother, rfl⟩, ?_⟩
      apply (mem_candidatesOf_splitOf hother.1).mpr
      refine ⟨right, hcomposable.swap.left_mem, left, hcomposable.swap.right_mem, code, op, hop, ?_⟩
      rw [hcomposable.toCut.compl_compl]
      exact Or.inr ⟨hcases.resolve_left hleads, rfl⟩

/-- Only the formulas over fewer slots matter for the candidates. -/
theorem candidates_congr {level' : ℕ → List Formula} (hm : m ≤ UInt8.size)
    (h : ∀ size, 0 < size → size < m → level size = level' size) :
    candidates table level m = candidates table level' m := by
  have hsplit : ∀ split ∈ allSplits m, candidatesOf table level split =
      candidatesOf table level' split := by
    intro split hsplit
    obtain ⟨part, ⟨hsubset, hlt, hhalf⟩, rfl⟩ := (mem_allSplits hm).mp hsplit
    simp only [candidatesOf, splitOf, length_ascending, card_range_sdiff hsubset]
    rw [h part.card (by omega) hlt, h (m - part.card) (by omega) (by omega)]
  unfold candidates
  rw [List.flatMap_congr hsplit]

/-- The formulas over fewer than `m` slots fit the numbers of slots that they are listed for. -/
def LevelsFit (table : OperatorTable) (level : ℕ → List Formula) (m : ℕ) : Prop :=
  ∀ size, 0 < size → size < m → ∀ f ∈ level size, f.Fits table size

/-- The first operand of a composition fits its part. -/
theorem Composable.left_fits (h : Composable level m part left right)
    (hfits : LevelsFit table level m) : left.Fits table part.card :=
  hfits _ h.nonempty.card_pos h.toCut.card_lt left h.left_mem

/-- The second operand of a composition fits the rest of the slots. -/
theorem Composable.right_fits (h : Composable level m part left right)
    (hfits : LevelsFit table level m) : right.Fits table (Finset.range m \ part).card :=
  h.swap.left_fits hfits

/-- The first operand of a composition can be put on its part. -/
theorem Composable.relabel_left (h : Composable level m part left right)
    (hfits : LevelsFit table level m) :
    left.relabel (ascending part) = .ok (left.placeOn (ascending part)) := by
  obtain ⟨hsize, hvalid, -⟩ := h.left_fits hfits
  exact hvalid.relabel_eq_ok ((length_ascending part).trans hsize.symm)

/-- A composition has all slots, whatever its code. -/
theorem Composable.size_composed (h : Composable level m part left right)
    (hfits : LevelsFit table level m) (code : UInt8) : (composed m part left right code).size = m := by
  have hlt := h.toCut.card_lt
  rw [composed, Formula.size_combine, Formula.size_placeOn, Formula.size_placeOn,
    (h.left_fits hfits).size_eq, (h.right_fits hfits).size_eq, card_range_sdiff h.subset]
  omega

/-- Formulas that fit both parts compose to a formula that fits all slots. -/
theorem Composable.composed_fits (h : Composable level m part left right)
    (hfits : LevelsFit table level m) (hm : m ≤ Formula.maxSlots)
    (hcode : code.toNat < table.size) : (composed m part left right code).Fits table m := by
  obtain ⟨hsize, hvalid, hcodes⟩ := h.left_fits hfits
  obtain ⟨hsize', hvalid', hcodes'⟩ := h.right_fits hfits
  have hall := h.size_composed hfits code
  have htotal : left.size + right.size = m := by
    rwa [composed, Formula.size_combine, Formula.size_placeOn, Formula.size_placeOn] at hall
  refine ⟨hall, ?_, ?_⟩
  · apply hvalid.combine_placeOn hvalid'
    · rw [length_ascending, hsize]
    · rw [length_ascending, hsize']
    · rwa [htotal]
    · rw [htotal]
      exact ascending_append_perm h.subset
  · intro other hother
    simp only [composed, Formula.combine, Formula.placeOn, List.mem_append, List.mem_singleton]
      at hother
    rcases hother with (hother | hother) | rfl
    · exact hcodes other hother
    · exact hcodes' other hother
    · exact hcode

/-- Every candidate fits the number of slots that it is offered for. -/
theorem fits_of_mem_candidates (hfits : LevelsFit table level m) (hm : m ≤ Formula.maxSlots)
    (h : f ∈ candidates table level m) : f.Fits table m := by
  by_cases hone : m = 1
  · subst hone
    obtain rfl := List.mem_singleton.mp h
    exact ⟨rfl, Formula.valid_operand, fun _ hcode => nomatch hcode⟩
  · have hbyte : m ≤ UInt8.size := Nat.le_trans hm Formula.maxSlots_le
    obtain ⟨part, left, right, code, op, hcomposable, hop, -, rfl⟩ :=
      (mem_candidates_iff hbyte hone).mp h
    exact hcomposable.composed_fits hfits hm (OperatorTable.lt_size_of_get hop)

/-- What a candidate is composed of can be read off it. -/
theorem Composable.composed_inj {part' : Finset ℕ} {left' right' : Formula} {code' : UInt8}
    (h : Composable level m part left right) (h' : Composable level m part' left' right')
    (hfits : LevelsFit table level m) (hm : m ≤ UInt8.size)
    (heq : composed m part left right code = composed m part' left' right' code') :
    part = part' ∧ left = left' ∧ right = right' ∧ code = code' := by
  obtain ⟨hsize, hvalid, -⟩ := h.left_fits hfits
  obtain ⟨hsize', hvalid', -⟩ := h'.left_fits hfits
  obtain ⟨hsizeRight, hvalidRight, -⟩ := h.right_fits hfits
  obtain ⟨hsizeRight', hvalidRight', -⟩ := h'.right_fits hfits
  obtain ⟨hleft, hright, hcode⟩ :=
    Formula.combine_placeOn_inj hvalid hvalidRight hvalid' hvalidRight' heq
  have hpart : part = part' := by
    have hlist := hvalid.slots_placeOn_perm ((length_ascending part).trans hsize.symm)
    have hlist' := hvalid'.slots_placeOn_perm ((length_ascending part').trans hsize'.symm)
    rw [← hleft] at hlist'
    apply ascending_inj_of_perm hm h.subset h'.subset
    exact hlist.symm.trans hlist'
  subst hpart
  refine ⟨rfl, ?_, ?_, hcode⟩
  · exact hvalid.placeOn_inj hvalid' (hsize'.trans hsize.symm)
      ((length_ascending part).trans hsize.symm) (nodup_ascending hm h.subset) hleft
  · exact hvalidRight.placeOn_inj hvalidRight' (hsizeRight'.trans hsizeRight.symm)
      ((length_ascending _).trans hsizeRight.symm) (nodup_ascending hm Finset.sdiff_subset) hright

end Candidates

end Formulary
