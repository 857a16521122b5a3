import Mathlib.Data.Finite.Sigma
import Mathlib.Data.Set.Card
import Mathlib.Data.Fintype.BigOperators
import Formulary.Proofs.Census.Recurrence
import Formulary.Proofs.Census.Negatives

/-!
# Counting values by their groups

A value over several slots is made from a partition into groups, a choice of what is flipped, and a value
for every group. If different choices make different values, the number of values is the sum over the
partitions of the number of flips times the product of the numbers for the groups.
-/

namespace Formulary.Census

open Finset

variable {σ K : Type*} [DecidableEq σ] {s : Finset σ}

/-- A partition into groups, flips for them that follow a rule, and one of its values for every group. -/
abbrev Choice (s : Finset σ) (rule : ∀ P : Finpartition s, Set (P.parts → Bool)) (X : Finset σ → Set K) :=
  Σ P : groupings s, rule P.1 × (∀ block : P.1.parts, X block.1)

section Choices

variable {rule : ∀ P : Finpartition s, Set (P.parts → Bool)} {X : Finset σ → Set K}

/-- If every group has finitely many values, there are finitely many choices. -/
theorem finite_choice (hfinite : ∀ P ∈ groupings s, ∀ block ∈ P.parts, (X block).Finite) :
    Finite (Choice s rule X) := by
  have hvalues (P : groupings s) (block : P.1.parts) : Finite (X block.1) :=
    (hfinite P.1 P.2 block.1 block.2).to_subtype
  infer_instance

/-- For every partition the flips and the values of the groups are chosen independently. -/
theorem card_choice (hfinite : ∀ P ∈ groupings s, ∀ block ∈ P.parts, (X block).Finite) :
    Nat.card (Choice s rule X) =
      ∑ P ∈ groupings s, (rule P).ncard * ∏ block ∈ P.parts, (X block).ncard := by
  have hvalues (P : groupings s) (block : P.1.parts) : Finite (X block.1) :=
    (hfinite P.1 P.2 block.1 block.2).to_subtype
  rw [Nat.card_sigma,
    ← sum_coe_sort (groupings s) fun P => (rule P).ncard * ∏ block ∈ P.parts, (X block).ncard]
  refine sum_congr rfl fun P _ => ?_
  rw [Nat.card_prod, Nat.card_pi, ← prod_coe_sort P.1.parts fun block => (X block).ncard]
  rfl

end Choices

/-- A choice for the blocks, as a function of all sets. -/
def spread {α : Type*} {P : Finpartition s} (rest : α) (choice : P.parts → α) (block : Finset σ) : α :=
  if hblock : block ∈ P.parts then choice ⟨block, hblock⟩ else rest

/-- On a block of the partition it is what was chosen for the block. -/
@[simp] theorem spread_coe {α : Type*} {P : Finpartition s} (rest : α) (choice : P.parts → α)
    (block : P.parts) : spread rest choice block = choice block :=
  dif_pos block.2

variable [Field K] {C : Coordinates σ K} {minus : Bool} {F : Family}

/-- Flips that follow the rule and values that are those of the groups. -/
structure Fits (rule : ∀ P : Finpartition s, Set (P.parts → Bool)) (X : Finset σ → Set K)
    (P : Finpartition s) (flips : Finset σ → Bool) (value : Finset σ → K) : Prop where
  flips_mem : (fun block : P.parts => flips block) ∈ rule P
  value_mem : ∀ block ∈ P.parts, value block ∈ X block

/-- The total over the groups, with some of them flipped. -/
def flippedTotal (F : Family) (P : Finpartition s) (flips : Finset σ → Bool) (value : Finset σ → K) : K :=
  F.total P.parts fun block => F.flip (flips block) (value block)

namespace Choice

variable {rule : ∀ P : Finpartition s, Set (P.parts → Bool)} {X : Finset σ → Set K}

/-- What is flipped, as a function of all sets. -/
def flips (choice : Choice s rule X) : Finset σ → Bool :=
  spread false choice.2.1.1

/-- The values of the groups, as a function of all sets. -/
def value (choice : Choice s rule X) : Finset σ → K :=
  spread 0 fun block => (choice.2.2 block).1

/-- The value that is made from a choice. -/
def total (F : Family) (choice : Choice s rule X) : K :=
  flippedTotal F choice.1.1 choice.flips choice.value

/-- What is chosen follows the rule, with the values of the groups. -/
theorem fits (choice : Choice s rule X) : Fits rule X choice.1 choice.flips choice.value := by
  refine ⟨by simp [flips], fun block hblock => ?_⟩
  rw [value, spread_coe 0 _ ⟨block, hblock⟩]
  exact (choice.2.2 ⟨block, hblock⟩).2

/-- Whatever follows the rule is a choice, with the same total in either family. -/
theorem exists_total_eq {P : Finpartition s} {flips : Finset σ → Bool} {value : Finset σ → K}
    (hP : P ∈ groupings s) (hfits : Fits rule X P flips value) (F : Family) :
    ∃ choice : Choice s rule X, choice.total F = flippedTotal F P flips value := by
  refine ⟨⟨⟨P, hP⟩, ⟨_, hfits.flips_mem⟩, fun block => ⟨value block, hfits.value_mem block block.2⟩⟩, ?_⟩
  refine Family.total_congr fun block hblock => ?_
  rw [Choice.flips, Choice.value, spread_coe false _ ⟨block, hblock⟩, spread_coe 0 _ ⟨block, hblock⟩]

end Choice

/-- Values that are totals for one choice only are as many as the choices. -/
theorem ncard_totals (rule : ∀ P : Finpartition s, Set (P.parts → Bool)) {X : Finset σ → Set K} {Y : Set K}
    (hfinite : ∀ P ∈ groupings s, ∀ block ∈ P.parts, (X block).Finite)
    (hmem : ∀ q, q ∈ Y ↔ ∃ P ∈ groupings s, ∃ flips value, Fits rule X P flips value ∧
      flippedTotal F P flips value = q)
    (hunique : ∀ P P' flips flips' value value', Fits rule X P flips value → Fits rule X P' flips' value' →
      flippedTotal F P flips value = flippedTotal F P' flips' value' →
        P = P' ∧ ∀ block ∈ P.parts, flips block = flips' block ∧ value block = value' block) :
    Y.Finite ∧
      Y.ncard = ∑ P ∈ groupings s, (rule P).ncard * ∏ block ∈ P.parts, (X block).ncard := by
  have hrange : Y = Set.range (Choice.total F : Choice s rule X → K) := by
    ext q
    rw [hmem]
    constructor
    · rintro ⟨P, hP, flips, value, hfits, rfl⟩
      exact Choice.exists_total_eq hP hfits F
    · rintro ⟨choice, rfl⟩
      exact ⟨choice.1, choice.1.2, _, _, choice.fits, rfl⟩
  have hinjective : Function.Injective (Choice.total F : Choice s rule X → K) := by
    intro choice choice' heq
    obtain ⟨hP, hblocks⟩ := hunique _ _ _ _ _ _ choice.fits choice'.fits heq
    obtain ⟨⟨P, hmany⟩, ⟨flips, hflips⟩, value⟩ := choice
    obtain ⟨⟨P', hmany'⟩, ⟨flips', hflips'⟩, value'⟩ := choice'
    obtain rfl : P = P' := hP
    obtain rfl : flips = flips' := funext fun block => by
      simpa [Choice.flips] using (hblocks block block.2).1
    obtain rfl : value = value' := funext fun block =>
      Subtype.ext (by simpa [Choice.value] using (hblocks block block.2).2)
    rfl
  have hchoice : Finite (Choice s rule X) := finite_choice hfinite
  refine ⟨hrange ▸ Set.finite_range _, ?_⟩
  rw [hrange, Set.ncard_range_of_injective hinjective, card_choice hfinite]

/-- Sums of signed groups that are equal have the same groups. -/
theorem signed_sum_unique {P P' : Finpartition s} {value value' : Finset σ → K}
    (hvalue : ∀ block ∈ P.parts, Signed C .product block (value block))
    (hvalue' : ∀ block ∈ P'.parts, Signed C .product block (value' block))
    (heq : ∑ block ∈ P.parts, value block = ∑ block ∈ P'.parts, value' block) :
    P = P' ∧ ∀ block ∈ P.parts, value block = value' block := by
  choose! flips part hpart hflip hnone using fun block hblock => (hvalue block hblock).exists_flip
  choose! flips' part' hpart' hflip' hnone' using fun block hblock => (hvalue' block hblock).exists_flip
  rw [← sum_congr rfl hflip, ← sum_congr rfl hflip'] at heq
  obtain ⟨rfl, hblocks⟩ := sum_unique hpart hpart' heq
  exact ⟨rfl, fun block hblock => by
    rw [← hflip block hblock, ← hflip' block hblock, hblocks block hblock]⟩

/-- Nothing is flipped in a sum of signed groups. -/
def noneFlipped (P : Finpartition s) : Set (P.parts → Bool) :=
  {fun _ => false}

omit [Field K] in
/-- If nothing may be flipped, no block is. -/
theorem flips_eq_false {X : Finset σ → Set K} {P : Finpartition s} {flips : Finset σ → Bool}
    {value : Finset σ → K} (hfits : Fits noneFlipped X P flips value) {block : Finset σ}
    (hblock : block ∈ P.parts) : flips block = false :=
  congrFun hfits.flips_mem ⟨block, hblock⟩

/-- If nothing is flipped, the total is that of the values themselves. -/
theorem flippedTotal_noneFlipped {X : Finset σ → Set K} {P : Finpartition s} {flips : Finset σ → Bool}
    {value : Finset σ → K} (hfits : Fits noneFlipped X P flips value) :
    flippedTotal F P flips value = F.total P.parts value :=
  Family.total_congr fun block hblock => by rw [flips_eq_false hfits hblock, Family.flip_false]

/-- The number of sums of signed values. -/
theorem ncard_sums {X : Finset σ → Set K} {Y : Set K}
    (hfinite : ∀ P ∈ groupings s, ∀ block ∈ P.parts, (X block).Finite)
    (hsigned : ∀ block, ∀ q ∈ X block, Signed C .product block q)
    (hmem : ∀ q, q ∈ Y ↔ ∃ P ∈ groupings s, ∃ value : Finset σ → K,
      (∀ block ∈ P.parts, value block ∈ X block) ∧ ∑ block ∈ P.parts, value block = q) :
    Y.Finite ∧ Y.ncard = ∑ P ∈ groupings s, ∏ block ∈ P.parts, (X block).ncard := by
  have htotals := ncard_totals (F := .sum) (Y := Y) noneFlipped hfinite (fun q => (hmem q).trans ⟨?_, ?_⟩)
    fun P P' flips flips' value value' hfits hfits' heq => ?_
  · simpa [noneFlipped] using htotals
  · rintro ⟨P, hP, value, hvalue, rfl⟩
    have hfits : Fits noneFlipped X P (fun _ => false) value := ⟨rfl, hvalue⟩
    exact ⟨P, hP, _, value, hfits, flippedTotal_noneFlipped hfits⟩
  · rintro ⟨P, hP, flips, value, hfits, rfl⟩
    exact ⟨P, hP, value, hfits.value_mem, (flippedTotal_noneFlipped (F := .sum) hfits).symm⟩
  · rw [flippedTotal_noneFlipped hfits, flippedTotal_noneFlipped hfits'] at heq
    obtain ⟨rfl, hblocks⟩ := signed_sum_unique
      (fun block hblock => hsigned block _ (hfits.value_mem block hblock))
      (fun block hblock => hsigned block _ (hfits'.value_mem block hblock)) heq
    refine ⟨rfl, fun block hblock => ⟨?_, hblocks block hblock⟩⟩
    rw [flips_eq_false hfits hblock, flips_eq_false hfits' hblock]

/-- The values of the formulas of a family. -/
def values (C : Coordinates σ K) (minus : Bool) (F : Family) (s : Finset σ) : Set K :=
  {q | Form C minus F s q}

/-- The values of the formulas of a family up to their signs. -/
def squares (C : Coordinates σ K) (minus : Bool) (F : Family) (s : Finset σ) : Set K :=
  (· ^ 2) '' values C minus F s

/-- Over no slots there is no formula. -/
theorem values_empty (C : Coordinates σ K) (minus : Bool) (F : Family) : values C minus F ∅ = ∅ :=
  Set.eq_empty_of_forall_notMem fun _ hq => not_nonempty_empty (Form.nonempty hq)

/-- Over one slot the value of a formula is that of the slot. -/
theorem values_singleton (C : Coordinates σ K) (minus : Bool) (F : Family) (x : σ) :
    values C minus F {x} = {C.var x} :=
  Set.eq_singleton_iff_unique_mem.mpr ⟨.single F x, fun _ hq => Form.eq_var hq⟩

/-- Some groups of a product may be flipped but not all. -/
def notAllFlipped (P : Finpartition s) : Set (P.parts → Bool) :=
  {flips | ∃ block, flips block = false}

/-- All sets of blocks but the whole one can be flipped in a product. -/
theorem ncard_notAllFlipped (P : Finpartition s) : (notAllFlipped P).ncard = 2 ^ #P.parts - 1 := by
  have hflips : notAllFlipped P = {fun _ => true}ᶜ := by
    ext flips
    simp [notAllFlipped, funext_iff]
  rw [hflips, Set.ncard_compl, Set.ncard_singleton, Nat.card_eq_fintype_card]
  simp

/-- Squares of products are determined by the squares of their groups and by what is flipped. -/
theorem square_product_unique {P P' : Finpartition s} {flips flips' : Finset σ → Bool}
    {square square' : Finset σ → K} (hsquare : ∀ block ∈ P.parts, square block ∈ squares C minus .sum block)
    (hsquare' : ∀ block ∈ P'.parts, square' block ∈ squares C minus .sum block)
    (heq : ∏ block ∈ P.parts, Family.product.flip (flips block) (square block) =
      ∏ block ∈ P'.parts, Family.product.flip (flips' block) (square' block)) :
    P = P' ∧ ∀ block ∈ P.parts, flips block = flips' block ∧ square block = square' block := by
  choose! value hvalue hsq using hsquare
  choose! value' hvalue' hsq' using hsquare'
  rw [← prod_flip_sq flips hsq, ← prod_flip_sq flips' hsq'] at heq
  obtain ⟨rfl, hblocks⟩ := product_unique hvalue hvalue' heq
  refine ⟨rfl, fun block hblock => ⟨(hblocks block hblock).1, ?_⟩⟩
  rw [← hsq block hblock, ← hsq' block hblock]
  exact (hblocks block hblock).2

/-- The squares of products over several slots. -/
theorem mem_squares_product_iff (hs : 2 ≤ #s) {q : K} :
    q ∈ squares C minus .product s ↔ ∃ P ∈ groupings s, ∃ flips square,
      Fits notAllFlipped (squares C minus .sum) P flips square ∧ flippedTotal .product P flips square = q := by
  constructor
  · rintro ⟨q, hq, rfl⟩
    obtain ⟨P, flips, value, hmany, hflips, hvalue, rfl⟩ := Form.exists_groups hq hs
    obtain ⟨first, hfirst, hupright⟩ := hflips.upright
    have hfits : Fits notAllFlipped (squares C minus .sum) P flips fun block => value block ^ 2 :=
      ⟨⟨⟨first, hfirst⟩, hupright⟩, fun block hblock => ⟨value block, hvalue block hblock, rfl⟩⟩
    exact ⟨P, mem_groupings.mpr hmany, flips, _, hfits, (prod_flip_sq flips fun _ _ => rfl).symm⟩
  · rintro ⟨P, hP, flips, square, ⟨⟨first, hupright⟩, hsquare⟩, rfl⟩
    choose! value hvalue hsq using hsquare
    refine ⟨_, Form.groups P flips value (mem_groupings.mp hP) ⟨⟨first, first.2, hupright⟩, fun h => ?_⟩ hvalue,
      prod_flip_sq flips hsq⟩
    exact absurd h (by decide)

/-- The number of products up to their signs. -/
theorem ncard_squares_product (hs : 2 ≤ #s)
    (hfinite : ∀ P ∈ groupings s, ∀ block ∈ P.parts, (squares C minus .sum block).Finite) :
    (squares C minus .product s).Finite ∧ (squares C minus .product s).ncard =
      ∑ P ∈ groupings s, (2 ^ #P.parts - 1) * ∏ block ∈ P.parts, (squares C minus .sum block).ncard := by
  have htotals := ncard_totals (F := .product) notAllFlipped hfinite
    (fun q => mem_squares_product_iff hs)
    fun P P' flips flips' square square' hfits hfits' heq =>
      square_product_unique hfits.value_mem hfits'.value_mem heq
  simpa only [ncard_notAllFlipped] using htotals

end Formulary.Census
