import Formulary.Proofs.Census.Uniqueness

/-!
# Forms and their negatives

A formula that subtracts has a negative that is a formula of the same family, and one that does not
subtract has none. So up to its sign every value of a formula is counted twice, but only once if there is
a formula for it without subtractions.
-/

namespace Formulary.Census

open Finset Coordinates

variable {σ K : Type*} [DecidableEq σ] [Field K] {C : Coordinates σ K} {F : Family} {s : Finset σ} {q : K}

/-- A value other than zero is not its own negative. -/
theorem neg_ne_self (C : Coordinates σ K) (hq : q ≠ 0) : -q ≠ q := by
  intro h
  exact mul_ne_zero C.two_ne_zero hq (by linear_combination -h)

/-- In a product the negative of a group is flipped to the negative. -/
theorem flip_product_neg (flipped : Bool) (q : K) :
    Family.product.flip flipped (-q) = -Family.product.flip flipped q := by
  cases flipped <;> simp [Family.flip, inv_neg]

/-- A value is that of a formula or the negative of one. -/
def Signed (C : Coordinates σ K) (F : Family) (s : Finset σ) (q : K) : Prop :=
  Form C true F s q ∨ Form C true F s (-q)

/-- A value is signed exactly if its negative is. -/
theorem signed_neg_iff : Signed C F s (-q) ↔ Signed C F s q := by
  rw [Signed, Signed, neg_neg, or_comm]

/-- A signed group is a group that is flipped in a sum, or is not if it has a form itself. -/
theorem Signed.exists_flip (h : Signed C F s q) :
    ∃ flipped value, Form C true F s value ∧ Family.sum.flip flipped value = q ∧
      (Form C true F s q → flipped = false) := by
  by_cases hform : Form C true F s q
  · exact ⟨false, q, hform, rfl, fun _ => rfl⟩
  · exact ⟨true, -q, h.resolve_left hform, neg_neg q, fun h => absurd h hform⟩

/-- A form is signed, flipped in a sum or not. -/
theorem Form.signed_flip (h : Form C true F s q) (flipped : Bool) :
    Signed C F s (Family.sum.flip flipped q) := by
  cases flipped with
  | false => exact .inl h
  | true => exact .inr (by simpa [Family.flip] using h)

/-- Without subtractions a formula is one that may subtract. -/
theorem Form.of_plain {minus : Bool} (h : Form C minus F s q) : Form C true F s q := by
  induction h with
  | single F x => exact .single F x
  | groups P flips value hmany hflips _ ih =>
    exact .groups P flips value hmany ⟨hflips.upright, fun _ hminus => absurd hminus (by decide)⟩ ih

section Sums

variable {P : Finpartition s} {value : Finset σ → K}

/-- Signed groups add up to a formula if one of them is not negative. -/
theorem form_sum_of_signed (hmany : 2 ≤ #P.parts)
    (hvalue : ∀ block ∈ P.parts, Signed C .product block (value block))
    (hupright : ∃ block ∈ P.parts, Form C true .product block (value block)) :
    Form C true .sum s (∑ block ∈ P.parts, value block) := by
  choose! flips part hpart hflip hnone using fun block hblock => (hvalue block hblock).exists_flip
  obtain ⟨first, hfirst, hform⟩ := hupright
  have hflips : Flips true .sum P.parts flips :=
    ⟨⟨first, hfirst, hnone first hfirst hform⟩, fun _ hminus => absurd hminus (by decide)⟩
  rw [← sum_congr rfl hflip]
  exact .groups P flips part hmany hflips hpart

/-- Signed groups add up to a signed formula. -/
theorem signed_sum (hmany : 2 ≤ #P.parts)
    (hvalue : ∀ block ∈ P.parts, Signed C .product block (value block)) :
    Signed C .sum s (∑ block ∈ P.parts, value block) := by
  by_cases hupright : ∃ block ∈ P.parts, Form C true .product block (value block)
  · exact .inl (form_sum_of_signed hmany hvalue hupright)
  · obtain ⟨first, hfirst⟩ : P.parts.Nonempty := card_pos.mp (by omega)
    have hneg (block : Finset σ) (hblock : block ∈ P.parts) : Form C true .product block (-value block) :=
      (hvalue block hblock).resolve_left fun h => hupright ⟨block, hblock, h⟩
    rw [Signed, ← sum_neg_distrib]
    exact .inr (form_sum_of_signed hmany (fun block hblock => .inl (hneg block hblock))
      ⟨first, hfirst, hneg first hfirst⟩)

end Sums

/-- The negative of one group of a product is that of the product. -/
theorem prod_flip_update_neg {blocks : Finset (Finset σ)} {first : Finset σ} (hfirst : first ∈ blocks)
    (flips : Finset σ → Bool) (value : Finset σ → K) :
    ∏ block ∈ blocks, Family.product.flip (flips block) (Function.update value first (-value first) block) =
      -∏ block ∈ blocks, Family.product.flip (flips block) (value block) := by
  rw [← mul_prod_erase _ _ hfirst, ← mul_prod_erase _ _ hfirst, Function.update_self, flip_product_neg,
    neg_mul]
  refine congrArg (fun rest => -(_ * rest)) (prod_congr rfl fun block hblock => ?_)
  rw [Function.update_of_ne (ne_of_mem_erase hblock)]

/-- A formula that has to subtract has a negative. -/
theorem Form.plain_or_neg (h : Form C true F s q) : Form C false F s q ∨ Form C true F s (-q) := by
  induction h with
  | single F x => exact .inl (.single F x)
  | @groups F s P flips value hmany hflips hvalue ih =>
    cases F with
    | sum =>
      -- a group with a negative becomes the one that is not flipped, and all others change their signs
      by_cases hneg : ∃ block ∈ P.parts,
          Form C true .product block (-Family.sum.flip (flips block) (value block))
      · right
        rw [Family.total, ← sum_neg_distrib]
        exact form_sum_of_signed hmany
          (fun block hblock => signed_neg_iff.mpr ((hvalue block hblock).signed_flip _)) hneg
      · have hupright (block : Finset σ) (hblock : block ∈ P.parts) : flips block = false := by
          by_contra hflip
          rw [Bool.not_eq_false] at hflip
          exact hneg ⟨block, hblock, by simpa [hflip, Family.flip] using hvalue block hblock⟩
        refine .inl (.groups P flips value hmany ⟨hflips.upright, fun _ _ => hupright⟩ ?_)
        refine fun block hblock => (ih block hblock).resolve_right fun h => hneg ⟨block, hblock, ?_⟩
        rwa [hupright block hblock, Family.flip_false]
    | product =>
      -- the negative of one group is enough
      by_cases hneg : ∃ block ∈ P.parts, Form C true .sum block (-value block)
      · obtain ⟨first, hfirst, hform⟩ := hneg
        right
        rw [Family.total, ← prod_flip_update_neg hfirst]
        refine .groups P flips _ hmany hflips fun block hblock => ?_
        by_cases heq : block = first
        · rwa [heq, Function.update_self]
        · rw [Function.update_of_ne heq]
          exact hvalue block hblock
      · exact .inl (.groups P flips value hmany ⟨hflips.upright, fun h => absurd h (by decide)⟩
          fun block hblock => (ih block hblock).resolve_right fun h => hneg ⟨block, hblock, h⟩)

/-- What can be written without subtractions has no negative. -/
theorem Form.not_plain_neg (h : Form C true F s q) : ¬Form C false F s (-q) := by
  induction h with
  | single F x =>
    intro h'
    exact neg_ne_self C (on_var x).ne_zero h'.eq_var
  | @groups F s P flips value hmany hflips hvalue ih =>
    intro h'
    obtain ⟨P', flips', value', -, hflips', hvalue', heq⟩ :=
      h'.exists_groups (hmany.trans P.card_parts_le_card)
    cases F with
    | sum =>
      -- the group that is not flipped would be the negative of a group without subtractions
      obtain ⟨first, hfirst, hupright⟩ := hflips.upright
      have hsum : ∑ block ∈ P.parts, Family.sum.flip (flips block) (value block) =
          ∑ block ∈ P'.parts, Family.sum.flip true (value' block) := by
        rw [neg_eq_iff_eq_neg, Family.total, Family.total, ← sum_neg_distrib] at heq
        rw [heq]
        refine sum_congr rfl fun block hblock => ?_
        rw [hflips'.plain rfl rfl block hblock]
        rfl
      obtain ⟨rfl, hblocks⟩ := sum_unique hvalue hvalue' hsum
      have hfirst_eq := hblocks first hfirst
      rw [hupright, Family.flip_false] at hfirst_eq
      apply ih first hfirst
      rw [hfirst_eq]
      simpa [Family.flip] using hvalue' first hfirst
    | product =>
      -- no group is the negative of one without subtractions, so none changes its sign
      have hprod := congrArg (· ^ 2) heq
      simp only [neg_sq] at hprod
      obtain ⟨rfl, hblocks⟩ := product_unique hvalue hvalue' hprod
      have hsame (block : Finset σ) (hblock : block ∈ P.parts) : value block = value' block := by
        refine (sq_eq_sq_iff_eq_or_eq_neg.mp (hblocks block hblock).2).resolve_right fun hneg => ?_
        apply ih block hblock
        rw [hneg, neg_neg]
        exact hvalue' block hblock
      refine neg_ne_self C (Form.groups P flips value hmany hflips hvalue).ne_zero (heq.trans ?_)
      exact (Family.total_congr fun block hblock => by
        rw [(hblocks block hblock).1, hsame block hblock]).symm

/-- Over several slots no value is that of formulas of both families. -/
theorem Form.card_le_one {minus minus' : Bool} (h : Form C minus F s q) (h' : Form C minus' F.other s q) :
    #s ≤ 1 := by
  by_contra hs
  rw [not_le] at hs
  obtain ⟨P, flips, value, hmany, -, hvalue, heq⟩ := h.exists_groups hs
  have hne : s ≠ ⊥ := (card_pos.mp (by omega)).ne_empty
  have htotal : F.total (Finpartition.indiscrete hne).parts (fun _ => q) = q := by
    cases F <;> simp [Family.total, Finpartition.indiscrete]
  have hpiece : C.Piece F s q := by
    simpa using h'.flip_piece false
  have hpieces (block : Finset σ) (hblock : block ∈ (Finpartition.indiscrete hne).parts) :
      C.Piece F block q := by
    rw [mem_singleton.mp hblock]
    exact hpiece
  have hP : P = Finpartition.indiscrete hne :=
    eq_of_linked_iff (fun block hblock => (hvalue block hblock).flip_piece (flips block)) hpieces
      fun x y => by rw [← heq, htotal]
  rw [hP, Finpartition.indiscrete, card_singleton] at hmany
  omega

end Formulary.Census
