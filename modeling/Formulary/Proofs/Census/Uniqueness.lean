import Formulary.Proofs.Census.Forms

/-!
# Forms are determined by their values

If a value of a form is a constant multiple of another plus a constant, over the same slots and in the
same family, the added constant is zero and the factor is `1` or `-1`. By induction on the form the same
holds for the groups. So a sum has its groups exactly, and a product has the same groups flipped and each
of them up to its sign.
-/

namespace Formulary.Census

open Finset

variable {σ K : Type*} [DecidableEq σ] [Field K]

namespace Coordinates

variable {C : Coordinates σ K} {F : Family} {s : Finset σ} {q q' c d : K} {x y : σ}

/-- A value that does not change along any slot. -/
def Constant (C : Coordinates σ K) (q : K) : Prop :=
  ∀ x, C.slope x q = 0

/-- One is constant. -/
theorem constant_one : C.Constant 1 :=
  fun x => (C.slope x).map_one_eq_zero

/-- Zero is constant. -/
theorem constant_zero : C.Constant 0 :=
  fun _ => map_zero _

/-- The product of constants is constant. -/
theorem Constant.mul (hc : C.Constant c) (hd : C.Constant d) : C.Constant (c * d) := fun x => by
  simp [hc x, hd x]

/-- The inverse of a constant is constant. -/
theorem Constant.inv (hc : C.Constant c) : C.Constant c⁻¹ := fun x => by
  simp [Derivation.leibniz_inv, hc x]

/-- The negative of a constant is constant. -/
theorem Constant.neg (hc : C.Constant c) : C.Constant (-c) := fun x => by
  simp [hc x]

/-- Values differ by a constant if they have the same slopes. -/
theorem constant_sub_iff : C.Constant (q - c * q') ↔ ∀ x, C.slope x q = C.slope x (c * q') := by
  simp [Constant, sub_eq_zero]

/-- Constants do not add to a slope, and are factors of it. -/
theorem slope_affine (hc : C.Constant c) (hd : C.Constant d) :
    C.slope x (c * q + d) = c * C.slope x q := by
  simp [hc x, hd x]

/-- A quotient is constant if the relative slopes are the same. -/
theorem constant_div (hq : q ≠ 0) (hq' : q' ≠ 0) (hrate : ∀ x, C.rate .product x q = C.rate .product x q') :
    C.Constant (q / q') := by
  intro x
  have h := hrate x
  simp only [rate] at h
  rw [div_eq_div_iff hq hq'] at h
  rw [Derivation.leibniz_div, smul_eq_mul, smul_eq_mul, smul_eq_mul]
  linear_combination q'⁻¹ ^ 2 * h

variable {P P' : Finpartition s} {value value' : Finset σ → K}

/-- Values with proportional rates have the same groups, with rates in the same proportion. -/
theorem same_blocks (hvalue : ∀ block ∈ P.parts, C.Piece F block (value block))
    (hvalue' : ∀ block ∈ P'.parts, C.Piece F block (value' block)) (hc : C.Constant c) (hne : c ≠ 0)
    (hrate : ∀ x, C.rate F x (F.total P.parts value) = c * C.rate F x (F.total P'.parts value')) :
    P = P' ∧ ∀ block ∈ P.parts, ∀ x, C.rate F x (value block) = c * C.rate F x (value' block) := by
  have hlinked (x y : σ) :
      C.Linked F (F.total P.parts value) x y ↔ C.Linked F (F.total P'.parts value') x y := by
    rw [Linked, Linked, hrate y, Derivation.leibniz, hc x, smul_zero, add_zero, smul_eq_mul]
    exact (mul_ne_zero_iff.trans (and_iff_right hne))
  obtain rfl := eq_of_linked_iff hvalue hvalue' hlinked
  refine ⟨rfl, fun block hblock x => ?_⟩
  by_cases hx : x ∈ block
  · rw [← rate_total_of_mem (fun block hblock => (hvalue block hblock).on) hblock hx, hrate,
      rate_total_of_mem (fun block hblock => (hvalue' block hblock).on) hblock hx]
  · rw [(hvalue block hblock).on.rate_eq_zero hx, (hvalue' block hblock).on.rate_eq_zero hx, mul_zero]

end Coordinates

open Coordinates

variable {C : Coordinates σ K} {minus minus' : Bool} {F : Family} {s : Finset σ} {q q' c d : K}

/-- Forms of one family over several slots have a pair of slots that neither links. -/
theorem Form.exists_unlinked (h : Form C minus F s q) (h' : Form C minus' F s q') (hs : 2 ≤ #s) :
    ∃ x ∈ s, ∃ y ∈ s, ¬C.Linked F q x y ∧ ¬C.Linked F q' x y := by
  obtain ⟨P, flips, value, hmany, -, hvalue, rfl⟩ := h.exists_groups hs
  obtain ⟨P', flips', value', hmany', -, hvalue', rfl⟩ := h'.exists_groups hs
  obtain ⟨x, hx, y, hy, hne, hne'⟩ := exists_separated hmany hmany'
  refine ⟨x, hx, y, hy, fun hlinked => hne ?_, fun hlinked => hne' ?_⟩
  · exact part_eq_of_linked (fun block hblock => ((hvalue block hblock).flip_piece _).on) hlinked
  · exact part_eq_of_linked (fun block hblock => ((hvalue' block hblock).flip_piece _).on) hlinked

/-- The product of two sums over the same slots is not constant. -/
theorem Form.not_constant_mul (h : Form C minus .sum s q) (h' : Form C minus' .sum s q') :
    ¬C.Constant (q * q') := by
  intro hconstant
  have hslope (x : σ) : q * C.slope x q' + q' * C.slope x q = 0 := by
    simpa using hconstant x
  obtain ⟨x, rfl, rfl⟩ | ⟨hs, -⟩ := h.single_or_groups
  · have hx := hslope x
    rw [h'.eq_var, C.slope_var, if_pos rfl, mul_one, ← two_mul] at hx
    exact mul_ne_zero C.two_ne_zero (on_var x).ne_zero hx
  · -- where neither sum has mixed slopes, those of the product are the slopes of the factors
    obtain ⟨x, hx, y, hy, hlinked, hlinked'⟩ := h.exists_unlinked h' hs
    rw [linked_sum_iff, not_not] at hlinked hlinked'
    have hmixed := congrArg (C.slope x) (hslope y)
    simp only [map_add, Derivation.leibniz, smul_eq_mul, hlinked, hlinked', map_zero] at hmixed
    have hzero : 2 * (q' * (C.slope x q * C.slope y q)) = 0 := by
      linear_combination C.slope x q * hslope y + C.slope y q * hslope x - q * hmixed
    have hon := h.piece.on
    exact mul_ne_zero C.two_ne_zero (mul_ne_zero h'.ne_zero (mul_ne_zero
      ((hon.slope_ne_zero_iff x).mpr hx) ((hon.slope_ne_zero_iff y).mpr hy))) hzero

/-- A product over several slots does not stay one if a constant is added. -/
theorem Form.eq_zero_of_affine (h : Form C minus .product s q) (h' : Form C minus' .product s q')
    (hc : C.Constant c) (hd : C.Constant d) (heq : q = c * q' + d) (hs : 2 ≤ #s) : d = 0 := by
  obtain ⟨x, hx, y, hy, hlinked, hlinked'⟩ := h.exists_unlinked h' hs
  rw [linked_product_iff h.ne_zero, not_not] at hlinked
  rw [linked_product_iff h'.ne_zero, not_not] at hlinked'
  have hslopes : C.slope x q * C.slope y q ≠ 0 :=
    mul_ne_zero ((h.piece.on.slope_ne_zero_iff x).mpr hx) ((h.piece.on.slope_ne_zero_iff y).mpr hy)
  have hmixed : C.slope x (C.slope y q) ≠ 0 := right_ne_zero_of_mul (hlinked ▸ hslopes)
  have hslope (z : σ) (p : K) : C.slope z (c * p + d) = c * C.slope z p := slope_affine hc hd
  have hproportional : C.slope x (c * C.slope y q') = c * C.slope x (C.slope y q') := by
    simp [hc x]
  -- all slopes are in the proportion `c`, so the values have to be as well
  refine (mul_eq_zero.mp ?_).resolve_right hmixed
  rw [heq, hslope, hslope, hproportional] at hlinked
  rw [heq, hslope, hproportional]
  linear_combination hlinked - c ^ 2 * hlinked'

/-- The sign of a group of a sum. -/
def sign (K : Type*) [Field K] (flipped : Bool) : K :=
  if flipped then -1 else 1

/-- To flip a group of a sum is to multiply it by its sign. -/
theorem flip_sum (flipped : Bool) (q : K) : Family.sum.flip flipped q = sign K flipped * q := by
  cases flipped <;> simp [sign, Family.flip]

/-- A sign is its own inverse. -/
theorem sign_sq (flipped : Bool) : sign K flipped ^ 2 = 1 := by
  cases flipped <;> simp [sign]

/-- A sign is constant. -/
theorem constant_sign (flipped : Bool) : C.Constant (sign K flipped) := by
  cases flipped
  · exact constant_one
  · exact constant_one.neg

/-- To flip a group of a product and to square it can be done in either order. -/
theorem flip_product_sq (flipped : Bool) (q : K) :
    Family.product.flip flipped q ^ 2 = Family.product.flip flipped (q ^ 2) := by
  cases flipped <;> simp [Family.flip]

omit [DecidableEq σ] in
/-- The square of a product is the product of the squares of its groups. -/
theorem prod_flip_sq {blocks : Finset (Finset σ)} {value square : Finset σ → K}
    (flips : Finset σ → Bool) (hsquare : ∀ block ∈ blocks, value block ^ 2 = square block) :
    (∏ block ∈ blocks, Family.product.flip (flips block) (value block)) ^ 2 =
      ∏ block ∈ blocks, Family.product.flip (flips block) (square block) := by
  rw [← prod_pow]
  exact prod_congr rfl fun block hblock => by rw [flip_product_sq, hsquare block hblock]

/-- A value over the slots is related to others in its family by nothing but a sign. -/
def Rigid (C : Coordinates σ K) (F : Family) (s : Finset σ) (q : K) : Prop :=
  ∀ (minus : Bool) (q' c d : K), Form C minus F s q' → C.Constant c → C.Constant d → q = c * q' + d →
    d = 0 ∧ c ^ 2 = 1

section Blocks

variable {P P' : Finpartition s} {flips flips' : Finset σ → Bool} {value value' : Finset σ → K}

/-- Sums that are equal up to constants have the same groups up to the factor. -/
theorem sum_blocks (hvalue : ∀ block ∈ P.parts, Form C minus .product block (value block))
    (hvalue' : ∀ block ∈ P'.parts, Form C minus' .product block (value' block))
    (hrigid : ∀ block ∈ P.parts, Rigid C .product block (value block))
    (hc : C.Constant c) (hne : c ≠ 0) (hd : C.Constant d)
    (heq : ∑ block ∈ P.parts, Family.sum.flip (flips block) (value block) =
      c * ∑ block ∈ P'.parts, Family.sum.flip (flips' block) (value' block) + d) :
    P = P' ∧ ∀ block ∈ P.parts, c ^ 2 = 1 ∧
      Family.sum.flip (flips block) (value block) = c * Family.sum.flip (flips' block) (value' block) := by
  have hpiece (block : Finset σ) (hblock : block ∈ P.parts) :=
    Form.flip_piece (F := .sum) (hvalue block hblock) (flips block)
  have hpiece' (block : Finset σ) (hblock : block ∈ P'.parts) :=
    Form.flip_piece (F := .sum) (hvalue' block hblock) (flips' block)
  obtain ⟨rfl, hblocks⟩ := same_blocks (F := .sum) hpiece hpiece' hc hne fun x => by
    rw [Family.total, heq]
    exact slope_affine hc hd
  refine ⟨rfl, fun block hblock => ?_⟩
  generalize hrest : Family.sum.flip (flips block) (value block) -
    c * Family.sum.flip (flips' block) (value' block) = rest
  have hconstant : C.Constant rest := by
    rw [← hrest, constant_sub_iff]
    intro x
    rw [Derivation.leibniz, hc x, smul_zero, add_zero, smul_eq_mul]
    exact hblocks block hblock x
  have hsign := sign_sq (K := K) (flips block)
  have hsign' := sign_sq (K := K) (flips' block)
  rw [flip_sum, flip_sum] at hrest ⊢
  obtain ⟨hzero, hsq⟩ := hrigid block hblock minus' (value' block)
    (sign K (flips block) * c * sign K (flips' block)) (sign K (flips block) * rest)
    (hvalue' block hblock) (((constant_sign _).mul hc).mul (constant_sign _))
    ((constant_sign _).mul hconstant)
    (by linear_combination -value block * hsign + sign K (flips block) * hrest)
  have hrest_zero : rest = 0 := by linear_combination sign K (flips block) * hzero - rest * hsign
  refine ⟨?_, by linear_combination hrest + hrest_zero⟩
  linear_combination hsq - c ^ 2 * sign K (flips' block) ^ 2 * hsign - c ^ 2 * hsign'

/-- Products that are equal up to a constant have the same groups, flipped in the same way and equal up
to their signs. -/
theorem product_blocks (hvalue : ∀ block ∈ P.parts, Form C minus .sum block (value block))
    (hvalue' : ∀ block ∈ P'.parts, Form C minus' .sum block (value' block))
    (hrigid : ∀ block ∈ P.parts, Rigid C .sum block (value block)) (hc : C.Constant c) (hne : c ≠ 0)
    (heq : ∏ block ∈ P.parts, Family.product.flip (flips block) (value block) =
      c * ∏ block ∈ P'.parts, Family.product.flip (flips' block) (value' block)) :
    P = P' ∧ ∀ block ∈ P.parts, flips block = flips' block ∧ value block ^ 2 = value' block ^ 2 := by
  have hpiece (block : Finset σ) (hblock : block ∈ P.parts) :=
    Form.flip_piece (F := .product) (hvalue block hblock) (flips block)
  have hpiece' (block : Finset σ) (hblock : block ∈ P'.parts) :=
    Form.flip_piece (F := .product) (hvalue' block hblock) (flips' block)
  obtain ⟨rfl, hblocks⟩ := same_blocks (F := .product) hpiece hpiece' constant_one one_ne_zero fun x => by
    have hprod : ∏ block ∈ P'.parts, Family.product.flip (flips' block) (value' block) ≠ 0 :=
      prod_ne_zero_iff.mpr fun block hblock => (hpiece' block hblock).on.ne_zero
    simp only [Family.total, heq, rate, Derivation.leibniz, hc x, smul_eq_mul, mul_zero, add_zero, one_mul]
    field_simp
  refine ⟨rfl, fun block hblock => ?_⟩
  have hzero := (hvalue block hblock).ne_zero
  have hzero' := (hvalue' block hblock).ne_zero
  have hconstant := constant_div (hpiece block hblock).on.ne_zero (hpiece' block hblock).on.ne_zero
    fun x => by simpa using hblocks block hblock x
  have hsquare (factor : K) (hfactor : C.Constant factor) (hblock_eq : value block = factor * value' block) :
      value block ^ 2 = value' block ^ 2 := by
    obtain ⟨-, hsq⟩ := hrigid block hblock minus' (value' block) factor 0 (hvalue' block hblock) hfactor
      constant_zero (by rw [hblock_eq, add_zero])
    rw [hblock_eq, mul_pow, hsq, one_mul]
  have hopposite := (hvalue block hblock).not_constant_mul (hvalue' block hblock)
  cases hflips : flips block <;> cases hflips' : flips' block <;>
    simp only [hflips, hflips', Family.flip] at hconstant
  · exact ⟨rfl, hsquare _ hconstant (div_mul_cancel₀ _ hzero').symm⟩
  · exact absurd (by simpa [div_inv_eq_mul] using hconstant) hopposite
  · exact absurd (by simpa [mul_comm] using hconstant.inv) hopposite
  · exact ⟨rfl, hsquare _ hconstant.inv (by field_simp)⟩

end Blocks

/-- Whatever the form is, nothing but its sign can be changed by constants. -/
theorem Form.rigid (h : Form C minus F s q) : Rigid C F s q := by
  induction h with
  | single F x =>
    intro minus' q' c d h' hc hd heq
    rw [h'.eq_var] at heq
    have hslope := slope_affine (q := C.var x) (x := x) hc hd
    rw [← heq, C.slope_var, if_pos rfl, mul_one] at hslope
    rw [← hslope, one_mul] at heq
    exact ⟨by linear_combination -heq, by rw [← hslope, one_pow]⟩
  | @groups F s P flips value hmany hflips hvalue ih =>
    -- the groups are rigid by induction, whatever values they are compared with
    intro minus' q' c d h' hc hd heq
    have h := Form.groups P flips value hmany hflips hvalue
    have hs : 2 ≤ #s := hmany.trans P.card_parts_le_card
    obtain ⟨P', flips', value', -, -, hvalue', hq'⟩ := h'.exists_groups hs
    obtain ⟨first, hfirst, -⟩ := hflips.upright
    have hne : c ≠ 0 := by
      rintro rfl
      obtain ⟨x, hx⟩ : s.Nonempty := card_pos.mp (by omega)
      apply (h.piece.on.slope_ne_zero_iff x).mpr hx
      rw [heq, zero_mul, zero_add, hd x]
    cases F with
    | sum =>
      simp only [hq', Family.total] at heq
      obtain ⟨rfl, hblocks⟩ := sum_blocks hvalue hvalue' ih hc hne hd heq
      have hsum := sum_congr rfl fun block hblock => (hblocks block hblock).2
      rw [← mul_sum] at hsum
      exact ⟨by linear_combination hsum - heq, (hblocks first hfirst).1⟩
    | product =>
      obtain rfl := h.eq_zero_of_affine h' hc hd heq hs
      rw [add_zero] at heq
      have hpow : q' ^ 2 ≠ 0 := pow_ne_zero 2 h'.ne_zero
      obtain ⟨rfl, hblocks⟩ := product_blocks hvalue hvalue' ih hc hne (hq' ▸ heq)
      have hprod : (∏ block ∈ P.parts, Family.product.flip (flips block) (value block)) ^ 2 = q' ^ 2 := by
        rw [hq', Family.total, prod_flip_sq flips fun _ _ => rfl, prod_flip_sq flips' fun _ _ => rfl]
        refine prod_congr rfl fun block hblock => ?_
        rw [(hblocks block hblock).1, (hblocks block hblock).2]
      rw [Family.total] at heq
      rw [heq, mul_pow] at hprod
      exact ⟨rfl, mul_right_cancel₀ hpow (hprod.trans (one_mul _).symm)⟩

section Unique

variable {P P' : Finpartition s} {flips flips' : Finset σ → Bool} {value value' : Finset σ → K}

/-- The groups of a sum are determined by its value. -/
theorem sum_unique (hvalue : ∀ block ∈ P.parts, Form C minus .product block (value block))
    (hvalue' : ∀ block ∈ P'.parts, Form C minus' .product block (value' block))
    (heq : ∑ block ∈ P.parts, Family.sum.flip (flips block) (value block) =
      ∑ block ∈ P'.parts, Family.sum.flip (flips' block) (value' block)) :
    P = P' ∧ ∀ block ∈ P.parts,
      Family.sum.flip (flips block) (value block) = Family.sum.flip (flips' block) (value' block) := by
  obtain ⟨hP, hblocks⟩ := sum_blocks hvalue hvalue' (fun block hblock => (hvalue block hblock).rigid)
    constant_one one_ne_zero constant_zero (by rw [heq, one_mul, add_zero])
  exact ⟨hP, fun block hblock => by rw [(hblocks block hblock).2, one_mul]⟩

/-- The groups of a product are determined by its value up to their signs, and so is which of them are
flipped. -/
theorem product_unique (hvalue : ∀ block ∈ P.parts, Form C minus .sum block (value block))
    (hvalue' : ∀ block ∈ P'.parts, Form C minus' .sum block (value' block))
    (heq : (∏ block ∈ P.parts, Family.product.flip (flips block) (value block)) ^ 2 =
      (∏ block ∈ P'.parts, Family.product.flip (flips' block) (value' block)) ^ 2) :
    P = P' ∧ ∀ block ∈ P.parts, flips block = flips' block ∧ value block ^ 2 = value' block ^ 2 := by
  have hrigid (block : Finset σ) (hblock : block ∈ P.parts) := (hvalue block hblock).rigid
  obtain heq | heq := sq_eq_sq_iff_eq_or_eq_neg.mp heq
  · exact product_blocks hvalue hvalue' hrigid constant_one one_ne_zero (by rw [heq, one_mul])
  · exact product_blocks hvalue hvalue' hrigid constant_one.neg (neg_ne_zero.mpr one_ne_zero)
      (by rw [heq, neg_one_mul])

end Unique

end Formulary.Census
