import Formulary.Proofs.Census.Choices

/-!
# What the four counts count

The counts of products and sums are the numbers of values up to their signs, and the plain counts those
of values without subtractions. By induction on the slots this follows from the recurrence and from the
ways to choose groups. A signed value is one of two with the same square, and it is that of a formula
unless its negative can be written without subtractions.
-/

namespace Formulary.Census

open Finset

variable {σ K : Type*} [DecidableEq σ] [Field K] {C : Coordinates σ K} {minus : Bool} {F : Family}
variable {s : Finset σ} {q : K}

/-- The values of formulas and their negatives. -/
def signedValues (C : Coordinates σ K) (F : Family) (s : Finset σ) : Set K :=
  {q | Signed C F s q}

/-- The value of every formula is a signed value. -/
theorem values_subset_signedValues : values C minus F s ⊆ signedValues C F s :=
  fun _ hq => .inl hq.of_plain

/-- The squares of signed values are those of the values themselves. -/
theorem square_image_signedValues : (· ^ 2) '' signedValues C F s = squares C true F s := by
  ext square
  constructor
  · rintro ⟨q, hq | hq, rfl⟩
    · exact ⟨q, hq, rfl⟩
    · exact ⟨-q, hq, neg_sq q⟩
  · rintro ⟨q, hq, rfl⟩
    exact ⟨q, .inl hq, rfl⟩

/-- The signed values with one square are a value and its negative. -/
theorem signedValues_inter_square (hq : q ∈ signedValues C F s) :
    {p ∈ signedValues C F s | p ^ 2 = q ^ 2} = {q, -q} := by
  ext p
  rw [Set.mem_sep_iff, sq_eq_sq_iff_eq_or_eq_neg]
  constructor
  · exact fun h => h.2
  · rintro (rfl | rfl)
    · exact ⟨hq, .inl rfl⟩
    · exact ⟨signed_neg_iff.mpr hq, .inr rfl⟩

/-- No signed value is zero. -/
theorem signedValues_ne_zero (hq : q ∈ signedValues C F s) : q ≠ 0 := by
  obtain hq | hq := hq
  · exact hq.ne_zero
  · exact neg_ne_zero.mp hq.ne_zero

/-- If there are finitely many squares, there are finitely many signed values. -/
theorem finite_signedValues (hfinite : (squares C true F s).Finite) : (signedValues C F s).Finite := by
  have hunion : signedValues C F s =
      ⋃ square ∈ squares C true F s, {p ∈ signedValues C F s | p ^ 2 = square} := by
    ext p
    simp only [← square_image_signedValues, Set.mem_iUnion, Set.mem_sep_iff, exists_prop]
    exact ⟨fun hp => ⟨p ^ 2, ⟨p, hp, rfl⟩, hp, rfl⟩, fun ⟨_, _, hp, _⟩ => hp⟩
  rw [hunion]
  refine hfinite.biUnion ?_
  rw [← square_image_signedValues]
  rintro _ ⟨q, hq, rfl⟩
  rw [signedValues_inter_square hq]
  exact Set.toFinite _

/-- Two signed values have the same square. -/
theorem ncard_signedValues (hfinite : (squares C true F s).Finite) :
    (signedValues C F s).ncard = 2 * (squares C true F s).ncard := by
  classical
  have hsigned := finite_signedValues hfinite
  have hpair (square : K) (hsquare : square ∈ hsigned.toFinset.image (· ^ 2)) :
      #{p ∈ hsigned.toFinset | p ^ 2 = square} = 2 := by
    obtain ⟨q, hq, rfl⟩ := mem_image.mp hsquare
    rw [hsigned.mem_toFinset] at hq
    have hfiber : {p ∈ hsigned.toFinset | p ^ 2 = q ^ 2} = {q, -q} := by
      ext p
      simpa using Set.ext_iff.mp (signedValues_inter_square hq) p
    rw [hfiber, card_pair (neg_ne_self C (signedValues_ne_zero hq)).symm]
  have hsquares : squares C true F s = hsigned.toFinset.image (· ^ 2) := by
    rw [coe_image, hsigned.coe_toFinset, square_image_signedValues]
  rw [hsquares, Set.ncard_coe_finset, Set.ncard_eq_toFinset_card _ hsigned,
    card_eq_sum_card_image (· ^ 2), sum_const_nat hpair, mul_comm]

/-- Of the values without subtractions none is the negative of another. -/
theorem ncard_squares_plain : (squares C false F s).ncard = (values C false F s).ncard := by
  refine Set.InjOn.ncard_image fun q hq q' hq' hsq => ?_
  refine (sq_eq_sq_iff_eq_or_eq_neg.mp hsq).resolve_right fun hneg => ?_
  exact Form.not_plain_neg hq'.of_plain (hneg ▸ hq)

/-- A signed value is that of a formula, or its negative has no subtractions. -/
theorem ncard_values_add (hfinite : (squares C true F s).Finite) :
    (values C true F s).ncard + (values C false F s).ncard = (signedValues C F s).ncard := by
  have hsigned := finite_signedValues hfinite
  have hunion : signedValues C F s = values C true F s ∪ Neg.neg '' values C false F s := by
    ext q
    constructor
    · rintro (hq | hq)
      · exact .inl hq
      · obtain hplain | hneg := hq.plain_or_neg
        · exact .inr ⟨-q, hplain, neg_neg q⟩
        · exact .inl (neg_neg q ▸ hneg)
    · rintro (hq | ⟨q, hq, rfl⟩)
      · exact .inl hq
      · exact signed_neg_iff.mpr (.inl hq.of_plain)
  have hdisjoint : Disjoint (values C true F s) (Neg.neg '' values C false F s) := by
    rw [Set.disjoint_left]
    rintro _ hq ⟨q, hplain, rfl⟩
    exact Form.not_plain_neg hq ((neg_neg q).symm ▸ hplain)
  rw [hunion, Set.ncard_union_eq hdisjoint (hsigned.subset values_subset_signedValues)
    ((hsigned.subset values_subset_signedValues).image _), Set.ncard_image_of_injective _ neg_injective]

/-- The plain sums over several slots. -/
theorem mem_plain_sum_iff (hs : 2 ≤ #s) : q ∈ values C false .sum s ↔ ∃ P ∈ groupings s,
    ∃ value : Finset σ → K, (∀ block ∈ P.parts, value block ∈ values C false .product block) ∧
      ∑ block ∈ P.parts, value block = q := by
  constructor
  · intro hq
    obtain ⟨P, flips, value, hmany, hflips, hvalue, rfl⟩ := Form.exists_groups hq hs
    refine ⟨P, mem_groupings.mpr hmany, value, hvalue, sum_congr rfl fun block hblock => ?_⟩
    simp only [hflips.plain rfl rfl block hblock, Family.flip_false]
  · rintro ⟨P, hP, value, hvalue, rfl⟩
    have hmany := mem_groupings.mp hP
    obtain ⟨first, hfirst⟩ : P.parts.Nonempty := card_pos.mp (by omega)
    have hform : Form C false .sum s _ :=
      .groups P (fun _ => false) value hmany ⟨⟨first, hfirst, rfl⟩, fun _ _ _ _ => rfl⟩ hvalue
    simp only [Family.total, Family.flip_false] at hform
    exact hform

/-- The signed sums over several slots. -/
theorem mem_signed_sum_iff (hs : 2 ≤ #s) : q ∈ signedValues C .sum s ↔ ∃ P ∈ groupings s,
    ∃ value : Finset σ → K, (∀ block ∈ P.parts, value block ∈ signedValues C .product block) ∧
      ∑ block ∈ P.parts, value block = q := by
  constructor
  · rintro (hq | hq)
    · obtain ⟨P, flips, value, hmany, -, hvalue, rfl⟩ := Form.exists_groups hq hs
      exact ⟨P, mem_groupings.mpr hmany, fun block => Family.sum.flip (flips block) (value block),
        fun block hblock => (hvalue block hblock).signed_flip _, rfl⟩
    · obtain ⟨P, flips, value, hmany, -, hvalue, heq⟩ := Form.exists_groups hq hs
      refine ⟨P, mem_groupings.mpr hmany, fun block => -Family.sum.flip (flips block) (value block),
        fun block hblock => signed_neg_iff.mpr ((hvalue block hblock).signed_flip _), ?_⟩
      rw [sum_neg_distrib, neg_eq_iff_eq_neg]
      exact heq.symm
  · rintro ⟨P, hP, value, hvalue, rfl⟩
    exact signed_sum (mem_groupings.mp hP) hvalue

/-- What the counts for the slots of a set say about the values over it. -/
structure Tallied (C : Coordinates σ K) (s : Finset σ) : Prop where
  finite : ∀ minus F, (squares C minus F s).Finite
  products : (squares C true .product s).ncard = (countsAt #s).products
  sums : (squares C true .sum s).ncard = (countsAt #s).sums
  plainProducts : (squares C false .product s).ncard = (countsAt #s).plainProducts
  plainSums : (squares C false .sum s).ncard = (countsAt #s).plainSums

/-- Over one slot every count is one, for the slot itself. -/
theorem tallied_singleton (C : Coordinates σ K) (x : σ) : Tallied C {x} := by
  have hsquares (minus : Bool) (F : Family) : squares C minus F {x} = {C.var x ^ 2} := by
    rw [squares, values_singleton, Set.image_singleton]
  constructor <;> simp [hsquares, countsAt_one, Counts.single]

section Step

variable (hs : 2 ≤ #s) (hblocks : ∀ P ∈ groupings s, ∀ block ∈ P.parts, Tallied C block)

include hs hblocks

/-- Products are tallied if the sums over their blocks are. -/
theorem tallied_products : (squares C true .product s).Finite ∧
    (squares C true .product s).ncard = (countsAt #s).products := by
  obtain ⟨hfinite, hcard⟩ := ncard_squares_product hs
    fun P hP block hblock => (hblocks P hP block hblock).finite true .sum
  refine ⟨hfinite, ?_⟩
  rw [hcard, products_countsAt hs]
  refine sum_congr rfl fun P hP => congrArg _ (prod_congr rfl fun block hblock => ?_)
  exact (hblocks P hP block hblock).sums

/-- Products without subtractions are tallied if the sums over their blocks are. -/
theorem tallied_plainProducts : (squares C false .product s).Finite ∧
    (squares C false .product s).ncard = (countsAt #s).plainProducts := by
  obtain ⟨hfinite, hcard⟩ := ncard_squares_product hs
    fun P hP block hblock => (hblocks P hP block hblock).finite false .sum
  refine ⟨hfinite, ?_⟩
  rw [hcard, plainProducts_countsAt hs]
  refine sum_congr rfl fun P hP => congrArg _ (prod_congr rfl fun block hblock => ?_)
  exact (hblocks P hP block hblock).plainSums

/-- Every group of a sum has its two signs and the sum has its own two, so one factor two is left for all
groups but one. -/
theorem tallied_sums : (squares C true .sum s).Finite ∧
    (squares C true .sum s).ncard = (countsAt #s).sums := by
  have hproducts (P : Finpartition s) (hP : P ∈ groupings s) (block : Finset σ) (hblock : block ∈ P.parts) :=
    (hblocks P hP block hblock).finite true .product
  obtain ⟨hfinite, hcard⟩ := ncard_sums
    (fun P hP block hblock => finite_signedValues (hproducts P hP block hblock)) (fun _ _ hq => hq)
    fun q => mem_signed_sum_iff hs
  have hsums : (squares C true .sum s).Finite := by
    rw [← square_image_signedValues]
    exact hfinite.image _
  refine ⟨hsums, Nat.eq_of_mul_eq_mul_left Nat.two_pos ?_⟩
  rw [← ncard_signedValues hsums, hcard, sums_countsAt hs, mul_sum]
  refine sum_congr rfl fun P hP => ?_
  have hpow : 2 ^ #P.parts = 2 * 2 ^ (#P.parts - 1) := by
    have hparts := mem_groupings.mp hP
    rw [← pow_succ', Nat.sub_add_cancel (by omega)]
  rw [← mul_assoc, ← hpow, ← prod_const, ← prod_mul_distrib]
  refine prod_congr rfl fun block hblock => ?_
  rw [ncard_signedValues (hproducts P hP block hblock), (hblocks P hP block hblock).products]

/-- A sum without subtractions has no signs to choose, so its groups give no factor. -/
theorem tallied_plainSums : (squares C false .sum s).Finite ∧
    (squares C false .sum s).ncard = (countsAt #s).plainSums := by
  have hproducts (P : Finpartition s) (hP : P ∈ groupings s) (block : Finset σ) (hblock : block ∈ P.parts) :
      (values C false .product block).Finite :=
    (finite_signedValues ((hblocks P hP block hblock).finite true .product)).subset
      values_subset_signedValues
  obtain ⟨hfinite, hcard⟩ := ncard_sums hproducts (fun _ _ hq => values_subset_signedValues hq)
    fun q => mem_plain_sum_iff hs
  refine ⟨hfinite.image _, ?_⟩
  rw [ncard_squares_plain, hcard, plainSums_countsAt hs]
  refine sum_congr rfl fun P hP => prod_congr rfl fun block hblock => ?_
  rw [← ncard_squares_plain, (hblocks P hP block hblock).plainProducts]

/-- The values over several slots are counted right if those over the blocks of their partitions are. -/
theorem tallied_of_blocks : Tallied C s where
  finite minus F := by
    cases F with
    | sum =>
      cases minus with
      | false => exact (tallied_plainSums hs hblocks).1
      | true => exact (tallied_sums hs hblocks).1
    | product =>
      cases minus with
      | false => exact (tallied_plainProducts hs hblocks).1
      | true => exact (tallied_products hs hblocks).1
  products := (tallied_products hs hblocks).2
  sums := (tallied_sums hs hblocks).2
  plainProducts := (tallied_plainProducts hs hblocks).2
  plainSums := (tallied_plainSums hs hblocks).2

end Step

/-- The counts are those of the values, up to signs and without subtractions. -/
theorem tallied (C : Coordinates σ K) (hs : s.Nonempty) : Tallied C s := by
  induction s using strongInduction with
  | H s ih =>
    obtain hone | hmany : #s = 1 ∨ 2 ≤ #s := by
      have hpos := card_pos.mpr hs
      omega
    · obtain ⟨x, rfl⟩ := card_eq_one.mp hone
      exact tallied_singleton C x
    · exact tallied_of_blocks hmany fun P hP block hblock =>
        ih block (ssubset_of_mem_groupings hP hblock) (P.nonempty_of_mem_parts hblock)

/-- Formulas of both families make as many values as are counted in total. -/
theorem ncard_values_total (C : Coordinates σ K) (hs : 2 ≤ #s) :
    (values C true .sum s ∪ values C true .product s).Finite ∧
      (values C true .sum s ∪ values C true .product s).ncard = (countsAt #s).total := by
  have htallied := tallied C (card_pos.mp (by omega) : s.Nonempty)
  have hfinite (F : Family) : (values C true F s).Finite :=
    (finite_signedValues (htallied.finite true F)).subset values_subset_signedValues
  have hdisjoint : Disjoint (values C true .sum s) (values C true .product s) := by
    rw [Set.disjoint_left]
    intro q hsum hproduct
    have hle := Form.card_le_one hsum hproduct
    omega
  have hcount (F : Family) : (values C true F s).ncard + (squares C false F s).ncard =
      2 * (squares C true F s).ncard := by
    rw [ncard_squares_plain, ncard_values_add (htallied.finite true F),
      ncard_signedValues (htallied.finite true F)]
  have hsum := hcount .sum
  have hproduct := hcount .product
  rw [htallied.plainSums, htallied.sums] at hsum
  rw [htallied.plainProducts, htallied.products] at hproduct
  refine ⟨(hfinite .sum).union (hfinite .product), ?_⟩
  rw [Set.ncard_union_eq hdisjoint (hfinite .sum) (hfinite .product), Counts.total]
  omega

end Formulary.Census
