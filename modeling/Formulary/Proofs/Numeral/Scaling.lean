import Formulary.Proofs.Numeral.Whole

/-!
# Scaling with powers of ten

A product that is at least one is rounded by no more than a factor `1 ± 2 ^ -52`. Repeated squaring
multiplies at most as often as the exponent says, if a squaring counts as often as its square is
multiplied, so ten to the power `digits` is computed up to a factor `(1 ± 2 ^ -52) ^ digits`. This is
enough to tell from which power on the scale is infinite: it is the 309th.
-/

namespace Formulary.Numeral

open Float.Model (UnpackedFloat)
open Float.Model.UnpackedFloat (Sign)

section Nearness

variable {q r : ℚ}

/-- The largest relative error of one rounding. -/
def roundoff : ℚ :=
  1 / 2 ^ 52

/-- The relative error of one rounding is positive. -/
theorem roundoff_pos : 0 < roundoff := by
  norm_num [roundoff]

/-- The relative error of one rounding is less than one. -/
theorem roundoff_lt_one : roundoff < 1 := by
  norm_num [roundoff]

/-- A number from one on stays there if room is made for an error. -/
theorem one_le_div_one_sub_roundoff (hq : 1 ≤ q) : 1 ≤ q / (1 - roundoff) := by
  have hroundoff := roundoff_pos
  rw [one_le_div (sub_pos.mpr roundoff_lt_one)]
  linarith

/-- The largest finite number. -/
def greatest : ℚ :=
  (2 ^ 53 - 1) * 2 ^ 971

/-- A rational number from one on is rounded with a small relative error. -/
theorem RoundsTo.near (h : RoundsTo q r) (hq : 1 ≤ q) :
    q * (1 - roundoff) ≤ r ∧ r ≤ q * (1 + roundoff) := by
  obtain ⟨k, hlow, hhigh⟩ := exists_nat_pow_near hq one_lt_two
  -- The neighbours of the number on the grid of its last place can be represented.
  obtain ⟨unit, hunit⟩ : ∃ unit : ℚ, unit = 2 ^ (k - 52 : ℤ) := ⟨_, rfl⟩
  have hpos : 0 < unit := hunit ▸ zpow_pos two_pos _
  have hpow : (2 : ℚ) ^ k = 2 ^ 52 * unit := by
    rw [hunit, zpow_sub₀ two_ne_zero, zpow_natCast, zpow_ofNat]
    field_simp
  have hsmall : unit ≤ q * roundoff := by
    rw [hpow] at hlow
    unfold roundoff
    linarith
  have hplaces : q / unit < (2 ^ 53 : ℤ) := by
    rw [pow_succ, hpow] at hhigh
    rw [div_lt_iff₀ hpos]
    push_cast
    linarith
  have hnonneg : 0 ≤ q / unit := by positivity
  have hgrid {n : ℤ} (hn : 0 ≤ n) (hle : n ≤ 2 ^ 53) : Representable (n * unit) :=
    ⟨n, k - 52, by rwa [abs_of_nonneg hn], by omega, by rw [hunit]⟩
  have hfloor : (⌊q / unit⌋ : ℚ) * unit ≤ q := (le_div_iff₀ hpos).mp (Int.floor_le _)
  have hfloor' : q < (⌊q / unit⌋ + 1 : ℚ) * unit := (div_lt_iff₀ hpos).mp (Int.lt_floor_add_one _)
  have hceil : q ≤ (⌈q / unit⌉ : ℚ) * unit := (div_le_iff₀ hpos).mp (Int.le_ceil _)
  have hceil' : (⌈q / unit⌉ - 1 : ℚ) * unit < q :=
    (lt_div_iff₀ hpos).mp (sub_lt_iff_lt_add.mpr (Int.ceil_lt_add_one _))
  have hbelow := (h _ (hgrid (Int.floor_nonneg.mpr hnonneg)
    (Int.floor_lt.mpr hplaces).le)).1 hfloor
  have habove := (h _ (hgrid (Int.ceil_nonneg hnonneg) (Int.ceil_le.mpr hplaces.le))).2 hceil
  constructor
  · linarith
  · linarith

/-- The largest finite number is at least one. -/
theorem one_le_greatest : 1 ≤ greatest :=
  one_le_mul_of_one_le_of_one_le (by norm_num) (one_le_pow₀ one_le_two)

/-- The largest finite number can be represented. -/
theorem representable_greatest : Representable greatest ∧ greatest < 2 ^ 1024 := by
  have hbelow : greatest < 2 ^ 1024 :=
    calc (2 ^ 53 - 1) * 2 ^ 971 < (2 : ℚ) ^ 53 * 2 ^ 971 :=
          mul_lt_mul_of_pos_right (by norm_num) (by positivity)
      _ = 2 ^ 1024 := (pow_add 2 53 971).symm
  exact ⟨⟨2 ^ 53 - 1, 971, by decide, by decide, by norm_num [greatest]⟩, hbelow⟩

end Nearness

section Products

variable {x y : Float} {low high low' high' : ℚ}

/-- A number that lies between two bounds, where an infinite one counts as more than every finite
number. -/
def Between (x : Float) (low high : ℚ) : Prop :=
  (x.isFinite = true ∧ low ≤ exact x ∧ exact x ≤ high) ∨
    (x.toModel.unpack = .infinity .positive ∧ greatest < high)

/-- A positive finite number has a mantissa and no sign. -/
theorem exists_finite_of_pos (hx : x.isFinite = true) (hpos : 0 < exact x) :
    ∃ m e hm, x.toModel.unpack = .finite .positive m e hm ∧ exact x = scaled m e := by
  rcases finite_cases hx with ⟨s, hread⟩ | ⟨s, m, e, hm, hread, -⟩
  · exact absurd (exact_of_zero hread) hpos.ne'
  · have hexact := exact_of_finite hread
    cases s with
    | positive => exact ⟨m, e, hm, hread, hexact⟩
    | negative =>
      rw [hexact, signed] at hpos
      exact absurd hpos (neg_nonpos.mpr (scaled_nonneg m e)).not_gt

/-- If the lower bound is at least one, so is the upper one. -/
theorem Between.one_le_high (hx : Between x low high) (hlow : 1 ≤ low) : 1 ≤ high := by
  rcases hx with ⟨-, hlowest, hhighest⟩ | ⟨-, hbeyond⟩
  · exact hlow.trans (hlowest.trans hhighest)
  · exact one_le_greatest.trans hbeyond.le

/-- Infinity times a number from one on is infinite, and still within the product of the bounds. -/
theorem Between.infinity_mul (hx : x.toModel.unpack = .infinity .positive) (hbeyond : greatest < high)
    (hy : Between y low' high') (hlow' : 1 ≤ low') :
    (x * y).toModel.unpack = .infinity .positive ∧ greatest < high * high' * (1 + roundoff) := by
  have hproduct : (x * y).toModel.unpack = UnpackedFloat.unpack .binary64 (UnpackedFloat.pack
      .binary64 (UnpackedFloat.mul .binary64 x.toModel.unpack y.toModel.unpack)) := rfl
  have hhigh : 0 < high := zero_lt_one.trans_le (one_le_greatest.trans hbeyond.le)
  have hhigh' := hy.one_le_high hlow'
  have hroundoff := roundoff_pos
  constructor
  · rw [hproduct, hx]
    rcases hy with ⟨hy, hlowest', -⟩ | ⟨hy, -⟩
    · obtain ⟨n, k, hn, hy, -⟩ := exists_finite_of_pos hy (by linarith)
      rw [hy]
      exact unpack_pack_infinity .positive
    · rw [hy]
      exact unpack_pack_infinity .positive
  · calc greatest < high := hbeyond
      _ ≤ high * high' := le_mul_of_one_le_right hhigh.le hhigh'
      _ ≤ high * high' * (1 + roundoff) :=
        le_mul_of_one_le_right (mul_nonneg hhigh.le (zero_le_one.trans hhigh')) (by linarith)

/-- Two finite factors from one on are multiplied with a small relative error. -/
theorem between_mul_of_isFinite (hx : x.isFinite = true) (hy : y.isFinite = true)
    (hlow : 1 ≤ exact x) (hlow' : 1 ≤ exact y) :
    Between (x * y) (exact x * exact y * (1 - roundoff)) (exact x * exact y * (1 + roundoff)) := by
  have hone := one_le_mul_of_one_le_of_one_le hlow hlow'
  have hroundoff := roundoff_pos
  obtain ⟨m, e, hm, hx, hexact⟩ := exists_finite_of_pos hx (by linarith)
  obtain ⟨n, k, hn, hy, hexact'⟩ := exists_finite_of_pos hy (by linarith)
  have hrounded := roundedFrom_mul hx hy
  rw [← hexact, ← hexact'] at hrounded
  rcases hrounded with ⟨hfinite, hrounds⟩ | ⟨hinfinite, hbeyond⟩
  · exact Or.inl ⟨hfinite, hrounds.near hone⟩
  · have hless := hbeyond greatest representable_greatest.1 representable_greatest.2
    refine Or.inr ⟨hinfinite, hless.trans_le (le_mul_of_one_le_right ?_ (by linarith))⟩
    linarith

/-- Bounds may be moved apart. -/
theorem Between.mono {less more : ℚ} (h : Between x low high) (hless : less ≤ low)
    (hmore : high ≤ more) : Between x less more := by
  rcases h with ⟨hfinite, hlow, hhigh⟩ | ⟨hinfinite, hbeyond⟩
  · exact Or.inl ⟨hfinite, hless.trans hlow, hhigh.trans hmore⟩
  · exact Or.inr ⟨hinfinite, hbeyond.trans_le hmore⟩

/-- Two factors from one on are multiplied with a small relative error. -/
theorem Between.mul (hx : Between x low high) (hy : Between y low' high') (hlow : 1 ≤ low)
    (hlow' : 1 ≤ low') :
    Between (x * y) (low * low' * (1 - roundoff)) (high * high' * (1 + roundoff)) := by
  have hroundoff := roundoff_pos
  have hroundoff' := roundoff_lt_one
  rcases hx with ⟨hfinite, hlowest, hhighest⟩ | ⟨hinfinite, hbeyond⟩
  · rcases hy with ⟨hfinite', hlowest', hhighest'⟩ | ⟨hinfinite', hbeyond'⟩
    · have hless : low * low' ≤ exact x * exact y :=
        mul_le_mul hlowest hlowest' (by linarith) (by linarith)
      have hmore : exact x * exact y ≤ high * high' :=
        mul_le_mul hhighest hhighest' (by linarith) (by linarith)
      exact (between_mul_of_isFinite hfinite hfinite' (hlow.trans hlowest) (hlow'.trans hlowest')).mono
        (mul_le_mul_of_nonneg_right hless (by linarith))
        (mul_le_mul_of_nonneg_right hmore (by linarith))
    · rw [Numeral.mul_comm, mul_comm high]
      exact Or.inr (Between.infinity_mul hinfinite' hbeyond' (Or.inl ⟨hfinite, hlowest, hhighest⟩) hlow)
  · exact Or.inr (Between.infinity_mul hinfinite hbeyond hy hlow')

/-- The bounds that a factor brings into a product and that still hold when the product is rounded: the
factor itself lies between bounds that leave room for that rounding. -/
def BringsInto (x : Float) (low high : ℚ) : Prop :=
  Between x (low / (1 - roundoff)) (high / (1 + roundoff))

/-- A number between bounds is brought between their products with the bounds of a factor. -/
theorem Between.mul_of_bringsInto (hx : Between x low high) (hy : BringsInto y low' high')
    (hlow : 1 ≤ low) (hlow' : 1 ≤ low') : Between (x * y) (low * low') (high * high') := by
  have hroundoff : 1 - roundoff ≠ 0 := (sub_pos.mpr roundoff_lt_one).ne'
  have hroundoff' : 1 + roundoff ≠ 0 := (add_pos one_pos roundoff_pos).ne'
  have hproduct := hx.mul hy hlow (one_le_div_one_sub_roundoff hlow')
  rwa [mul_assoc, div_mul_cancel₀ _ hroundoff, mul_assoc, div_mul_cancel₀ _ hroundoff'] at hproduct

/-- The square of a factor lies between the squares of its bounds. -/
theorem BringsInto.mul_self (hx : BringsInto x low high) (hlow : 1 ≤ low) :
    BringsInto (x * x) (low ^ 2) (high ^ 2) := by
  have hproduct := Between.mul_of_bringsInto hx hx (one_le_div_one_sub_roundoff hlow) hlow
  rwa [div_mul_eq_mul_div, ← pow_two, div_mul_eq_mul_div, ← pow_two] at hproduct

end Products

section Powers

open Places (squarings powerOfTen maxExponent)

/-- Repeated squaring errs by one rounding for every factor. -/
theorem between_squarings {bits : ℕ} {acc base : Float} {p p' q q' : ℚ} {exponent : ℕ}
    (hacc : Between acc p p') (hbase : BringsInto base q q') (hp : 1 ≤ p) (hq : 1 ≤ q)
    (hlt : exponent < 2 ^ bits) :
    Between (squarings bits acc base exponent) (p * q ^ exponent) (p' * q' ^ exponent) := by
  induction bits generalizing acc base p p' q q' exponent with
  | zero =>
    obtain rfl : exponent = 0 := by omega
    rwa [squarings, pow_zero, pow_zero, mul_one, mul_one]
  | succ bits ih =>
    have hsplit (r : ℚ) : r ^ (exponent % 2) * (r ^ 2) ^ (exponent / 2) = r ^ exponent := by
      rw [← pow_mul, ← pow_add, Nat.mod_add_div]
    have hnext : Between (if exponent % 2 = 1 then acc * base else acc)
        (p * q ^ (exponent % 2)) (p' * q' ^ (exponent % 2)) := by
      split
      · next hodd =>
        rw [hodd, pow_one, pow_one]
        exact hacc.mul_of_bringsInto hbase hp hq
      · next heven =>
        have hzero : exponent % 2 = 0 := by omega
        rwa [hzero, pow_zero, pow_zero, mul_one, mul_one]
    unfold squarings
    dsimp only
    split
    · next hdone =>
      have hlast (r : ℚ) : r ^ (exponent % 2) = r ^ exponent := by
        rw [← hsplit r, hdone, pow_zero, mul_one]
      rwa [hlast, hlast] at hnext
    · have hp' : 1 ≤ p * q ^ (exponent % 2) := one_le_mul_of_one_le_of_one_le hp (one_le_pow₀ hq)
      have hlt' : exponent / 2 < 2 ^ bits := by
        rw [pow_succ] at hlt
        omega
      have hrest := ih hnext (hbase.mul_self hq) hp' (one_le_pow₀ hq) hlt'
      rwa [mul_assoc, hsplit, mul_assoc, hsplit] at hrest

/-- Ten is exact. -/
theorem exact_ten : (10.0 : Float).isFinite = true ∧ exact 10.0 = 10 := by
  have hread : (10.0 : Float).toModel.unpack = .finite .positive (5 * 2 ^ 50) (-49) (by decide) := rfl
  refine ⟨isFinite_of_finite hread, ?_⟩
  rw [exact_of_finite hread, signed, scaled]
  norm_num

/-- A power of ten is computed with one rounding for every factor. -/
theorem between_powerOfTen {digits : ℕ} (h : digits ≤ maxExponent) :
    Between (powerOfTen digits) ((10 * (1 - roundoff)) ^ digits)
      ((10 * (1 + roundoff)) ^ digits) := by
  obtain ⟨hone, hone'⟩ := exact_one
  obtain ⟨hten, hten'⟩ := exact_ten
  have hacc : Between 1.0 1 1 := Or.inl ⟨hone, hone'.ge, hone'.le⟩
  have hbase : BringsInto 10.0 (10 * (1 - roundoff)) (10 * (1 + roundoff)) := by
    rw [BringsInto, mul_div_cancel_right₀ _ (by norm_num [roundoff]),
      mul_div_cancel_right₀ _ (by norm_num [roundoff])]
    exact Or.inl ⟨hten, hten'.ge, hten'.le⟩
  have hbits : digits < 2 ^ 31 := Nat.lt_succ_of_le h
  have hpower := between_squarings hacc hbase le_rfl (by norm_num [roundoff]) hbits
  rw [one_mul, one_mul] at hpower
  unfold powerOfTen
  rwa [Nat.min_eq_left h]

/-- Up to the 308th power the scale is finite, and at least one. -/
theorem finite_powerOfTen {digits : ℕ} (h : digits ≤ 308) :
    (powerOfTen digits).isFinite = true ∧ 1 ≤ exact (powerOfTen digits) := by
  rcases between_powerOfTen (h.trans (by decide)) with ⟨hfinite, hlow, -⟩ | ⟨-, hbeyond⟩
  · exact ⟨hfinite, (one_le_pow₀ (by norm_num [roundoff])).trans hlow⟩
  · have hlast : (10 * (1 + roundoff)) ^ digits ≤ (10 * (1 + roundoff)) ^ 308 :=
      pow_le_pow_right₀ (by norm_num [roundoff]) h
    have hroom : (10 * (1 + roundoff)) ^ 308 ≤ greatest :=
      calc (10 * (1 + roundoff)) ^ 308 = ((10 * (1 + roundoff)) ^ 28) ^ 11 := pow_mul _ 28 11
        _ ≤ (51 / 50 * 2 ^ 93) ^ 11 :=
          pow_le_pow_left₀ (by norm_num [roundoff]) (by norm_num [roundoff]) 11
        _ = (51 / 50) ^ 11 * 2 ^ 52 * 2 ^ 971 := by
          rw [mul_pow, ← pow_mul, mul_assoc, ← pow_add]
        _ ≤ greatest := mul_le_mul_of_nonneg_right (by norm_num) (by positivity)
    exact absurd (hlast.trans hroom) hbeyond.not_ge

/-- From the 309th power on the scale is infinite. -/
theorem infinite_powerOfTen {digits : ℕ} (h : 309 ≤ digits) :
    (powerOfTen digits).toModel.unpack = .infinity .positive := by
  have hcapped : powerOfTen digits = powerOfTen (min digits maxExponent) := by
    unfold powerOfTen
    rw [Nat.min_assoc, Nat.min_self]
  have hmany : 309 ≤ min digits maxExponent := le_min h (by decide)
  rw [hcapped]
  rcases between_powerOfTen (Nat.min_le_right digits maxExponent) with
    ⟨hfinite, hlow, -⟩ | ⟨hinfinite, -⟩
  · have hfirst : (10 * (1 - roundoff)) ^ 309 ≤ (10 * (1 - roundoff)) ^ min digits maxExponent :=
      pow_le_pow_right₀ (by norm_num [roundoff]) hmany
    have hbeyond : (2 : ℚ) ^ 1024 ≤ (10 * (1 - roundoff)) ^ 309 :=
      calc (2 : ℚ) ^ 1024 ≤ 2 ^ (171 * 2 * 3) := pow_le_pow_right₀ one_le_two (by decide)
        _ = ((2 ^ 171) ^ 2) ^ 3 := by rw [pow_mul, pow_mul]
        _ ≤ ((10 * (1 - roundoff)) ^ 103) ^ 3 :=
          pow_le_pow_left₀ (by positivity) (by norm_num [roundoff]) 3
        _ = (10 * (1 - roundoff)) ^ 309 := (pow_mul _ 103 3).symm
    have hbound := (le_abs_self _).trans_lt (representable_exact hfinite).2
    exact absurd ((hbeyond.trans hfirst).trans hlow) hbound.not_ge
  · exact hinfinite

end Powers

end Formulary.Numeral
