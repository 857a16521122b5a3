import Formulary.Proofs.Numeral.Rounding

/-!
# Sums, products and integers

A sum or a product of finite numbers is the rounded sum or product of what they stand for, so it is exact
if it can be represented, and so is a difference. An integer is converted to what it is rounded to.
-/

namespace Formulary.Numeral

open Float.Model (UnpackedFloat)
open Float.Model.UnpackedFloat (Sign)

variable {x y : Float}

/-- A zero of either sign stands for zero. -/
theorem exact_of_zero {sign : Sign} (h : x.toModel.unpack = .zero sign) : exact x = 0 :=
  congrArg unpackedExact h

/-- A finite number stands for its mantissa, scaled by its exponent and with its sign. -/
theorem exact_of_finite {sign : Sign} {m : ℕ} {e : ℤ} {hpos : 0 < m}
    (h : x.toModel.unpack = .finite sign m e hpos) : exact x = signed sign (scaled m e) :=
  congrArg unpackedExact h

/-- The other sign gives the negative. -/
theorem signed_neg (sign : Sign) (q : ℚ) : signed (-sign) q = -signed sign q := by
  cases sign with
  | positive => rfl
  | negative => exact (neg_neg q).symm

/-- The sign of a product is the product of the signs. -/
theorem signed_mul (s t : Sign) (q r : ℚ) : signed (s * t) (q * r) = signed s q * signed t r := by
  cases s with
  | positive =>
    cases t with
    | positive => rfl
    | negative => exact (mul_neg q r).symm
  | negative =>
    cases t with
    | positive => exact (neg_mul q r).symm
    | negative => exact (neg_mul_neg q r).symm

/-- A mantissa with a sign, shifted to a smaller exponent. -/
theorem apply_shiftLeft (sign : Sign) (m : ℕ) {e smaller : ℤ} (h : smaller ≤ e) :
    ((sign.apply (m <<< (e - smaller).toNat : ℕ) : ℤ) : ℚ) * 2 ^ smaller =
      signed sign (scaled m e) := by
  have hshift : scaled (m <<< (e - smaller).toNat) smaller = scaled m e := by
    rw [Nat.shiftLeft_eq, scaled_mul_pow]
    congr 1
    omega
  rw [← hshift]
  cases sign with
  | positive => rfl
  | negative =>
    dsimp only [Sign.apply, signed, scaled]
    rw [Int.cast_neg, Int.cast_natCast, neg_mul]

/-- The sum of finite numbers that is not beyond all finite numbers is rounded to a finite number. -/
theorem finite_add {cap : ℚ} (hx : x.isFinite = true) (hy : y.isFinite = true)
    (hcap : Representable cap) (hbelow : cap < 2 ^ 1024) (hle : |exact x + exact y| ≤ cap) :
    (x + y).isFinite = true ∧ RoundsTo (exact x + exact y) (exact (x + y)) := by
  have hread : (x + y).toModel.unpack = UnpackedFloat.unpack .binary64 (UnpackedFloat.pack .binary64
      (UnpackedFloat.add .binary64 x.toModel.unpack y.toModel.unpack)) := rfl
  rcases finite_cases hx with ⟨s, hx⟩ | ⟨s, m, e, hm, hx, hcanonical⟩
  · rw [exact_of_zero hx, zero_add]
    rcases finite_cases hy with ⟨t, hy⟩ | ⟨t, n, k, hn, hy, hcanonical'⟩
    · rw [hx, hy] at hread
      obtain ⟨sign, hzero⟩ : ∃ sign, (x + y).toModel.unpack = .zero sign := by
        rw [hread]
        unfold UnpackedFloat.add
        dsimp only
        split
        · exact ⟨_, unpack_pack_zero _⟩
        · exact ⟨_, unpack_pack_zero _⟩
      rw [exact_of_zero hzero, exact_of_zero hy]
      exact ⟨isFinite_of_zero hzero, .refl 0⟩
    · rw [hx, hy] at hread
      have hfinite := hread.trans (unpack_pack_finite t hn hcanonical')
      rw [exact_of_finite hfinite, exact_of_finite hy]
      exact ⟨isFinite_of_finite hfinite, .refl _⟩
  · rcases finite_cases hy with ⟨t, hy⟩ | ⟨t, n, k, hn, hy, hcanonical'⟩
    · rw [hx, hy] at hread
      have hfinite := hread.trans (unpack_pack_finite s hm hcanonical)
      rw [exact_of_finite hfinite, exact_of_finite hx, exact_of_zero hy, add_zero]
      exact ⟨isFinite_of_finite hfinite, .refl _⟩
    · -- Both mantissas are brought to the smaller exponent, and their sum is rounded.
      obtain ⟨total, htotal⟩ : ∃ total, total = s.apply (m <<< (e - min e k).toNat : ℕ) +
          t.apply (n <<< (k - min e k).toNat : ℕ) := ⟨_, rfl⟩
      have hvalue : (total : ℚ) * 2 ^ min e k = exact x + exact y := by
        rw [htotal, Int.cast_add, add_mul, apply_shiftLeft s m (min_le_left e k),
          apply_shiftLeft t n (min_le_right e k), exact_of_finite hx, exact_of_finite hy]
      have hsum : x + y =
          ⟨.pack (UnpackedFloat.normalize .binary64 total (min e k) .positive)⟩ := by
        have hadd : x + y =
            ⟨.pack (UnpackedFloat.add .binary64 x.toModel.unpack y.toModel.unpack)⟩ := rfl
        rw [hadd, hx, hy, htotal]
        rfl
      rw [hsum, ← hvalue]
      exact finite_normalize total (min e k) hcap hbelow (hvalue ▸ hle)

/-- The other sign gives the negative of a whole number as well. -/
theorem apply_neg (sign : Sign) (m : ℕ) : (-sign).apply m = -sign.apply m := by
  cases sign with
  | positive => rfl
  | negative => exact (neg_neg (m : ℤ)).symm

/-- A number is subtracted by adding its negative. -/
theorem sub_eq_add_neg_of_isFinite (hx : x.isFinite = true) (hy : y.isFinite = true) :
    x - y = x + -y := by
  have hneg : (-y).toModel.unpack = UnpackedFloat.unpack .binary64
      (UnpackedFloat.pack .binary64 y.toModel.unpack.neg) := rfl
  have hsub : x - y =
      ⟨.pack (UnpackedFloat.sub .binary64 x.toModel.unpack y.toModel.unpack)⟩ := rfl
  have hadd : x + -y =
      ⟨.pack (UnpackedFloat.add .binary64 x.toModel.unpack (-y).toModel.unpack)⟩ := rfl
  rw [hsub, hadd]
  rcases finite_cases hy with ⟨t, hy⟩ | ⟨t, n, k, hn, hy, hcanonical⟩
  · rw [hy] at hneg ⊢
    rw [hneg.trans (unpack_pack_zero (-t))]
    rcases finite_cases hx with ⟨s, hx⟩ | ⟨s, m, e, hm, hx, -⟩
    · rw [hx]
      cases s with
      | positive => cases t <;> rfl
      | negative => cases t <;> rfl
    · rw [hx]
      rfl
  · rw [hy] at hneg ⊢
    rw [hneg.trans (unpack_pack_finite (-t) hn hcanonical)]
    rcases finite_cases hx with ⟨s, hx⟩ | ⟨s, m, e, hm, hx, -⟩
    · rw [hx]
      rfl
    · rw [hx]
      unfold UnpackedFloat.sub UnpackedFloat.add
      dsimp only
      rw [apply_neg, ← sub_eq_add_neg]

/-- The negative of a finite number is exact. -/
theorem exact_neg (hx : x.isFinite = true) : (-x).isFinite = true ∧ exact (-x) = -exact x := by
  have hread : (-x).toModel.unpack = UnpackedFloat.unpack .binary64
      (UnpackedFloat.pack .binary64 x.toModel.unpack.neg) := rfl
  rcases finite_cases hx with ⟨s, hx⟩ | ⟨s, m, e, hm, hx, hcanonical⟩
  · rw [hx] at hread
    have hzero := hread.trans (unpack_pack_zero (-s))
    rw [exact_of_zero hzero, exact_of_zero hx, neg_zero]
    exact ⟨isFinite_of_zero hzero, rfl⟩
  · rw [hx] at hread
    have hfinite := hread.trans (unpack_pack_finite (-s) hm hcanonical)
    rw [exact_of_finite hfinite, exact_of_finite hx, signed_neg]
    exact ⟨isFinite_of_finite hfinite, rfl⟩

/-- The difference of finite numbers is exact if it can be represented. -/
theorem exact_sub (hx : x.isFinite = true) (hy : y.isFinite = true)
    (hdifference : Representable (exact x - exact y)) (hbelow : |exact x - exact y| < 2 ^ 1024) :
    (x - y).isFinite = true ∧ exact (x - y) = exact x - exact y := by
  obtain ⟨hfinite, hneg⟩ := exact_neg hy
  rw [sub_eq_add_neg_of_isFinite hx hy]
  rw [sub_eq_add_neg, ← hneg] at hdifference hbelow ⊢
  obtain ⟨hsum, hrounds⟩ := finite_add hx hfinite hdifference.abs hbelow le_rfl
  exact ⟨hsum, hrounds.eq_of_representable hdifference⟩

/-- A product of two mantissas has an exponent that is not too large. -/
theorem add_le_target {m n : ℕ} {e k : ℤ} (hm : 0 < m) (hn : 0 < n) (hcanonical : Canonical m e)
    (hcanonical' : Canonical n k) : e + k ≤ target (m * n) (e + k) := by
  have hpos : m * n ≠ 0 := (Nat.mul_pos hm hn).ne'
  rw [target_eq]
  rcases hcanonical.leading with hleading | hleast
  · have hlog : 52 ≤ (m * n).log2 := (Nat.le_log2 hpos).mpr
      (hleading.trans (Nat.le_mul_of_pos_right m hn))
    omega
  · rcases hcanonical'.leading with hleading | hleast'
    · have hlog : 52 ≤ (m * n).log2 := (Nat.le_log2 hpos).mpr
        (hleading.trans (Nat.le_mul_of_pos_left n hm))
      omega
    · omega

/-- Exponents add up in a product. -/
theorem scaled_mul_scaled (m n : ℕ) (e k : ℤ) :
    scaled (m * n) (e + k) = scaled m e * scaled n k := by
  unfold scaled
  rw [zpow_add₀ two_ne_zero]
  push_cast
  ring

/-- The product of finite numbers that are not zero is rounded. -/
theorem roundedFrom_mul {s t : Sign} {m n : ℕ} {e k : ℤ} {hm : 0 < m} {hn : 0 < n}
    (hx : x.toModel.unpack = .finite s m e hm) (hy : y.toModel.unpack = .finite t n k hn) :
    RoundedFrom (x * y) (s * t) (scaled m e * scaled n k) := by
  have hproduct : x * y =
      ⟨.pack (UnpackedFloat.mul .binary64 x.toModel.unpack y.toModel.unpack)⟩ := rfl
  rw [hproduct, hx, hy, ← scaled_mul_scaled]
  exact roundedFrom_roundWithAccuracy (s * t) (Nat.mul_pos hm hn)
    (add_le_target hm hn (canonical_of_unpack hx) (canonical_of_unpack hy))

/-- What a finite number stands for can be represented, and its magnitude is bounded. -/
theorem representable_exact (hx : x.isFinite = true) :
    Representable (exact x) ∧ |exact x| < 2 ^ 1024 := by
  rcases finite_cases hx with ⟨s, hx⟩ | ⟨s, m, e, hm, hx, hcanonical⟩
  · rw [exact_of_zero hx, abs_zero]
    exact ⟨⟨0, 0, by decide, by decide, by simp⟩, by positivity⟩
  · have hscaled := representable_scaled hcanonical.lt.le hcanonical.least_le
    have hbound : scaled m e < 2 ^ 1024 := by
      have hcap : (2 : ℚ) ^ 1024 = scaled (2 ^ 53) 971 := by
        rw [scaled, zpow_ofNat, Nat.cast_pow, Nat.cast_ofNat, ← pow_add]
      obtain ⟨shift, hshift⟩ := Int.le.dest hcanonical.le_greatest
      rw [hcap, ← hshift, ← scaled_mul_pow, ← not_le, scaled_le_scaled, not_le]
      exact hcanonical.lt.trans_le (Nat.le_mul_of_pos_right _ (by positivity))
    rw [exact_of_finite hx, abs_signed, abs_of_nonneg (scaled_nonneg m e)]
    refine ⟨?_, hbound⟩
    cases s with
    | positive => exact hscaled
    | negative => exact hscaled.neg

/-- The product of finite numbers that is not beyond all finite numbers is rounded to a finite
number. -/
theorem finite_mul {cap : ℚ} (hx : x.isFinite = true) (hy : y.isFinite = true)
    (hcap : Representable cap) (hbelow : cap < 2 ^ 1024) (hle : |exact x * exact y| ≤ cap) :
    (x * y).isFinite = true ∧ RoundsTo (exact x * exact y) (exact (x * y)) := by
  have hread : (x * y).toModel.unpack = UnpackedFloat.unpack .binary64 (UnpackedFloat.pack .binary64
      (UnpackedFloat.mul .binary64 x.toModel.unpack y.toModel.unpack)) := rfl
  rcases finite_cases hx with ⟨s, hx⟩ | ⟨s, m, e, hm, hx, -⟩
  · obtain ⟨sign, hzero⟩ : ∃ sign, (x * y).toModel.unpack = .zero sign := by
      rw [hread, hx]
      rcases finite_cases hy with ⟨t, hy⟩ | ⟨t, n, k, hn, hy, -⟩
      · rw [hy]
        exact ⟨_, unpack_pack_zero _⟩
      · rw [hy]
        exact ⟨_, unpack_pack_zero _⟩
    rw [exact_of_zero hzero, exact_of_zero hx, zero_mul]
    exact ⟨isFinite_of_zero hzero, .refl 0⟩
  · rcases finite_cases hy with ⟨t, hy⟩ | ⟨t, n, k, hn, hy, -⟩
    · rw [hx, hy] at hread
      have hzero := hread.trans (unpack_pack_zero (s * t))
      rw [exact_of_zero hzero, exact_of_zero hy, mul_zero]
      exact ⟨isFinite_of_zero hzero, .refl 0⟩
    · have hvalue : exact x * exact y = signed (s * t) (scaled m e * scaled n k) := by
        rw [exact_of_finite hx, exact_of_finite hy, signed_mul]
      rw [hvalue] at hle ⊢
      exact (roundedFrom_mul hx hy).finite hcap hbelow hle

/-- The product of finite numbers is exact if it can be represented. -/
theorem exact_mul (hx : x.isFinite = true) (hy : y.isFinite = true)
    (hproduct : Representable (exact x * exact y)) (hbelow : |exact x * exact y| < 2 ^ 1024) :
    (x * y).isFinite = true ∧ exact (x * y) = exact x * exact y := by
  obtain ⟨hfinite, hrounds⟩ := finite_mul hx hy hproduct.abs hbelow le_rfl
  exact ⟨hfinite, hrounds.eq_of_representable hproduct⟩

section Integers

/-- One is exact. -/
theorem exact_one : (1.0 : Float).isFinite = true ∧ exact 1.0 = 1 := by
  have hread : (1.0 : Float).toModel.unpack = .finite .positive (2 ^ 52) (-52) (by decide) := rfl
  exact ⟨isFinite_of_finite hread, (exact_of_finite hread).trans scaled_one⟩

/-- Natural numbers up to `2 ^ 53` can be represented. -/
theorem representable_natCast {n : ℕ} (h : n ≤ 2 ^ 53) : Representable n :=
  representable_intCast (n := n) (by rw [Nat.abs_cast]; exact_mod_cast h)

/-- Natural numbers up to `2 ^ 63` are in the range of finite numbers. -/
theorem natCast_lt {n : ℕ} (h : n ≤ 2 ^ 63) : (n : ℚ) < 2 ^ 1024 :=
  calc (n : ℚ) ≤ 2 ^ 63 := by exact_mod_cast h
    _ < 2 ^ 1024 := pow_lt_pow_right₀ one_lt_two (by decide)

/-- Small natural numbers are converted exactly. -/
theorem exact_ofNat {n : ℕ} (h : n < 2 ^ 53) :
    (Float.ofNat n).isFinite = true ∧ exact (Float.ofNat n) = n := by
  have hrepresentable := representable_natCast h.le
  have hbelow : |(n : ℚ)| < 2 ^ 1024 := by
    rw [Nat.abs_cast]
    exact natCast_lt (by omega)
  -- The number is converted as a word and multiplied by one.
  have hof : Float.ofNat n = n.toUInt64.toFloat * 1.0 := by
    have hscientific : Float.ofNat n = Float.ofScientific n false 0 := rfl
    rw [hscientific, Float.ofScientific, dif_pos ⟨h, by decide⟩]
    rfl
  have hword : n.toUInt64.toNat = n :=
    UInt64.toNat_ofNat_of_lt (h.trans (by decide))
  have hconvert : n.toUInt64.toFloat.isFinite = true ∧ exact n.toUInt64.toFloat = n := by
    have hnormalize : n.toUInt64.toFloat =
        ⟨.pack (UnpackedFloat.normalize .binary64 (n.toUInt64.toNat : ℤ) 0 .positive)⟩ := rfl
    have hvalue : ((n : ℤ) : ℚ) * 2 ^ (0 : ℤ) = n := by
      rw [zpow_zero, mul_one, Int.cast_natCast]
    obtain ⟨hfinite, hrounds⟩ := finite_normalize (n : ℤ) 0 hrepresentable.abs hbelow (by rw [hvalue])
    rw [hvalue] at hrounds
    rw [hnormalize, hword]
    exact ⟨hfinite, hrounds.eq_of_representable hrepresentable⟩
  have hproduct : exact n.toUInt64.toFloat * exact 1.0 = n := by
    rw [hconvert.2, exact_one.2, mul_one]
  obtain ⟨hfinite, hexact⟩ := exact_mul hconvert.1 exact_one.1 (hproduct ▸ hrepresentable)
    (hproduct ▸ hbelow)
  rw [hof]
  exact ⟨hfinite, hexact.trans hproduct⟩

/-- A natural number of at most sixty-three bits is rounded to a finite number. -/
theorem finite_ofNat {n : ℕ} (h : n ≤ 2 ^ 63) :
    (Float.ofNat n).isFinite = true ∧ RoundsTo n (exact (Float.ofNat n)) := by
  by_cases hsmall : n < 2 ^ 53
  · obtain ⟨hfinite, hexact⟩ := exact_ofNat hsmall
    rw [hexact]
    exact ⟨hfinite, .refl _⟩
  · have hpos : 0 < n := by omega
    have hof : Float.ofNat n = ⟨.pack (UnpackedFloat.roundWithAccuracy .binary64 .positive
        (n <<< 53 * 1) (-53 + 0) .exact)⟩ := by
      have hscientific : Float.ofNat n = Float.ofScientific n false 0 := rfl
      have hmodel : Float.ofNat n = ⟨.pack (UnpackedFloat.ofScientific .binary64 n 0)⟩ := by
        rw [hscientific, Float.ofScientific, dif_neg fun h => hsmall h.1]
        rfl
      rw [hmodel, UnpackedFloat.ofScientific, dif_neg hpos.ne', if_neg (by decide),
        if_neg (not_lt.mpr (neg_nonpos.mpr (by positivity))), if_pos le_rfl]
      rfl
    have hvalue : scaled (n <<< 53 * 1) (-53 + 0) = n := by
      rw [mul_one, Nat.shiftLeft_eq, scaled_mul_pow, scaled]
      norm_num
    have hround : RoundedFrom (Float.ofNat n) .positive n := by
      rw [hof, ← hvalue]
      apply roundedFrom_roundWithAccuracy
      · rw [mul_one, Nat.shiftLeft_eq]
        positivity
      · have hlog : 53 ≤ (n <<< 53 * 1).log2 := by
          rw [mul_one, Nat.shiftLeft_eq, Nat.le_log2 (by positivity)]
          exact Nat.le_mul_of_pos_left _ hpos
        rw [target_eq]
        omega
    have hcap : Representable ((2 ^ 63 : ℕ) : ℚ) :=
      ⟨1, 63, by decide, by decide, by norm_num⟩
    have hle : |(n : ℚ)| ≤ (2 ^ 63 : ℕ) := by
      rw [Nat.abs_cast]
      exact_mod_cast h
    exact hround.finite hcap (natCast_lt le_rfl) hle

/-- An integer of at most sixty-three bits is rounded to a finite number. -/
theorem finite_ofInt {n : ℤ} (h : |n| ≤ 2 ^ 63) :
    (Float.ofInt n).isFinite = true ∧ RoundsTo n (exact (Float.ofInt n)) := by
  cases n with
  | ofNat n =>
    exact finite_ofNat (by rw [Int.ofNat_eq_natCast, Nat.abs_cast] at h; exact_mod_cast h)
  | negSucc n =>
    have hmagnitude : n + 1 ≤ 2 ^ 63 := by
      have hnatural : |Int.negSucc n| = (n + 1 : ℕ) := by
        rw [Int.negSucc_eq, abs_neg]
        exact Nat.abs_cast (n + 1)
      rw [hnatural] at h
      exact_mod_cast h
    obtain ⟨hfinite, hrounds⟩ := finite_ofNat hmagnitude
    obtain ⟨hfinite', hexact⟩ := exact_neg hfinite
    have hof : Float.ofInt (Int.negSucc n) = -Float.ofNat (n + 1) := rfl
    rw [hof, hexact]
    rw [Int.cast_negSucc]
    exact ⟨hfinite', hrounds.neg⟩

end Integers

end Formulary.Numeral
