import Formulary.Proofs.Numeral.Equality

/-!
# What a number stands for

The sixty-four bits of a floating-point number are a sign, a field of eleven bits for the exponent and
a fraction of fifty-two bits. A number whose field is not full is finite and stands for a rational
number, a signed mantissa times a power of two. The mantissa is below `2 ^ 53` and has its leading bit
unless the exponent is the least one. So of two mantissas with different exponents the one with the
larger exponent stands for more, and finite numbers compare as the rational numbers do that they stand
for.
-/

namespace Formulary.Numeral

open Float.Model (UnpackedFloat)
open Float.Model.UnpackedFloat (Sign)

section Bits

/-- The sign that goes with the highest of sixty-four bits. -/
def signOf (bits : ℕ) : Sign :=
  if bits / 2 ^ 63 = 0 then .positive else .negative

/-- The eleven bits of the exponent. -/
def fieldOf (bits : ℕ) : ℕ :=
  bits / 2 ^ 52 % 2 ^ 11

/-- The fifty-two bits of the fraction. -/
def fractionOf (bits : ℕ) : ℕ :=
  bits % 2 ^ 52

/-- The mantissa; only an empty field leaves it without its leading bit. -/
def mantissaOf (bits : ℕ) : ℕ :=
  if fieldOf bits = 0 then fractionOf bits else 2 ^ 52 + fractionOf bits

/-- The exponent that goes with the mantissa. -/
def exponentOf (bits : ℕ) : ℤ :=
  max 1 (fieldOf bits : ℤ) - 1075

/-- The three parts of bits. -/
theorem unpack_parts (bits : BitVec 64) :
    Sign.ofBitVec (@UnpackedFloat.unpackSign .binary64 bits) = signOf bits.toNat ∧
      (@UnpackedFloat.unpackExponent .binary64 bits).toNat = fieldOf bits.toNat ∧
      (@UnpackedFloat.unpackMantissa .binary64 bits).toNat = fractionOf bits.toNat := by
  refine ⟨?_, ?_, ?_⟩
  · have hbit : (@UnpackedFloat.unpackSign .binary64 bits).toNat = bits.toNat / 2 ^ 63 := by
      rw [UnpackedFloat.unpackSign_def, BitVec.extractLsb'_toNat, Nat.shiftRight_eq_div_pow]
      exact Nat.mod_eq_of_lt (Nat.div_lt_of_lt_mul bits.isLt)
    unfold Sign.ofBitVec signOf
    exact if_congr (by rw [← hbit, ← BitVec.toNat_inj]; rfl) rfl rfl
  · rw [UnpackedFloat.unpackExponent_def, BitVec.extractLsb'_toNat, Nat.shiftRight_eq_div_pow]
    rfl
  · rw [UnpackedFloat.unpackMantissa_def, BitVec.extractLsb'_toNat, Nat.shiftRight_zero]
    rfl

/-- What can be read off bits: an infinity or NaN if the field is full, and otherwise a zero or a
mantissa with its exponent. -/
theorem unpack_cases (bits : BitVec 64) :
    (fieldOf bits.toNat = 2047 ∧
      (UnpackedFloat.unpack .binary64 bits = .infinity (signOf bits.toNat) ∨
        UnpackedFloat.unpack .binary64 bits = .notANumber)) ∨
    (fieldOf bits.toNat < 2047 ∧ mantissaOf bits.toNat = 0 ∧
      UnpackedFloat.unpack .binary64 bits = .zero (signOf bits.toNat)) ∨
    (fieldOf bits.toNat < 2047 ∧ ∃ hpos, UnpackedFloat.unpack .binary64 bits =
      .finite (signOf bits.toNat) (mantissaOf bits.toNat) (exponentOf bits.toNat) hpos) := by
  obtain ⟨hsign, hfield, hfraction⟩ := unpack_parts bits
  have hfull : ∀ vec : BitVec 11, vec = -1#11 ↔ vec.toNat = 2047 := fun vec => BitVec.toNat_inj.symm
  have hnone : ∀ vec : BitVec 11, vec = 0#11 ↔ vec.toNat = 0 := fun vec => BitVec.toNat_inj.symm
  have hempty : ∀ vec : BitVec 52, vec = 0#52 ↔ vec.toNat = 0 := fun vec => BitVec.toNat_inj.symm
  have hlt : fieldOf bits.toNat < 2048 := Nat.mod_lt _ (by decide)
  have hbias : (Float.Model.Format.exponentBias .binary64 : ℤ) = 1023 := rfl
  unfold UnpackedFloat.unpack mantissaOf exponentOf
  dsimp only
  split
  · next hinfinite =>
    rw [hfull, hfield] at hinfinite
    split
    · exact Or.inl ⟨hinfinite, Or.inl (by rw [hsign])⟩
    · exact Or.inl ⟨hinfinite, Or.inr rfl⟩
  · next hfinite =>
    rw [hfull, hfield] at hfinite
    split
    · next hsmall =>
      rw [hnone, hfield] at hsmall
      rw [if_pos hsmall, hsmall]
      split
      · next hzero =>
        rw [hempty, hfraction] at hzero
        exact Or.inr (Or.inl ⟨by omega, hzero, by rw [hsign]⟩)
      · next hnonzero =>
        rw [hempty, hfraction] at hnonzero
        refine Or.inr (Or.inr ⟨by omega, Nat.pos_of_ne_zero hnonzero, ?_⟩)
        simp only [hsign, hfraction, hfield, hsmall]
        rfl
    · next hlarge =>
      rw [hnone, hfield] at hlarge
      rw [if_neg hlarge]
      have hleading : (1#1 ++ @UnpackedFloat.unpackMantissa .binary64 bits).toNat =
          2 ^ 52 + fractionOf bits.toNat := by
        rw [BitVec.toNat_append, hfraction]
        exact (Nat.shiftLeft_add_eq_or_of_lt (Nat.mod_lt _ (by decide)) 1).symm
      have hexponent : (fieldOf bits.toNat : ℤ) - (1023 + (52 : ℕ)) =
          max 1 (fieldOf bits.toNat : ℤ) - 1075 := by omega
      refine Or.inr (Or.inr ⟨by omega, by omega, ?_⟩)
      simp only [hsign, hleading, hfield, hbias, hexponent]

end Bits

/-- A mantissa and an exponent as they are read off the bits of a finite number. -/
structure Canonical (mantissa : ℕ) (exponent : ℤ) : Prop where
  lt : mantissa < 2 ^ 53
  least_le : -1074 ≤ exponent
  le_greatest : exponent ≤ 971
  leading : 2 ^ 52 ≤ mantissa ∨ exponent = -1074

/-- The rational number that a mantissa and an exponent stand for. -/
def scaled (mantissa : ℕ) (exponent : ℤ) : ℚ :=
  mantissa * (2 : ℚ) ^ exponent

/-- A rational number with a sign in front. -/
def signed : Sign → ℚ → ℚ
  | .positive, q => q
  | .negative, q => -q

/-- The rational number that an unpacked number stands for; what is not finite counts as zero. -/
def unpackedExact : UnpackedFloat → ℚ
  | .finite sign mantissa exponent _ => signed sign (scaled mantissa exponent)
  | _ => 0

/-- The rational number that a finite number stands for. -/
def exact (x : Float) : ℚ :=
  unpackedExact x.toModel.unpack

section Scaled

variable {m n : ℕ} {e k : ℤ}

/-- The mantissa zero stands for zero. -/
@[simp] theorem scaled_zero (e : ℤ) : scaled 0 e = 0 := by
  rw [scaled, Nat.cast_zero, zero_mul]

/-- A scaled mantissa is not negative. -/
theorem scaled_nonneg (m : ℕ) (e : ℤ) : 0 ≤ scaled m e :=
  mul_nonneg m.cast_nonneg (zpow_pos two_pos e).le

/-- A positive mantissa stands for a positive number. -/
theorem scaled_pos (hm : 0 < m) (e : ℤ) : 0 < scaled m e :=
  mul_pos (Nat.cast_pos.mpr hm) (zpow_pos two_pos e)

/-- Under one exponent numbers are in the order of their mantissas. -/
theorem scaled_le_scaled (e : ℤ) : scaled m e ≤ scaled n e ↔ m ≤ n := by
  unfold scaled
  rw [mul_le_mul_iff_left₀ (zpow_pos two_pos e), Nat.cast_le]

/-- A larger exponent takes a smaller mantissa to stand for the same. -/
theorem scaled_mul_pow (m shift : ℕ) (e : ℤ) : scaled (m * 2 ^ shift) e = scaled m (e + shift) := by
  unfold scaled
  rw [zpow_add₀ two_ne_zero, zpow_natCast]
  push_cast
  ring

/-- The least mantissa of full length stands for one under the exponent `-52`. -/
theorem scaled_one : scaled (2 ^ 52) (-52) = 1 := by
  rw [scaled, zpow_neg, zpow_ofNat, Nat.cast_pow, Nat.cast_ofNat, mul_inv_cancel₀ (by positivity)]

/-- The larger exponent goes with more. -/
theorem Canonical.scaled_lt (hm : Canonical m e) (hn : Canonical n k) (h : e < k) :
    scaled m e < scaled n k := by
  have hleading : 2 ^ 52 ≤ n := by
    have hleast := hm.least_le
    exact hn.leading.resolve_right (by omega)
  obtain ⟨shift, rfl⟩ : ∃ shift : ℕ, k = e + (shift + 1 : ℕ) :=
    ⟨(k - e - 1).toNat, by omega⟩
  rw [← scaled_mul_pow, ← not_le, scaled_le_scaled, not_le]
  calc m < 2 ^ 52 * 2 ^ 1 := hm.lt
    _ ≤ n * 2 ^ (shift + 1) := Nat.mul_le_mul hleading (Nat.pow_le_pow_right two_pos (by omega))

/-- Comparing exponents first and mantissas second compares what they stand for. -/
theorem Canonical.compare_eq (hm : Canonical m e) (hn : Canonical n k) :
    (compare e k).then (compare m n) = compare (scaled m e) (scaled n k) := by
  rcases lt_trichotomy e k with hlt | rfl | hgt
  · rw [compare_lt_iff_lt.mpr hlt, compare_lt_iff_lt.mpr (hm.scaled_lt hn hlt)]
    rfl
  · rw [compare_eq_iff_eq.mpr rfl, Ordering.eq_then]
    rcases lt_trichotomy m n with hlt | rfl | hgt
    · have hscaled : scaled m e < scaled n e := by
        rwa [← not_le, scaled_le_scaled, not_le]
      rw [compare_lt_iff_lt.mpr hlt, compare_lt_iff_lt.mpr hscaled]
    · rw [compare_eq_iff_eq.mpr rfl, compare_eq_iff_eq.mpr rfl]
    · have hscaled : scaled n e < scaled m e := by
        rwa [← not_le, scaled_le_scaled, not_le]
      rw [compare_gt_iff_gt.mpr hgt, compare_gt_iff_gt.mpr hscaled]
  · rw [compare_gt_iff_gt.mpr hgt, compare_gt_iff_gt.mpr (hn.scaled_lt hm hgt)]
    rfl

end Scaled

section Packing

variable {sign : Sign} {m : ℕ} {e : ℤ} {hpos : 0 < m}

/-- With a field that is not full, the mantissa and the exponent are canonical. -/
theorem canonical_of_lt {bits : ℕ} (h : fieldOf bits < 2047) :
    Canonical (mantissaOf bits) (exponentOf bits) := by
  have hfraction : fractionOf bits < 2 ^ 52 := Nat.mod_lt _ (by decide)
  unfold mantissaOf exponentOf
  split
  · next hempty =>
    rw [hempty]
    exact ⟨by omega, by decide, by decide, Or.inr rfl⟩
  · next hfield => exact ⟨by omega, by omega, by omega, Or.inl (Nat.le_add_right _ _)⟩

/-- A mantissa and an exponent that are read off bits are canonical. -/
theorem canonical_of_unpack {bits : BitVec 64}
    (h : UnpackedFloat.unpack .binary64 bits = .finite sign m e hpos) : Canonical m e := by
  rcases unpack_cases bits with ⟨-, hread | hread⟩ | ⟨-, -, hread⟩ | ⟨hfield, _, hread⟩
  · cases hread.symm.trans h
  · cases hread.symm.trans h
  · cases hread.symm.trans h
  · cases hread.symm.trans h
    exact canonical_of_lt hfield

/-- The bits of three parts. -/
theorem toNat_packComponents (sign : Sign) (field : BitVec 11) (fraction : BitVec 52) :
    (UnpackedFloat.packComponents .binary64 sign field fraction).toNat =
      sign.toBitVec.toNat * 2 ^ 63 + field.toNat * 2 ^ 52 + fraction.toNat := by
  unfold UnpackedFloat.packComponents
  have hparts : (sign.toBitVec ++ field).toNat = sign.toBitVec.toNat * 2 ^ 11 + field.toNat := by
    rw [BitVec.toNat_append, ← Nat.shiftLeft_add_eq_or_of_lt field.isLt, Nat.shiftLeft_eq]
  rw [BitVec.toNat_append, ← Nat.shiftLeft_add_eq_or_of_lt fraction.isLt, hparts, Nat.shiftLeft_eq]
  ring

/-- What is read off three parts. -/
theorem fields_packComponents (sign : Sign) (field : BitVec 11) (fraction : BitVec 52) :
    let bits := (UnpackedFloat.packComponents .binary64 sign field fraction).toNat
    signOf bits = sign ∧ fieldOf bits = field.toNat ∧ fractionOf bits = fraction.toNat := by
  intro bits
  have hbits : bits = _ := toNat_packComponents sign field fraction
  have hfield := field.isLt
  have hfraction := fraction.isLt
  unfold signOf fieldOf fractionOf
  refine ⟨?_, by omega, by omega⟩
  cases sign with
  | positive =>
    have hzero : Sign.positive.toBitVec.toNat = 0 := rfl
    exact if_pos (by omega)
  | negative =>
    have hone : Sign.negative.toBitVec.toNat = 1 := rfl
    exact if_neg (by omega)

/-- A number is read off bits with its sign, its mantissa and its exponent. -/
theorem unpack_of_fields {bits : BitVec 64} (hsign : signOf bits.toNat = sign)
    (hfield : fieldOf bits.toNat < 2047) (hmantissa : mantissaOf bits.toNat = m)
    (hexponent : exponentOf bits.toNat = e) :
    UnpackedFloat.unpack .binary64 bits = .finite sign m e hpos := by
  subst hsign hmantissa hexponent
  rcases unpack_cases bits with ⟨hfull, -⟩ | ⟨-, hzero, -⟩ | ⟨-, _, hread⟩
  · omega
  · omega
  · exact hread

/-- A zero is unpacked as it was packed. -/
theorem unpack_pack_zero (sign : Sign) : UnpackedFloat.unpack .binary64
    (UnpackedFloat.pack .binary64 (.zero sign)) = .zero sign :=
  UnpackedFloat.unpack_packedZero

/-- An infinity is unpacked as it was packed. -/
theorem unpack_pack_infinity (sign : Sign) : UnpackedFloat.unpack .binary64
    (UnpackedFloat.pack .binary64 (.infinity sign)) = .infinity sign := by
  cases sign with
  | positive => rfl
  | negative => rfl

/-- What is canonical is read off the bits that it is packed into. -/
theorem unpack_pack_finite (sign : Sign) (hpos : 0 < m) (h : Canonical m e) :
    UnpackedFloat.unpack .binary64 (UnpackedFloat.pack .binary64 (.finite sign m e hpos)) =
      .finite sign m e hpos := by
  obtain ⟨hlt, hleast, hgreatest, hleading⟩ := h
  have hbiased : (e + (Float.Model.Format.exponentBias .binary64 : ℕ) + (52 : ℕ)).toNat =
      (e + 1075).toNat := by
    have hbias : Float.Model.Format.exponentBias .binary64 = 1023 := rfl
    rw [hbias]
    omega
  have hlog : m.log2 + 1 = 53 ↔ 2 ^ 52 ≤ m := by
    rw [Nat.add_right_cancel_iff (n := 1), Nat.log2_eq_iff (by omega)]
    omega
  unfold UnpackedFloat.pack
  dsimp only
  rw [hbiased, if_neg (by omega)]
  split
  · next hnormal =>
    have hleading' : 2 ^ 52 ≤ m := hlog.mp hnormal
    obtain ⟨hsign, hfield, hfraction⟩ :=
      fields_packComponents sign (BitVec.ofNat 11 (e + 1075).toNat) (BitVec.ofNat 52 m)
    rw [BitVec.toNat_ofNat] at hfield hfraction
    refine unpack_of_fields hsign (by omega) ?_ ?_
    · rw [mantissaOf, if_neg (by omega)]
      omega
    · rw [exponentOf]
      omega
  · next hsubnormal =>
    obtain rfl : e = -1074 := hleading.resolve_left fun hfull => hsubnormal (hlog.mpr hfull)
    have hsmall : m < 2 ^ 52 := Nat.lt_of_not_le fun hfull => hsubnormal (hlog.mpr hfull)
    obtain ⟨hsign, hfield, hfraction⟩ := fields_packComponents sign (0#11) (BitVec.ofNat 52 m)
    have hempty : fieldOf _ = 0 := hfield
    rw [BitVec.toNat_ofNat, Nat.mod_eq_of_lt hsmall] at hfraction
    refine unpack_of_fields hsign (by omega) ?_ ?_
    · rw [mantissaOf, if_pos hempty, hfraction]
    · rw [exponentOf, hempty]
      rfl

/-- An exponent that is too large for the field makes an infinity. -/
theorem unpack_pack_of_greatest_lt (sign : Sign) (hpos : 0 < m) (h : 971 < e) :
    UnpackedFloat.unpack .binary64 (UnpackedFloat.pack .binary64 (.finite sign m e hpos)) =
      .infinity sign := by
  have hbias : Float.Model.Format.exponentBias .binary64 = 1023 := rfl
  unfold UnpackedFloat.pack
  dsimp only
  rw [hbias, if_pos (by omega)]
  cases sign with
  | positive => rfl
  | negative => rfl

end Packing

section Order

variable {x y : Float} {u v : UnpackedFloat}

/-- A finite number is a zero or has a mantissa. -/
theorem finite_cases (h : x.isFinite = true) : (∃ sign, x.toModel.unpack = .zero sign) ∨
    ∃ sign m e hpos, x.toModel.unpack = .finite sign m e hpos ∧ Canonical m e := by
  have hfinite : x.toModel.unpack.isFinite = true := h
  cases hread : x.toModel.unpack with
  | notANumber =>
    rw [hread] at hfinite
    cases hfinite
  | infinity sign =>
    rw [hread] at hfinite
    cases hfinite
  | zero sign => exact Or.inl ⟨sign, rfl⟩
  | finite sign m e hpos => exact Or.inr ⟨sign, m, e, hpos, rfl, canonical_of_unpack hread⟩

/-- A zero is finite. -/
theorem isFinite_of_zero {sign : Sign} (h : x.toModel.unpack = .zero sign) : x.isFinite = true := by
  have hfinite : x.isFinite = x.toModel.unpack.isFinite := rfl
  rw [hfinite, h]
  rfl

/-- What is unpacked to a mantissa and an exponent is finite. -/
theorem isFinite_of_finite {sign : Sign} {m : ℕ} {e : ℤ} {hpos : 0 < m}
    (h : x.toModel.unpack = .finite sign m e hpos) : x.isFinite = true := by
  have hfinite : x.isFinite = x.toModel.unpack.isFinite := rfl
  rw [hfinite, h]
  rfl

/-- Negatives compare the other way round. -/
theorem compare_neg_neg (q r : ℚ) : compare (-q) (-r) = (compare q r).swap := by
  rcases lt_trichotomy q r with hlt | rfl | hgt
  · rw [compare_lt_iff_lt.mpr hlt, compare_gt_iff_gt.mpr (neg_lt_neg hlt)]
    rfl
  · rw [compare_eq_iff_eq.mpr rfl, compare_eq_iff_eq.mpr rfl]
    rfl
  · rw [compare_gt_iff_gt.mpr hgt, compare_lt_iff_lt.mpr (neg_lt_neg hgt)]
    rfl

/-- Finite numbers compare as what they stand for. -/
theorem compare_finite (hx : x.isFinite = true) (hy : y.isFinite = true) :
    UnpackedFloat.compare x.toModel.unpack y.toModel.unpack = some (compare (exact x) (exact y)) := by
  unfold exact
  rcases finite_cases hx with ⟨s, hx⟩ | ⟨s, m, e, hm, hx, hcanonical⟩
  · rcases finite_cases hy with ⟨t, hy⟩ | ⟨t, n, k, hn, hy, -⟩
    · rw [hx, hy]
      exact congrArg some (compare_eq_iff_eq.mpr rfl).symm
    · have hpos := scaled_pos hn k
      rw [hx, hy]
      cases t with
      | positive => exact congrArg some (compare_lt_iff_lt.mpr hpos).symm
      | negative => exact congrArg some (compare_gt_iff_gt.mpr (neg_lt_zero.mpr hpos)).symm
  · have hpos := scaled_pos hm e
    rcases finite_cases hy with ⟨t, hy⟩ | ⟨t, n, k, hn, hy, hcanonical'⟩
    · rw [hx, hy]
      cases s with
      | positive => exact congrArg some (compare_gt_iff_gt.mpr hpos).symm
      | negative => exact congrArg some (compare_lt_iff_lt.mpr (neg_lt_zero.mpr hpos)).symm
    · have hpos' := scaled_pos hn k
      have hmixed : -scaled m e < scaled n k := by linarith
      have hmixed' : -scaled n k < scaled m e := by linarith
      rw [hx, hy]
      cases s with
      | positive =>
        cases t with
        | positive => exact congrArg some (hcanonical.compare_eq hcanonical')
        | negative => exact congrArg some (compare_gt_iff_gt.mpr hmixed').symm
      | negative =>
        cases t with
        | positive => exact congrArg some (compare_lt_iff_lt.mpr hmixed).symm
        | negative =>
          have hsame := congrArg Ordering.swap (hcanonical.compare_eq hcanonical')
          exact congrArg some (hsame.trans (compare_neg_neg _ _).symm)

/-- One number is at most another if they compare so once they are unpacked. -/
theorem le_iff_compare : x ≤ y ↔
    (UnpackedFloat.compare x.toModel.unpack y.toModel.unpack).any (·.isLE) = true :=
  decide_eq_true_iff

/-- One finite number is at most another exactly if this is so for what they stand for. -/
theorem le_iff (hx : x.isFinite = true) (hy : y.isFinite = true) : x ≤ y ↔ exact x ≤ exact y := by
  rw [le_iff_compare, compare_finite hx hy]
  exact Std.LawfulBCmp.isLE_iff_le

/-- The magnitude does not depend on the sign. -/
theorem abs_signed (sign : Sign) (q : ℚ) : |signed sign q| = |q| := by
  cases sign with
  | positive => rfl
  | negative => exact abs_neg q

/-- The magnitude of a finite number is finite and stands for the magnitude. -/
theorem exact_abs (hx : x.isFinite = true) : x.abs.isFinite = true ∧ exact x.abs = |exact x| := by
  have habs : x.abs.toModel.unpack = UnpackedFloat.unpack .binary64
      (UnpackedFloat.pack .binary64 x.toModel.unpack.abs) := rfl
  unfold exact
  rcases finite_cases hx with ⟨sign, hread⟩ | ⟨sign, m, e, hpos, hread, hcanonical⟩
  · rw [hread] at habs ⊢
    have hzero := habs.trans UnpackedFloat.unpack_packedZero
    rw [hzero]
    exact ⟨isFinite_of_zero hzero, abs_zero.symm⟩
  · rw [hread] at habs ⊢
    have hfinite := habs.trans (unpack_pack_finite .positive hpos hcanonical)
    rw [hfinite]
    refine ⟨isFinite_of_finite hfinite, ?_⟩
    dsimp only [unpackedExact]
    rw [abs_signed, abs_of_nonneg (scaled_nonneg m e)]
    rfl

end Order

end Formulary.Numeral
