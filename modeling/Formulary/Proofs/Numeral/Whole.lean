import Formulary.Proofs.Numeral.Arithmetic

/-!
# Whole numbers

Rounding on bits agrees with rounding rational numbers: half a unit is added to the magnitude and the
places behind the unit are cleared, and a carry out of the fraction moves the exponent up by one, as it
should. So a finite number is rounded to the nearest integer, with halves away from zero. The distance
to it can be represented, since it is no larger than the number and no finer. Cutting off a whole number
gives the number itself, kept within the range of signed words.
-/

namespace Formulary.Numeral

open Float.Model (UnpackedFloat)
open Float.Model.UnpackedFloat (Sign)

/-- The nearest integer to a rational number, halves away from zero. -/
def nearestInteger (q : ℚ) : ℤ :=
  if 0 ≤ q then round q else -round (-q)

section Reading

variable {x : Float}

/-- The magnitude that sixty-four bits stand for. -/
def magnitudeOf (bits : ℕ) : ℚ :=
  scaled (mantissaOf bits) (exponentOf bits)

/-- Zero has no sign. -/
theorem signed_zero (sign : Sign) : signed sign 0 = 0 := by
  cases sign with
  | positive => rfl
  | negative => exact neg_zero

/-- With a field that is not full a finite number is read off bits, and the bits are found again. -/
theorem unpack_of_field_lt (bits : BitVec 64) (h : fieldOf bits.toNat < 2047) :
    (UnpackedFloat.unpack .binary64 bits).isFinite = true ∧
      unpackedExact (UnpackedFloat.unpack .binary64 bits) =
        signed (signOf bits.toNat) (magnitudeOf bits.toNat) ∧
      UnpackedFloat.unpack .binary64 (UnpackedFloat.pack .binary64
        (UnpackedFloat.unpack .binary64 bits)) = UnpackedFloat.unpack .binary64 bits := by
  rcases unpack_cases bits with ⟨hfull, -⟩ | ⟨-, hzero, hread⟩ | ⟨hfield, hpos, hread⟩
  · exact absurd hfull h.ne
  · rw [hread, magnitudeOf, hzero, scaled_zero, signed_zero]
    exact ⟨rfl, rfl, UnpackedFloat.unpack_packedZero⟩
  · rw [hread]
    exact ⟨rfl, rfl, unpack_pack_finite _ hpos (canonical_of_lt hfield)⟩

/-- A number is finite exactly if its field is not full. -/
theorem isFinite_iff : x.isFinite = true ↔ fieldOf x.toBits.toNat < 2047 := by
  constructor
  · intro hx
    have hread : x.toModel.unpack = UnpackedFloat.unpack .binary64 x.toBits.toBitVec := rfl
    rcases unpack_cases x.toBits.toBitVec with ⟨-, hcase | hcase⟩ | ⟨hfield, -⟩ | ⟨hfield, -⟩
    · have hfinite : x.toModel.unpack.isFinite = true := hx
      rw [hread, hcase] at hfinite
      cases hfinite
    · have hfinite : x.toModel.unpack.isFinite = true := hx
      rw [hread, hcase] at hfinite
      cases hfinite
    · exact hfield
    · exact hfield
  · exact fun h => (unpack_of_field_lt x.toBits.toBitVec h).1

/-- A finite number stands for its magnitude with its sign. -/
theorem exact_eq_signed (hx : x.isFinite = true) :
    exact x = signed (signOf x.toBits.toNat) (magnitudeOf x.toBits.toNat) :=
  (unpack_of_field_lt x.toBits.toBitVec (isFinite_iff.mp hx)).2.1

/-- What a word stands for. -/
theorem exact_ofBits (word : UInt64) (h : fieldOf word.toNat < 2047) :
    (Float.ofBits word).isFinite = true ∧
      exact (Float.ofBits word) = signed (signOf word.toNat) (magnitudeOf word.toNat) := by
  obtain ⟨hfinite, hexact, hread⟩ := unpack_of_field_lt word.toBitVec h
  have hword : (Float.ofBits word).toModel.unpack = UnpackedFloat.unpack .binary64 word.toBitVec :=
    hread
  have hisFinite : (Float.ofBits word).isFinite = (Float.ofBits word).toModel.unpack.isFinite := rfl
  rw [hisFinite, exact, hword]
  exact ⟨hfinite, hexact⟩

end Reading

section Nearest

variable {q : ℚ}

/-- The nearest integer to a magnitude with a sign. -/
theorem nearestInteger_signed (sign : Sign) (hq : 0 ≤ q) :
    (nearestInteger (signed sign q) : ℚ) = signed sign (round q : ℤ) := by
  unfold nearestInteger
  cases sign with
  | positive => rw [signed, if_pos hq, signed]
  | negative =>
    rw [signed, signed, neg_neg]
    split
    · next hnonneg =>
      obtain rfl : q = 0 := le_antisymm (by linarith) hq
      simp
    · rw [Int.cast_neg]

/-- Rounding a mantissa over a power of two adds half a unit and drops the places behind it. -/
theorem round_scaled (m places : ℕ) :
    round (scaled m (-(places + 1 : ℕ))) = ((m + 2 ^ places) / 2 ^ (places + 1) : ℕ) := by
  have hhalf : scaled m (-(places + 1 : ℕ)) + 1 / 2 =
      ((m + 2 ^ places : ℕ) : ℚ) / ((2 ^ (places + 1) : ℕ) : ℚ) := by
    rw [scaled, zpow_neg, zpow_natCast]
    push_cast
    field_simp
    ring
  rw [round_eq, hhalf, Rat.floor_natCast_div_natCast]
  rfl

variable {bits : ℕ}

/-- A mantissa has at most 53 bits. -/
theorem mantissaOf_lt (bits : ℕ) : mantissaOf bits < 2 ^ 53 := by
  have hfraction : fractionOf bits < 2 ^ 52 := Nat.mod_lt _ (by decide)
  unfold mantissaOf
  split
  · omega
  · omega

/-- Below a half the nearest integer is zero. -/
theorem round_magnitudeOf_of_lt (h : fieldOf bits < 1022) : round (magnitudeOf bits) = 0 := by
  obtain ⟨places, hplaces, hexponent⟩ : ∃ places : ℕ, 53 ≤ places ∧
      exponentOf bits = -(places + 1 : ℕ) := by
    refine ⟨1074 - max 1 (fieldOf bits), by omega, ?_⟩
    unfold exponentOf
    omega
  have hpow : 2 ^ 53 ≤ 2 ^ places := Nat.pow_le_pow_right two_pos hplaces
  have hmantissa := mantissaOf_lt bits
  rw [magnitudeOf, hexponent, round_scaled, Nat.div_eq_of_lt]
  · rfl
  · rw [pow_succ]
    omega

/-- From a half up to one the nearest integer is one. -/
theorem round_magnitudeOf_of_eq (h : fieldOf bits = 1022) : round (magnitudeOf bits) = 1 := by
  have hexponent : exponentOf bits = -(52 + 1 : ℕ) := by
    rw [exponentOf, h]
    rfl
  have hmantissa := mantissaOf_lt bits
  have hleading : 2 ^ 52 ≤ mantissaOf bits := by
    rw [mantissaOf, h, if_neg (by decide)]
    exact Nat.le_add_right _ _
  have hone : (mantissaOf bits + 2 ^ 52) / 2 ^ (52 + 1) = 1 := by omega
  rw [magnitudeOf, hexponent, round_scaled, hone]
  rfl

/-- A number with a large field is whole. -/
theorem magnitudeOf_of_le (h : 1075 ≤ fieldOf bits) : ∃ whole : ℕ, magnitudeOf bits = whole := by
  obtain ⟨shift, hshift⟩ : ∃ shift : ℕ, exponentOf bits = 0 + shift := by
    refine ⟨fieldOf bits - 1075, ?_⟩
    unfold exponentOf
    omega
  refine ⟨mantissaOf bits * 2 ^ shift, ?_⟩
  rw [magnitudeOf, hshift, ← scaled_mul_pow, scaled, zpow_zero, mul_one]

/-- Adding half a unit and clearing the places behind the unit acts on the fraction, which may become
full. -/
theorem cleared_eq (bits : ℕ) {places : ℕ} (hplaces : places < 52) :
    ∃ fraction ≤ 2 ^ 52,
      (bits + 2 ^ places) / 2 ^ (places + 1) * 2 ^ (places + 1) = bits / 2 ^ 52 * 2 ^ 52 + fraction ∧
      (2 ^ 52 + fractionOf bits + 2 ^ places) / 2 ^ (places + 1) * 2 ^ (places + 1) =
        2 ^ 52 + fraction := by
  obtain ⟨above, habove⟩ : ∃ above, 2 ^ 52 = 2 ^ (places + 1) * above :=
    pow_dvd_pow 2 hplaces
  have hunit : 0 < 2 ^ (places + 1) := by positivity
  have hsplit : bits = bits / 2 ^ 52 * 2 ^ 52 + fractionOf bits := (Nat.div_add_mod' bits _).symm
  have hfraction : fractionOf bits < 2 ^ 52 := Nat.mod_lt _ (by decide)
  have hshift (k rest : ℕ) : (k * 2 ^ 52 + rest) / 2 ^ (places + 1) * 2 ^ (places + 1) =
      k * 2 ^ 52 + rest / 2 ^ (places + 1) * 2 ^ (places + 1) := by
    rw [habove, mul_left_comm, Nat.mul_add_div hunit]
    ring
  refine ⟨(fractionOf bits + 2 ^ places) / 2 ^ (places + 1) * 2 ^ (places + 1), ?_, ?_, ?_⟩
  · have hquotient : (fractionOf bits + 2 ^ places) / 2 ^ (places + 1) < above + 1 := by
      apply Nat.div_lt_of_lt_mul
      rw [Nat.mul_add_one, ← habove, pow_succ]
      omega
    rw [habove, mul_comm]
    exact Nat.mul_le_mul_left _ (Nat.le_of_lt_succ hquotient)
  · conv_lhs => rw [hsplit, Nat.add_assoc]
    exact hshift _ _
  · have hone := hshift 1 (fractionOf bits + 2 ^ places)
    rwa [one_mul, ← Nat.add_assoc] at hone

/-- From one up to `2 ^ 52` the bits that are left stand for the nearest integer, with the sign that
was there. -/
theorem cleared_stands {places : ℕ} (hplaces : fieldOf bits + places = 1074)
    (hlow : 1023 ≤ fieldOf bits) :
    let cleared := (bits + 2 ^ places) / 2 ^ (places + 1) * 2 ^ (places + 1)
    fieldOf cleared < 2047 ∧ signOf cleared = signOf bits ∧
      magnitudeOf cleared = (round (magnitudeOf bits) : ℤ) := by
  intro cleared
  obtain ⟨fraction, hfraction, hcleared, hmantissa⟩ := cleared_eq bits (by omega : places < 52)
  have hexponent : exponentOf bits = -(places + 1 : ℕ) := by
    unfold exponentOf
    omega
  have hleading : mantissaOf bits = 2 ^ 52 + fractionOf bits := by
    rw [mantissaOf, if_neg (by omega)]
  have hround : ((round (magnitudeOf bits) : ℤ) : ℚ) =
      scaled (2 ^ 52 + fraction) (-(places + 1 : ℕ)) := by
    rw [magnitudeOf, hexponent, hleading, round_scaled, ← hmantissa, scaled_mul_pow, neg_add_cancel,
      scaled, zpow_zero, mul_one]
    rfl
  have hbits : cleared = bits / 2 ^ 52 * 2 ^ 52 + fraction := hcleared
  have hfield : fieldOf bits = bits / 2 ^ 52 % 2 ^ 11 := rfl
  have hsign : cleared / 2 ^ 63 = bits / 2 ^ 63 := by omega
  rw [hround]
  unfold signOf
  rw [hsign]
  rcases hfraction.lt_or_eq with hlt | rfl
  · have hfield' : fieldOf cleared = fieldOf bits := by
      unfold fieldOf
      omega
    have hfraction' : fractionOf cleared = fraction := by
      unfold fractionOf
      omega
    refine ⟨by omega, rfl, ?_⟩
    rw [magnitudeOf, mantissaOf, if_neg (by omega), hfraction', exponentOf, hfield', ← exponentOf,
      hexponent]
  · -- The carry makes the field larger by one and leaves the fraction empty.
    have hfield' : fieldOf cleared = fieldOf bits + 1 := by
      unfold fieldOf
      omega
    have hfraction' : fractionOf cleared = 0 := by
      unfold fractionOf
      omega
    have hexponent' : exponentOf cleared = -(places + 1 : ℕ) + (1 : ℕ) := by
      unfold exponentOf
      omega
    refine ⟨by omega, rfl, ?_⟩
    rw [magnitudeOf, mantissaOf, if_neg (by omega), hfraction', hexponent', ← scaled_mul_pow]
    rfl

end Nearest

section Rounding

variable {x : Float}

/-- The field of the exponent is read off the bits of a number. -/
theorem toNat_exponentField (x : Float) : (Binary.exponentField x).toNat = fieldOf x.toBits.toNat := by
  unfold Binary.exponentField fieldOf
  rw [UInt64.toNat_and, UInt64.toNat_shiftRight, Nat.shiftRight_eq_div_pow]
  exact Nat.and_two_pow_sub_one_eq_mod _ 11

/-- The sign bit alone, or with other bits below it. -/
theorem sign_fields (word low : UInt64) (hlow : low.toNat < 2 ^ 63) :
    let bits := ((word &&& 0x8000000000000000) ||| low).toNat
    signOf bits = signOf word.toNat ∧ fieldOf bits = fieldOf low.toNat ∧
      magnitudeOf bits = magnitudeOf low.toNat := by
  intro bits
  have hword := word.toNat_lt
  have hsign : (word &&& 0x8000000000000000).toNat = (word.toNat / 2 ^ 63) <<< 63 := by
    have hbit := Nat.and_two_pow word.toNat 63
    rw [Nat.toNat_testBit, Nat.mod_eq_of_lt (Nat.div_lt_of_lt_mul hword)] at hbit
    rw [UInt64.toNat_and, Nat.shiftLeft_eq]
    exact hbit
  have hbits : bits = word.toNat / 2 ^ 63 * 2 ^ 63 + low.toNat := by
    unfold bits
    rw [UInt64.toNat_or, hsign, ← Nat.shiftLeft_add_eq_or_of_lt hlow, Nat.shiftLeft_eq]
  have hquotient : bits / 2 ^ 63 = word.toNat / 2 ^ 63 := by omega
  have hfield : fieldOf bits = fieldOf low.toNat := by
    unfold fieldOf
    omega
  have hfraction : fractionOf bits = fractionOf low.toNat := by
    unfold fractionOf
    omega
  refine ⟨by rw [signOf, hquotient, signOf], hfield, ?_⟩
  unfold magnitudeOf mantissaOf exponentOf
  rw [hfield, hfraction]

/-- Half a unit is added and the places behind the unit are cleared without loss. -/
theorem toNat_cleared {word field : UInt64} (hfield : field.toNat = fieldOf word.toNat)
    (hlow : 1023 ≤ fieldOf word.toNat) (hhigh : fieldOf word.toNat < 1075) :
    (((word + (1 : UInt64) <<< (1075 - field - 1)) >>> (1075 - field)) <<< (1075 - field)).toNat =
      (word.toNat + 2 ^ (1074 - fieldOf word.toNat)) / 2 ^ (1074 - fieldOf word.toNat + 1) *
        2 ^ (1074 - fieldOf word.toNat + 1) := by
  have hword := word.toNat_lt
  have hplaces : (1075 - field).toNat = 1074 - fieldOf word.toNat + 1 := by
    have hle : field ≤ 1075 := UInt64.le_iff_toNat_le.mpr (hfield.trans_le hhigh.le)
    have hall : (1075 : UInt64).toNat = 1075 := rfl
    rw [UInt64.toNat_sub_of_le _ _ hle, hfield, hall]
    omega
  have hless : (1075 - field - 1).toNat = 1074 - fieldOf word.toNat := by
    have hle : 1 ≤ 1075 - field := UInt64.le_iff_toNat_le.mpr (by rw [hplaces]; exact Nat.le_add_left _ _)
    rw [UInt64.toNat_sub_of_le _ _ hle, hplaces]
    rfl
  obtain ⟨places, hdef⟩ : ∃ places, places = 1074 - fieldOf word.toNat := ⟨_, rfl⟩
  rw [← hdef] at hplaces hless ⊢
  have hpow : 2 ^ places ≤ 2 ^ 51 := Nat.pow_le_pow_right two_pos (by omega)
  have hhalf : ((1 : UInt64) <<< (1075 - field - 1)).toNat = 2 ^ places := by
    rw [UInt64.toNat_shiftLeft, hless, Nat.mod_eq_of_lt (by omega : places < 64), Nat.shiftLeft_eq,
      UInt64.toNat_one, one_mul]
    exact Nat.mod_eq_of_lt (hpow.trans_lt (by decide))
  have hroom : word.toNat + 2 ^ places < 2 ^ 64 := by
    unfold fieldOf at hhigh
    omega
  have hmod : (places + 1) % 64 = places + 1 := Nat.mod_eq_of_lt (by omega)
  rw [UInt64.toNat_shiftLeft, UInt64.toNat_shiftRight, UInt64.toNat_add, hhalf, hplaces, hmod,
    Nat.mod_eq_of_lt hroom, Nat.shiftRight_eq_div_pow, Nat.shiftLeft_eq]
  exact Nat.mod_eq_of_lt ((Nat.div_mul_le_self _ _).trans_lt hroom)

/-- A magnitude that takes over the sign of a word. -/
theorem exact_sign_or (word magnitude : UInt64) (hlow : magnitude.toNat < 2 ^ 63)
    (hfield : fieldOf magnitude.toNat < 2047) :
    let bits := (word &&& 0x8000000000000000) ||| magnitude
    (Float.ofBits bits).isFinite = true ∧
      exact (Float.ofBits bits) = signed (signOf word.toNat) (magnitudeOf magnitude.toNat) := by
  intro bits
  obtain ⟨hsign, hsame, hmagnitude⟩ := sign_fields word magnitude hlow
  obtain ⟨hfinite, hexact⟩ := exact_ofBits bits (hsame.trans_lt hfield)
  rw [hsign, hmagnitude] at hexact
  exact ⟨hfinite, hexact⟩

/-- A finite number is rounded to the nearest integer. -/
theorem exact_roundHalfAway (hx : x.isFinite = true) :
    (Binary.roundHalfAway x).isFinite = true ∧
      exact (Binary.roundHalfAway x) = nearestInteger (exact x) := by
  have hfield := toNat_exponentField x
  have hfinite := isFinite_iff.mp hx
  have hexact := exact_eq_signed hx
  have hnonneg : 0 ≤ magnitudeOf x.toBits.toNat := scaled_nonneg _ _
  unfold Binary.roundHalfAway
  dsimp only
  split
  · next hsmall =>
    have hsmall' : fieldOf x.toBits.toNat < 1022 := hfield ▸ UInt64.lt_iff_toNat_lt.mp hsmall
    obtain ⟨hisFinite, hvalue⟩ := exact_sign_or x.toBits 0 (by decide) (by decide)
    rw [UInt64.or_zero] at hisFinite hvalue
    refine ⟨hisFinite, ?_⟩
    rw [hvalue, hexact, nearestInteger_signed _ hnonneg, round_magnitudeOf_of_lt hsmall']
    exact congrArg (signed _) (scaled_zero _)
  · next hlarge =>
    have hlarge' : 1022 ≤ fieldOf x.toBits.toNat :=
      hfield ▸ Nat.le_of_not_lt fun h => hlarge (UInt64.lt_iff_toNat_lt.mpr h)
    split
    · next hhalf =>
      have hhalf' : fieldOf x.toBits.toNat = 1022 := hfield ▸ congrArg UInt64.toNat hhalf
      obtain ⟨hisFinite, hvalue⟩ :=
        exact_sign_or x.toBits 0x3ff0000000000000 (by decide) (by decide)
      refine ⟨hisFinite, ?_⟩
      rw [hvalue, hexact, nearestInteger_signed _ hnonneg, round_magnitudeOf_of_eq hhalf']
      exact congrArg (signed _) (scaled_one.trans Int.cast_one.symm)
    · next hnot =>
      split
      · next hwhole =>
        have hwhole' : 1075 ≤ fieldOf x.toBits.toNat := hfield ▸ UInt64.le_iff_toNat_le.mp hwhole
        obtain ⟨whole, hmagnitude⟩ := magnitudeOf_of_le hwhole'
        refine ⟨hx, ?_⟩
        rw [hexact, nearestInteger_signed _ hnonneg, hmagnitude, round_natCast, Int.cast_natCast]
      · next hpart =>
        have hpart' : fieldOf x.toBits.toNat < 1075 :=
          hfield ▸ Nat.lt_of_not_le fun h => hpart (UInt64.le_iff_toNat_le.mpr h)
        have hlow : 1023 ≤ fieldOf x.toBits.toNat := by
          rcases hlarge'.lt_or_eq with hlt | heq
          · exact hlt
          · have hhalf : Binary.exponentField x = 1022 := UInt64.toNat_inj.mp (hfield.trans heq.symm)
            exact absurd hhalf hnot
        have hplaces : fieldOf x.toBits.toNat + (1074 - fieldOf x.toBits.toNat) = 1074 := by omega
        obtain ⟨hfits, hsign, hmagnitude⟩ := cleared_stands hplaces hlow
        rw [← toNat_cleared hfield hlow hpart'] at hfits hsign hmagnitude
        obtain ⟨hisFinite, hvalue⟩ := exact_ofBits _ hfits
        refine ⟨hisFinite, ?_⟩
        rw [hvalue, hexact, nearestInteger_signed _ hnonneg, hsign, hmagnitude]

end Rounding

section Distance

variable {x : Float} {q : ℚ}

/-- The nearest integer is no further away than one half. -/
theorem abs_sub_nearestInteger (q : ℚ) : |q - nearestInteger q| ≤ 1 / 2 := by
  unfold nearestInteger
  split
  · exact abs_sub_round q
  · have hneg := abs_sub_round (-q)
    rw [← abs_neg] at hneg
    push_cast
    rwa [neg_sub, sub_neg_eq_add, add_comm, ← sub_neg_eq_add] at hneg

/-- The distance from what can be represented to the nearest integer can be represented. -/
theorem Representable.sub_nearestInteger (h : Representable q) :
    Representable (q - nearestInteger q) := by
  have hdistance := abs_sub_nearestInteger q
  by_cases hzero : nearestInteger q = 0
  · rwa [hzero, Int.cast_zero, sub_zero]
  · obtain ⟨z, e, hz, he, rfl⟩ := h
    have hone : (1 : ℚ) ≤ |(nearestInteger (z * 2 ^ e) : ℚ)| := by
      exact_mod_cast Int.one_le_abs hzero
    generalize nearestInteger (z * 2 ^ e) = n at *
    rcases le_or_gt 0 e with hwhole | hpart
    · -- The number is whole itself.
      obtain ⟨shift, rfl⟩ := Int.eq_ofNat_of_zero_le hwhole
      have hinteger : (z : ℚ) * 2 ^ (shift : ℤ) - n = ((z * 2 ^ shift - n : ℤ) : ℚ) := by
        rw [zpow_natCast]
        push_cast
        ring
      rw [hinteger] at hdistance ⊢
      apply representable_intCast
      have hlarge : (1 / 2 : ℚ) ≤ 2 ^ 53 := by norm_num
      exact_mod_cast hdistance.trans hlarge
    · -- A number from a half on has so few places behind the unit that they fit a mantissa.
      obtain ⟨places, rfl⟩ : ∃ places : ℕ, e = -places := ⟨(-e).toNat, by omega⟩
      have hunit : (0 : ℚ) < 2 ^ places := by positivity
      rw [zpow_neg, zpow_natCast] at *
      have hhalf : (1 / 2 : ℚ) ≤ |(z : ℚ) * (2 ^ places)⁻¹| := by
        have htriangle := abs_sub_abs_le_abs_sub (n : ℚ) (z * (2 ^ places)⁻¹)
        rw [abs_sub_comm] at htriangle
        linarith
      have hplaces : (2 : ℚ) ^ places ≤ 2 * 2 ^ 53 := by
        rw [abs_mul, abs_of_pos (inv_pos.mpr hunit), ← div_eq_mul_inv, le_div_iff₀ hunit] at hhalf
        have hz' : |(z : ℚ)| ≤ 2 ^ 53 := by exact_mod_cast hz
        linarith
      refine ⟨z - n * 2 ^ places, -places, ?_, he, ?_⟩
      · have hscaled : ((z - n * 2 ^ places : ℤ) : ℚ) = (z * (2 ^ places)⁻¹ - n) * 2 ^ places := by
          push_cast
          field_simp
        have hbound : |((z - n * 2 ^ places : ℤ) : ℚ)| ≤ 2 ^ 53 := by
          rw [hscaled, abs_mul, abs_of_pos hunit]
          linarith [mul_le_mul_of_nonneg_right hdistance hunit.le]
        exact_mod_cast hbound
      · rw [zpow_neg, zpow_natCast]
        push_cast
        field_simp

/-- The distance from a finite number to the nearest integer is exact. -/
theorem exact_sub_roundHalfAway (hx : x.isFinite = true) :
    (x - Binary.roundHalfAway x).isFinite = true ∧
      exact (x - Binary.roundHalfAway x) = exact x - nearestInteger (exact x) := by
  obtain ⟨hfinite, hnearest⟩ := exact_roundHalfAway hx
  have hbelow : |exact x - nearestInteger (exact x)| < 2 ^ 1024 :=
    (abs_sub_nearestInteger _).trans_lt (one_half_lt_one.trans (one_lt_pow₀ one_lt_two (by decide)))
  rw [← hnearest] at hbelow ⊢
  apply exact_sub hx hfinite _ hbelow
  rw [hnearest]
  exact (representable_exact hx).1.sub_nearestInteger

end Distance

section Cutting

variable {x : Float}

/-- A finite number is neither NaN nor infinite. -/
theorem isNaN_eq_false_of_isFinite (hx : x.isFinite = true) : x.isNaN = false ∧ x.isInf = false := by
  have hnan : x.isNaN = x.toModel.unpack.isNaN := rfl
  have hinf : x.isInf = x.toModel.unpack.isInf := rfl
  rw [hnan, hinf]
  rcases finite_cases hx with ⟨s, hread⟩ | ⟨s, m, e, hm, hread, -⟩
  · rw [hread]
    exact ⟨rfl, rfl⟩
  · rw [hread]
    exact ⟨rfl, rfl⟩

/-- The whole part of a magnitude that is whole is the magnitude. -/
theorem wholeMagnitude_eq {whole : ℕ} (h : magnitudeOf x.toBits.toNat = whole) :
    Binary.wholeMagnitude x = whole := by
  have hfield : Binary.exponentField x = 0 ↔ fieldOf x.toBits.toNat = 0 := by
    rw [← toNat_exponentField, ← UInt64.toNat_inj]
    rfl
  have hfraction : (Binary.fractionField x).toNat = fractionOf x.toBits.toNat := by
    unfold Binary.fractionField
    rw [UInt64.toNat_and]
    exact Nat.and_two_pow_sub_one_eq_mod _ 52
  have hmantissa : Binary.mantissa x = mantissaOf x.toBits.toNat := by
    unfold Binary.mantissa mantissaOf
    rw [hfraction]
    exact if_congr hfield rfl rfl
  have hexponent : Binary.exponent x = exponentOf x.toBits.toNat := by
    unfold Binary.exponent exponentOf
    rw [toNat_exponentField]
  unfold Binary.wholeMagnitude
  rw [hmantissa, hexponent]
  unfold magnitudeOf at h
  split
  · next shift hshift =>
    rw [hshift, scaled, Int.ofNat_eq_natCast, zpow_natCast] at h
    rw [Nat.shiftLeft_eq]
    exact_mod_cast h
  · next places hplaces =>
    rw [hplaces, scaled, zpow_negSucc, ← div_eq_mul_inv, div_eq_iff (by positivity)] at h
    have hmantissa : mantissaOf x.toBits.toNat = whole * 2 ^ (places + 1) := by exact_mod_cast h
    rw [Nat.shiftRight_eq_div_pow, hmantissa, Nat.mul_div_cancel _ (by positivity)]

/-- A finite number that is whole is cut off to itself, kept within the range of signed words. -/
theorem truncate_eq {n : ℤ} (hx : x.isFinite = true) (h : exact x = n) :
    Binary.truncate x = max Binary.leastInt64 (min Binary.greatestInt64 n) := by
  obtain ⟨hnan, hinf⟩ := isNaN_eq_false_of_isFinite hx
  have hsigned := (exact_eq_signed hx).symm.trans h
  have hmagnitude : magnitudeOf x.toBits.toNat = n.natAbs := by
    have habs := congrArg abs hsigned
    rw [abs_signed, magnitudeOf, abs_of_nonneg (scaled_nonneg _ _)] at habs
    rw [magnitudeOf, habs, Nat.cast_natAbs, Int.cast_abs]
  have hsign : Binary.signBit x = true ↔ x.toBits.toNat / 2 ^ 63 ≠ 0 := by
    unfold Binary.signBit
    rw [bne_iff_ne, ne_eq, ← UInt64.toNat_inj, UInt64.toNat_shiftRight, Nat.shiftRight_eq_div_pow]
    rfl
  have hvalue : (if Binary.signBit x then -(n.natAbs : ℤ) else n.natAbs) = n := by
    rw [hmagnitude] at hsigned
    unfold signOf at hsigned
    by_cases hpositive : x.toBits.toNat / 2 ^ 63 = 0
    · rw [if_pos hpositive, signed] at hsigned
      rw [if_neg fun hnegative => hsign.mp hnegative hpositive]
      apply Int.cast_injective (α := ℚ)
      rwa [Int.cast_natCast]
    · rw [if_neg hpositive, signed] at hsigned
      rw [if_pos (hsign.mpr hpositive)]
      apply Int.cast_injective (α := ℚ)
      rwa [Int.cast_neg, Int.cast_natCast]
  unfold Binary.truncate
  rw [hnan, hinf, wholeMagnitude_eq hmagnitude]
  dsimp only
  rw [hvalue]
  rfl

end Cutting

end Formulary.Numeral
