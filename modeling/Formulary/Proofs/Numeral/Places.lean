import Formulary.Proofs.Numeral.Scaling

/-!
# What survives rounding to decimal places

Only an undefined operation makes NaN out of numbers: the sum of opposite infinities, zero times an
infinity, a quotient of two zeros or of two infinities. None of these can happen if the second operand
is finite and, in a product or a quotient, not zero. So up to 308 places, where the scale is such a
number, rounding makes a number of every number. From 309 places on the scale is infinite, and the
quotient that rounding ends with is never a number.
-/

namespace Formulary.Numeral

open Float.Model (UnpackedFloat)
open Float.Model.UnpackedFloat (Sign)

section Packing

variable {u : UnpackedFloat}

/-- Bits with room left in the exponent field are those of a number. -/
theorem isNaN_unpack_of_field_lt {bits : BitVec 64} (h : fieldOf bits.toNat < 2047) :
    (UnpackedFloat.unpack .binary64 bits).isNaN = false := by
  rcases unpack_cases bits with ⟨hfull, -⟩ | ⟨-, -, hread⟩ | ⟨-, _, hread⟩
  · exact absurd hfull h.ne
  · rw [hread]
    rfl
  · rw [hread]
    rfl

/-- What is not NaN is packed into bits that are not those of NaN. -/
theorem isNaN_pack_eq_false (h : u ≠ .notANumber) : (⟨.pack u⟩ : Float).isNaN = false := by
  have hnan : (⟨.pack u⟩ : Float).isNaN =
      (UnpackedFloat.unpack .binary64 (UnpackedFloat.pack .binary64 u)).isNaN := rfl
  rw [hnan]
  cases u with
  | notANumber => exact absurd rfl h
  | infinity sign =>
    rw [unpack_pack_infinity]
    rfl
  | zero sign =>
    rw [unpack_pack_zero]
    rfl
  | finite sign m e hpos =>
    unfold UnpackedFloat.pack
    dsimp only
    split
    · exact congrArg UnpackedFloat.isNaN (unpack_pack_infinity sign)
    · next hbiased =>
      split
      · apply isNaN_unpack_of_field_lt
        obtain ⟨-, hfield, -⟩ := fields_packComponents sign (BitVec.ofNat 11 _) (BitVec.ofNat 52 m)
        rw [BitVec.toNat_ofNat] at hfield
        exact hfield.trans_lt ((Nat.mod_le _ _).trans_lt (by simpa using hbiased))
      · apply isNaN_unpack_of_field_lt
        obtain ⟨-, hfield, -⟩ := fields_packComponents sign (0#11) (BitVec.ofNat 52 m)
        exact hfield.trans_lt (by decide)

/-- Rounding a mantissa to a number does not yield NaN. -/
theorem roundWithAccuracy_ne_notANumber (sign : Sign) (m : ℕ) (e : ℤ)
    (accuracy : UnpackedFloat.Accuracy) :
    UnpackedFloat.roundWithAccuracy .binary64 sign m e accuracy ≠ .notANumber := by
  unfold UnpackedFloat.roundWithAccuracy
  dsimp only
  split
  · nofun
  · nofun

/-- Bringing a number to its normal form does not yield NaN. -/
theorem normalize_ne_notANumber (z e : ℤ) (sign : Sign) :
    UnpackedFloat.normalize .binary64 z e sign ≠ .notANumber := by
  unfold UnpackedFloat.normalize
  split
  · exact roundWithAccuracy_ne_notANumber _ _ _ _
  · nofun
  · exact roundWithAccuracy_ne_notANumber _ _ _ _

end Packing

section Operations

variable {x y : Float}

/-- What is not NaN is unpacked as a number. -/
theorem unpack_ne_notANumber (h : x.isNaN = false) : x.toModel.unpack ≠ .notANumber := by
  intro hread
  have hnan : x.isNaN = x.toModel.unpack.isNaN := rfl
  rw [hnan, hread] at h
  cases h

/-- A number plus a finite one is a number. -/
theorem isNaN_add_eq_false (hx : x.isNaN = false) (hy : y.isFinite = true) :
    (x + y).isNaN = false := by
  have hx := unpack_ne_notANumber hx
  have hadd : x + y = ⟨.pack (UnpackedFloat.add .binary64 x.toModel.unpack y.toModel.unpack)⟩ := rfl
  rw [hadd]
  apply isNaN_pack_eq_false
  rcases finite_cases hy with ⟨t, hy⟩ | ⟨t, n, k, hn, hy, -⟩
  · rw [hy]
    cases hread : x.toModel.unpack with
    | notANumber => exact absurd hread hx
    | infinity s => nofun
    | zero s =>
      unfold UnpackedFloat.add
      dsimp only
      split
      · nofun
      · nofun
    | finite s m e hm => nofun
  · rw [hy]
    cases hread : x.toModel.unpack with
    | notANumber => exact absurd hread hx
    | infinity s => nofun
    | zero s => nofun
    | finite s m e hm => exact normalize_ne_notANumber _ _ _

variable {t : Sign} {n : ℕ} {k : ℤ} {hn : 0 < n}

/-- A number times a finite one that is not zero is a number. -/
theorem isNaN_mul_eq_false (hx : x.isNaN = false) (hy : y.toModel.unpack = .finite t n k hn) :
    (x * y).isNaN = false := by
  have hx := unpack_ne_notANumber hx
  have hmul : x * y = ⟨.pack (UnpackedFloat.mul .binary64 x.toModel.unpack y.toModel.unpack)⟩ := rfl
  rw [hmul, hy]
  apply isNaN_pack_eq_false
  cases hread : x.toModel.unpack with
  | notANumber => exact absurd hread hx
  | infinity s => nofun
  | zero s => nofun
  | finite s m e hm => exact roundWithAccuracy_ne_notANumber _ _ _ _

/-- A number divided by a finite one that is not zero is a number. -/
theorem isNaN_div_eq_false (hx : x.isNaN = false) (hy : y.toModel.unpack = .finite t n k hn) :
    (x / y).isNaN = false := by
  have hx := unpack_ne_notANumber hx
  have hdiv : x / y = ⟨.pack (UnpackedFloat.div .binary64 x.toModel.unpack y.toModel.unpack)⟩ := rfl
  rw [hdiv, hy]
  apply isNaN_pack_eq_false
  cases hread : x.toModel.unpack with
  | notANumber => exact absurd hread hx
  | infinity s => nofun
  | zero s => nofun
  | finite s m e hm => exact roundWithAccuracy_ne_notANumber _ _ _ _

/-- What is not finite is rounded to itself. -/
theorem roundHalfAway_of_not_isFinite (hx : x.isFinite = false) : Binary.roundHalfAway x = x := by
  have hfull : ¬ fieldOf x.toBits.toNat < 2047 := by
    rw [← isFinite_iff, hx]
    decide
  have hfield := toNat_exponentField x
  have hlarge : ¬ Binary.exponentField x < 1022 := by
    rw [UInt64.lt_iff_toNat_lt, hfield]
    exact fun h => hfull (h.trans (by decide))
  have hmore : Binary.exponentField x ≠ 1022 := by
    intro h
    rw [h] at hfield
    exact hfull (hfield.symm.trans_lt (by decide))
  have hwhole : 1075 ≤ Binary.exponentField x := by
    rw [UInt64.le_iff_toNat_le, hfield]
    exact (by decide : (1075 : UInt64).toNat ≤ 2047).trans (Nat.le_of_not_lt hfull)
  unfold Binary.roundHalfAway
  dsimp only
  rw [if_neg hlarge, if_neg hmore, if_pos hwhole]

/-- Rounding to a whole number does not make NaN. -/
theorem isNaN_roundHalfAway_eq_false (hx : x.isNaN = false) :
    (Binary.roundHalfAway x).isNaN = false := by
  cases hfinite : x.isFinite with
  | true => exact (isNaN_eq_false_of_isFinite (exact_roundHalfAway hfinite).1).1
  | false => rwa [roundHalfAway_of_not_isFinite hfinite]

/-- Up to 308 places a number is rounded to a number. -/
theorem isNaN_round_eq_false {digits : ℕ} (hx : x.isNaN = false) (hdigits : digits ≤ 308) :
    (Places.round x digits).isNaN = false := by
  obtain ⟨hfinite, hlarge⟩ := finite_powerOfTen hdigits
  obtain ⟨n, k, hn, hscale, -⟩ := exists_finite_of_pos hfinite (zero_lt_one.trans_le hlarge)
  unfold Places.round
  exact isNaN_div_eq_false (isNaN_roundHalfAway_eq_false (isNaN_mul_eq_false hx hscale)) hscale

/-- From 309 places on nothing is rounded to a number. -/
theorem isNaN_round {digits : ℕ} (x : Float) (hdigits : 309 ≤ digits) :
    (Places.round x digits).isNaN = true := by
  have hscale := infinite_powerOfTen hdigits
  unfold Places.round
  dsimp only
  generalize Places.powerOfTen digits = scale at *
  have hmul : (x * scale).toModel.unpack = UnpackedFloat.unpack .binary64 (UnpackedFloat.pack .binary64
      (UnpackedFloat.mul .binary64 x.toModel.unpack scale.toModel.unpack)) := rfl
  -- The scaled number is an infinity or NaN, so rounding leaves it as it is.
  have hscaled : (∃ s, (x * scale).toModel.unpack = .infinity s) ∨
      (x * scale).toModel.unpack = .notANumber := by
    rw [hmul, hscale]
    cases x.toModel.unpack with
    | notANumber => exact Or.inr UnpackedFloat.unpack_packedNaN
    | infinity s => exact Or.inl ⟨_, unpack_pack_infinity _⟩
    | zero s => exact Or.inr UnpackedFloat.unpack_packedNaN
    | finite s m e hm => exact Or.inl ⟨_, unpack_pack_infinity _⟩
  generalize x * scale = scaled at *
  have hfinite : scaled.isFinite = scaled.toModel.unpack.isFinite := rfl
  have hdiv : (scaled / scale).isNaN = (UnpackedFloat.unpack .binary64 (UnpackedFloat.pack .binary64
      (UnpackedFloat.div .binary64 scaled.toModel.unpack scale.toModel.unpack))).isNaN := rfl
  rcases hscaled with ⟨s, hread⟩ | hread
  · rw [roundHalfAway_of_not_isFinite (by rw [hfinite, hread]; rfl), hdiv, hread, hscale]
    exact congrArg UnpackedFloat.isNaN UnpackedFloat.unpack_packedNaN
  · rw [roundHalfAway_of_not_isFinite (by rw [hfinite, hread]; rfl), hdiv, hread]
    exact congrArg UnpackedFloat.isNaN UnpackedFloat.unpack_packedNaN

end Operations

end Formulary.Numeral
