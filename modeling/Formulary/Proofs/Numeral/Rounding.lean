import Formulary.Proofs.Numeral.Exact

/-!
# Rounding

The result of an operation is found by shifting a mantissa to the exponent that it ought to have and
rounding what is shifted out. Of all that happens there only this is kept: a whole number stays on its
side of the rounded mantissa. It follows that no rational number that can be represented lies strictly
between an exact result and its rounding, unless the result is beyond all finite numbers and becomes
infinite. So what can be represented is not changed, and comparisons with what can be represented
survive.
-/

namespace Formulary.Numeral

open Float.Model (UnpackedFloat totalExponent)
open Float.Model.UnpackedFloat (Sign ExtendedMantissa shiftToTargetExponent roundWithAccuracy)

section Shifting

/-- The mantissa that is left when the lowest bits are rounded away. -/
def roundedShift (m shift : ℕ) : ℕ :=
  (ExtendedMantissa.ofMantissaAndAccuracy m .exact >>> shift).roundedMantissa

variable {m shift j : ℕ}

/-- Shifting divides, and both residual bits stay clear as long as nothing is shifted out. -/
theorem shiftRight_mantissa (m shift : ℕ) :
    let shifted := ExtendedMantissa.ofMantissaAndAccuracy m .exact >>> shift
    shifted.mantissa = m / 2 ^ shift ∧
      (2 ^ shift ∣ m → shifted.roundBit = false ∧ shifted.stickyBit = false) := by
  intro shifted
  induction shift with
  | zero => exact ⟨(Nat.div_one m).symm, fun _ => ⟨rfl, rfl⟩⟩
  | succ shift ih =>
    obtain ⟨hmantissa, hbits⟩ := ih
    have hstep : shifted = (ExtendedMantissa.ofMantissaAndAccuracy m .exact >>> shift).shiftRightOne :=
      rfl
    rw [hstep]
    refine ⟨?_, fun hdvd => ?_⟩
    · dsimp only [ExtendedMantissa.shiftRightOne]
      rw [hmantissa, Nat.div_div_eq_div_mul, pow_succ]
    · obtain ⟨whole, rfl⟩ := hdvd
      obtain ⟨hround, hsticky⟩ := hbits (Dvd.intro _ (by rw [pow_succ, mul_assoc]))
      dsimp only [ExtendedMantissa.shiftRightOne]
      rw [hmantissa, hround, hsticky, pow_succ, mul_assoc, Nat.mul_div_cancel_left _ (by positivity),
        Nat.mul_mod_right]
      exact ⟨rfl, rfl⟩

/-- Rounding goes up by one at most, and not at all if no residual bit is set. -/
theorem roundedMantissa_bounds (shifted : ExtendedMantissa) :
    shifted.mantissa ≤ shifted.roundedMantissa ∧
      shifted.roundedMantissa ≤ shifted.mantissa + 1 ∧
      (shifted.roundBit = false ∧ shifted.stickyBit = false →
        shifted.roundedMantissa = shifted.mantissa) := by
  obtain ⟨mantissa, round, sticky⟩ := shifted
  have hodd := Nat.mod_lt mantissa two_pos
  unfold ExtendedMantissa.roundedMantissa
  cases round with
  | false =>
    cases sticky with
    | false => exact ⟨Nat.le_refl _, Nat.le_succ _, fun _ => rfl⟩
    | true => exact ⟨Nat.le_refl _, Nat.le_succ _, fun _ => rfl⟩
  | true =>
    cases sticky with
    | false => exact ⟨Nat.le_add_right _ _, Nat.add_le_add_left (Nat.le_of_lt_succ hodd) _, nofun⟩
    | true => exact ⟨Nat.le_succ _, Nat.le_refl _, nofun⟩

/-- A whole number below the mantissa stays below it. -/
theorem le_roundedShift (h : j * 2 ^ shift ≤ m) : j ≤ roundedShift m shift := by
  obtain ⟨hmantissa, -⟩ := shiftRight_mantissa m shift
  obtain ⟨hlower, -⟩ := roundedMantissa_bounds
    (ExtendedMantissa.ofMantissaAndAccuracy m .exact >>> shift)
  rw [hmantissa] at hlower
  exact ((Nat.le_div_iff_mul_le (by positivity)).mpr h).trans hlower

/-- A whole number above the mantissa stays above it. -/
theorem roundedShift_le (h : m ≤ j * 2 ^ shift) : roundedShift m shift ≤ j := by
  obtain ⟨hmantissa, hclear⟩ := shiftRight_mantissa m shift
  obtain ⟨-, hupper, hsame⟩ := roundedMantissa_bounds
    (ExtendedMantissa.ofMantissaAndAccuracy m .exact >>> shift)
  rw [hmantissa] at hupper hsame
  unfold roundedShift
  by_cases hdvd : 2 ^ shift ∣ m
  · rw [hsame (hclear hdvd)]
    exact Nat.div_le_of_le_mul (mul_comm j _ ▸ h)
  · have hlt : m / 2 ^ shift < j := by
      apply Nat.div_lt_of_lt_mul
      rw [mul_comm]
      exact lt_of_le_of_ne h fun heq => hdvd (Dvd.intro_left j heq.symm)
    exact hupper.trans hlt

end Shifting

section Representing

/-- A rational number with a mantissa of at most fifty-three bits and an exponent that is not too
small. -/
def Representable (q : ℚ) : Prop :=
  ∃ (m : ℤ) (e : ℤ), |m| ≤ 2 ^ 53 ∧ -1074 ≤ e ∧ q = m * (2 : ℚ) ^ e

/-- No rational number that can be represented lies strictly between two rational numbers. -/
def RoundsTo (q r : ℚ) : Prop :=
  ∀ y, Representable y → (y ≤ q → y ≤ r) ∧ (q ≤ y → r ≤ y)

variable {q r : ℚ}

/-- The negative of a number that can be represented can be represented. -/
theorem Representable.neg (h : Representable q) : Representable (-q) := by
  obtain ⟨m, e, hm, he, rfl⟩ := h
  exact ⟨-m, e, by rwa [abs_neg], he, by push_cast; ring⟩

/-- The magnitude of a number that can be represented can be represented. -/
theorem Representable.abs (h : Representable q) : Representable |q| := by
  rcases abs_choice q with hsame | hneg
  · rwa [hsame]
  · rw [hneg]
    exact h.neg

/-- A number rounds to itself. -/
theorem RoundsTo.refl (q : ℚ) : RoundsTo q q :=
  fun _ _ => ⟨id, id⟩

/-- Rounding does not depend on the sign. -/
theorem RoundsTo.neg (h : RoundsTo q r) : RoundsTo (-q) (-r) := by
  intro y hy
  obtain ⟨hlower, hupper⟩ := h (-y) hy.neg
  exact ⟨fun hle => by linarith [hupper (by linarith)], fun hle => by linarith [hlower (by linarith)]⟩

/-- So a rounded magnitude may be given either sign. -/
theorem RoundsTo.signed (h : RoundsTo q r) (sign : Sign) :
    RoundsTo (Numeral.signed sign q) (Numeral.signed sign r) := by
  cases sign with
  | positive => exact h
  | negative => exact h.neg

/-- What can be represented is not changed. -/
theorem RoundsTo.eq_of_representable (h : RoundsTo q r) (hq : Representable q) : r = q :=
  le_antisymm ((h q hq).2 le_rfl) ((h q hq).1 le_rfl)

/-- What can be represented is a multiple of each power of two that is small enough. -/
theorem representable_scaled {m : ℕ} {e : ℤ} (hm : m ≤ 2 ^ 53) (he : -1074 ≤ e) :
    Representable (scaled m e) :=
  ⟨m, e, by rw [Nat.abs_cast]; exact_mod_cast hm, he, by rw [scaled, Int.cast_natCast]⟩

/-- Integers of at most 53 bits can be represented. -/
theorem representable_intCast {n : ℤ} (h : |n| ≤ 2 ^ 53) : Representable n :=
  ⟨n, 0, h, by decide, by rw [zpow_zero, mul_one]⟩

end Representing

section Placing

variable {m : ℕ} {e : ℤ}

/-- The exponent that a mantissa with an exponent ought to have. -/
def target (m : ℕ) (e : ℤ) : ℤ :=
  Float.Model.Format.targetExponent .binary64 (totalExponent m e)

/-- The exponent of the last place follows from the length of the mantissa, down to the least one
there is. -/
theorem target_eq (m : ℕ) (e : ℤ) : target m e = max (m.log2 + 1 + e - 53) (-1074) := rfl

/-- How far a mantissa is shifted. -/
def shiftOf (m : ℕ) (e : ℤ) : ℕ :=
  (target m e - e).toNat

/-- The rounded mantissa has fifty-three bits at most, and fifty-three at least unless its exponent is
the least one. -/
theorem rounded_bounds (hm : 0 < m) (hle : e ≤ target m e) :
    roundedShift m (shiftOf m e) ≤ 2 ^ 53 ∧
      (target m e = -1074 ∨ 2 ^ 52 * 2 ^ shiftOf m e ≤ m) := by
  have htarget := target_eq m e
  have hshift : (shiftOf m e : ℤ) = target m e - e := Int.toNat_of_nonneg (by omega)
  constructor
  · apply roundedShift_le
    rw [← pow_add]
    exact (Nat.lt_log2_self.trans_le (Nat.pow_le_pow_right two_pos (by omega))).le
  · by_cases hleast : target m e = -1074
    · exact Or.inl hleast
    · have hlog : 52 + shiftOf m e = m.log2 := by omega
      rw [← pow_add, hlog]
      exact Or.inr (Nat.log2_self_le hm.ne')

/-- A whole number at an exponent that is no smaller stays on its side of the rounded mantissa. -/
theorem coarse_side {n exponent : ℤ} {shift : ℕ} (hm : 0 < m) (hle : e + shift ≤ exponent) :
    (n * (2 : ℚ) ^ exponent ≤ scaled m e →
        n * (2 : ℚ) ^ exponent ≤ scaled (roundedShift m shift) (e + shift)) ∧
      (scaled m e ≤ n * (2 : ℚ) ^ exponent →
        scaled (roundedShift m shift) (e + shift) ≤ n * (2 : ℚ) ^ exponent) := by
  obtain ⟨more, rfl⟩ := Int.le.dest hle
  cases n with
  | negSucc n =>
    have hnegative : (Int.negSucc n : ℚ) * 2 ^ (e + shift + more) < 0 :=
      mul_neg_of_neg_of_pos (by exact_mod_cast Int.negSucc_lt_zero n) (zpow_pos two_pos _)
    exact ⟨fun _ => hnegative.le.trans (scaled_nonneg _ _),
      fun hge => absurd (hge.trans hnegative.le) (scaled_pos hm e).not_ge⟩
  | ofNat n =>
    have hwhole : ((Int.ofNat n : ℤ) : ℚ) * 2 ^ (e + shift + more) =
        scaled (n * 2 ^ more) (e + shift) := by
      rw [scaled_mul_pow]
      rfl
    rw [hwhole, scaled_le_scaled, scaled_le_scaled, ← scaled_mul_pow, scaled_le_scaled,
      scaled_le_scaled]
    exact ⟨le_roundedShift, roundedShift_le⟩

/-- A number with a smaller exponent is no larger than the least mantissa with its leading bit. -/
theorem mul_zpow_le_scaled {n exponent more : ℤ} (hn : |n| ≤ 2 ^ 53) (hlt : exponent < more) :
    n * (2 : ℚ) ^ exponent ≤ scaled (2 ^ 52) more := by
  obtain ⟨shift, rfl⟩ : ∃ shift : ℕ, more = exponent + (1 + shift : ℕ) :=
    ⟨(more - exponent - 1).toNat, by omega⟩
  have hcap : (2 ^ 53 : ℤ) ≤ ((2 ^ 52 * 2 ^ (1 + shift) : ℕ) : ℤ) := by
    have hpow : 2 ^ 52 * 2 ^ 1 ≤ 2 ^ 52 * 2 ^ (1 + shift) :=
      Nat.mul_le_mul_left _ (Nat.pow_le_pow_right two_pos (Nat.le_add_right 1 shift))
    exact_mod_cast hpow
  rw [← scaled_mul_pow]
  apply mul_le_mul_of_nonneg_right _ (zpow_pos two_pos exponent).le
  exact_mod_cast (le_abs_self n).trans (hn.trans hcap)

/-- The rounded mantissa at its exponent is what the mantissa is rounded to. -/
theorem roundsTo_roundedShift (hm : 0 < m) (hle : e ≤ target m e) :
    RoundsTo (scaled m e) (scaled (roundedShift m (shiftOf m e)) (target m e)) := by
  have hleast : -1074 ≤ target m e := (target_eq m e).symm ▸ le_max_right _ _
  have hshift : target m e = e + shiftOf m e := by
    unfold shiftOf
    omega
  obtain ⟨-, hleading⟩ := rounded_bounds hm hle
  rw [hshift] at hleast hleading ⊢
  generalize shiftOf m e = shift at *
  rintro _ ⟨n, exponent, hn, hexponent, rfl⟩
  rcases le_or_gt (e + shift) exponent with hcoarse | hfine
  · exact coarse_side hm hcoarse
  · -- Below the grid the least mantissa with its leading bit lies between.
    have hleading' := hleading.resolve_left (by omega)
    have hsmall := mul_zpow_le_scaled hn hfine
    have hbelow : scaled (2 ^ 52) (e + shift) ≤ scaled m e := by
      rw [← scaled_mul_pow, scaled_le_scaled]
      exact hleading'
    constructor
    · intro _
      exact hsmall.trans ((scaled_le_scaled _).mpr (le_roundedShift hleading'))
    · intro h
      have hle : m ≤ 2 ^ 52 * 2 ^ shift := by
        rw [← scaled_le_scaled e, scaled_mul_pow]
        exact h.trans hsmall
      exact ((scaled_le_scaled _).mpr (roundedShift_le hle)).trans (hbelow.trans h)

/-- A mantissa is rounded to zero or to a mantissa and an exponent that stand for its rounding. If all
its bits are carried over, they are shifted once more, and nothing is lost then. -/
theorem roundWithAccuracy_cases (sign : Sign) (hm : 0 < m) (hle : e ≤ target m e) :
    (roundedShift m (shiftOf m e) = 0 ∧ roundWithAccuracy .binary64 sign m e .exact = .zero sign) ∨
    ∃ n k hn, roundWithAccuracy .binary64 sign m e .exact = .finite sign n k hn ∧
      scaled n k = scaled (roundedShift m (shiftOf m e)) (target m e) ∧
      n < 2 ^ 53 ∧ -1074 ≤ k ∧ (2 ^ 52 ≤ n ∨ k = -1074) := by
  have htarget := target_eq m e
  obtain ⟨hupper, hlower⟩ := rounded_bounds hm hle
  have hleading := hlower.imp_right le_roundedShift
  have hshift : e + shiftOf m e = target m e := by
    unfold shiftOf
    omega
  have hresult : roundWithAccuracy .binary64 sign m e .exact =
      let again := shiftOf (roundedShift m (shiftOf m e)) (target m e)
      let n := (ExtendedMantissa.ofMantissaAndAccuracy (roundedShift m (shiftOf m e)) .exact >>>
        again).mantissa
      if h : n = 0 then .zero sign
      else .finite sign n (target m e + again) (Nat.pos_of_ne_zero h) := by
    rw [← hshift]
    rfl
  rw [hresult]
  dsimp only
  rw [(shiftRight_mantissa _ _).1]
  have hleast : -1074 ≤ target m e := htarget ▸ le_max_right _ _
  generalize roundedShift m (shiftOf m e) = rounded at *
  generalize target m e = exponent at *
  rcases hupper.lt_or_eq with hlt | rfl
  · have hagain : shiftOf rounded exponent = 0 := by
      have hlog : rounded.log2 < 53 := by
        by_cases hzero : rounded = 0
        · rw [hzero]
          decide
        · exact (Nat.log2_lt hzero).mpr hlt
      unfold shiftOf
      rw [target_eq]
      omega
    rw [hagain, pow_zero, Nat.div_one, Nat.cast_zero, add_zero]
    by_cases hzero : rounded = 0
    · rw [dif_pos hzero]
      exact Or.inl ⟨hzero, rfl⟩
    · rw [dif_neg hzero]
      exact Or.inr ⟨rounded, exponent, _, rfl, rfl, hlt, hleast, hleading.symm⟩
  · have hagain : shiftOf (2 ^ 53) exponent = 1 := by
      unfold shiftOf
      rw [target_eq, Nat.log2_two_pow]
      omega
    rw [hagain, dif_neg (by decide)]
    refine Or.inr ⟨2 ^ 52, exponent + (1 : ℕ), by decide, rfl, ?_, by decide, by omega, Or.inl le_rfl⟩
    rw [← scaled_mul_pow]
    rfl

end Placing

section Results

variable {sign : Sign} {m : ℕ} {e : ℤ} {q : ℚ} {x : Float}

/-- What a positive rational number with a sign is rounded to: a finite number, or an infinity if it is
beyond all finite numbers. -/
def RoundedFrom (x : Float) (sign : Sign) (q : ℚ) : Prop :=
  (x.isFinite = true ∧ RoundsTo (signed sign q) (exact x)) ∨
    (x.toModel.unpack = .infinity sign ∧ ∀ y, Representable y → y < 2 ^ 1024 → y < q)

/-- A mantissa at an exponent that is not too large is rounded and packed. -/
theorem roundedFrom_roundWithAccuracy (sign : Sign) (hm : 0 < m) (hle : e ≤ target m e) :
    RoundedFrom ⟨.pack (roundWithAccuracy .binary64 sign m e .exact)⟩ sign (scaled m e) := by
  have hrounds := roundsTo_roundedShift hm hle
  rcases roundWithAccuracy_cases sign hm hle with
    ⟨hzero, hresult⟩ | ⟨n, k, hn, hresult, hsame, hlt, hleast, hleading⟩
  · have hread : (⟨.pack (roundWithAccuracy .binary64 sign m e .exact)⟩ : Float).toModel.unpack =
        .zero sign := by
      rw [hresult]
      exact UnpackedFloat.unpack_packedZero
    refine Or.inl ⟨isFinite_of_zero hread, ?_⟩
    have hexact : exact ⟨.pack (roundWithAccuracy .binary64 sign m e .exact)⟩ = signed sign 0 := by
      unfold exact
      rw [hread]
      cases sign with
      | positive => rfl
      | negative => exact neg_zero.symm
    rw [hexact]
    rw [hzero, scaled_zero] at hrounds
    exact hrounds.signed sign
  · rw [← hsame] at hrounds
    rw [hresult]
    rcases le_or_gt k 971 with hgreatest | hgreatest
    · have hread := unpack_pack_finite sign hn ⟨hlt, hleast, hgreatest, hleading⟩
      refine Or.inl ⟨isFinite_of_finite hread, ?_⟩
      have hexact : exact ⟨.pack (.finite sign n k hn)⟩ = signed sign (scaled n k) :=
        congrArg unpackedExact hread
      rw [hexact]
      exact hrounds.signed sign
    · refine Or.inr ⟨unpack_pack_of_greatest_lt sign hn hgreatest, fun y hy hbelow => ?_⟩
      -- What is rounded to more than all finite numbers is not below any of them.
      by_contra hle
      have hcap : (2 : ℚ) ^ 1024 ≤ scaled n k := by
        obtain ⟨more, rfl⟩ : ∃ more : ℕ, k = 972 + more := ⟨(k - 972).toNat, by omega⟩
        have hfull : 2 ^ 52 ≤ n := hleading.resolve_right (by omega)
        have hleast : (2 : ℚ) ^ 1024 = scaled (2 ^ 52) 972 := by
          rw [scaled, zpow_ofNat, Nat.cast_pow, Nat.cast_ofNat, ← pow_add]
        rw [hleast, ← scaled_mul_pow, scaled_le_scaled]
        exact hfull.trans (Nat.le_mul_of_pos_right n (by positivity))
      exact absurd (hcap.trans ((hrounds y hy).2 (not_lt.mp hle))) (not_le.mpr hbelow)

/-- A mantissa at an exponent that is too large is shifted to the left first. -/
theorem roundedFrom_round (sign : Sign) (hm : 0 < m) (e : ℤ) :
    RoundedFrom ⟨.pack (UnpackedFloat.round .binary64 sign m e)⟩ sign (scaled m e) := by
  obtain ⟨shift, hshift⟩ : ∃ shift : ℕ, shift = (e - target m e).toNat := ⟨_, rfl⟩
  have hround : UnpackedFloat.round .binary64 sign m e =
      roundWithAccuracy .binary64 sign (m * 2 ^ shift) (e - shift) .exact := by
    rw [hshift, ← Nat.shiftLeft_eq]
    rfl
  have hlog : (m * 2 ^ shift).log2 = m.log2 + shift := by
    rw [Nat.log2_eq_iff (by positivity), pow_add, Nat.add_right_comm, pow_add]
    exact ⟨Nat.mul_le_mul_right _ (Nat.log2_self_le hm.ne'),
      Nat.mul_lt_mul_of_pos_right Nat.lt_log2_self (by positivity)⟩
  have hle : e - shift ≤ target (m * 2 ^ shift) (e - shift) := by
    have htarget := target_eq m e
    rw [target_eq, hlog]
    omega
  have hsame : scaled (m * 2 ^ shift) (e - shift) = scaled m e := by
    rw [scaled_mul_pow, sub_add_cancel]
  rw [hround, ← hsame]
  exact roundedFrom_roundWithAccuracy sign (by positivity) hle

/-- What is not beyond all finite numbers is rounded to a finite number. -/
theorem RoundedFrom.finite {cap : ℚ} (h : RoundedFrom x sign q) (hcap : Representable cap)
    (hbelow : cap < 2 ^ 1024) (hle : |signed sign q| ≤ cap) :
    x.isFinite = true ∧ RoundsTo (signed sign q) (exact x) := by
  rcases h with hfinite | ⟨-, hbeyond⟩
  · exact hfinite
  · rw [abs_signed] at hle
    exact absurd ((hbeyond cap hcap hbelow).trans_le (le_abs_self q)) hle.not_gt

/-- A whole number times a power of two is rounded to a finite number, if it is not beyond all of
them. -/
theorem finite_normalize {cap : ℚ} (z e : ℤ) (hcap : Representable cap) (hbelow : cap < 2 ^ 1024)
    (hle : |z * (2 : ℚ) ^ e| ≤ cap) :
    let x : Float := ⟨.pack (UnpackedFloat.normalize .binary64 z e .positive)⟩
    x.isFinite = true ∧ RoundsTo (z * 2 ^ e) (exact x) := by
  intro x
  rcases lt_trichotomy z 0 with hneg | rfl | hpos
  · have hnormalize : UnpackedFloat.normalize .binary64 z e .positive =
        UnpackedFloat.round .binary64 .negative (-z).toNat e := by
      unfold UnpackedFloat.normalize
      rw [compare_lt_iff_lt.mpr hneg]
    have hvalue : z * (2 : ℚ) ^ e = signed .negative (scaled (-z).toNat e) := by
      have hcast : (((-z).toNat : ℤ) : ℚ) = -z := by
        rw [Int.toNat_of_nonneg (by omega), Int.cast_neg]
      rw [signed, scaled, ← Int.cast_natCast, hcast]
      ring
    have hround := roundedFrom_round .negative (show 0 < (-z).toNat by omega) e
    rw [← hnormalize] at hround
    rw [hvalue] at hle ⊢
    exact hround.finite hcap hbelow hle
  · have hread : x.toModel.unpack = .zero .positive := UnpackedFloat.unpack_packedZero
    have hexact : exact x = 0 := congrArg unpackedExact hread
    rw [hexact, Int.cast_zero, zero_mul]
    exact ⟨isFinite_of_zero hread, .refl 0⟩
  · have hnormalize : UnpackedFloat.normalize .binary64 z e .positive =
        UnpackedFloat.round .binary64 .positive z.toNat e := by
      unfold UnpackedFloat.normalize
      rw [compare_gt_iff_gt.mpr hpos]
    have hvalue : z * (2 : ℚ) ^ e = signed .positive (scaled z.toNat e) := by
      have hcast : ((z.toNat : ℤ) : ℚ) = z := by
        rw [Int.toNat_of_nonneg hpos.le]
      rw [signed, scaled, ← Int.cast_natCast, hcast]
    have hround := roundedFrom_round .positive (show 0 < z.toNat by omega) e
    rw [← hnormalize] at hround
    rw [hvalue] at hle ⊢
    exact hround.finite hcap hbelow hle

end Results

end Formulary.Numeral
