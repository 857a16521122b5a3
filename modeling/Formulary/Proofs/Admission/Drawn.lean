import Formulary.Admission.ChaCha
import Formulary.Proofs.Numeral.Scaling

/-!
# The range of drawn values

A value is drawn as the fraction of a number from one up to two. Taking one away is exact, the product
with twenty is rounded to less than twenty, and taking ten away leaves a number from `-10` up to `10`.
-/

namespace Formulary

open Numeral

namespace ChaCha

/-- A word's upper bits as the fraction of a number from one up to two. -/
theorem exact_ofBits_one_or (bits : UInt64) :
    let x := Float.ofBits ((bits >>> 12) ||| 0x3ff0000000000000)
    ∃ fraction < 2 ^ 52, x.isFinite = true ∧ exact x = 1 + scaled fraction (-52) := by
  intro x
  obtain ⟨fraction, hdef⟩ : ∃ fraction, fraction = bits.toNat / 2 ^ 12 := ⟨_, rfl⟩
  have hlt : fraction < 2 ^ 52 := hdef ▸ Nat.div_lt_of_lt_mul bits.toNat_lt
  have hword : ((bits >>> 12) ||| 0x3ff0000000000000).toNat = 1023 * 2 ^ 52 + fraction := by
    have hlow : (bits >>> 12).toNat = fraction := by
      rw [UInt64.toNat_shiftRight, Nat.shiftRight_eq_div_pow, hdef]
      rfl
    rw [UInt64.toNat_or, hlow, Nat.or_comm]
    exact (Nat.shiftLeft_add_eq_or_of_lt hlt 1023).symm
  have hfield : fieldOf (1023 * 2 ^ 52 + fraction) = 1023 := by
    unfold fieldOf
    omega
  have hfraction : fractionOf (1023 * 2 ^ 52 + fraction) = fraction := by
    unfold fractionOf
    omega
  have hsign : signOf (1023 * 2 ^ 52 + fraction) = .positive := if_pos (by omega)
  have hbelow : fieldOf ((bits >>> 12) ||| 0x3ff0000000000000).toNat < 2047 := by
    rw [hword, hfield]
    decide
  obtain ⟨hfinite, hexact⟩ := exact_ofBits _ hbelow
  refine ⟨fraction, hlt, hfinite, hexact.trans ?_⟩
  rw [hword, hsign, signed, magnitudeOf, mantissaOf, exponentOf, hfield, hfraction, if_neg (by decide),
    ← scaled_one]
  unfold scaled
  rw [Nat.cast_add, add_mul]
  rfl

/-- What is at most twenty is in the range of finite numbers. -/
private theorem lt_of_le_twenty {q : ℚ} (h : q ≤ 20) : q < 2 ^ 1024 :=
  calc q ≤ 20 := h
    _ < 2 ^ 5 := by norm_num
    _ < 2 ^ 1024 := pow_lt_pow_right₀ one_lt_two (by decide)

/-- The fraction of a number from one up to two is exact. -/
theorem exact_fraction (bits : UInt64) :
    let x := Float.ofBits ((bits >>> 12) ||| 0x3ff0000000000000) - 1.0
    x.isFinite = true ∧ 0 ≤ exact x ∧ exact x ≤ 1 - 1 / 2 ^ 52 := by
  obtain ⟨fraction, hlt, hfinite, hexact⟩ := exact_ofBits_one_or bits
  obtain ⟨hone, hone'⟩ := exact_one
  have hnonneg := scaled_nonneg fraction (-52)
  have hsmall : scaled fraction (-52) ≤ 1 - 1 / 2 ^ 52 := by
    have hle : (fraction : ℚ) ≤ 2 ^ 52 - 1 := by
      rw [le_sub_iff_add_le]
      exact_mod_cast hlt
    rw [scaled, zpow_neg, zpow_ofNat, ← div_eq_mul_inv, div_le_iff₀ (by positivity)]
    linarith
  intro x
  have hdifference : exact (Float.ofBits ((bits >>> 12) ||| 0x3ff0000000000000)) - exact 1.0 =
      scaled fraction (-52) := by
    rw [hexact, hone', add_sub_cancel_left]
  obtain ⟨hpart, hpart'⟩ := exact_sub hfinite hone
    (hdifference ▸ representable_scaled (by omega) (by decide))
    (by rw [hdifference, abs_of_nonneg hnonneg]; exact lt_of_le_twenty (by linarith))
  rw [hdifference] at hpart'
  exact ⟨hpart, hpart'.ge.trans' hnonneg, hpart'.le.trans hsmall⟩

/-- A fraction is stretched to a number from `-10` up to `10`. -/
theorem exact_stretched {part : Float} (hpart : part.isFinite = true) (hnonneg : 0 ≤ exact part)
    (hsmall : exact part ≤ 1 - 1 / 2 ^ 52) :
    (part * 20.0 + (-10.0)).isFinite = true ∧ -10 ≤ exact (part * 20.0 + (-10.0)) ∧
      exact (part * 20.0 + (-10.0)) < 10 := by
  obtain ⟨hten, hten'⟩ := exact_ten
  obtain ⟨hminus, hminus'⟩ := exact_neg hten
  have htwenty : (20.0 : Float).toModel.unpack = .finite .positive (5 * 2 ^ 50) (-48) (by decide) :=
    rfl
  have htwenty' : exact 20.0 = 20 := by
    rw [exact_of_finite htwenty, signed, scaled]
    norm_num
  -- The product is less than twenty by more than the last place of what it is rounded to.
  have hzero : Representable (0 : ℤ) := representable_intCast (by decide)
  have hcap : Representable (20 - 1 / 2 ^ 48) :=
    ⟨20 * 2 ^ 48 - 1, -48, by decide, by decide, by norm_num⟩
  have hproduct : 0 ≤ exact part * exact 20.0 ∧ exact part * exact 20.0 ≤ 20 - 1 / 2 ^ 48 := by
    rw [htwenty']
    constructor
    · linarith
    · linarith
  obtain ⟨hscaled, hrounds⟩ := finite_mul hpart (isFinite_of_finite htwenty) hcap
    (lt_of_le_twenty (by norm_num)) (by rw [abs_of_nonneg hproduct.1]; exact hproduct.2)
  have hless := (hrounds _ hcap).2 hproduct.2
  have hmore := (hrounds _ hzero).1 (by rw [Int.cast_zero]; exact hproduct.1)
  rw [Int.cast_zero] at hmore
  generalize part * 20.0 = product at *
  have hleast : Representable (-10 : ℤ) := representable_intCast (by decide)
  have hmost : Representable (10 - 1 / 2 ^ 48) :=
    ⟨10 * 2 ^ 48 - 1, -48, by decide, by decide, by norm_num⟩
  have hlow : ((-10 : ℤ) : ℚ) ≤ exact product + exact (-10.0) := by
    rw [hminus', hten']
    push_cast
    linarith
  have hhigh : exact product + exact (-10.0) ≤ 10 - 1 / 2 ^ 48 := by
    rw [hminus', hten']
    linarith
  obtain ⟨hsum, hrounds'⟩ := finite_add hscaled hminus hleast.neg (lt_of_le_twenty (by norm_num))
    (abs_le.mpr ⟨by rw [neg_neg]; exact hlow, hhigh.trans (by norm_num)⟩)
  refine ⟨hsum, ?_, ?_⟩
  · have hrounded := (hrounds' _ hleast).1 hlow
    push_cast at hrounded
    exact hrounded
  · exact ((hrounds' _ hmost).2 hhigh).trans_lt (by norm_num)

/-- A drawn value is finite, and from `-10` up to `10`. -/
theorem exact_inRange (bits : UInt64) :
    (inRange bits).isFinite = true ∧ -10 ≤ exact (inRange bits) ∧ exact (inRange bits) < 10 := by
  obtain ⟨hfinite, hnonneg, hsmall⟩ := exact_fraction bits
  exact exact_stretched hfinite hnonneg hsmall

/-- Every value of drawn vectors is finite, and from `-10` up to `10`. -/
theorem exact_of_mem_vectors {key : Key} {count length : ℕ} {vector : List Float} {value : Float}
    (hvector : vector ∈ vectors key count length) (hvalue : value ∈ vector) :
    value.isFinite = true ∧ -10 ≤ exact value ∧ exact value < 10 := by
  simp only [vectors, List.mem_map] at hvector
  obtain ⟨position, -, rfl⟩ := hvector
  obtain ⟨slot, -, rfl⟩ := List.mem_map.mp hvalue
  exact exact_inRange _

end ChaCha

end Formulary
