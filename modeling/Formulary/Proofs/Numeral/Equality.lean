import Mathlib
import Formulary.Numeral.Places
import Formulary.Admission.Fingerprint

/-!
# Equal numbers

Two numbers that compare equal are one and the same, unless they are the two zeros, and there is
only one NaN. Scaling, rounding and the keys of fingerprints do not tell the two zeros apart. So
results that agree, which means that they compare equal or that neither is a number, have the same
key after rounding; and the keys of two numbers are equal only if the numbers are. Sums and
products are the same in either order.
-/

namespace Formulary

open Float.Model (UnpackedFloat)
open Float.Model.UnpackedFloat (Sign)

/-- Two results agree if they compare equal or if neither of them is a number. -/
def Agree (x y : Float) : Prop :=
  (x == y) = true ∨ x.isNaN = true ∧ y.isNaN = true

namespace Numeral

/-- One of the two zeros. -/
def IsZero (x : Float) : Prop :=
  ∃ sign, x.toModel.unpack = .zero sign

variable {x y : Float}

/-- There is one number that is NaN. -/
theorem isNaN_iff : x.isNaN = true ↔ x = Float.nan := by
  rw [Float.isNaN_eq_decide_eq_nan, decide_eq_true_iff]

/-- A number is known by what is read off its bits. -/
theorem eq_of_unpack_eq (h : x.toModel.unpack = y.toModel.unpack) : x = y := by
  have hbits := (UnpackedFloat.unpack_inj_of_valid x.toModel.valid y.toModel.valid).mp h
  exact Float.toBits_inj.mp (UInt64.toBitVec_inj.mp hbits)

/-- A zero is the positive or the negative one. -/
theorem isZero_iff : IsZero x ↔ x = 0 ∨ x = -0 := by
  constructor
  · rintro ⟨sign, hsign⟩
    cases sign with
    | positive => exact Or.inl (eq_of_unpack_eq hsign)
    | negative => exact Or.inr (eq_of_unpack_eq hsign)
  · rintro (rfl | rfl)
    · exact ⟨.positive, rfl⟩
    · exact ⟨.negative, rfl⟩

/-- Results that agree are the same, unless they are zeros. -/
theorem eq_or_isZero_of_agree (h : Agree x y) : x = y ∨ IsZero x ∧ IsZero y := by
  rcases h with heq | ⟨hx, hy⟩
  · obtain ⟨-, -, heq | ⟨hx, hy⟩ | ⟨hx, hy⟩⟩ := Float.beq_iff_ne_nan_and_eq.mp heq
    · exact Or.inl heq
    · exact Or.inr ⟨isZero_iff.mpr (Or.inl hx), isZero_iff.mpr (Or.inr hy)⟩
    · exact Or.inr ⟨isZero_iff.mpr (Or.inr hx), isZero_iff.mpr (Or.inl hy)⟩
  · exact Or.inl ((isNaN_iff.mp hx).trans (isNaN_iff.mp hy).symm)

/-- Only numbers compare equal. -/
theorem isNaN_eq_false_of_beq (h : (x == y) = true) : x.isNaN = false := by
  rw [Float.isNaN_eq_decide_eq_nan, decide_eq_false_iff_not]
  exact (Float.beq_iff_ne_nan_and_eq.mp h).1

/-- Zeros scaled by one number are zeros again or the same. -/
theorem IsZero.mul (hx : IsZero x) (hy : IsZero y) (scale : Float) :
    x * scale = y * scale ∨ IsZero (x * scale) ∧ IsZero (y * scale) := by
  obtain ⟨sign, hx⟩ := hx
  obtain ⟨sign', hy⟩ := hy
  have hproduct (z : Float) : z * scale =
      ⟨.pack (UnpackedFloat.mul .binary64 z.toModel.unpack scale.toModel.unpack)⟩ := rfl
  rw [hproduct, hproduct, hx, hy]
  cases scale.toModel.unpack with
  | notANumber => exact Or.inl rfl
  | infinity => exact Or.inl rfl
  | zero => exact Or.inr ⟨⟨_, UnpackedFloat.unpack_packedZero⟩, ⟨_, UnpackedFloat.unpack_packedZero⟩⟩
  | finite => exact Or.inr ⟨⟨_, UnpackedFloat.unpack_packedZero⟩, ⟨_, UnpackedFloat.unpack_packedZero⟩⟩

/-- Zeros divided by one number are zeros again or the same. -/
theorem IsZero.div (hx : IsZero x) (hy : IsZero y) (scale : Float) :
    x / scale = y / scale ∨ IsZero (x / scale) ∧ IsZero (y / scale) := by
  obtain ⟨sign, hx⟩ := hx
  obtain ⟨sign', hy⟩ := hy
  have hquotient (z : Float) : z / scale =
      ⟨.pack (UnpackedFloat.div .binary64 z.toModel.unpack scale.toModel.unpack)⟩ := rfl
  rw [hquotient, hquotient, hx, hy]
  cases scale.toModel.unpack with
  | notANumber => exact Or.inl rfl
  | zero => exact Or.inl rfl
  | infinity => exact Or.inr ⟨⟨_, UnpackedFloat.unpack_packedZero⟩, ⟨_, UnpackedFloat.unpack_packedZero⟩⟩
  | finite => exact Or.inr ⟨⟨_, UnpackedFloat.unpack_packedZero⟩, ⟨_, UnpackedFloat.unpack_packedZero⟩⟩

/-- Zeros are whole. -/
theorem IsZero.roundHalfAway (h : IsZero x) : Binary.roundHalfAway x = x := by
  rcases isZero_iff.mp h with rfl | rfl
  · decide +kernel
  · decide +kernel

/-- A zero is a number. -/
theorem IsZero.isNaN_eq_false (h : IsZero x) : x.isNaN = false := by
  rcases isZero_iff.mp h with rfl | rfl
  · rfl
  · rfl

/-- Both zeros have the key zero. -/
theorem IsZero.key_eq (h : IsZero x) : Fingerprint.key x = 0 := by
  rcases isZero_iff.mp h with rfl | rfl
  · rfl
  · rfl

/-- Zeros are rounded to zeros or to the same. -/
theorem IsZero.round (hx : IsZero x) (hy : IsZero y) (digits : ℕ) :
    Places.round x digits = Places.round y digits ∨
      IsZero (Places.round x digits) ∧ IsZero (Places.round y digits) := by
  unfold Places.round
  dsimp only
  rcases hx.mul hy (Places.powerOfTen digits) with heq | ⟨hx', hy'⟩
  · exact Or.inl (by rw [heq])
  · rw [hx'.roundHalfAway, hy'.roundHalfAway]
    exact hx'.div hy' _

/-- Only the bits of zeros are not their keys, and the bits of no other number are zero. -/
theorem key_eq_of_not_isZero (h : ¬ IsZero x) : Fingerprint.key x = x.toBits ∧ x.toBits ≠ 0 := by
  have hzero : (x == 0.0) = false := by
    by_contra heq
    rw [Bool.not_eq_false] at heq
    rcases eq_or_isZero_of_agree (Or.inl heq) with rfl | ⟨hx, -⟩
    · exact h (isZero_iff.mpr (Or.inl rfl))
    · exact h hx
  refine ⟨?_, fun hbits => ?_⟩
  · rw [Fingerprint.key, hzero]
    rfl
  · have heq : x = 0 := Float.toBits_inj.mp hbits
    exact h (isZero_iff.mpr (Or.inl heq))

/-- The keys of two numbers are equal exactly when the numbers are. -/
theorem key_eq_key_iff (hx : x.isNaN = false) (hy : y.isNaN = false) :
    Fingerprint.key x = Fingerprint.key y ↔ (x == y) = true := by
  constructor
  · intro hkey
    by_cases hzero : IsZero x
    · by_cases hzero' : IsZero y
      · rcases isZero_iff.mp hzero with rfl | rfl
        · rcases isZero_iff.mp hzero' with rfl | rfl
          · rfl
          · rfl
        · rcases isZero_iff.mp hzero' with rfl | rfl
          · rfl
          · rfl
      · obtain ⟨hbits, hne⟩ := key_eq_of_not_isZero hzero'
        rw [hzero.key_eq, hbits] at hkey
        exact absurd hkey.symm hne
    · obtain ⟨hbits, hne⟩ := key_eq_of_not_isZero hzero
      by_cases hzero' : IsZero y
      · rw [hzero'.key_eq, hbits] at hkey
        exact absurd hkey hne
      · rw [hbits, (key_eq_of_not_isZero hzero').1] at hkey
        obtain rfl := Float.toBits_inj.mp hkey
        apply Float.beq_self_iff.mpr
        intro hnan
        rw [isNaN_iff.mpr hnan] at hx
        cases hx
  · intro heq
    rcases eq_or_isZero_of_agree (Or.inl heq) with rfl | ⟨hzero, hzero'⟩
    · rfl
    · rw [hzero.key_eq, hzero'.key_eq]

/-- Every result agrees with itself. -/
theorem agree_of_eq (h : x = y) : Agree x y := by
  subst h
  by_cases hnan : x = Float.nan
  · exact Or.inr ⟨isNaN_iff.mpr hnan, isNaN_iff.mpr hnan⟩
  · exact Or.inl (Float.beq_self_iff.mpr hnan)

/-- Signs can be multiplied in either order. -/
theorem sign_mul_comm (s t : Sign) : s * t = t * s := by
  cases s with
  | negative => cases t with
    | negative => rfl
    | positive => rfl
  | positive => cases t with
    | negative => rfl
    | positive => rfl

/-- The sum of unpacked numbers does not depend on their order. -/
theorem unpacked_add_comm (a b : UnpackedFloat) :
    UnpackedFloat.add .binary64 a b = UnpackedFloat.add .binary64 b a := by
  cases a with
  | notANumber => cases b <;> rfl
  | infinity s =>
    cases b with
    | infinity t => cases s <;> cases t <;> rfl
    | _ => rfl
  | zero s =>
    cases b with
    | zero t => cases s <;> cases t <;> rfl
    | _ => rfl
  | finite s m e hpos =>
    cases b with
    | finite t n e' hpos' =>
      unfold UnpackedFloat.add
      dsimp only
      rw [min_comm e' e, Int.add_comm]
    | _ => rfl

/-- The product of unpacked numbers does not depend on their order. -/
theorem unpacked_mul_comm (a b : UnpackedFloat) :
    UnpackedFloat.mul .binary64 a b = UnpackedFloat.mul .binary64 b a := by
  cases a with
  | notANumber => cases b <;> rfl
  | infinity s => cases b <;> simp only [UnpackedFloat.mul, sign_mul_comm]
  | zero s => cases b <;> simp only [UnpackedFloat.mul, sign_mul_comm]
  | finite s m e hpos =>
    cases b <;> simp only [UnpackedFloat.mul, sign_mul_comm, Nat.mul_comm, Int.add_comm]

/-- A sum does not depend on the order of its terms, NaN and infinities included. -/
protected theorem add_comm (x y : Float) : x + y = y + x := by
  have hsum (x y : Float) : x + y =
      ⟨.pack (UnpackedFloat.add .binary64 x.toModel.unpack y.toModel.unpack)⟩ := rfl
  rw [hsum, hsum, unpacked_add_comm]

/-- A product does not depend on the order of its factors, NaN and infinities included. -/
protected theorem mul_comm (x y : Float) : x * y = y * x := by
  have hproduct (x y : Float) : x * y =
      ⟨.pack (UnpackedFloat.mul .binary64 x.toModel.unpack y.toModel.unpack)⟩ := rfl
  rw [hproduct, hproduct, unpacked_mul_comm]

end Numeral

/-- The key of the rounded value of a result, if there is a number to round and it stays one. -/
def Fingerprint.keyOfRaw (digits : ℕ) (raw : Float) : Option UInt64 :=
  if raw.isNaN then none
  else if (Places.round raw digits).isNaN then none
  else some (key (Places.round raw digits))

/-- Results that agree have the same key. -/
theorem Agree.keyOfRaw_eq {x y : Float} (h : Agree x y) (digits : ℕ) :
    Fingerprint.keyOfRaw digits x = Fingerprint.keyOfRaw digits y := by
  rcases Numeral.eq_or_isZero_of_agree h with rfl | ⟨hx, hy⟩
  · rfl
  · unfold Fingerprint.keyOfRaw
    rw [hx.isNaN_eq_false, hy.isNaN_eq_false]
    rcases hx.round hy digits with heq | ⟨hx', hy'⟩
    · rw [heq]
    · rw [hx'.isNaN_eq_false, hy'.isNaN_eq_false, hx'.key_eq, hy'.key_eq]

end Formulary
