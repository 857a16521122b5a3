import Mathlib.Algebra.MvPolynomial.PDeriv
import Mathlib.Algebra.TrivSqZeroExt.Basic
import Mathlib.RingTheory.Derivation.Lie
import Mathlib.RingTheory.Localization.FractionRing
import Mathlib.RingTheory.MvPolynomial.Basic
import Formulary.Proofs.Census.Slopes

/-!
# Slopes of rational functions

The rational functions in variables for the slots have slopes along all of them. The partial derivatives of
polynomials extend to quotients of polynomials, since the dual numbers of a field have an inverse for
everything that is not purely infinitesimal. The slopes commute on variables, hence everywhere.
-/

namespace Formulary.Census

open MvPolynomial

section Extension

variable {A K : Type*} [CommRing A] [Field K] [Algebra A K] {D : A →+ A}

/-- The dual number with a value and a derivative. -/
def dualNumber (q q' : K) : TrivSqZeroExt K K :=
  .inl q + .inr q'

/-- The value of a dual number. -/
@[simp] theorem fst_dualNumber (q q' : K) : (dualNumber q q').fst = q := by
  rw [dualNumber, TrivSqZeroExt.fst_add, TrivSqZeroExt.fst_inl, TrivSqZeroExt.fst_inr, add_zero]

/-- The derivative of a dual number. -/
@[simp] theorem snd_dualNumber (q q' : K) : (dualNumber q q').snd = q' := by
  rw [dualNumber, TrivSqZeroExt.snd_add, TrivSqZeroExt.snd_inl, TrivSqZeroExt.snd_inr, zero_add]

/-- Dual numbers are multiplied by the product rule. -/
theorem dualNumber_mul (p p' q q' : K) :
    dualNumber p p' * dualNumber q q' = dualNumber (p * q) (p * q' + q * p') := by
  ext
  · rw [TrivSqZeroExt.fst_mul, fst_dualNumber, fst_dualNumber, fst_dualNumber]
  · rw [TrivSqZeroExt.snd_mul, op_smul_eq_smul, fst_dualNumber, fst_dualNumber, snd_dualNumber,
      snd_dualNumber, snd_dualNumber, smul_eq_mul, smul_eq_mul]

/-- An element of a ring together with its derivative. -/
def dual (K : Type*) [Field K] [Algebra A K] (hD : ∀ a b, D (a * b) = a * D b + b * D a) :
    A →+* TrivSqZeroExt K K where
  toFun a := dualNumber (algebraMap A K a) (algebraMap A K (D a))
  map_zero' := by
    rw [map_zero D, map_zero]
    ext <;> simp
  map_one' := by
    have hone : D 1 = 0 := by simpa using hD 1 1
    rw [hone, map_one, map_zero]
    ext <;> simp
  map_add' a b := by ext <;> simp
  map_mul' a b := by rw [dualNumber_mul, hD, map_mul, map_add, map_mul, map_mul]

variable (hD : ∀ a b, D (a * b) = a * D b + b * D a)

/-- The value of an element with its derivative is the element. -/
theorem fst_dual (a : A) : (dual K hD a).fst = algebraMap A K a :=
  fst_dualNumber _ _

/-- The derivative of an element with its derivative is the derivative. -/
theorem snd_dual (a : A) : (dual K hD a).snd = algebraMap A K (D a) :=
  snd_dualNumber _ _

variable [IsFractionRing A K]

/-- What may be a denominator has an inverse together with its derivative. -/
theorem isUnit_dual (a : nonZeroDivisors A) : IsUnit (dual K hD a) := by
  rw [TrivSqZeroExt.isUnit_iff_isUnit_fst, fst_dual]
  exact IsLocalization.map_units K a

/-- A quotient together with its derivative. -/
noncomputable def dualQuotient : K →+* TrivSqZeroExt K K :=
  IsLocalization.lift (isUnit_dual (K := K) hD)

/-- On the ring a quotient with its derivative is the element with its derivative. -/
theorem dualQuotient_algebraMap (a : A) : dualQuotient hD (algebraMap A K a) = dual K hD a :=
  IsLocalization.lift_eq _ a

/-- The value of a quotient with its derivative is the quotient. -/
theorem fst_dualQuotient (q : K) : (dualQuotient hD q).fst = q := by
  have hid : (TrivSqZeroExt.fstHom K K K).toRingHom.comp (dualQuotient hD) = RingHom.id K := by
    refine IsLocalization.ringHom_ext (nonZeroDivisors A) (RingHom.ext fun a => ?_)
    exact (congrArg TrivSqZeroExt.fst (dualQuotient_algebraMap hD a)).trans (fst_dual hD a)
  exact RingHom.congr_fun hid q

/-- The derivative of quotients that extends the one of a ring. -/
noncomputable def extend (K : Type*) [Field K] [Algebra A K] [IsFractionRing A K]
    (hD : ∀ a b, D (a * b) = a * D b + b * D a) : Derivation ℤ K K :=
  .mk' ((TrivSqZeroExt.sndHom K K).toAddMonoidHom.comp (dualQuotient hD).toAddMonoidHom).toIntLinearMap
    fun p q => by
      refine (congrArg TrivSqZeroExt.snd (map_mul (dualQuotient hD) p q)).trans ?_
      rw [TrivSqZeroExt.snd_mul, op_smul_eq_smul, fst_dualQuotient, fst_dualQuotient]
      rfl

/-- On the ring the extended derivative is the one that was given. -/
@[simp] theorem extend_algebraMap (a : A) : extend K hD (algebraMap A K a) = algebraMap A K (D a) :=
  (congrArg TrivSqZeroExt.snd (dualQuotient_algebraMap hD a)).trans (snd_dual hD a)

/-- A derivative that vanishes on a ring vanishes on the quotients. -/
theorem derivation_eq_zero (D : Derivation ℤ K K) (hzero : ∀ a : A, D (algebraMap A K a) = 0) (q : K) :
    D q = 0 := by
  obtain ⟨a, b, -, rfl⟩ := IsFractionRing.div_surjective A q
  simp [Derivation.leibniz_div, hzero]

/-- Derivatives that commute on the ring commute on the quotients. -/
theorem extend_comm {D' : A →+ A} (hD' : ∀ a b, D' (a * b) = a * D' b + b * D' a)
    (hcomm : ∀ a, D (D' a) = D' (D a)) (q : K) :
    extend K hD (extend K hD' q) = extend K hD' (extend K hD q) := by
  rw [← sub_eq_zero, ← Derivation.commutator_apply]
  refine derivation_eq_zero (A := A) _ (fun a => ?_) q
  simp [Derivation.commutator_apply, hcomm]

end Extension

/-- The rational functions in variables for the slots, with rational coefficients. -/
abbrev RationalFunction (σ : Type*) : Type _ :=
  FractionRing (MvPolynomial σ ℚ)

variable {σ : Type*}

/-- The derivative of polynomials along a slot. -/
noncomputable def partialDerivative (x : σ) : MvPolynomial σ ℚ →+ MvPolynomial σ ℚ :=
  (pderiv x).toLinearMap.toAddMonoidHom

/-- The product rule for polynomials. -/
theorem partialDerivative_mul (x : σ) (p q : MvPolynomial σ ℚ) :
    partialDerivative x (p * q) = p * partialDerivative x q + q * partialDerivative x p :=
  (pderiv x).leibniz p q

/-- Along its own slot a variable has the derivative one. -/
theorem partialDerivative_self (x : σ) : partialDerivative x (X x) = 1 :=
  pderiv_X_self x

/-- Along other slots a variable has no derivative. -/
theorem partialDerivative_of_ne {x y : σ} (hne : x ≠ y) : partialDerivative x (X y) = 0 :=
  pderiv_X_of_ne hne.symm

/-- The derivatives of a polynomial along two slots commute. -/
theorem partialDerivative_comm (x y : σ) (p : MvPolynomial σ ℚ) :
    partialDerivative x (partialDerivative y p) = partialDerivative y (partialDerivative x p) := by
  classical
  have hcommutator : ⁅(pderiv x : Derivation ℚ (MvPolynomial σ ℚ) (MvPolynomial σ ℚ)),
      (pderiv y : Derivation ℚ (MvPolynomial σ ℚ) (MvPolynomial σ ℚ))⁆ = 0 := by
    ext z
    simp [Derivation.commutator_apply, Pi.single_apply, apply_ite]
  have hp := Derivation.congr_fun hcommutator p
  rwa [Derivation.commutator_apply, Derivation.zero_apply, sub_eq_zero] at hp

/-- The slots as coordinates of the rational functions. -/
noncomputable def rationalCoordinates (σ : Type*) [DecidableEq σ] : Coordinates σ (RationalFunction σ) where
  var x := algebraMap (MvPolynomial σ ℚ) _ (X x)
  slope x := extend _ (partialDerivative_mul x)
  slope_var x y := by
    rw [extend_algebraMap]
    split
    case isTrue heq => rw [heq, partialDerivative_self, map_one]
    case isFalse hne => rw [partialDerivative_of_ne hne, map_zero]
  slope_comm x y := extend_comm _ _ (partialDerivative_comm x y)
  two_ne_zero := fun htwo => by
    have hinjective := IsFractionRing.injective (MvPolynomial σ ℚ) (RationalFunction σ)
    refine (two_ne_zero : (2 : MvPolynomial σ ℚ) ≠ 0) (hinjective ?_)
    rwa [map_ofNat, map_zero]

end Formulary.Census
