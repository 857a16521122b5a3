/-!
# Admission policies

A candidate formula is evaluated under several random assignments of values to its slots, its
fingerprint vectors. A policy says how many vectors there are, under how many of them a candidate
has to be new to be admitted, and how far values are rounded before they are compared. The seed
fixes the vectors; without one they are drawn afresh.
-/

namespace Formulary

/-- The voting rule for admitting a candidate. -/
structure Policy where
  fingerprints : Nat := 3
  threshold : Nat := 2
  digits : Nat := 5
  seed : Option UInt64 := none

/-- What can be wrong with a policy or with vectors given for it. -/
inductive PolicyError where
  | noFingerprints
  | thresholdOutOfRange (threshold fingerprints : Nat)
  | vectorCount (actual expected : Nat)
  | vectorLength (actual expected : Nat)
deriving DecidableEq

/-- The text shown for a policy error. -/
def PolicyError.message : PolicyError → String
  | .noFingerprints => "at least one fingerprint is required"
  | .thresholdOutOfRange threshold fingerprints =>
    s!"threshold {threshold} must be between 1 and {fingerprints}"
  | .vectorCount actual expected =>
    s!"{actual} fingerprint vectors given, policy needs {expected}"
  | .vectorLength actual expected =>
    s!"fingerprint vector has {actual} values, expected {expected}"

namespace Policy

/-- Refuse a policy unless `0 < threshold ≤ fingerprints`. -/
def validate (policy : Policy) : Except PolicyError Unit :=
  if policy.fingerprints = 0 then .error .noFingerprints
  else if policy.threshold = 0 ∨ policy.fingerprints < policy.threshold then
    .error (.thresholdOutOfRange policy.threshold policy.fingerprints)
  else .ok ()

/-- A policy is valid if its threshold is at least one and no more than the number of fingerprints. -/
theorem validate_eq_ok_iff (policy : Policy) :
    policy.validate = .ok () ↔
      0 < policy.threshold ∧ policy.threshold ≤ policy.fingerprints := by
  unfold validate
  constructor
  · intro h
    split at h
    · cases h
    · split at h
      · cases h
      · omega
  · rintro ⟨hpos, hle⟩
    rw [if_neg (by omega), if_neg (by omega)]

end Policy

end Formulary
