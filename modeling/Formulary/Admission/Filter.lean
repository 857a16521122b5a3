import Formulary.Admission.Policy
import Formulary.Admission.ChaCha
import Formulary.Admission.Fingerprint

/-!
# The novelty filter

A novelty filter decides which formulas of one size are new up to numeric equality. Every
candidate is shown to all fingerprints, one after another, and each records the value it sees
whether or not the candidate is admitted in the end. The candidate is admitted if enough
fingerprints saw a new value.

If the evaluation under one fingerprint fails, the fingerprints after it are not asked and the
counts of candidates stay as they were.
-/

namespace Formulary

/-- What can go wrong when candidates are filtered. -/
inductive AdmissionError where
  | invalidPolicy (error : PolicyError)
  | wrongSize (expected actual : Nat)
  | evaluation (error : FormulaError)
deriving DecidableEq

/-- The text shown for an admission error. -/
def AdmissionError.message : AdmissionError → String
  | .invalidPolicy error => s!"Invalid admission policy: {error.message}"
  | .wrongSize expected actual =>
    s!"Candidate uses {actual} values, deduplicator expects {expected}"
  | .evaluation error => s!"Candidate evaluation failed: {error.message}"

/-- Fingerprints over one number of slots with the rule for admission and its counts. -/
structure NoveltyFilter where
  slots : Nat
  policy : Policy
  table : OperatorTable
  fingerprints : List Fingerprint
  offered : Nat
  admitted : Nat

namespace NoveltyFilter

/-- A filter over fingerprints that are given; they have to fit the policy and the size. -/
def ofFingerprints (slots : Nat) (policy : Policy) (table : OperatorTable)
    (fingerprints : List Fingerprint) : Except AdmissionError NoveltyFilter := do
  policy.validate.mapError .invalidPolicy
  if fingerprints.length ≠ policy.fingerprints then
    throw (.invalidPolicy (.vectorCount fingerprints.length policy.fingerprints))
  match fingerprints.find? (fun fingerprint => fingerprint.values.length ≠ slots) with
  | some other => throw (.invalidPolicy (.vectorLength other.values.length slots))
  | none => return ⟨slots, policy, table, fingerprints, 0, 0⟩

/-- The key that vectors are drawn with: the seed's key, or a fresh one without a seed. -/
def drawKey (policy : Policy) (fresh : ChaCha.Key) : ChaCha.Key :=
  match policy.seed with
  | some seed => .ofSeed seed
  | none => fresh

/-- A filter over vectors that are drawn. The fresh key is used only without a seed. -/
def draw (slots : Nat) (policy : Policy) (table : OperatorTable) (fresh : ChaCha.Key) :
    Except AdmissionError NoveltyFilter := do
  policy.validate.mapError .invalidPolicy
  let vectors := ChaCha.vectors (drawKey policy fresh) policy.fingerprints slots
  ofFingerprints slots policy table (vectors.map .ofValues)

/-- Show a candidate to one fingerprint after another and count those to which it is new. -/
def observeAll (table : OperatorTable) (digits : Nat) (f : Formula) :
    List Fingerprint → Except FormulaError Nat × List Fingerprint
  | [] => (.ok 0, [])
  | fingerprint :: rest =>
    match fingerprint.observe table digits f with
    | (.error error, fingerprint) => (.error error, fingerprint :: rest)
    | (.ok new, fingerprint) =>
      match observeAll table digits f rest with
      | (.error error, rest) => (.error error, fingerprint :: rest)
      | (.ok votes, rest) => (.ok (if new then votes + 1 else votes), fingerprint :: rest)

/-- Offer a candidate; the answer is whether it is admitted. -/
def offer (filter : NoveltyFilter) (f : Formula) : Except AdmissionError Bool × NoveltyFilter :=
  if f.size ≠ filter.slots then (.error (.wrongSize filter.slots f.size), filter)
  else
    match observeAll filter.table filter.policy.digits f filter.fingerprints with
    | (.error error, fingerprints) =>
      (.error (.evaluation error), { filter with fingerprints := fingerprints })
    | (.ok votes, fingerprints) =>
      let admitted := decide (filter.policy.threshold ≤ votes)
      (.ok admitted, { filter with
        fingerprints := fingerprints
        offered := filter.offered + 1
        admitted := if admitted then filter.admitted + 1 else filter.admitted })

end NoveltyFilter

end Formulary
