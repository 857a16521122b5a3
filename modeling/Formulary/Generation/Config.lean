import Formulary.Store.Filtered
import Formulary.Generation.Splits

/-!
# What to generate

The request for a set of formulas: over how many slots, admitted by which policy, and kept in
which kind of store. At most eleven slots can be asked for, since records over more would not
fit one word. Sets over fewer slots, which are made on the way, are never written to a directory.
-/

namespace Formulary

/-- A request for a set of formulas. -/
structure Request where
  slots : Nat
  policy : Policy := {}
  kind : StoreKind := .memory

/-- What can go wrong when sets are generated. -/
inductive GenerationError where
  | invalidSize (requested : Nat)
  | malformedSplit (size slots : Nat)
  | admission (error : AdmissionError)
  | store (error : StoreError)
  | formula (error : FormulaError)
  | input (error : InputError)

namespace Request

/-- The most slots a set can be asked for. -/
def maxSlots : Nat := 11

/-- The kind of store for the set over `slots` slots that is made on the way. -/
def kindFor (request : Request) (slots : Nat) : StoreKind :=
  match request.kind with
  | .external _ _ => if slots = request.slots then request.kind else .packed
  | .memory => .memory
  | .packed => .packed

/-- Refuse a size out of range and an invalid policy, in this order. -/
def validate (request : Request) : Except GenerationError Unit :=
  if request.slots = 0 ∨ maxSlots < request.slots then .error (.invalidSize request.slots)
  else request.policy.validate.mapError fun error => .admission (.invalidPolicy error)

end Request

/-- The text shown for a generation error. -/
def GenerationError.message : GenerationError → String
  | .invalidSize requested =>
    s!"Cannot generate expressions over {requested} values (supported: 1..={Request.maxSlots})"
  | .malformedSplit size slots => s!"Split size {size} is invalid for {slots} values"
  | .admission error => s!"Deduplication error: {error.message}"
  | .store error => s!"Store error: {error.message}"
  | .formula error => s!"Expression error: {error.message}"
  | .input error => s!"Utils error: {error.message}"

end Formulary
