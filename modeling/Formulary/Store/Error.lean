import Formulary.Admission.Filter
import Formulary.Record.Packed

/-!
# What can go wrong with stores

The errors of stores of formulas and of the places that keep their words, and the warnings that
accompany answers which are not errors.
-/

namespace Formulary

/-- Why stored words are not a stored set of formulas. -/
inductive StoreCorruption where
  | emptySet (slots : Nat)
  | records (error : RecordError)
  | recordWidth (actual expected : Nat)
  | partialWord (path : String) (bytes : Nat)
deriving DecidableEq

/-- The text shown for a corruption. -/
def StoreCorruption.message : StoreCorruption → String
  | .emptySet slots => s!"stored set over {slots} values is empty"
  | .records error => error.message
  | .recordWidth actual expected => s!"records are {actual} bits wide, expected {expected}"
  | .partialWord path bytes => s!"{path} holds {bytes} bytes, not a whole number of words"

/-- What can go wrong with a store. -/
inductive StoreError where
  | inputOutput
  | missing (place : String)
  | corrupt (reason : StoreCorruption)
  | wrongSize (expected actual : Nat)
  | indexOutOfBounds (index length : Nat)
  | record (error : RecordError)
  | admission (error : AdmissionError)
deriving DecidableEq

namespace StoreError

/-- The text shown for a store error. -/
def message : StoreError → String
  | .inputOutput => "I/O error"
  | .missing place => s!"No stored expressions at {place}"
  | .corrupt reason => s!"Stored expressions are corrupt: {reason.message}"
  | .wrongSize expected actual =>
    s!"Store holds expressions over {expected} values, got one over {actual}"
  | .indexOutOfBounds index length => s!"Index {index} out of bounds for {length} expressions"
  | .record error => s!"Codec error: {error.message}"
  | .admission error => s!"Deduplication error: {error.message}"

/-- Whether writing the set anew would mend the error. -/
def isRecoverable : StoreError → Bool
  | .inputOutput | .missing _ | .corrupt _ | .record _ => true
  | .wrongSize _ _ | .indexOutOfBounds _ _ | .admission _ => false

end StoreError

/-- What is worth telling although an answer was found. -/
inductive Warning where
  | staleFiles (count : Nat) (directory path : String)
  | unusable (slots : Nat) (error : StoreError)
  | tooMany (slots admitted bound digits : Nat)
  | noMatch
deriving DecidableEq

/-- The text of a warning. -/
def Warning.message : Warning → String
  | .staleFiles count directory path =>
    s!"Found {count} stale expression files in {directory}, using {path}"
  | .unusable slots error =>
    s!"Stored expressions over {slots} values are unusable ({error.message}), regenerating"
  | .tooMany slots admitted bound digits =>
    s!"{slots} values: admitted {admitted} expressions but only {bound} are distinct; " ++
      s!"rounding to {digits} digits may be too fine"
  | .noMatch => "No matching expression found"

end Formulary
