import Formulary.Search.Index

/-!
# Error lines

A search that fails is reported in one line. It says what was being done and then gives the
messages of the error and of all errors inside it, from the outermost to the innermost. The
message of an error repeats the message of the error inside it, so the innermost message comes
last and once for every error around it.
-/

namespace Formulary

/-- The message of a formula error; an operator error inside it speaks for itself. -/
def FormulaError.trail (error : FormulaError) : List String :=
  [error.message]

/-- The message of an input error. -/
def InputError.trail (error : InputError) : List String :=
  [error.message]

/-- The messages of a record error, outermost first. -/
def RecordError.trail (error : RecordError) : List String :=
  error.message ::
    match error with
    | .malformed inner => inner.trail
    | _ => []

/-- The messages of an admission error, outermost first. -/
def AdmissionError.trail (error : AdmissionError) : List String :=
  error.message ::
    match error with
    | .evaluation inner => inner.trail
    | _ => []

/-- The messages of a store error, outermost first. -/
def StoreError.trail (error : StoreError) : List String :=
  error.message ::
    match error with
    | .record inner => inner.trail
    | .admission inner => inner.trail
    | _ => []

/-- The messages of a generation error, outermost first. -/
def GenerationError.trail (error : GenerationError) : List String :=
  error.message ::
    match error with
    | .admission inner => inner.trail
    | .store inner => inner.trail
    | .formula inner => inner.trail
    | .input inner => inner.trail
    | .invalidSize _ | .malformedSplit _ _ => []

/-- The messages of a search error, outermost first. -/
def SearchError.trail (error : SearchError) : List String :=
  error.message ::
    match error with
    | .formula inner => inner.trail
    | .input inner => inner.trail
    | .store inner => inner.trail
    | .generation inner => inner.trail
    | .invalidTarget _ => []

namespace Command

/-- Why a search that was asked for has no answer. -/
inductive Failure where
  | invalidValues (error : InputError)
  | invalidPolicy (error : PolicyError)
  | noCacheDirectory
  | index (error : SearchError)
  | search (error : SearchError)

/-- What was being done, and the messages of the error on it. -/
def Failure.trail : Failure → List String
  | .invalidValues error => "Invalid values" :: error.trail
  | .invalidPolicy error =>
    "Invalid admission policy" :: (AdmissionError.invalidPolicy error).trail
  | .noCacheDirectory => ["--store external requires --cache-dir"]
  | .index error => "Failed to build the expression index" :: error.trail
  | .search error => "Search failed" :: error.trail

/-- The line that reports a failure. -/
def Failure.line (failure : Failure) : String :=
  "Error: " ++ ": ".intercalate failure.trail

end Command

end Formulary
