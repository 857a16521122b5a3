import Formulary.Permutation

/-!
# What can go wrong with records

The errors of record layouts, of coding formulas as records, and of packed arrays of records.
-/

namespace Formulary

/-- Why a record is not the record of a formula. -/
inductive Corruption where
  | bitsAboveWidth
  | rankOutOfRange
  | unknownCode
  | unbalancedShape
  | invalidShape
deriving DecidableEq

/-- The text shown for a corruption. -/
def Corruption.message : Corruption → String
  | .bitsAboveWidth => "bits set above the record width"
  | .rankOutOfRange => "value-order rank out of range"
  | .unknownCode => "unknown operator code"
  | .unbalancedShape => "unbalanced shape"
  | .invalidShape => "invalid shape"

/-- What can be wrong with a record, a layout or a packed array. -/
inductive RecordError where
  | noValues
  | capacityExceeded (slots bits : Nat)
  | sizeMismatch (expected actual : Nat)
  | unknownOperator (code : UInt8) (tableSize : Nat)
  | rank (error : Permutation.RankError)
  | corrupt (record : UInt64) (reason : Corruption)
  | valueTooWide (value : UInt64) (width : Nat)
  | indexOutOfBounds (index length : Nat)
  | widthMismatch (expected actual : Nat)
  | wordCount (expected actual : Nat)
  | malformed (error : FormulaError)
deriving DecidableEq

/-- A number in hexadecimal digits after `0x`. -/
def showHex (n : UInt64) : String :=
  "0x" ++ String.ofList (Nat.toDigits 16 n.toNat)

/-- The text shown for a rank error. -/
def Permutation.RankError.message : Permutation.RankError → String
  | .invalidPermutation slots => s!"{showSlots slots} is not a permutation"
  | .rankOutOfRange rank length =>
    s!"Rank {rank} is out of range for permutations of {length} values"

/-- The text shown for a record error. -/
def RecordError.message : RecordError → String
  | .noValues => "Records need at least one value"
  | .capacityExceeded slots bits =>
    s!"{slots} values need {bits} bits per record, more than one 64-bit word"
  | .sizeMismatch expected actual =>
    s!"Codec is built for {expected} values, expression has {actual}"
  | .unknownOperator code tableSize =>
    s!"Operator code {code.toNat} is outside a table of {tableSize} operators"
  | .rank error => error.message
  | .corrupt record reason => s!"Record {showHex record} is corrupt: {reason.message}"
  | .valueTooWide value width => s!"Value {showHex value} does not fit in {width} bits"
  | .indexOutOfBounds index length => s!"Record index {index} out of bounds for {length} records"
  | .widthMismatch expected actual =>
    s!"Packed records are {actual} bits wide, codec expects {expected}"
  | .wordCount expected actual =>
    s!"Expected {expected} words for the packed records, got {actual}"
  | .malformed error => s!"Malformed expression: {error.message}"

end Formulary
