import Formulary.Subsets

/-!
# Splitting the slots in two

Formulas over `m` slots are put together from formulas over the two parts of a split of the
slots. Every unordered split is visited once: the larger part is named first, and of two equal
parts the one with slot zero.
-/

namespace Formulary

/-- The sizes of the larger part, from `m - 1` down to half of `m` rounded up. -/
def splitSizes (m : Nat) : List Nat :=
  let lower := if m % 2 = 0 then m / 2 - 1 else m / 2
  (List.range' (lower + 1) (m - (lower + 1))).reverse

/-- Whether a split leaves both parts with a slot. -/
def isProperSplit (size m : Nat) : Bool :=
  0 < size && size < m

/-- Whether a subset stands for its split: of equal parts only the one with slot zero does. -/
def standsForSplit (size m : Nat) (subset : List UInt8) : Bool :=
  2 * size ≠ m || subset.head? = some 0

/-- The number of subsets of a size that stand for their split. -/
def splitCount (m size : Nat) : Nat :=
  if 2 * size = m then binomial m size / 2 else binomial m size

/-- Both parts of a split, each in order. -/
structure Split where
  left : List UInt8
  right : List UInt8
deriving DecidableEq

/-- The splits of `m` slots whose larger part has the given size. -/
def splitsOfSize (m size : Nat) : Except InputError (List Split) := do
  let subsets ← subsetsOf m size
  return (subsets.filter (standsForSplit size m)).map fun subset =>
    ⟨subset, complement subset m⟩

end Formulary
