import Formulary.Formula.Basic

/-!
# Ranks of permutations

The permutations of the slots `0, …, n - 1` are numbered in lexicographic order. The rank of a
permutation is a sum over its positions: the number of smaller slots still unused there, times
the number of ways to arrange what follows. Ranking and its inverse walk down the same list of
unused slots, one looking up where a slot stands, the other which slot stands at a place.

Twenty slots are the limit, since `20!` is the last factorial below `2 ^ 63`.
-/

namespace Formulary

/-- The number of arrangements of `n` things. -/
def factorial : Nat → Nat
  | 0 => 1
  | n + 1 => (n + 1) * factorial n

namespace Permutation

/-- The longest permutation that is ranked. -/
def maxLength : Nat := 20

/-- What can be wrong with a permutation or a rank. -/
inductive RankError where
  | invalidPermutation (slots : List UInt8)
  | rankOutOfRange (rank length : Nat)
deriving DecidableEq

/-- The slots `0, …, n - 1` in order. -/
def identity (n : Nat) : List UInt8 :=
  (List.range n).map UInt8.ofNat

/-- The rank among the arrangements of the unused slots; none if a slot is not unused. -/
def rankFrom (unused : List UInt8) : List UInt8 → Option Nat
  | [] => some 0
  | slot :: rest => do
    let place ← unused.idxOf? slot
    let behind ← rankFrom (unused.eraseIdx place) rest
    return place * factorial rest.length + behind

/-- The lexicographic rank of a permutation of the slots below its length. -/
def rank (slots : List UInt8) : Except RankError Nat :=
  if maxLength < slots.length then .error (.invalidPermutation slots)
  else
    match rankFrom (identity slots.length) slots with
    | some rank => .ok rank
    | none => .error (.invalidPermutation slots)

/-- The arrangement of `length` of the unused slots with the given rank. -/
def unrankFrom (unused : List UInt8) : (length rank : Nat) → Option (List UInt8)
  | 0, _ => some []
  | length + 1, rank => do
    let weight := factorial length
    let slot ← unused[rank / weight]?
    let rest ← unrankFrom (unused.eraseIdx (rank / weight)) length (rank % weight)
    return slot :: rest

/-- The permutation of the slots below `length` with the given rank. -/
def unrank (rank length : Nat) : Except RankError (List UInt8) :=
  if maxLength < length ∨ factorial length ≤ rank then .error (.rankOutOfRange rank length)
  else
    match unrankFrom (identity length) length rank with
    | some slots => .ok slots
    | none => .error (.rankOutOfRange rank length)

end Permutation

end Formulary
