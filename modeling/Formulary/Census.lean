import Formulary.Permutation

/-!
# How many formulas there are

The number of formulas over `n` slots with `+ - * /` that denote different functions. A formula
is sorted by the family of its outermost operators: a sum or difference, or a product or
quotient. Its operands fall into groups, which partition the slots, and every group carries a
formula of the other family or a single slot.

For each `n` four numbers are kept. `products` and `sums` count the formulas of a family up to
sign, and `plainProducts` and `plainSums` those of them without any subtraction. Each is a sum
over the ways to write `n` as a sum of group sizes, weighted by the number of ways to distribute
the slots to groups of these sizes. A formula with a subtraction has a negative that is a formula
as well, and one without has not, so `2 (products + sums) - (plainProducts + plainSums)` counts
every function once.
-/

namespace Formulary.Census

/-- The four counts for one number of slots. -/
structure Counts where
  products : Nat
  sums : Nat
  plainProducts : Nat
  plainSums : Nat
deriving DecidableEq

/-- A single slot counts once in every family, so that it may be an operand of either. -/
def Counts.single : Counts := ⟨1, 1, 1, 1⟩

/-- The ways to write `left` as a sum of `count + 1` positive sizes in decreasing order, none
above `cap`.

The first and largest size is at least the average, and it leaves one for every other group. -/
def sizesFrom : (count left cap : Nat) → List (List Nat)
  | 0, left, _ => [[left]]
  | count + 1, left, cap =>
    let least := (left + (count + 1)) / (count + 2)
    let most := min (left - (count + 1)) cap
    (List.range' least (most + 1 - least)).flatMap fun size =>
      (sizesFrom count (left - size) size).map (size :: ·)

/-- The ways to write `n` as a sum of at least two positive sizes in decreasing order. -/
def groupSizes (n : Nat) : List (List Nat) :=
  (List.range' 2 (n - 1)).flatMap fun groups => sizesFrom (groups - 1) n n

/-- The lengths of the runs of equal numbers. -/
def runs : List Nat → List Nat
  | [] => []
  | [_] => [1]
  | a :: b :: rest =>
    match runs (b :: rest) with
    | [] => []
    | run :: others => if a = b then (run + 1) :: others else 1 :: run :: others

/-- The ways to distribute `n` slots to unlabelled groups of the given sizes. -/
def distributions (n : Nat) (sizes : List Nat) : Nat :=
  let arranged := sizes.foldl (fun ways size => ways / factorial size) (factorial n)
  (runs sizes).foldl (fun ways run => ways / factorial run) arranged

/-- The product over the groups of one of the counts for their sizes. -/
def productOver (table : Array Counts) (count : Counts → Nat) (sizes : List Nat) : Nat :=
  sizes.foldl (fun acc size => acc * ((table[size]?.map count).getD 0)) 1

/-- The ways to give each of `groups` groups one of two roles. -/
def roles (groups : Nat) : Nat :=
  Nat.pow 2 groups

/-- The formulas whose operands are groups of the given sizes. -/
def countsFor (table : Array Counts) (n : Nat) (sizes : List Nat) : Counts :=
  let ways := distributions n sizes
  let groups := sizes.length
  { products := ways * (roles groups - 1) * productOver table Counts.sums sizes
    sums := ways * roles (groups - 1) * productOver table Counts.products sizes
    plainProducts := ways * (roles groups - 1) * productOver table Counts.plainSums sizes
    plainSums := ways * productOver table Counts.plainProducts sizes }

/-- Add two counts. -/
def Counts.add (a b : Counts) : Counts :=
  ⟨a.products + b.products, a.sums + b.sums, a.plainProducts + b.plainProducts,
    a.plainSums + b.plainSums⟩

/-- The counts for `n` slots, from a table of the counts for fewer. -/
def countsOf (table : Array Counts) (n : Nat) : Counts :=
  (groupSizes n).foldl (fun total sizes => total.add (countsFor table n sizes)) ⟨0, 0, 0, 0⟩

/-- The counts for `0, …, n` slots; the entry for zero is never used. -/
def tableUpTo : Nat → Array Counts
  | 0 => #[⟨0, 0, 0, 0⟩]
  | 1 => #[⟨0, 0, 0, 0⟩, .single]
  | n + 2 =>
    let table := tableUpTo (n + 1)
    table.push (countsOf table (n + 2))

/-- The number of different formulas of which the four counts are known. -/
def Counts.total (c : Counts) : Nat :=
  2 * c.products + 2 * c.sums - (c.plainProducts + c.plainSums)

/-- The number of different formulas over `n` slots; none over no slots. -/
def count : Nat → Nat
  | 0 => 0
  | 1 => 1
  | n + 2 => (((tableUpTo (n + 2))[n + 2]?).map Counts.total).getD 0

/-- The greatest number that a machine word holds. -/
def wordMax : Nat := 0xffffffffffffffff

/-- A number, or the greatest machine word if it is more. -/
def saturate (number : Nat) : Nat :=
  min number wordMax

/-- The number of different formulas, or the greatest machine word if there are more. -/
def countSaturating (n : Nat) : Nat :=
  saturate (count n)

end Formulary.Census
