import Std.Data.TreeSet
import Formulary.Formula.Rendering
import Formulary.Search.Index
import Formulary.Search.Schedule

/-!
# Searching an index

A search puts values into the slots, evaluates formulas of an index, and compares the rounded value
of each with a target. A value matches if it differs from the target by no more than a tolerance; NaN
never matches. A formula that cannot be read or evaluated ends the search with its error, unless the
search has enough solutions before.

The search for all solutions runs in any course that workers take. A flag tells them that there are
enough solutions, and a list of bounded length takes what they find. In the end it is sorted.
-/

namespace Formulary

/-- How values are compared with a target, and how many solutions are wanted. -/
structure SearchConfig where
  tolerance : Float := 1e-5
  digits : Nat := 7
  maxSolutions : Nat := 200

/-- A formula whose value matches the target. -/
structure Solution where
  position : Nat
  formula : Formula
  values : List Float
  target : Float
  value : Float
  table : OperatorTable

/-- The formula with the values in place of its slots. -/
def Solution.render (solution : Solution) : Option String :=
  solution.formula.renderWith solution.table solution.values

namespace Search

variable {β : Type}

/-- Whether two numbers differ by no more than a tolerance. -/
def isWithin (tolerance a b : Float) : Bool :=
  (a - b).abs ≤ tolerance

/-- Refuse values that do not fit the index, and then a target that is not finite. -/
def checkInputs (index : Index β) (values : List Float) (target : Float) :
    Except SearchError Unit := do
  (validateValues values index.slots).mapError .input
  if !target.isFinite then
    throw (.invalidTarget target)

/-- The formula at a position and its rounded value. -/
def valueAt (index : Index β) (config : SearchConfig) (values : List Float) (position : Nat) :
    Except SearchError (Formula × Float) := do
  let f ← (index.get position).mapError .store
  let value ← (f.evaluate index.table values config.digits).mapError .formula
  return (f, value)

/-- The solution at a position, if the formula there matches the target. -/
def solutionAt (index : Index β) (config : SearchConfig) (values : List Float) (target : Float)
    (position : Nat) : Except SearchError (Option Solution) := do
  let (f, value) ← valueAt index config values position
  return if isWithin config.tolerance value target then
    some ⟨position, f, values, target, value, index.table⟩
  else none

/-- A search for all solutions under way: what workers have found and not filed yet, with the
positions, what they have filed, and whether that is enough. -/
structure Progress where
  inHand : List (Nat × Solution)
  filed : List Solution
  full : Bool

/-- The beginning of a search. If no solutions are wanted, there are enough. -/
def Progress.start (limit : Nat) : Progress :=
  ⟨[], [], limit == 0⟩

/-- Take up a position. Nothing is probed there if there are enough solutions. A worker that does not
see yet that there are enough counts as one that takes up its position before. -/
def Progress.take (probe : Nat → Except SearchError (Option Solution)) (progress : Progress)
    (position : Nat) : Except SearchError Progress :=
  if progress.full then .ok progress
  else
    match probe position with
    | .error error => .error error
    | .ok none => .ok progress
    | .ok (some solution) =>
      .ok { progress with inHand := (position, solution) :: progress.inHand }

/-- File what was found at a position, if anything was. It is left out if there are as many solutions
as are wanted, and there are enough from when there are that many. -/
def Progress.file (limit : Nat) (progress : Progress) (position : Nat) : Progress :=
  match progress.inHand.lookup position with
  | none => progress
  | some solution =>
    let filed :=
      if progress.filed.length < limit then progress.filed ++ [solution] else progress.filed
    ⟨progress.inHand.filter (·.1 != position), filed, progress.full || limit ≤ filed.length⟩

/-- Go on with a search by one step. The first error ends it. -/
def Progress.step (probe : Nat → Except SearchError (Option Solution)) (limit : Nat)
    (progress : Progress) : Step → Except SearchError Progress
  | .take position => progress.take probe position
  | .file position => .ok (progress.file limit position)

/-- Solutions by their positions. -/
def sortByPosition (solutions : List Solution) : List Solution :=
  solutions.mergeSort fun first second => first.position ≤ second.position

/-- Solutions up to the number that is wanted, by their positions. Where more formulas match, it
depends on the course of the search which of them are filed. -/
def findAllBy (index : Index β) (schedule : Schedule index.length) (config : SearchConfig)
    (values : List Float) (target : Float) : Except SearchError (List Solution) := do
  checkInputs index values target
  let progress ← schedule.steps.foldlM
    (Progress.step (solutionAt index config values target) config.maxSolutions)
    (.start config.maxSolutions)
  return sortByPosition progress.filed

/-- The first solutions in index order, up to the number that is wanted. -/
def findAll (index : Index β) (config : SearchConfig) (values : List Float) (target : Float) :
    Except SearchError (List Solution) :=
  findAllBy index (.inOrder index.length) config values target

/-- What a probe finds first at positions in order. -/
def firstOf (probe : Nat → Except SearchError (Option Solution)) :
    List Nat → Except SearchError (Option Solution)
  | [] => .ok none
  | position :: rest =>
    match probe position with
    | .error error => .error error
    | .ok none => firstOf probe rest
    | .ok (some solution) => .ok (some solution)

/-- The solution at the lowest position, if there is one. -/
def findFirst (index : Index β) (config : SearchConfig) (values : List Float) (target : Float) :
    Except SearchError (Option Solution) := do
  checkInputs index values target
  firstOf (solutionAt index config values target) (List.range index.length)

/-- The integer that a value reaches: the nearest one, if it is within the tolerance and in the
range from `low` to `high`. Bounds and integer are compared as floating-point numbers. -/
def reachedInteger (tolerance : Float) (low high : Int) (value : Float) : Option Int :=
  let nearest := Binary.roundHalfAway value
  if value.isFinite && isWithin tolerance value nearest &&
      Float.ofInt low ≤ nearest && nearest ≤ Float.ofInt high then
    some (Binary.truncate nearest)
  else none

/-- Put the integer that the formula at a position reaches into a set. -/
def addReached (index : Index β) (config : SearchConfig) (values : List Float) (low high : Int)
    (reached : Std.TreeSet Int) (position : Nat) : Except SearchError (Std.TreeSet Int) := do
  let (_, value) ← valueAt index config values position
  return match reachedInteger config.tolerance low high value with
    | some n => reached.insert n
    | none => reached

/-- The integers from `low` to `high` that formulas of the index reach. -/
def reachableIntegers (index : Index β) (config : SearchConfig) (values : List Float)
    (low high : Int) : Except SearchError (Std.TreeSet Int) := do
  (validateValues values index.slots).mapError .input
  (List.range index.length).foldlM (addReached index config values low high) ∅

/-- The first of `count` integers from `low` on that a set lacks. -/
def firstGap (reached : Std.TreeSet Int) (low : Int) : (count : Nat) → Option Int
  | 0 => none
  | count + 1 => if reached.contains low then firstGap reached (low + 1) count else some low

/-- The first integer from `low` to `high` that no formula of the index reaches. -/
def firstUnreachable (index : Index β) (config : SearchConfig) (values : List Float)
    (low high : Int) : Except SearchError (Option Int) := do
  let reached ← reachableIntegers index config values low high
  return firstGap reached low (high - low + 1).toNat

end Search

/-- The formulas over given values with arithmetic operators that match a target: generate an
index with the standard policy and search it with the standard configuration, in a course that may
depend on the length of the index. -/
def findFormulasBy (entropy : Entropy) (schedule : (length : Nat) → Search.Schedule length)
    (values : List Float) (target : Float) : Except SearchError (List Solution) := do
  (validateValues values values.length).mapError .input
  let index ← (Index.generate entropy { slots := values.length } .arithmetic).1
  Search.findAllBy index (schedule index.length) {} values target

/-- The formulas that are found in the order of the index. -/
def findFormulas (entropy : Entropy) (values : List Float) (target : Float) :
    Except SearchError (List Solution) :=
  findFormulasBy entropy .inOrder values target

end Formulary
