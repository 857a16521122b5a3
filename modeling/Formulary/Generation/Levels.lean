import Formulary.Generation.Config
import Formulary.Generation.Candidates
import Formulary.Census

/-!
# Generating sets of formulas level by level

The set over one slot is the slot itself. The set over `m` slots is made of the sets over fewer:
for every split of the slots the formulas over both parts are put on their slots, combined, and
offered to a filter that admits what is new. Splits with a larger first part come first, and
within one size the parts come in lexicographic order.

Without a seed each level takes its fingerprint vectors from a key of its own, which the caller
supplies.
-/

namespace Formulary

/-- A fresh key for each level, for policies without a seed. -/
abbrev Entropy := Nat → ChaCha.Key

/-- The sets made so far: entry `k` holds the formulas over `k + 1` slots. -/
abbrev Levels := List (Store WordFiles)

namespace Generation

/-- Offer all candidates of one split. -/
def offerSplit (table : OperatorTable) (lefts rights : List Formula)
    (set : FilteredStore WordFiles) (split : Split) :
    Except GenerationError (FilteredStore WordFiles) := do
  let lefts ← (transplant lefts split.left).mapError .formula
  let rights ← (transplant rights split.right).mapError .formula
  (set.offerAll (products table lefts rights)).mapError .store

/-- Offer all candidates over `m` slots whose larger part has the given size. -/
def offerSize (table : OperatorTable) (levels : Levels) (m : Nat)
    (set : FilteredStore WordFiles) (size : Nat) :
    Except GenerationError (FilteredStore WordFiles) := do
  if !isProperSplit size m then
    throw (.malformedSplit size m)
  match levels[size - 1]?, levels[m - size - 1]? with
  | some left, some right =>
    let lefts ← left.toList.mapError .store
    let rights ← right.toList.mapError .store
    if maxSubsetTotal < m then
      throw (.malformedSplit size m)
    let splits ← (splitsOfSize m size).mapError .input
    splits.foldlM (offerSplit table lefts rights) set
  | _, _ => throw (.malformedSplit size m)

/-- The store over `m` slots with its filter, before anything is offered. -/
def startLevel (request : Request) (table : OperatorTable) (fresh : ChaCha.Key) (m : Nat) :
    Except GenerationError (FilteredStore WordFiles) := do
  let store ← ((request.kindFor m).build table m).mapError .store
  let filter ← (NoveltyFilter.draw m request.policy table fresh).mapError .admission
  (FilteredStore.make store filter).mapError .store

/-- The set over `m` slots with its filter, after everything was offered. -/
def fillLevel (request : Request) (table : OperatorTable) (fresh : ChaCha.Key)
    (levels : Levels) (m : Nat) : Except GenerationError (FilteredStore WordFiles) := do
  let set ← startLevel request table fresh m
  if m = 1 then
    (set.offerAll [Formula.operand]).mapError .store
  else
    (splitSizes m).foldlM (offerSize table levels m) set

/-- A warning if a level holds more formulas than there are different ones. The number of
different ones is known for the arithmetic operators only. -/
def excessWarnings (request : Request) (table : OperatorTable)
    (set : FilteredStore WordFiles) : List Warning :=
  let m := set.store.slots
  let bound := Census.countSaturating m
  if 1 < m && table.isArithmetic && bound < set.store.length then
    [.tooMany m set.store.length bound request.policy.digits]
  else []

/-- The finished set over `m` slots, from the sets over fewer. -/
def makeLevel (request : Request) (table : OperatorTable) (fresh : ChaCha.Key)
    (levels : Levels) (m : Nat) :
    Except GenerationError (Store WordFiles) × List Warning :=
  match fillLevel request table fresh levels m with
  | .error error => (.error error, [])
  | .ok set =>
    let warnings := excessWarnings request table set
    match set.finish with
    | (.error error, _) => (.error (.store error), warnings)
    | (.ok (), store) => (.ok store, warnings)

/-- The sets over `1, …, m` slots. -/
def levelsUpTo (entropy : Entropy) (request : Request) (table : OperatorTable) :
    Nat → Except GenerationError Levels × List Warning
  | 0 => (.ok [], [])
  | m + 1 =>
    match levelsUpTo entropy request table m with
    | (.error error, warnings) => (.error error, warnings)
    | (.ok levels, warnings) =>
      match makeLevel request table (entropy (m + 1)) levels (m + 1) with
      | (.error error, more) => (.error error, warnings ++ more)
      | (.ok level, more) => (.ok (levels ++ [level]), warnings ++ more)

end Generation

/-- The sets over every number of slots up to the requested one. -/
def generateLevels (entropy : Entropy) (request : Request) (table : OperatorTable) :
    Except GenerationError Levels × List Warning :=
  match request.validate with
  | .error error => (.error error, [])
  | .ok () => Generation.levelsUpTo entropy request table request.slots

/-- The set over the requested number of slots. -/
def generate (entropy : Entropy) (request : Request) (table : OperatorTable) :
    Except GenerationError (Store WordFiles) × List Warning :=
  match generateLevels entropy request table with
  | (.error error, warnings) => (.error error, warnings)
  | (.ok levels, warnings) =>
    match levels.getLast? with
    | some level => (.ok level, warnings)
    | none => (.error (.invalidSize request.slots), warnings)

end Formulary
