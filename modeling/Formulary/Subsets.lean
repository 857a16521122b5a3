import Formulary.Values

/-!
# Subsets of the slots

The subsets of a fixed size of the slots `0, …, total - 1`, each as an increasing list, in
lexicographic order. A `Subsets` holds only the subset that comes next, so copying it copies the
rest of the sequence. The successor of a subset moves the rightmost slot that can still move and
packs the slots after it right behind.
-/

namespace Formulary

/-- The most slots a subset may be taken from: slot numbers are bytes. -/
def maxSubsetTotal : Nat := 255

/-- A position in the sequence of subsets: the subset that comes next, if any is left. -/
structure Subsets where
  total : Nat
  upcoming : Option (List UInt8)
deriving DecidableEq

namespace Subsets

/-- Consecutive slots from `first` on. -/
def consecutive (first : UInt8) : Nat → List UInt8
  | 0 => []
  | count + 1 => first :: consecutive (first + 1) count

/-- The lexicographically next subset of the same size.

A slot can move if, after its move, the slots behind it still fit below `total`. -/
def successor (total : Nat) : List UInt8 → Option (List UInt8)
  | [] => none
  | slot :: rest =>
    match successor total rest with
    | some rest => some (slot :: rest)
    | none =>
      if slot.toNat + rest.length + 1 < total then
        some (consecutive (slot + 1) (rest.length + 1))
      else none

/-- The sequence of all subsets with `size` of `total` slots, from its beginning. -/
def start (total size : Nat) : Except InputError Subsets :=
  if maxSubsetTotal < total ∨ total < size then .error (.invalidCombination total size)
  else .ok ⟨total, some (consecutive 0 size)⟩

/-- The next subset and the position after it. -/
def next (s : Subsets) : Option (List UInt8) × Subsets :=
  (s.upcoming, { s with upcoming := s.upcoming.bind (successor s.total) })

/-- The next subsets, at most `count` of them. -/
def take (s : Subsets) : Nat → List (List UInt8)
  | 0 => []
  | count + 1 =>
    match s.next with
    | (some subset, rest) => subset :: rest.take count
    | (none, _) => []

/-- The position after `count` subsets. -/
def drop (s : Subsets) : Nat → Subsets
  | 0 => s
  | count + 1 => s.next.2.drop count

/-- There are as many slots in a row as were asked for. -/
@[simp] theorem length_consecutive (first : UInt8) (count : Nat) :
    (consecutive first count).length = count := by
  induction count generalizing first with
  | zero => rfl
  | succ count ih => simp [consecutive, ih]

/-- The successor of a subset has the same size. -/
theorem length_successor {total : Nat} {subset after : List UInt8}
    (h : successor total subset = some after) : after.length = subset.length := by
  induction subset generalizing after with
  | nil => simp [successor] at h
  | cons slot rest ih =>
    unfold successor at h
    split at h
    · rename_i moved hmoved
      cases h
      simp [ih hmoved]
    · split at h
      · cases h
        simp
      · cases h

end Subsets

/-- The number of subsets with `size` of `total` slots, multiplying and dividing in turn. -/
def binomial (total size : Nat) : Nat :=
  if total < size then 0
  else
    let size := min size (total - size)
    (List.range size).foldl (fun acc i => acc * (total - i) / (i + 1)) 1

/-- The first `total` slots in order. -/
def slotsBelow (total : Nat) : List UInt8 :=
  (List.range total).map UInt8.ofNat

/-- The slots below `total` that a subset leaves out, in order. -/
def complement (subset : List UInt8) (total : Nat) : List UInt8 :=
  (slotsBelow total).filter fun slot => !subset.contains slot

/-- Every subset with `size` of `total` slots, in lexicographic order. -/
def subsetsOf (total size : Nat) : Except InputError (List (List UInt8)) := do
  let subsets ← Subsets.start total size
  return subsets.take (binomial total size)

end Formulary
