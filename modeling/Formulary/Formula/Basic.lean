import Formulary.Operator

/-!
# Formulas in postfix form

A formula combines slots, numbered from zero, with operators of a table. It is kept as three
lists: the slots in the order of their use, the operator codes in the order of their application,
and the shape, a postfix program in which `true` pushes the next slot and `false` pops two
entries and applies the next code.

A formula over `m` slots is valid if it uses each slot below `m` once, has `m - 1` codes and
`2 m - 1` shape entries, and its shape never pops from fewer than two entries and ends with
exactly one. Combining and relabelling do not check any of this: they splice and rename.
-/

namespace Formulary

/-- A formula over numbered slots as a postfix program. -/
structure Formula where
  slots : List UInt8
  codes : List UInt8
  shape : List Bool
deriving DecidableEq

/-- What can be wrong with a formula or with its evaluation. -/
inductive FormulaError where
  | empty
  | mismatchedLengths (slots codes shape : Nat)
  | notAPermutation (slots : List UInt8)
  | malformedShape (position : Nat)
  | stackUnderflow (position : Nat)
  | missingValue (slot : UInt8) (available : Nat)
  | relabelOutOfRange (slot : UInt8) (length : Nat)
  | operator (error : OperatorError)
deriving DecidableEq

/-- A list of slots in brackets, separated by commas. -/
def showSlots (slots : List UInt8) : String :=
  "[" ++ ", ".intercalate (slots.map fun s => toString s.toNat) ++ "]"

/-- The text shown for a formula error. -/
def FormulaError.message : FormulaError → String
  | .empty => "Expression must use at least one value"
  | .mismatchedLengths slots codes shape =>
    s!"Expression uses {slots} values but has {codes} operations and {shape} shape entries"
  | .notAPermutation slots => s!"Value order {showSlots slots} is not a permutation"
  | .malformedShape position =>
    s!"Shape is not a valid postfix program (at position {position})"
  | .stackUnderflow position => s!"Stack underflow at position {position} while evaluating"
  | .missingValue slot available =>
    s!"Slot {slot.toNat} has no value ({available} values supplied)"
  | .relabelOutOfRange slot length =>
    s!"Relabelling slot {slot.toNat} needs a mapping longer than {length}"
  | .operator error => error.message

namespace Formula

/-- The most slots a valid formula may have. -/
def maxSlots : Nat := 255

/-- The number of slots a formula uses. -/
def size (f : Formula) : Nat :=
  f.slots.length

/-- The formula that is slot zero alone. -/
def operand : Formula :=
  ⟨[0], [], [true]⟩

/-- `left right op`: splice two formulas under one operator. -/
def combine (left right : Formula) (code : UInt8) : Formula :=
  ⟨left.slots ++ right.slots, left.codes ++ right.codes ++ [code],
    left.shape ++ right.shape ++ [false]⟩

/-- Rename one slot by position in a mapping. -/
def relabelSlot (mapping : List UInt8) (slot : UInt8) : Except FormulaError UInt8 :=
  match mapping[slot.toNat]? with
  | some target => .ok target
  | none => .error (.relabelOutOfRange slot mapping.length)

/-- Rename every slot `s` to `mapping[s]`; the first slot without an entry is an error. -/
def relabel (f : Formula) (mapping : List UInt8) : Except FormulaError Formula := do
  let slots ← f.slots.mapM (relabelSlot mapping)
  return { f with slots := slots }

/-- Follow the stack depth through a shape: every pop needs two entries, and one entry must be
left at the end. `position` counts the entries already read. -/
def checkShape (position depth : Nat) : List Bool → Except FormulaError Unit
  | [] => if depth = 1 then .ok () else .error (.malformedShape position)
  | true :: rest => checkShape (position + 1) (depth + 1) rest
  | false :: rest =>
    if depth < 2 then .error (.malformedShape position)
    else checkShape (position + 1) (depth - 1) rest

/-- Whether a list holds each slot below its length exactly once. -/
def isPermutation (slots : List UInt8) : Bool :=
  slots.all (fun s => s.toNat < slots.length) && decide slots.Nodup

/-- The first rule of validity that a formula breaks. -/
def validate (f : Formula) : Except FormulaError Unit :=
  let m := f.size
  if m = 0 then .error .empty
  else if maxSlots < m ∨ f.codes.length ≠ m - 1 ∨ f.shape.length ≠ 2 * m - 1 then
    .error (.mismatchedLengths m f.codes.length f.shape.length)
  else if !isPermutation f.slots then .error (.notAPermutation f.slots)
  else checkShape 0 0 f.shape

/-- A formula from its three lists, if they make a valid one. -/
def ofParts (slots codes : List UInt8) (shape : List Bool) : Except FormulaError Formula := do
  let f : Formula := ⟨slots, codes, shape⟩
  f.validate
  return f

/-- The slot alone is a formula over one slot. -/
@[simp] theorem size_operand : operand.size = 1 := rfl

/-- A combination has the slots of both operands. -/
@[simp] theorem size_combine (left right : Formula) (code : UInt8) :
    (combine left right code).size = left.size + right.size := by
  simp [size, combine]

end Formula

end Formulary
