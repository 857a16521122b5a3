import Formulary.Record.Layout

/-!
# Coding formulas as records

A codec turns valid formulas over a fixed number of slots, with codes of a table of known size,
into numbers of a fixed width, and back. The three fields of a record are written side by side:
the rank in the lowest bits, the codes above it, and the shape on top. Decoding refuses every
number that is not the record of a valid formula.
-/

namespace Formulary.Record

/-- Encoder and decoder for formulas over a fixed number of slots. -/
structure Codec where
  layout : Layout
  tableSize : Nat
  tableSize_le : tableSize ≤ capacity layout.codeBits

/-- A number from digits of `bits` bits each, least significant first. -/
def ofDigits (bits : Nat) : List Nat → Nat
  | [] => 0
  | digit :: rest => digit + capacity bits * ofDigits bits rest

/-- The `count` lowest digits of `bits` bits each, least significant first. -/
def toDigits (bits : Nat) : (count : Nat) → Nat → List Nat
  | 0, _ => []
  | count + 1, n => n % capacity bits :: toDigits bits count (n / capacity bits)

/-- The shape entries that are stored: all but the first two and the last two. -/
def storedShape (shape : List Bool) : List Bool :=
  (shape.drop 2).take (shape.length - 4)

/-- The whole shape over `m ≥ 2` slots from its stored entries, if the number of pushes can be
brought to `m` by the entry before the last. -/
def expandShape (m : Nat) (stored : List Bool) : Option (List Bool) :=
  if m < 3 then some ([true, true] ++ stored ++ [false])
  else
    let pushes := stored.count true
    if pushes = m - 2 then some ([true, true] ++ stored ++ [false, false])
    else if pushes + 1 = m - 2 then some ([true, true] ++ stored ++ [true, false])
    else none

/-- A bit as a number. -/
def bit (b : Bool) : Nat :=
  if b then 1 else 0

namespace Codec

/-- The codec for formulas over `slots` slots with the codes of a table. -/
def make (table : OperatorTable) (slots : Nat) : Except RecordError Codec :=
  match h : Layout.make slots table.codeBits with
  | .error error => .error error
  | .ok layout =>
    .ok ⟨layout, table.size, by
      rw [(Layout.eq_of_make h).2]
      exact table.size_le_capacity_codeBits⟩

/-- The number of slots of the codec's formulas. -/
def slots (codec : Codec) : Nat :=
  codec.layout.slots

/-- The width of the codec's records in bits. -/
def width (codec : Codec) : Nat :=
  codec.layout.width

/-- The number that a record's three fields make. -/
def assemble (layout : Layout) (rank operations shape : Nat) : Nat :=
  rank + capacity layout.rankBits * (operations + capacity layout.operationBits * shape)

/-- The record of a formula. Its size is checked first, then its validity, then its codes. -/
def encode (codec : Codec) (f : Formula) : Except RecordError UInt64 := do
  if f.size ≠ codec.slots then
    throw (.sizeMismatch codec.slots f.size)
  f.validate.mapError .malformed
  let rank ← (Permutation.rank f.slots).mapError .rank
  match f.codes.find? (fun code => codec.tableSize ≤ code.toNat) with
  | some code => throw (.unknownOperator code codec.tableSize)
  | none =>
    let operations := ofDigits codec.layout.codeBits (f.codes.map UInt8.toNat)
    let shape := ofDigits 1 ((storedShape f.shape).map bit)
    return UInt64.ofNat (assemble codec.layout rank operations shape)

/-- The formula of a record, or why there is none. -/
def decode (codec : Codec) (record : UInt64) : Except RecordError Formula := do
  let layout := codec.layout
  let m := layout.slots
  let corrupt (reason : Corruption) : RecordError := .corrupt record reason
  let number := record.toNat
  if number / capacity layout.width ≠ 0 then
    throw (corrupt .bitsAboveWidth)
  if m = 1 then
    return Formula.operand
  let slots ← (Permutation.unrank (number % capacity layout.rankBits) m).mapError
    fun _ => corrupt .rankOutOfRange
  let behindRank := number / capacity layout.rankBits
  let codes := toDigits layout.codeBits (m - 1) behindRank
  if codes.any (fun code => codec.tableSize ≤ code) then
    throw (corrupt .unknownCode)
  let stored := toDigits 1 layout.shapeBits (behindRank / capacity layout.operationBits)
  match expandShape m (stored.map (· == 1)) with
  | none => throw (corrupt .unbalancedShape)
  | some shape =>
    (Formula.ofParts slots (codes.map UInt8.ofNat) shape).mapError
      fun _ => corrupt .invalidShape

end Codec

end Formulary.Record
