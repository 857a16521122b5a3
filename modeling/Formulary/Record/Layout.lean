import Formulary.Record.Error

/-!
# The layout of a record

A record holds one formula over a fixed number `m` of slots in at most sixty-four bits. From the
least significant bit on it holds the rank of the slot order among the `m!` permutations, the
`m - 1` operator codes, and the part of the shape that is not determined by the rest: a shape of
`2 m - 1` entries begins with two pushes, ends with a pop, and the entry before the last follows
from the number of pushes, which leaves `2 m - 5` bits.
-/

namespace Formulary.Record

/-- Bits of one storage word. -/
def wordBits : Nat := 64

/-- Bits that hold the rank of an order of `m` slots. -/
def rankBits (m : Nat) : Nat :=
  bitLength (factorial m - 1)

/-- Bits that hold the `m - 1` operator codes. -/
def operationBits (m codeBits : Nat) : Nat :=
  codeBits * (m - 1)

/-- Bits that hold the stored part of the shape. -/
def shapeBits (m : Nat) : Nat :=
  2 * m - 5

/-- Bits of a whole record. -/
def totalBits (m codeBits : Nat) : Nat :=
  rankBits m + operationBits m codeBits + shapeBits m

/-- Words that hold `records` records of `width` bits back to back. -/
def wordsFor (records width : Nat) : Nat :=
  (records * width + (wordBits - 1)) / wordBits

/-- What is left of a number of bits in one machine word. -/
def cut (bits : Nat) : Nat :=
  bits % capacity wordBits

/-- The same number of words as a machine word computes it: bits that do not fit into one are
lost. -/
def cutWordsFor (records width : Nat) : Nat :=
  (cut (records * width) + (wordBits - 1)) / wordBits

/-- A number of bits that fits a machine word is not cut. -/
theorem cut_eq_self {bits : Nat} (h : bits < capacity wordBits) : cut bits = bits :=
  Nat.mod_eq_of_lt h

/-- Nothing is lost as long as the number of bits fits into a machine word. -/
theorem cutWordsFor_eq_wordsFor {records width : Nat} (h : records * width < capacity wordBits) :
    cutWordsFor records width = wordsFor records width := by
  unfold cutWordsFor wordsFor
  rw [cut_eq_self h]

/-- The width reported for orders that are too long to be ranked, where none is computed. -/
def unboundedBits : Nat := 0xffffffff

/-- The field widths of records over `slots` slots whose operator codes have `codeBits` bits. -/
structure Layout where
  slots : Nat
  codeBits : Nat
  slots_pos : 0 < slots
  slots_le : slots ≤ Permutation.maxLength
  fits : totalBits slots codeBits ≤ wordBits

namespace Layout

/-- The layout for a number of slots, if there is one slot at least and a record fits a word. -/
def make (slots codeBits : Nat) : Except RecordError Layout :=
  if hpos : 0 < slots then
    if hle : slots ≤ Permutation.maxLength then
      if hfits : totalBits slots codeBits ≤ wordBits then
        .ok ⟨slots, codeBits, hpos, hle, hfits⟩
      else .error (.capacityExceeded slots (totalBits slots codeBits))
    else .error (.capacityExceeded slots unboundedBits)
  else .error .noValues

/-- A layout that is made has the number of slots and the code width it was asked for. -/
theorem eq_of_make {slots codeBits : Nat} {layout : Layout}
    (h : make slots codeBits = .ok layout) :
    layout.slots = slots ∧ layout.codeBits = codeBits := by
  unfold make at h
  split at h
  · split at h
    · split at h
      · cases h
        exact ⟨rfl, rfl⟩
      · cases h
    · cases h
  · cases h

/-- Bits of the rank field. -/
def rankBits (layout : Layout) : Nat :=
  Record.rankBits layout.slots

/-- Bits of the operator field. -/
def operationBits (layout : Layout) : Nat :=
  Record.operationBits layout.slots layout.codeBits

/-- Bits of the shape field. -/
def shapeBits (layout : Layout) : Nat :=
  Record.shapeBits layout.slots

/-- Bits of a whole record. -/
def width (layout : Layout) : Nat :=
  totalBits layout.slots layout.codeBits

/-- Words for `records` records back to back, as a machine word computes their number. -/
def wordsFor (layout : Layout) (records : Nat) : Nat :=
  cutWordsFor records layout.width

/-- The width is that of the three fields. -/
theorem width_eq (layout : Layout) :
    layout.width = layout.rankBits + layout.operationBits + layout.shapeBits := rfl

end Layout

/-- More records never need fewer words. -/
theorem wordsFor_le_succ (records width : Nat) :
    wordsFor records width ≤ wordsFor (records + 1) width := by
  unfold wordsFor wordBits
  rw [Nat.succ_mul]
  omega

end Formulary.Record
