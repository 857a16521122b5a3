/-!
# Bit lengths

How many binary digits a number needs, and how many numbers a field of binary digits holds. The
widths of operator codes and of permutation ranks are bit lengths of the largest number that has
to be stored, and the lemmas below say that this many bits are enough.
-/

namespace Formulary

/-- The number of values of a field of `bits` bits: two to the power `bits`. -/
def capacity (bits : Nat) : Nat :=
  Nat.pow 2 bits

/-- The number of binary digits of `n`; zero has none. -/
def bitLength (n : Nat) : Nat :=
  if n = 0 then 0 else n.log2 + 1

/-- No bits hold the number zero alone. -/
@[simp] theorem capacity_zero : capacity 0 = 1 := rfl

/-- There is always a number that fits. -/
theorem capacity_pos (bits : Nat) : 0 < capacity bits :=
  Nat.pow_pos (by decide)

/-- A wider field has no fewer values. -/
theorem capacity_le_capacity {a b : Nat} (h : a ≤ b) : capacity a ≤ capacity b :=
  Nat.pow_le_pow_right (by decide) h

/-- Zero needs no bits. -/
@[simp] theorem bitLength_zero : bitLength 0 = 0 := rfl

/-- Every number fits into its bit length. -/
theorem lt_capacity_bitLength (n : Nat) : n < capacity (bitLength n) := by
  unfold bitLength
  split
  · rename_i h
    simp [h]
  · exact Nat.lt_log2_self

/-- Codes below `n` fit into the bit length of the largest of them. -/
theorem le_capacity_bitLength_pred (n : Nat) : n ≤ capacity (bitLength (n - 1)) := by
  have h := lt_capacity_bitLength (n - 1)
  omega

end Formulary
