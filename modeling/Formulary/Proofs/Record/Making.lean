import Formulary.Record.Codec
import Formulary.Proofs.Operator

/-!
# Which codecs can be made

A table has a codec for every positive number of slots whose records fit a word. Formulas over
fewer slots take no more bits, so a codec for some number of slots comes with one for every
smaller number.
-/

namespace Formulary

/-- A number has as many bits as the smallest field that holds it. -/
theorem bitLength_le_iff {n bits : ℕ} : bitLength n ≤ bits ↔ n < capacity bits := by
  constructor
  · intro h
    exact Nat.lt_of_lt_of_le (lt_capacity_bitLength n) (capacity_le_capacity h)
  · intro h
    unfold bitLength
    split
    · exact Nat.zero_le bits
    · next hne => exact (Nat.log2_lt hne).mpr h

/-- Smaller numbers have no more bits. -/
theorem bitLength_le_bitLength {a b : ℕ} (h : a ≤ b) : bitLength a ≤ bitLength b :=
  bitLength_le_iff.mpr (Nat.lt_of_le_of_lt h (lt_capacity_bitLength b))

namespace Record

/-- Records over fewer slots have no more bits. -/
theorem totalBits_le_totalBits {m n : ℕ} (h : m ≤ n) (codeBits : ℕ) :
    totalBits m codeBits ≤ totalBits n codeBits := by
  have hrank : rankBits m ≤ rankBits n :=
    bitLength_le_bitLength (Nat.sub_le_sub_right (factorial_le_factorial h) 1)
  have hoperations : operationBits m codeBits ≤ operationBits n codeBits :=
    Nat.mul_le_mul_left codeBits (Nat.sub_le_sub_right h 1)
  have hshape : shapeBits m ≤ shapeBits n :=
    Nat.sub_le_sub_right (Nat.mul_le_mul_left 2 h) 5
  exact Nat.add_le_add (Nat.add_le_add hrank hoperations) hshape

namespace Codec

variable {codec : Codec} {table : OperatorTable} {slots : ℕ}

/-- A codec is made wherever there is a slot and a record fits a word. -/
theorem make_eq_ok (hpos : 0 < slots)
    (hle : slots ≤ Permutation.maxLength) (hfits : totalBits slots table.codeBits ≤ wordBits) :
    make table slots =
      .ok ⟨⟨slots, table.codeBits, hpos, hle, hfits⟩, table.size, table.size_le_capacity_codeBits⟩ := by
  have hlayout : Layout.make slots table.codeBits = .ok ⟨slots, table.codeBits, hpos, hle, hfits⟩ := by
    unfold Layout.make
    rw [dif_pos hpos, dif_pos hle, dif_pos hfits]
  unfold make
  split
  · next error herror => cases hlayout.symm.trans herror
  · next layout hmade =>
    cases hlayout.symm.trans hmade
    rfl

/-- The codec of a table has the number of slots it was made for and the size of the table. -/
theorem eq_of_make (h : make table slots = .ok codec) :
    codec.slots = slots ∧ codec.tableSize = table.size := by
  unfold make at h
  split at h
  · cases h
  · next layout hlayout =>
    cases h
    exact ⟨(Layout.eq_of_make hlayout).1, rfl⟩

/-- The codec of a table has the code width of the table. -/
theorem codeBits_of_make (h : make table slots = .ok codec) :
    codec.layout.codeBits = table.codeBits := by
  unfold make at h
  split at h
  · cases h
  · next layout hlayout =>
    cases h
    exact (Layout.eq_of_make hlayout).2

/-- A table is small enough for its codes to be bytes. -/
theorem tableSize_le_of_make (h : make table slots = .ok codec) : codec.tableSize ≤ UInt8.size := by
  rw [(eq_of_make h).2]
  exact table.size_le

/-- A codec needs a slot, an order that can be ranked, and a word that its records fit. -/
theorem exists_make_iff : (∃ codec, make table slots = .ok codec) ↔
    0 < slots ∧ slots ≤ Permutation.maxLength ∧ totalBits slots table.codeBits ≤ wordBits := by
  constructor
  · intro h
    obtain ⟨codec, h⟩ := h
    unfold make at h
    split at h
    · cases h
    · next layout hlayout =>
      obtain ⟨rfl, hbits⟩ := Layout.eq_of_make hlayout
      rw [← hbits]
      exact ⟨layout.slots_pos, layout.slots_le, layout.fits⟩
  · intro h
    obtain ⟨hpos, hle, hfits⟩ := h
    exact ⟨_, make_eq_ok hpos hle hfits⟩

/-- A codec for some slots comes with a codec for fewer. -/
theorem exists_make_of_le {fewer : ℕ} (h : ∃ codec, make table slots = .ok codec)
    (hpos : 0 < fewer) (hle : fewer ≤ slots) : ∃ codec, make table fewer = .ok codec := by
  obtain ⟨-, hmax, hfits⟩ := exists_make_iff.mp h
  exact exists_make_iff.mpr ⟨hpos, Nat.le_trans hle hmax,
    Nat.le_trans (totalBits_le_totalBits hle _) hfits⟩

end Codec

end Record

end Formulary
