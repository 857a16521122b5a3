import Mathlib.Tactic.Common
import Formulary.Record.Packed

/-!
# Packed arrays bit by bit

The bits of an array of words are numbered from the least significant bit of the first word on.
Reading a record copies a stretch of these bits, whether it lies in one word or straddles two, and
writing a record replaces that stretch and no other bit.
-/

namespace Formulary.Record

/-- A bit of a word; there are none from the width of a word on. -/
def wordBit (word : UInt64) (position : ℕ) : Bool :=
  word.toNat.testBit position

/-- Behind its last bit a word has none. -/
theorem wordBit_of_le (word : UInt64) {position : ℕ} (h : wordBits ≤ position) :
    wordBit word position = false :=
  Nat.testBit_lt_two_pow (Nat.lt_of_lt_of_le word.toNat_lt (Nat.pow_le_pow_right (by decide) h))

/-- Words with the same bits are the same. -/
theorem eq_of_wordBit {word other : UInt64}
    (h : ∀ position, wordBit word position = wordBit other position) : word = other :=
  UInt64.toNat_inj.mp (Nat.eq_of_testBit_eq h)

/-- A word is below a power of two exactly when it has no bit from there on. -/
theorem lt_capacity_iff_wordBit {word : UInt64} {bits : ℕ} :
    word.toNat < capacity bits ↔ ∀ position, bits ≤ position → wordBit word position = false := by
  constructor
  · intro h position hposition
    exact Nat.testBit_lt_two_pow (Nat.lt_of_lt_of_le h (capacity_le_capacity hposition))
  · intro h
    exact Nat.lt_pow_two_of_testBit _ h

/-- Zero has no bits. -/
@[simp] theorem wordBit_zero (position : ℕ) : wordBit 0 position = false :=
  Nat.zero_testBit position

/-- A bit of a conjunction is set in both words. -/
@[simp] theorem wordBit_and (word other : UInt64) (position : ℕ) :
    wordBit (word &&& other) position = (wordBit word position && wordBit other position) := by
  simp [wordBit]

/-- A bit of a disjunction is set in one of the words. -/
@[simp] theorem wordBit_or (word other : UInt64) (position : ℕ) :
    wordBit (word ||| other) position = (wordBit word position || wordBit other position) := by
  simp [wordBit]

/-- A bit of a complement is not set in the word. -/
@[simp] theorem wordBit_not (word : UInt64) (position : ℕ) :
    wordBit (~~~word) position = (decide (position < wordBits) && !wordBit word position) :=
  BitVec.getLsbD_not

/-- A shift amount below the width of a word is not reduced. -/
private theorem toNat_shiftAmount {bits : ℕ} (h : bits < wordBits) :
    (UInt64.ofNat bits).toNat % 64 = bits := by
  have hbits : bits < 64 := h
  rw [UInt64.toNat_ofNat']
  omega

/-- A shift to the left moves every bit up and fills in zeros. -/
@[simp] theorem wordBit_shiftLeft (word : UInt64) (bits position : ℕ) :
    wordBit (shiftLeft word bits) position =
      (decide (position < wordBits) && decide (bits ≤ position) && wordBit word (position - bits)) := by
  unfold shiftLeft
  by_cases hbits : wordBits ≤ bits
  · rw [if_pos hbits, wordBit_zero]
    by_cases hposition : position < wordBits
    · simp [Nat.not_le_of_lt (Nat.lt_of_lt_of_le hposition hbits)]
    · simp [hposition]
  · rw [if_neg hbits]
    unfold wordBit wordBits
    rw [UInt64.toNat_shiftLeft, toNat_shiftAmount (Nat.lt_of_not_le hbits),
      Nat.testBit_mod_two_pow, Nat.testBit_shiftLeft, Bool.and_assoc]

/-- A shift to the right moves every bit down. -/
@[simp] theorem wordBit_shiftRight (word : UInt64) (bits position : ℕ) :
    wordBit (shiftRight word bits) position = wordBit word (bits + position) := by
  unfold shiftRight
  by_cases hbits : wordBits ≤ bits
  · rw [if_pos hbits, wordBit_zero, wordBit_of_le word (Nat.le_add_right_of_le hbits)]
  · rw [if_neg hbits]
    unfold wordBit
    rw [UInt64.toNat_shiftRight, toNat_shiftAmount (Nat.lt_of_not_le hbits),
      Nat.testBit_shiftRight]

/-- A mask has just its lowest bits set. -/
@[simp] theorem wordBit_mask (bits position : ℕ) :
    wordBit (mask bits) position = (decide (position < wordBits) && decide (position < bits)) := by
  unfold mask
  by_cases hbits : wordBits ≤ bits
  · have hall : (0xffffffffffffffff : UInt64) = ~~~0 := by decide
    rw [if_pos hbits, hall, wordBit_not, wordBit_zero]
    by_cases hposition : position < wordBits
    · simp [hposition, Nat.lt_of_lt_of_le hposition hbits]
    · simp [hposition]
  · have hlt := Nat.lt_of_not_le hbits
    have hone : (1 <<< UInt64.ofNat bits : UInt64).toNat = 2 ^ bits := by
      rw [UInt64.toNat_shiftLeft, toNat_shiftAmount hlt, UInt64.toNat_one, Nat.one_shiftLeft]
      exact Nat.mod_eq_of_lt (Nat.pow_lt_pow_right (by decide) hlt)
    have hle : (1 : UInt64) ≤ 1 <<< UInt64.ofNat bits := by
      rw [UInt64.le_iff_toNat_le, hone]
      exact Nat.one_le_two_pow
    rw [if_neg hbits]
    unfold wordBit
    rw [UInt64.toNat_sub_of_le _ _ hle, hone, UInt64.toNat_one, Nat.testBit_two_pow_sub_one]
    by_cases hposition : position < bits
    · simp [hposition, Nat.lt_trans hposition hlt]
    · simp [hposition]

/-- A bit of an array of words; there are none behind the last word. -/
def bitAt (words : Array UInt64) (position : ℕ) : Bool :=
  wordBit (PackedRecords.wordAt words (position / wordBits)) (position % wordBits)

namespace PackedRecords

/-- The bits of a record are a stretch of the bits of the array. -/
theorem wordBit_readAt (words : Array UInt64) {width : ℕ} (hwidth : width ≤ wordBits)
    (start position : ℕ) :
    wordBit (readAt words width start) position =
      (decide (position < width) && bitAt words (start + position)) := by
  unfold readAt bitAt
  dsimp only
  by_cases hposition : position < width
  · have hlt := Nat.lt_of_lt_of_le hposition hwidth
    by_cases hlow : start % wordBits + position < wordBits
    · have hword : (start + position) / wordBits = start / wordBits := by
        unfold wordBits at *
        omega
      have hoffset : (start + position) % wordBits = start % wordBits + position := by
        unfold wordBits at *
        omega
      have hno : ¬ (wordBits - start % wordBits ≤ position) := by omega
      split
      · simp [hposition, hlt, hword, hoffset, hno]
      · simp [hposition, hlt, hword, hoffset]
    · have hword : (start + position) / wordBits = start / wordBits + 1 := by
        unfold wordBits at *
        omega
      have hoffset : (start + position) % wordBits =
          position - (wordBits - start % wordBits) := by
        unfold wordBits at *
        omega
      have hyes : wordBits - start % wordBits ≤ position := by omega
      have hnone := fun word => wordBit_of_le word (Nat.le_of_not_lt hlow)
      rw [if_pos (by omega)]
      simp [hposition, hlt, hword, hoffset, hyes, hnone]
  · simp [hposition]

/-- Changing one word leaves the others as they are. -/
theorem wordAt_modify (words : Array UInt64) (place other : ℕ) (f : UInt64 → UInt64) :
    wordAt (words.modify place f) other =
      if place = other ∧ other < words.size then f (wordAt words other) else wordAt words other := by
  unfold wordAt
  by_cases hother : other < words.size
  · have hmodified : other < (words.modify place f).size := by rwa [Array.size_modify]
    rw [Array.getElem?_eq_getElem hmodified, Array.getElem?_eq_getElem hother, Array.getElem_modify]
    by_cases hplace : place = other
    · simp [hplace, hother]
    · simp [hplace]
  · have hmodified : ¬ other < (words.modify place f).size := by rwa [Array.size_modify]
    rw [Array.getElem?_eq_none (Nat.le_of_not_lt hmodified),
      Array.getElem?_eq_none (Nat.le_of_not_lt hother)]
    simp [hother]

/-- Changing one word changes the bits of that word only. -/
theorem bitAt_modify {words : Array UInt64} {place : ℕ} (hplace : place < words.size)
    (f : UInt64 → UInt64) (position : ℕ) :
    bitAt (words.modify place f) position =
      if position / wordBits = place then wordBit (f (wordAt words place)) (position % wordBits)
      else bitAt words position := by
  unfold bitAt
  rw [wordAt_modify]
  by_cases hword : position / wordBits = place
  · rw [if_pos ⟨hword.symm, hword ▸ hplace⟩, if_pos hword, hword]
  · rw [if_neg fun h => hword h.1.symm, if_neg hword]

/-- Writing a record into the word where it begins replaces the part of it that lies there. -/
private theorem bitAt_begin {words : Array UInt64} {width start : ℕ} {value : UInt64}
    (hvalue : value.toNat < capacity width) (hplace : start / wordBits < words.size)
    (position : ℕ) :
    bitAt (words.modify (start / wordBits) fun low =>
        (low &&& ~~~(shiftLeft (mask width) (start % wordBits))) |||
          shiftLeft value (start % wordBits)) position =
      if start ≤ position ∧ position < start + width ∧ position / wordBits = start / wordBits
      then wordBit value (position - start) else bitAt words position := by
  have hnone := lt_capacity_iff_wordBit.mp hvalue
  have hoffset : position % wordBits < wordBits := Nat.mod_lt _ (by decide)
  rw [bitAt_modify hplace]
  by_cases hword : position / wordBits = start / wordBits
  · have hsame : position % wordBits - start % wordBits = position - start := by
      unfold wordBits at *
      omega
    have hle : start % wordBits ≤ position % wordBits ↔ start ≤ position := by
      unfold wordBits at *
      omega
    have hbefore : position - start < wordBits := by
      unfold wordBits at *
      omega
    rw [if_pos hword, bitAt, hword]
    by_cases hstart : start ≤ position
    · by_cases hin : position < start + width
      · have hwidth : position - start < width := by omega
        simp [hoffset, hsame, hle, hstart, hin, hbefore, hwidth]
      · have hwidth : ¬ position - start < width := by omega
        simp [hoffset, hsame, hle, hstart, hin, hwidth, hnone _ (Nat.le_of_not_lt hwidth)]
    · simp [hoffset, hle, hstart]
  · simp [hword]

/-- Writing a record into the word behind the one where it begins replaces the part of it that
lies there. -/
private theorem bitAt_runOn {words : Array UInt64} {width start : ℕ} {value : UInt64}
    (hvalue : value.toNat < capacity width) (hplace : start / wordBits + 1 < words.size)
    (position : ℕ) :
    bitAt (words.modify (start / wordBits + 1) fun high =>
        (high &&& ~~~(mask (start % wordBits + width - wordBits))) |||
          shiftRight value (wordBits - start % wordBits)) position =
      if position < start + width ∧ position / wordBits = start / wordBits + 1
      then wordBit value (position - start) else bitAt words position := by
  have hnone := lt_capacity_iff_wordBit.mp hvalue
  have hoffset : position % wordBits < wordBits := Nat.mod_lt _ (by decide)
  rw [bitAt_modify hplace]
  by_cases hword : position / wordBits = start / wordBits + 1
  · have hsame : wordBits - start % wordBits + position % wordBits = position - start := by
      unfold wordBits at *
      omega
    have hin : position % wordBits < start % wordBits + width - wordBits ↔
        position < start + width := by
      unfold wordBits at *
      omega
    rw [if_pos hword, bitAt, hword]
    by_cases hend : position < start + width
    · simp [hoffset, hsame, hin, hend]
    · simp [hoffset, hsame, hin, hend, hnone (position - start) (by omega)]
  · simp [hword]

/-- Writing a record replaces its stretch of the bits and keeps all others. -/
theorem bitAt_writeAt {words : Array UInt64} {width start : ℕ} (hpos : 0 < width)
    (hwidth : width ≤ wordBits) (hroom : start + width ≤ words.size * wordBits) {value : UInt64}
    (hvalue : value.toNat < capacity width) (position : ℕ) :
    bitAt (writeAt words width start value) position =
      if start ≤ position ∧ position < start + width then wordBit value (position - start)
      else bitAt words position := by
  have hbegin : start / wordBits < words.size := by
    unfold wordBits at *
    omega
  unfold writeAt
  dsimp only
  by_cases hruns : wordBits < start % wordBits + width
  · have hnext : start / wordBits + 1 < words.size := by
      unfold wordBits at *
      omega
    rw [if_pos hruns, bitAt_runOn hvalue (by rwa [Array.size_modify]), bitAt_begin hvalue hbegin]
    have hwords : (start ≤ position ∧ position < start + width) ↔
        (position < start + width ∧ position / wordBits = start / wordBits + 1) ∨
          (start ≤ position ∧ position < start + width ∧
            position / wordBits = start / wordBits) := by
      unfold wordBits at *
      omega
    by_cases hsecond : position < start + width ∧ position / wordBits = start / wordBits + 1
    · rw [if_pos hsecond, if_pos (hwords.mpr (Or.inl hsecond))]
    · rw [if_neg hsecond]
      by_cases hfirst : start ≤ position ∧ position < start + width ∧
          position / wordBits = start / wordBits
      · rw [if_pos hfirst, if_pos (hwords.mpr (Or.inr hfirst))]
      · rw [if_neg hfirst, if_neg fun h => (hwords.mp h).elim hsecond hfirst]
  · rw [if_neg hruns, bitAt_begin hvalue hbegin]
    have hword : (start ≤ position ∧ position < start + width) ↔ start ≤ position ∧
        position < start + width ∧ position / wordBits = start / wordBits := by
      unfold wordBits at *
      omega
    simp only [hword]

end PackedRecords

end Formulary.Record
