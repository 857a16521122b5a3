import Formulary.Proofs.Record.WordBits

/-!
# Packed arrays as lists of records

A packed array is the list of its records. If its words have room for all records, overwriting a record
replaces one element of the list, appending one adds an element at its end, and both succeed exactly
when the value fits the width of the array and, for overwriting, there is a record at the index. An
array that is built record by record always has that room.
-/

namespace Formulary.Record.PackedRecords

variable {packed : PackedRecords} {value : UInt64}

/-- The words of an array make the array again. -/
theorem ofWords_self (packed : PackedRecords) :
    ofWords packed.words packed.width packed.length = .ok packed := by
  unfold ofWords
  rw [dif_pos packed.width_le, dif_pos packed.size_words]

/-- An array that is read off words has these words, and the width and the length asked for. -/
theorem ofWords_eq_ok_iff {words : Array UInt64} {width length : ℕ} :
    ofWords words width length = .ok packed ↔
      packed.words = words ∧ packed.width = width ∧ packed.length = length := by
  constructor
  · intro h
    unfold ofWords at h
    split at h
    · split at h
      · cases h
        exact ⟨rfl, rfl, rfl⟩
      · cases h
    · cases h
  · rintro ⟨rfl, rfl, rfl⟩
    exact ofWords_self packed

/-- The words have room for all records as soon as a machine word counts the bits. -/
theorem isWhole_of_lt (h : packed.length * packed.width < capacity wordBits) :
    packed.isWhole = true := by
  exact decide_eq_true <| packed.size_words.elim
    (fun hsize => hsize.trans (cutWordsFor_eq_wordsFor h)) And.right

/-- If there is room for all records, they stand one after another. -/
theorem position_eq (h : packed.isWhole = true) (index : ℕ) :
    packed.position index = index * packed.width :=
  if_pos h

/-- The record at an index, read off the words. -/
def recordAt (packed : PackedRecords) (index : ℕ) : UInt64 :=
  readAt packed.words packed.width (packed.position index)

/-- If there is room for all records, each is read off its place in the row. -/
theorem recordAt_eq (h : packed.isWhole = true) (index : ℕ) :
    packed.recordAt index = readAt packed.words packed.width (index * packed.width) :=
  congrArg (readAt packed.words packed.width) (position_eq h index)

/-- The bits of a record are those in its place of the row, as many as the width. -/
theorem wordBit_recordAt (packed : PackedRecords) (index position : ℕ) :
    wordBit (packed.recordAt index) position =
      (decide (position < packed.width) &&
        bitAt packed.words (packed.position index + position)) :=
  wordBit_readAt packed.words packed.width_le _ _

/-- A value is too wide exactly when it exceeds the width. -/
theorem isTooWide_eq_false_iff :
    packed.isTooWide value = false ↔ value.toNat < capacity packed.width := by
  have hbits (position : ℕ) : wordBit (value &&& ~~~(mask packed.width)) position =
      (wordBit value position && !decide (position < packed.width)) := by
    by_cases hposition : position < wordBits
    · simp [hposition]
    · simp [wordBit_of_le value (Nat.le_of_not_lt hposition)]
  rw [isTooWide, bne_eq_false_iff_eq, lt_capacity_iff_wordBit]
  constructor
  · intro h position hposition
    have hbit := hbits position
    rw [h] at hbit
    simpa [Nat.not_lt_of_le hposition] using hbit.symm
  · intro h
    apply eq_of_wordBit
    intro position
    rw [hbits, wordBit_zero]
    by_cases hposition : position < packed.width
    · simp [hposition]
    · simp [h position (Nat.le_of_not_lt hposition)]

/-- Records without bits are all the same. -/
theorem recordAt_of_width_eq_zero (hzero : packed.width = 0)
    (hvalue : value.toNat < capacity packed.width) (index : ℕ) : packed.recordAt index = value := by
  apply eq_of_wordBit
  intro position
  rw [lt_capacity_iff_wordBit.mp hvalue position (by omega)]
  simp [wordBit_recordAt, hzero]

/-- Reading gives the record wherever there is one. -/
theorem get_eq_ok {index : ℕ} (h : index < packed.length) :
    packed.get index = .ok (packed.recordAt index) := by
  have hnone : (0 : UInt64).toNat < capacity packed.width := capacity_pos _
  unfold get
  rw [if_neg (Nat.not_le_of_lt h)]
  by_cases hzero : packed.width = 0
  · rw [if_pos hzero, recordAt_of_width_eq_zero hzero hnone]
  · rw [if_neg hzero]
    rfl

/-- The list of an array holds its records in order. -/
theorem toList_eq_map_recordAt (packed : PackedRecords) :
    packed.toList = (List.range packed.length).map packed.recordAt := by
  unfold toList
  apply List.map_congr_left
  intro index hindex
  rw [get_eq_ok (List.mem_range.mp hindex)]

/-- There are as many records in the list as in the array. -/
@[simp] theorem length_toList (packed : PackedRecords) : packed.toList.length = packed.length := by
  simp [toList]

/-- No record reaches behind the last word. -/
theorem room_of_lt {index : ℕ} (hwhole : packed.isWhole = true) (h : index < packed.length) :
    index * packed.width + packed.width ≤ packed.words.size * wordBits := by
  have hle : (index + 1) * packed.width ≤ packed.length * packed.width := Nat.mul_le_mul_right _ h
  rw [Nat.succ_mul] at hle
  rw [of_decide_eq_true hwhole]
  unfold wordsFor wordBits
  omega

/-- The bits of different records do not overlap. -/
private theorem outside_of_ne {index other width position : ℕ} (hne : other ≠ index)
    (hposition : position < width) : ¬ (index * width ≤ other * width + position ∧
      other * width + position < index * width + width) := by
  intro hinside
  have hlow : index * width < (other + 1) * width := by
    rw [Nat.succ_mul]
    omega
  have hhigh : other * width < (index + 1) * width := by
    rw [Nat.succ_mul]
    omega
  have hindex := Nat.lt_of_mul_lt_mul_right hlow
  have hother := Nat.lt_of_mul_lt_mul_right hhigh
  omega

/-- Overwriting a record does not change the room. -/
@[simp] theorem isWhole_overwrite (packed : PackedRecords) (index : ℕ) (value : UInt64) :
    (packed.overwrite index value).isWhole = packed.isWhole := by
  simp [isWhole, overwrite]

/-- After a record was written, it is read where it was written and nowhere else. -/
theorem recordAt_overwrite {index : ℕ} (hwhole : packed.isWhole = true) (hpos : 0 < packed.width)
    (h : index < packed.length) (hvalue : value.toNat < capacity packed.width) (other : ℕ) :
    (packed.overwrite index value).recordAt other =
      if other = index then value else packed.recordAt other := by
  have hafter : (packed.overwrite index value).isWhole = true := by rwa [isWhole_overwrite]
  rw [recordAt, position_eq hafter]
  unfold overwrite
  dsimp only
  rw [position_eq hwhole]
  apply eq_of_wordBit
  intro position
  rw [wordBit_readAt _ packed.width_le]
  by_cases hposition : position < packed.width
  · rw [bitAt_writeAt hpos packed.width_le (room_of_lt hwhole h) hvalue]
    by_cases hother : other = index
    · subst hother
      simp [hposition]
    · rw [if_neg (outside_of_ne hother hposition), if_neg hother, wordBit_recordAt,
        position_eq hwhole]
  · have hnone := lt_capacity_iff_wordBit.mp hvalue position (Nat.le_of_not_lt hposition)
    by_cases hother : other = index
    · simp [hposition, hother, hnone]
    · simp [hposition, hother, wordBit_recordAt]

/-- Overwriting a record changes that record and no other. -/
theorem set_eq_ok {index : ℕ} (hwhole : packed.isWhole = true) (h : index < packed.length)
    (hvalue : value.toNat < capacity packed.width) :
    ∃ after, packed.set index value = (.ok (), after) ∧ after.width = packed.width ∧
      after.length = packed.length ∧ after.isWhole = true ∧
        ∀ other, after.recordAt other = if other = index then value else packed.recordAt other := by
  unfold set
  rw [if_neg (Nat.not_le_of_lt h), if_neg (by simpa using isTooWide_eq_false_iff.mpr hvalue)]
  by_cases hzero : packed.width = 0
  · refine ⟨packed, if_pos hzero, rfl, rfl, hwhole, fun other => ?_⟩
    rw [recordAt_of_width_eq_zero hzero hvalue, ite_self]
  · rw [if_neg hzero]
    exact ⟨_, rfl, rfl, rfl, (isWhole_overwrite packed index value).trans hwhole,
      recordAt_overwrite hwhole (Nat.pos_of_ne_zero hzero) h hvalue⟩

/-- An array that grows keeps its width. -/
@[simp] theorem width_grow (packed : PackedRecords) : packed.grow.width = packed.width := by
  unfold grow
  split
  · rfl
  · rfl

/-- An array that grows has one record more. -/
@[simp] theorem length_grow (packed : PackedRecords) :
    packed.grow.length = packed.length + 1 := by
  unfold grow
  split
  · rfl
  · rfl

/-- An array with room for all records has room for one more when it grows. -/
theorem isWhole_grow (hwhole : packed.isWhole = true) : packed.grow.isWhole = true := by
  unfold grow
  rw [if_pos hwhole]
  exact decide_eq_true (size_resized _ _)

/-- A fresh word holds no bits. -/
theorem recordAt_grow (hwhole : packed.isWhole = true) (index : ℕ) :
    packed.grow.recordAt index = packed.recordAt index := by
  have hsize : packed.words.size ≤ wordsFor (packed.length + 1) packed.width :=
    of_decide_eq_true hwhole ▸ wordsFor_le_succ _ _
  have hwords (place : ℕ) : wordAt packed.grow.words place = wordAt packed.words place := by
    unfold grow
    rw [if_pos hwhole]
    exact wordAt_resized hsize place
  apply eq_of_wordBit
  intro position
  simp only [wordBit_recordAt, position_eq hwhole, position_eq (isWhole_grow hwhole), width_grow,
    bitAt, hwords]

/-- Appending a record that fits adds it at the end of the list. -/
theorem push_eq_ok (hwhole : packed.isWhole = true)
    (hvalue : value.toNat < capacity packed.width) :
    ∃ after, packed.push value = (.ok (), after) ∧ after.width = packed.width ∧
      after.isWhole = true ∧ after.toList = packed.toList ++ [value] := by
  have hgrown : value.toNat < capacity packed.grow.width := by rwa [width_grow]
  have hindex : packed.length < packed.grow.length := by
    rw [length_grow]
    exact Nat.lt_succ_self _
  obtain ⟨after, hset, hwidth, hlength, hafter, hrecords⟩ :=
    set_eq_ok (isWhole_grow hwhole) hindex hgrown
  refine ⟨after, ?_, hwidth.trans (width_grow packed), hafter, ?_⟩
  · unfold push
    rw [if_neg (by simpa using isTooWide_eq_false_iff.mpr hvalue), hset]
  · have hbefore : ∀ index ∈ List.range packed.length,
        after.recordAt index = packed.recordAt index := by
      intro index hmem
      rw [hrecords, if_neg (Nat.ne_of_lt (List.mem_range.mp hmem)), recordAt_grow hwhole]
    rw [toList_eq_map_recordAt, toList_eq_map_recordAt, hlength, length_grow, List.range_succ,
      List.map_append, List.map_congr_left hbefore, List.map_singleton, hrecords, if_pos rfl]

/-- The empty array lists nothing. -/
theorem toList_empty {width : ℕ} (h : empty width = .ok packed) :
    packed.width = width ∧ packed.isWhole = true ∧ packed.toList = [] := by
  unfold empty at h
  split at h
  · cases h
    exact ⟨rfl, decide_eq_true (by simp [wordsFor, wordBits]), rfl⟩
  · cases h

end Formulary.Record.PackedRecords
