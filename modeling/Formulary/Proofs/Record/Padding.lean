import Formulary.Proofs.Record.PackedArray

/-!
# The bits behind the last record

The words of an array mostly have room for a few bits more than its records take. In an array that is
built record by record these bits are clear, because a fresh word is clear and a record is written to
its own bits only. So the words of such an array are known by its records: words with the same records
and anything behind them become the same words when what is behind is cleared.
-/

namespace Formulary.Record

namespace PackedRecords

variable {packed : PackedRecords} {value : UInt64}

/-- All bits behind the last record are clear. -/
def IsTidy (packed : PackedRecords) : Prop :=
  ∀ position, packed.length * packed.width ≤ position → bitAt packed.words position = false

/-- Without records there are no words. -/
theorem isTidy_of_empty {width : ℕ} (h : empty width = .ok packed) : packed.IsTidy := by
  unfold empty at h
  split at h
  · cases h
    intro position _
    simp [bitAt, wordAt]
  · cases h

/-- A fresh word adds no bits. -/
theorem bitAt_grow (hwhole : packed.isWhole = true) (position : ℕ) :
    bitAt packed.grow.words position = bitAt packed.words position := by
  have hsize : packed.words.size ≤ wordsFor (packed.length + 1) packed.width :=
    of_decide_eq_true hwhole ▸ wordsFor_le_succ _ _
  unfold grow
  rw [if_pos hwhole, bitAt, wordAt_resized hsize, bitAt]

/-- A record whose bits are clear moves the end. -/
theorem IsTidy.grow (h : packed.IsTidy) (hwhole : packed.isWhole = true) : packed.grow.IsTidy := by
  intro position hposition
  rw [length_grow, width_grow, Nat.succ_mul] at hposition
  rw [bitAt_grow hwhole]
  exact h position (by omega)

/-- A record that is overwritten has all its bits before the end. -/
theorem IsTidy.set (h : packed.IsTidy) (hwhole : packed.isWhole = true) (index : ℕ)
    (value : UInt64) : (packed.set index value).2.IsTidy := by
  unfold PackedRecords.set
  split_ifs with hindex hwide hzero
  · exact h
  · exact h
  · exact h
  · have hlt : index < packed.length := Nat.lt_of_not_le hindex
    have hvalue := isTooWide_eq_false_iff.mp (Bool.eq_false_iff.mpr hwide)
    intro position hposition
    change packed.length * packed.width ≤ position at hposition
    have hend : (index + 1) * packed.width ≤ packed.length * packed.width :=
      Nat.mul_le_mul_right _ hlt
    rw [Nat.succ_mul] at hend
    have hbehind : ¬ (index * packed.width ≤ position ∧
        position < index * packed.width + packed.width) := by
      omega
    change bitAt (writeAt packed.words packed.width (packed.position index) value) position = false
    rw [position_eq hwhole, bitAt_writeAt (Nat.pos_of_ne_zero hzero) packed.width_le
      (room_of_lt hwhole hlt) hvalue, if_neg hbehind]
    exact h position hposition

/-- Appending a record leaves the bits behind it clear. -/
theorem IsTidy.push (h : packed.IsTidy) (hwhole : packed.isWhole = true) (value : UInt64) :
    (packed.push value).2.IsTidy := by
  unfold PackedRecords.push
  split
  · exact h
  · exact (h.grow hwhole).set (isWhole_grow hwhole) packed.length value

/-- Appending records that fit, one after another, adds them at the end of the list. -/
theorem pushAll_eq_ok {values : List UInt64} (hwhole : packed.isWhole = true) (htidy : packed.IsTidy)
    (hvalues : ∀ value ∈ values, value.toNat < capacity packed.width) :
    ∃ after, packed.pushAll values = (.ok (), after) ∧ after.width = packed.width ∧
      after.isWhole = true ∧ after.IsTidy ∧ after.toList = packed.toList ++ values := by
  induction values generalizing packed with
  | nil => exact ⟨packed, rfl, rfl, hwhole, htidy, (List.append_nil _).symm⟩
  | cons value rest ih =>
    obtain ⟨hvalue, hrest⟩ := List.forall_mem_cons.mp hvalues
    obtain ⟨next, hpush, hwidth, hnext, hlist⟩ := push_eq_ok hwhole hvalue
    have htidyNext : next.IsTidy := by simpa [hpush] using htidy.push hwhole value
    obtain ⟨after, hpushAll, hsame, hafter, htidyAfter, hall⟩ :=
      ih hnext htidyNext (by rwa [hwidth])
    refine ⟨after, ?_, hsame.trans hwidth, hafter, htidyAfter, ?_⟩
    · rw [pushAll, hpush]
      exact hpushAll
    · rw [hall, hlist, List.append_assoc, List.singleton_append]

end PackedRecords

/-- Words with every bit from a position on cleared. -/
def clearedFrom (words : Array UInt64) (position : ℕ) : Array UInt64 :=
  words.mapIdx fun place word => word &&& mask (position - place * wordBits)

/-- Clearing bits keeps all words. -/
@[simp] theorem size_clearedFrom (words : Array UInt64) (position : ℕ) :
    (clearedFrom words position).size = words.size := by
  simp [clearedFrom]

/-- The bits before the position stay as they are. -/
theorem bitAt_clearedFrom (words : Array UInt64) (start position : ℕ) :
    bitAt (clearedFrom words start) position =
      (decide (position < start) && bitAt words position) := by
  have hword : PackedRecords.wordAt (clearedFrom words start) (position / wordBits) =
      PackedRecords.wordAt words (position / wordBits) &&&
        mask (start - position / wordBits * wordBits) := by
    unfold PackedRecords.wordAt clearedFrom
    rw [Array.getElem?_mapIdx]
    cases words[position / wordBits]? with
    | none => simp
    | some word => rfl
  have hoffset : position % wordBits < wordBits := Nat.mod_lt _ (by decide)
  have hbefore : position % wordBits < start - position / wordBits * wordBits ↔ position < start := by
    unfold wordBits
    omega
  unfold bitAt
  rw [hword, wordBit_and, wordBit_mask]
  simp only [hoffset, hbefore, decide_true, Bool.true_and, Bool.and_comm]

/-- As many words with the same bits are the same words. -/
theorem eq_of_bitAt {words others : Array UInt64} (hsize : words.size = others.size)
    (h : ∀ position, bitAt words position = bitAt others position) : words = others := by
  refine Array.ext hsize fun place hplace hother => eq_of_wordBit fun offset => ?_
  by_cases hoffset : offset < wordBits
  · have hbit := h (place * wordBits + offset)
    have hword : (place * wordBits + offset) / wordBits = place := by
      unfold wordBits at *
      omega
    have hrest : (place * wordBits + offset) % wordBits = offset := by
      unfold wordBits at *
      omega
    simpa [bitAt, hword, hrest, PackedRecords.wordAt, hplace, hother] using hbit
  · rw [wordBit_of_le _ (Nat.le_of_not_lt hoffset), wordBit_of_le _ (Nat.le_of_not_lt hoffset)]

/-- An array is tidy if its words are those of any array with the same records, with the bits behind
them cleared. -/
theorem PackedRecords.IsTidy.words_eq {packed other : PackedRecords} (h : packed.IsTidy)
    (hwhole : packed.isWhole = true) (hother : other.isWhole = true)
    (hwidth : packed.width = other.width) (hlist : packed.toList = other.toList) :
    packed.words = clearedFrom other.words (other.length * other.width) := by
  have hlength : packed.length = other.length := by
    rw [← length_toList, hlist, length_toList]
  have hsize : packed.words.size = other.words.size := by
    rw [of_decide_eq_true hwhole, of_decide_eq_true hother, hlength, hwidth]
  refine eq_of_bitAt (by rw [hsize, size_clearedFrom]) fun position => ?_
  rw [bitAt_clearedFrom]
  by_cases hposition : position < other.length * other.width
  · have hpos : 0 < other.width := Nat.pos_of_ne_zero fun hzero => by simp [hzero] at hposition
    have hindex : position / other.width < other.length := Nat.div_lt_of_lt_mul (by rwa [Nat.mul_comm])
    have hrecord : packed.recordAt (position / other.width) =
        other.recordAt (position / other.width) := by
      have hentry := congrArg (·[position / other.width]?) hlist
      simpa [toList_eq_map_recordAt, hlength, hindex] using hentry
    have hbit := congrArg (wordBit · (position % other.width)) hrecord
    have hoffset : position % other.width < other.width := Nat.mod_lt _ hpos
    have hplace : position / other.width * other.width + position % other.width = position := by
      rw [Nat.mul_comm]
      exact Nat.div_add_mod _ _
    simpa [wordBit_recordAt, position_eq hwhole, position_eq hother, hwidth, hoffset, hplace,
      hposition] using hbit
  · rw [h position (by rw [hlength, hwidth]; exact Nat.le_of_not_lt hposition)]
    simp [hposition]

end Formulary.Record
