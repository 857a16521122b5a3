import Formulary.Record.Codec

/-!
# Packed arrays of records

Records of one width are kept back to back in sixty-four-bit words: record `i` takes the bits
from `i * width` on, counted from the least significant bit of the first word, and may straddle
two words. The array knows its length, and its number of words is the least that holds that many
records.

When words are read as an array, a machine word computes how many there have to be, and what does
not fit into it is lost: a record count that is too large is accepted with too few words. The bit
positions of such an array are cut off in the same way, and behind the last word all bits are
clear. Words that are in memory have fewer bits than a machine word counts, so the arrays that are
built record by record hold all their records. Beyond that, where there are no words, the exact
number takes the place of the computed one.

Operations that change an array answer whether they succeeded together with the array as it is
then.
-/

namespace Formulary.Record

/-- A word with the lowest `bits` bits set. -/
def mask (bits : Nat) : UInt64 :=
  if wordBits ≤ bits then 0xffffffffffffffff else (1 <<< UInt64.ofNat bits) - 1

/-- Shift to the left; a shift by a whole word or more leaves nothing. -/
def shiftLeft (word : UInt64) (bits : Nat) : UInt64 :=
  if wordBits ≤ bits then 0 else word <<< UInt64.ofNat bits

/-- Shift to the right; a shift by a whole word or more leaves nothing. -/
def shiftRight (word : UInt64) (bits : Nat) : UInt64 :=
  if wordBits ≤ bits then 0 else word >>> UInt64.ofNat bits

/-- Whether words are as many as `length` records take. It is the number that a machine word computes.
Only words with more bits than a machine word counts, which are in no memory, are measured exactly, so
that lists of any length have an array. -/
def IsWordCount (size length width : Nat) : Prop :=
  size = cutWordsFor length width ∨
    (capacity wordBits ≤ size * wordBits ∧ size = wordsFor length width)

instance (size length width : Nat) : Decidable (IsWordCount size length width) :=
  inferInstanceAs (Decidable (_ ∨ _))

/-- Words that are in memory are as many as a machine word computes. -/
theorem isWordCount_iff_of_lt {size length width : Nat} (h : size * wordBits < capacity wordBits) :
    IsWordCount size length width ↔ size = cutWordsFor length width :=
  or_iff_left fun hlarge => Nat.not_le_of_lt h hlarge.1

/-- The cut count is a word count of every array. -/
theorem isWordCount_cutWordsFor (length width : Nat) :
    IsWordCount (cutWordsFor length width) length width :=
  Or.inl rfl

/-- The exact number of words is taken as well: where it is not the computed one, the words have more
bits than a machine word counts. -/
theorem isWordCount_wordsFor (length width : Nat) :
    IsWordCount (wordsFor length width) length width := by
  by_cases h : length * width < capacity wordBits
  · exact Or.inl (cutWordsFor_eq_wordsFor h).symm
  · refine Or.inr ⟨?_, rfl⟩
    have hroom : length * width ≤ wordsFor length width * wordBits := by
      unfold wordsFor wordBits
      omega
    omega

/-- Records of one width, back to back in words. -/
structure PackedRecords where
  words : Array UInt64
  width : Nat
  length : Nat
  width_le : width ≤ wordBits
  size_words : IsWordCount words.size length width
deriving DecidableEq

namespace PackedRecords

/-- No records, of a width of at most one word. -/
def empty (width : Nat) : Except RecordError PackedRecords :=
  if h : width ≤ wordBits then
    .ok ⟨#[], width, 0, h, Or.inl (by simp [cutWordsFor, cut, wordBits])⟩
  else .error (.capacityExceeded 0 width)

/-- Read words as an array of `length` records; there have to be as many as are computed for that
length. -/
def ofWords (words : Array UInt64) (width length : Nat) : Except RecordError PackedRecords :=
  if hwidth : width ≤ wordBits then
    if hsize : IsWordCount words.size length width then
      .ok ⟨words, width, length, hwidth, hsize⟩
    else .error (.wordCount (cutWordsFor length width) words.size)
  else .error (.capacityExceeded 0 width)

/-- Whether the words have room for all records. -/
def isWhole (packed : PackedRecords) : Bool :=
  packed.words.size = wordsFor packed.length packed.width

/-- The position of the first bit of a record. -/
def position (packed : PackedRecords) (index : Nat) : Nat :=
  if packed.isWhole then index * packed.width else cut (index * packed.width)

/-- The word at a position; behind the end all bits are clear. -/
def wordAt (words : Array UInt64) (position : Nat) : UInt64 :=
  words[position]?.getD 0

/-- Read the record at a bit position from one word or from two. -/
def readAt (words : Array UInt64) (width position : Nat) : UInt64 :=
  let word := position / wordBits
  let offset := position % wordBits
  let low := shiftRight (wordAt words word) offset
  let value :=
    if wordBits < offset + width then
      low ||| shiftLeft (wordAt words (word + 1)) (wordBits - offset)
    else low
  value &&& mask width

/-- Write a record at a bit position into one word or into two, keeping all other bits. -/
def writeAt (words : Array UInt64) (width position : Nat) (value : UInt64) : Array UInt64 :=
  let word := position / wordBits
  let offset := position % wordBits
  let words := words.modify word fun low =>
    (low &&& ~~~(shiftLeft (mask width) offset)) ||| shiftLeft value offset
  if wordBits < offset + width then
    words.modify (word + 1) fun high =>
      (high &&& ~~~(mask (offset + width - wordBits))) |||
        shiftRight value (wordBits - offset)
  else words

/-- Writing a record keeps the number of words. -/
@[simp] theorem size_writeAt (words : Array UInt64) (width position : Nat) (value : UInt64) :
    (writeAt words width position value).size = words.size := by
  unfold writeAt
  dsimp only
  split <;> simp

/-- The record at an index. Records of width zero are all zero. -/
def get (packed : PackedRecords) (index : Nat) : Except RecordError UInt64 :=
  if packed.length ≤ index then .error (.indexOutOfBounds index packed.length)
  else if packed.width = 0 then .ok 0
  else .ok (readAt packed.words packed.width (packed.position index))

/-- Whether a value needs more bits than a record has. -/
def isTooWide (packed : PackedRecords) (value : UInt64) : Bool :=
  value &&& ~~~(mask packed.width) != 0

/-- The array with other bits in the place of a record. -/
def overwrite (packed : PackedRecords) (index : Nat) (value : UInt64) : PackedRecords :=
  { packed with
    words := writeAt packed.words packed.width (packed.position index) value
    size_words := by rw [size_writeAt]; exact packed.size_words }

/-- Overwrite the record at an index; the index is checked before the value. -/
def set (packed : PackedRecords) (index : Nat) (value : UInt64) :
    Except RecordError Unit × PackedRecords :=
  if packed.length ≤ index then (.error (.indexOutOfBounds index packed.length), packed)
  else if packed.isTooWide value then (.error (.valueTooWide value packed.width), packed)
  else if packed.width = 0 then (.ok (), packed)
  else (.ok (), packed.overwrite index value)

/-- The first `count` words, with clear ones added where there are fewer. -/
def resized (words : Array UInt64) (count : Nat) : Array UInt64 :=
  if words.size ≤ count then words ++ Array.replicate (count - words.size) 0
  else words.extract 0 count

/-- What is resized has the number of words that was asked for. -/
@[simp] theorem size_resized (words : Array UInt64) (count : Nat) :
    (resized words count).size = count := by
  unfold resized
  split
  · rw [Array.size_append, Array.size_replicate]
    omega
  · rw [Array.size_extract]
    omega

/-- Words that are added are clear. -/
theorem wordAt_resized {words : Array UInt64} {count : Nat} (h : words.size ≤ count)
    (place : Nat) : wordAt (resized words count) place = wordAt words place := by
  unfold wordAt resized
  rw [if_pos h, Array.getElem?_append]
  split
  · rfl
  · next hplace =>
    rw [Array.getElem?_replicate, Array.getElem?_eq_none (Nat.le_of_not_lt hplace)]
    split
    · rfl
    · rfl

/-- One more record, all bits clear, with as many words as are computed for it. -/
def grow (packed : PackedRecords) : PackedRecords :=
  if packed.isWhole then
    { packed with
      words := resized packed.words (wordsFor (packed.length + 1) packed.width)
      length := packed.length + 1
      size_words := by rw [size_resized]; exact isWordCount_wordsFor _ _ }
  else
    { packed with
      words := resized packed.words (cutWordsFor (packed.length + 1) packed.width)
      length := packed.length + 1
      size_words := by rw [size_resized]; exact isWordCount_cutWordsFor _ _ }

/-- Append a record. -/
def push (packed : PackedRecords) (value : UInt64) : Except RecordError Unit × PackedRecords :=
  if packed.isTooWide value then (.error (.valueTooWide value packed.width), packed)
  else packed.grow.set packed.length value

/-- Every record in order. -/
def toList (packed : PackedRecords) : List UInt64 :=
  (List.range packed.length).map fun index =>
    match packed.get index with
    | .ok value => value
    | .error _ => 0

/-- Append records one after another, up to the first that is refused. -/
def pushAll (packed : PackedRecords) : List UInt64 → Except RecordError Unit × PackedRecords
  | [] => (.ok (), packed)
  | value :: rest =>
    match packed.push value with
    | (.ok (), packed) => packed.pushAll rest
    | (.error error, packed) => (.error error, packed)

end PackedRecords

namespace Codec

/-- Refuse an array whose records have another width. -/
def checkWidth (codec : Codec) (packed : PackedRecords) : Except RecordError Unit :=
  if packed.width = codec.width then .ok ()
  else .error (.widthMismatch codec.width packed.width)

/-- The packed records of formulas; the first formula that has no record is an error. -/
def pack (codec : Codec) (formulas : List Formula) : Except RecordError PackedRecords := do
  let records ← formulas.mapM codec.encode
  let packed ← PackedRecords.empty codec.width
  let (outcome, packed) := packed.pushAll records
  outcome
  return packed

/-- The formula of the record at an index. -/
def get (codec : Codec) (packed : PackedRecords) (index : Nat) : Except RecordError Formula := do
  codec.checkWidth packed
  let record ← packed.get index
  codec.decode record

/-- The formulas of `count` records from an index on, after those read so far, which are kept in
reverse. The first record without a formula ends the reading, however many are left. -/
def unpackFrom (codec : Codec) (packed : PackedRecords) (found : List Formula) (index : Nat) :
    (count : Nat) → Except RecordError (List Formula)
  | 0 => .ok found.reverse
  | count + 1 =>
    match packed.get index >>= codec.decode with
    | .error error => .error error
    | .ok f => codec.unpackFrom packed (f :: found) (index + 1) count

/-- The formulas of all records in order. -/
def unpack (codec : Codec) (packed : PackedRecords) : Except RecordError (List Formula) := do
  codec.checkWidth packed
  codec.unpackFrom packed [] 0 packed.length

end Codec

end Formulary.Record
