import Mathlib.Data.List.Basic
import Mathlib.Tactic.IntervalCases
import Formulary.Store.Words
import Formulary.Proofs.Decimal
import Formulary.Proofs.Record.WordBits

/-!
# What a file of words is called and what it holds

The name of a file of words holds the record count in decimal digits, and the count can be read
from it again. The name under which a file is filled has none, so such a file is never read. The
words are written byte by byte, and the bytes make the same words again.
-/

namespace Formulary

namespace Reader

/-- A decimal digit has a value. -/
theorem digit?_of_isDigit {c : Char} (h : c.isDigit = true) :
    digit? c = some (c.toNat - '0'.toNat) := by
  obtain ⟨hlow, hhigh⟩ := Bool.and_eq_true_iff.mp h
  exact if_pos ⟨of_decide_eq_true hlow, of_decide_eq_true hhigh⟩

/-- A text of digits is read as digits to its end. -/
theorem spanDigits_of_isDigit {cs : List Char} (h : ∀ c ∈ cs, c.isDigit = true) :
    spanDigits cs = (cs.map fun c => c.toNat - '0'.toNat, []) := by
  induction cs with
  | nil => rfl
  | cons c rest ih =>
    have hrest := ih fun other hother => h other (List.mem_cons_of_mem c hother)
    simp only [spanDigits, digit?_of_isDigit (h c List.mem_cons_self), hrest, List.map_cons]

/-- A number is read from its decimal digits if it is below the bound. -/
theorem nat?_toString {n bound : ℕ} (h : n < bound) : nat? bound (toString n).toList = some n := by
  have hdigit : ∀ c ∈ Nat.toDigits 10 n, c.isDigit = true := fun c hc => isDigit_of_mem_decimal hc
  have hvalue : ofDigits ((Nat.toDigits 10 n).map fun c => c.toNat - '0'.toNat) = n := by
    unfold ofDigits
    rw [List.foldl_map]
    exact Nat.ofDigitChars_ten_toDigits
  have hread : digits? (Nat.toDigits 10 n) = some n := by
    unfold digits?
    rw [spanDigits_of_isDigit hdigit]
    cases hdigits : Nat.toDigits 10 n with
    | nil => exact absurd hdigits Nat.toDigits_ne_nil
    | cons c rest =>
      rw [hdigits] at hvalue
      exact congrArg some hvalue
  have hsign : ∀ rest, Nat.toDigits 10 n ≠ '+' :: rest := by
    intro rest hplus
    have hplusDigit := hdigit '+' (by rw [hplus]; exact List.mem_cons_self)
    exact absurd hplusDigit (by decide)
  rw [Nat.toString_eq_repr, Nat.toList_repr]
  unfold nat?
  split
  · next rest hplus => exact absurd hplus (hsign rest)
  · dsimp only
    rw [hread]
    exact Option.filter_some_pos (by simpa using h)

end Reader

section

open Record

/-- A byte of a word, moved to its place, has the bits of the word there. -/
theorem wordBit_byte (word : UInt64) {i : ℕ} (hi : i < 8) (position : ℕ) :
    wordBit ((word >>> UInt64.ofNat (8 * i)).toUInt8.toUInt64 <<< UInt64.ofNat (8 * i)) position =
      (decide (position / 8 = i) && wordBit word position) := by
  have hamount : (UInt64.ofNat (8 * i)).toNat % 64 = 8 * i := by
    rw [UInt64.toNat_ofNat']
    omega
  unfold wordBit
  rw [UInt64.toNat_shiftLeft, UInt8.toNat_toUInt64, UInt64.toNat_toUInt8, UInt64.toNat_shiftRight,
    hamount, Nat.testBit_mod_two_pow, Nat.testBit_shiftLeft, Nat.testBit_mod_two_pow,
    Nat.testBit_shiftRight]
  by_cases hplace : position / 8 = i
  · have hin : position < 64 ∧ 8 * i ≤ position ∧ position - 8 * i < 8 := by omega
    simp only [hplace, hin, decide_true, Bool.true_and, Nat.add_sub_cancel' hin.2.1]
  · have hout : ¬ (8 * i ≤ position ∧ position - 8 * i < 8) := by omega
    rcases not_and_or.mp hout with hbefore | hbehind
    · simp [hplace, hbefore]
    · simp [hplace, hbehind]

/-- The bytes of a word make the word. -/
theorem wordsOfBytes_wordBytes_append (word : UInt64) (bytes : List UInt8) :
    wordsOfBytes (wordBytes word ++ bytes) = word :: wordsOfBytes bytes := by
  have hword : wordBytes word = [(word >>> UInt64.ofNat (8 * 0)).toUInt8,
      (word >>> UInt64.ofNat (8 * 1)).toUInt8, (word >>> UInt64.ofNat (8 * 2)).toUInt8,
      (word >>> UInt64.ofNat (8 * 3)).toUInt8, (word >>> UInt64.ofNat (8 * 4)).toUInt8,
      (word >>> UInt64.ofNat (8 * 5)).toUInt8, (word >>> UInt64.ofNat (8 * 6)).toUInt8,
      (word >>> UInt64.ofNat (8 * 7)).toUInt8] := rfl
  rw [hword]
  refine congrArg (· :: wordsOfBytes bytes) (eq_of_wordBit fun position => ?_)
  have hbyte (i : ℕ) (hi : i < 8) := wordBit_byte word hi position
  have hfirst : wordBit (word >>> UInt64.ofNat (8 * 0)).toUInt8.toUInt64 position =
      (decide (position / 8 = 0) && wordBit word position) := by
    have hzero := hbyte 0 (by decide)
    rwa [show UInt64.ofNat (8 * 0) = 0 from rfl, UInt64.shiftLeft_zero] at hzero
  simp only [wordBit_or]
  change (_ || wordBit (_ <<< UInt64.ofNat (8 * 1)) _ || wordBit (_ <<< UInt64.ofNat (8 * 2)) _ ||
    wordBit (_ <<< UInt64.ofNat (8 * 3)) _ || wordBit (_ <<< UInt64.ofNat (8 * 4)) _ ||
    wordBit (_ <<< UInt64.ofNat (8 * 5)) _ || wordBit (_ <<< UInt64.ofNat (8 * 6)) _ ||
    wordBit (_ <<< UInt64.ofNat (8 * 7)) _) = _
  rw [hfirst, hbyte 1 (by decide), hbyte 2 (by decide), hbyte 3 (by decide), hbyte 4 (by decide),
    hbyte 5 (by decide), hbyte 6 (by decide), hbyte 7 (by decide)]
  cases hbit : wordBit word position with
  | false => simp only [Bool.and_false, Bool.or_false]
  | true =>
    have hplace : position / 8 < 8 := by
      by_contra hbehind
      rw [wordBit_of_le word (show wordBits ≤ position by unfold wordBits; omega)] at hbit
      cases hbit
    generalize position / 8 = place at hplace
    interval_cases place <;> rfl

/-- The bytes of words are whole words, and they make the words again. -/
theorem wordsOfBytes_flatMap (words : List UInt64) :
    (words.flatMap wordBytes).length % 8 = 0 ∧ wordsOfBytes (words.flatMap wordBytes) = words := by
  induction words with
  | nil => exact ⟨rfl, rfl⟩
  | cons word rest ih =>
    have height : (wordBytes word).length = 8 := rfl
    rw [List.flatMap_cons, List.length_append, height, Nat.add_mod_left, wordsOfBytes_wordBytes_append,
      ih.2]
    exact ⟨ih.1, rfl⟩

end

namespace WordFiles

variable {slots records : ℕ}

/-- A name has a record count if the count stands between the beginning and the end of the name. -/
theorem recordsIn_eq_some_iff {name : String} :
    recordsIn slots name = some records ↔ ∃ number,
      name.toList = (nameStart slots).toList ++ (number ++ nameEnd.toList) ∧
        Reader.nat? recordBound number = some records := by
  unfold recordsIn
  simp only [bind, Option.bind_eq_some_iff, List.isPrefixOf?_eq_some_iff_append_eq,
    List.isSuffixOf?_eq_some_iff_append_eq]
  constructor
  · rintro ⟨_, hname, number, rfl, hnumber⟩
    exact ⟨number, hname.symm, hnumber⟩
  · rintro ⟨number, hname, hnumber⟩
    exact ⟨_, hname.symm, number, rfl, hnumber⟩

/-- The record count is read from the name of a file. -/
theorem recordsIn_fileName (slots : ℕ) (h : records < recordBound) :
    recordsIn slots (fileName slots records) = some records := by
  refine recordsIn_eq_some_iff.mpr ⟨(toString records).toList, ?_, Reader.nat?_toString h⟩
  rw [fileName, String.toList_append, String.toList_append, List.append_assoc]

/-- A file that is being filled has no record count in its name, over whichever slots. -/
theorem recordsIn_stagingName (slots other records : ℕ) :
    recordsIn slots (stagingName other records) = none := by
  rw [Option.eq_none_iff_forall_ne_some]
  intro count hcount
  obtain ⟨number, hname, -⟩ := recordsIn_eq_some_iff.mp hcount
  have hlast := congrArg List.getLast? hname
  have hwords : nameEnd.toList.getLast? = some 's' := by decide
  have htmp : ".tmp".toList.getLast? = some 'p' := by decide
  rw [stagingName, String.toList_append, List.getLast?_append, List.getLast?_append,
    List.getLast?_append, hwords, htmp] at hlast
  cases hlast

/-- No name has a record count over different numbers of slots, even if the digits of one begin with
those of the other, since a dash follows them. -/
theorem slots_eq_of_recordsIn {name : String} {other count : ℕ}
    (h : recordsIn slots name = some records) (hother : recordsIn other name = some count) :
    slots = other := by
  have hstart (n : ℕ) : (nameStart n).toList =
      "expressions-".toList ++ (Nat.toDigits 10 n ++ ['-']) := by
    rw [nameStart, String.toList_append, String.toList_append, List.append_assoc,
      Nat.toString_eq_repr, Nat.toList_repr]
    rfl
  obtain ⟨number, hname, -⟩ := recordsIn_eq_some_iff.mp h
  obtain ⟨number', hname', -⟩ := recordsIn_eq_some_iff.mp hother
  rw [hname, hstart, hstart] at hname'
  simp only [List.append_assoc, List.append_cancel_left_eq, List.singleton_append] at hname'
  exact (toDigits_append_inj (noDigitAhead_cons _ (by decide)) (noDigitAhead_cons _ (by decide)) hname').1

end WordFiles

end Formulary
