import Mathlib.Tactic.Common
import Formulary.Record.Codec

/-!
# Fields of digits

A list of digits of `bits` bits each makes a number below the capacity of the whole list, and the
digits can be read off that number again, also where another field stands above it. The three
fields of a record are such numbers side by side.
-/

namespace Formulary

/-- A field of `a` bits and one of `b` bits hold as much as one field of `a + b` bits. -/
theorem capacity_add (a b : ℕ) : capacity (a + b) = capacity a * capacity b :=
  Nat.pow_add 2 a b

namespace Record

/-- Two fields side by side stay below the capacity of both. -/
theorem low_add_high_lt {a b low high : ℕ} (hlow : low < capacity a) (hhigh : high < capacity b) :
    low + capacity a * high < capacity (a + b) := by
  rw [capacity_add]
  calc low + capacity a * high
      < capacity a + capacity a * high := Nat.add_lt_add_right hlow _
    _ = capacity a * (high + 1) := by rw [Nat.mul_succ, Nat.add_comm]
    _ ≤ capacity a * capacity b := Nat.mul_le_mul_left _ hhigh

/-- The lower of two fields is the remainder. -/
theorem low_of_fields {a low high : ℕ} (hlow : low < capacity a) :
    (low + capacity a * high) % capacity a = low := by
  rw [Nat.add_mul_mod_self_left, Nat.mod_eq_of_lt hlow]

/-- The higher of two fields is the quotient. -/
theorem high_of_fields {a low high : ℕ} (hlow : low < capacity a) :
    (low + capacity a * high) / capacity a = high := by
  rw [Nat.add_mul_div_left _ _ (capacity_pos a), Nat.div_eq_of_lt hlow, Nat.zero_add]

/-- A number below the capacity of two fields leaves a quotient that fits the higher one. -/
theorem high_lt {a b number : ℕ} (h : number < capacity (a + b)) :
    number / capacity a < capacity b := by
  rw [capacity_add] at h
  exact Nat.div_lt_of_lt_mul h

/-- As many digits are taken as were asked for. -/
@[simp] theorem length_toDigits (bits count n : ℕ) : (toDigits bits count n).length = count := by
  induction count generalizing n with
  | zero => rfl
  | succ count ih => simp [toDigits, ih]

/-- Every digit fits its bits. -/
theorem lt_of_mem_toDigits {bits count n digit : ℕ} (h : digit ∈ toDigits bits count n) :
    digit < capacity bits := by
  induction count generalizing n with
  | zero => cases h
  | succ count ih =>
    rcases List.mem_cons.mp h with rfl | hrest
    · exact Nat.mod_lt n (capacity_pos bits)
    · exact ih hrest

/-- Digits that fit their bits make a number that fits the bits of all of them. -/
theorem ofDigits_lt {bits : ℕ} {digits : List ℕ} (h : ∀ digit ∈ digits, digit < capacity bits) :
    ofDigits bits digits < capacity (bits * digits.length) := by
  induction digits with
  | nil => exact capacity_pos 0
  | cons digit rest ih =>
    have hrest := ih fun other hother => h other (List.mem_cons_of_mem digit hother)
    rw [List.length_cons, Nat.mul_succ, Nat.add_comm]
    exact low_add_high_lt (h digit List.mem_cons_self) hrest

/-- The digits of a number are read back, whatever stands above them. -/
theorem toDigits_ofDigits {bits : ℕ} {digits : List ℕ}
    (h : ∀ digit ∈ digits, digit < capacity bits) (above : ℕ) :
    toDigits bits digits.length
      (ofDigits bits digits + capacity (bits * digits.length) * above) = digits := by
  induction digits with
  | nil => rfl
  | cons digit rest ih =>
    have hdigit := h digit List.mem_cons_self
    have hrest := ih fun other hother => h other (List.mem_cons_of_mem digit hother)
    have hshift : ofDigits bits (digit :: rest) +
        capacity (bits * (digit :: rest).length) * above = digit + capacity bits *
          (ofDigits bits rest + capacity (bits * rest.length) * above) := by
      rw [List.length_cons, Nat.mul_succ, Nat.add_comm (bits * rest.length), capacity_add,
        ofDigits, Nat.mul_add, Nat.mul_assoc, Nat.add_assoc]
    rw [hshift, List.length_cons, toDigits, low_of_fields hdigit, high_of_fields hdigit, hrest]

/-- The number made of the lowest digits of a number is what they leave of it. -/
theorem ofDigits_toDigits (bits count n : ℕ) :
    ofDigits bits (toDigits bits count n) = n % capacity (bits * count) := by
  induction count generalizing n with
  | zero => exact (Nat.mod_one n).symm
  | succ count ih =>
    rw [toDigits, ofDigits, ih, Nat.mul_succ, Nat.add_comm (bits * count), capacity_add,
      Nat.mod_mul]

/-- A number that fits is the number made of its digits. -/
theorem ofDigits_toDigits_of_lt {bits count n : ℕ} (h : n < capacity (bits * count)) :
    ofDigits bits (toDigits bits count n) = n := by
  rw [ofDigits_toDigits, Nat.mod_eq_of_lt h]

end Record

end Formulary
