import Mathlib.Data.List.TakeWhile
import Mathlib.Tactic.Common

/-!
# Decimal digits in front of a text

The decimal digits of a number can be told from what stands behind them, as long as no further digit
does.
-/

namespace Formulary

/-- A text does not begin with a digit. -/
def NoDigitAhead (text : List Char) : Prop :=
  ∀ c ∈ text.head?, c.isDigit = false

/-- Nothing is no digit. -/
theorem noDigitAhead_nil : NoDigitAhead [] := by
  simp [NoDigitAhead]

/-- A character that is no digit ends a number. -/
theorem noDigitAhead_cons {c : Char} (text : List Char) (h : c.isDigit = false) :
    NoDigitAhead (c :: text) := by
  simpa [NoDigitAhead] using h

/-- The decimal form of a number consists of digits. -/
theorem isDigit_of_mem_decimal {n : ℕ} {c : Char} (h : c ∈ Nat.toDigits 10 n) : c.isDigit = true :=
  Nat.isDigit_of_mem_toDigits (by decide) (by decide) h

/-- A number does not stand in front of such a text. -/
theorem NoDigitAhead.ne_toDigits_append {text : List Char} (h : NoDigitAhead text) (n : ℕ)
    (other : List Char) : text ≠ Nat.toDigits 10 n ++ other := by
  intro heq
  cases hdigits : Nat.toDigits 10 n with
  | nil => exact Nat.toDigits_ne_nil hdigits
  | cons c rest =>
    have hno : c.isDigit = false := h c (by simp [heq, hdigits])
    have hdigit : c.isDigit = true := isDigit_of_mem_decimal (by rw [hdigits]; exact List.mem_cons_self)
    simp [hdigit] at hno

/-- The digits of a number are all that is found in front of such a text. -/
theorem takeWhile_toDigits_append (n : ℕ) {text : List Char} (h : NoDigitAhead text) :
    (Nat.toDigits 10 n ++ text).takeWhile Char.isDigit = Nat.toDigits 10 n := by
  rw [List.takeWhile_append_of_pos fun c hc => isDigit_of_mem_decimal hc]
  cases text with
  | nil => simp
  | cons c rest =>
    have hc : c.isDigit = false := h c (by simp)
    simp [hc]

/-- Numbers in front of such texts can be told apart. -/
theorem toDigits_append_inj {m n : ℕ} {text other : List Char} (h : NoDigitAhead text)
    (hother : NoDigitAhead other) (heq : Nat.toDigits 10 m ++ text = Nat.toDigits 10 n ++ other) :
    m = n ∧ text = other := by
  have hdigits : Nat.toDigits 10 m = Nat.toDigits 10 n := by
    rw [← takeWhile_toDigits_append m h, heq, takeWhile_toDigits_append n hother]
  refine ⟨?_, ?_⟩
  · calc m
        = Nat.ofDigitChars 10 (Nat.toDigits 10 m) 0 := Nat.ofDigitChars_ten_toDigits.symm
      _ = n := hdigits ▸ Nat.ofDigitChars_ten_toDigits
  · rw [hdigits] at heq
    exact List.append_cancel_left heq

end Formulary
