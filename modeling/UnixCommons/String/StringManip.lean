import UnixCommons.Library.Numeral

/-!
# Numbers in texts

A text is turned into an unsigned number digit by digit. The value is compared with the
largest number of the type before every digit, so it never leaves the type.
-/

namespace UnixCommons.Text

open Numeral

/-- The digits of a number of at most `max`, behind the digits read before. -/
def strToUnsignedLoop (max : Nat) : List Char → Nat → Option Nat
  | [], value => some value
  | character :: rest, value =>
    if character.isDigit = false ∨ max / 10 < value ∨
        (value = max / 10 ∧ max - max / 10 * 10 < digitOf character) then none
    else strToUnsignedLoop max rest (value * 10 + digitOf character)

/-- The conversion for an unsigned type whose largest number is `max`. -/
def strToUnsigned (max : Nat) : List Char → Option Nat
  | [] => none
  | '-' :: _ => none
  | ['+'] => none
  | '+' :: rest => strToUnsignedLoop max rest 0
  | text => strToUnsignedLoop max text 0

theorem le_ofDigitChars (text : List Char) (value : Nat) :
    value ≤ Nat.ofDigitChars 10 text value := by
  induction text generalizing value with
  | nil => exact Nat.le_refl value
  | cons character rest ih =>
    have more := ih (10 * value + (character.toNat - '0'.toNat))
    simp only [Nat.ofDigitChars, List.foldl_cons] at more ⊢
    omega

/-- The loop refuses a digit exactly when the number would leave the type. -/
theorem strToUnsignedLoop_eq {max : Nat} {text : List Char} (digits : Digits text) {value : Nat}
    (fits : value ≤ max) :
    strToUnsignedLoop max text value =
      if Nat.ofDigitChars 10 text value ≤ max then some (Nat.ofDigitChars 10 text value)
      else none := by
  induction text generalizing value with
  | nil => simp [strToUnsignedLoop, fits]
  | cons character rest ih =>
    have digit := digits character List.mem_cons_self
    have small := digitOf_lt digit
    have step : Nat.ofDigitChars 10 (character :: rest) value =
        Nat.ofDigitChars 10 rest (value * 10 + digitOf character) := by
      rw [Nat.mul_comm value 10]
      rfl
    rw [step, strToUnsignedLoop]
    split
    case isTrue refused =>
      have beyond : max < value * 10 + digitOf character := by
        simp only [digit, Bool.true_eq_false, false_or] at refused
        omega
      have more := le_ofDigitChars rest (value * 10 + digitOf character)
      rw [if_neg (by omega)]
    case isFalse taken =>
      apply ih
      · intro other inside
        exact digits other (List.mem_cons_of_mem _ inside)
      · omega

/-- Digits are converted if their number is one of the type. -/
theorem strToUnsigned_digits {max : Nat} {text : List Char} (digits : Digits text)
    (nonempty : text ≠ []) :
    strToUnsigned max text =
      if Nat.ofDigitChars 10 text 0 ≤ max then some (Nat.ofDigitChars 10 text 0) else none := by
  have loop := strToUnsignedLoop_eq digits (Nat.zero_le max)
  unfold strToUnsigned
  split
  case h_1 => exact absurd rfl nonempty
  case h_2 => exact absurd (digits '-' List.mem_cons_self) (by decide)
  case h_3 => exact absurd (digits '+' List.mem_cons_self) (by decide)
  case h_4 => exact absurd (digits '+' List.mem_cons_self) (by decide)
  case h_5 => exact loop

theorem digits_toDigits {number : Nat} : Digits (Nat.toDigits 10 number) :=
  fun _ inside => Nat.isDigit_of_mem_toDigits (by decide) (by decide) inside

/-- A printed number is read back. -/
theorem strToUnsigned_toDigits {max number : Nat} (fits : number ≤ max) :
    strToUnsigned max (Nat.toDigits 10 number) = some number := by
  rw [strToUnsigned_digits digits_toDigits Nat.toDigits_ne_nil,
    Nat.ofDigitChars_toDigits (by decide) (by decide), if_pos fits]

end UnixCommons.Text
