import Mathlib.Data.List.DropRight
import Mathlib.Data.Nat.Digits.Lemmas
import Mathlib.Tactic.FieldSimp
import Mathlib.Tactic.Positivity

/-!
# Written decimal numerals

A numeral is an optional sign, integer digits and an optional point followed by
fraction digits, with something written after the sign. Its digits are a field of
the structure, so a text that is no numeral has no value of the type. The value is
a rational; leading zeros of the integer part and trailing zeros of the fraction
do not change it, and a fraction with no more significant digits than a rank makes
it an integer in units of that rank.

Digit lists are read most significant first, as they are written.
-/

namespace UnixCommons

open List

namespace Numeral

open Nat (ofDigits)

/-- The number a list of digits writes, the first digit most significant. -/
def reading (digits : List Nat) : Nat := ofDigits 10 digits.reverse

@[simp]
theorem reading_nil : reading [] = 0 := by
  simp [reading]

@[simp]
theorem reading_singleton (digit : Nat) : reading [digit] = digit := by
  simp [reading]

/-- The number of two digit sequences, one behind the other. -/
theorem reading_append (high low : List Nat) :
    reading (high ++ low) = reading high * 10 ^ low.length + reading low := by
  simp only [reading, reverse_append, Nat.ofDigits_append, length_reverse]
  ring

/-- The first digit counts most. -/
theorem reading_cons (digit : Nat) (rest : List Nat) :
    reading (digit :: rest) = digit * 10 ^ rest.length + reading rest := by
  rw [← singleton_append, reading_append, reading_singleton]

theorem reading_zeros (count : Nat) : reading (List.replicate count 0) = 0 := by
  simp only [reading, reverse_replicate, Nat.ofDigits_replicate_zero]

/-- A number is below the power of its digits. -/
theorem reading_lt {digits : List Nat} (bounded : ∀ digit ∈ digits, digit < 10) :
    reading digits < 10 ^ digits.length := by
  rw [← length_reverse]
  apply Nat.ofDigits_lt_base_pow_length (by decide)
  simpa using bounded

/-- Leading zeros do not count. -/
theorem reading_dropWhile {α : Type*} (digit : α → Nat) (zero : α → Bool)
    (zeros : ∀ item, zero item = true → digit item = 0) (items : List α) :
    reading ((items.dropWhile zero).map digit) = reading (items.map digit) := by
  induction items with
  | nil => rfl
  | cons item rest ih =>
    by_cases dropped : zero item = true
    · rw [dropWhile_cons_of_pos dropped, ih, map_cons, ← singleton_append,
        reading_append]
      simp [zeros item dropped]
    · rw [dropWhile_cons_of_neg dropped]

/-- Trailing zeros only scale. -/
theorem reading_rdropWhile {α : Type*} (digit : α → Nat) (zero : α → Bool)
    (zeros : ∀ item, zero item = true → digit item = 0) (items : List α) :
    reading (items.map digit) = reading ((items.rdropWhile zero).map digit) *
      10 ^ (items.length - (items.rdropWhile zero).length) := by
  induction items using List.reverseRecOn with
  | nil => simp
  | append_singleton rest item ih =>
    by_cases dropped : zero item = true
    · have shorter : (rest.rdropWhile zero).length ≤ rest.length :=
        (List.rdropWhile_prefix zero rest).length_le
      rw [rdropWhile_concat_pos _ _ _ dropped, map_append, reading_append, ih]
      simp only [map_cons, map_nil, length_append, length_singleton,
        reading_singleton, zeros item dropped]
      rw [Nat.sub_add_comm shorter]
      ring
    · rw [rdropWhile_concat_neg _ _ _ dropped]
      simp

/-- Items dropped from the end stop at one that is kept. -/
theorem rdropWhile_append_cons {α : Type*} {zero : α → Bool} {mark : α}
    (kept : ¬ zero mark = true) (front back : List α) :
    (front ++ mark :: back).rdropWhile zero = front ++ mark :: back.rdropWhile zero := by
  induction back using List.reverseRecOn with
  | nil => exact rdropWhile_concat_neg _ _ _ kept
  | append_singleton rest item ih =>
    rw [← cons_append, ← append_assoc]
    by_cases dropped : zero item = true
    · rw [rdropWhile_concat_pos _ _ _ dropped, rdropWhile_concat_pos _ _ _ dropped,
        ih]
    · rw [rdropWhile_concat_neg _ _ _ dropped, rdropWhile_concat_neg _ _ _ dropped]
      simp

/-- The digit a character stands for. -/
def digitOf (character : Char) : Nat := character.toNat - '0'.toNat

/-- The character of a digit. -/
def digitChar (digit : Nat) : Char := Char.ofNat ('0'.toNat + digit)

theorem digitOf_lt {character : Char} (digit : character.isDigit = true) :
    digitOf character < 10 := by
  have range : 48 ≤ character.toNat ∧ character.toNat ≤ 57 := by
    simp only [Char.isDigit, Bool.and_eq_true, decide_eq_true_eq] at digit
    exact digit
  have zero : '0'.toNat = 48 := rfl
  simp only [digitOf]
  omega

/-- The digit characters and their values. -/
theorem digitChar_facts {digit : Nat} (small : digit < 10) :
    digitOf (digitChar digit) = digit ∧ (digitChar digit).isDigit = true ∧
      (digitChar digit = '0' ↔ digit = 0) := by
  interval_cases digit <;> decide

/-- Characters that are all digits. -/
def Digits (text : List Char) : Prop := ∀ character ∈ text, character.isDigit = true

instance (text : List Char) : Decidable (Digits text) :=
  decidable_of_iff (text.all Char.isDigit = true) all_eq_true

variable {text : List Char}

theorem Digits.no_point (digits : Digits text) : '.' ∉ text :=
  fun inside => absurd (digits '.' inside) (by decide)

/-- The number of a text is below the power of its length. -/
theorem Digits.reading_lt (digits : Digits text) :
    reading (text.map digitOf) < 10 ^ text.length := by
  rw [← length_map digitOf]
  apply Numeral.reading_lt
  rintro _ mapped
  obtain ⟨character, inside, rfl⟩ := mem_map.mp mapped
  exact digitOf_lt (digits character inside)

theorem Digits.dropWhile (digits : Digits text) {zero : Char → Bool} :
    Digits (text.dropWhile zero) :=
  fun character inside => digits character ((dropWhile_sublist zero).subset inside)

theorem Digits.rdropWhile (digits : Digits text) (zero : Char → Bool) :
    Digits (text.rdropWhile zero) :=
  fun character inside => digits character ((List.rdropWhile_prefix zero text).subset inside)

theorem digits_of_zeros (zeros : ∀ character ∈ text, (character == '0') = true) : Digits text := by
  intro character inside
  obtain rfl := beq_iff_eq.mp (zeros character inside)
  rfl

/-- The zero character stands for the zero digit. -/
theorem digitOf_zero (character : Char) (zero : (character == '0') = true) :
    digitOf character = 0 := by
  obtain rfl := beq_iff_eq.mp zero
  rfl

end Numeral

/-- What may precede the digits. -/
inductive NumeralSign where
  | absent
  | plus
  | minus
deriving DecidableEq, Repr

/-- How a sign is written. -/
def NumeralSign.text : NumeralSign → List Char
  | absent => []
  | plus => ['+']
  | minus => ['-']

/-- A decimal numeral as written; the point is present exactly when there is a
fraction, which may be empty. -/
structure Numeral where
  sign : NumeralSign
  integer : List Char
  fraction : Option (List Char)
  integerDigits : Numeral.Digits integer
  fractionDigits : Numeral.Digits (fraction.getD [])
  written : integer ≠ [] ∨ fraction.isSome

namespace Numeral

variable (numeral : Numeral)

/-- The digits behind the point. -/
def fractionText : List Char := numeral.fraction.getD []

/-- The point and the digits after it. -/
def pointText : List Char :=
  match numeral.fraction with
  | none => []
  | some fraction => '.' :: fraction

/-- The characters after the sign. -/
def body : List Char := numeral.integer ++ numeral.pointText

/-- The whole text. -/
def text : List Char := numeral.sign.text ++ numeral.body

/-- The absolute value written. -/
def magnitude : ℚ :=
  reading (numeral.integer.map digitOf) +
    reading (numeral.fractionText.map digitOf) / 10 ^ numeral.fractionText.length

/-- The number written. -/
def value : ℚ := if numeral.sign = .minus then -numeral.magnitude else numeral.magnitude

/-- The integer digits without leading zeros. -/
def significantInteger : List Char := numeral.integer.dropWhile (· == '0')

/-- The fraction digits without trailing zeros. -/
def significantFraction : List Char := numeral.fractionText.rdropWhile (· == '0')

/-- The significant digits on each side of the point stay within the ranks. -/
structure Fits (integerRank fractionRank : Nat) : Prop where
  integer : numeral.significantInteger.length ≤ integerRank
  fraction : numeral.significantFraction.length ≤ fractionRank

instance (integerRank fractionRank : Nat) : Decidable (numeral.Fits integerRank fractionRank) :=
  decidable_of_iff (numeral.significantInteger.length ≤ integerRank ∧
      numeral.significantFraction.length ≤ fractionRank)
    ⟨fun ⟨integer, fraction⟩ => ⟨integer, fraction⟩, fun ⟨integer, fraction⟩ => ⟨integer, fraction⟩⟩

/-- The magnitude in units of the given fraction rank, when the fraction fits. -/
def scaled (rank : Nat) : Nat :=
  reading (numeral.significantInteger.map digitOf) * 10 ^ rank +
    reading (numeral.significantFraction.map digitOf) *
      10 ^ (rank - numeral.significantFraction.length)

theorem body_nonempty : numeral.body ≠ [] := by
  rcases numeral.written with integer | point
  · simp [body, integer]
  · obtain ⟨fraction, present⟩ := Option.isSome_iff_exists.mp point
    simp [body, pointText, present]

/-- What the insignificant zeros do to the numbers written. -/
theorem significant_reading :
    reading (numeral.significantInteger.map digitOf) = reading (numeral.integer.map digitOf) ∧
      reading (numeral.fractionText.map digitOf) =
        reading (numeral.significantFraction.map digitOf) *
          10 ^ (numeral.fractionText.length - numeral.significantFraction.length) ∧
      numeral.significantFraction.length ≤ numeral.fractionText.length :=
  ⟨reading_dropWhile digitOf _ digitOf_zero numeral.integer,
    reading_rdropWhile digitOf _ digitOf_zero numeral.fractionText,
    (List.rdropWhile_prefix _ numeral.fractionText).length_le⟩

/-- The value written, from its units. -/
theorem magnitude_eq_scaled {rank : Nat} (fits : numeral.significantFraction.length ≤ rank) :
    numeral.magnitude = numeral.scaled rank / 10 ^ rank := by
  obtain ⟨integer, fraction, shorter⟩ := numeral.significant_reading
  obtain ⟨dropped, length⟩ := Nat.exists_eq_add_of_le shorter
  obtain ⟨padding, total⟩ := Nat.exists_eq_add_of_le fits
  rw [magnitude, scaled, fraction, integer, length, total, Nat.add_sub_cancel_left,
    Nat.add_sub_cancel_left]
  push_cast
  rw [pow_add, pow_add]
  field_simp

/-- Insignificant zeros do not count in the scaled value either. -/
theorem scaled_eq {rank : Nat} (short : numeral.fractionText.length ≤ rank) :
    numeral.scaled rank = reading (numeral.integer.map digitOf) * 10 ^ rank +
      reading (numeral.fractionText.map digitOf) * 10 ^ (rank - numeral.fractionText.length) := by
  obtain ⟨integer, fraction, shorter⟩ := numeral.significant_reading
  rw [scaled, integer, fraction, mul_assoc, ← pow_add,
    show rank - numeral.significantFraction.length = numeral.fractionText.length -
      numeral.significantFraction.length + (rank - numeral.fractionText.length) by omega]

/-- A numeral that fits its ranks is below their power. -/
theorem scaled_lt {integerRank fractionRank : Nat} (fits : numeral.Fits integerRank fractionRank) :
    numeral.scaled fractionRank < 10 ^ (integerRank + fractionRank) := by
  have integer : reading (numeral.significantInteger.map digitOf) < 10 ^ integerRank :=
    numeral.integerDigits.dropWhile.reading_lt.trans_le
      (Nat.pow_le_pow_right (by decide) fits.integer)
  have fraction : reading (numeral.significantFraction.map digitOf) *
      10 ^ (fractionRank - numeral.significantFraction.length) < 10 ^ fractionRank := by
    have small := (numeral.fractionDigits.rdropWhile (· == '0')).reading_lt
    calc _ < 10 ^ numeral.significantFraction.length *
          10 ^ (fractionRank - numeral.significantFraction.length) :=
        mul_lt_mul_of_pos_right small (by positivity)
      _ = 10 ^ fractionRank := by rw [← pow_add, Nat.add_sub_cancel' fits.fraction]
  rw [scaled]
  generalize reading (numeral.significantInteger.map digitOf) = whole at *
  calc _ < whole * 10 ^ fractionRank + 10 ^ fractionRank := Nat.add_lt_add_left fraction _
    _ = (whole + 1) * 10 ^ fractionRank := by ring
    _ ≤ 10 ^ integerRank * 10 ^ fractionRank := Nat.mul_le_mul_right _ integer
    _ = 10 ^ (integerRank + fractionRank) := (pow_add _ _ _).symm

end Numeral

end UnixCommons
