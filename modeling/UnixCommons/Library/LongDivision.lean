import Mathlib.Tactic.Linarith
import Mathlib.Tactic.Ring

/-!
# Quotient digits of long division

Long division finds one quotient digit per step from a window of the dividend that
is below the divisor times the base. The digit is guessed from the two leading
digits of the divisor and the three leading digits of the window. The guess is made
from one digit first and lowered while the second digit shows that it is too big.

The laws hold in any base. They need no normalised divisor: a leading digit that is
not zero is enough for a guess that is exact or one too big. Normalising only bounds
how often the guess is lowered.
-/

namespace UnixCommons.LongDivision

/-- The quotient never exceeds the quotient of the leading parts. -/
theorem quotient_le_leading {window divisor weight quotient : Nat} (positive : 0 < weight)
    (fits : quotient * divisor ≤ window) :
    quotient * (divisor / weight) ≤ window / weight := by
  rw [Nat.le_div_iff_mul_le positive]
  calc quotient * (divisor / weight) * weight = quotient * (divisor / weight * weight) := by ring
    _ ≤ quotient * divisor := Nat.mul_le_mul_left _ (Nat.div_mul_le_self _ _)
    _ ≤ window := fits

/-- A digit that fits the leading parts is at most one too big, if it does not
exceed the leading part of the divisor. -/
theorem leading_le_quotient_succ {window divisor weight digit : Nat} (positive : 0 < weight)
    (fits : (digit + 1) * (divisor / weight) ≤ window / weight)
    (small : digit ≤ divisor / weight) : digit * divisor ≤ window := by
  have bound : divisor < weight * (divisor / weight + 1) := Nat.lt_mul_div_succ _ positive
  calc digit * divisor ≤ digit * (weight * (divisor / weight + 1)) :=
        Nat.mul_le_mul_left _ (le_of_lt bound)
    _ = weight * (digit * (divisor / weight) + digit) := by ring
    _ ≤ weight * (digit * (divisor / weight) + divisor / weight) :=
        Nat.mul_le_mul_left _ (Nat.add_le_add_left small _)
    _ = weight * ((digit + 1) * (divisor / weight)) := by ring
    _ ≤ weight * (window / weight) := Nat.mul_le_mul_left _ fits
    _ ≤ window := Nat.mul_div_le _ _

/-- No digit above the bound fits the window. -/
def Covers (base divisor window bound : Nat) : Prop :=
  ∀ quotient < base, quotient * divisor ≤ window → quotient ≤ bound

/-- The largest digit that fits the window. -/
structure Largest (base divisor window digit : Nat) : Prop where
  small : digit < base
  fits : digit * divisor ≤ window
  covers : Covers base divisor window digit

section Guess

/-! The divisor starts with the digits `first` and `second`; the window starts with
the two-digit number `head` and the digit `third`. -/

variable {base first second head third guess rest : Nat}

/-- With the rest of the first digit's division at hand, the two-digit test compares
the second digit's share with that rest. -/
theorem fits_iff (divided : guess * first + rest = head) :
    guess * (first * base + second) ≤ head * base + third ↔
      second * guess ≤ rest * base + third := by
  have left : guess * (first * base + second) = guess * first * base + second * guess := by ring
  have right : head * base + third = guess * first * base + (rest * base + third) := by
    rw [← divided]
    ring
  omega

/-- A window below the divisor times the base has a head that the first digit's
division bounds. -/
theorem head_le (window : head * base + third < (first * base + second + 1) * base) :
    head ≤ first * base + second := by
  by_contra above
  have := Nat.mul_le_mul_right base (Nat.lt_of_not_le above)
  have shape : (first * base + second + 1) * base ≤ head * base := this
  omega

/-- A guess beyond the base never passes the two-digit test. -/
theorem guess_le_base (window : head * base + third < (first * base + second + 1) * base)
    (leading : 0 < first) (fits : guess * (first * base + second) ≤ head * base + third) :
    guess ≤ base := by
  by_contra above
  have large : base ≤ first * base + second :=
    le_trans (Nat.le_mul_of_pos_left _ leading) (Nat.le_add_right _ _)
  generalize first * base + second = leads at *
  have := Nat.mul_le_mul_right leads (Nat.lt_of_not_le above)
  have expanded : (base + 1) * leads = leads * base + leads := by ring
  have bound : (leads + 1) * base = leads * base + base := by ring
  simp only [Nat.succ_eq_add_one] at this
  omega

/-- A rest of at least the base leaves room for the second digit's share. -/
theorem fits_of_large_rest (divided : guess * first + rest = head) (digit : guess < base)
    (second_lt : second < base) (large : base ≤ rest) :
    guess * (first * base + second) ≤ head * base + third := by
  rw [fits_iff divided]
  calc second * guess ≤ base * base :=
        Nat.mul_le_mul (le_of_lt second_lt) (le_of_lt digit)
    _ ≤ rest * base := Nat.mul_le_mul_right _ large
    _ ≤ rest * base + third := Nat.le_add_right _ _

/-- Whatever fits both leading digits fits the first one. -/
theorem first_le_of_fits (third_lt : third < base)
    (fits : guess * (first * base + second) ≤ head * base + third) : guess * first ≤ head := by
  by_contra above
  have := Nat.mul_le_mul_right base (Nat.lt_of_not_le above)
  have expanded : guess * (first * base + second) = guess * first * base + guess * second := by ring
  have shape : (head + 1) * base = head * base + base := by ring
  simp only [Nat.succ_eq_add_one] at this
  omega

end Guess

/-- The lowest digits of a number do not take part in a division by a shifted
divisor: quotient and remainder are those of the window above them. -/
theorem shifted_division {low weight window divisor : Nat} (small : low < weight) :
    (low + weight * window) / (divisor * weight) = window / divisor ∧
      low + weight * window =
        divisor * weight * (window / divisor) + (low + weight * (window % divisor)) := by
  have positive : 0 < weight := lt_of_le_of_lt (Nat.zero_le _) small
  constructor
  · rw [mul_comm divisor, ← Nat.div_div_eq_div_mul, Nat.add_mul_div_left _ _ positive,
      Nat.div_eq_of_lt small, zero_add]
  · nth_rewrite 1 [← Nat.div_add_mod window divisor]
    ring

end UnixCommons.LongDivision
