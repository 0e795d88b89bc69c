import Mathlib.Algebra.Order.Floor.Semifield
import Mathlib.Data.Rat.Floor
import Mathlib.Tactic.Positivity

/-!
# Signed magnitudes and rounded quotients

A number kept as a sign and a natural magnitude has two zeros. Its sum and
difference are computed on magnitudes, by a comparison when the signs oppose;
they are the sum and difference of the denoted integers.

Products and quotients of scaled magnitudes are exact rationals that an
implementation rounds. The three roundings are stated on rationals, with the
natural-number division each one amounts to.
-/

namespace UnixCommons

/-- A sign and a magnitude; zero carries a sign as well. -/
structure SignedMagnitude where
  negative : Bool
  magnitude : Nat
deriving DecidableEq, Repr

namespace SignedMagnitude

/-- The denoted integer. -/
def toInt (number : SignedMagnitude) : Int :=
  if number.negative then -(number.magnitude : Int) else number.magnitude

def neg (number : SignedMagnitude) : SignedMagnitude :=
  { number with negative := !number.negative }

/-- Equal signs add magnitudes; opposite signs subtract the smaller from the
larger, whose sign is kept. Equal magnitudes keep the sign of the left number. -/
def add (left right : SignedMagnitude) : SignedMagnitude :=
  if left.negative = right.negative then ⟨left.negative, left.magnitude + right.magnitude⟩
  else if left.magnitude < right.magnitude then
    ⟨right.negative, right.magnitude - left.magnitude⟩
  else ⟨left.negative, left.magnitude - right.magnitude⟩

def sub (left right : SignedMagnitude) : SignedMagnitude := left.add right.neg

@[simp] theorem toInt_neg (number : SignedMagnitude) : number.neg.toInt = -number.toInt := by
  cases negative : number.negative <;> simp [toInt, neg, negative]

@[simp] theorem natAbs_toInt (number : SignedMagnitude) : number.toInt.natAbs = number.magnitude := by
  cases negative : number.negative <;> simp [toInt, negative]

/-- The sum on magnitudes denotes the sum of the integers. -/
theorem toInt_add (left right : SignedMagnitude) :
    (left.add right).toInt = left.toInt + right.toInt := by
  unfold add toInt
  cases leftSign : left.negative <;> cases rightSign : right.negative
  · simp
  · by_cases less : left.magnitude < right.magnitude <;> simp [less] <;> omega
  · by_cases less : left.magnitude < right.magnitude <;> simp [less] <;> omega
  · simp only [reduceIte]
    push_cast
    ring

end SignedMagnitude

namespace Rounding

/-- The integer below. -/
def floor (exact : ℚ) : Nat := ⌊exact⌋₊

/-- The nearest integer, halves upwards. -/
def halfUp (exact : ℚ) : Nat := ⌊exact + 1 / 2⌋₊

/-- The integer above. -/
def ceiling (exact : ℚ) : Nat := ⌈exact⌉₊

variable (dividend divisor : Nat)

theorem floor_quotient :
    floor ((dividend : ℚ) / divisor) = dividend / divisor :=
  Nat.floor_div_eq_div dividend divisor

theorem halfUp_natCast (number : Nat) : halfUp number = number := by
  rw [halfUp, Nat.floor_eq_iff (by positivity)]
  constructor <;> linarith

/-- Rounding half up looks at the remainder: it adds one from half the divisor on. -/
theorem halfUp_quotient (positive : 0 < divisor) (even : 2 * (divisor / 2) = divisor) :
    halfUp ((dividend : ℚ) / divisor) =
      dividend / divisor + if divisor / 2 ≤ dividend % divisor then 1 else 0 := by
  have scaled : (dividend : ℚ) / divisor + 1 / 2 =
      ((dividend + divisor / 2 : Nat) : ℚ) / (divisor : Nat) := by
    have half : ((divisor / 2 : Nat) : ℚ) = (divisor : ℚ) / 2 := by
      have := congrArg (fun value : Nat => (value : ℚ)) even
      push_cast at this
      linarith
    push_cast
    rw [half]
    field_simp
  rw [halfUp, scaled, Nat.floor_div_eq_div]
  have split := Nat.div_add_mod dividend divisor
  have small := Nat.mod_lt dividend positive
  conv_lhs => rw [← split, Nat.add_assoc, Nat.mul_add_div positive]
  congr 1
  by_cases upper : divisor / 2 ≤ dividend % divisor
  · rw [if_pos upper]
    exact Nat.div_eq_of_lt_le (by omega) (by omega)
  · rw [if_neg upper]
    exact Nat.div_eq_of_lt (by omega)

/-- Rounding up adds one to the quotient of an inexact division. -/
theorem ceiling_quotient (positive : 0 < divisor) :
    ceiling ((dividend : ℚ) / divisor) =
      dividend / divisor + if dividend % divisor = 0 then 0 else 1 := by
  have nonzero : (0 : ℚ) < divisor := by positivity
  have split := Nat.div_add_mod dividend divisor
  have small := Nat.mod_lt dividend positive
  have cast : (divisor : ℚ) * (dividend / divisor : Nat) + (dividend % divisor : Nat) =
      dividend := by exact_mod_cast split
  rw [ceiling]
  by_cases divisible : dividend % divisor = 0
  · rw [if_pos divisible, Nat.add_zero]
    have : (dividend : ℚ) / divisor = (dividend / divisor : Nat) := by
      rw [div_eq_iff (ne_of_gt nonzero), ← cast, divisible]
      ring
    rw [this, Nat.ceil_natCast]
  · rw [if_neg divisible, Nat.ceil_eq_iff (Nat.succ_ne_zero _)]
    have lower : (1 : ℚ) ≤ (dividend % divisor : Nat) := by
      exact_mod_cast Nat.one_le_iff_ne_zero.mpr divisible
    have upper : ((dividend % divisor : Nat) : ℚ) ≤ divisor := by
      exact_mod_cast Nat.le_of_lt small
    rw [Nat.succ_sub_one, lt_div_iff₀ nonzero, div_le_iff₀ nonzero]
    constructor
    · linarith
    · push_cast
      linarith

end Rounding

end UnixCommons
