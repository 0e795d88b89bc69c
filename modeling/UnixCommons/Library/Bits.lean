import Mathlib.Tactic.Linarith
import Mathlib.Tactic.Ring

/-!
# Bit fields

Numbers put together from fields of bits and taken apart again, as sums, products and
remainders. A field is written by a shift and an `or`, and read by a mask; both are
arithmetic as long as the field below has room for what is put there.
-/

namespace UnixCommons.Bits

/-- A mask keeps the low bits. -/
theorem and_mask {number : Nat} (width : Nat) : number &&& (2 ^ width - 1) = number % 2 ^ width :=
  Nat.and_two_pow_sub_one_eq_mod number width

/-- A mask that is shifted together with the number. -/
theorem shifted_mask {number shift : Nat} (width : Nat) :
    (number <<< shift) &&& ((2 ^ width - 1) <<< shift) = (number % 2 ^ width) * 2 ^ shift := by
  rw [← Nat.shiftLeft_and_distrib, and_mask, Nat.shiftLeft_eq]

variable {high low width : Nat}

/-- Bits put behind others. -/
theorem or_low (small : low < 2 ^ width) : high * 2 ^ width ||| low = high * 2 ^ width + low := by
  rw [mul_comm]
  exact (Nat.two_pow_add_eq_or_of_lt small high).symm

/-- Bits put behind others that are shifted to make room. -/
theorem shiftLeft_or (small : low < 2 ^ width) :
    high <<< width ||| low = high * 2 ^ width + low := by
  rw [Nat.shiftLeft_eq, or_low small]

/-- A field of low bits with a mark above it. -/
theorem masked_mark {number : Nat} (mark width : Nat) :
    (number &&& (2 ^ width - 1)) ||| mark * 2 ^ width = mark * 2 ^ width + number % 2 ^ width := by
  rw [and_mask, Nat.or_comm, or_low (Nat.mod_lt _ (Nat.two_pow_pos width))]

/-- The low bits of a field with a mark above it. -/
theorem mark_and_mask {mark : Nat} (small : low < 2 ^ width) :
    (mark * 2 ^ width + low) &&& (2 ^ width - 1) = low := by
  rw [and_mask, mul_comm, Nat.mul_add_mod, Nat.mod_eq_of_lt small]

/-- A field of bits in place. -/
theorem masked_in_place {number shift : Nat} (width : Nat) :
    number &&& ((2 ^ width - 1) <<< shift) = number / 2 ^ shift % 2 ^ width * 2 ^ shift := by
  rw [← Nat.shiftRight_eq_div_pow, ← and_mask, ← Nat.shiftLeft_eq]
  apply Nat.eq_of_testBit_eq
  intro place
  simp only [Nat.testBit_and, Nat.testBit_shiftLeft, Nat.testBit_shiftRight]
  by_cases below : shift ≤ place
  · have same : shift + (place - shift) = place := Nat.add_sub_cancel' below
    simp only [below, decide_true, Bool.true_and, same]
  · simp only [below, decide_false, Bool.false_and, Bool.and_false]

/-- A field of bits in place, moved down. -/
theorem masked_shiftRight {number shift : Nat} (width : Nat) :
    (number &&& ((2 ^ width - 1) <<< shift)) >>> shift = number / 2 ^ shift % 2 ^ width := by
  rw [masked_in_place, Nat.shiftRight_eq_div_pow]
  exact Nat.mul_div_cancel _ (Nat.two_pow_pos shift)

end UnixCommons.Bits
