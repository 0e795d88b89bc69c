import Mathlib.Data.List.Basic

/-!
# Division by a polynomial in a shift register

A register holds the remainder of the bits fed so far, divided by a polynomial over the
field of two elements; the leading coefficient of the polynomial is left out. Feeding a
bit moves the register by one place. If the bit that leaves differs from the bit that is
fed, the polynomial is subtracted, which is the exclusive or.

Feeding is linear in the register and the bits together, and a register that is fed its
own leading bits only moves. So several bits can be fed at once: the register moves by
their number, and the difference between the bits that leave and those that are fed
contributes what it leaves in an empty register. A table needs to hold no more than that.

The mirrored register holds its bits the other way round and moves the other way.
-/

namespace UnixCommons.ShiftRegister

open List

variable {width : Nat} (poly : BitVec width)

/-- One bit is fed. -/
def feed (register : BitVec width) (bit : Bool) : BitVec width :=
  if register.msb ^^ bit then (register <<< 1) ^^^ poly else register <<< 1

/-- Bits are fed one after another. -/
def feedAll (register : BitVec width) (bits : List Bool) : BitVec width :=
  bits.foldl (feed poly) register

/-- The first bits of a vector, the most significant one first. -/
def leading (count : Nat) (bits : BitVec width) : List Bool :=
  (List.range count).map bits.getMsbD

variable (register : BitVec width)

variable (left right : BitVec width)

/-- Two registers fed with two bits, and the difference of both. -/
theorem feed_xor (bit bit' : Bool) :
    feed poly (left ^^^ right) (bit ^^ bit') = feed poly left bit ^^^ feed poly right bit' := by
  have cancel : left <<< 1 ^^^ poly ^^^ (right <<< 1 ^^^ poly) = left <<< 1 ^^^ right <<< 1 := by
    rw [BitVec.xor_comm (right <<< 1), ← BitVec.xor_assoc, BitVec.xor_assoc (left <<< 1),
      BitVec.xor_self, BitVec.xor_zero]
  unfold feed
  rw [BitVec.msb_xor, BitVec.shiftLeft_xor_distrib]
  cases left.msb <;> cases right.msb <;> cases bit <;> cases bit' <;>
    simp only [Bool.xor_false, Bool.xor_true, Bool.not_true, Bool.not_false,
      Bool.false_eq_true, if_true, if_false, cancel]
  all_goals ac_rfl

/-- Feeding is linear in the register and the bits. -/
theorem feedAll_xor {bits bits' : List Bool} (same : bits.length = bits'.length) :
    feedAll poly (left ^^^ right) (List.zipWith xor bits bits') =
      feedAll poly left bits ^^^ feedAll poly right bits' := by
  induction bits generalizing left right bits' with
  | nil =>
    cases bits' with
    | nil => rfl
    | cons bit' rest' => simp at same
  | cons bit rest ih =>
    cases bits' with
    | nil => simp at same
    | cons bit' rest' =>
      have shorter : rest.length = rest'.length := by simpa using same
      change feedAll poly (feed poly (left ^^^ right) (bit ^^ bit')) _ =
        feedAll poly (feed poly left bit) rest ^^^ feedAll poly (feed poly right bit') rest'
      rw [feed_xor]
      exact ih _ _ shorter

/-- A register that is fed its leading bit moves. -/
theorem feed_msb : feed poly register register.msb = register <<< 1 := by
  unfold feed
  rw [Bool.xor_self]
  rfl

theorem leading_succ (count : Nat) (register : BitVec width) :
    leading (count + 1) register = register.msb :: leading count (register <<< 1) := by
  rw [leading, range_succ_eq_map, map_cons, map_map]
  congr 1
  apply map_congr_left
  intro index _
  rw [Function.comp_apply, BitVec.getMsbD_shiftLeft]

/-- A register that is fed its leading bits moves by their number. -/
theorem feedAll_leading (count : Nat) (register : BitVec width) :
    feedAll poly register (leading count register) = register <<< count := by
  induction count generalizing register with
  | zero => exact (BitVec.shiftLeft_zero register).symm
  | succ count ih =>
    rw [leading_succ]
    change feedAll poly (feed poly register register.msb) _ = _
    rw [feed_msb, ih, Nat.add_comm, BitVec.shiftLeft_add]

/-- Several bits at once: what an empty register makes of the difference between the bits
that leave and the bits that are fed. -/
theorem feedAll_eq (bits : List Bool) :
    feedAll poly register bits = (register <<< bits.length) ^^^
      feedAll poly (BitVec.ofNat width 0) (List.zipWith xor (leading bits.length register) bits) := by
  have length : (leading bits.length register).length = bits.length := by
    rw [leading, length_map, length_range]
  have twice : List.zipWith xor (leading bits.length register)
      (List.zipWith xor (leading bits.length register) bits) = bits := by
    generalize leading bits.length register = leaving at length
    induction bits generalizing leaving with
    | nil => simp
    | cons bit rest ih =>
      cases leaving with
      | nil => simp at length
      | cons leaves others =>
        rw [zipWith_cons_cons, zipWith_cons_cons, ih others (by simpa using length)]
        cases leaves <;> cases bit <;> rfl
  have linear := feedAll_xor poly register (BitVec.ofNat width 0)
    (show (leading bits.length register).length =
        (List.zipWith xor (leading bits.length register) bits).length by
      rw [length_zipWith, length, Nat.min_self])
  rw [twice, BitVec.xor_zero, feedAll_leading] at linear
  exact linear

/-- The difference of leading bits. -/
theorem zipWith_leading (count : Nat) (left right : BitVec width) :
    List.zipWith xor (leading count left) (leading count right) = leading count (left ^^^ right) := by
  rw [leading, leading, zipWith_map, zipWith_self]
  exact map_congr_left fun index _ => BitVec.getMsbD_xor.symm

/-! ## The mirrored register -/

/-- One bit is fed into the mirrored register. -/
def feedMirrored (register : BitVec width) (bit : Bool) : BitVec width :=
  if register.getLsbD 0 ^^ bit then (register >>> 1) ^^^ poly.reverse else register >>> 1

theorem reverse_xor :
    (left ^^^ right).reverse = left.reverse ^^^ right.reverse := by
  apply BitVec.eq_of_getLsbD_eq
  intro index _
  simp only [BitVec.getLsbD_reverse, BitVec.getLsbD_xor, BitVec.getMsbD_xor]

theorem reverse_shiftLeft (count : Nat) :
    (register.reverse <<< count).reverse = register >>> count := by
  apply BitVec.eq_of_getLsbD_eq
  intro index _
  rw [BitVec.getLsbD_reverse, BitVec.getMsbD_shiftLeft, BitVec.getMsbD_reverse,
    BitVec.getLsbD_ushiftRight, Nat.add_comm]

/-- The mirrored register is the mirror image of the register. -/
theorem feedMirrored_eq (bit : Bool) :
    feedMirrored poly register bit = (feed poly register.reverse bit).reverse := by
  unfold feedMirrored feed
  rw [BitVec.msb_reverse]
  split
  · rw [reverse_xor, reverse_shiftLeft]
  · rw [reverse_shiftLeft]

theorem foldl_feedMirrored (bits : List Bool) :
    bits.foldl (feedMirrored poly) register = (feedAll poly register.reverse bits).reverse := by
  induction bits generalizing register with
  | nil => exact BitVec.reverse_reverse_eq.symm
  | cons bit rest ih =>
    rw [foldl_cons, ih, feedMirrored_eq, BitVec.reverse_reverse_eq]
    rfl

end UnixCommons.ShiftRegister
