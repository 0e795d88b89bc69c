import Mathlib.Data.Nat.Log
import Mathlib.Tactic.Linarith

/-!
# Integer types of a C-like machine

An integer type is a width and a signedness. A value of a narrower type is first
promoted to the 32-bit signed type, and two operands of different types are
brought to a common type before they are divided; a signed operand may lose its
value there. Conversions reduce modulo the width.

For operands that are not negative nothing is lost, whatever the two types are:
division is then division of natural numbers. This is the only fact a program
needs that works on magnitudes.
-/

namespace UnixCommons.Machine

/-- An integer type of at most one machine word. -/
structure IntType where
  bits : Nat
  signed : Bool
  positive : 0 < bits
  word : bits ≤ 64
deriving DecidableEq

namespace IntType

def int32 : IntType := ⟨32, true, by decide, by decide⟩

def int64 : IntType := ⟨64, true, by decide, by decide⟩

def uint8 : IntType := ⟨8, false, by decide, by decide⟩

def uint16 : IntType := ⟨16, false, by decide, by decide⟩

def uint32 : IntType := ⟨32, false, by decide, by decide⟩

def uint64 : IntType := ⟨64, false, by decide, by decide⟩

/-- Exclusive upper bound of the values. -/
def limit (type : IntType) : Nat := if type.signed then 2 ^ (type.bits - 1) else 2 ^ type.bits

/-- `std::numeric_limits::digits10`: every number of that many digits is a value. -/
def digits10 (type : IntType) : Nat := Nat.log 10 type.limit

/-- The integers a type can hold. -/
def Holds (type : IntType) (value : Int) : Prop :=
  (if type.signed then -(type.limit : Int) else 0) ≤ value ∧ value < type.limit
  deriving Decidable

/-- Conversion to a type. -/
def wrap (type : IntType) (value : Int) : Int :=
  if type.signed then value.bmod (2 ^ type.bits) else value % (2 ^ type.bits : Nat)

/-- Integer promotion: narrow types become the 32-bit signed type. -/
def promote (type : IntType) : IntType := if type.bits < 32 then int32 else type

/-- The usual arithmetic conversions: of two types of one signedness the wider,
otherwise the unsigned one unless the signed one is wider. -/
def common (left right : IntType) : IntType :=
  let left := left.promote
  let right := right.promote
  if left.signed = right.signed then if left.bits < right.bits then right else left
  else if left.signed then if left.bits ≤ right.bits then right else left
  else if right.bits ≤ left.bits then left else right

/-- The quotient of two operands, truncated towards zero. -/
def quot (left : IntType) (dividend : Int) (right : IntType) (divisor : Int) : Int :=
  ((left.common right).wrap dividend).tdiv ((left.common right).wrap divisor)

/-- The remainder of two operands, with the sign of the dividend. -/
def rem (left : IntType) (dividend : Int) (right : IntType) (divisor : Int) : Int :=
  ((left.common right).wrap dividend).tmod ((left.common right).wrap divisor)

/-- The product of two operands. -/
def mul (left : IntType) (factor1 : Int) (right : IntType) (factor2 : Int) : Int :=
  (left.common right).wrap ((left.common right).wrap factor1 * (left.common right).wrap factor2)

/-- The sum of two operands. -/
def add (left : IntType) (summand1 : Int) (right : IntType) (summand2 : Int) : Int :=
  (left.common right).wrap ((left.common right).wrap summand1 + (left.common right).wrap summand2)

theorem limit_le_word (type : IntType) : type.limit ≤ 2 ^ 64 := by
  unfold limit
  have := type.word
  split <;> exact Nat.pow_le_pow_right (by decide) (by omega)

variable {type left right : IntType}

/-- A value of the type is unchanged by conversion. -/
theorem wrap_of_holds {value : Int} (holds : type.Holds value) : type.wrap value = value := by
  unfold wrap
  unfold Holds limit at holds
  by_cases signed : type.signed
  · simp only [signed, if_true] at holds ⊢
    have double : 2 ^ type.bits = 2 * 2 ^ (type.bits - 1) := by
      rw [← pow_succ', Nat.sub_add_cancel type.positive]
    exact Int.bmod_eq_of_le_mul_two (by omega) (by omega)
  · simp only [signed, Bool.false_eq_true, if_false] at holds ⊢
    exact Int.emod_eq_of_lt (by omega) (by exact_mod_cast holds.2)

/-- Natural numbers below the limit are held. -/
theorem holds_natCast {value : Nat} (small : value < type.limit) : type.Holds value := by
  unfold Holds
  split_ifs <;> omega

/-- A natural number below the limit is unchanged by conversion. -/
theorem wrap_natCast {type : IntType} {value : Nat} (small : value < type.limit) :
    type.wrap value = value :=
  wrap_of_holds (holds_natCast small)

theorem limit_positive (type : IntType) : 0 < type.limit := by
  unfold limit
  split_ifs <;> positivity

@[simp] theorem wrap_zero (type : IntType) : type.wrap 0 = 0 :=
  type.wrap_natCast type.limit_positive

/-- Widening keeps the nonnegative values unless an unsigned type becomes signed. -/
theorem limit_le_of_bits (wider : left.bits ≤ right.bits)
    (kind : left.signed = right.signed ∨ left.signed = true) : left.limit ≤ right.limit := by
  unfold limit
  rcases kind with same | signed
  · rw [same]
    split <;> exact Nat.pow_le_pow_right (by decide) (by omega)
  · rw [if_pos signed]
    split <;> exact Nat.pow_le_pow_right (by decide) (by omega)

/-- A wider signed type holds every value of an unsigned one. -/
theorem limit_le_of_wider (wider : left.bits < right.bits) : left.limit ≤ right.limit := by
  unfold limit
  split <;> split <;> exact Nat.pow_le_pow_right (by decide) (by omega)

/-- Promotion keeps the values. -/
theorem limit_le_promote {type : IntType} : type.limit ≤ type.promote.limit := by
  unfold promote
  split
  · rename_i narrow
    exact limit_le_of_wider narrow
  · exact le_refl _

variable (left right : IntType)

/-- The common type holds every nonnegative value of both operands. -/
theorem limit_le_common :
    left.limit ≤ (left.common right).limit ∧ right.limit ≤ (left.common right).limit := by
  have leftPromoted := left.limit_le_promote
  have rightPromoted := right.limit_le_promote
  suffices joined : left.promote.limit ≤ (left.common right).limit ∧
      right.promote.limit ≤ (left.common right).limit by
    exact ⟨leftPromoted.trans joined.1, rightPromoted.trans joined.2⟩
  unfold common
  generalize left.promote = wideLeft
  generalize right.promote = wideRight
  by_cases same : wideLeft.signed = wideRight.signed
  · rw [if_pos same]
    split
    · exact ⟨limit_le_of_bits (by omega) (Or.inl same), le_refl _⟩
    · exact ⟨le_refl _, limit_le_of_bits (by omega) (Or.inl same.symm)⟩
  · rw [if_neg same]
    by_cases signed : wideLeft.signed = true
    · rw [if_pos signed]
      split
      · exact ⟨limit_le_of_bits (by omega) (Or.inr signed), le_refl _⟩
      · exact ⟨le_refl _, limit_le_of_wider (by omega)⟩
    · have rightSigned : wideRight.signed = true := by
        cases other : wideRight.signed <;> simp_all
      rw [if_neg signed]
      split
      · exact ⟨le_refl _, limit_le_of_bits (by omega) (Or.inr rightSigned)⟩
      · exact ⟨limit_le_of_wider (by omega), le_refl _⟩

section

variable (left right : IntType) (dividend divisor : Nat) (dividendSmall : dividend < left.limit)
  (divisorSmall : divisor < right.limit)
include dividendSmall divisorSmall

/-- Division of operands that are not negative is division of natural numbers. -/
theorem quot_natCast :
    left.quot dividend right divisor = (dividend / divisor : Nat) := by
  obtain ⟨leftFits, rightFits⟩ := limit_le_common left right
  rw [quot, wrap_natCast (by omega), wrap_natCast (by omega)]
  rfl

/-- The remainder of natural numbers. -/
theorem rem_natCast :
    left.rem dividend right divisor = (dividend % divisor : Nat) := by
  obtain ⟨leftFits, rightFits⟩ := limit_le_common left right
  rw [rem, wrap_natCast (by omega), wrap_natCast (by omega)]
  rfl

end

/-- A product of operands that are not negative is exact if it fits the left operand's type. -/
theorem mul_natCast {factor1 factor2 : Nat} (small1 : factor1 < left.limit)
    (small2 : factor2 < right.limit) (fits : factor1 * factor2 < left.limit) :
    left.mul factor1 right factor2 = (factor1 * factor2 : Nat) := by
  obtain ⟨leftFits, rightFits⟩ := limit_le_common left right
  rw [mul, wrap_natCast (by omega), wrap_natCast (by omega), ← Int.natCast_mul,
    wrap_natCast (by omega)]

/-- The sum of natural numbers that fits. -/
theorem add_natCast {summand1 summand2 : Nat} (small : summand2 < right.limit)
    (fits : summand1 + summand2 < left.limit) :
    left.add summand1 right summand2 = (summand1 + summand2 : Nat) := by
  obtain ⟨leftFits, rightFits⟩ := limit_le_common left right
  rw [add, wrap_natCast (by omega), wrap_natCast (by omega), ← Int.natCast_add,
    wrap_natCast (by omega)]

end IntType

end UnixCommons.Machine
