import UnixCommons.Library.Limbs

/-!
# Element types, ranks and limb layout of fixed-point decimals

A multi-limb decimal is instantiated by an unsigned element type, a total rank
and a fraction rank. The constants of the class are computed here from those
three exactly as its header computes them: how many decimal digits one element
holds, how many elements the number needs, how far the top element may count and
where the decimal point cuts an element. Rank constraints are the header's
compile-time assertions, kept as fields, so an instance the compiler refuses
cannot be written down.

Machine storage is modelled by natural numbers reduced modulo the element's
width. Later proofs discharge each reduction from the bounds stated here.
-/

namespace UnixCommons.Generics

/-- The unsigned integer types a decimal can be stored in. -/
inductive Element where
  | uint8
  | uint16
  | uint32
  | uint64
deriving DecidableEq, Repr

namespace Element

/-- Storage width. -/
def bits : Element → Nat
  | uint8 => 8
  | uint16 => 16
  | uint32 => 32
  | uint64 => 64

/-- `std::numeric_limits<Element>::digits10`. -/
def digits10 : Element → Nat
  | uint8 => 2
  | uint16 => 4
  | uint32 => 9
  | uint64 => 19

/-- The number of values of the element type. -/
def modulus (element : Element) : Nat := 2 ^ element.bits

/-- Storing a computed value keeps its residue. -/
def wrap (element : Element) (value : Nat) : Nat := value % element.modulus

/-- `static_cast<Element>(-1)`. -/
def maximum (element : Element) : Nat := element.modulus - 1

/-- Decimal digits per element: summing two elements must fit an element. -/
def digitsPerElement (element : Element) : Nat :=
  if 2 ≤ element.maximum / 10 ^ element.digits10 then element.digits10
  else element.digits10 - 1

/-- Evaluation base of one element. -/
def base (element : Element) : Nat := 10 ^ element.digitsPerElement

/-- `MAX_SUM`, how many times the base fits the element type. -/
def maxSum (element : Element) : Nat := element.maximum / element.base

/-- A value of the element type is not cut. -/
theorem wrap_eq {element : Element} {value : Nat} (small : value < element.modulus) :
    element.wrap value = value := Nat.mod_eq_of_lt small

variable (element : Element)
include element

theorem digits_positive : 2 ≤ element.digitsPerElement := by
  cases element <;> decide

/-- An element holds at least two decimal digits. -/
theorem base_large : 100 ≤ element.base := by
  cases element <;> decide

theorem base_positive : 0 < element.base :=
  lt_of_lt_of_le (by decide) element.base_large

/-- The base is even, so that half of it is exact. -/
theorem two_dvd_base : 2 ∣ element.base := by
  cases element <;> decide

/-- Two digits and a carry fit one element. -/
theorem two_base_le : 2 * element.base ≤ element.modulus := by
  cases element <;> decide

/-- Where the source relies on `MAX_SUM > 2`, three digits fit one element. -/
theorem three_base_le (wide : 2 < element.maxSum) : 3 * element.base ≤ element.modulus := by
  cases element <;> revert wide <;> decide

/-- No element is wider than 64 bits. -/
theorem modulus_le : element.modulus ≤ 2 ^ 64 := by
  cases element <;> decide

/-- A decimal element leaves room in its type. -/
theorem base_lt_modulus : element.base < element.modulus := by
  have := element.two_base_le
  have := element.base_positive
  omega

end Element

/-- One instantiation of the decimal template. -/
structure Format where
  element : Element
  totalRank : Nat
  fractionRank : Nat
  totalPositive : 0 < totalRank
  fractionBounded : fractionRank ≤ totalRank

namespace Format

/-- Six digits in bytes of two digits each, two of them behind the point. -/
def bytes : Format := ⟨.uint8, 6, 2, by decide, by decide⟩

variable (format : Format)

def base : Nat := format.element.base

theorem element_base : format.element.base = format.base := rfl

/-- `DIGITS_PER_ELEMENT`. -/
def digits : Nat := format.element.digitsPerElement

/-- The digits in front of the point. -/
def integerRank : Nat := format.totalRank - format.fractionRank

/-- Number of elements that represent the number. -/
def size : Nat := (format.totalRank + format.digits - 1) / format.digits

/-- Exclusive bound of the most significant element. -/
def integerMaxOver : Nat := 10 ^ (format.digits - (format.size * format.digits - format.totalRank))

/-- Index of the element in which the fraction part ends. -/
def fractionEnd : Nat := format.fractionRank / format.digits

/-- Weight of the integer part inside the boundary element. -/
def fractionRemainder : Nat := 10 ^ (format.fractionRank % format.digits)

/-- What is left of an element above the fraction digits of the boundary. -/
def fractionOver : Nat := 10 ^ (format.digits - format.fractionRank % format.digits)

/-- Ranks and size of the product array. -/
def tmpTotalRank : Nat := format.integerRank + 2 * format.fractionRank

/-- The elements of a product. -/
def tmpSize : Nat :=
  format.tmpTotalRank / format.digits + if format.tmpTotalRank % format.digits = 0 then 0 else 1

/-- The bound of the highest element of a product. -/
def tmpIntegerMaxOver : Nat :=
  10 ^ (format.digits - (format.tmpSize * format.digits - format.tmpTotalRank))

/-- Ranks and size of the dividend array. -/
def divTmpTotalRank : Nat := format.integerRank + 2 * format.fractionRank + format.digits

/-- The elements of a dividend. -/
def divTmpSize : Nat :=
  format.divTmpTotalRank / format.digits +
    if format.divTmpTotalRank % format.digits = 0 then 0 else 1

theorem base_eq : format.base = 10 ^ format.digits := rfl

theorem base_large : 100 ≤ format.base := format.element.base_large

theorem base_positive : 0 < format.base := format.element.base_positive

theorem two_dvd_base : 2 ∣ format.base := format.element.two_dvd_base

theorem digits_two : 2 ≤ format.digits := format.element.digits_positive

theorem digits_positive : 0 < format.digits := Nat.zero_lt_of_lt format.digits_two

theorem two_base_le : 2 * format.base ≤ format.element.modulus := format.element.two_base_le

/-- A number of elements that just holds a rank puts the rank's limit at a
multiple of the top element's weight. -/
theorem top_weight {rank count : Nat} (above : rank ≤ count * format.digits)
    (below : (count - 1) * format.digits < rank) :
    format.base ^ (count - 1) * 10 ^ (format.digits - (count * format.digits - rank)) =
      10 ^ rank := by
  have positive : 1 ≤ count := by
    by_contra none
    have : count = 0 := by omega
    subst this
    omega
  have shape : count * format.digits = (count - 1) * format.digits + format.digits := by
    rw [← Nat.succ_mul, Nat.succ_eq_add_one, Nat.sub_add_cancel positive]
  rw [base_eq, ← pow_mul, ← pow_add]
  congr 1
  rw [mul_comm format.digits]
  omega

/-- Rounding a rank up to elements, in either of the two forms of the header. -/
theorem ceiling_bounds {rank : Nat} (positive : 0 < rank) :
    let count := rank / format.digits + if rank % format.digits = 0 then 0 else 1
    rank ≤ count * format.digits ∧ (count - 1) * format.digits < rank := by
  have two := format.digits_two
  have split := Nat.div_add_mod rank format.digits
  have small := Nat.mod_lt rank (by omega : 0 < format.digits)
  rw [mul_comm] at split
  dsimp only
  by_cases exactly : rank % format.digits = 0
  · rw [if_pos exactly, add_zero, Nat.sub_mul]
    omega
  · rw [if_neg exactly, Nat.add_sub_cancel, add_mul]
    omega

/-- `SIZE` is the number of digits over those of an element, rounded up. -/
theorem size_eq : format.size =
    format.totalRank / format.digits + if format.totalRank % format.digits = 0 then 0 else 1 := by
  obtain ⟨above, below⟩ := format.ceiling_bounds format.totalPositive
  generalize format.totalRank / format.digits +
    (if format.totalRank % format.digits = 0 then 0 else 1) = count at above below ⊢
  have positive : 1 ≤ count := by
    by_contra none
    rw [show count = 0 by omega] at above
    omega
  have shape : count * format.digits = (count - 1) * format.digits + format.digits := by
    rw [← Nat.succ_mul, Nat.succ_eq_add_one, Nat.sub_add_cancel positive]
  apply Nat.div_eq_of_lt_le
  · omega
  · rw [add_mul]
    omega

/-- The digits fill all elements but the last, and fit them. -/
theorem size_bounds : format.totalRank ≤ format.size * format.digits ∧
    (format.size - 1) * format.digits < format.totalRank := by
  rw [size_eq]
  exact format.ceiling_bounds format.totalPositive

theorem size_positive : 0 < format.size := by
  have above := format.size_bounds.1
  have := format.totalPositive
  by_contra none
  rw [show format.size = 0 by omega] at above
  omega

/-- The limit of the total rank sits at `INTEGER_MAX_OVER` of the top element. -/
theorem top_limit : format.base ^ (format.size - 1) * format.integerMaxOver =
    10 ^ format.totalRank :=
  format.top_weight format.size_bounds.1 format.size_bounds.2

/-- A decimal fits its elements. -/
theorem limit_le_power : 10 ^ format.totalRank ≤ format.base ^ format.size := by
  rw [base_eq, ← pow_mul]
  exact Nat.pow_le_pow_right (by decide) (by
    have := format.size_bounds.1
    rwa [mul_comm] at this)

/-- A top digit below `INTEGER_MAX_OVER` keeps the number within the total rank. -/
theorem lt_limit {low top : Nat} (lowSmall : low < format.base ^ (format.size - 1))
    (topSmall : top < format.integerMaxOver) :
    low + format.base ^ (format.size - 1) * top < 10 ^ format.totalRank := by
  have limit := format.top_limit
  generalize format.base ^ (format.size - 1) = unit at *
  calc low + unit * top < unit + unit * top := Nat.add_lt_add_right lowSmall _
    _ = unit * (top + 1) := by ring
    _ ≤ unit * format.integerMaxOver := Nat.mul_le_mul_left _ topSmall
    _ = 10 ^ format.totalRank := limit

/-- The two powers around the point make up a base. -/
theorem remainder_over : format.fractionRemainder * format.fractionOver = format.base := by
  have small := Nat.mod_lt format.fractionRank format.digits_positive
  rw [fractionRemainder, fractionOver, base_eq, ← pow_add]
  congr 1
  omega

/-- The decimal point: the whole fraction elements and the digits of the
boundary element make up the fraction rank. -/
theorem fraction_weight : format.base ^ format.fractionEnd * format.fractionRemainder =
    10 ^ format.fractionRank := by
  rw [base_eq, fractionRemainder, ← pow_mul, ← pow_add, fractionEnd, Nat.div_add_mod]

theorem fractionRemainder_positive : 0 < format.fractionRemainder := Nat.pow_pos (by decide)

/-- A boundary inside an element cuts it at an even number. -/
theorem two_dvd_fractionRemainder (cut : format.fractionRemainder ≠ 1) :
    2 ∣ format.fractionRemainder := by
  refine dvd_pow (by decide) fun none => cut ?_
  rw [fractionRemainder, none, pow_zero]

theorem fractionOver_positive : 0 < format.fractionOver := Nat.pow_pos (by decide)

/-- A product has the digits of a factor and the fraction of another. -/
theorem tmpTotalRank_eq : format.tmpTotalRank = format.totalRank + format.fractionRank := by
  have := format.fractionBounded
  unfold tmpTotalRank integerRank
  omega

/-- The digits of a product fill all its elements but the last, and fit them. -/
theorem tmpSize_bounds : format.tmpTotalRank ≤ format.tmpSize * format.digits ∧
    (format.tmpSize - 1) * format.digits < format.tmpTotalRank := by
  apply format.ceiling_bounds
  have := format.totalPositive
  rw [tmpTotalRank_eq]
  omega

/-- The bound of the highest element is that of the product. -/
theorem tmp_top_limit : format.base ^ (format.tmpSize - 1) * format.tmpIntegerMaxOver =
    10 ^ (format.totalRank + format.fractionRank) := by
  rw [← tmpTotalRank_eq]
  exact format.top_weight format.tmpSize_bounds.1 format.tmpSize_bounds.2

/-- The element of the point is the one in which the fraction ends. -/
theorem fraction_bounds : format.fractionEnd * format.digits ≤ format.fractionRank ∧
    format.fractionRank < (format.fractionEnd + 1) * format.digits := by
  have split := Nat.div_add_mod format.fractionRank format.digits
  have small := Nat.mod_lt format.fractionRank format.digits_positive
  rw [mul_comm] at split
  unfold fractionEnd
  rw [add_mul]
  omega

/-- The boundary element has no fraction digits exactly when the fraction fills
whole elements. -/
theorem fractionRemainder_one : format.fractionRemainder = 1 ↔
    format.fractionRank = format.fractionEnd * format.digits := by
  have split := Nat.div_add_mod format.fractionRank format.digits
  rw [mul_comm] at split
  have power : format.fractionRemainder = 1 ↔ format.fractionRank % format.digits = 0 := by
    exact Nat.pow_eq_one.trans (by simp)
  unfold fractionEnd
  omega

/-- A fraction of whole elements has an element. -/
theorem fractionEnd_positive (whole : format.fractionRemainder = 1)
    (fraction : format.fractionRank ≠ 0) : 0 < format.fractionEnd := by
  have rank := format.fractionRemainder_one.mp whole
  by_contra none
  rw [show format.fractionEnd = 0 by omega] at rank
  omega

theorem fractionOver_le_base : format.fractionOver ≤ format.base := by
  rw [← format.remainder_over]
  exact Nat.le_mul_of_pos_left _ format.fractionRemainder_positive

theorem fractionRemainder_le_base : format.fractionRemainder ≤ format.base := by
  rw [← format.remainder_over]
  exact Nat.le_mul_of_pos_right _ format.fractionOver_positive

theorem integerMaxOver_positive : 0 < format.integerMaxOver := Nat.pow_pos (by decide)

/-- A decimal may be as large as its highest element makes it. -/
theorem power_le_limit : format.base ^ (format.size - 1) ≤ 10 ^ format.totalRank := by
  rw [← format.top_limit]
  exact Nat.le_mul_of_pos_right _ format.integerMaxOver_positive

theorem integerMaxOver_le_base : format.integerMaxOver ≤ format.base :=
  Nat.pow_le_pow_right (by decide) (Nat.sub_le _ _)

/-- The digits around the point are all digits. -/
theorem integer_limit : 10 ^ format.integerRank * 10 ^ format.fractionRank =
    10 ^ format.totalRank := by
  rw [← pow_add, integerRank, Nat.sub_add_cancel format.fractionBounded]

/-- The fraction ends inside the array if there are integer digits, otherwise
inside the top element or right behind it. -/
theorem fractionEnd_size : format.fractionEnd ≤ format.size ∧
    (format.integerRank ≠ 0 ∨ format.fractionRemainder ≠ 1 → format.fractionEnd < format.size) ∧
    (format.integerRank = 0 → format.size ≤ format.fractionEnd + 1) := by
  have positive := format.digits_positive
  have total := format.fractionBounded
  obtain ⟨sizeAbove, sizeBelow⟩ := format.size_bounds
  obtain ⟨fractionAbove, fractionBelow⟩ := format.fraction_bounds
  have inside : format.fractionEnd * format.digits < format.totalRank →
      format.fractionEnd < format.size := by
    intro strict
    apply Nat.lt_of_mul_lt_mul_right (a := format.digits)
    omega
  refine ⟨Nat.le_of_mul_le_mul_right (by omega : _ ≤ format.size * format.digits) positive,
    fun cases => inside ?_, fun none => ?_⟩
  · rcases cases with digits | cut
    · unfold integerRank at digits
      omega
    · have := mt format.fractionRemainder_one.mpr cut
      omega
  · unfold integerRank at none
    have below : format.size - 1 < format.fractionEnd + 1 := by
      apply Nat.lt_of_mul_lt_mul_right (a := format.digits)
      omega
    omega

/-- Above the boundary element the integer part counts up to the top limit. -/
theorem integer_weight (above : format.fractionEnd + 1 ≤ format.size - 1) :
    format.fractionOver * (format.base ^ (format.size - 1 - (format.fractionEnd + 1)) *
      format.integerMaxOver) = 10 ^ format.integerRank := by
  have unit : 0 < 10 ^ format.fractionRank := Nat.pow_pos (by decide)
  apply Nat.eq_of_mul_eq_mul_right unit
  rw [format.integer_limit, ← format.top_limit, ← format.fraction_weight]
  calc _ = format.fractionRemainder * format.fractionOver * (format.base ^ format.fractionEnd *
        format.base ^ (format.size - 1 - (format.fractionEnd + 1))) * format.integerMaxOver := by ring
    _ = _ := by
      rw [format.remainder_over, ← pow_add, ← pow_succ']
      congr 2
      omega

/-- In a boundary element that is the top element, the integer part may count
further than its rank. -/
theorem integer_le_over (shared : format.fractionEnd + 1 = format.size) :
    10 ^ format.integerRank ≤ format.fractionOver := by
  have unit : 0 < 10 ^ format.fractionRank := Nat.pow_pos (by decide)
  apply le_of_mul_le_mul_right _ unit
  rw [format.integer_limit, ← format.top_limit, ← format.fraction_weight, ← shared]
  calc format.base ^ format.fractionEnd * format.integerMaxOver
      ≤ format.base ^ format.fractionEnd * format.base :=
        Nat.mul_le_mul_left _ format.integerMaxOver_le_base
    _ = format.fractionOver * (format.base ^ format.fractionEnd * format.fractionRemainder) := by
      rw [← format.remainder_over]
      ring

/-- The product array holds the elements of the number above the whole fraction
elements, and at most one element more. -/
theorem tmpSize_split : format.fractionEnd + format.size ≤ format.tmpSize ∧
    format.tmpSize ≤ format.fractionEnd + format.size + 1 ∧
    (format.fractionRemainder = 1 → format.tmpSize = format.fractionEnd + format.size) := by
  obtain ⟨sizeAbove, sizeBelow⟩ := format.size_bounds
  obtain ⟨tmpAbove, tmpBelow⟩ := format.tmpSize_bounds
  obtain ⟨fractionAbove, fractionBelow⟩ := format.fraction_bounds
  rw [tmpTotalRank_eq] at tmpAbove tmpBelow
  have lower : format.fractionEnd + (format.size - 1) < format.tmpSize := by
    apply Nat.lt_of_mul_lt_mul_right (a := format.digits)
    rw [add_mul]
    omega
  have upper : format.tmpSize - 1 < format.size + (format.fractionEnd + 1) := by
    apply Nat.lt_of_mul_lt_mul_right (a := format.digits)
    rw [add_mul]
    omega
  refine ⟨by omega, by omega, fun whole => ?_⟩
  have fraction := format.fractionRemainder_one.mp whole
  have tight : format.tmpSize - 1 < format.size + format.fractionEnd := by
    apply Nat.lt_of_mul_lt_mul_right (a := format.digits)
    rw [add_mul]
    omega
  omega

/-- The dividend array has exactly one element more than the product array. -/
theorem divTmpSize_eq : format.divTmpSize = format.tmpSize + 1 := by
  have positive := format.digits_positive
  unfold divTmpSize tmpSize divTmpTotalRank tmpTotalRank
  rw [Nat.add_div_right _ positive, Nat.add_mod_right]
  omega

end Format

end UnixCommons.Generics
