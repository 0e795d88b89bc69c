import UnixCommons.Generics.DecimalQuotient

/-!
# What products and quotients leave over

Rounding a product up depends on the digits behind the last place. The test of the
product array reads one element only: the boundary element, or the one below it when
the boundary cuts no element. A product that drops nothing but lower elements is
therefore rounded down, and the law states exactly when the rounding is right.

The division with remainder multiplies its quotient back, cut at the last place, and
subtracts. Product and remainder add up to the dividend again, and the remainder is
bounded by the divisor's last digits and one unit.
-/

namespace UnixCommons.Generics

open Limbs Outcome
open Nat (ofDigits)

namespace MulTmpArray

/-- The position of the element that `ceil` tests, counted in elements. -/
theorem tested_position {format : Format} (fraction : format.fractionRank ≠ 0) :
    (format.fractionRank - 1) / format.digits =
      if format.fractionRemainder = 1 then format.fractionEnd - 1 else format.fractionEnd := by
  obtain ⟨above, below⟩ := format.fraction_bounds
  have whole := format.fractionRemainder_one
  have positive := format.digits_positive
  split_ifs with exactly
  · have some := format.fractionEnd_positive exactly fraction
    have step : format.fractionEnd * format.digits =
        (format.fractionEnd - 1) * format.digits + format.digits := by
      rw [← Nat.succ_mul, Nat.succ_eq_add_one, Nat.sub_add_cancel some]
    apply Nat.div_eq_of_lt_le
    · omega
    · rw [Nat.succ_mul]
      omega
  · apply Nat.div_eq_of_lt_le
    · omega
    · omega

/-- The test of `ceil` holds when the dropped digits reach into the tested element. -/
theorem ceil_test {format : Format} {tmp : List Nat} (holds : Holds format tmp)
    (fraction : format.fractionRank ≠ 0) :
    (if format.fractionRemainder = 1 then tmp.getD (format.fractionEnd - 1) 0 ≠ 0
      else tmp.getD format.fractionEnd 0 % format.fractionRemainder ≠ 0) ↔
      format.base ^ ((format.fractionRank - 1) / format.digits) ≤
        ofDigits format.base tmp % 10 ^ format.fractionRank := by
  have inside : format.fractionEnd < tmp.length := holds.length ▸ fractionEnd_lt format
  rw [tested_position fraction, (dropped_digits format inside holds.bounded).1]
  by_cases whole : format.fractionRemainder = 1
  · have some := format.fractionEnd_positive whole fraction
    have takeLength := List.length_take_of_le (le_of_lt inside)
    have top := value_lt_top_iff (holds.bounded.take format.fractionEnd) (format.fractionEnd - 1) 1
      (by omega)
    rw [getD_take (by omega)] at top
    rw [if_pos whole, if_pos whole, whole, Nat.mod_one]
    omega
  · have low := take_lt holds.bounded (le_of_lt inside)
    rw [if_neg whole, if_neg whole]
    generalize tmp.getD format.fractionEnd 0 % format.fractionRemainder = part
    constructor
    · intro dropped
      have := Nat.le_mul_of_pos_right (format.base ^ format.fractionEnd)
        (pos_of_ne_zero dropped)
      omega
    · rintro reached rfl
      omega

end MulTmpArray

namespace Decimal

variable {format : Format}

/-- The digits a product drops reach the element that is tested for rounding up. -/
def CeilSees (factor1 factor2 : Decimal format) : Prop :=
  format.base ^ ((format.fractionRank - 1) / format.digits) ≤
    factor1.magnitude * factor2.magnitude % 10 ^ format.fractionRank
  deriving Decidable

/-- Under `DMR_CEIL` a unit is added when the tested element has dropped digits. -/
theorem mul_ceil_delivers {factor1 factor2 : Decimal format} (range1 : factor1.InRange)
    (range2 : factor2.InRange) :
    Delivers (mul factor1 factor2 .ceil) ⟨factor1.negative != factor2.negative,
      factor1.magnitude * factor2.magnitude / 10 ^ format.fractionRank +
        if CeilSees factor1 factor2 then 1 else 0⟩ := by
  refine mul_delivers factor1 factor2 range1.formed range2.formed (Nat.le_add_right _ _)
    fun product holds value => ?_
  by_cases fraction : format.fractionRank = 0
  · have unseen : ¬ CeilSees factor1 factor2 := by simp [CeilSees, fraction, Nat.mod_one]
    rw [applyRemainder, if_neg (by simp [fraction]), if_neg unseen]
    exact ⟨holds, by rw [value, add_zero]⟩
  · have test := MulTmpArray.ceil_test holds fraction
    rw [value] at test
    rw [applyRemainder, if_pos ⟨fraction, by decide⟩, MulTmpArray.ceil, ← value]
    by_cases seen : CeilSees factor1 factor2
    · rw [if_pos (test.mpr seen), if_pos seen]
      exact MulTmpArray.unit_ends format holds
    · rw [if_neg (mt test.mp seen), if_neg seen]
      exact ⟨holds, rfl⟩

/-- What is delivered is determined, as far as it fits. -/
theorem Delivers.unique {outcome : Except Failure (Decimal format)} {first second : SignedMagnitude}
    (one : Delivers outcome first) (other : Delivers outcome second)
    (small : first.magnitude < 10 ^ format.totalRank) : first = second := by
  rw [Delivers, if_pos small] at one
  obtain ⟨result, rfl, -, rfl⟩ := one
  rw [Delivers] at other
  split_ifs at other with fits
  · obtain ⟨again, same, -, rfl⟩ := other
    cases same
    rfl

/-- `Decimal::mul` with `DMR_CEIL` delivers the product rounded up exactly if it drops
nothing, drops digits that reach the tested element, or is too big for any result. -/
theorem mul_ceil_iff (factor1 factor2 : Decimal format) (range1 : factor1.InRange)
    (range2 : factor2.InRange) :
    Delivers (mul factor1 factor2 .ceil) ⟨factor1.negative != factor2.negative,
        Rounding.ceiling (exactProduct factor1 factor2)⟩ ↔
      factor1.magnitude * factor2.magnitude % 10 ^ format.fractionRank = 0 ∨
        CeilSees factor1 factor2 ∨
        10 ^ (format.totalRank + format.fractionRank) ≤ factor1.magnitude * factor2.magnitude := by
  have unit : 0 < 10 ^ format.fractionRank := Nat.pow_pos (by decide)
  have weight : 0 < format.base ^ ((format.fractionRank - 1) / format.digits) :=
    Nat.pow_pos format.base_positive
  have delivered := mul_ceil_delivers range1 range2
  rw [exactProduct_eq, Rounding.ceiling_quotient _ _ unit]
  constructor
  · intro promised
    by_contra missed
    obtain ⟨dropped, unseen, fits⟩ : _ ∧ _ ∧ _ := by simpa only [not_or] using missed
    have small : factor1.magnitude * factor2.magnitude / 10 ^ format.fractionRank <
        10 ^ format.totalRank := by
      rw [Nat.div_lt_iff_lt_mul unit, ← pow_add]
      exact Nat.lt_of_not_le fits
    rw [if_neg unseen] at delivered
    have same := congrArg SignedMagnitude.magnitude (delivered.unique promised small)
    simp [dropped] at same
  · rintro (none | seen | large)
    · have unseen : ¬ CeilSees factor1 factor2 := by
        rw [CeilSees]
        omega
      rw [if_neg unseen] at delivered
      rwa [if_pos none]
    · have dropped := (weight.trans_le seen).ne'
      rw [if_pos seen] at delivered
      rwa [if_neg dropped]
    · have big : 10 ^ format.totalRank ≤
          factor1.magnitude * factor2.magnitude / 10 ^ format.fractionRank := by
        rw [Nat.le_div_iff_mul_le unit, ← pow_add]
        exact large
      rw [Delivers, if_neg (by dsimp only; omega)] at delivered ⊢
      exact delivered

/-- One thousandth squared, in elements of two digits: the product drops three digits, and
the two of them in the lower element are not tested. -/
theorem mul_ceil_misses :
    let format : Format := ⟨.uint8, 6, 3, by decide, by decide⟩
    let unit : Decimal format := ⟨false, [1, 0, 0]⟩
    unit.InRange ∧ mul unit unit .ceil = .ok ⟨false, [0, 0, 0]⟩ ∧
      Rounding.ceiling (exactProduct unit unit) = 1 := by
  intro format unit
  refine ⟨by decide, by decide, ?_⟩
  rw [exactProduct_eq, Rounding.ceiling_quotient _ _ (by decide)]
  decide

theorem mul_ceil_iff_bytes :
    let factor : Decimal .bytes := ⟨false, [1, 0, 0]⟩
    Delivers (mul factor factor .ceil) ⟨false, Rounding.ceiling (exactProduct factor factor)⟩ := by
  intro factor
  exact (mul_ceil_iff factor factor (by decide) (by decide)).mpr (.inr (.inl (by decide)))

/-- The division returns early with a zero quotient only. -/
theorem divide_whole {dividend divisor quotient : Decimal format}
    (computed : divide dividend divisor = .ok (quotient, true)) : quotient.magnitude = 0 := by
  obtain ⟨⟨array, whole⟩, written, made⟩ := bind_ok_iff.mp computed
  obtain ⟨rfl, rfl⟩ : (⟨dividend.negative != divisor.negative, array⟩ : Decimal format) = quotient ∧
      whole = true := by simpa [pure, Except.pure] using made
  unfold quotientArray at written
  dsimp only at written
  split_ifs at written with zero shorter short
  · cases written
    exact Nat.ofDigits_replicate_zero
  · obtain ⟨divided, -, exported⟩ := bind_ok_iff.mp written
    split at exported <;> cases exported
  · obtain ⟨divided, -, exported⟩ := bind_ok_iff.mp written
    cases exported

/-- What a division with remainder that returns has computed. -/
theorem divRemainder_numbers {dividend divisor quotient remainder : Decimal format}
    (dividendRange : dividend.InRange) (divisorRange : divisor.InRange)
    (nonzero : divisor.magnitude ≠ 0)
    (computed : divRemainder dividend divisor = .ok (quotient, remainder)) :
    ∃ product, mul quotient divisor .floor = .ok product ∧ product.InRange ∧
      product.number = ⟨dividend.negative, dividend.magnitude * 10 ^ format.fractionRank /
        divisor.magnitude * divisor.magnitude / 10 ^ format.fractionRank⟩ ∧
      remainder.InRange ∧
      remainder.number = ⟨dividend.negative, dividend.magnitude - product.magnitude⟩ := by
  obtain ⟨⟨divided, whole⟩, division, rest⟩ := bind_ok_iff.mp computed
  obtain ⟨quotientRange, quotientNumber⟩ :=
    (divide_ends dividend divisor dividendRange divisorRange nonzero).of_ok division
  obtain ⟨product, multiplied, productRange, productNumber⟩ := multiplied_back dividend divisor
    divided dividendRange divisorRange quotientRange quotientNumber
  obtain ⟨productSign, productValue⟩ := SignedMagnitude.mk.inj productNumber
  cases whole with
  | true =>
    rw [← (SignedMagnitude.mk.inj quotientNumber).2, divide_whole division, Nat.zero_mul,
      Nat.zero_div] at productValue
    cases rest
    refine ⟨product, multiplied, productRange, productNumber, dividendRange, ?_⟩
    rw [productValue]
    rfl
  | false =>
    simp only [multiplied, ok_bind] at rest
    obtain ⟨difference, subtracted, made⟩ := bind_ok_iff.mp rest
    cases made
    have ends := delivers_iff.mp (sub_delivers dividendRange productRange)
    obtain ⟨remainderRange, remainderNumber⟩ := ends.of_ok subtracted
    have below : product.magnitude ≤ dividend.magnitude :=
      productValue.trans_le multiplied_back_le
    refine ⟨product, multiplied, productRange, productNumber, remainderRange, ?_⟩
    rw [remainderNumber]
    simp [SignedMagnitude.sub, SignedMagnitude.add, SignedMagnitude.neg, number, productSign,
      Nat.not_lt.mpr below]

/-- Cutting twice loses less than the divisor in units of the cut, and one. -/
theorem left_over_lt {divisor unit : Nat} (dividend : Nat) (positive : 0 < unit)
    (nonzero : divisor ≠ 0) :
    ((dividend - dividend * unit / divisor * divisor / unit : Nat) : ℚ) <
      (divisor : ℚ) / unit + 1 := by
  have unitPositive : (0 : ℚ) < unit := by exact_mod_cast positive
  have division := Nat.div_add_mod' (dividend * unit) divisor
  have small := Nat.mod_lt (dividend * unit) (pos_of_ne_zero nonzero)
  generalize dividend * unit / divisor * divisor = back at division ⊢
  have cut := Nat.div_add_mod' back unit
  have rest := Nat.mod_lt back positive
  have scaled : (dividend - back / unit) * unit < divisor + unit := by
    rw [Nat.sub_mul]
    omega
  have cast : ((dividend - back / unit : Nat) : ℚ) * unit < divisor + unit := by
    exact_mod_cast scaled
  rw [← div_self unitPositive.ne', ← add_div, lt_div_iff₀ unitPositive]
  exact cast

/-- A division with remainder that returns: the quotient multiplied back and the remainder
add up to the dividend, the remainder has its sign, and is less than the divisor in units
of the last place and one unit. -/
theorem divRemainder_exact (dividend divisor quotient remainder : Decimal format)
    (dividendRange : dividend.InRange) (divisorRange : divisor.InRange)
    (nonzero : divisor.isZero = false)
    (computed : divRemainder dividend divisor = .ok (quotient, remainder)) :
    (∃ product sum, mul quotient divisor .floor = .ok product ∧
        add product remainder = .ok sum ∧ dividend.eq sum = true) ∧
      (remainder.isZero = true ∨ remainder.negative = dividend.negative) ∧
      (remainder.magnitude : ℚ) < divisor.magnitude / 10 ^ format.fractionRank + 1 := by
  have divisorNonzero : divisor.magnitude ≠ 0 := by
    rw [← Bool.not_eq_true, isZero_iff] at nonzero
    exact nonzero
  obtain ⟨product, multiplied, productRange, productNumber, remainderRange, remainderNumber⟩ :=
    divRemainder_numbers dividendRange divisorRange divisorNonzero computed
  obtain ⟨productSign, productValue⟩ := SignedMagnitude.mk.inj productNumber
  obtain ⟨remainderSign, remainderValue⟩ := SignedMagnitude.mk.inj remainderNumber
  have unit : 0 < 10 ^ format.fractionRank := Nat.pow_pos (by decide)
  refine ⟨?_, .inr remainderSign, ?_⟩
  · have below : product.magnitude ≤ dividend.magnitude :=
      productValue.trans_le multiplied_back_le
    have total : product.number.add remainder.number = dividend.number := by
      simp [SignedMagnitude.add, number, productSign, remainderSign, remainderValue,
        Nat.add_sub_cancel' below]
    have delivered := add_delivers productRange remainderRange
    rw [total, Delivers, if_pos (by exact dividendRange.magnitude_lt)] at delivered
    obtain ⟨sum, added, sumRange, sumNumber⟩ := delivered
    refine ⟨product, sum, multiplied, added, (eq_iff dividendRange sumRange).mpr ?_⟩
    rw [signed, signed, sumNumber]
  · have bound := left_over_lt dividend.magnitude unit
      divisorNonzero
    rw [← productValue, ← remainderValue] at bound
    exact_mod_cast bound

theorem divRemainder_exact_bytes :
    let dividend : Decimal .bytes := ⟨true, [89, 67, 45]⟩
    let divisor : Decimal .bytes := ⟨false, [45, 23, 1]⟩
    let remainder : Decimal .bytes := ⟨true, [24, 0, 0]⟩
    divRemainder dividend divisor = .ok (⟨true, [0, 37, 0]⟩, remainder) ∧
      (remainder.magnitude : ℚ) < divisor.magnitude / 10 ^ 2 + 1 := by
  intro dividend divisor remainder
  have computed : divRemainder dividend divisor = .ok (⟨true, [0, 37, 0]⟩, remainder) := by decide
  exact ⟨computed, (divRemainder_exact dividend divisor _ remainder (by decide) (by decide)
    (by decide) computed).2.2⟩

end Decimal

end UnixCommons.Generics
