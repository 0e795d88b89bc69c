import UnixCommons.Generics.DecimalDivision

/-!
# Exactness of the long division

The guess loop ends with the largest digit that fits the leading elements; the step
built on it delivers the quotient digit of the window and leaves the window's
remainder. Along the loop the rest of the dividend stays below the divisor shifted by
the digits to come, so the digits written are those of the quotient. From this the
division delivers the floor of the exact quotient, and with one more unit its
ceiling; no assertion fails and the processor's division never faults.
-/

namespace UnixCommons.Generics

open Limbs Outcome LongDivision List DivTmpArray DivTmpDividend
open Nat (ofDigits)

variable {base divisor index digit : Nat}

namespace DivTmpDividend

/-- The comparison of major and minor digits is a comparison of the numbers. -/
theorem digits_le_iff {major minor high low : Nat} (minorSmall : minor < base)
    (lowSmall : low < base) :
    (major < high ∨ (major = high ∧ minor ≤ low)) ↔ major * base + minor ≤ high * base + low := by
  rcases lt_trichotomy major high with less | same | greater
  · have := Nat.mul_le_mul_right base less
    rw [Nat.succ_mul] at this
    exact ⟨fun _ => by omega, fun _ => Or.inl less⟩
  · subst same
    simp
  · have := Nat.mul_le_mul_right base greater
    rw [Nat.succ_mul] at this
    constructor
    · rintro (less | ⟨same, -⟩) <;> omega
    · intro below
      omega

/-- The test of the loop is the two-digit test of long division: the guess fits the
leading elements of the window. -/
theorem guess_test_iff {first head third guess guessHigh r : Nat} (second : Nat)
    (positive : 0 < base) (thirdSmall : third < base)
    (divided : (guessHigh * base + guess) * first + r = head) :
    (second * guess / base + guessHigh * second < r ∨
      (second * guess / base + guessHigh * second = r ∧ second * guess % base ≤ third)) ↔
    (guessHigh * base + guess) * (first * base + second) ≤ head * base + third := by
  rw [digits_le_iff (Nat.mod_lt _ positive) thirdSmall, fits_iff divided]
  have split := Nat.div_add_mod' (second * guess) base
  have expanded : (second * guess / base + guessHigh * second) * base + second * guess % base =
      second * guess / base * base + second * guess % base + guessHigh * base * second := by ring
  rw [expanded, split]
  have target : second * (guessHigh * base + guess) =
      second * guess + guessHigh * base * second := by ring
  rw [target]

/-- A guess that is no fitting digit can be lowered by one: the rest grows by the divisor's
leading element, and no digit that fits is lost. -/
theorem guess_lowered {first head r guess next window : Nat}
    (divided : guess * first + r = head) (step : next + 1 = guess)
    (covered : Covers base divisor window guess)
    (refused : guess < base → ¬ guess * divisor ≤ window) :
    next * first + (r + first) = head ∧ Covers base divisor window next := by
  subst step
  refine ⟨by rw [← divided]; ring, fun quotient small fitting => ?_⟩
  have below := covered quotient small fitting
  by_contra above
  obtain rfl : quotient = next + 1 := by omega
  exact refused small fitting

/-- The guess loop ends with the largest digit that fits the leading elements. Induct
on the fuel: the guess and the rest divide the head of the window by the first
element, no fitting digit lies above the guess, and each round adds to the rest. -/
theorem guessLoop_exact {element : Element} {first second head third : Nat}
    {fuel guess guessHigh r : Nat} (position : 2 ≤ index) (leading : 0 < first)
    (firstSmall : first < element.base) (secondSmall : second < element.base)
    (thirdSmall : third < element.base)
    (window : head * element.base + third < (first * element.base + second + 1) * element.base)
    (digit : guess < element.base) (flag : guessHigh ≤ 1)
    (divided : (guessHigh * element.base + guess) * first + r = head)
    (covered : Covers element.base (first * element.base + second) (head * element.base + third)
      (guessHigh * element.base + guess))
    (some : 0 < fuel) (enough : element.base < fuel + r) :
    ∃ result, guessLoop element index first second third fuel guess guessHigh r = .ok result ∧
      Largest element.base (first * element.base + second) (head * element.base + third)
        result := by
  have width := element.two_base_le
  have headBound := head_le window
  induction fuel generalizing guess guessHigh r with
  | zero => omega
  | succ fuel ih =>
    rw [guessLoop]
    by_cases continues : r < element.base
    · have product := element.mulElements_exact secondSmall digit
      have majorSmall : second * guess / element.base < element.base :=
        Nat.div_lt_of_lt_mul (Nat.mul_lt_mul'' secondSmall digit)
      have highShare : guessHigh * second ≤ second := by
        interval_cases guessHigh <;> omega
      have test := guess_test_iff second
        element.base_positive thirdSmall divided
      rw [if_pos continues, product]
      simp only [position, bind, Except.bind]
      rw [Element.wrap_eq (by omega)]
      by_cases stops : (second * guess / element.base + guessHigh * second < r ∨
          (second * guess / element.base + guessHigh * second = r ∧
            second * guess % element.base ≤ third)) ∧ (guessHigh ≠ 1 ∨ guess ≠ 0)
      · rw [if_pos stops]
        have fits := test.mp stops.1
        have bound := guess_le_base window leading fits
        have low : guessHigh = 0 := by
          interval_cases guessHigh <;> omega
        subst low
        rw [Nat.zero_mul, zero_add] at fits covered
        exact ⟨guess, rfl, digit, fits, covered⟩
      · rw [if_neg stops]
        have refused : guessHigh * element.base + guess < element.base →
            ¬ (guessHigh * element.base + guess) * (first * element.base + second) ≤
              head * element.base + third := by
          intro small fits
          refine stops ⟨test.mpr fits, Or.inl ?_⟩
          rintro rfl
          omega
        rw [Element.wrap_eq (show r + first < element.modulus by omega)]
        by_cases exhausted : guess = 0
        · subst exhausted
          obtain rfl : guessHigh = 1 := by
            interval_cases guessHigh <;> omega
          have cleared : element.wrap (1 + element.maximum) = 0 := by
            rw [Element.wrap, Element.maximum, Nat.add_sub_cancel' (by omega), Nat.mod_self]
          obtain ⟨dividedNext, coveredNext⟩ := guess_lowered divided
            (show 0 * element.base + (element.base - 1) + 1 = _ by omega) covered refused
          rw [cleared]
          exact @ih (element.base - 1) 0 (r + first) (by omega) (by omega) dividedNext
            coveredNext (by omega) (by omega)
        · obtain ⟨dividedNext, coveredNext⟩ := guess_lowered divided
            (show guessHigh * element.base + (guess - 1) + 1 = _ by omega) covered refused
          rw [if_neg exhausted]
          exact @ih (guess - 1) guessHigh (r + first) (by omega) flag dividedNext
            coveredNext (by omega) (by omega)
    · have low : guessHigh = 0 := by
        by_contra high
        obtain rfl : guessHigh = 1 := by omega
        have expanded : (1 * element.base + guess) * first =
            first * element.base + guess * first := by ring
        omega
      subst low
      rw [Nat.zero_mul, zero_add] at divided covered
      rw [if_neg continues]
      exact ⟨guess, rfl, digit,
        fits_of_large_rest divided digit secondSmall (Nat.le_of_not_lt continues), covered⟩

/-- `guess_next_quotient` delivers the largest digit that fits the leading elements of
the window and the divisor. Its assertions hold. -/
theorem guessNextQuotient_exact {element : Element} {array : List Nat} {first second : Nat} (index : Nat)
    (position : 2 ≤ index) (bounded : Bounded element.base array) (leading : 0 < first)
    (firstSmall : first < element.base) (secondSmall : second < element.base)
    (window : (array.getD index 0 * element.base + array.getD (index - 1) 0) * element.base +
        array.getD (index - 2) 0 < (first * element.base + second + 1) * element.base) :
    ∃ guess, guessNextQuotient element array index first second = .ok guess ∧
      Largest element.base (first * element.base + second)
        ((array.getD index 0 * element.base + array.getD (index - 1) 0) * element.base +
          array.getD (index - 2) 0) guess := by
  have positive := element.base_positive
  have middleSmall := bounded.getD_lt positive (index - 1)
  have thirdSmall := bounded.getD_lt positive (index - 2)
  unfold guessNextQuotient
  dsimp only
  generalize array.getD index 0 = high at *
  generalize array.getD (index - 1) 0 = middle at *
  generalize array.getD (index - 2) 0 = third at *
  have headBound := head_le window
  have highBound : high ≤ first := by
    by_contra above
    have := Nat.mul_le_mul_right element.base (Nat.lt_of_not_le above)
    rw [Nat.succ_mul] at this
    omega
  have subtracted : (if first ≤ high then high - first else high) < first := by
    split <;> omega
  obtain ⟨divided, digit⟩ := element.divElements_exact
     subtracted middleSmall firstSmall
  rw [divided]
  have ordered : decide (high ≤ first ∨ first / 2 < high) = true := by
    rw [decide_eq_true_eq]
    exact Or.inl highBound
  simp only [show 1 ≤ index by omega, ordered, bind, Except.bind]
  -- the division of the head by the first element, with the high part set apart
  have head : ((if first ≤ high then 1 else 0) * element.base +
        ((if first ≤ high then high - first else high) * element.base + middle) / first) * first +
      ((if first ≤ high then high - first else high) * element.base + middle) % first =
      high * element.base + middle := by
    by_cases full : first ≤ high
    · obtain rfl : high = first := by omega
      simp only [le_refl, if_true, Nat.sub_self, Nat.zero_mul, Nat.zero_add, Nat.one_mul]
      have split := Nat.div_add_mod' middle high
      rw [Nat.add_mul, Nat.mul_comm element.base]
      omega
    · simp only [if_neg full, Nat.zero_mul, Nat.zero_add]
      exact Nat.div_add_mod' _ _
  refine guessLoop_exact
     position leading firstSmall secondSmall thirdSmall window digit ?_ head
    ?_ (by omega) (by omega)
  · split <;> omega
  · intro quotient small fits
    have below := first_le_of_fits thirdSmall fits
    have rest := Nat.mod_lt ((if first ≤ high then high - first else high) * element.base + middle)
      leading
    exact Nat.le_of_lt_succ (Nat.lt_of_mul_lt_mul_right (a := first) (by
      rw [Nat.succ_mul]
      omega))

/-- The loop of `apply_next_quotient` subtracts the guess times the divisor; what it
still owes is the carry of the product and the borrow of the difference. -/
theorem applyLoop_exact {element : Element} {guess : Nat} {targets digits : List Nat}
    {carry borrow : Nat} (length : targets.length = digits.length)
    (targetsBounded : Bounded element.base targets) (digitsBounded : Bounded element.base digits)
    (guessSmall : guess < element.base) (carrySmall : carry < element.base) (flag : borrow ≤ 1) :
    ∃ result overPart under, applyLoop element guess targets digits carry borrow =
        .ok (result, overPart, under) ∧
      result.length = targets.length ∧ Bounded element.base result ∧ overPart < element.base ∧
      under ≤ 1 ∧
      ofDigits element.base result + guess * ofDigits element.base digits + carry + borrow =
        ofDigits element.base targets + element.base ^ targets.length * (overPart + under) := by
  induction targets generalizing digits carry borrow with
  | nil =>
    cases digits with
    | nil => exact ⟨[], carry, borrow, rfl, rfl, bounded_nil, carrySmall, flag, by simp⟩
    | cons digit digits => simp at length
  | cons target targets ih =>
    cases digits with
    | nil => simp at length
    | cons digit digits =>
      obtain ⟨targetSmall, targetsSmall⟩ := bounded_cons.mp targetsBounded
      obtain ⟨digitSmall, digitsSmall⟩ := bounded_cons.mp digitsBounded
      have positive := element.base_positive
      have width := element.two_base_le
      obtain ⟨product, overSmall⟩ :=
        element.mulCarry_exact digitSmall guessSmall carrySmall
      have split := Nat.mod_add_div (digit * guess + carry) element.base
      have minor := Nat.mod_lt (digit * guess + carry) positive
      rw [applyLoop, product]
      dsimp only [bind, Except.bind]
      generalize (digit * guess + carry) % element.base = temp at *
      generalize (digit * guess + carry) / element.base = overPart at *
      rw [Element.wrap_eq (show temp + borrow < element.modulus by omega)]
      -- one element: the difference and the borrow it leaves
      obtain ⟨difference, under, computed, differenceSmall, underFlag, value⟩ :
          ∃ difference under, (if target < temp + borrow then
              (element.wrap (target + (element.base - (temp + borrow))), 1)
            else (target - (temp + borrow), 0)) = (difference, under) ∧
            difference < element.base ∧ under ≤ 1 ∧
            difference + temp + borrow = target + element.base * under := by
        by_cases borrows : target < temp + borrow
        · refine ⟨_, _, if_pos borrows, ?_⟩
          rw [Element.wrap_eq (by omega)]
          omega
        · exact ⟨_, _, if_neg borrows, by omega, by omega, by omega⟩
      rw [computed]
      obtain ⟨result, overRest, underRest, rest, restLength, restBounded, overRestSmall, restFlag,
        restValue⟩ := @ih digits overPart under (Nat.succ.inj length) targetsSmall digitsSmall
          overSmall underFlag
      refine ⟨difference :: result, overRest, underRest, ?_, ?_, ?_, overRestSmall, restFlag, ?_⟩
      · rw [rest]
        rfl
      · rw [length_cons, length_cons, restLength]
      · exact bounded_cons.mpr ⟨differenceSmall, restBounded⟩
      · rw [Nat.ofDigits_cons, Nat.ofDigits_cons, Nat.ofDigits_cons, length_cons, pow_succ]
        have scaled := congrArg (element.base * ·) restValue
        have left : element.base * (ofDigits element.base result +
            guess * ofDigits element.base digits + overPart + under) =
            element.base * ofDigits element.base result +
              guess * (element.base * ofDigits element.base digits) +
              element.base * overPart + element.base * under := by ring
        have right : element.base * (ofDigits element.base targets +
            element.base ^ targets.length * (overRest + underRest)) =
            element.base * ofDigits element.base targets +
              element.base ^ targets.length * element.base * (overRest + underRest) := by ring
        rw [mul_add guess, mul_comm guess digit]
        omega

/-- `apply_next_quotient` subtracts the guess times the divisor from the window and
reports the borrow; the limbs below the window are kept. -/
theorem applyNextQuotient_exact {format : Format} {array : List Nat} {guess : Nat}
    {divisor : List Nat} (capacity : array.length = format.divTmpSize)
    (inside : index + divisor.length < array.length) (bounded : Bounded format.base array)
    (divisorBounded : Bounded format.base divisor) (guessSmall : guess < format.base)
    (small : ofDigits format.base (array.drop index) < format.base ^ (divisor.length + 1)) :
    ∃ target top exceeds, applyNextQuotient format array index guess divisor =
        .ok (array.take index ++ target ++ top :: array.drop (index + divisor.length + 1), exceeds) ∧
      target.length = divisor.length ∧ Bounded format.base target ∧ top < format.base ∧
      ofDigits format.base target + format.base ^ divisor.length * top +
          guess * ofDigits format.base divisor =
        ofDigits format.base (array.drop index) +
          format.base ^ (divisor.length + 1) * exceeds.toNat := by
  have width := format.two_base_le
  obtain ⟨windowValue, -⟩ := window_value inside small
  obtain ⟨target, overPart, under, computed, length, targetBounded, overSmall, flag, value⟩ :=
    applyLoop_exact
      (window_length inside) ((bounded.drop _).take _) divisorBounded guessSmall
      format.base_positive (Nat.zero_le 1)
  rw [window_length inside] at length value
  rw [format.element_base] at overSmall value
  have topSmall := bounded.getD_lt format.base_positive (index + divisor.length)
  generalize read : array.getD (index + divisor.length) 0 = oldTop at *
  -- the top element pays what the loop still owes
  obtain ⟨top, exceeds, paid, digit, balance⟩ : ∃ top exceeds, (if oldTop < overPart + under then
        (format.element.wrap (oldTop + (format.base - (overPart + under))), true)
      else (oldTop - (overPart + under), false)) = (top, exceeds) ∧ top < format.base ∧
      top + (overPart + under) = oldTop + format.base * exceeds.toNat := by
    by_cases borrows : oldTop < overPart + under
    · refine ⟨_, _, if_pos borrows, ?_⟩
      rw [Element.wrap_eq (by omega), Bool.toNat_true]
      omega
    · refine ⟨_, _, if_neg borrows, by omega, ?_⟩
      rw [Bool.toNat_false]
      omega
  refine ⟨target, top, exceeds, ?_, length, targetBounded, digit, ?_⟩
  · unfold applyNextQuotient
    simp only [show index + divisor.length ≤ format.divTmpSize by omega,
      bind, Except.bind, computed]
    rw [read, Element.wrap_eq (by omega), paid]
    rfl
  · have scaled := congrArg (format.base ^ divisor.length * ·) balance
    simp only [mul_add, ← mul_assoc, ← pow_succ] at scaled value
    omega

/-- `fix_next_quotient` adds the divisor back to a window that went below zero. -/
theorem fixNextQuotient_exact {format : Format} {array : List Nat}
    {divisor : List Nat} (inside : index + divisor.length < array.length)
    (bounded : Bounded format.base array) (divisorBounded : Bounded format.base divisor)
    (small : ofDigits format.base (array.drop index) < format.base ^ (divisor.length + 1))
    {rest : Nat} (restSmall : rest < format.base ^ divisor.length)
    (owed : ofDigits format.base (array.drop index) + ofDigits format.base divisor =
      format.base ^ (divisor.length + 1) + rest) :
    (fixNextQuotient format array index divisor).length = array.length ∧
      Bounded format.base (fixNextQuotient format array index divisor) ∧
      ofDigits format.base (fixNextQuotient format array index divisor) =
        ofDigits format.base (array.take index) + format.base ^ index * rest := by
  obtain ⟨windowValue, blank⟩ := window_value inside small
  obtain ⟨length, targetBounded, flag, value⟩ := Decimal.addLoop_exact
     (window_length inside)
    ((bounded.drop _).take _) divisorBounded (Nat.zero_le 1)
  unfold fixNextQuotient
  generalize Decimal.addLoop format.element ((array.drop index).take divisor.length) divisor 0 =
    sum at length targetBounded flag value ⊢
  obtain ⟨target, carry⟩ := sum
  dsimp only at length targetBounded flag value ⊢
  rw [window_length inside] at length value
  rw [format.element_base] at targetBounded value
  have targetSmall := value_lt targetBounded
  rw [length] at targetSmall
  generalize array.getD (index + divisor.length) 0 = top at *
  -- both sides written with the weight of the top element
  have balance : ofDigits format.base target + format.base ^ divisor.length * (carry + top) =
      rest + format.base ^ divisor.length * format.base := by
    rw [mul_add, ← pow_succ]
    omega
  have positive : 0 < format.base ^ divisor.length := Nat.pow_pos format.base_positive
  have topExact : carry + top = format.base := by
    have divided := congrArg (· / format.base ^ divisor.length) balance
    simpa only [Nat.add_mul_div_left _ _ positive, Nat.div_eq_of_lt targetSmall,
      Nat.div_eq_of_lt restSmall, zero_add] using divided
  have restExact : ofDigits format.base target = rest := by
    rw [topExact] at balance
    omega
  have cleared : format.element.wrap (top + format.element.modulus - (format.base - carry)) = 0 := by
    rw [show top + format.element.modulus - (format.base - carry) = format.element.modulus by omega,
      Element.wrap, Nat.mod_self]
  rw [cleared]
  obtain ⟨resultLength, resultBounded, resultValue⟩ := window_rebuilt inside
    length blank bounded targetBounded format.base_positive
  refine ⟨resultLength, resultBounded, ?_⟩
  rw [resultValue, restExact, Nat.mul_zero, add_zero]

end DivTmpDividend

namespace Decimal

variable {format : Format}

/-- The leading two elements of a divisor. -/
theorem leading_two {limbs : List Nat} (two : 2 ≤ limbs.length) (bounded : Bounded base limbs) :
    ofDigits base limbs / base ^ (limbs.length - 2) =
      limbs.getD (limbs.length - 1) 0 * base + limbs.getD (limbs.length - 2) 0 := by
  rw [value_div_weight bounded (Nat.sub_le _ _), drop_value (by omega),
    show limbs.length - 2 + 1 = limbs.length - 1 by omega, drop_value (by omega),
    show limbs.length - 1 + 1 = limbs.length by omega, drop_length, Nat.ofDigits_nil]
  ring

/-- The leading three elements of a window. -/
theorem leading_three {limbs : List Nat} {count : Nat} (two : 2 ≤ count)
    (inside : index + count < limbs.length) (bounded : Bounded base limbs)
    (small : ofDigits base (limbs.drop index) < base ^ (count + 1)) :
    ofDigits base (limbs.drop index) / base ^ (count - 2) =
      (limbs.getD (index + count) 0 * base + limbs.getD (index + count - 1) 0) * base +
        limbs.getD (index + count - 2) 0 := by
  obtain ⟨-, blank⟩ := window_value inside small
  rw [value_div_weight (bounded.drop _) (by rw [length_drop]; omega), drop_drop,
    drop_value (by omega), show index + (count - 2) + 1 = index + count - 1 by omega,
    drop_value (by omega), show index + count - 1 + 1 = index + count by omega,
    drop_value inside, blank, show index + (count - 2) = index + count - 2 by omega]
  ring

/-- The elements of a divisor that long division takes. -/
structure Several (base : Nat) (divisor : List Nat) : Prop where
  bounded : Bounded base divisor
  two : 2 ≤ divisor.length
  leading : divisor.getD (divisor.length - 1) 0 ≠ 0

section

variable {array divisor : List Nat} (several : Several format.base divisor)

/-- A window below the divisor times the base fits the elements it is made of. -/
theorem Several.window_small {window : Nat} (several : Several base divisor)
    (below : window < ofDigits base divisor * base) : window < base ^ (divisor.length + 1) := by
  calc window < ofDigits base divisor * base := below
    _ ≤ base ^ divisor.length * base :=
        Nat.mul_le_mul_right _ (le_of_lt (value_lt several.bounded))
    _ = base ^ (divisor.length + 1) := (pow_succ _ _).symm

variable (inside : index + divisor.length < array.length) (bounded : Bounded format.base array)
  (window : ofDigits format.base (array.drop index) < ofDigits format.base divisor * format.base)
include several inside bounded window

/-- The guessed digit is the quotient digit of the window or one more. -/
theorem guess_near :
    ∃ guess, guessNextQuotient format.element array (index + divisor.length)
          (divisor.getD (divisor.length - 1) 0) (divisor.getD (divisor.length - 2) 0) = .ok guess ∧
      guess < format.base ∧
      ofDigits format.base (array.drop index) / ofDigits format.base divisor ≤ guess ∧
      guess ≤ ofDigits format.base (array.drop index) / ofDigits format.base divisor + 1 := by
  have positive := format.base_positive
  have small := several.window_small window
  obtain ⟨divisorBounded, two, leading⟩ := several
  have weight : 0 < format.base ^ (divisor.length - 2) := Nat.pow_pos positive
  have divisorLeading := leading_two two divisorBounded
  have windowLeading := leading_three two inside bounded small
  have leadingSmall := divisorBounded.getD_lt positive (divisor.length - 1)
  have secondSmall := divisorBounded.getD_lt positive (divisor.length - 2)
  generalize ofDigits format.base divisor = value at *
  generalize format.base ^ (divisor.length - 2) = unit at *
  have divisorLarge : format.base ≤ value / unit := by
    rw [divisorLeading]
    exact le_trans (Nat.le_mul_of_pos_left _ (pos_of_ne_zero leading)) (Nat.le_add_right _ _)
  have divisorPositive : 0 < value := by
    by_contra none
    rw [show value = 0 by omega, Nat.zero_div] at divisorLarge
    omega
  have leadingWindow : ofDigits format.base (array.drop index) / unit <
      (value / unit + 1) * format.base := by
    apply Nat.div_lt_of_lt_mul
    have bound := Nat.lt_mul_div_succ value weight
    have := Nat.mul_le_mul_right format.base (Nat.le_of_lt bound)
    rw [← mul_assoc]
    omega
  obtain ⟨guess, guessed, largest⟩ := guessNextQuotient_exact (index + divisor.length) (by omega)
    bounded (pos_of_ne_zero leading) leadingSmall secondSmall
    (by rwa [format.element_base, ← windowLeading, ← divisorLeading])
  rw [format.element_base, ← windowLeading, ← divisorLeading] at largest
  refine ⟨guess, guessed, largest.small, ?_, ?_⟩
  · refine largest.covers _ (Nat.div_lt_of_lt_mul window) ?_
    exact quotient_le_leading weight (Nat.div_mul_le_self _ _)
  · cases guess with
    | zero => exact Nat.zero_le _
    | succ digit =>
      have guessSmall := largest.small
      apply Nat.succ_le_succ
      rw [Nat.le_div_iff_mul_le divisorPositive]
      exact leading_le_quotient_succ weight largest.fits (by omega)

/-- One round delivers the quotient digit of the window and leaves its remainder. A
guess that was one too big is repaired. -/
theorem nextQuotient_exact (capacity : array.length = format.divTmpSize) :
    ∃ result, nextQuotient format array index (divisor.getD (divisor.length - 1) 0)
          (divisor.getD (divisor.length - 2) 0) divisor =
        .ok (ofDigits format.base (array.drop index) / ofDigits format.base divisor, result) ∧
      result.length = array.length ∧ Bounded format.base result ∧
      ofDigits format.base result = ofDigits format.base (array.take index) +
        format.base ^ index *
          (ofDigits format.base (array.drop index) % ofDigits format.base divisor) := by
  have large : format.base < format.element.modulus := format.element.base_lt_modulus
  have small := several.window_small window
  obtain ⟨guess, guessed, guessSmall, above, below⟩ := guess_near several inside bounded window
  obtain ⟨target, top, exceeds, applied, length, targetBounded, topSmall, value⟩ :=
    applyNextQuotient_exact capacity inside bounded
      several.bounded guessSmall small
  obtain ⟨-, blank⟩ := window_value inside small
  obtain ⟨resultLength, resultBounded, resultValue⟩ := window_rebuilt inside
    length blank bounded targetBounded topSmall
  -- the window after the subtraction
  have windowSmall : ofDigits format.base target + format.base ^ divisor.length * top <
      format.base ^ (divisor.length + 1) := by
    have := value_lt targetBounded
    rw [length] at this
    have := share_add_le (format.base ^ divisor.length) topSmall
    rw [← pow_succ] at this
    omega
  have division := Nat.div_add_mod' (ofDigits format.base (array.drop index))
    (ofDigits format.base divisor)
  have remainder : ofDigits format.base (array.drop index) % ofDigits format.base divisor <
      ofDigits format.base divisor := Nat.mod_lt _ (Nat.pos_of_mul_pos_right
        (lt_of_le_of_lt (Nat.zero_le _) window))
  unfold nextQuotient
  rw [guessed]
  dsimp only [bind, Except.bind]
  rw [applied]
  generalize ofDigits format.base (array.drop index) / ofDigits format.base divisor = quotient at *
  have either : guess = quotient ∨ guess = quotient + 1 := by omega
  cases exceeds with
  | false =>
    rw [Bool.toNat_false] at value
    rcases either with rfl | rfl
    · refine ⟨_, rfl, resultLength, resultBounded, ?_⟩
      rw [resultValue]
      congr 2
      omega
    · rw [Nat.succ_mul] at value
      omega
  | true =>
    rw [Bool.toNat_true] at value
    rcases either with rfl | rfl
    · omega
    · rw [Nat.succ_mul] at value
      have prefixLength : (array.take index).length = index := length_take_of_le (by omega)
      have lowered : format.element.wrap (quotient + 1 + format.element.maximum) = quotient := by
        rw [Element.maximum, show quotient + 1 + (format.element.modulus - 1) =
          quotient + format.element.modulus by omega, Element.wrap, Nat.add_mod_right,
          Nat.mod_eq_of_lt (by omega)]
      have after : ofDigits format.base ((array.take index ++ target ++
          top :: array.drop (index + divisor.length + 1)).drop index) =
          ofDigits format.base target + format.base ^ divisor.length * top := by
        rw [append_assoc, drop_left' prefixLength, Nat.ofDigits_append, Nat.ofDigits_cons,
          blank, Nat.mul_zero, add_zero, length]
      obtain ⟨fixedLength, fixedBounded, fixedValue⟩ := fixNextQuotient_exact
        (by omega) resultBounded several.bounded (after ▸ windowSmall)
        (lt_trans remainder (value_lt several.bounded)) (by rw [after]; omega)
      rw [append_assoc, take_left' prefixLength, ← append_assoc] at fixedValue
      rw [lowered]
      exact ⟨_, rfl, fixedLength.trans resultLength, fixedBounded, fixedValue⟩

end

/-- What the loop leaves after the given number of digits: the remainder in the
dividend array and the quotient in the lowest elements of the result. -/
structure QuotientWritten (format : Format) (divisor rest count : Nat) (old : List Nat)
    (result : DivTmpArray × List Nat) : Prop where
  counts : DivTmpArray.Counts format.base result.1
  remainder : ofDigits format.base result.1.array = rest % divisor
  length : result.2.length = format.size
  digits : Bounded format.base (result.2.take count)
  value : ofDigits format.base (result.2.take count) = rest / divisor
  above : result.2.drop count = old.drop count
  fits : format.size ≤ count → rest / divisor < 10 ^ format.totalRank

/-- Splitting off one quotient digit. -/
theorem digit_split {rest weight next : Nat} (positive : 0 < divisor)
    (division : rest = divisor * weight * digit + next) :
    rest / divisor = weight * digit + next / divisor ∧ rest % divisor = next % divisor := by
  rw [division, mul_assoc]
  exact ⟨Nat.mul_add_div positive _ _, Nat.mul_add_mod _ _ _⟩

/-- What one round at a position makes of the dividend: a digit of the quotient, and a
rest below the divisor shifted to that position. -/
structure RoundTaken (format : Format) (divisor index : Nat) (tmp : DivTmpArray) (digit : Nat)
    (array : List Nat) : Prop where
  length : array.length = tmp.array.length
  counts : DivTmpArray.Counts format.base { tmp with array := array }
  digitSmall : digit < format.base
  rest : ofDigits format.base array < divisor * format.base ^ index
  quotient : ofDigits format.base tmp.array / divisor =
    format.base ^ index * digit + ofDigits format.base array / divisor
  remainder : ofDigits format.base tmp.array % divisor = ofDigits format.base array % divisor

/-- A round of the loop splits the dividend as long division does: the window above the
position is divided, the elements below it are kept. -/
theorem nextQuotient_takes {divisor : List Nat} {tmp : DivTmpArray}
    (capacity : tmp.array.length = format.divTmpSize)
    (counts : DivTmpArray.Counts format.base tmp)
    (inside : index + divisor.length < format.divTmpSize) (several : Several format.base divisor)
    (rest : ofDigits format.base tmp.array <
      ofDigits format.base divisor * format.base ^ (index + 1)) :
    ∃ digit array, nextQuotient format tmp.array index (divisor.getD (divisor.length - 1) 0)
          (divisor.getD (divisor.length - 2) 0) divisor = .ok (digit, array) ∧
      RoundTaken format (ofDigits format.base divisor) index tmp digit array := by
  have divisorPositive : 0 < ofDigits format.base divisor :=
    Nat.pos_of_mul_pos_right (lt_of_le_of_lt (Nat.zero_le _) rest)
  have low := take_lt counts.bounded (show index ≤ _ by omega)
  have split := value_split format.base tmp.array index (by omega)
  have window : ofDigits format.base (tmp.array.drop index) <
      ofDigits format.base divisor * format.base := by
    apply Nat.lt_of_mul_lt_mul_left (a := format.base ^ index)
    calc _ ≤ ofDigits format.base tmp.array := by omega
      _ < _ := rest
      _ = _ := by rw [pow_succ]; ring
  obtain ⟨array, computed, arrayLength, arrayBounded, arrayValue⟩ :=
    nextQuotient_exact several (by omega) counts.bounded window capacity
  obtain ⟨-, division⟩ := shifted_division low
  rw [← split, ← arrayValue] at division
  have remainder := Nat.mod_lt (ofDigits format.base (tmp.array.drop index)) divisorPositive
  have digitSmall := Nat.div_lt_of_lt_mul window
  generalize ofDigits format.base divisor = value at *
  generalize ofDigits format.base (tmp.array.drop index) / value = digit at *
  obtain ⟨quotientSplit, remainderSplit⟩ := digit_split divisorPositive division
  have nextRest : ofDigits format.base array < value * format.base ^ index := by
    have := share_add_le (format.base ^ index) remainder
    rw [mul_comm _ value] at this
    omega
  have decreases : ofDigits format.base array ≤ ofDigits format.base tmp.array := by omega
  have nextCounts : DivTmpArray.Counts format.base { tmp with array := array } :=
    ⟨arrayBounded, counts.positive, by rw [arrayLength]; exact counts.inside,
      lt_of_le_of_lt decreases counts.small⟩
  exact ⟨digit, array, computed, arrayLength, nextCounts, digitSmall, nextRest, quotientSplit,
    remainderSplit⟩

variable {tmp : DivTmpArray} {result : DivTmpArray × List Nat} {array quotient : List Nat}

/-- A zero digit behind the array is not stored: what the later rounds write is already
the whole quotient. -/
theorem RoundTaken.behind
    (taken : RoundTaken format divisor format.size tmp 0 array)
    (length : quotient.length = format.size)
    (written : QuotientWritten format divisor (ofDigits format.base array) format.size quotient
      result) :
    QuotientWritten format divisor (ofDigits format.base tmp.array) (format.size + 1) quotient
      result := by
  have quotientSplit := taken.quotient
  rw [Nat.mul_zero, zero_add] at quotientSplit
  have whole : result.2.take (format.size + 1) = result.2.take format.size := by
    rw [take_of_length_le (by rw [written.length]; omega),
      take_of_length_le (by rw [written.length])]
  refine ⟨written.counts, ?_, written.length, whole ▸ written.digits, ?_, ?_, fun _ => ?_⟩
  · rw [taken.remainder, written.remainder]
  · rw [whole, written.value, quotientSplit]
  · rw [drop_of_length_le (by rw [written.length]; omega),
      drop_of_length_le (by rw [length]; omega)]
  · rw [quotientSplit]
    exact written.fits (le_refl _)

/-- The digit of a round stays in its element while the later rounds write below it. At
the top element the check against the maximal digit keeps the quotient within the
total rank. -/
theorem RoundTaken.stored
    (taken : RoundTaken format divisor index tmp digit array) (inside : index < format.size)
    (length : quotient.length = format.size)
    (limited : index = format.size - 1 → digit < format.integerMaxOver)
    (written : QuotientWritten format divisor (ofDigits format.base array) index
      (quotient.set index digit) result) :
    QuotientWritten format divisor (ofDigits format.base tmp.array) (index + 1) quotient
      result := by
  have within : index < result.2.length := by
    rw [written.length]
    exact inside
  have kept : result.2.drop index = digit :: quotient.drop (index + 1) := by
    rw [written.above, drop_eq_getElem_cons (by rw [length_set]; omega),
      getElem_set_self, drop_set_of_lt (by omega)]
  have read : result.2.getD index 0 = digit := by
    have := congrArg (fun limbs => limbs.getD 0 0) kept
    simpa [getD_eq_getElem?_getD] using this
  refine ⟨written.counts, ?_, written.length, ?_, ?_, ?_, fun top => ?_⟩
  · rw [taken.remainder, written.remainder]
  · rw [getD_eq_getElem _ _ within] at read
    rw [take_succ_eq_append_getElem within, read]
    exact bounded_append.mpr ⟨written.digits,
      bounded_cons.mpr ⟨taken.digitSmall, bounded_nil⟩⟩
  · rw [take_value format.base _ index within, written.value, read, taken.quotient]
    exact add_comm _ _
  · rw [← tail_drop, kept, tail_cons]
  · have last : index = format.size - 1 := by omega
    rw [taken.quotient, add_comm, last]
    exact format.lt_limit (Nat.div_lt_of_lt_mul (last ▸ taken.rest)) (limited last)

/-- A digit whose weight alone reaches the total rank makes the quotient overflow. -/
theorem RoundTaken.excess (taken : RoundTaken format divisor index tmp digit array)
    (reached : 10 ^ format.totalRank ≤ format.base ^ index * digit) :
    10 ^ format.totalRank ≤ ofDigits format.base tmp.array / divisor := by
  rw [taken.quotient]
  exact le_trans reached (Nat.le_add_right _ _)

/-- The quotient loop writes the quotient of the rest of the dividend, or that quotient
exceeds the total rank. Induct on the digits to come: the rest stays below the divisor
shifted by them. -/
theorem quotientLoop_ends {divisor : List Nat} {count : Nat} (quotient : List Nat)
    (capacity : tmp.array.length = format.divTmpSize) (counts : DivTmpArray.Counts format.base tmp)
    (inside : count + divisor.length ≤ format.divTmpSize) (several : Several format.base divisor)
    (length : quotient.length = format.size) (reach : count ≤ format.size + 1)
    (rest : ofDigits format.base tmp.array < ofDigits format.base divisor * format.base ^ count) :
    Ends (quotientLoop format (divisor.getD (divisor.length - 1) 0)
        (divisor.getD (divisor.length - 2) 0) divisor count tmp quotient)
      (QuotientWritten format (ofDigits format.base divisor) (ofDigits format.base tmp.array) count
        quotient)
      (Overflows format.totalRank
        (ofDigits format.base tmp.array / ofDigits format.base divisor)) := by
  have sizePositive := format.size_positive
  induction count generalizing tmp quotient with
  | zero =>
    rw [pow_zero, mul_one] at rest
    refine ⟨counts, (Nat.mod_eq_of_lt rest).symm, length, by simp, ?_, rfl, fun none => by omega⟩
    rw [take_zero, Nat.ofDigits_nil, Nat.div_eq_of_lt rest]
  | succ index ih =>
    obtain ⟨digit, array, computed, taken⟩ :=
      nextQuotient_takes capacity counts (by omega) several rest
    -- an overflow of the later rounds is one of the whole quotient
    have later : 10 ^ format.totalRank ≤ ofDigits format.base array / ofDigits format.base divisor →
        10 ^ format.totalRank ≤ ofDigits format.base tmp.array / ofDigits format.base divisor := by
      rw [taken.quotient]
      exact fun failed => le_trans failed (Nat.le_add_left _ _)
    rw [quotientLoop, computed]
    dsimp only [bind, Except.bind]
    by_cases behind : index = format.size
    · subst behind
      rw [if_pos rfl]
      by_cases blank : digit = 0
      · subst blank
        have tail := @ih { tmp with array := array } quotient (taken.length.trans capacity)
          taken.counts (by omega) length (by omega) taken.rest
        exact tail.mono (fun result written => taken.behind length written)
          (fun _ failed => ⟨failed.1, later failed.2⟩)
      · rw [if_pos blank]
        refine ⟨rfl, taken.excess ?_⟩
        calc 10 ^ format.totalRank ≤ format.base ^ format.size := format.limit_le_power
          _ ≤ format.base ^ format.size * digit :=
              Nat.le_mul_of_pos_right _ (pos_of_ne_zero blank)
    · rw [if_neg behind]
      by_cases excess : index = format.size - 1 ∧ format.integerMaxOver ≤ digit
      · rw [if_pos excess]
        refine ⟨rfl, taken.excess ?_⟩
        rw [← format.top_limit, ← excess.1]
        exact Nat.mul_le_mul_left _ excess.2
      · rw [if_neg excess]
        have limited : index = format.size - 1 → digit < format.integerMaxOver := by
          intro last
          by_contra large
          exact excess ⟨last, Nat.le_of_not_lt large⟩
        have tail := @ih (shrink { tmp with array := array })
          (quotient.set index digit) (taken.length.trans capacity) taken.counts.shrink (by omega)
          (by rw [length_set]; exact length) (by omega) taken.rest
        exact tail.mono (fun result written => taken.stored (by omega) length limited written)
          (fun _ failed => ⟨failed.1, later failed.2⟩)

/-- An array that stores a number within the total rank. -/
structure Stores (format : Format) (units : Nat) (array : List Nat) : Prop where
  length : array.length = format.size
  bounded : Bounded format.base array
  value : ofDigits format.base array = units
  limit : units < 10 ^ format.totalRank

/-- With zeros above the digits written, the whole result is the quotient, and it
respects the total rank. -/
theorem QuotientWritten.whole {rest count : Nat} {old : List Nat}
    (written : QuotientWritten format divisor rest count old result)
    (blank : ∀ limb ∈ old.drop count, limb = 0) : Stores format (rest / divisor) result.2 := by
  have positive := format.base_positive
  rw [← written.above] at blank
  have value := @value_of_zero_above format.base result.2 count blank
  refine ⟨written.length, ?_, value.trans written.value, ?_⟩
  · rw [← take_append_drop count result.2]
    exact bounded_append.mpr ⟨written.digits, fun limb member => blank limb member ▸ positive⟩
  · by_cases full : format.size ≤ count
    · exact written.fits full
    · calc rest / divisor = ofDigits format.base (result.2.take count) := written.value.symm
        _ < format.base ^ (result.2.take count).length := value_lt written.digits
        _ ≤ format.base ^ (format.size - 1) := Nat.pow_le_pow_right positive (by
            rw [length_take]
            omega)
        _ ≤ 10 ^ format.totalRank := format.power_le_limit

/-- The top counted element is not zero once the number reaches its weight. -/
theorem top_ne_zero (counts : DivTmpArray.Counts base tmp)
    (reached : base ^ (tmp.size - 1) ≤ ofDigits base tmp.array) :
    tmp.array.getD (tmp.size - 1) 0 ≠ 0 := by
  intro zero
  have positive := counts.positive
  have small := counts.small
  rw [show tmp.size = tmp.size - 1 + 1 by omega] at small
  have := value_lt_of_zero counts.bounded small zero
  omega

/-- A divisor below the next multiple of its top weight can be scaled without growing. -/
theorem scale_fits {size maxDiv value : Nat} (positive : 0 < size) (digit : maxDiv < base)
    (below : value < base ^ (size - 1) * (maxDiv + 1)) :
    base / (maxDiv + 1) * value < base ^ size := by
  have scalePositive : 0 < base / (maxDiv + 1) := Nat.div_pos digit (Nat.succ_pos _)
  calc base / (maxDiv + 1) * value
      < base / (maxDiv + 1) * (base ^ (size - 1) * (maxDiv + 1)) :=
        mul_lt_mul_of_pos_left below scalePositive
    _ = base / (maxDiv + 1) * (maxDiv + 1) * base ^ (size - 1) := by ring
    _ ≤ base * base ^ (size - 1) := Nat.mul_le_mul_right _ (Nat.div_mul_le_self _ _)
    _ = base ^ size := by rw [← pow_succ', Nat.sub_add_cancel positive]

/-- The two temporary arrays before the quotient loop: their lengths, their counts and
the order of their sizes. -/
structure Prepared (format : Format) (dividend divisor : DivTmpArray) : Prop where
  dividendCapacity : dividend.array.length = format.divTmpSize
  dividendCounts : DivTmpArray.Counts format.base dividend
  dividendInitial : dividend.initialSize = dividend.size
  dividendReached : format.base ^ (dividend.size - 1) ≤ ofDigits format.base dividend.array
  dividendRoom : dividend.size ≤ format.tmpSize
  divisorCapacity : divisor.array.length = format.size + 1
  divisorCounts : DivTmpArray.Counts format.base divisor
  divisorInitial : divisor.initialSize = divisor.size
  divisorReached : format.base ^ (divisor.size - 1) ≤ ofDigits format.base divisor.array
  several : 2 ≤ divisor.size
  order : divisor.size ≤ dividend.size

variable {dividend divisor : DivTmpArray}

section

variable (prepared : Prepared format dividend divisor)
include prepared

/-- The divisor is below the next multiple of its top weight. -/
theorem Prepared.divisor_below :
    ofDigits format.base divisor.array <
      format.base ^ (divisor.size - 1) * (divisor.array.getD (divisor.size - 1) 0 + 1) := by
  have several := prepared.several
  obtain ⟨divisorValue, -⟩ := prepared.divisorCounts.split
  rw [← divisorValue, value_lt_top_iff (prepared.divisorCounts.bounded.take _) _ _ (by
    rw [length_take_of_le prepared.divisorCounts.inside]; omega),
    getD_take (by omega)]
  exact Nat.lt_succ_self _

/-- The quotient has at most one digit more than the sizes differ. -/
theorem Prepared.dividend_lt :
    ofDigits format.base dividend.array <
      ofDigits format.base divisor.array * format.base ^ (dividend.size - divisor.size + 1) := by
  have several := prepared.several
  have order := prepared.order
  calc ofDigits format.base dividend.array < format.base ^ dividend.size :=
        prepared.dividendCounts.small
    _ = format.base ^ (divisor.size - 1) *
          format.base ^ (dividend.size - divisor.size + 1) := by
        rw [← pow_add]
        congr 1
        omega
    _ ≤ _ := Nat.mul_le_mul_right _ prepared.divisorReached

/-- Sizes that differ by more than the array holds make the quotient overflow. -/
theorem Prepared.excess (long : format.size < dividend.size - divisor.size) :
    10 ^ format.totalRank ≤
      ofDigits format.base dividend.array / ofDigits format.base divisor.array := by
  have positive := format.base_positive
  have divisorPositive : 0 < ofDigits format.base divisor.array :=
    Nat.lt_of_lt_of_le (Nat.pow_pos positive) prepared.divisorReached
  rw [Nat.le_div_iff_mul_le divisorPositive]
  calc 10 ^ format.totalRank * ofDigits format.base divisor.array
      ≤ format.base ^ format.size * format.base ^ divisor.size :=
        Nat.mul_le_mul format.limit_le_power (Nat.le_of_lt prepared.divisorCounts.small)
    _ = format.base ^ (format.size + divisor.size) := (pow_add _ _ _).symm
    _ ≤ format.base ^ (dividend.size - 1) := Nat.pow_le_pow_right positive (by omega)
    _ ≤ _ := prepared.dividendReached

end

/-- Scaling multiplies both numbers and leaves the size of the divisor. -/
theorem scaleBoth_exact {scale : Nat} (prepared : Prepared format dividend divisor)
    (positive : 0 < scale) (digit : scale < format.base)
    (fits : scale * ofDigits format.base divisor.array < format.base ^ divisor.size) :
    ∃ dividendScaled divisorScaled, scaleBoth format dividend divisor
          (divisor.array.getD (divisor.size - 1) 0) scale =
        .ok (dividendScaled, divisorScaled, divisorScaled.array.getD (divisor.size - 1) 0) ∧
      dividendScaled.array.length = format.divTmpSize ∧
      DivTmpArray.Counts format.base dividendScaled ∧
      dividendScaled.initialSize = dividend.size ∧
      ofDigits format.base dividendScaled.array = scale * ofDigits format.base dividend.array ∧
      DivTmpArray.Counts format.base divisorScaled ∧ divisorScaled.size = divisor.size ∧
      divisorScaled.initialSize = divisor.size ∧
      ofDigits format.base divisorScaled.array = scale * ofDigits format.base divisor.array := by
  unfold scaleBoth
  by_cases scaled : 1 < scale
  · have dividendFits : scale * ofDigits format.base dividend.array <
        format.base ^ dividend.array.length := by
      have small := prepared.dividendCounts.small
      have room := Nat.pow_le_pow_right format.base_positive prepared.dividendRoom
      rw [prepared.dividendCapacity, format.divTmpSize_eq, pow_succ']
      exact Nat.mul_lt_mul'' digit (by omega)
    have divisorFits : scale * ofDigits format.base divisor.array <
        format.base ^ divisor.array.length :=
      lt_of_lt_of_le fits
        (Nat.pow_le_pow_right format.base_positive prepared.divisorCounts.inside)
    obtain ⟨dividendScaled, dividendDone, dividendCounts, dividendLength, dividendInitial,
      dividendValue, -⟩ := mul_scales format.element
        prepared.dividendCounts digit dividendFits
    obtain ⟨divisorScaled, divisorDone, divisorCounts, divisorLength, divisorInitial, divisorValue,
      divisorSize⟩ := mul_scales format.element prepared.divisorCounts
        digit divisorFits
    have sameSize : divisorScaled.size = divisor.size := divisorSize fits
    refine ⟨dividendScaled, divisorScaled, ?_, dividendLength.trans prepared.dividendCapacity,
      dividendCounts, dividendInitial.trans prepared.dividendInitial, dividendValue, divisorCounts,
      sameSize, divisorInitial.trans prepared.divisorInitial, divisorValue⟩
    rw [if_pos scaled, dividendDone]
    dsimp only [bind, Except.bind]
    rw [divisorDone]
    dsimp only
    rw [sameSize]
    rfl
  · obtain rfl : scale = 1 := by omega
    refine ⟨dividend, divisor, if_neg scaled, prepared.dividendCapacity, prepared.dividendCounts,
      prepared.dividendInitial, (one_mul _).symm, prepared.divisorCounts, rfl,
      prepared.divisorInitial, (one_mul _).symm⟩

/-- Long division delivers the quotient of the two numbers, or that quotient exceeds
the total rank. The scaled remainder is a multiple of the scale, so the last assertion
holds. -/
theorem longDivision_ends (prepared : Prepared format dividend divisor)
    (length : quotient.length = format.size) :
    Ends (longDivision format dividend divisor (divisor.array.getD (divisor.size - 1) 0) quotient)
      (Stores format (ofDigits format.base dividend.array / ofDigits format.base divisor.array))
      (Overflows format.totalRank
        (ofDigits format.base dividend.array / ofDigits format.base divisor.array)) := by
  have positive := format.base_positive
  have several := prepared.several
  have order := prepared.order
  have leading := top_ne_zero prepared.divisorCounts prepared.divisorReached
  have topSmall := prepared.divisorCounts.bounded.getD_lt positive (divisor.size - 1)
  have below := prepared.divisor_below
  generalize maxDivRead : divisor.array.getD (divisor.size - 1) 0 = maxDiv at *
  have scalePositive : 0 < format.base / (maxDiv + 1) := Nat.div_pos topSmall (Nat.succ_pos _)
  have scaleSmall : format.base / (maxDiv + 1) < format.base :=
    Nat.div_lt_self positive (by omega)
  have fits := scale_fits (by omega) topSmall below
  obtain ⟨dividendScaled, divisorScaled, scaled, capacity, dividendCounts, dividendInitial,
    dividendScaledValue, divisorCounts, divisorSize, divisorInitial, divisorScaledValue⟩ :=
    scaleBoth_exact prepared scalePositive scaleSmall fits
  rw [maxDivRead] at scaled
  unfold longDivision
  generalize format.base / (maxDiv + 1) = scale at *
  have scaleChecked : decide (0 < scale ∧ scale < format.base) = true := by
    rw [decide_eq_true_eq]
    exact ⟨scalePositive, scaleSmall⟩
  simp only [scaleChecked, scaled, bind, Except.bind, dividendInitial, divisorInitial,
    divisorSize]
  by_cases long : format.size < dividend.size - divisor.size
  · rw [if_pos long]
    exact ⟨rfl, prepared.excess long⟩
  · rw [if_neg long]
    have scaledInside := divisorCounts.inside
    obtain ⟨leadingValue, -⟩ := divisorCounts.split
    have scaledReached : format.base ^ (divisorScaled.size - 1) ≤
        ofDigits format.base divisorScaled.array := by
      rw [divisorSize, divisorScaledValue]
      exact le_trans prepared.divisorReached (Nat.le_mul_of_pos_left _ scalePositive)
    have scaledLeading := top_ne_zero divisorCounts scaledReached
    rw [divisorSize] at scaledInside leadingValue scaledLeading
    have divisorLength : (divisorScaled.array.take divisor.size).length = divisor.size :=
      length_take_of_le scaledInside
    have rest : ofDigits format.base dividendScaled.array <
        ofDigits format.base (divisorScaled.array.take divisor.size) *
          format.base ^ (dividend.size - divisor.size + 1) := by
      rw [dividendScaledValue, leadingValue, divisorScaledValue, mul_assoc]
      exact mul_lt_mul_of_pos_left prepared.dividend_lt scalePositive
    have loop := quotientLoop_ends
      (quotient.take (dividend.size - divisor.size + 1) ++
        List.replicate (format.size - (dividend.size - divisor.size + 1)) 0) capacity dividendCounts
      (by
        have := prepared.dividendRoom
        rw [format.divTmpSize_eq]
        omega)
      ⟨divisorCounts.bounded.take _, by rw [divisorLength]; exact several,
        by rw [divisorLength, getD_take (by omega)]; exact scaledLeading⟩
      (by
        rw [length_append, length_take, length_replicate]
        omega)
      (by omega) rest
    rw [divisorLength, getD_take (by omega), getD_take (by omega), leadingValue, dividendScaledValue,
      divisorScaledValue, Nat.mul_div_mul_left _ _ scalePositive] at loop
    generalize quotientLoop format _ _ _ _ _ _ = outcome at loop ⊢
    cases outcome with
    | error failure => exact loop
    | ok written =>
      have stored := loop.whole (by
        intro limb member
        rw [drop_append, drop_of_length_le (length_take_le _ _)] at member
        exact eq_of_mem_replicate (mem_of_mem_drop member))
      rw [Nat.mul_div_mul_left _ _ scalePositive] at stored
      dsimp only
      by_cases rescaled : 1 < scale
      · obtain ⟨divided, computed, -, -, -⟩ := div_divides format.element
          loop.counts scalePositive scaleSmall
        have multiple : ofDigits format.element.base written.1.array % scale = 0 := by
          rw [format.element_base, loop.remainder, Nat.mul_mod_mul_left, Nat.mul_mod_right]
        rw [if_pos rescaled, computed, multiple]
        exact stored
      · rw [if_neg rescaled]
        exact stored

/-- A fresh array after its first `shrink`: the count is exact and recorded. -/
structure Shrunk (base : Nat) (tmp : DivTmpArray) : Prop where
  counts : DivTmpArray.Counts base tmp
  initial : tmp.initialSize = tmp.size
  reached : 1 < tmp.size → base ^ (tmp.size - 1) ≤ ofDigits base tmp.array

theorem shrunk_ofArray (bounded : Bounded base array) (nonempty : 0 < array.length) :
    Shrunk base (ofArray array).shrink := by
  have counts : DivTmpArray.Counts base (ofArray array) :=
    ⟨bounded, nonempty, le_refl _, value_lt bounded⟩
  exact ⟨counts.shrink, rfl, weight_le_of_shrink counts⟩

/-- The top counted element tells whether the number is zero. -/
theorem Shrunk.top_eq_zero_iff (shrunk : Shrunk base tmp) (positive : 0 < base) :
    tmp.array.getD (tmp.size - 1) 0 = 0 ↔ ofDigits base tmp.array = 0 := by
  constructor
  · intro zero
    by_cases several : 1 < tmp.size
    · exact absurd zero (top_ne_zero shrunk.counts (shrunk.reached several))
    · have single : tmp.size = 1 := by
        have := shrunk.counts.positive
        omega
      have small := shrunk.counts.small
      rw [single, pow_one] at small
      rw [single] at zero
      exact (value_eq_lowest small).trans zero
  · intro zero
    by_cases inside : tmp.size - 1 < tmp.array.length
    · rw [getD_eq_getElem _ _ inside]
      exact (value_eq_zero_iff positive _).mp zero _ (getElem_mem inside)
    · exact getD_eq_default _ _ (by omega)

/-- A divisor of one element divides by short division. -/
theorem shortDivision_ends {divisor : Nat} (counts : DivTmpArray.Counts format.base dividend)
    (positive : 0 < divisor) (digit : divisor < format.base)
    (room : format.size ≤ dividend.array.length) :
    Ends (do
        let (quotient, _) ← dividend.div format.element divisor
        match exportTo format quotient.array with
        | none => throw .overflow
        | some array => return (array, false))
      (fun result => Stores format (ofDigits format.base dividend.array / divisor) result.1)
      (Overflows format.totalRank (ofDigits format.base dividend.array / divisor)) := by
  obtain ⟨quotient, computed, quotientCounts, length, value⟩ :=
    div_divides format.element counts positive digit
  rw [format.element_base] at value
  obtain ⟨large, small⟩ := exportTo_exact (by omega)
    quotientCounts.bounded
  rw [computed]
  dsimp only [bind, Except.bind]
  rw [← value]
  by_cases excess : 10 ^ format.totalRank ≤ ofDigits format.base quotient.array
  · rw [large excess]
    exact ⟨rfl, excess⟩
  · obtain ⟨exported, same⟩ := small (Nat.lt_of_not_le excess)
    rw [exported]
    exact ⟨length_take_of_le (by omega), quotientCounts.bounded.take _, same,
      Nat.lt_of_not_le excess⟩

/-- The branches of `div_` deliver the quotient of the two numbers: nothing for a
divisor of more elements than the dividend, otherwise by short or by long division. -/
theorem quotientArray_ends
    (dividendShrunk : Shrunk format.base dividend) (divisorShrunk : Shrunk format.base divisor)
    (dividendCapacity : dividend.array.length = format.divTmpSize)
    (divisorCapacity : divisor.array.length = format.size + 1)
    (limited : ofDigits format.base dividend.array <
      10 ^ (format.totalRank + format.fractionRank))
    (nonzero : ofDigits format.base divisor.array ≠ 0) :
    Ends (quotientArray format dividend divisor)
      (fun result => Stores format
        (ofDigits format.base dividend.array / ofDigits format.base divisor.array) result.1)
      (Overflows format.totalRank
        (ofDigits format.base dividend.array / ofDigits format.base divisor.array)) := by
  have positive := format.base_positive
  have divisorSize := divisorShrunk.counts.positive
  have top := mt (divisorShrunk.top_eq_zero_iff positive).mp nonzero
  unfold quotientArray
  rw [if_neg top]
  by_cases shorter : dividend.size < divisor.size
  · have below : ofDigits format.base dividend.array < ofDigits format.base divisor.array :=
      calc ofDigits format.base dividend.array < format.base ^ dividend.size :=
            dividendShrunk.counts.small
        _ ≤ format.base ^ (divisor.size - 1) := Nat.pow_le_pow_right positive (by omega)
        _ ≤ _ := divisorShrunk.reached (by
            have := dividendShrunk.counts.positive
            omega)
    rw [if_pos shorter, Nat.div_eq_of_lt below]
    exact ⟨length_replicate, bounded_replicate_zero positive _, Nat.ofDigits_replicate_zero,
      Nat.pow_pos (by decide)⟩
  rw [if_neg shorter]
  have capacity := format.tmpSize_split.1
  rw [format.divTmpSize_eq] at dividendCapacity
  by_cases single : divisor.size = 1
  · have small := divisorShrunk.counts.small
    rw [single, pow_one] at small
    have value := value_eq_lowest small
    rw [single] at top ⊢
    rw [value]
    exact shortDivision_ends dividendShrunk.counts (pos_of_ne_zero top)
      (value ▸ small) (by omega)
  · rw [if_neg single]
    have dividendReached := dividendShrunk.reached (by omega)
    have room : dividend.size ≤ format.tmpSize := by
      have larger : format.base ^ (dividend.size - 1) < format.base ^ format.tmpSize :=
        calc _ ≤ ofDigits format.base dividend.array := dividendReached
          _ < _ := limited
          _ ≤ _ := MulTmpArray.limit_le_power format
      have := (Nat.pow_lt_pow_iff_right (by have := format.base_large; omega :
        1 < format.base)).mp larger
      omega
    have prepared : Prepared format dividend divisor :=
      ⟨by rw [dividendCapacity, format.divTmpSize_eq], dividendShrunk.counts,
        dividendShrunk.initial, dividendReached, room, divisorCapacity, divisorShrunk.counts,
        divisorShrunk.initial, divisorShrunk.reached (by omega), by omega, by omega⟩
    exact Ends.bind (longDivision_ends prepared
      invalidArray_length) (fun array written => written)

/-- The array of the divisor after its constructor. -/
theorem divisor_shrunk {divisor : Decimal format} (range : divisor.InRange) :
    Shrunk format.base (ofArray (divisor.array ++ [0])).shrink ∧
      ofDigits format.base (ofArray (divisor.array ++ [0])).shrink.array =
        divisor.magnitude := by
  refine ⟨shrunk_ofArray ?_ (by simp), Nat.ofDigits_append_zero _⟩
  exact bounded_append.mpr ⟨range.bounded, bounded_cons.mpr
    ⟨format.base_positive, bounded_nil⟩⟩

variable (dividend divisor : Decimal format)

/-- `Decimal::div_` refuses a zero divisor. -/
theorem divide_zero (range : divisor.InRange) (zero : divisor.magnitude = 0) :
    divide dividend divisor = .error .overflow := by
  obtain ⟨shrunk, value⟩ := divisor_shrunk range
  have top := (shrunk.top_eq_zero_iff format.base_positive).mpr (value.trans zero)
  unfold divide quotientArray
  rw [if_pos top]
  rfl

/-- `Decimal::div_` delivers the quotient rounded down, with the sign of the quotient. -/
theorem divide_ends (dividendRange : dividend.InRange) (divisorRange : divisor.InRange)
    (nonzero : divisor.magnitude ≠ 0) :
    Ends (divide dividend divisor)
      (fun result => result.1.InRange ∧
        result.1.number = ⟨dividend.negative != divisor.negative,
          dividend.magnitude * 10 ^ format.fractionRank / divisor.magnitude⟩)
      (Overflows format.totalRank
        (dividend.magnitude * 10 ^ format.fractionRank / divisor.magnitude)) := by
  obtain ⟨divisorShrunk, divisorValue⟩ := divisor_shrunk divisorRange
  obtain ⟨dividendLength, dividendBounded, dividendValue⟩ :=
    shifted_exact dividendRange.length dividendRange.bounded
  have dividendShrunk := shrunk_ofArray dividendBounded (by
    rw [dividendLength, format.divTmpSize_eq]
    exact Nat.succ_pos _)
  have limited : dividend.magnitude * 10 ^ format.fractionRank <
      10 ^ (format.totalRank + format.fractionRank) := by
    rw [pow_add]
    exact Nat.mul_lt_mul_of_pos_right dividendRange.magnitude_lt (Nat.pow_pos (by decide))
  have branches := quotientArray_ends dividendShrunk divisorShrunk dividendLength
    (by
      change (divisor.array ++ [0]).length = format.size + 1
      rw [length_append, divisorRange.length, length_singleton])
    (lt_of_eq_of_lt dividendValue limited) (divisorValue ▸ nonzero)
  rw [divisorValue, show ofDigits format.base (ofArray
    (shifted format dividend.array)).shrink.array = _ from dividendValue] at branches
  refine Ends.bind branches (fun result stored => ?_)
  exact ⟨.of_magnitude stored.length stored.bounded (lt_of_eq_of_lt stored.value stored.limit),
    congrArg (SignedMagnitude.mk _) stored.value⟩

/-- The quotient of the magnitudes in units of the last digit, before rounding. -/
def exactQuotient (dividend divisor : Decimal format) : ℚ :=
  dividend.magnitude * 10 ^ format.fractionRank / divisor.magnitude

theorem exactQuotient_eq : exactQuotient dividend divisor =
    (dividend.magnitude * 10 ^ format.fractionRank : ℕ) / (divisor.magnitude : ℕ) := by
  push_cast
  rfl

/-- Under `DDR_FLOOR` the quotient is rounded down. -/
theorem div_floor (dividendRange : dividend.InRange) (divisorRange : divisor.InRange)
    (nonzero : divisor.magnitude ≠ 0) :
    Delivers (div dividend divisor .floor) ⟨dividend.negative != divisor.negative,
      Rounding.floor (exactQuotient dividend divisor)⟩ := by
  rw [exactQuotient_eq, Rounding.floor_quotient, delivers_iff]
  refine Ends.bind (divide_ends dividend divisor dividendRange divisorRange nonzero)
    (fun result divided => ?_)
  exact divided

/-- Multiplying the rounded down quotient back gives the dividend exactly when the
division left nothing. -/
theorem multiplied_back_iff {dividend divisor unit : Nat} (positive : 0 < unit) :
    dividend * unit / divisor * divisor / unit = dividend ↔ dividend * unit % divisor = 0 := by
  have division := Nat.div_add_mod' (dividend * unit) divisor
  constructor
  · intro same
    have lower := Nat.div_mul_le_self (dividend * unit / divisor * divisor) unit
    rw [same] at lower
    omega
  · intro exactly
    rw [exactly, add_zero] at division
    rw [division, Nat.mul_div_cancel _ positive]

theorem multiplied_back_le {dividend divisor unit : Nat} :
    dividend * unit / divisor * divisor / unit ≤ dividend := by
  refine Nat.div_le_of_le_mul ?_
  rw [mul_comm unit]
  exact Nat.div_mul_le_self _ _

section

variable (dividend divisor quotient : Decimal format) (dividendRange : dividend.InRange)
  (divisorRange : divisor.InRange) (quotientRange : quotient.InRange)
  (quotientNumber : quotient.number = ⟨dividend.negative != divisor.negative, dividend.magnitude * 10 ^ format.fractionRank / divisor.magnitude⟩)
include dividendRange divisorRange quotientRange quotientNumber

/-- The quotient multiplied back does not overflow; it has the dividend's sign. -/
theorem multiplied_back :
    ∃ product, mul quotient divisor .floor = .ok product ∧ product.InRange ∧
      product.number = ⟨dividend.negative, dividend.magnitude * 10 ^ format.fractionRank /
        divisor.magnitude * divisor.magnitude / 10 ^ format.fractionRank⟩ := by
  obtain ⟨quotientSign, quotientValue⟩ := SignedMagnitude.mk.inj quotientNumber
  have small : quotient.magnitude * divisor.magnitude / 10 ^ format.fractionRank <
      10 ^ format.totalRank := by
    rw [quotientValue]
    exact multiplied_back_le.trans_lt dividendRange.magnitude_lt
  have delivered := mul_floor quotient divisor quotientRange divisorRange
  rw [exactProduct_eq, Rounding.floor_quotient, Delivers, if_pos (by exact small)] at delivered
  obtain ⟨product, computed, productRange, productNumber⟩ := delivered
  refine ⟨product, computed, productRange, ?_⟩
  have sign : (quotient.negative != divisor.negative) = dividend.negative := by
    rw [quotientSign]
    cases dividend.negative <;> cases divisor.negative <;> rfl
  rw [productNumber, sign, quotientValue]

/-- The product that tests the remainder equals the dividend exactly when the division
left nothing. -/
theorem remainder_test :
    ∃ product, mul quotient divisor .floor = .ok product ∧
      (dividend.eq product = true ↔
        dividend.magnitude * 10 ^ format.fractionRank % divisor.magnitude = 0) := by
  obtain ⟨product, computed, productRange, productNumber⟩ := multiplied_back dividend divisor
    quotient dividendRange divisorRange quotientRange quotientNumber
  refine ⟨product, computed, ?_⟩
  obtain ⟨sign, value⟩ := SignedMagnitude.mk.inj productNumber
  rw [eq_iff_magnitude dividendRange productRange sign.symm, value, eq_comm]
  exact multiplied_back_iff (Nat.pow_pos (by decide))

end

/-- Under `DDR_CEIL` a unit is added unless the division left nothing. The product that
tests it cannot overflow. -/
theorem div_ceil (dividendRange : dividend.InRange) (divisorRange : divisor.InRange)
    (nonzero : divisor.magnitude ≠ 0) :
    Delivers (div dividend divisor .ceil) ⟨dividend.negative != divisor.negative,
      Rounding.ceiling (exactQuotient dividend divisor)⟩ := by
  rw [exactQuotient_eq, Rounding.ceiling_quotient _ _ (pos_of_ne_zero nonzero), delivers_iff]
  refine Ends.bind ((divide_ends dividend divisor dividendRange divisorRange nonzero).mono
    (fun _ divided => divided) (fun failure excess => ⟨excess.1, ?_⟩)) (fun result divided => ?_)
  · exact le_trans excess.2 (Nat.le_add_right _ _)
  · obtain ⟨quotient, whole⟩ := result
    obtain ⟨quotientRange, quotientNumber⟩ := divided
    obtain ⟨product, computed, test⟩ := remainder_test dividend divisor quotient dividendRange
      divisorRange quotientRange quotientNumber
    obtain ⟨unit, constructed, unitRange, unitNumber⟩ := epsilon_exact format
    obtain ⟨quotientSign, quotientValue⟩ := SignedMagnitude.mk.inj quotientNumber
    dsimp only
    rw [computed]
    dsimp only [bind, Except.bind]
    by_cases exactly : dividend.magnitude * 10 ^ format.fractionRank % divisor.magnitude = 0
    · rw [if_pos (test.mpr exactly), if_pos exactly]
      exact ⟨quotientRange, quotientNumber⟩
    · rw [if_neg (mt test.mp exactly), if_neg exactly, constructed, ← quotientValue, ← quotientSign]
      have added := joined_delivers quotient.negative quotientRange unitRange
      rw [(SignedMagnitude.mk.inj unitNumber).2] at added
      exact delivers_iff.mp added

/-- `Decimal::div` delivers the quotient rounded down or up, with the sign of the
quotient, and throws `Overflow` for a zero divisor. Both the division by one element
and the long division are covered; no assertion fails on the way. -/
theorem div_exact (dividend divisor : Decimal format) (dividendRange : dividend.InRange)
    (divisorRange : divisor.InRange) :
    (divisor.magnitude = 0 → ∀ ddr, div dividend divisor ddr = .error .overflow) ∧
      (divisor.magnitude ≠ 0 →
        Delivers (div dividend divisor .floor) ⟨dividend.negative != divisor.negative,
          Rounding.floor (exactQuotient dividend divisor)⟩ ∧
        Delivers (div dividend divisor .ceil) ⟨dividend.negative != divisor.negative,
          Rounding.ceiling (exactQuotient dividend divisor)⟩) := by
  refine ⟨fun zero ddr => ?_, fun nonzero => ⟨div_floor dividend divisor dividendRange divisorRange
    nonzero, div_ceil dividend divisor dividendRange divisorRange nonzero⟩⟩
  rw [div, divide_zero dividend divisor divisorRange zero]
  rfl

theorem div_exact_bytes :
    (⟨false, [45, 23, 1]⟩ : Decimal .bytes).magnitude ≠ 0 ∧
      Delivers (div (⟨true, [89, 67, 45]⟩ : Decimal .bytes) ⟨false, [45, 23, 1]⟩ .floor)
        ⟨true, Rounding.floor (exactQuotient (⟨true, [89, 67, 45]⟩ : Decimal .bytes)
          ⟨false, [45, 23, 1]⟩)⟩ ∧
      Delivers (div (⟨true, [89, 67, 45]⟩ : Decimal .bytes) ⟨false, [45, 23, 1]⟩ .ceil)
        ⟨true, Rounding.ceiling (exactQuotient (⟨true, [89, 67, 45]⟩ : Decimal .bytes)
          ⟨false, [45, 23, 1]⟩)⟩ :=
  ⟨by decide, (div_exact (⟨true, [89, 67, 45]⟩ : Decimal .bytes) ⟨false, [45, 23, 1]⟩ (by decide)
    (by decide)).2 (by decide)⟩

end Decimal

end UnixCommons.Generics
