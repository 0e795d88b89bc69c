import UnixCommons.Generics.DecimalDivision

/-!
# One-word decimals

The simple decimal keeps its magnitude in one unsigned word of the base type. Sums
are compared with the limit before they are made; products and quotients go through
one helper that multiplies into two machine words and divides back, with a flag for
a quotient beyond a word. Rounding looks at the remainder, and the limit is checked
again after it.

Every operation on valid operands delivers the exact signed result or `Overflow`,
by the same rational specification as the multi-limb decimals.
-/

namespace UnixCommons.Generics

open Outcome Machine Rounding

/-- `DecimalHelper::Pow10`, a constant of the base type. -/
def Element.pow10 (base : Element) : Nat → Nat
  | 0 => 1
  | power + 1 => base.wrap (10 * base.pow10 power)

variable {power left right : Nat}

/-- The powers of ten up to `digits10` fit the base. -/
theorem Element.pow_lt_modulus (base : Element) (fits : power ≤ base.digits10) :
    10 ^ power < base.modulus := by
  refine lt_of_le_of_lt (Nat.pow_le_pow_right (by decide) fits) ?_
  cases base <;> decide

/-- The table of powers holds powers of ten. -/
theorem Element.pow10_eq (base : Element) (fits : power ≤ base.digits10) :
    base.pow10 power = 10 ^ power := by
  induction power with
  | zero => rfl
  | succ power ih =>
    have small := base.pow_lt_modulus fits
    rw [pow_succ'] at small
    rw [pow10, ih (by omega), wrap_eq small, pow_succ']

/-- `DecimalHelper::muldiv`: the flag of a quotient beyond a word, the quotient and
the remainder. When the flag is raised the two words of the product are left where
the results are expected. -/
def muldiv (factor1 factor2 divisor : Nat) : Except Failure (Bool × Nat × Nat) :=
  let a := factor1 * factor2 % 2 ^ 64
  let d := factor1 * factor2 / 2 ^ 64
  if divisor ≤ d then .ok (divisor != 0, a, d)
  else do
    let (quotient, remainder) ← divq d a divisor
    .ok (false, quotient, remainder)

/-- The flag tells exactly whether the quotient needs more than a word; the product
itself loses nothing. -/
theorem muldiv_exact (factor1 factor2 divisor : Nat) (positive : 0 < divisor) :
    muldiv factor1 factor2 divisor =
      if factor1 * factor2 / divisor < 2 ^ 64 then
        .ok (false, factor1 * factor2 / divisor, factor1 * factor2 % divisor)
      else .ok (true, factor1 * factor2 % 2 ^ 64, factor1 * factor2 / 2 ^ 64) := by
  have flag : factor1 * factor2 / 2 ^ 64 < divisor ↔ factor1 * factor2 / divisor < 2 ^ 64 := by
    rw [Nat.div_lt_iff_lt_mul (by decide), Nat.div_lt_iff_lt_mul positive,
      mul_comm divisor]
  unfold muldiv
  by_cases small : factor1 * factor2 / 2 ^ 64 < divisor
  · rw [if_neg (Nat.not_le.mpr small), Element.divq_exact small, if_pos (flag.mp small)]
    rfl
  · rw [if_pos (Nat.le_of_not_lt small), if_neg (mt flag.mpr small),
      bne_iff_ne.mpr (Nat.pos_iff_ne_zero.mp positive)]

/-- One instantiation of the simple decimal template, with its compile-time
assertions. -/
structure SimpleFormat where
  base : Element
  totalRank : Nat
  fractionRank : Nat
  totalPositive : 0 < totalRank
  fractionBounded : fractionRank ≤ totalRank
  totalFits : totalRank ≤ base.digits10

namespace SimpleFormat

/-- Eighteen digits in one word, eight of them behind the point. -/
def wide : SimpleFormat := ⟨.uint64, 18, 8, by decide, by decide, by decide⟩

variable (format : SimpleFormat)

def integerRank : Nat := format.totalRank - format.fractionRank

def maxValue : Nat := format.base.pow10 format.totalRank

def maxFraction : Nat := format.base.pow10 format.fractionRank

def maxInteger : Nat := format.base.pow10 format.integerRank

theorem maxValue_eq : format.maxValue = 10 ^ format.totalRank :=
  format.base.pow10_eq format.totalFits

theorem maxFraction_eq : format.maxFraction = 10 ^ format.fractionRank :=
  format.base.pow10_eq (format.fractionBounded.trans format.totalFits)

theorem maxInteger_eq : format.maxInteger = 10 ^ format.integerRank :=
  format.base.pow10_eq ((Nat.sub_le _ _).trans format.totalFits)

theorem maxInteger_le : 10 ^ format.integerRank ≤ 10 ^ format.totalRank :=
  Nat.pow_le_pow_right (by decide) (Nat.sub_le _ _)

/-- The largest value fits the base. -/
theorem maxValue_lt : 10 ^ format.totalRank < format.base.modulus :=
  format.base.pow_lt_modulus format.totalFits

theorem maxValue_lt_word : 10 ^ format.totalRank < 2 ^ 64 :=
  lt_of_lt_of_le format.maxValue_lt format.base.modulus_le

end SimpleFormat

/-- Sign and data of one simple decimal. -/
structure SimpleDecimal (format : SimpleFormat) where
  negative : Bool
  data : Nat
deriving DecidableEq, Repr

namespace SimpleDecimal

variable {format : SimpleFormat}

/-- The data has no more than the total rank of digits. The flag of a default
constructed object is not valid. -/
def Valid (decimal : SimpleDecimal format) : Prop := decimal.data < 10 ^ format.totalRank
  deriving Decidable

/-- The number that a decimal stands for. -/
def number (decimal : SimpleDecimal format) : SignedMagnitude := ⟨decimal.negative, decimal.data⟩

/-- The represented number in units of the last digit. -/
def signed (decimal : SimpleDecimal format) : Int := decimal.number.toInt

/-- The comparison that guards a sum, in the arithmetic the base type promotes to. -/
def sumOverflows (format : SimpleFormat) (left right : Nat) : Bool :=
  decide (format.base.type.promote.wrap ((format.maxValue : Int) - left) ≤ (right : Int))

/-- `SimpleDecimal::add`. -/
def add (summand1 summand2 : SimpleDecimal format) : Except Failure (SimpleDecimal format) :=
  if summand1.negative = summand2.negative then
    if sumOverflows format summand1.data summand2.data then .error .overflow
    else .ok ⟨summand1.negative, format.base.wrap (summand1.data + summand2.data)⟩
  else if summand1.data < summand2.data then
    .ok ⟨summand2.negative, summand2.data - summand1.data⟩
  else .ok ⟨summand1.negative, summand1.data - summand2.data⟩

/-- `SimpleDecimal::sub`. -/
def sub (minuend subtrahend : SimpleDecimal format) : Except Failure (SimpleDecimal format) :=
  if minuend.negative ≠ subtrahend.negative then
    if sumOverflows format minuend.data subtrahend.data then .error .overflow
    else .ok ⟨minuend.negative, format.base.wrap (minuend.data + subtrahend.data)⟩
  else if minuend.data < subtrahend.data then
    .ok ⟨!subtrahend.negative, subtrahend.data - minuend.data⟩
  else .ok ⟨minuend.negative, minuend.data - subtrahend.data⟩

/-- The end of a product or a quotient: the increment the rounding asks for, the last
comparison with the limit, and the cast to the base type. -/
def finish (format : SimpleFormat) (negative up : Bool) (result : Nat) :
    Except Failure (SimpleDecimal format) :=
  if up then
    let result := (result + 1) % 2 ^ 64
    if result = format.maxValue then .error .overflow
    else .ok ⟨negative, format.base.wrap result⟩
  else .ok ⟨negative, format.base.wrap result⟩

/-- `SimpleDecimal::mul`. -/
def mul (factor1 factor2 : SimpleDecimal format) (dmr : DecimalMulRemainder) :
    Except Failure (SimpleDecimal format) := do
  let (failed, res, rem) ← muldiv factor1.data factor2.data format.maxFraction
  if failed ∨ format.maxValue ≤ res then .error .overflow
  else
    finish format (factor1.negative != factor2.negative)
      (dmr != .floor && format.fractionRank != 0 &&
        (if dmr = .round then decide (format.maxFraction / 2 ≤ rem) else rem != 0)) res

/-- `SimpleDecimal::div_`, which `SimpleDecimal::div` returns as it is. -/
def div (dividend divisor : SimpleDecimal format) (ddr : DecimalDivRemainder) :
    Except Failure (SimpleDecimal format) :=
  if divisor.data = 0 then .error .overflow
  else do
    let (failed, quot, rem) ← muldiv dividend.data format.maxFraction divisor.data
    if failed ∨ format.maxValue ≤ quot then .error .overflow
    else
      finish format (dividend.negative != divisor.negative) (ddr == .ceil && rem != 0) quot

/-- `SimpleDecimal::operator ==`. -/
def eq (left right : SimpleDecimal format) : Bool :=
  if left.negative = right.negative then left.data == right.data
  else left.data == 0 && right.data == 0

/-- What an operation with the given exact result owes its caller: that number, or
`Overflow` exactly when it has more digits than the total rank. -/
def Delivers (outcome : Except Failure (SimpleDecimal format)) (exact : SignedMagnitude) : Prop :=
  if exact.magnitude < 10 ^ format.totalRank then
    outcome = .ok ⟨exact.negative, exact.magnitude⟩
  else outcome = .error .overflow

/-- A small magnitude is delivered as it is. -/
theorem delivers_wrapped {negative : Bool} {data : Nat} (small : data < 10 ^ format.totalRank) :
    Delivers (.ok (⟨negative, format.base.wrap data⟩ : SimpleDecimal format))
      ⟨negative, data⟩ := by
  have fits : format.base.wrap data = data := Element.wrap_eq (small.trans format.maxValue_lt)
  simp [Delivers, small, fits]

/-- The comparison before a sum is the comparison of the sum with the limit. -/
theorem sumOverflows_iff (valid : left < 10 ^ format.totalRank) :
    sumOverflows format left right = true ↔ 10 ^ format.totalRank ≤ left + right := by
  have small : 10 ^ format.totalRank - left < format.base.type.promote.limit := by
    refine lt_of_lt_of_le ?_ IntType.limit_le_promote
    rw [Element.type_limit]
    exact lt_of_le_of_lt (Nat.sub_le _ _) format.maxValue_lt
  have difference : ((format.maxValue : Int) - left) = ((10 ^ format.totalRank - left : Nat) : Int) := by
    rw [format.maxValue_eq]
    omega
  rw [sumOverflows, difference, IntType.wrap_natCast small, decide_eq_true_iff]
  omega

/-- The branch of equal directions. -/
theorem joined_delivers {negative : Bool} (valid : left < 10 ^ format.totalRank) :
    Delivers (if sumOverflows format left right then .error .overflow
      else .ok (⟨negative, format.base.wrap (left + right)⟩ : SimpleDecimal format))
      ⟨negative, left + right⟩ := by
  by_cases large : 10 ^ format.totalRank ≤ left + right
  · rw [if_pos ((sumOverflows_iff valid).mpr large)]
    simp [Delivers, Nat.not_lt.mpr large]
  · rw [if_neg (mt (sumOverflows_iff valid).mp large)]
    exact delivers_wrapped (Nat.lt_of_not_le large)

/-- The branch of opposed directions never overflows. -/
theorem opposed_delivers {first second : Bool} (leftValid : left < 10 ^ format.totalRank)
    (rightValid : right < 10 ^ format.totalRank) :
    Delivers (if left < right then .ok (⟨second, right - left⟩ : SimpleDecimal format)
      else .ok ⟨first, left - right⟩)
      (if left < right then ⟨second, right - left⟩ else ⟨first, left - right⟩) := by
  by_cases less : left < right
  · have small : right - left < 10 ^ format.totalRank := by omega
    simp [Delivers, less, small]
  · have small : left - right < 10 ^ format.totalRank := by omega
    simp [Delivers, less, small]

/-- A sum is delivered, or overflows. -/
theorem add_delivers {summand1 summand2 : SimpleDecimal format} (valid1 : summand1.Valid)
    (valid2 : summand2.Valid) :
    Delivers (add summand1 summand2) (summand1.number.add summand2.number) := by
  unfold add SignedMagnitude.add
  by_cases signs : summand1.negative = summand2.negative
  · rw [if_pos signs, if_pos (show summand1.number.negative = summand2.number.negative from signs)]
    exact joined_delivers valid1
  · rw [if_neg signs,
      if_neg (show ¬ summand1.number.negative = summand2.number.negative from signs)]
    exact opposed_delivers valid1 valid2

/-- A difference is delivered, or overflows. -/
theorem sub_delivers {minuend subtrahend : SimpleDecimal format} (valid1 : minuend.Valid)
    (valid2 : subtrahend.Valid) :
    Delivers (sub minuend subtrahend) (minuend.number.sub subtrahend.number) := by
  have flipped : minuend.number.negative = subtrahend.number.neg.negative ↔
      minuend.negative ≠ subtrahend.negative := by
    cases first : minuend.negative <;> cases second : subtrahend.negative <;>
      simp [number, SignedMagnitude.neg, first, second]
  unfold sub SignedMagnitude.sub SignedMagnitude.add
  by_cases signs : minuend.negative ≠ subtrahend.negative
  · rw [if_pos signs, if_pos (flipped.mpr signs)]
    exact joined_delivers valid1
  · rw [if_neg signs, if_neg (mt flipped.mp signs)]
    exact opposed_delivers valid1 valid2

/-- The last step of a multiplication or division. -/
theorem finish_delivers {negative up : Bool} {result : Nat} (small : result < 10 ^ format.totalRank) :
    Delivers (finish format negative up result)
      ⟨negative, result + if up then 1 else 0⟩ := by
  unfold finish
  cases up with
  | false => exact delivers_wrapped small
  | true =>
    have word : (result + 1) % 2 ^ 64 = result + 1 :=
      Nat.mod_eq_of_lt (lt_of_le_of_lt small format.maxValue_lt_word)
    simp only [word, format.maxValue_eq]
    by_cases full : result + 1 = 10 ^ format.totalRank
    · simp [Delivers, full]
    · rw [if_neg full]
      exact delivers_wrapped (lt_of_le_of_ne small full)

/-- Multiply, divide, check and round: the common shape of products and quotients. -/
theorem muldiv_delivers {negative : Bool} {factor1 factor2 divisor : Nat} (up : Nat → Bool)
    (positive : 0 < divisor) :
    Delivers (do
        let (failed, result, rem) ← muldiv factor1 factor2 divisor
        if failed ∨ format.maxValue ≤ result then .error .overflow
        else finish format negative (up rem) result)
      ⟨negative, factor1 * factor2 / divisor +
        if up (factor1 * factor2 % divisor) then 1 else 0⟩ := by
  have word := format.maxValue_lt_word
  rw [muldiv_exact factor1 factor2 divisor positive, format.maxValue_eq]
  by_cases wide : factor1 * factor2 / divisor < 2 ^ 64
  · rw [if_pos wide]
    dsimp only [bind, Except.bind]
    by_cases large : 10 ^ format.totalRank ≤ factor1 * factor2 / divisor
    · rw [if_pos (.inr large), Delivers, if_neg (by dsimp only; omega)]
    · rw [if_neg (by simpa using large)]
      exact finish_delivers (Nat.lt_of_not_le large)
  · rw [if_neg wide]
    dsimp only [bind, Except.bind]
    rw [if_pos (.inl rfl), Delivers, if_neg (by dsimp only; omega)]

/-- The product of the data in units of the last digit, before rounding. -/
def exactProduct (factor1 factor2 : SimpleDecimal format) : ℚ :=
  factor1.data * factor2.data / 10 ^ format.fractionRank

/-- The quotient of the data in units of the last digit, before rounding. -/
def exactQuotient (dividend divisor : SimpleDecimal format) : ℚ :=
  dividend.data * 10 ^ format.fractionRank / divisor.data

/-- The exact product in units of the last place. -/
theorem exactProduct_eq (factor1 factor2 : SimpleDecimal format) : exactProduct factor1 factor2 =
    (factor1.data * factor2.data : ℕ) / (10 ^ format.fractionRank : ℕ) := by
  push_cast
  rfl

variable (dividend divisor : SimpleDecimal format)

/-- The exact quotient in units of the last place. -/
theorem exactQuotient_eq :
    exactQuotient dividend divisor =
      (dividend.data * 10 ^ format.fractionRank : ℕ) / (divisor.data : ℕ) := by
  push_cast
  rfl

section

variable (factor1 factor2 : SimpleDecimal format)
include factor1 factor2

/-- A product with the rounding it asks for. -/
theorem mul_delivers (dmr : DecimalMulRemainder)
    (rounded : Nat) (rounding : factor1.data * factor2.data / 10 ^ format.fractionRank +
      (if (dmr != .floor && format.fractionRank != 0 &&
        (if dmr = .round then decide (10 ^ format.fractionRank / 2 ≤
            factor1.data * factor2.data % 10 ^ format.fractionRank)
          else factor1.data * factor2.data % 10 ^ format.fractionRank != 0)) = true
        then 1 else 0) = rounded) :
    Delivers (mul factor1 factor2 dmr) ⟨factor1.negative != factor2.negative, rounded⟩ := by
  subst rounding
  unfold mul
  rw [format.maxFraction_eq]
  exact muldiv_delivers
    (fun rem => dmr != .floor && format.fractionRank != 0 &&
      (if dmr = .round then decide (10 ^ format.fractionRank / 2 ≤ rem) else rem != 0))
    (Nat.pow_pos (by decide))

/-- The product rounded down. -/
theorem mul_floor :
    Delivers (mul factor1 factor2 .floor) ⟨factor1.negative != factor2.negative,
      floor (exactProduct factor1 factor2)⟩ := by
  apply mul_delivers
  rw [exactProduct_eq, floor_quotient]
  simp

/-- Without fraction digits nothing is dropped and no rounding is tried. -/
theorem mul_round :
    Delivers (mul factor1 factor2 .round) ⟨factor1.negative != factor2.negative,
      halfUp (exactProduct factor1 factor2)⟩ := by
  apply mul_delivers
  rw [exactProduct_eq]
  by_cases none : format.fractionRank = 0
  · rw [none, pow_zero, Nat.cast_one, div_one, halfUp_natCast]
    simp
  · have even : 2 * (10 ^ format.fractionRank / 2) = 10 ^ format.fractionRank :=
      Nat.mul_div_cancel' (dvd_pow (by decide) none)
    rw [halfUp_quotient _ _ (Nat.pow_pos (by decide)) even]
    simp [none]

/-- The product rounded up. -/
theorem mul_ceil :
    Delivers (mul factor1 factor2 .ceil) ⟨factor1.negative != factor2.negative,
      ceiling (exactProduct factor1 factor2)⟩ := by
  apply mul_delivers
  rw [exactProduct_eq, ceiling_quotient _ _ (Nat.pow_pos (by decide))]
  by_cases none : format.fractionRank = 0
  · simp [none, Nat.mod_one]
  · by_cases rest : factor1.data * factor2.data % 10 ^ format.fractionRank = 0 <;> simp [none]

end

/-- The quotient with the unit that `ceil` adds. -/
theorem div_delivers (ddr : DecimalDivRemainder) (nonzero : divisor.data ≠ 0) :
    Delivers (div dividend divisor ddr) ⟨dividend.negative != divisor.negative,
      dividend.data * 10 ^ format.fractionRank / divisor.data +
        if (ddr == .ceil && dividend.data * 10 ^ format.fractionRank % divisor.data != 0) = true
          then 1 else 0⟩ := by
  unfold div
  rw [if_neg nonzero, format.maxFraction_eq]
  exact muldiv_delivers
     (fun rem => ddr == .ceil && rem != 0)
    (pos_of_ne_zero nonzero)

/-- The quotient rounded down. -/
theorem div_floor (nonzero : divisor.data ≠ 0) :
    Delivers (div dividend divisor .floor) ⟨dividend.negative != divisor.negative,
      floor (exactQuotient dividend divisor)⟩ := by
  rw [exactQuotient_eq, floor_quotient]
  exact div_delivers dividend divisor .floor nonzero

/-- The quotient rounded up. -/
theorem div_ceil (nonzero : divisor.data ≠ 0) :
    Delivers (div dividend divisor .ceil) ⟨dividend.negative != divisor.negative,
      ceiling (exactQuotient dividend divisor)⟩ := by
  have delivered := div_delivers dividend divisor .ceil nonzero
  rw [exactQuotient_eq, ceiling_quotient _ _ (pos_of_ne_zero nonzero)]
  by_cases rest : dividend.data * 10 ^ format.fractionRank % divisor.data = 0
  · simpa [rest] using delivered
  · simpa [rest] using delivered

/-- Sum, difference, products and quotients of valid simple decimals are the exact
signed results, rounded as asked for, or `Overflow` exactly when the result exceeds
the total rank or the divisor is zero. The two-word product and its division lose
nothing on the way. -/
theorem arithmetic_exact (left right : SimpleDecimal format) (leftValid : left.Valid)
    (rightValid : right.Valid) :
    Delivers (add left right) (left.number.add right.number) ∧
      Delivers (sub left right) (left.number.sub right.number) ∧
      Delivers (mul left right .floor) ⟨left.negative != right.negative,
        floor (exactProduct left right)⟩ ∧
      Delivers (mul left right .round) ⟨left.negative != right.negative,
        halfUp (exactProduct left right)⟩ ∧
      Delivers (mul left right .ceil) ⟨left.negative != right.negative,
        ceiling (exactProduct left right)⟩ ∧
      (right.data = 0 → ∀ ddr, div left right ddr = .error .overflow) ∧
      (right.data ≠ 0 →
        Delivers (div left right .floor) ⟨left.negative != right.negative,
          floor (exactQuotient left right)⟩ ∧
        Delivers (div left right .ceil) ⟨left.negative != right.negative,
          ceiling (exactQuotient left right)⟩) ∧
      ∀ factor1 factor2 divisor, 0 < divisor → muldiv factor1 factor2 divisor =
        if factor1 * factor2 / divisor < 2 ^ 64 then
          .ok (false, factor1 * factor2 / divisor, factor1 * factor2 % divisor)
        else .ok (true, factor1 * factor2 % 2 ^ 64, factor1 * factor2 / 2 ^ 64) := by
  refine ⟨add_delivers leftValid rightValid, sub_delivers leftValid rightValid,
    mul_floor left right, mul_round left right, mul_ceil left right, ?_, ?_, muldiv_exact⟩
  · intro zero ddr
    rw [div, if_pos zero]
  · intro nonzero
    exact ⟨div_floor left right nonzero, div_ceil left right nonzero⟩

theorem arithmetic_exact_wide :
    (⟨true, 1234567890123456⟩ : SimpleDecimal .wide).Valid ∧
      (⟨false, 250000000⟩ : SimpleDecimal .wide).Valid ∧
      Delivers (div (⟨true, 1234567890123456⟩ : SimpleDecimal .wide) ⟨false, 250000000⟩ .ceil)
        ⟨true, ceiling (exactQuotient (⟨true, 1234567890123456⟩ : SimpleDecimal .wide)
          ⟨false, 250000000⟩)⟩ :=
  ⟨by decide, by decide,
    ((arithmetic_exact (⟨true, 1234567890123456⟩ : SimpleDecimal .wide) ⟨false, 250000000⟩
      (by decide) (by decide)).2.2.2.2.2.2.1 (by decide)).2⟩

end SimpleDecimal

end UnixCommons.Generics
