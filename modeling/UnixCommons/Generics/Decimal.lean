import UnixCommons.Generics.ElementArithmetic
import UnixCommons.Library.Outcome
import UnixCommons.Library.SignedMagnitude

/-!
# Multi-limb decimals: representation, comparison, sum and difference

A decimal is a sign and an array of elements, least significant first. It is in
range when every element is a digit of the base and the top element stays below
its own limit; that is the same as an array of digits whose magnitude has no more
than the total rank of decimal digits.

The array loops of addition, subtraction and comparison are translated as
recursions over the elements from the low end, with the machine's reductions.
Each has one law that states its exact effect on magnitudes. Negative zero is a
value of the class, so equality is not structural.
-/

namespace UnixCommons.Generics

open Limbs Outcome List
open Nat (ofDigits)

/-- Sign and elements of one decimal; the point position is in the format. -/
structure Decimal (format : Format) where
  negative : Bool
  array : List Nat
deriving DecidableEq, Repr

namespace Decimal

variable {format : Format}

/-- The magnitude as an integer of the last decimal digit. -/
def magnitude (decimal : Decimal format) : Nat := ofDigits format.base decimal.array

/-- Every element is a digit and the top element respects the total rank. -/
structure InRange (decimal : Decimal format) : Prop where
  length : decimal.array.length = format.size
  bounded : Bounded format.base decimal.array
  top : decimal.array.getD (format.size - 1) 0 < format.integerMaxOver

instance (decimal : Decimal format) : Decidable decimal.InRange :=
  decidable_of_iff (decimal.array.length = format.size ∧ Bounded format.base decimal.array ∧
      decimal.array.getD (format.size - 1) 0 < format.integerMaxOver)
    ⟨fun ⟨length, bounded, top⟩ => ⟨length, bounded, top⟩,
      fun ⟨length, bounded, top⟩ => ⟨length, bounded, top⟩⟩

/-- The array has all its elements and they are digits of the base. -/
structure Formed (decimal : Decimal format) : Prop where
  length : decimal.array.length = format.size
  bounded : Bounded format.base decimal.array

variable {decimal left right : Decimal format}

theorem InRange.formed (inRange : decimal.InRange) : decimal.Formed :=
  ⟨inRange.length, inRange.bounded⟩

/-- The test on the top element is the test on the magnitude. -/
theorem top_iff (array : List Nat) (length : array.length = format.size)
    (bounded : Bounded format.base array) :
    array.getD (format.size - 1) 0 < format.integerMaxOver ↔
      ofDigits format.base array < 10 ^ format.totalRank := by
  have positive := format.size_positive
  rw [← format.top_limit]
  exact (value_lt_top_iff bounded _ _ (by omega)).symm

/-- A decimal in its range is below the power of its digits. -/
theorem InRange.magnitude_lt (inRange : decimal.InRange) :
    decimal.magnitude < 10 ^ format.totalRank :=
  (top_iff _ inRange.length inRange.bounded).mp inRange.top

/-- A small magnitude is in range. -/
theorem InRange.of_magnitude (length : decimal.array.length = format.size)
    (bounded : Bounded format.base decimal.array)
    (small : decimal.magnitude < 10 ^ format.totalRank) : decimal.InRange :=
  ⟨length, bounded, (top_iff _ length bounded).mpr small⟩

/-- In-range arrays are determined by their magnitude. -/
theorem InRange.array_eq (leftRange : left.InRange) (rightRange : right.InRange)
    (same : left.magnitude = right.magnitude) : left.array = right.array := by
  have large := format.base_large
  exact Nat.ofDigits_inj_of_len_eq (by omega) (leftRange.length.trans rightRange.length.symm)
    leftRange.bounded rightRange.bounded same

/-- Sign and magnitude, without the element layout. -/
def number (decimal : Decimal format) : SignedMagnitude := ⟨decimal.negative, decimal.magnitude⟩

/-- The represented number in units of the last digit. -/
def signed (decimal : Decimal format) : Int := decimal.number.toInt

/-- What an operation with the given exact result owes its caller: that number,
in range, or `Overflow` exactly when the magnitude needs more decimal digits than
the total rank. No other failure is allowed. -/
def Delivers (outcome : Except Failure (Decimal format)) (exact : SignedMagnitude) : Prop :=
  if exact.magnitude < 10 ^ format.totalRank then
    ∃ result, outcome = .ok result ∧ result.InRange ∧ result.number = exact
  else outcome = .error .overflow

theorem delivers_ok {result : Decimal format} {exact : SignedMagnitude} (inRange : result.InRange)
    (same : result.number = exact) : Delivers (.ok result) exact := by
  subst same
  unfold Delivers
  rw [if_pos (by exact inRange.magnitude_lt)]
  exact ⟨result, rfl, inRange, rfl⟩

/-- The promise as a two-sided postcondition, the form that composes. -/
theorem delivers_iff {outcome : Except Failure (Decimal format)} {exact : SignedMagnitude} :
    Delivers outcome exact ↔ Ends outcome
      (fun result => result.InRange ∧ result.number = exact)
      (Overflows format.totalRank exact.magnitude) := by
  unfold Delivers
  by_cases small : exact.magnitude < 10 ^ format.totalRank
  · rw [if_pos small]
    cases outcome with
    | ok result => simp
    | error failure => simp [Nat.not_le.mpr small]
  · rw [if_neg small]
    cases outcome with
    | ok result =>
      simp only [reduceCtorEq, ends_ok, false_iff, not_and]
      rintro inRange rfl
      exact small inRange.magnitude_lt
    | error failure => simp [le_of_not_gt small]

/-- `Decimal::negate`. -/
def negate (decimal : Decimal format) : Decimal format :=
  { decimal with negative := !decimal.negative }

/-- `Decimal::is_zero`. -/
def isZero (decimal : Decimal format) : Bool := decimal.array.all (· == 0)

/-- `Decimal::operator ==`: with equal signs the elements are compared, with
different signs both must be zero. -/
def eq (left right : Decimal format) : Bool :=
  if left.negative == right.negative then left.array == right.array
  else left.isZero && right.isZero

theorem isZero_iff (decimal : Decimal format) :
    decimal.isZero = true ↔ decimal.magnitude = 0 := by
  rw [magnitude, value_eq_zero_iff format.base_positive]
  simp [isZero]

/-- Equality of in-range decimals is equality of the represented numbers. -/
theorem eq_iff (leftRange : left.InRange) (rightRange : right.InRange) :
    left.eq right = true ↔ left.signed = right.signed := by
  have arrays : left.array = right.array ↔ left.magnitude = right.magnitude :=
    ⟨fun same => congrArg (ofDigits format.base) same, leftRange.array_eq rightRange⟩
  unfold eq signed number SignedMagnitude.toInt
  by_cases signs : left.negative = right.negative
  · cases negative : right.negative <;> simp [signs, negative, arrays]
  · cases negative : right.negative <;> cases other : left.negative <;>
      simp_all [isZero_iff]

/-- With one sign, equality compares the magnitudes. -/
theorem eq_iff_magnitude (leftRange : left.InRange) (rightRange : right.InRange)
    (sign : left.negative = right.negative) :
    left.eq right = true ↔ left.magnitude = right.magnitude := by
  rw [eq, if_pos (by simpa using sign), beq_iff_eq]
  exact ⟨fun same => congrArg (ofDigits format.base) same, leftRange.array_eq rightRange⟩

/-- The carrying loop of `internal_add_`. -/
def addLoop (element : Element) : List Nat → List Nat → Nat → List Nat × Nat
  | x :: xs, y :: ys, overflow =>
      let num := element.wrap (x + y + overflow)
      if element.base ≤ num then
        let (rest, carry) := addLoop element xs ys 1
        ((num - element.base) :: rest, carry)
      else
        let (rest, carry) := addLoop element xs ys 0
        (num :: rest, carry)
  | _, _, overflow => ([], overflow)

/-- `Decimal::internal_add_`: the elements written to the target, and whether the
result is too big. -/
def internalAdd (format : Format) (summand1 summand2 : List Nat) : List Nat × Bool :=
  let (target, overflow) := addLoop format.element summand1 summand2 0
  (target, decide (overflow ≠ 0) ||
    decide (format.integerMaxOver ≤ target.getD (format.size - 1) 0))

/-- The borrowing loop of `internal_sub_`. -/
def subLoop (element : Element) : List Nat → List Nat → Nat → List Nat × Nat
  | x :: xs, y :: ys, underflow =>
      let realSubtrahend := element.wrap (y + underflow)
      if x < realSubtrahend then
        let (rest, borrow) := subLoop element xs ys 1
        ((element.base - (realSubtrahend - x)) :: rest, borrow)
      else
        let (rest, borrow) := subLoop element xs ys 0
        ((x - realSubtrahend) :: rest, borrow)
  | _, _, underflow => ([], underflow)

/-- `Decimal::internal_sub_`: elements up to the highest difference are
subtracted, those above it are filled with zero. -/
def internalSub (format : Format) (minuend subtrahend : List Nat) (diffIndex : Nat) :
    Except Failure (List Nat) := do
  let (low, underflow) :=
    subLoop format.element (minuend.take (diffIndex + 1)) (subtrahend.take (diffIndex + 1)) 0
  check (underflow == 0)
  return low ++ List.replicate (format.size - (diffIndex + 1)) 0

/-- The downward scan of `is_less_than_`, with the index where it stopped. -/
def isLessFrom (left right : List Nat) : Nat → Bool × Nat
  | 0 =>
      if left.getD 0 0 < right.getD 0 0 then (true, 0) else (false, 0)
  | index + 1 =>
      if left.getD (index + 1) 0 < right.getD (index + 1) 0 then (true, index + 1)
      else if right.getD (index + 1) 0 < left.getD (index + 1) 0 then (false, index + 1)
      else isLessFrom left right index

/-- `Decimal::is_less_than_`: comparison of the arrays and the highest index
where they differ. -/
def isLessThan (format : Format) (left right : List Nat) : Bool × Nat :=
  isLessFrom left right (format.size - 1)

/-- `Decimal::add`. -/
def add (summand1 summand2 : Decimal format) : Except Failure (Decimal format) :=
  if summand1.negative == summand2.negative then
    let (array, exceeds) := internalAdd format summand1.array summand2.array
    if exceeds then .error .overflow else .ok ⟨summand1.negative, array⟩
  else
    let (less, diffIndex) := isLessThan format summand1.array summand2.array
    if less then do
      let array ← internalSub format summand2.array summand1.array diffIndex
      return ⟨summand2.negative, array⟩
    else do
      let array ← internalSub format summand1.array summand2.array diffIndex
      return ⟨summand1.negative, array⟩

/-- `Decimal::sub`. -/
def sub (minuend subtrahend : Decimal format) : Except Failure (Decimal format) :=
  if minuend.negative == subtrahend.negative then
    let (less, diffIndex) := isLessThan format minuend.array subtrahend.array
    if less then do
      let array ← internalSub format subtrahend.array minuend.array diffIndex
      return ⟨!subtrahend.negative, array⟩
    else do
      let array ← internalSub format minuend.array subtrahend.array diffIndex
      return ⟨minuend.negative, array⟩
  else
    let (array, exceeds) := internalAdd format minuend.array subtrahend.array
    if exceeds then .error .overflow else .ok ⟨minuend.negative, array⟩

/-- Two numbers and what is carried in, element by element. -/
theorem carried {base count x xs y ys z zs carryIn carry carryOut : Nat}
    (here : x + y + carryIn = z + base * carry) (rest : xs + ys + carry = zs + base ^ count * carryOut) :
    x + base * xs + (y + base * ys) + carryIn = z + base * zs + base ^ (count + 1) * carryOut := by
  have weighted := congrArg (base * ·) rest
  simp only [mul_add] at weighted
  rw [pow_succ, mul_comm (base ^ count) base, mul_assoc]
  omega

/-- The carrying loop adds exactly: digits of the sum and the carry left over.
Induct along the elements; a carry never exceeds one, so two digits and a carry
fit the element type. -/
theorem addLoop_exact {element : Element} {xs ys : List Nat} {overflow : Nat}
    (length : xs.length = ys.length) (left : Bounded element.base xs)
    (right : Bounded element.base ys) (small : overflow ≤ 1) :
    (addLoop element xs ys overflow).1.length = xs.length ∧
      Bounded element.base (addLoop element xs ys overflow).1 ∧
      (addLoop element xs ys overflow).2 ≤ 1 ∧
      ofDigits element.base (addLoop element xs ys overflow).1 +
          element.base ^ xs.length * (addLoop element xs ys overflow).2 =
        ofDigits element.base xs + ofDigits element.base ys + overflow := by
  induction xs generalizing ys overflow with
  | nil =>
    cases ys with
    | nil => simp [addLoop, small]
    | cons y ys => simp at length
  | cons x xs ih =>
    cases ys with
    | nil => simp at length
    | cons y ys =>
      obtain ⟨xSmall, xsBounded⟩ := bounded_cons.mp left
      obtain ⟨ySmall, ysBounded⟩ := bounded_cons.mp right
      have width := element.two_base_le
      have fits : element.wrap (x + y + overflow) = x + y + overflow :=
        Element.wrap_eq (by omega)
      have rest (carry : Nat) (flag : carry ≤ 1) :=
        ih (Nat.succ.inj length) xsBounded ysBounded flag
      by_cases carries : element.base ≤ x + y + overflow
      · obtain ⟨restLength, restBounded, restFlag, restValue⟩ := rest 1 (le_refl 1)
        simp only [addLoop, fits, if_pos carries, length_cons, bounded_cons, Nat.ofDigits_cons]
        refine ⟨by rw [restLength], ⟨by omega, restBounded⟩, restFlag, ?_⟩
        exact (carried (by omega) restValue.symm).symm
      · obtain ⟨restLength, restBounded, restFlag, restValue⟩ := rest 0 (Nat.zero_le 1)
        simp only [addLoop, fits, if_neg carries, length_cons, bounded_cons, Nat.ofDigits_cons]
        refine ⟨by rw [restLength], ⟨by omega, restBounded⟩, restFlag, ?_⟩
        exact (carried (by omega) restValue.symm).symm

/-- The borrowing loop subtracts exactly, up to the borrow left over. A borrow
added to a full digit may equal the base; the difference is then a digit still. -/
theorem subLoop_exact {element : Element} {xs ys : List Nat} {underflow : Nat}
    (length : xs.length = ys.length) (left : Bounded element.base xs)
    (right : Bounded element.base ys) (small : underflow ≤ 1) :
    (subLoop element xs ys underflow).1.length = xs.length ∧
      Bounded element.base (subLoop element xs ys underflow).1 ∧
      (subLoop element xs ys underflow).2 ≤ 1 ∧
      ofDigits element.base (subLoop element xs ys underflow).1 +
          ofDigits element.base ys + underflow =
        ofDigits element.base xs +
          element.base ^ xs.length * (subLoop element xs ys underflow).2 := by
  induction xs generalizing ys underflow with
  | nil =>
    cases ys with
    | nil => simp [subLoop, small]
    | cons y ys => simp at length
  | cons x xs ih =>
    cases ys with
    | nil => simp at length
    | cons y ys =>
      obtain ⟨xSmall, xsBounded⟩ := bounded_cons.mp left
      obtain ⟨ySmall, ysBounded⟩ := bounded_cons.mp right
      have width := element.two_base_le
      have fits : element.wrap (y + underflow) = y + underflow :=
        Element.wrap_eq (by omega)
      have rest (borrow : Nat) (flag : borrow ≤ 1) :=
        ih (Nat.succ.inj length) xsBounded ysBounded flag
      by_cases borrowed : x < y + underflow
      · obtain ⟨restLength, restBounded, restFlag, restValue⟩ := rest 1 (le_refl 1)
        simp only [subLoop, fits, if_pos borrowed, length_cons, bounded_cons, Nat.ofDigits_cons]
        refine ⟨by rw [restLength], ⟨by omega, restBounded⟩, restFlag, ?_⟩
        exact carried (by omega) restValue
      · obtain ⟨restLength, restBounded, restFlag, restValue⟩ := rest 0 (Nat.zero_le 1)
        simp only [subLoop, fits, if_neg borrowed, length_cons, bounded_cons, Nat.ofDigits_cons]
        refine ⟨by rw [restLength], ⟨by omega, restBounded⟩, restFlag, ?_⟩
        exact carried (by omega) restValue

/-- The downward scan decides the order of two arrays that agree above its start,
and they agree above the index where it stops. -/
theorem isLessFrom_exact {base : Nat} {left right : List Nat} (index : Nat)
    (leftBounded : Bounded base left) (rightBounded : Bounded base right)
    (length : left.length = right.length) (inside : index < left.length)
    (above : left.drop (index + 1) = right.drop (index + 1)) :
    ((isLessFrom left right index).1 = true ↔ ofDigits base left < ofDigits base right) ∧
      (isLessFrom left right index).2 ≤ index ∧
      left.drop ((isLessFrom left right index).2 + 1) =
        right.drop ((isLessFrom left right index).2 + 1) := by
  have cut (limbs : List Nat) (bounded : Bounded base limbs) (within : index < limbs.length) :
      ofDigits base limbs = ofDigits base (limbs.take index) +
          base ^ index * limbs.getD index 0 +
          base ^ (index + 1) * ofDigits base (limbs.drop (index + 1)) ∧
        ofDigits base (limbs.take index) < base ^ index := by
    rw [value_split base limbs (index + 1) (by omega), take_value base limbs index within]
    exact ⟨rfl, take_lt bounded (le_of_lt within)⟩
  obtain ⟨leftValue, leftLow⟩ := cut left leftBounded inside
  obtain ⟨rightValue, rightLow⟩ := cut right rightBounded (length ▸ inside)
  rw [above] at leftValue
  have lower (a b : List Nat) (lowA : ofDigits base (a.take index) < base ^ index)
      (less : a.getD index 0 < b.getD index 0) :
      ofDigits base (a.take index) + base ^ index * a.getD index 0 <
        ofDigits base (b.take index) + base ^ index * b.getD index 0 := by
    have := share_add_le (base ^ index) less
    omega
  cases index with
  | zero =>
    simp only [isLessFrom]
    have first : ofDigits base (left.take 0) = 0 ∧ ofDigits base (right.take 0) = 0 := by simp
    split
    · rename_i less
      have := lower left right leftLow less
      exact ⟨⟨fun _ => by omega, fun _ => rfl⟩, le_refl 0, above⟩
    · rename_i notLess
      refine ⟨⟨fun impossible => by simp at impossible, fun less => ?_⟩, le_refl 0, above⟩
      rw [leftValue, rightValue, pow_zero] at less
      omega
  | succ index =>
    simp only [isLessFrom]
    split
    · rename_i less
      have := lower left right leftLow less
      exact ⟨⟨fun _ => by omega, fun _ => rfl⟩, le_refl _, above⟩
    · split
      · rename_i greater
        have := lower right left rightLow greater
        refine ⟨⟨fun impossible => by simp at impossible, fun less => ?_⟩, le_refl _, above⟩
        omega
      · have same : left.getD (index + 1) 0 = right.getD (index + 1) 0 := by omega
        have insideRight : index + 1 < right.length := length ▸ inside
        have next : left.drop (index + 1) = right.drop (index + 1) := by
          rw [getD_eq_getElem _ _ inside, getD_eq_getElem _ _ insideRight] at same
          rw [drop_eq_getElem_cons inside, drop_eq_getElem_cons insideRight,
            above, same]
        obtain ⟨order, bound, agree⟩ := isLessFrom_exact index leftBounded
          rightBounded length (by omega) next
        exact ⟨order, by omega, agree⟩

/-- The result of summing two in-range arrays: digits of the exact sum, and a
flag that is raised exactly when the sum exceeds the total rank. -/
theorem internalAdd_exact {left right : List Nat} (leftLength : left.length = format.size)
    (rightLength : right.length = format.size) (leftBounded : Bounded format.base left)
    (rightBounded : Bounded format.base right) :
    (internalAdd format left right).2 =
        decide (10 ^ format.totalRank ≤ ofDigits format.base left + ofDigits format.base right) ∧
      ((internalAdd format left right).2 = false →
        (internalAdd format left right).1.length = format.size ∧
        Bounded format.base (internalAdd format left right).1 ∧
        ofDigits format.base (internalAdd format left right).1 =
          ofDigits format.base left + ofDigits format.base right) := by
  obtain ⟨length, bounded, flag, value⟩ := addLoop_exact
    (leftLength.trans rightLength.symm) leftBounded rightBounded (Nat.zero_le 1)
  have limit := format.limit_le_power
  rw [leftLength] at length value
  unfold internalAdd
  generalize addLoop format.element left right 0 = result at length bounded flag value ⊢
  obtain ⟨target, overflow⟩ := result
  simp only [format.element_base] at value
  have top := top_iff target length bounded
  cases overflow with
  | zero =>
    simp only [ne_eq, not_true_eq_false, decide_false, Bool.false_or]
    refine ⟨?_, fun _ => ⟨length, bounded, value⟩⟩
    rw [decide_eq_decide]
    omega
  | succ carry =>
    obtain rfl : carry = 0 := by omega
    have large : 10 ^ format.totalRank ≤ ofDigits format.base left + ofDigits format.base right := by
      omega
    simp [large]

/-- Subtracting the smaller in-range array from the larger one is exact, and the
assertion on the last borrow holds. -/
theorem internalSub_exact {minuend subtrahend : List Nat} {diffIndex : Nat}
    (minuendLength : minuend.length = format.size)
    (subtrahendLength : subtrahend.length = format.size)
    (minuendBounded : Bounded format.base minuend)
    (subtrahendBounded : Bounded format.base subtrahend) (inside : diffIndex < format.size)
    (above : minuend.drop (diffIndex + 1) = subtrahend.drop (diffIndex + 1))
    (order : ofDigits format.base subtrahend ≤ ofDigits format.base minuend) :
    ∃ target, internalSub format minuend subtrahend diffIndex = .ok target ∧
      target.length = format.size ∧ Bounded format.base target ∧
      ofDigits format.base target =
        ofDigits format.base minuend - ofDigits format.base subtrahend := by
  have cutMinuend := value_split format.base minuend (diffIndex + 1) (by omega)
  have cutSubtrahend := value_split format.base subtrahend (diffIndex + 1) (by omega)
  rw [above] at cutMinuend
  have takeMinuend : (minuend.take (diffIndex + 1)).length = diffIndex + 1 :=
    length_take_of_le (by omega)
  have takeSubtrahend : (subtrahend.take (diffIndex + 1)).length = diffIndex + 1 :=
    length_take_of_le (by omega)
  obtain ⟨length, bounded, flag, value⟩ := subLoop_exact
    (takeMinuend.trans takeSubtrahend.symm) (minuendBounded.take _) (subtrahendBounded.take _)
    (Nat.zero_le 1)
  unfold internalSub
  generalize subLoop format.element (minuend.take (diffIndex + 1))
    (subtrahend.take (diffIndex + 1)) 0 = result at length bounded flag value ⊢
  obtain ⟨low, underflow⟩ := result
  rw [takeMinuend] at length value
  simp only [format.element_base] at value
  have lowBound : ofDigits format.base low < format.base ^ (diffIndex + 1) :=
    length ▸ value_lt bounded
  have settled : underflow = 0 := by
    by_contra borrowed
    obtain rfl : underflow = 1 := by omega
    omega
  subst settled
  refine ⟨low ++ List.replicate (format.size - (diffIndex + 1)) 0, rfl, ?_, ?_, ?_⟩
  · rw [length_append, length_replicate, length]
    omega
  · exact bounded_append.mpr ⟨bounded, bounded_replicate_zero format.base_positive _⟩
  · rw [Nat.ofDigits_append_replicate_zero]
    omega

/-- Ordering and subtracting in one step, as both `add` and `sub` do when the
magnitudes oppose each other. -/
theorem opposed_delivers {lessSign otherSign : Bool} (leftRange : left.InRange)
    (rightRange : right.InRange) :
    Delivers (let (less, diffIndex) := isLessThan format left.array right.array
      if less then do
        let array ← internalSub format right.array left.array diffIndex
        return (⟨lessSign, array⟩ : Decimal format)
      else do
        let array ← internalSub format left.array right.array diffIndex
        return ⟨otherSign, array⟩)
      (if left.magnitude < right.magnitude then ⟨lessSign, right.magnitude - left.magnitude⟩
        else ⟨otherSign, left.magnitude - right.magnitude⟩) := by
  have positive := format.size_positive
  have leftLength := leftRange.length
  have rightLength := rightRange.length
  obtain ⟨order, bound, agree⟩ := isLessFrom_exact (format.size - 1)
    leftRange.bounded rightRange.bounded (leftLength.trans rightLength.symm) (by omega)
    (by rw [drop_of_length_le (by omega), drop_of_length_le (by omega)])
  have leftSmall := leftRange.magnitude_lt
  have rightSmall := rightRange.magnitude_lt
  unfold isLessThan
  dsimp only
  by_cases less : left.magnitude < right.magnitude
  · obtain ⟨target, written, length, bounded, value⟩ := internalSub_exact
       rightLength leftLength rightRange.bounded leftRange.bounded
      (lt_of_le_of_lt bound (by omega)) agree.symm (le_of_lt less)
    rw [if_pos (order.mpr less), if_pos less, written]
    exact delivers_ok (.of_magnitude length bounded
      (lt_of_eq_of_lt value (lt_of_le_of_lt (Nat.sub_le _ _) rightSmall)))
      (congrArg (SignedMagnitude.mk lessSign) value)
  · obtain ⟨target, written, length, bounded, value⟩ := internalSub_exact
       leftLength rightLength leftRange.bounded rightRange.bounded
      (lt_of_le_of_lt bound (by omega)) agree (Nat.not_lt.mp less)
    rw [if_neg fun raised => less (order.mp raised), if_neg less, written]
    exact delivers_ok (.of_magnitude length bounded
      (lt_of_eq_of_lt value (lt_of_le_of_lt (Nat.sub_le _ _) leftSmall)))
      (congrArg (SignedMagnitude.mk otherSign) value)

/-- Adding arrays of equal direction, as both `add` and `sub` do when the
magnitudes reinforce each other. -/
theorem joined_delivers (negative : Bool) (leftRange : left.InRange) (rightRange : right.InRange) :
    Delivers (let (array, exceeds) := internalAdd format left.array right.array
      if exceeds then .error .overflow else .ok (⟨negative, array⟩ : Decimal format))
      ⟨negative, left.magnitude + right.magnitude⟩ := by
  obtain ⟨flag, target⟩ := internalAdd_exact leftRange.length
    rightRange.length leftRange.bounded rightRange.bounded
  generalize internalAdd format left.array right.array = joined at *
  change joined.2 = decide (10 ^ format.totalRank ≤ left.magnitude + right.magnitude) at flag
  unfold Delivers
  dsimp only
  by_cases small : left.magnitude + right.magnitude < 10 ^ format.totalRank
  · have clear : joined.2 = false := by
      rw [flag, decide_eq_false_iff_not]
      omega
    obtain ⟨length, bounded, value⟩ := target clear
    rw [if_pos small, clear]
    have sum : (⟨negative, joined.1⟩ : Decimal format).magnitude =
        left.magnitude + right.magnitude := value
    exact ⟨⟨negative, joined.1⟩, rfl, .of_magnitude length bounded (sum ▸ small),
      congrArg (SignedMagnitude.mk negative) sum⟩
  · have raised : joined.2 = true := by
      rw [flag, decide_eq_true_iff]
      omega
    rw [if_neg small, raised]
    rfl

/-- `Decimal::add` delivers the exact signed sum. -/
theorem add_delivers {summand1 summand2 : Decimal format} (range1 : summand1.InRange)
    (range2 : summand2.InRange) :
    Delivers (add summand1 summand2) (summand1.number.add summand2.number) := by
  unfold add SignedMagnitude.add
  by_cases signs : summand1.negative = summand2.negative
  · rw [if_pos (by simpa using signs), if_pos (by simpa [number] using signs)]
    exact joined_delivers summand1.negative range1 range2
  · rw [if_neg (by simpa using signs), if_neg (by simpa [number] using signs)]
    exact opposed_delivers range1 range2

/-- `Decimal::sub` delivers the exact signed difference. -/
theorem sub_delivers {minuend subtrahend : Decimal format} (range1 : minuend.InRange)
    (range2 : subtrahend.InRange) :
    Delivers (sub minuend subtrahend) (minuend.number.sub subtrahend.number) := by
  unfold sub SignedMagnitude.sub SignedMagnitude.add
  by_cases signs : minuend.negative = subtrahend.negative
  · have opposed : minuend.number.negative ≠ subtrahend.number.neg.negative := by
      simp [number, SignedMagnitude.neg, signs]
    rw [if_pos (by simpa using signs), if_neg opposed]
    exact opposed_delivers range1 range2
  · have joined : minuend.number.negative = subtrahend.number.neg.negative := by
      revert signs
      cases first : minuend.negative <;> cases second : subtrahend.negative <;>
        simp [number, SignedMagnitude.neg, first, second]
    rw [if_neg (by simpa using signs), if_pos joined]
    exact joined_delivers minuend.negative range1 range2

end Decimal

end UnixCommons.Generics
