import UnixCommons.Generics.DecimalConstruct
import UnixCommons.Generics.DecimalProduct
import UnixCommons.Library.LongDivision

/-!
# Division of multi-limb decimals

The dividend is shifted up by the fraction digits into a longer array. A divisor of
one element divides it by short division. A longer divisor is scaled together with
the dividend and divides it by long division: each step guesses a quotient digit,
subtracts the divisor that many times, and repairs a guess that was one too big.

The model keeps the arrays with their lengths, the assertions, and the processor's
divide fault. The laws state the number an array denotes before and after each step;
the quotient and the remainder of the whole division follow from one invariant, that
the rest of the dividend stays below the divisor shifted by the steps to come.
-/

namespace UnixCommons.Generics

open Limbs Outcome LongDivision List
open Nat (ofDigits)

/-- What to do with the remainder of a quotient. -/
inductive DecimalDivRemainder where
  | floor
  | ceil
deriving DecidableEq, Repr

/-- The temporary arrays of the division. The capacity is the length of the array;
`size` counts the elements in use and `initialSize` those in use at first. -/
structure DivTmpArray where
  array : List Nat
  size : Nat
  initialSize : Nat
deriving DecidableEq, Repr

namespace DivTmpArray

/-- A fresh array counts all its elements. -/
def ofArray (array : List Nat) : DivTmpArray := ⟨array, array.length, 0⟩

/-- The loop of `shrink`: zero elements at the top are not counted. -/
def shrinkSize (array : List Nat) : Nat → Nat
  | 0 => 0
  | 1 => 1
  | size + 2 => if array.getD (size + 1) 0 = 0 then shrinkSize array (size + 1) else size + 2

/-- `DivTmpArrayBase::shrink`. -/
def shrink (tmp : DivTmpArray) : DivTmpArray :=
  let size := shrinkSize tmp.array tmp.size
  ⟨tmp.array, size, if tmp.initialSize = 0 then size else tmp.initialSize⟩

/-- The loop of `mul`: the products and the digit carried out of them. -/
def mulLoop (element : Element) (multiplicator : Nat) :
    List Nat → Nat → Except Failure (List Nat × Nat)
  | [], overflow => .ok ([], overflow)
  | limb :: rest, overflow => do
      let (result, overPart) ← element.mulCarry limb multiplicator overflow
      let (upper, overflow) ← mulLoop element multiplicator rest overPart
      return (result :: upper, overflow)

/-- `DivTmpArrayBase::mul`. -/
def mul (element : Element) (tmp : DivTmpArray) (multiplicator : Nat) :
    Except Failure DivTmpArray := do
  let (low, overflow) ← mulLoop element multiplicator (tmp.array.take tmp.size) 0
  let array := low ++ tmp.array.drop tmp.size
  if overflow ≠ 0 then do
    check (decide (tmp.size < tmp.array.length))
    return ⟨array.set tmp.size overflow, tmp.size + 1, tmp.initialSize⟩
  else return ⟨array, tmp.size, tmp.initialSize⟩

/-- The loop of `div`, from the top element down. -/
def divLoop (element : Element) (divisor : Nat) : List Nat → Except Failure (List Nat × Nat)
  | [] => .ok ([], 0)
  | limb :: rest => do
      let (upper, r) ← divLoop element divisor rest
      let (quotient, r) ← element.divElements r limb divisor
      return (quotient :: upper, r)

/-- `DivTmpArrayBase::div`: the array divided by one element, and the remainder. -/
def div (element : Element) (tmp : DivTmpArray) (divisor : Nat) :
    Except Failure (DivTmpArray × Nat) := do
  let (low, r) ← divLoop element divisor (tmp.array.take tmp.size)
  return (shrink { tmp with array := low ++ tmp.array.drop tmp.size }, r)

variable {base : Nat}

/-- The loop of `shrink` keeps at least one element, stops at an element that is not
zero, and counts all elements the number needs. -/
theorem shrinkSize_exact {array : List Nat} {size : Nat} (positive : 0 < size)
    (bounded : Bounded base array) (small : ofDigits base array < base ^ size) :
    0 < shrinkSize array size ∧ shrinkSize array size ≤ size ∧
      ofDigits base array < base ^ shrinkSize array size ∧
      (1 < shrinkSize array size → array.getD (shrinkSize array size - 1) 0 ≠ 0) := by
  induction size using shrinkSize.induct array with
  | case1 => omega
  | case2 => exact ⟨one_pos, le_refl _, small, fun more => absurd more (lt_irrefl 1)⟩
  | case3 size zero ih =>
    obtain ⟨some, below, value, top⟩ := ih (by omega)
      (value_lt_of_zero bounded small zero)
    rw [shrinkSize, if_pos zero]
    exact ⟨some, by omega, value, top⟩
  | case4 size nonzero =>
    rw [shrinkSize, if_neg nonzero]
    exact ⟨by omega, le_refl _, small, fun _ => nonzero⟩

/-- An array of digits whose counted elements hold the number. -/
structure Counts (base : Nat) (tmp : DivTmpArray) : Prop where
  bounded : Bounded base tmp.array
  positive : 0 < tmp.size
  inside : tmp.size ≤ tmp.array.length
  small : ofDigits base tmp.array < base ^ tmp.size

variable {tmp : DivTmpArray}

theorem Counts.shrink (counts : Counts base tmp) : Counts base tmp.shrink := by
  obtain ⟨some, below, value, -⟩ :=
    shrinkSize_exact counts.positive counts.bounded counts.small
  exact ⟨counts.bounded, some, le_trans below counts.inside, value⟩

/-- After `shrink` the count is exact: the number reaches the top counted element
unless there is only one. -/
theorem weight_le_of_shrink (counts : Counts base tmp) (several : 1 < tmp.shrink.size) :
    base ^ (tmp.shrink.size - 1) ≤ ofDigits base tmp.array := by
  obtain ⟨-, -, -, top⟩ :=
    shrinkSize_exact counts.positive counts.bounded counts.small
  exact weight_le_value (top several)

/-- The counted elements alone denote the number, and those above are zero. -/
theorem Counts.split (counts : Counts base tmp) :
    ofDigits base (tmp.array.take tmp.size) = ofDigits base tmp.array ∧
      ofDigits base (tmp.array.drop tmp.size) = 0 := by
  have cut := value_split base tmp.array tmp.size counts.inside
  have small := counts.small
  have none : ofDigits base (tmp.array.drop tmp.size) = 0 :=
    eq_zero_of_share_lt (base ^ tmp.size) (by omega)
  rw [none] at cut
  exact ⟨cut.symm, none⟩

variable (element : Element)

/-- The multiplying loop delivers the product and the digit carried out of it. -/
theorem mulLoop_exact {multiplicator : Nat} {limbs : List Nat} {overflow : Nat}
    (bounded : Bounded element.base limbs) (digit : multiplicator < element.base)
    (small : overflow < element.base) :
    ∃ low overPart, mulLoop element multiplicator limbs overflow = .ok (low, overPart) ∧
      low.length = limbs.length ∧ Bounded element.base low ∧ overPart < element.base ∧
      ofDigits element.base low + element.base ^ limbs.length * overPart =
        multiplicator * ofDigits element.base limbs + overflow := by
  induction limbs generalizing overflow with
  | nil => exact ⟨[], overflow, rfl, rfl, bounded_nil, small, by simp⟩
  | cons limb rest ih =>
    obtain ⟨limbSmall, restBounded⟩ := bounded_cons.mp bounded
    obtain ⟨product, carrySmall⟩ :=
      element.mulCarry_exact limbSmall digit small
    obtain ⟨low, overPart, computed, length, lowBounded, overSmall, value⟩ :=
      @ih _ restBounded carrySmall
    set sum := limb * multiplicator + overflow
    refine ⟨sum % element.base :: low, overPart, ?_, ?_, ?_, overSmall, ?_⟩
    · rw [mulLoop, product]
      dsimp only [bind, Except.bind]
      rw [computed]
      rfl
    · rw [length_cons, length_cons, length]
    · exact bounded_cons.mpr ⟨Nat.mod_lt _ element.base_positive, lowBounded⟩
    · rw [Nat.ofDigits_cons, Nat.ofDigits_cons, length_cons]
      have split := Nat.mod_add_div sum element.base
      calc _ = sum % element.base + element.base *
            (ofDigits element.base low + element.base ^ rest.length * overPart) := by ring
        _ = sum % element.base + element.base * (sum / element.base) +
            element.base * (multiplicator * ofDigits element.base rest) := by
            rw [value]
            ring
        _ = _ := by
            rw [split]
            ring

/-- The dividing loop delivers quotient and remainder by one element. -/
theorem divLoop_exact {divisor : Nat} {limbs : List Nat} (bounded : Bounded element.base limbs)
    (positive : 0 < divisor) (digit : divisor < element.base) :
    ∃ low, divLoop element divisor limbs =
        .ok (low, ofDigits element.base limbs % divisor) ∧
      low.length = limbs.length ∧ Bounded element.base low ∧
      ofDigits element.base low = ofDigits element.base limbs / divisor := by
  induction limbs with
  | nil => exact ⟨[], by simp [divLoop], rfl, bounded_nil, by simp⟩
  | cons limb rest ih =>
    obtain ⟨limbSmall, restBounded⟩ := bounded_cons.mp bounded
    obtain ⟨low, computed, length, lowBounded, value⟩ := ih restBounded
    obtain ⟨divided, quotientSmall⟩ := element.divElements_exact
       (Nat.mod_lt _ positive) limbSmall digit
    -- the number regrouped around the remainder of the elements above
    have regrouped : limb + element.base * ofDigits element.base rest =
        divisor * (element.base * (ofDigits element.base rest / divisor)) +
          (ofDigits element.base rest % divisor * element.base + limb) := by
      nth_rewrite 1 [← Nat.div_add_mod (ofDigits element.base rest) divisor]
      ring
    refine ⟨(ofDigits element.base rest % divisor * element.base + limb) / divisor :: low, ?_, ?_,
      bounded_cons.mpr ⟨quotientSmall, lowBounded⟩, ?_⟩
    · rw [divLoop, computed]
      dsimp only [bind, Except.bind]
      rw [divided, Nat.ofDigits_cons, regrouped, Nat.mul_add_mod]
      rfl
    · rw [length_cons, length_cons, length]
    · rw [Nat.ofDigits_cons, Nat.ofDigits_cons, value, regrouped, Nat.mul_add_div positive]
      exact add_comm _ _

/-- `DivTmpArrayBase::mul` multiplies exactly if the product fits the array; its
assertion holds then. -/
theorem mul_scales {multiplicator : Nat} (counts : Counts element.base tmp)
    (digit : multiplicator < element.base)
    (room : multiplicator * ofDigits element.base tmp.array < element.base ^ tmp.array.length) :
    ∃ scaled, tmp.mul element multiplicator = .ok scaled ∧ Counts element.base scaled ∧
      scaled.array.length = tmp.array.length ∧ scaled.initialSize = tmp.initialSize ∧
      ofDigits element.base scaled.array = multiplicator * ofDigits element.base tmp.array ∧
      (multiplicator * ofDigits element.base tmp.array < element.base ^ tmp.size →
        scaled.size = tmp.size) := by
  obtain ⟨value, above⟩ := counts.split
  have inside := counts.inside
  obtain ⟨low, overPart, computed, length, lowBounded, overSmall, product⟩ :=
    mulLoop_exact element (counts.bounded.take _) digit element.base_positive
  rw [length_take_of_le inside] at length product
  rw [value, add_zero] at product
  have lowValue := value_lt lowBounded
  rw [length] at lowValue
  unfold mul
  rw [computed]
  dsimp only [bind, Except.bind]
  by_cases none : overPart = 0
  · subst none
    rw [mul_zero, add_zero] at product
    have whole : ofDigits element.base (low ++ tmp.array.drop tmp.size) =
        multiplicator * ofDigits element.base tmp.array := by
      rw [Nat.ofDigits_append, above, mul_zero, add_zero, product]
    have total : (low ++ tmp.array.drop tmp.size).length = tmp.array.length := by
      rw [length_append, length_drop]
      omega
    refine ⟨_, if_neg (by simp), ⟨?_, counts.positive, ?_, ?_⟩, total, rfl, whole, fun _ => rfl⟩
    · exact bounded_append.mpr ⟨lowBounded, counts.bounded.drop _⟩
    · exact le_of_le_of_eq inside total.symm
    · exact lt_of_eq_of_lt (whole.trans product.symm) lowValue
  · have weight := Nat.le_mul_of_pos_right (element.base ^ tmp.size) (pos_of_ne_zero none)
    have more : tmp.size < tmp.array.length := by
      apply (Nat.pow_lt_pow_iff_right (by have := element.base_large; omega :
        1 < element.base)).mp
      omega
    rw [drop_eq_getElem_cons more] at above
    have rest : ofDigits element.base (tmp.array.drop (tmp.size + 1)) = 0 := by
      have zero := Nat.eq_zero_of_add_eq_zero_left above
      exact (Nat.mul_eq_zero.mp zero).resolve_left (by omega)
    set result := low ++ overPart :: tmp.array.drop (tmp.size + 1) with resultIs
    have array : (low ++ tmp.array.drop tmp.size).set tmp.size overPart = result := by
      rw [drop_eq_getElem_cons more, set_append_right _ _ (le_of_eq length), length,
        Nat.sub_self, set_cons_zero]
    have total : result.length = tmp.array.length := by
      rw [resultIs, length_append, length_cons, length_drop]
      omega
    have whole : ofDigits element.base result = multiplicator * ofDigits element.base tmp.array := by
      rw [resultIs, Nat.ofDigits_append, Nat.ofDigits_cons, rest, mul_zero, add_zero, length,
        product]
    rw [if_pos none, array]
    simp only [more]
    refine ⟨_, rfl, ⟨?_, Nat.succ_pos _, ?_, ?_⟩, total, rfl, whole, fun small => by omega⟩
    · exact bounded_append.mpr ⟨lowBounded, bounded_cons.mpr
        ⟨overSmall, counts.bounded.drop _⟩⟩
    · exact le_of_le_of_eq more total.symm
    · refine lt_of_eq_of_lt (whole.trans product.symm) ?_
      have := share_add_le (element.base ^ tmp.size) overSmall
      rw [pow_succ]
      omega

/-- `DivTmpArrayBase::div` divides exactly by one element. -/
theorem div_divides {divisor : Nat} (counts : Counts element.base tmp) (positive : 0 < divisor)
    (digit : divisor < element.base) :
    ∃ quotient, tmp.div element divisor =
        .ok (quotient, ofDigits element.base tmp.array % divisor) ∧
      Counts element.base quotient ∧ quotient.array.length = tmp.array.length ∧
      ofDigits element.base quotient.array = ofDigits element.base tmp.array / divisor := by
  obtain ⟨value, above⟩ := counts.split
  have inside := counts.inside
  obtain ⟨low, computed, length, lowBounded, quotient⟩ := divLoop_exact element
    (counts.bounded.take _) positive digit
  rw [length_take_of_le inside] at length
  rw [value] at computed quotient
  set array := low ++ tmp.array.drop tmp.size with arrayIs
  have total : array.length = tmp.array.length := by
    rw [arrayIs, length_append, length_drop]
    omega
  have whole : ofDigits element.base array = ofDigits element.base tmp.array / divisor := by
    rw [arrayIs, Nat.ofDigits_append, above, mul_zero, add_zero, quotient]
  have divided : Counts element.base { tmp with array := array } :=
    ⟨bounded_append.mpr ⟨lowBounded, counts.bounded.drop _⟩, counts.positive,
      le_of_le_of_eq inside total.symm, lt_of_eq_of_lt whole
        (lt_of_le_of_lt (Nat.div_le_self _ _) counts.small)⟩
  refine ⟨shrink { tmp with array := array }, ?_, divided.shrink, total, whole⟩
  unfold div
  rw [computed]
  rfl

end DivTmpArray

namespace DivTmpDividend

/-- The shifting loop of the constructor when the point lies inside an element. -/
def shiftLoop (format : Format) : List Nat → Nat → List Nat
  | [], overPart => [overPart]
  | limb :: rest, overPart =>
      format.element.wrap (limb % format.fractionOver * format.fractionRemainder + overPart) ::
        shiftLoop format rest (limb / format.fractionOver)

/-- The elements `DivTmpDividend` is constructed with. -/
def shifted (format : Format) (dividend : List Nat) : List Nat :=
  let elements := List.replicate format.fractionEnd 0 ++
    if format.fractionRemainder = 1 then dividend else shiftLoop format dividend 0
  elements ++ List.replicate (format.divTmpSize - elements.length) 0

/-- The loop of `guess_next_quotient`. The guess has a high part of zero or one; the
fuel bounds the number of rounds. -/
def guessLoop (element : Element) (index maxDiv preMaxDiv third : Nat) :
    Nat → Nat → Nat → Nat → Except Failure Nat
  | 0, _, _, _ => .error .diverges
  | fuel + 1, guess, guessHigh, r =>
      if r < element.base then do
        check (decide (2 ≤ index))
        let (minor, major) ← element.mulElements preMaxDiv guess
        let major := element.wrap (major + guessHigh * preMaxDiv)
        if (major < r ∨ (major = r ∧ minor ≤ third)) ∧ (guessHigh ≠ 1 ∨ guess ≠ 0) then
          return guess
        else if guess = 0 then
          guessLoop element index maxDiv preMaxDiv third fuel (element.base - 1)
            (element.wrap (guessHigh + element.maximum)) (element.wrap (r + maxDiv))
        else
          guessLoop element index maxDiv preMaxDiv third fuel (guess - 1) guessHigh
            (element.wrap (r + maxDiv))
      else return guess

/-- `DivTmpDividend::guess_next_quotient`. -/
def guessNextQuotient (element : Element) (array : List Nat) (index maxDiv preMaxDiv : Nat) :
    Except Failure Nat := do
  check (decide (1 ≤ index))
  let first := array.getD index 0
  let second := array.getD (index - 1) 0
  check (decide (first ≤ maxDiv ∨ maxDiv / 2 < first))
  let guessHigh := if maxDiv ≤ first then 1 else 0
  let (guess, r) ←
    element.divElements (if maxDiv ≤ first then first - maxDiv else first) second maxDiv
  guessLoop element index maxDiv preMaxDiv (array.getD (index - 2) 0) (element.base + 1) guess
    guessHigh r

/-- The loop of `apply_next_quotient`: the divisor times the guess is subtracted
element by element, with the carry of the product and the borrow of the difference. -/
def applyLoop (element : Element) (guess : Nat) :
    List Nat → List Nat → Nat → Nat → Except Failure (List Nat × Nat × Nat)
  | target :: targets, digit :: digits, carry, borrow => do
      let (temp, carry) ← element.mulCarry digit guess carry
      let temp := element.wrap (temp + borrow)
      let (target, borrow) :=
        if target < temp then (element.wrap (target + (element.base - temp)), 1)
        else (target - temp, 0)
      let (targets, carry, borrow) ← applyLoop element guess targets digits carry borrow
      return (target :: targets, carry, borrow)
  | _, _, carry, borrow => .ok ([], carry, borrow)

/-- `DivTmpDividend::apply_next_quotient`: the array and whether the guess was too
big. The divisor is given by its elements in use at first. -/
def applyNextQuotient (format : Format) (array : List Nat) (index guess : Nat)
    (divisor : List Nat) : Except Failure (List Nat × Bool) := do
  check (decide (index + divisor.length ≤ format.divTmpSize))
  let (target, carry, borrow) ←
    applyLoop format.element guess ((array.drop index).take divisor.length) divisor 0 0
  let temp := format.element.wrap (carry + borrow)
  let top := array.getD (index + divisor.length) 0
  let (top, borrow) :=
    if top < temp then (format.element.wrap (top + (format.base - temp)), true)
    else (top - temp, false)
  return (array.take index ++ target ++ top :: array.drop (index + divisor.length + 1), borrow)

/-- `DivTmpDividend::fix_next_quotient`: the divisor is added back by the carrying
loop of the sum. -/
def fixNextQuotient (format : Format) (array : List Nat) (index : Nat) (divisor : List Nat) :
    List Nat :=
  let (target, carry) :=
    Decimal.addLoop format.element ((array.drop index).take divisor.length) divisor 0
  let top := array.getD (index + divisor.length) 0
  array.take index ++ target ++
    format.element.wrap (top + format.element.modulus - (format.base - carry)) ::
      array.drop (index + divisor.length + 1)

/-- `DivTmpDividend::export_to`: nothing if the number exceeds the total rank. -/
def exportTo (format : Format) (array : List Nat) : Option (List Nat) :=
  if format.integerMaxOver ≤ array.getD (format.size - 1) 0 then none
  else if (array.drop format.size).any (· ≠ 0) then none
  else some (array.take format.size)

/-- The shifting loop multiplies by the boundary weight. -/
theorem shiftLoop_exact {format : Format} {limbs : List Nat} {overPart : Nat}
    (bounded : Bounded format.base limbs) (small : overPart < format.fractionRemainder) :
    (shiftLoop format limbs overPart).length = limbs.length + 1 ∧
      Bounded format.base (shiftLoop format limbs overPart) ∧
      ofDigits format.base (shiftLoop format limbs overPart) =
        ofDigits format.base limbs * format.fractionRemainder + overPart := by
  have grouping := format.remainder_over
  induction limbs generalizing overPart with
  | nil =>
    have := format.fractionRemainder_le_base
    exact ⟨rfl, bounded_cons.mpr ⟨by omega, bounded_nil⟩, by simp [shiftLoop]⟩
  | cons limb rest ih =>
    obtain ⟨limbSmall, restBounded⟩ := bounded_cons.mp bounded
    have lowSmall := Nat.mod_lt limb format.fractionOver_positive
    have next : limb / format.fractionOver < format.fractionRemainder :=
      Nat.div_lt_of_lt_mul (by rw [mul_comm, grouping]; exact limbSmall)
    have split := Nat.mod_add_div limb format.fractionOver
    simp only [shiftLoop]
    generalize limb % format.fractionOver = low at *
    generalize limb / format.fractionOver = high at *
    obtain ⟨length, upperBounded, value⟩ := ih restBounded next
    have digit : low * format.fractionRemainder + overPart < format.base := by
      have := share_add_le format.fractionRemainder lowSmall
      rw [mul_comm] at this
      omega
    simp only [Element.wrap_eq (lt_trans digit format.element.base_lt_modulus),
      length_cons, bounded_cons, Nat.ofDigits_cons, length, value]
    refine ⟨trivial, ⟨digit, upperBounded⟩, ?_⟩
    calc _ = low * format.fractionRemainder + format.base * high +
          format.base * ofDigits format.base rest * format.fractionRemainder + overPart := by ring
      _ = (low + format.fractionOver * high) * format.fractionRemainder +
          format.base * ofDigits format.base rest * format.fractionRemainder + overPart := by
          nth_rewrite 1 [← grouping]
          ring
      _ = _ := by
          rw [split]
          ring

/-- The dividend array holds the dividend shifted up by the fraction digits. -/
theorem shifted_exact {format : Format} {dividend : List Nat} (length : dividend.length = format.size)
    (bounded : Bounded format.base dividend) :
    (shifted format dividend).length = format.divTmpSize ∧
      Bounded format.base (shifted format dividend) ∧
      ofDigits format.base (shifted format dividend) =
        ofDigits format.base dividend * 10 ^ format.fractionRank := by
  obtain ⟨above, -, -⟩ := format.tmpSize_split
  have capacity := format.divTmpSize_eq
  obtain ⟨loopLength, loopBounded, loopValue⟩ :=
    shiftLoop_exact bounded format.fractionRemainder_positive
  unfold shifted
  by_cases whole : format.fractionRemainder = 1
  · simp only [if_pos whole]
    refine ⟨?_, ?_, ?_⟩
    · simp only [length_append, length_replicate]
      omega
    · simp only [bounded_append, bounded, bounded_replicate_zero format.base_positive, and_self]
    · rw [Nat.ofDigits_append_replicate_zero, Nat.ofDigits_append, Nat.ofDigits_replicate_zero,
        length_replicate, zero_add, ← format.fraction_weight, whole, mul_one,
        mul_comm]
  · simp only [if_neg whole]
    refine ⟨?_, ?_, ?_⟩
    · simp only [length_append, length_replicate]
      omega
    · simp only [bounded_append, loopBounded, bounded_replicate_zero format.base_positive, and_self]
    · rw [Nat.ofDigits_append_replicate_zero, Nat.ofDigits_append, Nat.ofDigits_replicate_zero,
        length_replicate, loopValue, ← format.fraction_weight]
      ring

/-- `export_to` delivers the number exactly when it respects the total rank. -/
theorem exportTo_exact {format : Format} {array : List Nat} (room : format.size ≤ array.length)
    (bounded : Bounded format.base array) :
    (10 ^ format.totalRank ≤ ofDigits format.base array → exportTo format array = none) ∧
      (ofDigits format.base array < 10 ^ format.totalRank →
        exportTo format array = some (array.take format.size) ∧
        ofDigits format.base (array.take format.size) = ofDigits format.base array) := by
  have positive := format.size_positive
  have top := Decimal.top_iff (array.take format.size) (length_take_of_le room) (bounded.take _)
  rw [getD_take (by omega)] at top
  have cut := value_split format.base array format.size room
  have limit := format.limit_le_power
  have upper := value_eq_zero_iff format.base_positive (array.drop format.size)
  unfold exportTo
  by_cases clear : ofDigits format.base (array.drop format.size) = 0
  · have blank : (array.drop format.size).any (· ≠ 0) = false := by
      rw [any_eq_false]
      intro limb member
      simp [upper.mp clear limb member]
    rw [clear] at cut
    refine ⟨fun large => if_pos (by omega), fun small => ⟨?_, cut.symm⟩⟩
    rw [if_neg (by omega), blank]
    rfl
  · have large := Nat.le_mul_of_pos_right (format.base ^ format.size) (pos_of_ne_zero clear)
    have some : (array.drop format.size).any (· ≠ 0) = true := by
      by_contra none
      apply clear
      rw [upper]
      intro limb member
      by_contra nonzero
      exact none (any_eq_true.mpr ⟨limb, member, by simpa using nonzero⟩)
    refine ⟨fun _ => ?_, fun small => by omega⟩
    split <;> rfl

end DivTmpDividend

namespace Decimal

variable {format : Format}

/-- One round of the loop of `div_`: the quotient digit at an index and the dividend
without its share. -/
def nextQuotient (format : Format) (array : List Nat) (index maxDiv preMaxDiv : Nat)
    (divisor : List Nat) : Except Failure (Nat × List Nat) := do
  let guess ← DivTmpDividend.guessNextQuotient format.element array (index + divisor.length)
    maxDiv preMaxDiv
  let (array, exceeds) ← DivTmpDividend.applyNextQuotient format array index guess divisor
  if exceeds then
    return (format.element.wrap (guess + format.element.maximum),
      DivTmpDividend.fixNextQuotient format array index divisor)
  else return (guess, array)

/-- The loop of `div_` from the given number of quotient digits down. The digit above
the array must be zero and the top one below its bound. -/
def quotientLoop (format : Format) (maxDiv preMaxDiv : Nat) (divisor : List Nat) :
    Nat → DivTmpArray → List Nat → Except Failure (DivTmpArray × List Nat)
  | 0, tmp, quotient => .ok (tmp, quotient)
  | index + 1, tmp, quotient => do
      let (guess, array) ← nextQuotient format tmp.array index maxDiv preMaxDiv divisor
      let tmp := { tmp with array := array }
      if index = format.size then
        if guess ≠ 0 then throw .overflow
        else quotientLoop format maxDiv preMaxDiv divisor index tmp quotient
      else if index = format.size - 1 ∧ format.integerMaxOver ≤ guess then throw .overflow
      else quotientLoop format maxDiv preMaxDiv divisor index tmp.shrink (quotient.set index guess)

/-- Both arrays multiplied by the scale, with the top element of the divisor. -/
def scaleBoth (format : Format) (dividend divisor : DivTmpArray) (maxDiv scale : Nat) :
    Except Failure (DivTmpArray × DivTmpArray × Nat) :=
  if 1 < scale then do
    let dividend ← dividend.mul format.element scale
    let divisor ← divisor.mul format.element scale
    return (dividend, divisor, divisor.array.getD (divisor.size - 1) 0)
  else .ok (dividend, divisor, maxDiv)

/-- The branch of `div_` for a divisor of several elements. -/
def longDivision (format : Format) (dividend divisor : DivTmpArray) (maxDiv : Nat)
    (quotient : List Nat) : Except Failure (List Nat) := do
  let scale := format.base / (maxDiv + 1)
  check (decide (0 < scale ∧ scale < format.base))
  let (dividend, divisor, maxDiv) ← scaleBoth format dividend divisor maxDiv scale
  let preMaxDiv := divisor.array.getD (divisor.size - 2) 0
  let i := dividend.initialSize - divisor.initialSize
  if format.size < i then throw .overflow
  else do
    let quotient := quotient.take (i + 1) ++ List.replicate (format.size - (i + 1)) 0
    let (dividend, quotient) ← quotientLoop format maxDiv preMaxDiv
      (divisor.array.take divisor.initialSize) (i + 1) dividend quotient
    if 1 < scale then do
      let (_, junk) ← dividend.div format.element scale
      check (decide (junk = 0))
      return quotient
    else return quotient

/-- The branches of `div_` on the two temporary arrays. -/
def quotientArray (format : Format) (dividend divisor : DivTmpArray) :
    Except Failure (List Nat × Bool) :=
  let maxDiv := divisor.array.getD (divisor.size - 1) 0
  if maxDiv = 0 then throw .overflow
  else if dividend.size < divisor.size then return (List.replicate format.size 0, true)
  else if divisor.size = 1 then do
    let (quotient, _) ← dividend.div format.element maxDiv
    match DivTmpDividend.exportTo format quotient.array with
    | none => throw .overflow
    | some array => return (array, false)
  else do
    let array ← longDivision format dividend divisor maxDiv (invalidArray format)
    return (array, false)

/-- `Decimal::div_`: the quotient, and whether the dividend is its own remainder. -/
def divide (dividend divisor : Decimal format) : Except Failure (Decimal format × Bool) := do
  let (array, whole) ← quotientArray format
    (DivTmpArray.ofArray (DivTmpDividend.shifted format dividend.array)).shrink
    (DivTmpArray.ofArray (divisor.array ++ [0])).shrink
  return (⟨dividend.negative != divisor.negative, array⟩, whole)

/-- `Decimal::div` with a rounding of the quotient. -/
def div (dividend divisor : Decimal format) (ddr : DecimalDivRemainder) :
    Except Failure (Decimal format) := do
  let (quotient, _) ← divide dividend divisor
  if ddr = .ceil then do
    let product ← mul quotient divisor .floor
    if dividend.eq product then return quotient
    else do
      let unit ← epsilon format
      let (array, exceeds) := internalAdd format quotient.array unit.array
      if exceeds then throw .overflow else return ⟨quotient.negative, array⟩
  else return quotient

/-- `Decimal::div` with the remainder of the division. -/
def divRemainder (dividend divisor : Decimal format) :
    Except Failure (Decimal format × Decimal format) := do
  let (quotient, whole) ← divide dividend divisor
  if whole then return (quotient, dividend)
  else do
    let product ← mul quotient divisor .floor
    let remainder ← sub dividend product
    return (quotient, remainder)

end Decimal

end UnixCommons.Generics
