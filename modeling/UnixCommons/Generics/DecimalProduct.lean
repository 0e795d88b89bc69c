import UnixCommons.Generics.Decimal

/-!
# Multiplication of multi-limb decimals

The product array accumulates the schoolbook products element by element. Adding
a value into it propagates carries upwards and stops at the first element that
does not carry; the overflow test then looks at the top element only. Rounding
adds one unit of the last kept digit, and export cuts the array at the decimal
point, which may lie inside an element.

The laws state the array's value before and after each step. An addition that
reports overflow is shown to be one whose exact value needs more digits than the
array admits, so no carry is lost and none is reported without cause.
-/

namespace UnixCommons.Generics

open Limbs Outcome List Rounding
open Nat (ofDigits)

/-- What to do with the digits below the last one of a product. -/
inductive DecimalMulRemainder where
  | floor
  | round
  | ceil
deriving DecidableEq, Repr

namespace MulTmpArray

/-- First element of `MulTmpArray::add`: the new element and the overflow. The
second branch avoids a sum that would not fit the element type. -/
def place (element : Element) (limb value : Nat) : Except Failure (Nat × Nat) :=
  if 2 < element.maxSum ∨ limb ≤ element.maximum - value then
    let limb := element.wrap (limb + value)
    if element.base ≤ limb then .ok (limb % element.base, limb / element.base)
    else .ok (limb, 0)
  else do
    check (element.base < value)
    let overflow := value / element.base
    let limb := element.wrap (limb + value % element.base)
    if element.base ≤ limb then return (limb - element.base, overflow + 1)
    else return (limb, overflow)

/-- The carrying loop of `MulTmpArray::add`. `none` is its early `return false`,
which skips the test of the top element. -/
def carry (element : Element) : List Nat → Nat → List Nat × Option Nat
  | [], overflow => ([], some overflow)
  | limb :: rest, overflow =>
      let sum := element.wrap (limb + overflow)
      if sum < element.base then (sum :: rest, if rest.isEmpty then some 0 else none)
      else
        let (upper, outcome) := carry element rest 1
        ((sum - element.base) :: upper, outcome)

/-- `MulTmpArray::add`: the array after the call and whether it overflowed. -/
def add (format : Format) (tmp : List Nat) (value index : Nat) :
    Except Failure (List Nat × Bool) :=
  if format.tmpSize ≤ index then .ok (tmp, true)
  else do
    let (limb, overflow) ← place format.element (tmp.getD index 0) value
    let (upper, outcome) := carry format.element (tmp.drop (index + 1)) overflow
    let result := tmp.take index ++ limb :: upper
    match outcome with
    | none => return (result, false)
    | some overflow =>
      return (result, decide (overflow ≠ 0) ||
        decide (format.tmpIntegerMaxOver ≤ result.getD (format.tmpSize - 1) 0))

/-- A reported overflow ends the multiplication with `Overflow`. -/
def addOrThrow (format : Format) (tmp : List Nat) (value index : Nat) :
    Except Failure (List Nat) := do
  let (result, exceeds) ← add format tmp value index
  if exceeds then throw .overflow else return result

/-- `MulTmpArray::round`: a unit is added from half of the dropped digits on. -/
def round (format : Format) (tmp : List Nat) : Except Failure (List Nat) :=
  if (if format.fractionRemainder = 1 then
      format.base / 2 ≤ tmp.getD (format.fractionEnd - 1) 0
    else format.fractionRemainder / 2 ≤
      tmp.getD format.fractionEnd 0 % format.fractionRemainder) then
    addOrThrow format tmp format.fractionRemainder format.fractionEnd
  else .ok tmp

/-- `MulTmpArray::ceil`: a unit is added when the boundary element, or the one
below it, has dropped digits. -/
def ceil (format : Format) (tmp : List Nat) : Except Failure (List Nat) :=
  if (if format.fractionRemainder = 1 then tmp.getD (format.fractionEnd - 1) 0 ≠ 0
    else tmp.getD format.fractionEnd 0 % format.fractionRemainder ≠ 0) then
    addOrThrow format tmp format.fractionRemainder format.fractionEnd
  else .ok tmp

/-- The loop of `export_to` when the point lies inside an element. Elements of the
result behind a `break` keep what they held. -/
def exportLoop (format : Format) : List Nat → Nat → List Nat → List Nat
  | [], _, _ => []
  | _ :: result, last, [] => last :: result
  | _ :: result, last, limb :: tmp =>
      format.element.wrap (last + limb % format.fractionRemainder * format.fractionOver) ::
        exportLoop format result (limb / format.fractionRemainder) tmp

/-- `MulTmpArray::export_to`, writing over the given result array. -/
def exportTo (format : Format) (tmp result : List Nat) : List Nat :=
  if format.fractionRemainder = 1 then (tmp.drop format.fractionEnd).take format.size
  else exportLoop format result (tmp.getD format.fractionEnd 0 / format.fractionRemainder)
    (tmp.drop (format.fractionEnd + 1))

/-- The array holds digits of a number within the product's rank. -/
structure Holds (format : Format) (tmp : List Nat) : Prop where
  length : tmp.length = format.tmpSize
  bounded : Bounded format.base tmp
  small : ofDigits format.base tmp < 10 ^ (format.totalRank + format.fractionRank)

/-- The integer part of a held product fits a decimal. -/
theorem Holds.integer_lt {format : Format} {tmp : List Nat} (holds : Holds format tmp) :
    ofDigits format.base tmp / 10 ^ format.fractionRank < 10 ^ format.totalRank :=
  Nat.div_lt_of_lt_mul (by rw [← pow_add, add_comm]; exact holds.small)

theorem tmpSize_positive (format : Format) : 0 < format.tmpSize := by
  have above := format.tmpSize_bounds.1
  have := format.totalPositive
  rw [format.tmpTotalRank_eq] at above
  by_contra none
  rw [show format.tmpSize = 0 by omega] at above
  omega

/-- The test on the top element of the product array is a test on its value. -/
theorem top_iff {format : Format} {tmp : List Nat} (length : tmp.length = format.tmpSize)
    (bounded : Bounded format.base tmp) :
    tmp.getD (format.tmpSize - 1) 0 < format.tmpIntegerMaxOver ↔
      ofDigits format.base tmp < 10 ^ (format.totalRank + format.fractionRank) := by
  have positive := tmpSize_positive format
  rw [← format.tmp_top_limit]
  exact (value_lt_top_iff bounded _ _ (by omega)).symm

/-- A product fits its elements. -/
theorem limit_le_power (format : Format) :
    10 ^ (format.totalRank + format.fractionRank) ≤ format.base ^ format.tmpSize := by
  rw [← format.tmpTotalRank_eq, format.base_eq, ← pow_mul]
  exact Nat.pow_le_pow_right (by decide) (by
    have := format.tmpSize_bounds.1
    rwa [mul_comm] at this)

/-- Placing a value below twice the base is exact, with an overflow of at most
two; the assertion of the careful branch holds there. -/
theorem place_exact {element : Element} {limb value : Nat} (digit : limb < element.base)
    (small : value < 2 * element.base) :
    ∃ placed overflow, place element limb value = .ok (placed, overflow) ∧
      placed < element.base ∧ overflow ≤ 2 ∧
      placed + element.base * overflow = limb + value := by
  have width := element.two_base_le
  have positive := element.base_positive
  unfold place
  split
  · rename_i simple
    have fits : limb + value < element.modulus := by
      rcases simple with wide | room
      · have := element.three_base_le wide
        omega
      · unfold Element.maximum at room
        omega
    dsimp only
    rw [Element.wrap_eq fits]
    split
    · refine ⟨_, _, rfl, Nat.mod_lt _ positive, ?_, Nat.mod_add_div _ _⟩
      have : (limb + value) / element.base < 3 := Nat.div_lt_of_lt_mul (by omega)
      omega
    · exact ⟨_, _, rfl, by omega, by omega, by omega⟩
  · rename_i careful
    have large : element.base < value := by
      have := (not_or.mp careful).2
      unfold Element.maximum at this
      omega
    have once : value / element.base = 1 := Nat.div_eq_of_lt_le (by omega) (by omega)
    have split := Nat.mod_add_div value element.base
    rw [once] at split
    rw [Element.wrap_eq (by omega), once]
    simp only [large]
    by_cases carried : element.base ≤ limb + value % element.base
    · exact ⟨limb + value % element.base - element.base, 2, if_pos carried, by omega, by omega,
        by omega⟩
    · exact ⟨limb + value % element.base, 1, if_neg carried, by omega, by omega, by omega⟩

/-- The carrying loop adds the overflow exactly. If it stops early the elements
above, among them the last one, are unchanged; if it runs to the end it reports
the carry out of the array. -/
theorem carry_exact {element : Element} {limbs : List Nat} {overflow : Nat}
    (bounded : Bounded element.base limbs) (small : overflow ≤ 2) :
    (carry element limbs overflow).1.length = limbs.length ∧
      Bounded element.base (carry element limbs overflow).1 ∧
      (∀ out, (carry element limbs overflow).2 = some out →
        ofDigits element.base (carry element limbs overflow).1 + element.base ^ limbs.length * out =
          ofDigits element.base limbs + overflow) ∧
      ((carry element limbs overflow).2 = none →
        ofDigits element.base (carry element limbs overflow).1 =
          ofDigits element.base limbs + overflow ∧ 0 < limbs.length ∧
        (carry element limbs overflow).1.getD (limbs.length - 1) 0 =
          limbs.getD (limbs.length - 1) 0) := by
  induction limbs generalizing overflow with
  | nil => simp [carry]
  | cons limb rest ih =>
    obtain ⟨digit, restBounded⟩ := bounded_cons.mp bounded
    have width := element.two_base_le
    have large := element.base_large
    have fits : element.wrap (limb + overflow) = limb + overflow :=
      Element.wrap_eq (by omega)
    by_cases settles : limb + overflow < element.base
    · simp only [carry, fits, if_pos settles, length_cons, bounded_cons,
        Nat.ofDigits_cons]
      refine ⟨trivial, ⟨settles, restBounded⟩, fun out returned => ?_, fun early => ?_⟩
      · split at returned
        · rename_i last
          obtain rfl : out = 0 := (Option.some.inj returned).symm
          rw [isEmpty_iff.mp last]
          simp
        · cases returned
      · have more : rest ≠ [] := by
          intro none
          simp [none] at early
        obtain ⟨next, tail, rfl⟩ := exists_cons_of_ne_nil more
        exact ⟨by omega, by omega, by simp⟩
    · obtain ⟨length, upperBounded, finished, stopped⟩ := @ih 1 restBounded (by decide)
      simp only [carry, fits, if_neg settles, length_cons, bounded_cons,
        Nat.ofDigits_cons]
      refine ⟨by rw [length], ⟨by omega, upperBounded⟩, fun out returned => ?_, fun early => ?_⟩
      · have value := congrArg (element.base * ·) (finished out returned)
        simp only [mul_add] at value
        rw [pow_succ, mul_comm (element.base ^ rest.length), mul_assoc]
        omega
      · obtain ⟨value, more, last⟩ := stopped early
        have weighted := congrArg (element.base * ·) value
        simp only [mul_add] at weighted
        refine ⟨by omega, by omega, ?_⟩
        rw [Nat.add_sub_cancel, ← Nat.sub_add_cancel more, getD_cons_succ,
          getD_cons_succ, last]

/-- What the rebuilt array denotes once the element at the index and the carry out of the
upper ones are known: the old number and the value added at the index. -/
theorem carried_value (base : Nat) (tmp upper : List Nat) {index limb value overflow : Nat} (out : Nat)
    (inside : index < tmp.length) (sum : limb + base * overflow = tmp.getD index 0 + value)
    (upperValue : ofDigits base upper + base ^ (tmp.drop (index + 1)).length * out =
      ofDigits base (tmp.drop (index + 1)) + overflow) :
    ofDigits base (tmp.take index ++ limb :: upper) + base ^ tmp.length * out =
      ofDigits base tmp + base ^ index * value := by
  have before : ofDigits base tmp = ofDigits base (tmp.take index) +
      base ^ index * (tmp.getD index 0 + base * ofDigits base (tmp.drop (index + 1))) := by
    rw [value_split base tmp index (by omega), drop_value (by omega)]
  have weight : base ^ tmp.length =
      base ^ index * (base * base ^ (tmp.drop (index + 1)).length) := by
    rw [← pow_succ', ← pow_add]
    congr 1
    rw [length_drop]
    omega
  rw [Nat.ofDigits_append, Nat.ofDigits_cons, length_take_of_le (by omega), before, weight]
  have scaled := congrArg (fun part => base ^ index * (base * part)) upperValue
  have shifted := congrArg (base ^ index * ·) sum
  simp only [mul_add, mul_assoc] at scaled shifted ⊢
  omega

/-- A carry that stops early leaves the top element. -/
theorem rebuilt_top {tmp upper : List Nat} (index limb : Nat)
    (more : 0 < (tmp.drop (index + 1)).length)
    (last : upper.getD ((tmp.drop (index + 1)).length - 1) 0 =
      (tmp.drop (index + 1)).getD ((tmp.drop (index + 1)).length - 1) 0) :
    (tmp.take index ++ limb :: upper).getD (tmp.length - 1) 0 = tmp.getD (tmp.length - 1) 0 := by
  rw [length_drop] at more last
  rw [getD_append_right _ _ _ _ (by rw [length_take]; omega), length_take,
    min_eq_left (by omega), show tmp.length - 1 - index = (tmp.length - (index + 1) - 1) + 1 by
    omega, getD_cons_succ, last, getD_eq_getElem?_getD, List.getElem?_drop]
  congr 2
  omega

variable (format : Format)
include format

section

variable (tmp : List Nat) (value index : Nat) (holds : Holds format tmp)
  (small : value < 2 * format.base)
include index holds small

/-- Adding a value at an index always returns. Without the overflow flag the array
holds the exact sum; the flag is raised only for an index behind the array or a sum
beyond the product's rank. -/
theorem add_exact :
    ∃ result exceeds, add format tmp value index = .ok (result, exceeds) ∧
      (exceeds = false → Holds format result ∧
        ofDigits format.base result = ofDigits format.base tmp + format.base ^ index * value) ∧
      (exceeds = true → format.tmpSize ≤ index ∨
        10 ^ (format.totalRank + format.fractionRank) ≤
          ofDigits format.base tmp + format.base ^ index * value) := by
  unfold add
  by_cases outside : format.tmpSize ≤ index
  · exact ⟨tmp, true, if_pos outside, nofun, fun _ => Or.inl outside⟩
  rw [if_neg outside]
  have length := holds.length
  obtain ⟨limb, overflow, placed, digit, flag, sum⟩ := place_exact
     (holds.bounded.getD_lt format.base_positive index) small
  obtain ⟨upperLength, upperBounded, finished, stopped⟩ := carry_exact
     (holds.bounded.drop _) flag
  rw [placed]
  dsimp only [bind, Except.bind]
  generalize carry format.element (tmp.drop (index + 1)) overflow = carried
    at upperLength upperBounded finished stopped ⊢
  obtain ⟨upper, outcome⟩ := carried
  have resultLength : (tmp.take index ++ limb :: upper).length = format.tmpSize := by
    simp only [length_append, length_take, length_cons, upperLength,
      length_drop]
    omega
  have resultBounded : Bounded format.base (tmp.take index ++ limb :: upper) :=
    bounded_append.mpr
      ⟨holds.bounded.take _, bounded_cons.mpr ⟨digit, upperBounded⟩⟩
  have total (out : Nat) := carried_value format.base tmp upper out
    (by omega) sum
  rw [length] at total
  have top := top_iff resultLength resultBounded
  cases outcome with
  | none =>
    obtain ⟨upperValue, more, last⟩ := stopped rfl
    have sumValue := total 0 upperValue
    -- the early stop leaves the top element, so the old test of it still holds
    have same := rebuilt_top index limb more last
    rw [length] at same
    rw [same, top_iff length holds.bounded] at top
    exact ⟨_, false, rfl, fun _ => ⟨⟨resultLength, resultBounded, top.mp holds.small⟩, sumValue⟩,
      nofun⟩
  | some out =>
    have sumValue := total out (finished out rfl)
    have limit := limit_le_power format
    refine ⟨_, _, rfl, fun clear => ?_, fun raised => Or.inr ?_⟩
    · simp only [Bool.or_eq_false_iff, decide_eq_false_iff_not, not_not, not_le] at clear
      obtain ⟨rfl, fits⟩ := clear
      exact ⟨⟨resultLength, resultBounded, top.mp fits⟩, sumValue⟩
    · simp only [Bool.or_eq_true, decide_eq_true_eq] at raised
      rcases raised with carried | topLarge
      · have := Nat.mul_le_mul_left (format.base ^ format.tmpSize)
          (Nat.one_le_iff_ne_zero.mpr carried)
        omega
      · omega

/-- The throwing form of the addition: the exact sum, or `Overflow` with cause. -/
theorem addOrThrow_ends :
    Ends (addOrThrow format tmp value index)
      (fun result => Holds format result ∧
        ofDigits format.base result = ofDigits format.base tmp + format.base ^ index * value)
      (fun failure => failure = .overflow ∧ (format.tmpSize ≤ index ∨
        10 ^ (format.totalRank + format.fractionRank) ≤
          ofDigits format.base tmp + format.base ^ index * value)) := by
  obtain ⟨result, exceeds, returned, clear, raised⟩ := add_exact format tmp value index holds small
  rw [addOrThrow, returned]
  cases exceeds with
  | false => exact clear rfl
  | true => exact ⟨rfl, raised rfl⟩

end

theorem fractionEnd_lt : format.fractionEnd < format.tmpSize := by
  have := format.tmpSize_split.1
  have := format.size_positive
  omega

/-- The digits an array drops at the decimal point: all elements below the
boundary and the boundary element's lower part. -/
theorem dropped_digits {tmp : List Nat} (inside : format.fractionEnd < tmp.length)
    (bounded : Bounded format.base tmp) :
    ofDigits format.base tmp % 10 ^ format.fractionRank =
        ofDigits format.base (tmp.take format.fractionEnd) + format.base ^ format.fractionEnd *
          (tmp.getD format.fractionEnd 0 % format.fractionRemainder) ∧
      ofDigits format.base tmp / 10 ^ format.fractionRank =
        tmp.getD format.fractionEnd 0 / format.fractionRemainder +
          format.fractionOver * ofDigits format.base (tmp.drop (format.fractionEnd + 1)) := by
  have low := take_lt bounded (le_of_lt inside)
  have value : ofDigits format.base tmp = ofDigits format.base (tmp.take format.fractionEnd) +
      format.base ^ format.fractionEnd * (tmp.getD format.fractionEnd 0 +
        format.fractionRemainder * (format.fractionOver *
          ofDigits format.base (tmp.drop (format.fractionEnd + 1)))) := by
    rw [← mul_assoc format.fractionRemainder, format.remainder_over,
      value_split format.base tmp format.fractionEnd (by omega),
      drop_value inside]
  have positive : 0 < format.base ^ format.fractionEnd := Nat.pow_pos format.base_positive
  have high := Nat.div_eq_of_lt low
  constructor
  · rw [← format.fraction_weight, Nat.mod_mul, value, Nat.add_mul_mod_self_left,
      Nat.mod_eq_of_lt low, Nat.add_mul_div_left _ _ positive, high, zero_add,
      Nat.add_mul_mod_self_left]
  · rw [← format.fraction_weight, ← Nat.div_div_eq_div_mul, value,
      Nat.add_mul_div_left _ _ positive, high, zero_add,
      Nat.add_mul_div_left _ _ format.fractionRemainder_positive]

/-- The test of `round` compares the dropped digits with half a unit. -/
theorem round_test {tmp : List Nat} (holds : Holds format tmp)
    (fraction : format.fractionRank ≠ 0) :
    (if format.fractionRemainder = 1 then
        format.base / 2 ≤ tmp.getD (format.fractionEnd - 1) 0
      else format.fractionRemainder / 2 ≤
        tmp.getD format.fractionEnd 0 % format.fractionRemainder) ↔
      10 ^ format.fractionRank / 2 ≤ ofDigits format.base tmp % 10 ^ format.fractionRank := by
  have inside : format.fractionEnd < tmp.length := holds.length ▸ fractionEnd_lt format
  rw [(dropped_digits format inside holds.bounded).1, ← format.fraction_weight]
  by_cases whole : format.fractionRemainder = 1
  · have some := format.fractionEnd_positive whole fraction
    have takeLength := length_take_of_le (le_of_lt inside)
    have top := value_lt_top_iff (holds.bounded.take format.fractionEnd) (format.fractionEnd - 1)
      (format.base / 2) (by omega)
    have half : format.base ^ format.fractionEnd / 2 =
        format.base ^ (format.fractionEnd - 1) * (format.base / 2) := by
      rw [← Nat.mul_div_assoc _ format.two_dvd_base, ← pow_succ, Nat.sub_add_cancel some]
    rw [if_pos whole, whole, mul_one, half, Nat.mod_one, mul_zero, add_zero,
      ← not_lt, ← not_lt, top, getD_take (by omega)]
  · have low := take_lt holds.bounded (le_of_lt inside)
    rw [if_neg whole, Nat.mul_div_assoc _ (format.two_dvd_fractionRemainder whole)]
    constructor
    · intro upper
      have := Nat.mul_le_mul_left (format.base ^ format.fractionEnd) upper
      omega
    · intro upper
      by_contra below
      have := share_add_le (format.base ^ format.fractionEnd) (lt_of_not_ge below)
      omega

/-- Adding one unit of the last kept digit. -/
theorem unit_ends {tmp : List Nat} (holds : Holds format tmp) :
    Ends (addOrThrow format tmp format.fractionRemainder format.fractionEnd)
      (fun result => Holds format result ∧ ofDigits format.base result / 10 ^ format.fractionRank =
        ofDigits format.base tmp / 10 ^ format.fractionRank + 1)
      (Overflows format.totalRank (ofDigits format.base tmp / 10 ^ format.fractionRank + 1)) := by
  have unit : 0 < 10 ^ format.fractionRank := Nat.pow_pos (by decide)
  have small : format.fractionRemainder < 2 * format.base := by
    have := Nat.le_mul_of_pos_right format.fractionRemainder format.fractionOver_positive
    rw [format.remainder_over] at this
    have := format.base_positive
    omega
  refine (addOrThrow_ends format tmp _ format.fractionEnd holds small).mono ?_ ?_
  · rintro result ⟨resultHolds, value⟩
    rw [format.fraction_weight] at value
    exact ⟨resultHolds, by rw [value, Nat.add_div_right _ unit]⟩
  · rintro failure ⟨rfl, behind | large⟩
    · exact absurd (fractionEnd_lt format) (Nat.not_lt.mpr behind)
    · refine ⟨rfl, ?_⟩
      rw [format.fraction_weight, pow_add] at large
      rw [← Nat.add_div_right _ unit]
      exact (Nat.le_div_iff_mul_le unit).mpr large

/-- The loop of `export_to` regroups the elements around the decimal point. What
does not fit the result is left over above it. -/
theorem exportLoop_exact (result : List Nat) {last : Nat} (tmp : List Nat)
    (bounded : Bounded format.base tmp) (small : last < format.fractionOver)
    (above : tmp.length ≤ result.length) (below : result.length ≤ tmp.length + 1) :
    (exportLoop format result last tmp).length = result.length ∧
      Bounded format.base (exportLoop format result last tmp) ∧
      ∃ left, ofDigits format.base (exportLoop format result last tmp) +
          format.base ^ result.length * left =
        last + format.fractionOver * ofDigits format.base tmp := by
  induction result generalizing last tmp with
  | nil =>
    obtain rfl : tmp = [] := length_eq_zero_iff.mp (Nat.le_zero.mp above)
    exact ⟨rfl, bounded_nil, last, by simp [exportLoop]⟩
  | cons old result ih =>
    have grouping := format.remainder_over
    cases tmp with
    | nil =>
      obtain rfl : result = [] := length_eq_zero_iff.mp (by simpa using below)
      have digit : last < format.base := by
        have := Nat.le_mul_of_pos_left format.fractionOver format.fractionRemainder_positive
        omega
      exact ⟨rfl, bounded_cons.mpr ⟨digit, bounded_nil⟩, 0, by simp [exportLoop]⟩
    | cons limb tmp =>
      obtain ⟨limbSmall, tmpBounded⟩ := bounded_cons.mp bounded
      have lowSmall := Nat.mod_lt limb format.fractionRemainder_positive
      have part : limb / format.fractionRemainder < format.fractionOver :=
        Nat.div_lt_of_lt_mul (grouping ▸ limbSmall)
      have split := Nat.mod_add_div limb format.fractionRemainder
      simp only [exportLoop]
      generalize limb % format.fractionRemainder = low at *
      generalize limb / format.fractionRemainder = high at *
      obtain ⟨length, restBounded, left, value⟩ := ih tmp tmpBounded part
        (Nat.le_of_succ_le_succ above) (Nat.le_of_succ_le_succ below)
      have digit : last + low * format.fractionOver < format.base := by
        have := share_add_le format.fractionOver lowSmall
        rw [mul_comm, mul_comm _ format.fractionRemainder] at this
        omega
      have fits : format.element.wrap (last + low * format.fractionOver) =
          last + low * format.fractionOver :=
        Element.wrap_eq (lt_trans digit format.element.base_lt_modulus)
      simp only [fits, length_cons, length, bounded_cons, Nat.ofDigits_cons]
      refine ⟨trivial, ⟨digit, restBounded⟩, left, ?_⟩
      calc _ = last + low * format.fractionOver + format.base *
            (ofDigits format.base (exportLoop format result high tmp) +
              format.base ^ result.length * left) := by ring
        _ = last + low * format.fractionOver + format.fractionRemainder * format.fractionOver *
              high + format.base * (format.fractionOver * ofDigits format.base tmp) := by
            rw [value, grouping]
            ring
        _ = last + format.fractionOver * (low + format.fractionRemainder * high +
              format.base * ofDigits format.base tmp) := by ring
        _ = _ := by rw [split]

/-- `export_to` delivers the digits above the decimal point. -/
theorem exportTo_exact {tmp result : List Nat} (holds : Holds format tmp)
    (length : result.length = format.size) :
    (exportTo format tmp result).length = format.size ∧
      Bounded format.base (exportTo format tmp result) ∧
      ofDigits format.base (exportTo format tmp result) =
        ofDigits format.base tmp / 10 ^ format.fractionRank := by
  have tmpLength := holds.length
  have inside : format.fractionEnd < tmp.length := tmpLength ▸ fractionEnd_lt format
  obtain ⟨above, below, tight⟩ := format.tmpSize_split
  have kept := (dropped_digits format inside holds.bounded).2
  unfold exportTo
  by_cases whole : format.fractionRemainder = 1
  · have all : (tmp.drop format.fractionEnd).take format.size = tmp.drop format.fractionEnd :=
      take_of_length_le (by rw [length_drop]; omega)
    rw [if_pos whole, all]
    refine ⟨by rw [length_drop]; omega, holds.bounded.drop _, ?_⟩
    have grouping := format.remainder_over
    rw [whole, one_mul] at grouping
    rw [kept, whole, Nat.div_one, grouping, drop_value inside]
  · rw [if_neg whole]
    have part : tmp.getD format.fractionEnd 0 / format.fractionRemainder < format.fractionOver :=
      Nat.div_lt_of_lt_mul
        (format.remainder_over ▸ holds.bounded.getD_lt format.base_positive format.fractionEnd)
    obtain ⟨resultLength, resultBounded, left, value⟩ := exportLoop_exact format result
      (tmp.drop (format.fractionEnd + 1)) (holds.bounded.drop _) part
      (by rw [length_drop]; omega) (by rw [length_drop]; omega)
    have limited := holds.integer_lt
    have nothing : left = 0 := by
      have := format.limit_le_power
      rw [length] at value
      exact eq_zero_of_share_lt (format.base ^ format.size) (by omega)
    subst nothing
    exact ⟨resultLength.trans length, resultBounded, by omega⟩

end MulTmpArray

namespace Decimal

variable {format : Format}

/-- Elements of a default-constructed decimal: the invalid flag, then zeros. -/
def invalidArray (format : Format) : List Nat :=
  format.element.maximum :: List.replicate (format.size - 1) 0

theorem invalidArray_length : (invalidArray format).length = format.size := by
  have := format.size_positive
  simp only [invalidArray, length_cons, length_replicate]
  omega

/-- The inner loop of `Decimal::mul`: one element of the second factor against
the first factor, with the major digit carried to the next position. -/
def mulRow (format : Format) (factor i : Nat) :
    List Nat → Nat → List Nat → Nat → Except Failure (List Nat × Nat)
  | [], _, tmp, overflow => .ok (tmp, overflow)
  | x :: xs, j, tmp, overflow =>
      if x ≠ 0 then do
        let (result, overPart) ← format.element.mulElements x factor
        let tmp ← MulTmpArray.addOrThrow format tmp (format.element.wrap (result + overflow)) (i + j)
        mulRow format factor i xs (j + 1) tmp overPart
      else if overflow ≠ 0 then do
        let tmp ← MulTmpArray.addOrThrow format tmp overflow (i + j)
        mulRow format factor i xs (j + 1) tmp 0
      else mulRow format factor i xs (j + 1) tmp 0

/-- The outer loop of `Decimal::mul` over the elements of the second factor. -/
def mulLoop (format : Format) (factor1 : List Nat) :
    List Nat → Nat → List Nat → Except Failure (List Nat)
  | [], _, tmp => .ok tmp
  | y :: ys, i, tmp =>
      if y = 0 then mulLoop format factor1 ys (i + 1) tmp
      else do
        let (tmp, overflow) ← mulRow format y i factor1 0 tmp 0
        if overflow ≠ 0 then
          let tmp ← MulTmpArray.addOrThrow format tmp overflow (i + format.size)
          mulLoop format factor1 ys (i + 1) tmp
        else mulLoop format factor1 ys (i + 1) tmp

/-- What `Decimal::mul` does with the remainder before it exports the product. -/
def applyRemainder (format : Format) (dmr : DecimalMulRemainder) (product : List Nat) :
    Except Failure (List Nat) :=
  if format.fractionRank ≠ 0 ∧ dmr ≠ .floor then
    if dmr = .round then MulTmpArray.round format product else MulTmpArray.ceil format product
  else .ok product

/-- `Decimal::mul`. -/
def mul (factor1 factor2 : Decimal format) (dmr : DecimalMulRemainder) :
    Except Failure (Decimal format) := do
  let product ← mulLoop format factor1.array factor2.array 0 (List.replicate format.tmpSize 0)
  let rounded ← applyRemainder format dmr product
  return ⟨factor1.negative != factor2.negative,
    MulTmpArray.exportTo format rounded (invalidArray format)⟩

/-- Moving on by one element keeps the total of what is added and what is owed. -/
theorem owed_total {base weight stored value overPart owed factor x rest : Nat}
    (digits : value + base * overPart = owed + factor * x) :
    stored + weight * value + weight * base * (overPart + factor * rest) =
      stored + weight * (owed + factor * (x + base * rest)) := by
  calc _ = stored + (weight * (value + base * overPart) + weight * (base * (factor * rest))) := by ring
    _ = _ := by rw [digits]; ring

/-- A step of the multiplication sums up to a total: what it returns is the total
less a digit still owed at an index, and `Overflow` means that the total exceeds
the product's rank. -/
def SumsTo (format : Format) (index total : Nat)
    (outcome : Except Failure (List Nat × Nat)) : Prop :=
  Ends outcome
    (fun row => MulTmpArray.Holds format row.1 ∧ row.2 < format.base ∧
      ofDigits format.base row.1 + format.base ^ index * row.2 = total)
    (fun failure => failure = .overflow ∧ 10 ^ (format.totalRank + format.fractionRank) ≤ total)

/-- A nonzero amount at an index behind the array exceeds the product's rank. -/
theorem behind_exceeds {index amount : Nat} (behind : format.tmpSize ≤ index)
    (something : amount ≠ 0) :
    10 ^ (format.totalRank + format.fractionRank) ≤ format.base ^ index * amount := by
  calc 10 ^ (format.totalRank + format.fractionRank) ≤ format.base ^ format.tmpSize :=
        MulTmpArray.limit_le_power format
    _ ≤ format.base ^ index := Nat.pow_le_pow_right format.base_positive behind
    _ ≤ format.base ^ index * amount := Nat.le_mul_of_pos_right _ (pos_of_ne_zero something)

/-- One row adds the product of an element with the first factor exactly; the
last major digit is still owed. Induct along the first factor: the digits still
to be added are counted into the total, so each step keeps it. -/
theorem mulRow_sums (factor i : Nat) {xs : List Nat} (j : Nat) {tmp : List Nat} {overflow : Nat}
    (holds : MulTmpArray.Holds format tmp) (bounded : Bounded format.base xs)
    (digit : factor < format.base) (nonzero : factor ≠ 0) (small : overflow < format.base) :
    SumsTo format (i + j + xs.length)
      (ofDigits format.base tmp +
        format.base ^ (i + j) * (overflow + factor * ofDigits format.base xs))
      (mulRow format factor i xs j tmp overflow) := by
  induction xs generalizing j tmp overflow with
  | nil => exact ⟨holds, small, by simp⟩
  | cons x xs ih =>
    obtain ⟨xSmall, xsBounded⟩ := bounded_cons.mp bounded
    have weight : format.base ^ (i + (j + 1)) = format.base ^ (i + j) * format.base := by
      rw [← add_assoc, pow_succ]
    have position : i + j + (x :: xs).length = i + (j + 1) + xs.length := by
      rw [length_cons]
      omega
    rw [position, Nat.ofDigits_cons]
    have step (value overPart : Nat) (fits : value < 2 * format.base) (rest : overPart < format.base)
        (digits : value + format.base * overPart = overflow + factor * x)
        (something : overflow + factor * x ≠ 0) :
        SumsTo format (i + (j + 1) + xs.length)
          (ofDigits format.base tmp + format.base ^ (i + j) *
            (overflow + factor * (x + format.base * ofDigits format.base xs)))
          (MulTmpArray.addOrThrow format tmp value (i + j) >>= fun tmp =>
            mulRow format factor i xs (j + 1) tmp overPart) := by
      refine Ends.bind ((MulTmpArray.addOrThrow_ends format tmp value (i + j) holds fits).mono
        (fun _ added => added) ?_) (fun tmp' added => ?_)
      · rintro failure ⟨rfl, behind | large⟩
        · refine ⟨rfl, le_trans (behind_exceeds behind something) ?_⟩
          have := Nat.mul_le_mul_left (format.base ^ (i + j))
            (show overflow + factor * x ≤
              overflow + factor * (x + format.base * ofDigits format.base xs) by
                rw [mul_add]; omega)
          omega
        · refine ⟨rfl, ?_⟩
          rw [← owed_total digits]
          omega
      · have tail := @ih (j + 1) tmp' overPart added.1 xsBounded rest
        rwa [added.2, weight, owed_total digits]
          at tail
    by_cases blank : x = 0
    · subst blank
      by_cases clear : overflow = 0
      · subst clear
        have tail := @ih (j + 1) tmp 0 holds xsBounded small
        rw [weight] at tail
        simpa only [mulRow, ne_eq, not_true_eq_false, if_false, zero_add, mul_assoc,
          mul_left_comm] using tail
      · simp only [mulRow, ne_eq, clear]
        exact step overflow 0 (by omega) format.base_positive (by omega) (by omega)
    · have product := format.element.mulElements_exact xSmall digit
      have split := Nat.mod_add_div (x * factor) format.base
      have major : x * factor / format.base < format.base :=
        Nat.div_lt_of_lt_mul (Nat.mul_lt_mul'' xSmall digit)
      have minor := Nat.mod_lt (x * factor) format.base_positive
      have width := format.two_base_le
      have something : factor * x ≠ 0 := mul_ne_zero nonzero blank
      have fits : format.element.wrap (x * factor % format.base + overflow) =
          x * factor % format.base + overflow := Element.wrap_eq (by omega)
      simp only [mulRow, ne_eq, blank, product]
      change SumsTo format _ _ (MulTmpArray.addOrThrow format tmp
        (format.element.wrap (x * factor % format.base + overflow)) (i + j) >>= _)
      refine step _ (x * factor / format.base) (by omega) major ?_ (by omega)
      rw [mul_comm factor x]
      omega

/-- The whole product is summed up exactly, or exceeds the product's rank. -/
theorem mulLoop_ends {xs ys : List Nat} (i : Nat) {tmp : List Nat}
    (holds : MulTmpArray.Holds format tmp) (length : xs.length = format.size)
    (left : Bounded format.base xs) (right : Bounded format.base ys) :
    Ends (mulLoop format xs ys i tmp)
      (fun product => MulTmpArray.Holds format product ∧
        ofDigits format.base product = ofDigits format.base tmp +
          format.base ^ i * (ofDigits format.base xs * ofDigits format.base ys))
      (Overflows (format.totalRank + format.fractionRank) (ofDigits format.base tmp +
        format.base ^ i * (ofDigits format.base xs * ofDigits format.base ys))) := by
  induction ys generalizing i tmp with
  | nil => exact ⟨holds, by simp⟩
  | cons y ys ih =>
    obtain ⟨ySmall, ysBounded⟩ := bounded_cons.mp right
    -- the total with the row of `y` and the rows above it set apart
    have total : ofDigits format.base tmp + format.base ^ i *
          (ofDigits format.base xs * ofDigits format.base (y :: ys)) =
        ofDigits format.base tmp + format.base ^ i * (y * ofDigits format.base xs) +
          format.base ^ (i + 1) * (ofDigits format.base xs * ofDigits format.base ys) := by
      rw [Nat.ofDigits_cons]
      ring
    rw [total]
    by_cases blank : y = 0
    · subst blank
      have tail := @ih (i + 1) tmp holds ysBounded
      simpa only [mulLoop, if_true, zero_mul, mul_zero, add_zero] using tail
    · simp only [mulLoop, if_neg blank]
      have row := mulRow_sums y i 0 holds left ySmall blank format.base_positive
      rw [add_zero, zero_add, length] at row
      refine Ends.bind (row.mono (fun _ summed => summed) ?_) ?_
      · rintro failure ⟨rfl, large⟩
        exact ⟨rfl, by omega⟩
      · rintro ⟨result, overflow⟩ ⟨rowHolds, digit, sum⟩
        dsimp only at rowHolds digit sum ⊢
        rw [← sum]
        by_cases clear : overflow = 0
        · subst clear
          have tail := @ih (i + 1) result rowHolds ysBounded
          simpa only [ne_eq, not_true_eq_false, if_false, mul_zero, add_zero] using tail
        · rw [if_pos clear]
          refine Ends.bind ((MulTmpArray.addOrThrow_ends format result overflow _ rowHolds
            (by omega)).mono (fun _ added => added) ?_) ?_
          · rintro failure ⟨rfl, behind | large⟩
            · have := behind_exceeds behind clear
              exact ⟨rfl, by omega⟩
            · exact ⟨rfl, by omega⟩
          · rintro next ⟨nextHolds, added⟩
            have tail := @ih (i + 1) next nextHolds ysBounded
            rwa [added] at tail

theorem holds_zero :
    MulTmpArray.Holds format (List.replicate format.tmpSize 0) := by
  refine ⟨length_replicate, bounded_replicate_zero format.base_positive _, ?_⟩
  rw [Nat.ofDigits_replicate_zero]
  exact Nat.pow_pos (by decide)

variable (factor1 factor2 : Decimal format)

/-- The product array before rounding holds the product of the magnitudes. -/
theorem product_ends (formed1 : factor1.Formed) (formed2 : factor2.Formed) :
    Ends (mulLoop format factor1.array factor2.array 0 (List.replicate format.tmpSize 0))
      (fun product => MulTmpArray.Holds format product ∧
        ofDigits format.base product = factor1.magnitude * factor2.magnitude)
      (Overflows (format.totalRank + format.fractionRank)
        (factor1.magnitude * factor2.magnitude)) := by
  have loop := mulLoop_ends 0
    holds_zero formed1.length formed1.bounded
    formed2.bounded
  rwa [Nat.ofDigits_replicate_zero, pow_zero, one_mul, zero_add] at loop

/-- Exporting a product array delivers its digits above the decimal point. -/
theorem export_delivers (negative : Bool) {tmp : List Nat} (holds : MulTmpArray.Holds format tmp) :
    Delivers (.ok (⟨negative, MulTmpArray.exportTo format tmp (invalidArray format)⟩ :
      Decimal format)) ⟨negative, ofDigits format.base tmp / 10 ^ format.fractionRank⟩ := by
  obtain ⟨resultLength, bounded, value⟩ :=
    MulTmpArray.exportTo_exact format holds invalidArray_length
  exact delivers_ok (.of_magnitude resultLength bounded (lt_of_eq_of_lt value holds.integer_lt))
    (congrArg (SignedMagnitude.mk negative) value)

/-- The product of the magnitudes in units of the last digit, before rounding. -/
def exactProduct (factor1 factor2 : Decimal format) : ℚ :=
  factor1.magnitude * factor2.magnitude / 10 ^ format.fractionRank

/-- The exact product in units of the last place. -/
theorem exactProduct_eq : exactProduct factor1 factor2 =
    (factor1.magnitude * factor2.magnitude : ℕ) / (10 ^ format.fractionRank : ℕ) := by
  push_cast
  rfl

/-- Multiplication is the product array, the rounding stage and the export. It
delivers what the stage makes of the product, if the stage does not go below the
floor and reports overflow only for results beyond the total rank. -/
theorem mul_delivers (formed1 : factor1.Formed)
    (formed2 : factor2.Formed) {dmr : DecimalMulRemainder} {rounded : Nat}
    (above : factor1.magnitude * factor2.magnitude / 10 ^ format.fractionRank ≤ rounded)
    (rounding : ∀ product, MulTmpArray.Holds format product →
      ofDigits format.base product = factor1.magnitude * factor2.magnitude →
      Ends (applyRemainder format dmr product)
        (fun result => MulTmpArray.Holds format result ∧
          ofDigits format.base result / 10 ^ format.fractionRank = rounded)
        (Overflows format.totalRank rounded)) :
    Delivers (mul factor1 factor2 dmr) ⟨factor1.negative != factor2.negative, rounded⟩ := by
  rw [delivers_iff]
  refine Ends.bind ((product_ends factor1 factor2 formed1 formed2).mono (fun _ held => held) ?_)
    (fun product held => Ends.bind (rounding product held.1 held.2) (fun result kept => ?_))
  · rintro failure ⟨rfl, large⟩
    have unit : 0 < 10 ^ format.fractionRank := Nat.pow_pos (by decide)
    rw [pow_add] at large
    exact ⟨rfl, le_trans ((Nat.le_div_iff_mul_le unit).mpr large) above⟩
  · have exported := export_delivers (factor1.negative != factor2.negative) kept.1
    rw [kept.2] at exported
    exact delivers_iff.mp exported

/-- Under `DMR_FLOOR` the digits below the last one are cut off, also for factors beyond
the total rank. -/
theorem Formed.mul_floor {factor1 factor2 : Decimal format} (formed1 : factor1.Formed)
    (formed2 : factor2.Formed) :
    Delivers (mul factor1 factor2 .floor) ⟨factor1.negative != factor2.negative,
      Rounding.floor (exactProduct factor1 factor2)⟩ := by
  rw [exactProduct_eq, floor_quotient]
  refine mul_delivers factor1 factor2 formed1 formed2 (le_refl _)
    fun product holds value => ?_
  rw [applyRemainder, if_neg (by simp)]
  exact ⟨holds, by rw [value]⟩

section

variable (factor1 factor2 : Decimal format) (range1 : factor1.InRange) (range2 : factor2.InRange)
include range1 range2

/-- The product rounded down. -/
theorem mul_floor :
    Delivers (mul factor1 factor2 .floor) ⟨factor1.negative != factor2.negative,
      Rounding.floor (exactProduct factor1 factor2)⟩ :=
  range1.formed.mul_floor range2.formed

/-- Under `DMR_ROUND` a unit is added from half of one on. Without fraction digits
nothing is dropped and the stage is skipped. -/
theorem mul_round :
    Delivers (mul factor1 factor2 .round) ⟨factor1.negative != factor2.negative,
      halfUp (exactProduct factor1 factor2)⟩ := by
  rw [exactProduct_eq]
  by_cases fraction : format.fractionRank = 0
  · rw [fraction, pow_zero, Nat.cast_one, div_one, halfUp_natCast]
    refine mul_delivers factor1 factor2 range1.formed range2.formed (Nat.div_le_self _ _)
      fun product holds value => ?_
    rw [applyRemainder, if_neg (by simp [fraction])]
    exact ⟨holds, by rw [value, fraction, pow_zero, Nat.div_one]⟩
  · have even : 2 * (10 ^ format.fractionRank / 2) = 10 ^ format.fractionRank :=
      Nat.mul_div_cancel' (dvd_pow (by decide) fraction)
    rw [halfUp_quotient _ _ (Nat.pow_pos (by decide)) even]
    refine mul_delivers factor1 factor2 range1.formed range2.formed (Nat.le_add_right _ _)
      fun product holds value => ?_
    have test := MulTmpArray.round_test format holds fraction
    rw [applyRemainder, if_pos ⟨fraction, by decide⟩, MulTmpArray.round, ← value]
    by_cases upper : 10 ^ format.fractionRank / 2 ≤
        ofDigits format.base product % 10 ^ format.fractionRank
    · rw [if_pos (test.mpr upper), if_pos upper]
      exact MulTmpArray.unit_ends format holds
    · rw [if_neg (mt test.mp upper), if_neg upper]
      exact ⟨holds, rfl⟩

end

/-- `Decimal::mul` delivers the product cut at the last digit under `DMR_FLOOR`
and rounded half up under `DMR_ROUND`, with the sign of the product. On the way the
product array holds the exact product of the magnitudes, or that product is too
big for any result. -/
theorem mul_exact (factor1 factor2 : Decimal format) (range1 : factor1.InRange)
    (range2 : factor2.InRange) :
    Delivers (mul factor1 factor2 .floor) ⟨factor1.negative != factor2.negative,
        Rounding.floor (exactProduct factor1 factor2)⟩ ∧
      Delivers (mul factor1 factor2 .round) ⟨factor1.negative != factor2.negative,
        halfUp (exactProduct factor1 factor2)⟩ ∧
      Ends (mulLoop format factor1.array factor2.array 0 (List.replicate format.tmpSize 0))
        (fun product => ofDigits format.base product = factor1.magnitude * factor2.magnitude)
        (fun failure => failure = .overflow ∧
          10 ^ (format.totalRank + format.fractionRank) ≤
            factor1.magnitude * factor2.magnitude) :=
  ⟨mul_floor factor1 factor2 range1 range2, mul_round factor1 factor2 range1 range2,
    (product_ends factor1 factor2 range1.formed range2.formed).mono (fun _ held => held.2)
      (fun _ excess => excess)⟩

theorem mul_exact_bytes :
    Delivers (mul (⟨true, [34, 12, 0]⟩ : Decimal .bytes) ⟨false, [55, 2, 0]⟩ .floor)
        ⟨true, Rounding.floor (exactProduct (⟨true, [34, 12, 0]⟩ : Decimal .bytes)
          ⟨false, [55, 2, 0]⟩)⟩ ∧
      Delivers (mul (⟨true, [34, 12, 0]⟩ : Decimal .bytes) ⟨false, [55, 2, 0]⟩ .round)
        ⟨true, halfUp (exactProduct (⟨true, [34, 12, 0]⟩ : Decimal .bytes)
          ⟨false, [55, 2, 0]⟩)⟩ :=
  have exactly := mul_exact (⟨true, [34, 12, 0]⟩ : Decimal .bytes) ⟨false, [55, 2, 0]⟩
    (by decide) (by decide)
  ⟨exactly.1, exactly.2.1⟩

end Decimal

end UnixCommons.Generics
