import UnixCommons.Generics.Decimal

/-!
# Cutting a multi-limb decimal at fewer fraction digits

`floor` and `ceil` keep a number of fraction digits and work in place: elements below
the cut become zero, and the element in which the cut lies loses its low digits. Rounding
up adds a unit of the cut to that element and carries through the elements above it.
Both treat the magnitude only, so they round towards and away from zero.
-/

namespace UnixCommons.Generics.Decimal

open Limbs List
open Nat (ofDigits)

variable {format : Format}

/-- `Decimal::floor`: the element of the cut, if there is one, and those above it are
the elements from the cut's index on. -/
def floor (decimal : Decimal format) (fraction : Nat) : Decimal format :=
  if format.fractionRank ≤ fraction then decimal
  else
    let fraction := format.fractionRank - fraction
    let index := fraction / format.digits
    let zeros := List.replicate index 0
    match decimal.array.drop index with
    | [] => { decimal with array := zeros }
    | elem :: upper =>
      let pow := 10 ^ (fraction % format.digits)
      let elem := if elem % pow ≠ 0 then elem / pow * pow else elem
      { decimal with array := zeros ++ elem :: upper }

/-- The loop of `Decimal::ceil` that adds one to the elements above the cut: the
elements and whether the carry is left over. -/
def carryUp (base : Nat) : List Nat → List Nat × Bool
  | [] => ([], true)
  | elem :: rest =>
    if elem < base - 1 then ((elem + 1) :: rest, false)
    else
      let (rest, overflow) := carryUp base rest
      (0 :: rest, overflow)

/-- Adding one unit of the cut, as `Decimal::ceil` does: the element of the cut, those
above it, and whether a carry is left over. -/
def raiseCut (format : Format) (pow elem : Nat) (upper : List Nat) : Nat × List Nat × Bool :=
  let res := format.element.wrap ((elem / pow + 1) * pow)
  if res < format.base then (res, upper, false)
  else
    let (upper, overflow) := carryUp format.base upper
    (0, upper, overflow)

/-- `Decimal::ceil`. -/
def ceil (decimal : Decimal format) (fraction : Nat) : Except Failure (Decimal format) :=
  if format.fractionRank ≤ fraction then .ok decimal
  else
    let fraction := format.fractionRank - fraction
    let index := fraction / format.digits
    let zeros := List.replicate index 0
    let overflow := (decimal.array.take index).any (· != 0)
    match decimal.array.drop index with
    | [] => if overflow then .error .overflow else .ok { decimal with array := zeros }
    | elem :: upper =>
      let pow := 10 ^ (fraction % format.digits)
      if overflow || elem % pow != 0 then
        let (elem, upper, overflow) := raiseCut format pow elem upper
        let array := zeros ++ elem :: upper
        if overflow || format.integerMaxOver ≤ array.getD (format.size - 1) 0 then
          .error .overflow
        else .ok { decimal with array }
      else .ok { decimal with array := zeros ++ elem :: upper }

/-- The weight of the first digit a cut keeps, in units of the last digit. -/
def cutUnit (format : Format) (fraction : Nat) : Nat := 10 ^ (format.fractionRank - fraction)

variable {count index elem : Nat}

/-- A cut at some fraction digits: its index is inside the array or right behind it, and
its weight is that of the index and of the digits cut inside the element. -/
theorem cut_position (inside : count ≤ format.fractionRank) :
    count / format.digits ≤ format.size ∧
      10 ^ count = format.base ^ (count / format.digits) * 10 ^ (count % format.digits) ∧
      10 ^ (count % format.digits) ∣ format.base := by
  have positive := format.digits_positive
  refine ⟨?_, ?_, pow_dvd_pow 10 (Nat.mod_lt _ positive).le⟩
  · have bounded := format.fractionBounded
    have room := format.size_bounds.1
    calc count / format.digits ≤ format.size * format.digits / format.digits :=
          Nat.div_le_div_right (by omega)
      _ = format.size := Nat.mul_div_cancel _ positive
  · rw [format.base_eq, ← pow_mul, ← pow_add, Nat.div_add_mod]

variable (decimal : Decimal format)

/-- A result of the cut: zeros below it and an element and those above in their places. -/
theorem cut_array (inRange : decimal.InRange) {old new : List Nat}
    (shape : decimal.array.drop index = elem :: old) {digit : Nat} (small : digit < format.base)
    (bounded : Bounded format.base new) (length : new.length = old.length)
    (inside : index ≤ format.size) :
    (List.replicate index 0 ++ digit :: new).length = format.size ∧
      Bounded format.base (List.replicate index 0 ++ digit :: new) ∧
      ofDigits format.base (List.replicate index 0 ++ digit :: new) =
        format.base ^ index * (digit + format.base * ofDigits format.base new) := by
  have whole := congrArg List.length shape
  rw [length_drop, inRange.length, length_cons] at whole
  refine ⟨?_, ?_, ?_⟩
  · simp only [length_append, length_replicate, length_cons]
    omega
  · exact bounded_append.mpr ⟨bounded_replicate_zero format.base_positive _,
      bounded_cons.mpr ⟨small, bounded⟩⟩
  · rw [Nat.ofDigits_append, Nat.ofDigits_replicate_zero, length_replicate, Nat.ofDigits_cons,
      zero_add]

variable {upper : List Nat}

section

variable (decimal : Decimal format) (inRange : decimal.InRange)
include inRange

/-- When the cut lies inside the array: what is kept and what is dropped of the magnitude. -/
theorem cut_inside (inside : count ≤ format.fractionRank)
    (shape : decimal.array.drop (count / format.digits) = elem :: upper) :
    elem < format.base ∧ Bounded format.base upper ∧
      decimal.magnitude / 10 ^ count * 10 ^ count = format.base ^ (count / format.digits) *
        (elem / 10 ^ (count % format.digits) * 10 ^ (count % format.digits) +
          format.base * ofDigits format.base upper) ∧
      decimal.magnitude % 10 ^ count =
        ofDigits format.base (decimal.array.take (count / format.digits)) +
          format.base ^ (count / format.digits) * (elem % 10 ^ (count % format.digits)) := by
  obtain ⟨index, weight, divides⟩ := cut_position inside
  rw [← inRange.length] at index
  have low := take_lt inRange.bounded index
  have value := value_split format.base decimal.array _ index
  have bounded := inRange.bounded.drop (count / format.digits)
  rw [shape] at value bounded
  obtain ⟨small, upperBounded⟩ := bounded_cons.mp bounded
  rw [magnitude, value, weight]
  exact ⟨small, upperBounded, cut_value low (by positivity) divides⟩

/-- When the cut lies behind the array, it drops everything. -/
theorem cut_behind (inside : count ≤ format.fractionRank)
    (behind : decimal.array.drop (count / format.digits) = []) :
    count / format.digits = format.size ∧ 10 ^ format.totalRank ≤ 10 ^ count ∧
      decimal.array.take (count / format.digits) = decimal.array := by
  obtain ⟨index, weight, -⟩ := cut_position inside
  have end' := drop_eq_nil_iff.mp behind
  rw [inRange.length] at end'
  have full : count / format.digits = format.size := by omega
  refine ⟨full, ?_, take_of_length_le (by rw [inRange.length]; exact end')⟩
  rw [weight, full]
  exact format.limit_le_power.trans (Nat.le_mul_of_pos_right _ (by positivity))

/-- `floor` keeps the multiples of the cut's unit below the magnitude, and the sign. -/
theorem floor_exact {fraction : Nat} :
    (decimal.floor fraction).InRange ∧ (decimal.floor fraction).number =
      ⟨decimal.negative, decimal.magnitude / cutUnit format fraction *
        cutUnit format fraction⟩ := by
  unfold floor
  by_cases kept : format.fractionRank ≤ fraction
  · rw [if_pos kept, cutUnit, Nat.sub_eq_zero_of_le kept, pow_zero, Nat.div_one, mul_one]
    exact ⟨inRange, rfl⟩
  rw [if_neg kept]
  have inside : format.fractionRank - fraction ≤ format.fractionRank := Nat.sub_le _ _
  dsimp only
  split
  · next behind =>
    obtain ⟨full, large, -⟩ := cut_behind decimal inRange inside behind
    have small := inRange.magnitude_lt.trans_le large
    have zero : ofDigits format.base (List.replicate format.size 0) = 0 :=
      Nat.ofDigits_replicate_zero
    rw [full]
    refine ⟨.of_magnitude length_replicate (bounded_replicate_zero format.base_positive _)
      ?_, ?_⟩
    · rw [magnitude, zero]
      positivity
    · rw [number, magnitude, zero, cutUnit, Nat.div_eq_of_lt small, zero_mul]
  · next elem upper shape =>
    obtain ⟨small, bounded, keptValue, -⟩ := cut_inside decimal inRange inside shape
    generalize 10 ^ ((format.fractionRank - fraction) % format.digits) = pow at *
    have digit : (if elem % pow ≠ 0 then elem / pow * pow else elem) = elem / pow * pow := by
      have division := Nat.div_add_mod' elem pow
      split <;> omega
    have less : elem / pow * pow ≤ elem := Nat.div_mul_le_self elem pow
    obtain ⟨length, elements, value⟩ := cut_array decimal inRange shape
      (lt_of_le_of_lt less small) bounded rfl (cut_position inside).1
    rw [digit]
    rw [← keptValue] at value
    refine ⟨.of_magnitude length elements ?_, ?_⟩
    · rw [magnitude, value]
      exact lt_of_le_of_lt (Nat.div_mul_le_self _ _) inRange.magnitude_lt
    · rw [number, magnitude, value, cutUnit]

end

/-- Adding one above the cut is exact, with the carry that is left over. The induction
follows the carry. -/
theorem carryUp_exact {base : Nat} (positive : 0 < base) {limbs : List Nat}
    (bounded : Bounded base limbs) :
    (carryUp base limbs).1.length = limbs.length ∧ Bounded base (carryUp base limbs).1 ∧
      ofDigits base (carryUp base limbs).1 +
        base ^ limbs.length * (if (carryUp base limbs).2 then 1 else 0) =
          ofDigits base limbs + 1 := by
  induction limbs with
  | nil => simp [carryUp]
  | cons elem rest ih =>
    obtain ⟨small, restBounded⟩ := bounded_cons.mp bounded
    obtain ⟨length, carried, value⟩ := ih restBounded
    unfold carryUp
    by_cases room : elem < base - 1
    · simp only [room, if_true, length_cons, Nat.ofDigits_cons, bounded_cons]
      exact ⟨trivial, ⟨by omega, restBounded⟩, by simp; omega⟩
    · simp only [room, if_false, length_cons, bounded_cons, length]
      refine ⟨trivial, ⟨positive, carried⟩, ?_⟩
      calc 0 + base * ofDigits base (carryUp base rest).1 +
            base ^ (rest.length + 1) * (if (carryUp base rest).2 then 1 else 0)
          = base * (ofDigits base (carryUp base rest).1 +
              base ^ rest.length * (if (carryUp base rest).2 then 1 else 0)) := by ring
        _ = base * (ofDigits base rest + 1) := by rw [value]
        _ = elem + base * ofDigits base rest + 1 := by rw [Nat.mul_succ]; omega

/-- Adding a unit of the cut to its element is exact, with the carry that is left over. -/
theorem raiseCut_exact {pow : Nat} (divides : pow ∣ format.base) (small : elem < format.base)
    (bounded : Bounded format.base upper) :
    ∃ digit above overflow, raiseCut format pow elem upper = (digit, above, overflow) ∧
      digit < format.base ∧ Bounded format.base above ∧ above.length = upper.length ∧
      digit + format.base * ofDigits format.base above +
          format.base ^ (upper.length + 1) * (if overflow then 1 else 0) =
        elem / pow * pow + pow + format.base * ofDigits format.base upper := by
  obtain ⟨factor, grouping⟩ := divides
  have raised : (elem / pow + 1) * pow ≤ format.base := by
    rw [grouping, mul_comm pow factor]
    refine Nat.mul_le_mul_right pow (Nat.div_lt_of_lt_mul ?_)
    rwa [← grouping]
  have fits : format.element.wrap ((elem / pow + 1) * pow) = (elem / pow + 1) * pow :=
    Element.wrap_eq (lt_of_le_of_lt raised format.element.base_lt_modulus)
  unfold raiseCut
  rw [fits, ← Nat.succ_mul]
  by_cases room : (elem / pow + 1) * pow < format.base
  · rw [if_pos room]
    exact ⟨_, _, _, rfl, room, bounded, rfl, by simp⟩
  · obtain ⟨length, carried, value⟩ := carryUp_exact format.base_positive bounded
    have full : (elem / pow + 1) * pow = format.base := by omega
    rw [if_neg room]
    refine ⟨_, _, _, rfl, format.base_positive, carried, length, ?_⟩
    calc 0 + format.base * ofDigits format.base (carryUp format.base upper).1 +
          format.base ^ (upper.length + 1) * (if (carryUp format.base upper).2 then 1 else 0)
        = format.base * (ofDigits format.base (carryUp format.base upper).1 +
            format.base ^ upper.length * (if (carryUp format.base upper).2 then 1 else 0)) := by ring
      _ = format.base + format.base * ofDigits format.base upper := by rw [value]; ring
      _ = _ := by rw [full]

/-- The last test of `ceil`: without a carry left over, the top element decides. -/
theorem checked_delivers {negative : Bool} {array : List Nat} {value : Nat}
    (length : array.length = format.size) (bounded : Bounded format.base array)
    (same : ofDigits format.base array = value) :
    Delivers (if (false || decide (format.integerMaxOver ≤ array.getD (format.size - 1) 0)) = true
        then .error .overflow else .ok (⟨negative, array⟩ : Decimal format))
      ⟨negative, value⟩ := by
  subst same
  have top := top_iff array length bounded
  by_cases small : ofDigits format.base array < 10 ^ format.totalRank
  · have below := Nat.not_le.mpr (top.mpr small)
    rw [if_neg (by simpa using below)]
    exact delivers_ok (.of_magnitude length bounded small) rfl
  · have above := le_of_not_gt (mt top.mp small)
    rw [if_pos (by simpa using above), Delivers, if_neg small]

section

variable (decimal : Decimal format) (inRange : decimal.InRange)
  (inside : count ≤ format.fractionRank)
  (shape : decimal.array.drop (count / format.digits) = elem :: upper)
include inRange inside shape

/-- The array with the raised cut holds the next multiple of the cut's unit, but for the
carry that is left over. -/
theorem raised_array :
    ∃ digit above overflow,
      raiseCut format (10 ^ (count % format.digits)) elem upper = (digit, above, overflow) ∧
      (List.replicate (count / format.digits) 0 ++ digit :: above).length = format.size ∧
      Bounded format.base (List.replicate (count / format.digits) 0 ++ digit :: above) ∧
      ofDigits format.base (List.replicate (count / format.digits) 0 ++ digit :: above) +
          format.base ^ format.size * (if overflow then 1 else 0) =
        (decimal.magnitude / 10 ^ count + 1) * 10 ^ count := by
  obtain ⟨index, weight, divides⟩ := cut_position inside
  obtain ⟨small, bounded, kept, -⟩ := cut_inside decimal inRange inside shape
  obtain ⟨digit, above, overflow, raised, digitSmall, aboveBounded, length, value⟩ :=
    raiseCut_exact divides small bounded
  obtain ⟨arrayLength, arrayBounded, arrayValue⟩ := cut_array decimal inRange shape
    digitSmall aboveBounded length index
  refine ⟨digit, above, overflow, raised, arrayLength, arrayBounded, ?_⟩
  have places : count / format.digits + (upper.length + 1) = format.size := by
    simpa [length] using arrayLength
  calc _ = format.base ^ (count / format.digits) * (digit + format.base *
          ofDigits format.base above + format.base ^ (upper.length + 1) *
            (if overflow then 1 else 0)) := by
        rw [arrayValue, ← places]
        ring
    _ = _ := by
        rw [value, Nat.succ_mul, kept, weight]
        ring

/-- Raising the cut delivers the next multiple of its unit. -/
theorem raised_delivers :
    Delivers
      (let (elem, upper, overflow) := raiseCut format (10 ^ (count % format.digits)) elem upper
        let array := List.replicate (count / format.digits) 0 ++ elem :: upper
        if overflow || format.integerMaxOver ≤ array.getD (format.size - 1) 0 then
          .error .overflow
        else .ok ({ decimal with array } : Decimal format))
      ⟨decimal.negative, (decimal.magnitude / 10 ^ count + 1) * 10 ^ count⟩ := by
  obtain ⟨digit, above, overflow, raised, length, bounded, value⟩ :=
    raised_array decimal inRange inside shape
  rw [raised, ← value]
  dsimp only
  cases overflow with
  | false => exact checked_delivers length bounded (by simp)
  | true =>
    have limit := format.limit_le_power
    rw [if_pos (Bool.true_or _), Delivers, if_neg]
    simp only [reduceIte]
    omega

end

/-- The flag of the elements below the cut. -/
theorem dropped_any {base : Nat} (positive : 0 < base) (limbs : List Nat) :
    limbs.any (· != 0) = true ↔ ofDigits base limbs ≠ 0 := by
  rw [ne_eq, value_eq_zero_iff positive]
  simp

/-- The cut is raised when it drops anything. -/
theorem raise_test (inRange : decimal.InRange) (inside : count ≤ format.fractionRank)
    (shape : decimal.array.drop (count / format.digits) = elem :: upper) :
    ((decimal.array.take (count / format.digits)).any (· != 0) ||
        elem % 10 ^ (count % format.digits) != 0) = true ↔ decimal.magnitude % 10 ^ count ≠ 0 := by
  obtain ⟨-, -, -, rest⟩ := cut_inside decimal inRange inside shape
  have weight : 0 < format.base ^ (count / format.digits) := Nat.pow_pos format.base_positive
  rw [rest, Bool.or_eq_true, dropped_any format.base_positive, bne_iff_ne]
  simp only [ne_eq, Nat.add_eq_zero_iff, mul_eq_zero, weight.ne', false_or, not_and_or]

/-- `ceil` raises the magnitude to a multiple of the cut's unit and keeps the sign; it
overflows exactly when that multiple exceeds the total rank. -/
theorem ceil_delivers (inRange : decimal.InRange) (fraction : Nat) :
    Delivers (decimal.ceil fraction) ⟨decimal.negative,
      Rounding.ceiling (decimal.magnitude / cutUnit format fraction) *
        cutUnit format fraction⟩ := by
  rw [cutUnit, Rounding.ceiling_quotient _ _ (Nat.pow_pos (by decide))]
  unfold ceil
  by_cases kept : format.fractionRank ≤ fraction
  · rw [if_pos kept, Nat.sub_eq_zero_of_le kept]
    exact delivers_ok inRange (by simp [number, Nat.mod_one])
  rw [if_neg kept]
  have inside : format.fractionRank - fraction ≤ format.fractionRank := Nat.sub_le _ _
  dsimp only
  generalize format.fractionRank - fraction = cut at *
  have dropped := dropped_any format.base_positive (decimal.array.take (cut / format.digits))
  split
  · next behind =>
    obtain ⟨full, large, whole⟩ := cut_behind decimal inRange inside behind
    have small := inRange.magnitude_lt.trans_le large
    rw [whole] at dropped ⊢
    rw [Nat.div_eq_of_lt small, Nat.mod_eq_of_lt small, full]
    by_cases zero : decimal.magnitude = 0
    · rw [if_neg (mt dropped.mp (not_not.mpr zero)), if_pos zero]
      have none : ofDigits format.base (List.replicate format.size 0) = 0 :=
        Nat.ofDigits_replicate_zero
      refine delivers_ok (.of_magnitude length_replicate
        (bounded_replicate_zero format.base_positive _) ?_) ?_
      · rw [magnitude, none]
        positivity
      · rw [number, magnitude, none, Nat.zero_mul]
    · rw [if_pos (dropped.mpr zero), if_neg zero, zero_add, one_mul, Delivers,
        if_neg (Nat.not_lt.mpr large)]
  · next elem upper shape =>
    obtain ⟨small, bounded, keptValue, -⟩ := cut_inside decimal inRange inside shape
    have test := raise_test decimal inRange inside shape
    by_cases exactly : decimal.magnitude % 10 ^ cut = 0
    · have whole := Nat.div_add_mod' decimal.magnitude (10 ^ cut)
      have unraised := mt test.mp (not_not.mpr exactly)
      have aligned : elem / 10 ^ (cut % format.digits) * 10 ^ (cut % format.digits) = elem := by
        have division := Nat.div_add_mod' elem (10 ^ (cut % format.digits))
        simp only [Bool.or_eq_true, bne_iff_ne] at unraised
        omega
      obtain ⟨length, elements, value⟩ := cut_array decimal inRange shape small bounded rfl
        (cut_position inside).1
      rw [aligned, ← value] at keptValue
      rw [exactly, add_zero] at whole
      rw [if_neg unraised, if_pos exactly, add_zero]
      refine delivers_ok (.of_magnitude length elements ?_) ?_
      · rw [magnitude, ← keptValue, whole]
        exact inRange.magnitude_lt
      · rw [number, magnitude, ← keptValue, whole]
    · rw [if_pos (test.mpr exactly), if_neg exactly]
      exact raised_delivers decimal inRange inside shape

end UnixCommons.Generics.Decimal
