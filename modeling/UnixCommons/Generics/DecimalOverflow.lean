import UnixCommons.Generics.DecimalCutting
import UnixCommons.Generics.DecimalInPlace

/-!
# What an overflow leaves behind

The sum is written into the target while the carry is still under way, and the test of
the top element comes last. Rounding up clears the elements below the cut before it
knows whether the raised number fits. When an operation throws `Overflow` into an object
that was its own operand, the object's number is therefore gone: it is different after
every such exception, so that the operations keep it exactly when they do not throw.
-/

namespace UnixCommons.Generics

open Limbs Outcome Decimal
open Nat (ofDigits)

namespace Decimal

variable {format : Format}

/-- `Decimal::ceil` with the elements it leaves in the object also when it throws. -/
def ceilInPlace (decimal : Decimal format) (fraction : Nat) :
    Decimal format × Except Failure Unit :=
  if format.fractionRank ≤ fraction then (decimal, .ok ())
  else
    let fraction := format.fractionRank - fraction
    let index := fraction / format.digits
    let zeros := List.replicate index 0
    let overflow := (decimal.array.take index).any (· != 0)
    match decimal.array.drop index with
    | [] => ({ decimal with array := zeros }, if overflow then .error .overflow else .ok ())
    | elem :: upper =>
      let pow := 10 ^ (fraction % format.digits)
      if overflow || elem % pow != 0 then
        let (elem, upper, overflow) := raiseCut format pow elem upper
        let array := zeros ++ elem :: upper
        ({ decimal with array },
          if overflow || format.integerMaxOver ≤ array.getD (format.size - 1) 0 then
            .error .overflow
          else .ok ())
      else ({ decimal with array := zeros ++ elem :: upper }, .ok ())

/-- The object is what `ceil` returns if it returns. -/
theorem ceil_eq_inPlace (decimal : Decimal format) (fraction : Nat) :
    decimal.ceil fraction =
      (decimal.ceilInPlace fraction).2.map fun _ => (decimal.ceilInPlace fraction).1 := by
  unfold ceil ceilInPlace
  by_cases kept : format.fractionRank ≤ fraction
  · simp [kept, Except.map]
  dsimp only
  cases decimal.array.drop ((format.fractionRank - fraction) / format.digits) with
  | nil | cons =>
    dsimp only
    split_ifs <;> rfl

/-- An object that `ceil` leaves with an exception holds another number. If the cut lies
behind the array, a number that is not zero was cleared. Otherwise the array holds the
next multiple of the unit, less than a unit above the number, but for a carry left over. -/
theorem ceilInPlace_changes {decimal : Decimal format} (inRange : decimal.InRange)
    {fraction : Nat} (thrown : (decimal.ceilInPlace fraction).2 = .error .overflow) :
    (decimal.ceilInPlace fraction).1.magnitude ≠ decimal.magnitude := by
  have inside : format.fractionRank - fraction ≤ format.fractionRank := Nat.sub_le _ _
  unfold ceilInPlace at thrown ⊢
  by_cases kept : format.fractionRank ≤ fraction
  · simp [kept] at thrown
  simp only [kept, if_false] at thrown ⊢
  generalize format.fractionRank - fraction = cut at *
  have dropped := dropped_any format.base_positive (decimal.array.take (cut / format.digits))
  cases shape : decimal.array.drop (cut / format.digits) with
  | nil =>
    simp only [shape] at thrown ⊢
    obtain ⟨-, -, whole⟩ := cut_behind decimal inRange inside shape
    have nonzero : decimal.magnitude ≠ 0 := by
      rw [whole] at dropped thrown
      apply dropped.mp
      by_contra clear
      simp [clear] at thrown
    intro same
    apply nonzero
    rw [← same, magnitude, Nat.ofDigits_replicate_zero]
  | cons elem upper =>
    simp only [shape] at thrown ⊢
    have test := raise_test decimal inRange inside shape
    by_cases exactly : decimal.magnitude % 10 ^ cut = 0
    · simp [mt test.mp (not_not.mpr exactly)] at thrown
    obtain ⟨digit, above, overflow, raised, -, -, value⟩ :=
      raised_array decimal inRange inside shape
    rw [if_pos (test.mpr exactly), raised]
    intro same
    change ofDigits format.base (List.replicate (cut / format.digits) 0 ++ digit :: above) = _ at same
    have division := Nat.div_add_mod' decimal.magnitude (10 ^ cut)
    have unit : 10 ^ cut ≤ format.base ^ format.size := by
      have rank := format.fractionBounded
      exact (Nat.pow_le_pow_right (by decide) (by omega)).trans format.limit_le_power
    rw [Nat.succ_mul] at value
    cases overflow
    · simp at value
      omega
    · simp at value
      omega

/-- A sum beyond the total rank leaves an array of another magnitude than either summand:
what is missing for the sum is a carry out of the array. -/
theorem internalAdd_changes {left right : Decimal format} (leftRange : left.InRange)
    (rightRange : right.InRange)
    (large : 10 ^ format.totalRank ≤ left.magnitude + right.magnitude) :
    ofDigits format.base (internalAdd format left.array right.array).1 ≠ left.magnitude ∧
      ofDigits format.base (internalAdd format left.array right.array).1 ≠ right.magnitude := by
  obtain ⟨-, -, carry, value⟩ := addLoop_exact
    (leftRange.length.trans rightRange.length.symm) leftRange.bounded rightRange.bounded
    (Nat.zero_le 1)
  have limit := format.limit_le_power
  have leftSmall := leftRange.magnitude_lt
  have rightSmall := rightRange.magnitude_lt
  rw [leftRange.length] at value
  change ofDigits format.base (internalAdd format left.array right.array).1 +
    format.base ^ format.size * _ = left.magnitude + right.magnitude + 0 at value
  generalize (addLoop format.element left.array right.array 0).2 = overflow at carry value
  interval_cases overflow
  · constructor <;> omega
  · constructor <;> omega

/-- Other magnitudes are other numbers. -/
theorem signed_ne {first second : Decimal format} (different : first.magnitude ≠ second.magnitude) :
    first.signed ≠ second.signed := by
  intro same
  apply different
  have absolute : first.number.magnitude = second.number.magnitude := by
    simpa only [signed, SignedMagnitude.natAbs_toInt] using congrArg Int.natAbs same
  exact absolute

variable {left right : Decimal format}

/-- A sum of numbers of one sign adds the magnitudes, and so does a difference of numbers of
opposed signs; any other one fits. -/
theorem signed_cases (leftRange : left.InRange) (rightRange : right.InRange) :
    if left.negative == right.negative then
      (left.signed + right.signed).natAbs = left.magnitude + right.magnitude ∧
        (left.signed - right.signed).natAbs < 10 ^ format.totalRank
    else (left.signed + right.signed).natAbs < 10 ^ format.totalRank ∧
      (left.signed - right.signed).natAbs = left.magnitude + right.magnitude := by
  have leftSmall := leftRange.magnitude_lt
  have rightSmall := rightRange.magnitude_lt
  cases leftSign : left.negative <;> cases rightSign : right.negative <;>
    simp [signed, number, SignedMagnitude.toInt, leftSign, rightSign] <;> omega

end Decimal

namespace Decimals

variable {format : Format} {Name : Type}

/-- An overflow leaves the number of the object that is written. -/
def Keeps (store : Decimals format Name) (target : Name)
    (result : Decimals format Name × Except Failure Unit) : Prop :=
  result.2 = .error .overflow → (result.1.object target).signed = (store.object target).signed

variable {store : Decimals format Name} {left right target : Name}

/-- Without an exception there is nothing to keep. -/
theorem Leaves.keeps {exact : Int} {result : Decimals format Name × Except Failure Unit}
    (leaves : store.Leaves target exact result) (fits : exact.natAbs < 10 ^ format.totalRank) :
    store.Keeps target result := by
  intro thrown
  have returned := leaves.2
  rw [if_pos fits, thrown] at returned
  cases returned.1

section Aliased

variable (leftRange : (store.object left).InRange) (rightRange : (store.object right).InRange)
  (aliased : target = left ∨ target = right)
include leftRange rightRange aliased

theorem aliased_length : (store.array target).length = format.size := by
  rcases aliased with rfl | rfl
  · exact leftRange.length
  · exact rightRange.length

variable [DecidableEq Name]

/-- A sum that does not fit takes the number of the operand it is written to. -/
theorem joined_changes {negative : Bool}
    (large : 10 ^ format.totalRank ≤
      (store.object left).magnitude + (store.object right).magnitude) :
    ¬ store.Keeps target
      (let (array, exceeds) := internalAdd format left right target store.array;
        store.finish array (if exceeds then .error .overflow else .ok ()) target negative) := by
  have leftLength : (store.array left).length = format.size := leftRange.length
  have rightLength : (store.array right).length = format.size := rightRange.length
  have targetLength := aliased_length leftRange rightRange aliased
  have exceeds : (Decimal.internalAdd format (store.array left) (store.array right)).2 = true :=
    (internalAdd_exact leftLength rightLength leftRange.bounded
      rightRange.bounded).1.trans (decide_eq_true large)
  obtain ⟨leftChanged, rightChanged⟩ := internalAdd_changes leftRange rightRange large
  rw [internalAdd_eq leftLength rightLength targetLength]
  rw [exceeds]
  intro keeps
  refine signed_ne ?_ (keeps rfl)
  simp only [finish, object, Function.update_self, reduceIte]
  rcases aliased with rfl | rfl
  · exact leftChanged
  · exact rightChanged

/-- A sum that does not fit changes its target. -/
theorem add_keeps_iff :
    store.Keeps target (store.add left right target) ↔
      ((store.object left).signed + (store.object right).signed).natAbs <
        10 ^ format.totalRank := by
  have targetLength := aliased_length leftRange rightRange aliased
  refine ⟨fun keeps => ?_, (add_leaves leftRange rightRange targetLength).keeps⟩
  have exact := signed_cases leftRange rightRange
  by_cases signs : (store.negative left == store.negative right) = true
  · rw [if_pos (by exact signs)] at exact
    rw [add, if_pos signs] at keeps
    rw [exact.1]
    by_contra large
    exact joined_changes leftRange rightRange aliased (le_of_not_gt large) keeps
  · rw [if_neg (by exact signs)] at exact
    exact exact.1

/-- A difference that does not fit changes its target. -/
theorem sub_keeps_iff :
    store.Keeps target (store.sub left right target) ↔
      ((store.object left).signed - (store.object right).signed).natAbs <
        10 ^ format.totalRank := by
  have targetLength := aliased_length leftRange rightRange aliased
  refine ⟨fun keeps => ?_, (sub_leaves leftRange rightRange targetLength).keeps⟩
  have exact := signed_cases leftRange rightRange
  by_cases signs : (store.negative left == store.negative right) = true
  · rw [if_pos (by exact signs)] at exact
    exact exact.2
  · rw [if_neg (by exact signs)] at exact
    rw [sub, if_neg signs] at keeps
    rw [exact.2]
    by_contra large
    exact joined_changes leftRange rightRange aliased (le_of_not_gt large) keeps

end Aliased

/-- Rounding up in place keeps the number exactly if the rounded number fits. -/
theorem ceil_keeps_iff {decimal : Decimal format} (inRange : decimal.InRange) {fraction : Nat} :
    ((decimal.ceilInPlace fraction).2 = .error .overflow →
        (decimal.ceilInPlace fraction).1.signed = decimal.signed) ↔
      Rounding.ceiling (decimal.magnitude / cutUnit format fraction) *
        cutUnit format fraction < 10 ^ format.totalRank := by
  have delivers := ceil_delivers decimal inRange fraction
  rw [ceil_eq_inPlace, Decimal.Delivers] at delivers
  constructor
  · intro keeps
    by_contra large
    rw [if_neg large] at delivers
    have thrown : (decimal.ceilInPlace fraction).2 = .error .overflow := by
      cases ended : (decimal.ceilInPlace fraction).2 with
      | ok _ => simp [ended, Except.map] at delivers
      | error failure =>
        rw [ended] at delivers
        cases delivers
        rfl
    exact signed_ne (ceilInPlace_changes inRange thrown)
      (keeps thrown)
  · intro small thrown
    rw [if_pos small, thrown] at delivers
    obtain ⟨result, returned, -⟩ := delivers
    cases returned

variable [DecidableEq Name]

/-- An object that is an operand and the target of a sum or a difference, or that is
rounded up in place, keeps its number whenever `Overflow` is thrown exactly if the exact
result fits, that is if nothing is thrown. -/
theorem overflow_keeps_iff (store : Decimals format Name) (left right target : Name)
    (leftRange : (store.object left).InRange) (rightRange : (store.object right).InRange)
    (aliased : target = left ∨ target = right) :
    (store.Keeps target (store.add left right target) ↔
        ((store.object left).signed + (store.object right).signed).natAbs <
          10 ^ format.totalRank) ∧
      (store.Keeps target (store.sub left right target) ↔
        ((store.object left).signed - (store.object right).signed).natAbs <
          10 ^ format.totalRank) ∧
      (store.Keeps left (store.addAssign left right) ↔
        ((store.object left).signed + (store.object right).signed).natAbs <
          10 ^ format.totalRank) ∧
      (store.Keeps left (store.subAssign left right) ↔
        ((store.object left).signed - (store.object right).signed).natAbs <
          10 ^ format.totalRank) ∧
      ∀ fraction, ((((store.object left).ceilInPlace fraction).2 = .error .overflow →
          ((store.object left).ceilInPlace fraction).1.signed = (store.object left).signed) ↔
        Rounding.ceiling ((store.object left).magnitude / cutUnit format fraction) *
          cutUnit format fraction < 10 ^ format.totalRank) :=
  ⟨add_keeps_iff leftRange rightRange aliased, sub_keeps_iff leftRange rightRange aliased,
    add_keeps_iff leftRange rightRange (.inl rfl), sub_keeps_iff leftRange rightRange (.inl rfl),
    fun _ => ceil_keeps_iff leftRange⟩

theorem overflow_keeps_iff_small :
    let store : Decimals .bytes Bool :=
      ⟨fun _ => false, fun name => if name then [1, 0, 0] else [34, 12, 7]⟩
    store.Keeps true (store.addAssign true false) := by
  intro store
  exact (overflow_keeps_iff store true false true (by decide) (by decide) (.inl rfl)).2.2.1.mpr
    (by decide)

/-- The largest number of six digits is incremented, and rounded up to a whole one: both
throw, and both leave zero. -/
theorem overflow_loses :
    let store : Decimals .bytes Bool :=
      ⟨fun _ => false, fun name => if name then [1, 0, 0] else [99, 99, 99]⟩
    ((store.addAssign false true).2 = .error .overflow ∧
        ((store.addAssign false true).1.object false).signed = 0) ∧
      (((store.object false).ceilInPlace 0).2 = .error .overflow ∧
        ((store.object false).ceilInPlace 0).1.signed = 0) ∧
      (store.object false).signed = 999999 := by
  decide

end Decimals

end UnixCommons.Generics
