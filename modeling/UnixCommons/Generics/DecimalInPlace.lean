import UnixCommons.Generics.Decimal
import UnixCommons.Library.InPlace

/-!
# Sums and differences written into decimals

`Decimal::add` and `Decimal::sub` take their operands and their target by reference, and
the assigning operators name one object twice. Here decimals are objects held under
names, an operation reads and writes them element by element through the names, and any
of the names may be the same. What an exception leaves behind is part of the result.

Every operation on in-range operands leaves in its target the decimal that is computed
on copies, whatever the aliasing. It throws exactly when the exact result has too many
digits.
-/

namespace UnixCommons.Generics

open Limbs Outcome List InPlace
open Nat (ofDigits)

/-- Decimal objects held under names. -/
structure Decimals (format : Format) (Name : Type) where
  negative : Name → Bool
  array : Name → List Nat

/-- One turn of the loop of `internal_add_`: the element written and the overflow. -/
def addTurn (element : Element) (x y overflow : Nat) : Nat × Nat :=
  let num := element.wrap (x + y + overflow)
  if element.base ≤ num then (num - element.base, 1) else (num, 0)

/-- One turn of the loop of `internal_sub_`: the element written and the underflow. -/
def subTurn (element : Element) (x y underflow : Nat) : Nat × Nat :=
  let realSubtrahend := element.wrap (y + underflow)
  if x < realSubtrahend then (element.base - (realSubtrahend - x), 1) else (x - realSubtrahend, 0)

namespace Decimals

variable {format : Format} {Name : Type} [DecidableEq Name]

/-- The decimal an object holds. -/
def object (store : Decimals format Name) (name : Name) : Decimal format :=
  ⟨store.negative name, store.array name⟩

/-- `Decimal::internal_add_`: the arrays after it, and whether the result is too big. -/
def internalAdd (format : Format) (summand1 summand2 target : Name) (array : Name → List Nat) :
    (Name → List Nat) × Bool :=
  let (array, overflow) :=
    loop (addTurn format.element) 0 summand1 summand2 target format.size 0 array 0
  (array, decide (overflow ≠ 0) ||
    decide (format.integerMaxOver ≤ (array target).getD (format.size - 1) 0))

/-- `Decimal::internal_sub_`: the arrays after it, and its assertion. -/
def internalSub (format : Format) (minuend subtrahend target : Name) (diffIndex : Nat)
    (array : Name → List Nat) : (Name → List Nat) × Except Failure Unit :=
  let (array, underflow) :=
    loop (subTurn format.element) 0 minuend subtrahend target (diffIndex + 1) 0 array 0
  let array :=
    if diffIndex < format.size then
      Function.update array target ((array target).take (diffIndex + 1) ++
        List.replicate (format.size - (diffIndex + 1)) 0)
    else array
  (array, check (underflow == 0))

/-- The end of an operation: the sign of the target is written unless an exception
passed by. -/
def finish (store : Decimals format Name) (array : Name → List Nat) (ended : Except Failure Unit)
    (target : Name) (negative : Bool) : Decimals format Name × Except Failure Unit :=
  match ended with
  | .ok () => (⟨Function.update store.negative target negative, array⟩, .ok ())
  | .error failure => (⟨store.negative, array⟩, .error failure)

/-- `Decimal::add` with a target. -/
def add (summand1 summand2 target : Name) (store : Decimals format Name) :
    Decimals format Name × Except Failure Unit :=
  if store.negative summand1 == store.negative summand2 then
    let (array, exceeds) := internalAdd format summand1 summand2 target store.array
    store.finish array (if exceeds then .error .overflow else .ok ()) target
      (store.negative summand1)
  else
    let (less, diffIndex) :=
      Decimal.isLessThan format (store.array summand1) (store.array summand2)
    if less then
      let (array, ended) := internalSub format summand2 summand1 target diffIndex store.array
      store.finish array ended target (store.negative summand2)
    else
      let (array, ended) := internalSub format summand1 summand2 target diffIndex store.array
      store.finish array ended target (store.negative summand1)

/-- `Decimal::sub` with a target. -/
def sub (minuend subtrahend target : Name) (store : Decimals format Name) :
    Decimals format Name × Except Failure Unit :=
  if store.negative minuend == store.negative subtrahend then
    let (less, diffIndex) :=
      Decimal.isLessThan format (store.array minuend) (store.array subtrahend)
    if less then
      let (array, ended) := internalSub format subtrahend minuend target diffIndex store.array
      store.finish array ended target (!store.negative subtrahend)
    else
      let (array, ended) := internalSub format minuend subtrahend target diffIndex store.array
      store.finish array ended target (store.negative minuend)
  else
    let (array, exceeds) := internalAdd format minuend subtrahend target store.array
    store.finish array (if exceeds then .error .overflow else .ok ()) target
      (store.negative minuend)

/-- `Decimal::operator +=`. -/
def addAssign (object summand : Name) (store : Decimals format Name) :
    Decimals format Name × Except Failure Unit :=
  store.add object summand object

/-- `Decimal::operator -=`. -/
def subAssign (object subtrahend : Name) (store : Decimals format Name) :
    Decimals format Name × Except Failure Unit :=
  store.sub object subtrahend object

/-- The turns of the loop in place are those of the addition. -/
theorem zipCarry_addTurn (element : Element) (xs ys : List Nat) (overflow : Nat) :
    zipCarry (addTurn element) xs ys overflow = Decimal.addLoop element xs ys overflow := by
  induction xs generalizing ys overflow with
  | nil => simp [zipCarry, Decimal.addLoop]
  | cons x xs ih =>
    cases ys with
    | nil => simp [zipCarry, Decimal.addLoop]
    | cons y ys =>
      simp only [zipCarry, Decimal.addLoop, addTurn, ih]
      split_ifs <;> rfl

/-- The turns of the loop in place are those of the subtraction. -/
theorem zipCarry_subTurn (element : Element) (xs ys : List Nat) (underflow : Nat) :
    zipCarry (subTurn element) xs ys underflow =
      Decimal.subLoop element xs ys underflow := by
  induction xs generalizing ys underflow with
  | nil => simp [zipCarry, Decimal.subLoop]
  | cons x xs ih =>
    cases ys with
    | nil => simp [zipCarry, Decimal.subLoop]
    | cons y ys =>
      simp only [zipCarry, Decimal.subLoop, subTurn, ih]
      split_ifs <;> rfl

section Arrays

variable {array : Name → List Nat} {left right target : Name}

/-- The sum written in place is the sum of copies, also beyond an overflow. -/
theorem internalAdd_eq (leftLength : (array left).length = format.size)
    (rightLength : (array right).length = format.size)
    (targetLength : (array target).length = format.size) :
    internalAdd format left right target array =
      (Function.update array target (Decimal.internalAdd format (array left) (array right)).1,
        (Decimal.internalAdd format (array left) (array right)).2) := by
  have loop := loop_eq (addTurn format.element) 0 left right target format.size 0 array 0
    (by omega) (by omega) (by omega)
  simp only [window, drop_zero, take_of_length_le leftLength.le,
    take_of_length_le rightLength.le, zipCarry_addTurn, zero_add, drop_of_length_le targetLength.le] at loop
  simp [internalAdd, Decimal.internalAdd, loop]

/-- The difference written in place is the difference of copies, and the assertion is
the same. -/
theorem internalSub_eq {diffIndex : Nat} (inside : diffIndex < format.size)
    (leftLength : (array left).length = format.size)
    (rightLength : (array right).length = format.size)
    (targetLength : (array target).length = format.size) :
    ∃ result ended, internalSub format left right target diffIndex array =
        (Function.update array target result, ended) ∧
      Decimal.internalSub format (array left) (array right) diffIndex =
        ended.map fun _ => result := by
  have loop := loop_eq (subTurn format.element) 0 left right target (diffIndex + 1) 0 array 0
    (by omega) (by omega) (by omega)
  simp only [window, drop_zero, zipCarry_subTurn, take_zero, nil_append] at loop
  unfold internalSub Decimal.internalSub
  rw [loop]
  generalize subtracted : Decimal.subLoop format.element ((array left).take (diffIndex + 1))
    ((array right).take (diffIndex + 1)) 0 = difference
  have length : difference.1.length = diffIndex + 1 := by
    rw [← subtracted, ← zipCarry_subTurn, length_zipCarry]
    simp only [length_take]
    omega
  obtain ⟨low, underflow⟩ := difference
  refine ⟨low ++ List.replicate (format.size - (diffIndex + 1)) 0, check (underflow == 0), ?_, ?_⟩
  · dsimp only at length ⊢
    rw [if_pos inside, Function.update_self, Function.update_idem, take_left' length]
  · dsimp only
    cases check (underflow == 0) <;> rfl

end Arrays

/-- An operation on objects leaves in its target what the operation on copies returns,
and throws what that one throws. -/
def Refines (store : Decimals format Name) (target : Name)
    (result : Decimals format Name × Except Failure Unit)
    (computed : Except Failure (Decimal format)) : Prop :=
  ∃ negative array ended,
    result = store.finish (Function.update store.array target array) ended target negative ∧
      computed = ended.map fun _ => ⟨negative, array⟩

section Operations

variable {store : Decimals format Name} {left right target : Name}

/-- The scan stops inside the array. -/
theorem isLessThan_inside (format : Format) (lefts rights : List Nat) :
    (Decimal.isLessThan format lefts rights).2 < format.size := by
  have positive := format.size_positive
  have bound : ∀ index, (Decimal.isLessFrom lefts rights index).2 ≤ index := by
    intro index
    induction index with
    | zero =>
      simp only [Decimal.isLessFrom]
      split_ifs <;> rfl
    | succ index ih =>
      simp only [Decimal.isLessFrom]
      split_ifs
      · exact le_rfl
      · exact le_rfl
      · omega
  have := bound (format.size - 1)
  unfold Decimal.isLessThan
  omega

section Aliases

variable (leftLength : (store.array left).length = format.size)
  (rightLength : (store.array right).length = format.size)
  (targetLength : (store.array target).length = format.size)
include leftLength rightLength targetLength

/-- Magnitudes that are added in place. -/
theorem joined_refines {negative : Bool} :
    store.Refines target
      (let (array, exceeds) := internalAdd format left right target store.array;
        store.finish array (if exceeds then .error .overflow else .ok ()) target negative)
      (let (array, exceeds) := Decimal.internalAdd format (store.array left) (store.array right)
        if exceeds then .error .overflow else .ok ⟨negative, array⟩) := by
  rw [internalAdd_eq leftLength rightLength targetLength]
  generalize Decimal.internalAdd format (store.array left) (store.array right) = sum
  obtain ⟨array, exceeds⟩ := sum
  refine ⟨negative, array, if exceeds then .error .overflow else .ok (), rfl, ?_⟩
  cases exceeds <;> rfl

/-- Magnitudes that are subtracted in place. -/
theorem opposed_refines {negative : Bool} {diffIndex : Nat} (inside : diffIndex < format.size) :
    store.Refines target
      (let (array, ended) := internalSub format left right target diffIndex store.array;
        store.finish array ended target negative)
      (do let array ← Decimal.internalSub format (store.array left) (store.array right) diffIndex
          return ⟨negative, array⟩) := by
  obtain ⟨array, ended, written, computed⟩ :=
    internalSub_eq inside leftLength rightLength targetLength
  rw [written, computed]
  refine ⟨negative, array, ended, rfl, ?_⟩
  cases ended <;> rfl

/-- The smaller array subtracted from the larger, with the sign of each order. -/
theorem scanned_refines {lessSign otherSign : Bool} :
    store.Refines target
      (let (less, diffIndex) := Decimal.isLessThan format (store.array left) (store.array right)
        if less then
          let (array, ended) := internalSub format right left target diffIndex store.array;
          store.finish array ended target lessSign
        else
          let (array, ended) := internalSub format left right target diffIndex store.array;
          store.finish array ended target otherSign)
      (let (less, diffIndex) := Decimal.isLessThan format (store.array left) (store.array right)
        if less then do
          let array ← Decimal.internalSub format (store.array right) (store.array left) diffIndex
          return ⟨lessSign, array⟩
        else do
          let array ← Decimal.internalSub format (store.array left) (store.array right) diffIndex
          return ⟨otherSign, array⟩) := by
  have inside := isLessThan_inside format (store.array left) (store.array right)
  generalize Decimal.isLessThan format (store.array left) (store.array right) = scan at inside
  obtain ⟨less, diffIndex⟩ := scan
  cases less with
  | true => exact opposed_refines rightLength leftLength targetLength inside
  | false => exact opposed_refines leftLength rightLength targetLength inside

/-- The sum in place is that of the decimals. -/
theorem add_refines :
    store.Refines target (store.add left right target)
      (Decimal.add (store.object left) (store.object right)) := by
  by_cases signs : (store.negative left == store.negative right) = true
  · rw [add, if_pos signs, Decimal.add, if_pos (by exact signs)]
    exact joined_refines leftLength rightLength targetLength
  · rw [add, if_neg signs, Decimal.add, if_neg (by exact signs)]
    exact scanned_refines leftLength rightLength targetLength

/-- The difference in place is that of the decimals. -/
theorem sub_refines :
    store.Refines target (store.sub left right target)
      (Decimal.sub (store.object left) (store.object right)) := by
  by_cases signs : (store.negative left == store.negative right) = true
  · rw [sub, if_pos signs, Decimal.sub, if_pos (by exact signs)]
    exact scanned_refines leftLength rightLength targetLength
  · rw [sub, if_neg signs, Decimal.sub, if_neg (by exact signs)]
    exact joined_refines leftLength rightLength targetLength

end Aliases

/-- What an operation with the given exact result owes: the number in the target, in
range, or `Overflow` exactly when it has too many digits; other objects are not touched. -/
def Leaves (store : Decimals format Name) (target : Name) (exact : Int)
    (result : Decimals format Name × Except Failure Unit) : Prop :=
  (∀ other, other ≠ target → result.1.object other = store.object other) ∧
    if exact.natAbs < 10 ^ format.totalRank then
      result.2 = .ok () ∧ (result.1.object target).InRange ∧ (result.1.object target).signed = exact
    else result.2 = .error .overflow

/-- The promise on copies carries over. -/
theorem Refines.leaves {result : Decimals format Name × Except Failure Unit}
    {computed : Except Failure (Decimal format)} {exact : SignedMagnitude}
    (refines : store.Refines target result computed) (delivers : Decimal.Delivers computed exact) :
    store.Leaves target exact.toInt result := by
  obtain ⟨negative, array, ended, rfl, rfl⟩ := refines
  refine ⟨fun other different => ?_, ?_⟩
  · cases ended <;> simp [finish, object, Function.update_of_ne different]
  rw [SignedMagnitude.natAbs_toInt]
  unfold Decimal.Delivers at delivers
  split_ifs at delivers ⊢ with small
  · obtain ⟨decimal, returned, inRange, same⟩ := delivers
    cases ended with
    | error failure => cases returned
    | ok _ =>
      cases returned
      simpa [finish, object, Decimal.signed, same] using inRange
  · cases ended with
    | error failure =>
      cases delivers
      rfl
    | ok _ => cases delivers

variable (leftRange : (store.object left).InRange) (rightRange : (store.object right).InRange)
  (targetLength : (store.array target).length = format.size)
include leftRange rightRange targetLength

theorem add_leaves :
    store.Leaves target ((store.object left).signed + (store.object right).signed)
      (store.add left right target) := by
  have sum := Decimal.add_delivers leftRange rightRange
  unfold Decimal.signed
  rw [← SignedMagnitude.toInt_add]
  exact (add_refines leftRange.length rightRange.length targetLength).leaves sum

theorem sub_leaves :
    store.Leaves target ((store.object left).signed - (store.object right).signed)
      (store.sub left right target) := by
  have difference := Decimal.sub_delivers leftRange rightRange
  unfold Decimal.signed
  rw [Int.sub_eq_add_neg, ← SignedMagnitude.toInt_neg, ← SignedMagnitude.toInt_add]
  exact (sub_refines leftRange.length rightRange.length targetLength).leaves difference

end Operations

/-- `Decimal::add`, `Decimal::sub` and the assigning operators leave the exact signed sum
or difference in the target, or throw `Overflow` exactly when it has more digits than the
total rank. The target may be either operand, or both. -/
theorem sums_exact (store : Decimals format Name) (left right target : Name)
    (leftRange : (store.object left).InRange) (rightRange : (store.object right).InRange)
    (targetLength : (store.array target).length = format.size) :
    store.Leaves target ((store.object left).signed + (store.object right).signed)
        (store.add left right target) ∧
      store.Leaves target ((store.object left).signed - (store.object right).signed)
        (store.sub left right target) ∧
      store.Leaves left ((store.object left).signed + (store.object right).signed)
        (store.addAssign left right) ∧
      store.Leaves left ((store.object left).signed - (store.object right).signed)
        (store.subAssign left right) := by
  exact ⟨add_leaves leftRange rightRange targetLength, sub_leaves leftRange rightRange targetLength,
    add_leaves leftRange rightRange leftRange.length,
    sub_leaves leftRange rightRange leftRange.length⟩

/-- A decimal subtracted from itself, all in one object. -/
theorem sums_exact_itself :
    let store : Decimals .bytes Unit := ⟨fun _ => true, fun _ => [34, 12, 7]⟩
    store.Leaves () 0 (store.subAssign () ()) := by
  intro store
  have itself := (sums_exact store () () () (by decide) (by decide) rfl).2.2.2
  simpa using itself

end Decimals

end UnixCommons.Generics
