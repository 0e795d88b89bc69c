import UnixCommons.Generics.Decimal

/-!
# Order and hash of multi-limb decimals

The comparisons look at the signs and then at the arrays, in one direction or the
other. They are the order of the represented numbers for every array of digits,
also for one that a constructor let grow beyond the total rank: only the magnitude
of the arrays counts. Both zeros are equal, and the hash reads the array alone, so
that equal decimals are hashed as the same bytes.
-/

namespace UnixCommons.Generics

open Limbs
open Nat (ofDigits)

namespace Decimal

variable {format : Format}

/-- `Decimal::operator <`. -/
def less (decimal test : Decimal format) : Bool :=
  if decimal.negative then
    if test.negative then (isLessThan format test.array decimal.array).1
    else !decimal.isZero || !test.isZero
  else !test.negative && (isLessThan format decimal.array test.array).1

/-- `Decimal::operator !=`. -/
def notEq (decimal right : Decimal format) : Bool := !decimal.eq right

/-- `Decimal::operator >`. -/
def greater (decimal test : Decimal format) : Bool := test.less decimal

/-- `Decimal::operator >=`. -/
def greaterEq (decimal test : Decimal format) : Bool := !decimal.less test

/-- `Decimal::operator <=`. -/
def lessEq (decimal test : Decimal format) : Bool := !test.less decimal

/-- The bytes of the array in memory, the lowest byte of an element first. -/
def arrayBytes (decimal : Decimal format) : List UInt8 :=
  decimal.array.flatMap fun element =>
    (List.range (format.element.bits / 8)).map fun index => UInt8.ofNat (element / 2 ^ (8 * index))

/-- `hash_add`, for any hash that is fed bytes. -/
def hashAdd {Hash : Type} (add : Hash → List UInt8 → Hash) (hash : Hash) (key : Decimal format) :
    Hash :=
  add hash key.arrayBytes

variable {left right : Decimal format}

section

variable (leftFormed : left.Formed) (rightFormed : right.Formed)
include leftFormed rightFormed

/-- Arrays of digits are equal exactly when their magnitudes are. -/
theorem Formed.array_eq_iff :
    left.array = right.array ↔ left.magnitude = right.magnitude := by
  have large := format.base_large
  constructor
  · intro same
    simp [magnitude, same]
  · intro same
    exact Nat.ofDigits_inj_of_len_eq (by omega) (leftFormed.length.trans rightFormed.length.symm)
      leftFormed.bounded rightFormed.bounded same

/-- The scan from the top element compares the magnitudes. -/
theorem Formed.isLessThan_iff :
    (isLessThan format left.array right.array).1 = true ↔ left.magnitude < right.magnitude := by
  have positive := format.size_positive
  have leftLength := leftFormed.length
  have rightLength := rightFormed.length
  refine (isLessFrom_exact (format.size - 1) leftFormed.bounded
    rightFormed.bounded (leftLength.trans rightLength.symm) (by omega) ?_).1
  simp [List.drop_of_length_le, leftLength, rightLength, Nat.sub_add_cancel positive]

/-- `Decimal::operator ==` compares the represented numbers. -/
theorem Formed.eq_iff :
    left.eq right = true ↔ left.signed = right.signed := by
  have arrays := leftFormed.array_eq_iff rightFormed
  have leftZero := left.isZero_iff
  have rightZero := right.isZero_iff
  cases leftSign : left.negative <;> cases rightSign : right.negative <;>
    simp [eq, signed, number, SignedMagnitude.toInt, leftSign, rightSign, arrays, leftZero,
      rightZero]

/-- `Decimal::operator <` compares the represented numbers. -/
theorem Formed.less_iff :
    left.less right = true ↔ left.signed < right.signed := by
  have forward := leftFormed.isLessThan_iff rightFormed
  have backward := rightFormed.isLessThan_iff leftFormed
  have leftZero := left.isZero_iff
  have rightZero := right.isZero_iff
  cases leftSign : left.negative <;> cases rightSign : right.negative <;>
    simp [less, signed, number, SignedMagnitude.toInt, leftSign, rightSign, forward, backward,
      leftZero, rightZero, Bool.eq_false_iff]
  omega

end

/-- Equal decimals have equal arrays: with different signs both arrays are zero. -/
theorem array_eq_of_eq (leftLength : left.array.length = format.size)
    (rightLength : right.array.length = format.size) (equal : left.eq right = true) :
    left.array = right.array := by
  rw [eq] at equal
  split_ifs at equal with signs
  · simpa using equal
  · obtain ⟨leftZero, rightZero⟩ := Bool.and_eq_true_iff.mp equal
    have zeros (decimal : Decimal format) (length : decimal.array.length = format.size)
        (zero : decimal.isZero = true) : decimal.array = List.replicate format.size 0 := by
      simp only [isZero, List.all_eq_true, beq_iff_eq] at zero
      exact List.eq_replicate_iff.mpr ⟨length, zero⟩
    rw [zeros left leftLength leftZero, zeros right rightLength rightZero]

/-- The six comparisons are those of the represented numbers, and decimals that
compare equal are hashed as the same bytes. -/
theorem comparisons_exact {left right : Decimal format} (leftFormed : left.Formed)
    (rightFormed : right.Formed) :
    ((left.eq right = true ↔ left.signed = right.signed) ∧
      (left.notEq right = true ↔ left.signed ≠ right.signed) ∧
      (left.less right = true ↔ left.signed < right.signed) ∧
      (left.lessEq right = true ↔ left.signed ≤ right.signed) ∧
      (left.greater right = true ↔ right.signed < left.signed) ∧
      (left.greaterEq right = true ↔ right.signed ≤ left.signed)) ∧
    (left.eq right = true → left.arrayBytes = right.arrayBytes ∧
      ∀ (Hash : Type) (add : Hash → List UInt8 → Hash) (hash : Hash),
        left.hashAdd add hash = right.hashAdd add hash) := by
  have equal := leftFormed.eq_iff rightFormed
  have forward := leftFormed.less_iff rightFormed
  have backward := rightFormed.less_iff leftFormed
  refine ⟨⟨equal, ?_, forward, ?_, backward, ?_⟩, fun same => ?_⟩
  · simp [notEq, ← equal]
  · simp [lessEq, ← not_lt, ← backward]
  · simp [greaterEq, ← not_lt, ← forward]
  · have arrays := array_eq_of_eq leftFormed.length rightFormed.length same
    simp [hashAdd, arrayBytes, arrays]

theorem comparisons_exact_zeros :
    let zero : Decimal Format.bytes := ⟨false, [0, 0, 0]⟩
    let negativeZero : Decimal Format.bytes := ⟨true, [0, 0, 0]⟩
    zero.eq negativeZero = true ∧ zero.arrayBytes = negativeZero.arrayBytes := by
  intro zero negativeZero
  have equal : zero.eq negativeZero = true := by decide
  have formed : zero.Formed ∧ negativeZero.Formed := ⟨⟨rfl, by decide⟩, ⟨rfl, by decide⟩⟩
  exact ⟨equal, ((comparisons_exact formed.1 formed.2).2 equal).1⟩

end Decimal

end UnixCommons.Generics
