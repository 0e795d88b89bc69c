import UnixCommons.Generics.DecimalConstruct
import UnixCommons.Generics.DecimalProduct

/-!
# The integer part of a multi-limb decimal as a machine integer

`Decimal::integer` accumulates the elements from the top in the type asked for, which
may be narrower than an element or than the base. Before each step it compares what it
has with what the type leaves room for.

The accumulation is written over the arithmetic it uses, so that the machine's
arithmetic can be compared with that of the integers: nothing is ever reduced. The
result is then the integer part, or `Overflow` when its magnitude exceeds the type, or
the sign error when it is negative, fits by magnitude and the type is unsigned. `bool`
is the unsigned type of one bit here; its conversion of a large factor differs from a
reduction, but that factor is multiplied by zero.
-/

namespace UnixCommons.Generics

open Limbs Outcome Machine IntType
open Nat (ofDigits)

/-- The arithmetic of the accumulation: one element more, and the boundary element's
integer digits at the end. -/
structure Accumulation where
  step : Int → Nat → Int
  last : Int → Nat → Int

namespace Accumulation

/-- The arithmetic of the integers. -/
def unbounded (format : Format) : Accumulation where
  step ret limb := ret * format.base + limb
  last ret part := ret * format.fractionOver + part

/-- The arithmetic of the machine, with the operand types of the source. -/
def machine (format : Format) (type : IntType) : Accumulation where
  step ret limb :=
    let element := format.element.type
    type.wrap ((type.common element).add (type.mul ret element format.base) element limb)
  last ret part :=
    type.wrap ((type.common type).add (type.mul ret type (type.wrap format.fractionOver)) type
      (type.wrap part))

/-- Results that fit the type are exact. -/
structure Exact (arithmetic : Accumulation) (format : Format) (type : IntType) : Prop where
  step : ∀ ret limb : Nat, limb < format.base → ret * format.base + limb < type.limit →
    arithmetic.step ret limb = (ret * format.base + limb : Nat)
  last : ∀ ret part : Nat, ret * format.fractionOver + part < type.limit →
    arithmetic.last ret part = (ret * format.fractionOver + part : Nat)

theorem unbounded_exact {format : Format} {type : IntType} : (unbounded format).Exact format type where
  step ret limb _ _ := by simp [unbounded]
  last ret part _ := by simp [unbounded]

/-- A factor too large for the type is multiplied by zero. -/
theorem machine_exact {format : Format} {type : IntType} :
    (machine format type).Exact format type where
  step ret limb digit fits := by
    have positive := format.base_positive
    have base : format.base < format.element.type.limit := by
      rw [Element.type_limit]
      exact format.element.base_lt_modulus
    have kept := Nat.le_mul_of_pos_right ret positive
    have common := (type.limit_le_common format.element.type).1
    simp only [machine]
    rw [mul_natCast _ _ (by omega) base (by omega),
      add_natCast _ _ (by omega) (by omega), wrap_natCast fits]
  last ret part fits := by
    have positive := format.fractionOver_positive
    have kept := Nat.le_mul_of_pos_right ret positive
    have common := (type.limit_le_common type).1
    have product : type.mul ret type (type.wrap format.fractionOver) =
        (ret * format.fractionOver : Nat) := by
      by_cases narrow : format.fractionOver < type.limit
      · rw [wrap_natCast narrow, mul_natCast _ _ (by omega) narrow (by omega)]
      · have none : ret = 0 := by
          by_contra some
          have := Nat.le_mul_of_pos_left format.fractionOver (pos_of_ne_zero some)
          omega
        simp [none, mul]
    simp only [machine]
    rw [product, wrap_natCast (by omega),
      add_natCast _ _ (by omega) (by omega), wrap_natCast fits]

end Accumulation

namespace Decimal

variable {format : Format}

/-- The loop of `Decimal::integer` over the elements above the boundary, from the top. -/
def integerLoop (arithmetic : Accumulation) (type : IntType) (base : Nat) :
    List Nat → Int → Except Failure Int
  | [], ret => .ok ret
  | limb :: rest, ret =>
    let integMax := type.limit - 1
    if limb ≤ integMax ∧ uint64.wrap ret ≤ ((integMax - limb) / base : Nat) then
      integerLoop arithmetic type base rest (arithmetic.step ret limb)
    else .error .overflow

/-- `Decimal::integer` with a given arithmetic. -/
def integerWith (arithmetic : Accumulation) (type : IntType) (decimal : Decimal format) :
    Except Failure Int :=
  if format.integerRank = 0 then .ok 0
  else do
    let integMax := type.limit - 1
    let ret ← integerLoop arithmetic type format.base
      (decimal.array.drop (format.fractionEnd + 1)).reverse 0
    let part := decimal.array.getD format.fractionEnd 0 / format.fractionRemainder
    if integMax < part ∨ ((integMax - part) / format.fractionOver : Nat) < uint64.wrap ret then
      throw .overflow
    else
      let ret := arithmetic.last ret part
      if decimal.negative ∧ ret ≠ 0 ∧ type.signed = false then throw .sign
      else return if decimal.negative then type.wrap (type.promote.wrap (-ret)) else ret

/-- `Decimal::integer`. -/
def integer (type : IntType) (decimal : Decimal format) : Except Failure Int :=
  integerWith (.machine format type) type decimal

/-- The comparison with what the type leaves room for is the comparison of the result. -/
theorem room_iff {limit factor : Nat} (ret part : Nat) (positive : 0 < factor) (some : 0 < limit) :
    part ≤ limit - 1 ∧ ret ≤ (limit - 1 - part) / factor ↔ ret * factor + part < limit := by
  constructor
  · rintro ⟨small, room⟩
    have := (Nat.le_div_iff_mul_le positive).mp room
    omega
  · intro fits
    exact ⟨by omega, (Nat.le_div_iff_mul_le positive).mpr (by omega)⟩

/-- The loop accumulates the elements exactly, or overflows because what it has is already
too large. The induction is on the elements left. -/
theorem integerLoop_exact {arithmetic : Accumulation} {type : IntType}
    (exact : arithmetic.Exact format type) (limbs : List Nat) {ret : Nat}
    (bounded : Bounded format.base limbs) (small : ret < type.limit) :
    integerLoop arithmetic type format.base limbs ret =
      if horner format.base ret limbs < type.limit then .ok (horner format.base ret limbs : Nat)
      else .error .overflow := by
  have positive := format.base_positive
  have word := type.limit_le_word
  induction limbs generalizing ret with
  | nil => simp [integerLoop, horner, small]
  | cons limb rest ih =>
    obtain ⟨digit, restBounded⟩ := bounded_cons.mp bounded
    have room := room_iff ret limb positive type.limit_positive
    have cast : uint64.wrap ret = ret :=
      wrap_natCast (by simp [limit, uint64]; omega)
    have next : horner format.base ret (limb :: rest) =
        horner format.base (ret * format.base + limb) rest := rfl
    simp only [integerLoop, cast, Int.ofNat_le, next]
    by_cases fits : ret * format.base + limb < type.limit
    · rw [if_pos (room.mpr fits), exact.step ret limb digit fits, @ih _ restBounded fits]
    · have grows := le_horner positive (ret * format.base + limb) rest
      rw [if_neg (mt room.mp fits), if_neg (by omega)]

/-- The integer part by its elements. -/
theorem whole_value {decimal : Decimal format} (inRange : decimal.InRange)
    (some : format.integerRank ≠ 0) :
    horner format.base 0 (decimal.array.drop (format.fractionEnd + 1)).reverse *
        format.fractionOver + decimal.array.getD format.fractionEnd 0 / format.fractionRemainder =
      decimal.magnitude / 10 ^ format.fractionRank := by
  have inside : format.fractionEnd < decimal.array.length := by
    rw [inRange.length]
    exact format.fractionEnd_size.2.1 (.inl some)
  rw [horner_reverse, magnitude, (MulTmpArray.dropped_digits format inside inRange.bounded).2,
    mul_comm, add_comm]

/-- A magnitude within a signed type, or none, survives the negation. -/
theorem negated_eq {type : IntType} {whole : Nat} (small : whole < type.limit)
    (kind : whole = 0 ∨ type.signed = true) :
    type.wrap (type.promote.wrap (-(whole : Int))) = -whole := by
  rcases kind with rfl | signed
  · simp
  · have wider := type.limit_le_promote
    have promoted : type.promote.signed = true := by
      unfold promote
      split_ifs
      · rfl
      · exact signed
    have holds (other : IntType) (negative : other.signed = true) (room : whole < other.limit) :
        other.Holds (-(whole : Int)) := by
      simp only [IntType.Holds, negative, if_true]
      omega
    rw [wrap_of_holds (holds _ promoted (by omega)), wrap_of_holds (holds _ signed small)]

/-- Exact arithmetic gives the integer part, the overflow of its magnitude, or the sign
error. -/
theorem integerWith_eq {arithmetic : Accumulation} {type : IntType}
    (exact : arithmetic.Exact format type) {decimal : Decimal format} (inRange : decimal.InRange) :
    integerWith arithmetic type decimal =
      let whole := decimal.magnitude / 10 ^ format.fractionRank
      if type.limit ≤ whole then .error .overflow
      else if decimal.negative ∧ whole ≠ 0 ∧ type.signed = false then .error .sign
      else .ok (if decimal.negative then -(whole : Int) else whole) := by
  have some := type.limit_positive
  have word := type.limit_le_word
  unfold integerWith
  by_cases none : format.integerRank = 0
  · have small := inRange.magnitude_lt
    rw [← format.integer_limit, none, pow_zero, one_mul] at small
    simp [none, Nat.div_eq_of_lt small, some.ne']
  have positive := format.fractionOver_positive
  have value := whole_value inRange none
  have loop := integerLoop_exact exact (decimal.array.drop (format.fractionEnd + 1)).reverse
    (fun limb inside => inRange.bounded.drop _ limb (List.mem_reverse.mp inside)) some
  rw [Nat.cast_zero] at loop
  rw [if_neg none, loop, ← value]
  generalize horner format.base 0 (decimal.array.drop (format.fractionEnd + 1)).reverse = upper
  generalize decimal.array.getD format.fractionEnd 0 / format.fractionRemainder = part
  have grows := Nat.le_mul_of_pos_right upper positive
  by_cases fits : upper < type.limit
  · have cast : uint64.wrap upper = upper :=
      wrap_natCast (by simp [limit, uint64]; omega)
    have room := room_iff upper part positive some
    rw [if_pos fits]
    simp only [ok_bind, cast, Int.ofNat_lt]
    by_cases small : upper * format.fractionOver + part < type.limit
    · rw [if_neg (by omega), if_neg (Nat.not_le.mpr small), exact.last upper part small]
      generalize upper * format.fractionOver + part = whole at small ⊢
      simp only [ne_eq, Nat.cast_eq_zero]
      by_cases wrong : decimal.negative = true ∧ ¬ whole = 0 ∧ type.signed = false
      · rw [if_pos wrong, if_pos wrong]
        rfl
      · cases sign : decimal.negative with
        | false => rfl
        | true =>
          have kind : whole = 0 ∨ type.signed = true := by
            by_contra neither
            simp only [not_or, Bool.not_eq_true] at neither
            exact wrong ⟨sign, neither⟩
          simp only [negated_eq small kind]
          rfl
    · rw [if_pos (by omega), if_pos (le_of_not_gt small)]
      rfl
  · have large : type.limit ≤ upper * format.fractionOver + part := by omega
    rw [if_neg fits, if_pos large]
    rfl

/-- The integer part by sign and magnitude. -/
theorem signed_tdiv (decimal : Decimal format) (unit : Nat) :
    decimal.signed.tdiv unit = if decimal.negative then -((decimal.magnitude / unit : Nat) : Int)
      else (decimal.magnitude / unit : Nat) := by
  cases sign : decimal.negative with
  | false => simp [signed, number, SignedMagnitude.toInt, sign]
  | true => simp [signed, number, SignedMagnitude.toInt, sign]

/-- The outcome in terms of the signed integer part. -/
theorem integer_eq (type : IntType) {decimal : Decimal format} (inRange : decimal.InRange) :
    decimal.integer type =
      let whole := decimal.signed.tdiv (10 ^ format.fractionRank : Nat)
      if type.limit ≤ whole.natAbs then .error .overflow
      else if whole < 0 ∧ type.signed = false then .error .sign
      else .ok whole := by
  rw [integer, integerWith_eq Accumulation.machine_exact inRange, signed_tdiv]
  generalize decimal.magnitude / 10 ^ format.fractionRank = units
  cases decimal.negative with
  | false =>
    have natural : ¬ (units : Int) < 0 := by omega
    simp [natural]
  | true => simp [pos_iff_ne_zero]

/-- `Decimal::integer` returns the signed integer part, throws `Overflow` exactly when
its magnitude exceeds the type, and the sign error exactly when it is negative, does not
exceed the type by magnitude and the type is unsigned. The accumulation is that of the
integers: nothing is reduced on the way. -/
theorem integer_exact (type : IntType) (decimal : Decimal format) (inRange : decimal.InRange) :
    let whole := decimal.signed.tdiv (10 ^ format.fractionRank : Nat)
    (∀ value, decimal.integer type = .ok value ↔
        whole.natAbs < type.limit ∧ (0 ≤ whole ∨ type.signed = true) ∧ value = whole) ∧
      (decimal.integer type = .error .overflow ↔ type.limit ≤ whole.natAbs) ∧
      (decimal.integer type = .error .sign ↔
        whole.natAbs < type.limit ∧ whole < 0 ∧ type.signed = false) ∧
      decimal.integer type = decimal.integerWith (.unbounded format) type := by
  have same : decimal.integer type = decimal.integerWith (.unbounded format) type :=
    (integerWith_eq Accumulation.machine_exact inRange).trans
      (integerWith_eq Accumulation.unbounded_exact inRange).symm
  have outcome := integer_eq type inRange
  dsimp only at outcome ⊢
  generalize decimal.signed.tdiv (10 ^ format.fractionRank : Nat) = whole at outcome
  refine ⟨?_, ?_, ?_, same⟩
  · intro value
    rw [outcome]
    by_cases large : type.limit ≤ whole.natAbs
    · simp [large]
    · cases kind : type.signed with
      | true => simp [large, lt_of_not_ge large, eq_comm]
      | false =>
        by_cases negative : whole < 0
        · simp [large, negative]
        · simp [large, negative, lt_of_not_ge large, Int.le_of_not_gt negative, eq_comm]
  · rw [outcome]
    split_ifs with large wrong <;> simp [large]
  · rw [outcome]
    split_ifs with large wrong
    · simp [Nat.not_lt.mpr large]
    · simp [lt_of_not_ge large, wrong]
    · simpa using fun _ => wrong

/-- A negative number too large for an unsigned type: the overflow comes first. -/
theorem integer_overflows_first :
    let decimal : Decimal .bytes := ⟨true, [0, 0, 3]⟩
    decimal.InRange ∧ decimal.signed.tdiv 100 < 0 ∧ uint8.signed = false ∧
      decimal.integer .uint8 = .error .overflow := by
  decide

theorem integer_exact_bytes :
    let decimal : Decimal .bytes := ⟨true, [99, 27, 1]⟩
    decimal.integer ⟨8, true, by decide, by decide⟩ = .ok (-127) := by
  intro decimal
  exact ((integer_exact ⟨8, true, by decide, by decide⟩ decimal (by decide)).1 (-127)).mpr (by decide)

end Decimal

end UnixCommons.Generics
