import UnixCommons.Generics.Decimal
import UnixCommons.Library.MachineInteger

/-!
# Multi-limb decimals built from machine integers

The class has two constructors from integers: from a sign with an integer and a
fraction part, and from a numerator with a power of ten. Both are templates over
the integer types of their arguments, so each digit is cut off by a remainder and
a quotient of two operands of different types.

For arguments that are not negative the cutting is exact, and the laws state the
stored magnitude and the reason of each `Overflow`. The bound of the top element is
applied only where the integer part reaches that element through its own step. When
the top element is also the boundary element, an integer part of too many digits is
stored; the laws leave that case visible.
-/

namespace UnixCommons.Generics

open Limbs Outcome Machine List
open Nat (ofDigits)

namespace Element

/-- The element as a machine integer type. -/
def type : Element → IntType
  | uint8 => .uint8
  | uint16 => .uint16
  | uint32 => .uint32
  | uint64 => .uint64

/-- Conversion of any integer to the element. -/
def cast (element : Element) (value : Int) : Nat := (value % (element.modulus : Int)).toNat

/-- `x % m` converted to the element and `x / m` converted back to the type of `x`. -/
def cut (element : Element) (type : IntType) (value : Int) (modulus : Nat) : Nat × Int :=
  (element.cast (type.rem value element.type modulus),
    type.wrap (type.quot value element.type modulus))

/-- Cutting off a number of digits of the base, lowest first. -/
def cutDigits (element : Element) (type : IntType) : Nat → Int → List Nat × Int
  | 0, value => ([], value)
  | count + 1, value =>
      let (digit, value) := element.cut type value element.base
      let (rest, value) := cutDigits element type count value
      (digit :: rest, value)

/-- The same loop with its early end when nothing is left. -/
def cutNonzero (element : Element) (type : IntType) : Nat → Int → List Nat × Int
  | 0, value => ([], value)
  | count + 1, value =>
      if value ≠ 0 then
        let (digit, value) := element.cut type value element.base
        let (rest, value) := cutNonzero element type count value
        (digit :: rest, value)
      else ([], value)

variable (element : Element)
include element

theorem type_limit : element.type.limit = element.modulus := by
  cases element <;> rfl

theorem cast_natCast (value : Nat) : element.cast value = element.wrap value := by
  rw [cast, wrap, ← Int.natCast_emod, Int.toNat_natCast]

/-- Cutting a number that is not negative is division of natural numbers. -/
theorem cut_natCast {type : IntType} {modulus : Nat} (value : Nat) (small : value < type.limit)
    (positive : 0 < modulus) (digit : modulus ≤ element.base) :
    element.cut type value modulus = (value % modulus, ((value / modulus : Nat) : Int)) := by
  have narrow := lt_of_le_of_lt digit element.base_lt_modulus
  have divisor : modulus < element.type.limit := element.type_limit ▸ narrow
  rw [cut, IntType.rem_natCast _ _ _ _ small divisor, IntType.quot_natCast _ _ _ _ small divisor,
    cast_natCast, wrap_eq (lt_trans (Nat.mod_lt _ positive) narrow),
    IntType.wrap_natCast (lt_of_le_of_lt (Nat.div_le_self _ _) small)]

/-- The lowest digits of a value. -/
structure Lowest (base count value : Nat) (digits : List Nat) : Prop where
  length : digits.length = count
  bounded : Bounded base digits
  value : ofDigits base digits = value % base ^ count

/-- The digits cut off and what is left determine the value. -/
theorem cutDigits_exact {type : IntType} {count value : Nat} (small : value < type.limit) :
    ∃ digits, element.cutDigits type count value =
        (digits, ((value / element.base ^ count : Nat) : Int)) ∧
      Lowest element.base count value digits := by
  induction count generalizing value with
  | zero => exact ⟨[], by simp [cutDigits], rfl, bounded_nil, by simp [Nat.mod_one]⟩
  | succ count ih =>
    obtain ⟨digits, cutRest, length, bounded, rest⟩ := @ih (value / element.base)
      (lt_of_le_of_lt (Nat.div_le_self _ _) small)
    refine ⟨value % element.base :: digits, ?_, by rw [length_cons, length], ?_, ?_⟩
    · simp only [cutDigits, cut_natCast element value small
        element.base_positive le_rfl, cutRest]
      rw [Nat.div_div_eq_div_mul, pow_succ']
    · exact bounded_cons.mpr ⟨Nat.mod_lt _ element.base_positive, bounded⟩
    · rw [Nat.ofDigits_cons, rest, pow_succ', Nat.mod_mul]

/-- The early end of the loop is reached only when the rest is zero. -/
theorem cutNonzero_exact {type : IntType} {count value : Nat} (small : value < type.limit) :
    ∃ digits, element.cutNonzero type count value =
        (digits, ((value / element.base ^ count : Nat) : Int)) ∧
      digits.length ≤ count ∧ Bounded element.base digits ∧
      ofDigits element.base digits = value % element.base ^ count ∧
      (digits.length < count → value / element.base ^ count = 0) := by
  induction count generalizing value with
  | zero => exact ⟨[], by simp [cutNonzero], le_refl _, bounded_nil, by simp [Nat.mod_one], by simp⟩
  | succ count ih =>
    by_cases blank : value = 0
    · subst blank
      exact ⟨[], by simp [cutNonzero], by simp, bounded_nil, by simp, by simp⟩
    · obtain ⟨digits, cutRest, length, bounded, rest, early⟩ := @ih (value / element.base)
        (lt_of_le_of_lt (Nat.div_le_self _ _) small)
      have shift : value / element.base / element.base ^ count =
          value / element.base ^ (count + 1) := by rw [Nat.div_div_eq_div_mul, pow_succ']
      refine ⟨value % element.base :: digits, ?_, by rw [length_cons]; omega, ?_, ?_, ?_⟩
      · have nonzero : (value : Int) ≠ 0 := by exact_mod_cast blank
        simp only [cutNonzero, if_pos nonzero, cut_natCast element value small
          element.base_positive le_rfl, cutRest, shift]
      · exact bounded_cons.mpr ⟨Nat.mod_lt _ element.base_positive, bounded⟩
      · rw [Nat.ofDigits_cons, rest, pow_succ', Nat.mod_mul]
      · intro shorter
        rw [← shift]
        exact early (by rw [length_cons] at shorter; omega)

end Element

/-- `DecimalHelper::exceeds`, whose parameters are 64-bit unsigned. -/
def exceeds (value : Int) (bound : Nat) : Bool := decide (bound ≤ (value % 2 ^ 64).toNat)

/-- `DecimalHelper::split`: magnitude and sign. The most negative value of a signed
type fails the assertion. -/
def split (type : IntType) (integer : Int) : Except Failure (Int × Bool) :=
  if type.signed ∧ integer < 0 then do
    check (decide (-((type.limit : Int) - 1) ≤ integer))
    return (-integer, true)
  else .ok (integer, false)

namespace Decimal

variable {format : Format}

/-- The elements above the boundary element, from what the boundary left of the
integer part. The top element has a step of its own, with its own bound. -/
def upperElements (format : Format) (type : IntType) (quotient : Int) : List Nat × Int :=
  let (middle, quotient) := format.element.cutDigits type
    (format.size - 1 - (format.fractionEnd + 1)) quotient
  if format.fractionEnd + 1 ≤ format.size - 1 then
    let (top, quotient) := format.element.cut type quotient format.integerMaxOver
    (middle ++ [top], quotient)
  else (middle, quotient)

/-- `Decimal::construct_` from parts. The write to the boundary element falls behind
the array when the fraction fills all elements; such a write is dropped. -/
def ofParts (format : Format) (negative : Bool) (integerType fractionType : IntType)
    (integer fraction : Int) : Except Failure (Decimal format) :=
  let (low, fraction) := format.element.cutDigits fractionType format.fractionEnd fraction
  if exceeds fraction format.fractionRemainder then .error .overflow
  else
    let (share, quotient) := format.element.cut integerType integer format.fractionOver
    let boundary := format.element.cast (fraction + (share * format.fractionRemainder : Nat))
    let (upper, left) :=
      if format.integerRank = 0 then ([], integer)
      else upperElements format integerType quotient
    if left ≠ 0 then .error .overflow
    else .ok ⟨negative, (low ++ boundary :: upper).take format.size⟩

/-- The low elements of a number shifted up by some digits: zeros, and an element
of its own when the shift ends inside one. -/
def shiftedElements (format : Format) (type : IntType) (integer : Int) (diff : Nat) :
    List Nat × Int :=
  let zeros := List.replicate (diff / format.digits) 0
  if diff % format.digits ≠ 0 then
    let mask := 10 ^ (format.digits - diff % format.digits)
    let (share, integer) := format.element.cut type integer mask
    (zeros ++ [format.element.wrap (share * (format.base / mask))], integer)
  else (zeros, integer)

/-- The elements above the low ones. The bound of the top element is applied only if
the loop reaches it. -/
def remainingElements (format : Format) (type : IntType) (low : List Nat) (integer : Int) :
    List Nat × Int :=
  let (middle, integer) := format.element.cutNonzero type (format.size - 1 - low.length) integer
  let low := low ++ middle
  if low.length = format.size - 1 then
    let (top, integer) := format.element.cut type integer format.integerMaxOver
    (low ++ [top], integer)
  else (low ++ List.replicate (format.size - low.length) 0, integer)

/-- `Decimal::construct_` from a numerator and a power of ten. -/
def ofPower (format : Format) (type : IntType) (integer : Int) (power : Nat) :
    Except Failure (Decimal format) :=
  if type.digits10 + format.fractionRank ≤ power ∨ integer = 0 then
    .ok ⟨false, List.replicate format.size 0⟩
  else do
    let (integer, negative) ← split type integer
    let integer :=
      if format.fractionRank < power then
        type.wrap (type.quot integer type (10 ^ (power - format.fractionRank) : Nat))
      else integer
    let (low, integer) := shiftedElements format type integer
      (format.fractionRank - min power format.fractionRank)
    let (array, integer) := remainingElements format type low integer
    if integer ≠ 0 then .error .overflow else .ok ⟨negative, array⟩

/-- `Decimal::EPSILON`: one unit of the last digit. -/
def epsilon (format : Format) : Except Failure (Decimal format) :=
  ofParts format false .int32 .int32 (if format.fractionRank = 0 then 1 else 0)
    (if format.fractionRank = 0 then 0 else 1)

theorem exceeds_natCast {value bound : Nat} (small : value < 2 ^ 64) :
    exceeds value bound = decide (bound ≤ value) := by
  have word : ((value : Int) % 2 ^ 64).toNat = value := by omega
  rw [exceeds, word]

variable (format : Format) (type : IntType)

/-- The elements above the boundary hold the quotient, or report that it does not
fit below the top limit. -/
theorem upperElements_exact {quotient : Nat} (small : quotient < type.limit)
    (above : format.fractionEnd + 1 ≤ format.size - 1) :
    ∃ upper left, upperElements format type quotient = (upper, ((left : Nat) : Int)) ∧
      upper.length = format.size - (format.fractionEnd + 1) ∧ Bounded format.base upper ∧
      (left = 0 ↔ quotient < format.base ^ (format.size - 1 - (format.fractionEnd + 1)) *
        format.integerMaxOver) ∧
      (left = 0 → ofDigits format.base upper = quotient) := by
  obtain ⟨middle, cutMiddle, length, bounded, value⟩ := format.element.cutDigits_exact small
  rw [format.element_base] at cutMiddle value
  rw [upperElements, cutMiddle]
  generalize power : format.base ^ (format.size - 1 - (format.fractionEnd + 1)) = unit at *
  have positive : 0 < unit := power ▸ Nat.pow_pos format.base_positive
  have topDigit := format.integerMaxOver_positive
  have cutTop := format.element.cut_natCast (quotient / unit)
    (lt_of_le_of_lt (Nat.div_le_self _ _) small) topDigit format.integerMaxOver_le_base
  have fits : quotient / unit / format.integerMaxOver = 0 ↔
      quotient < unit * format.integerMaxOver := by
    rw [Nat.div_div_eq_div_mul, Nat.div_eq_zero_iff_lt (mul_pos positive topDigit)]
  dsimp only
  rw [if_pos above, cutTop]
  refine ⟨_, _, rfl, ?_, ?_, fits, fun settled => ?_⟩
  · rw [length_append, length_singleton]
    omega
  · refine bounded_append.mpr ⟨bounded, bounded_cons.mpr ⟨?_, bounded_nil⟩⟩
    exact lt_of_lt_of_le (Nat.mod_lt _ topDigit) format.integerMaxOver_le_base
  · have below := (Nat.div_eq_zero_iff_lt topDigit).mp settled
    rw [Nat.ofDigits_append, Nat.ofDigits_singleton, value, length, power,
      Nat.mod_eq_of_lt below, Nat.mod_add_div]

/-- Without elements above the boundary, everything the boundary left of the
integer part is left over. -/
theorem upperElements_shared {quotient : Int} (shared : ¬format.fractionEnd + 1 ≤ format.size - 1) :
    upperElements format type quotient = ([], quotient) := by
  have none : format.size - 1 - (format.fractionEnd + 1) = 0 := by omega
  rw [upperElements, none]
  exact if_neg shared

/-- The boundary element takes the rest of the fraction and the lowest digits of
the integer part. -/
theorem boundary_exact {integer fraction : Nat} (short : fraction < 10 ^ format.fractionRank) :
    fraction / format.base ^ format.fractionEnd +
        integer % format.fractionOver * format.fractionRemainder < format.base ∧
      fraction % format.base ^ format.fractionEnd + format.base ^ format.fractionEnd *
        (fraction / format.base ^ format.fractionEnd +
          integer % format.fractionOver * format.fractionRemainder +
          format.base * (integer / format.fractionOver)) =
        integer * 10 ^ format.fractionRank + fraction := by
  have weight := format.fraction_weight
  generalize format.base ^ format.fractionEnd = power at *
  have part : fraction / power < format.fractionRemainder :=
    Nat.div_lt_of_lt_mul (weight ▸ short)
  have split := Nat.mod_add_div fraction power
  have shares := Nat.mod_add_div integer format.fractionOver
  constructor
  · have := share_add_le format.fractionRemainder
      (Nat.mod_lt integer format.fractionOver_positive)
    rw [mul_comm, format.remainder_over] at this
    omega
  · calc _ = fraction % power + power * (fraction / power) + power * (integer %
            format.fractionOver * format.fractionRemainder +
              format.base * (integer / format.fractionOver)) := by ring
      _ = fraction + power * format.fractionRemainder *
          (integer % format.fractionOver + format.fractionOver *
            (integer / format.fractionOver)) := by
          rw [split, ← format.remainder_over]
          ring
      _ = _ := by rw [shares, weight]; ring

/-- What a successful construction from parts stores. The integer part respects its
rank unless it shares the top element with the fraction. -/
structure PartsStored (format : Format) (negative : Bool) (integer fraction : Nat)
    (result : Decimal format) : Prop where
  sign : result.negative = negative
  length : result.array.length = format.size
  bounded : Bounded format.base result.array
  magnitude : result.magnitude = integer * 10 ^ format.fractionRank + fraction
  fractionFits : fraction < 10 ^ format.fractionRank
  integerFits : integer < 10 ^ format.integerRank ∨
    format.integerRank ≠ 0 ∧ format.fractionEnd + 1 = format.size ∧ integer < format.fractionOver

/-- The elements below the boundary, the boundary and the elements above it hold the
parts. -/
theorem stored_of_upper {format : Format} {negative : Bool} {integer fraction limb : Nat}
    {low upper : List Nat} (lowest : Element.Lowest format.base format.fractionEnd fraction low)
    (digit : limb < format.base)
    (value : fraction % format.base ^ format.fractionEnd + format.base ^ format.fractionEnd *
        (limb + format.base * (integer / format.fractionOver)) =
      integer * 10 ^ format.fractionRank + fraction)
    (short : fraction < 10 ^ format.fractionRank)
    (length : format.fractionEnd + 1 + upper.length = format.size)
    (bounded : Bounded format.base upper)
    (upperValue : ofDigits format.base upper = integer / format.fractionOver)
    (fits : integer < 10 ^ format.integerRank ∨ format.integerRank ≠ 0 ∧
      format.fractionEnd + 1 = format.size ∧ integer < format.fractionOver) :
    PartsStored format negative integer fraction
      ⟨negative, (low ++ limb :: upper).take format.size⟩ := by
  have whole : (low ++ limb :: upper).length = format.size := by
    rw [length_append, length_cons, lowest.length]
    omega
  rw [take_of_length_le (le_of_eq whole)]
  refine ⟨rfl, whole, bounded_append.mpr ⟨lowest.bounded, bounded_cons.mpr
    ⟨digit, bounded⟩⟩, ?_, short, fits⟩
  rw [Decimal.magnitude, Nat.ofDigits_append, Nat.ofDigits_cons, lowest.value, lowest.length,
    upperValue, value]

/-- A boundary behind the array takes nothing: the elements below it hold the whole
fraction. -/
theorem stored_of_behind {format : Format} {negative : Bool} {fraction limb : Nat} {low : List Nat}
    (lowest : Element.Lowest format.base format.fractionEnd fraction low)
    (short : fraction < 10 ^ format.fractionRank)
    (behind : format.fractionEnd + 1 ≠ format.size) (noInteger : format.integerRank = 0) :
    PartsStored format negative 0 fraction ⟨negative, (low ++ [limb]).take format.size⟩ := by
  obtain ⟨below, inside, above⟩ := format.fractionEnd_size
  have size : format.size = format.fractionEnd := by omega
  have whole : format.fractionRemainder = 1 := by omega
  have weight := format.fraction_weight
  rw [whole] at weight
  have all : fraction < format.base ^ format.fractionEnd := by omega
  rw [size, take_left' lowest.length]
  refine ⟨rfl, lowest.length.trans size.symm, lowest.bounded, ?_, short,
    .inl (Nat.pow_pos (by decide))⟩
  rw [Decimal.magnitude, lowest.value, Nat.mod_eq_of_lt all, zero_mul, zero_add]

/-- Construction from parts that are not negative. -/
theorem ofParts_ends (negative : Bool) {integerType fractionType : IntType} {integer fraction : Nat}
    (integerSmall : integer < integerType.limit) (fractionSmall : fraction < fractionType.limit) :
    Ends (ofParts format negative integerType fractionType integer fraction)
      (PartsStored format negative integer fraction)
      (fun failure => failure = .overflow ∧
        (10 ^ format.fractionRank ≤ fraction ∨ 10 ^ format.integerRank ≤ integer)) := by
  obtain ⟨low, cutLow, lowest⟩ := format.element.cutDigits_exact fractionSmall
  have cutShare := format.element.cut_natCast integer integerSmall
    format.fractionOver_positive format.fractionOver_le_base
  have power : 0 < format.base ^ format.fractionEnd := Nat.pow_pos format.base_positive
  rw [format.element_base] at cutLow lowest
  have word : fraction / format.base ^ format.fractionEnd < 2 ^ 64 :=
    lt_of_le_of_lt (Nat.div_le_self _ _)
      (lt_of_lt_of_le fractionSmall fractionType.limit_le_word)
  have test : format.fractionRemainder ≤ fraction / format.base ^ format.fractionEnd ↔
      10 ^ format.fractionRank ≤ fraction := by
    rw [Nat.le_div_iff_mul_le power, mul_comm, format.fraction_weight]
  unfold ofParts
  rw [cutLow]
  dsimp only
  rw [exceeds_natCast word, cutShare]
  by_cases long : 10 ^ format.fractionRank ≤ fraction
  · rw [if_pos (by simpa using test.mpr long)]
    exact ⟨rfl, .inl long⟩
  rw [if_neg (by simpa using mt test.mp long)]
  have short := lt_of_not_ge long
  obtain ⟨digit, value⟩ := boundary_exact format short
  have boundary : format.element.cast (((fraction / format.base ^ format.fractionEnd : Nat) : Int) +
      (integer % format.fractionOver * format.fractionRemainder : Nat)) =
      fraction / format.base ^ format.fractionEnd +
        integer % format.fractionOver * format.fractionRemainder := by
    rw [← Int.natCast_add, Element.cast_natCast,
      Element.wrap_eq (lt_trans digit format.element.base_lt_modulus)]
  rw [boundary]
  obtain ⟨-, inside, -⟩ := format.fractionEnd_size
  by_cases noInteger : format.integerRank = 0
  · rw [if_pos noInteger]
    dsimp only
    by_cases blank : integer = 0
    · subst blank
      by_cases room : format.fractionEnd + 1 = format.size
      · exact stored_of_upper lowest digit value short room bounded_nil
          (by simp) (.inl (Nat.pow_pos (by decide)))
      · exact stored_of_behind lowest short room noInteger
    · rw [if_pos (by exact_mod_cast blank)]
      refine ⟨rfl, .inr ?_⟩
      rw [noInteger]
      omega
  · rw [if_neg noInteger]
    by_cases room : format.fractionEnd + 1 ≤ format.size - 1
    · obtain ⟨upper, left, computed, length, bounded, settled, upperValue⟩ :=
        upperElements_exact format integerType
          (lt_of_le_of_lt (Nat.div_le_self _ _) integerSmall) room
      have limit : left = 0 ↔ integer < 10 ^ format.integerRank := by
        rw [settled, ← format.integer_weight room,
          Nat.div_lt_iff_lt_mul format.fractionOver_positive, mul_comm]
      rw [computed]
      dsimp only
      by_cases fits : left = 0
      · rw [if_neg (by simp [fits])]
        exact stored_of_upper lowest digit value short (by omega) bounded (upperValue fits)
          (.inl (limit.mp fits))
      · rw [if_pos (by exact_mod_cast fits)]
        exact ⟨rfl, .inr (le_of_not_gt (mt limit.mpr fits))⟩
    · rw [upperElements_shared format integerType room]
      have shared : format.fractionEnd + 1 = format.size := by omega
      by_cases fits : integer < format.fractionOver
      · rw [if_neg (by rw [Nat.div_eq_of_lt fits]; simp)]
        exact stored_of_upper lowest digit value short shared bounded_nil
          (by rw [Nat.div_eq_of_lt fits]; rfl) (.inr ⟨noInteger, shared, fits⟩)
      · rw [if_pos (by
          have := Nat.div_pos (le_of_not_gt fits) format.fractionOver_positive
          omega)]
        exact ⟨rfl, .inr (le_trans (format.integer_le_over shared) (le_of_not_gt fits))⟩

/-- Parts that respect their ranks stay below the total rank together. -/
theorem parts_lt {integer fraction : Nat} (integerFits : integer < 10 ^ format.integerRank)
    (fractionFits : fraction < 10 ^ format.fractionRank) :
    integer * 10 ^ format.fractionRank + fraction < 10 ^ format.totalRank := by
  have := Nat.mul_le_mul_right (10 ^ format.fractionRank) integerFits
  rw [format.integer_limit, Nat.succ_mul] at this
  omega

/-- Parts that respect their ranks are constructed exactly and in range. -/
theorem ofParts_fits (negative : Bool) (integerType fractionType : IntType) {integer fraction : Nat}
    (integerSmall : integer < integerType.limit) (fractionSmall : fraction < fractionType.limit)
    (integerFits : integer < 10 ^ format.integerRank)
    (fractionFits : fraction < 10 ^ format.fractionRank) :
    ∃ result, ofParts format negative integerType fractionType integer fraction = .ok result ∧
      result.InRange ∧
      result.number = ⟨negative, integer * 10 ^ format.fractionRank + fraction⟩ := by
  have construction := ofParts_ends format negative integerSmall fractionSmall
  cases result : ofParts format negative integerType fractionType integer fraction with
  | ok decimal =>
    rw [result] at construction
    refine ⟨decimal, rfl, .of_magnitude construction.length construction.bounded ?_, ?_⟩
    · rw [construction.magnitude]
      exact parts_lt format integerFits fractionFits
    · rw [number, construction.sign, construction.magnitude]
  | error failure =>
    rw [result] at construction
    obtain ⟨-, long | large⟩ := construction <;> omega

/-- `EPSILON` is constructed, in range, and one unit of the last digit. -/
theorem epsilon_exact :
    ∃ unit : Decimal format, epsilon format = .ok unit ∧ unit.InRange ∧
      unit.number = ⟨false, 1⟩ := by
  unfold epsilon
  have digits := format.totalPositive
  by_cases whole : format.fractionRank = 0
  · have fits : 1 < 10 ^ format.integerRank :=
      Nat.one_lt_pow (by unfold Format.integerRank; omega) (by decide)
    have built := ofParts_fits format false .int32 .int32 (by decide) (by decide) fits
      (Nat.pow_pos (by decide))
    simpa [whole] using built
  · have fits : 1 < 10 ^ format.fractionRank := Nat.one_lt_pow whole (by decide)
    have built := ofParts_fits format false .int32 .int32 (by decide) (by decide)
      (Nat.pow_pos (by decide)) fits
    simpa [whole] using built

/-- Shifting up by digits is exact; what does not fit the low elements is left. The
low elements reach behind the top element only in two cases. -/
theorem shiftedElements_exact {integer diff : Nat} (small : integer < type.limit)
    (shift : diff ≤ format.fractionRank) :
    ∃ low left, shiftedElements format type integer diff = (low, ((left : Nat) : Int)) ∧
      left < type.limit ∧ low.length ≤ format.size ∧ Bounded format.base low ∧
      ofDigits format.base low + format.base ^ low.length * left = integer * 10 ^ diff ∧
      (low.length = format.size → ofDigits format.base low = 0 ∨
        diff % format.digits ≠ 0 ∧ diff / format.digits + 1 = format.size) := by
  have two := format.digits_two
  have position := Nat.div_add_mod diff format.digits
  have inner := Nat.mod_lt diff (by omega : 0 < format.digits)
  have total := format.fractionBounded
  have sizeAbove := format.size_bounds.1
  have weight : 10 ^ diff = format.base ^ (diff / format.digits) * 10 ^ (diff % format.digits) := by
    rw [format.base_eq, ← pow_mul, ← pow_add, position]
  unfold shiftedElements
  by_cases aligned : diff % format.digits = 0
  · rw [if_neg (by simp [aligned])]
    refine ⟨_, integer, rfl, small, ?_, bounded_replicate_zero format.base_positive _, ?_,
      fun _ => .inl Nat.ofDigits_replicate_zero⟩
    · rw [length_replicate]
      apply Nat.le_of_mul_le_mul_left (c := format.digits) _ (by omega)
      rw [mul_comm format.digits format.size]
      omega
    · rw [Nat.ofDigits_replicate_zero, length_replicate, weight, aligned]
      ring
  · rw [if_pos aligned]
    dsimp only
    have whole : 10 ^ (diff % format.digits) * 10 ^ (format.digits - diff % format.digits) =
        format.base := by
      rw [format.base_eq, ← pow_add]
      congr 1
      omega
    have unitPositive : 0 < 10 ^ (diff % format.digits) := Nat.pow_pos (by decide)
    generalize 10 ^ (diff % format.digits) = unit at *
    generalize 10 ^ (format.digits - diff % format.digits) = mask at *
    have maskPositive : 0 < mask := Nat.pos_of_mul_pos_left (whole ▸ format.base_positive)
    have ratio : format.base / mask = unit := by rw [← whole, Nat.mul_div_cancel _ maskPositive]
    have narrow : mask ≤ format.base := whole ▸ Nat.le_mul_of_pos_left _ unitPositive
    have cutShare := format.element.cut_natCast integer small maskPositive narrow
    have split := Nat.mod_add_div integer mask
    have digit : integer % mask * unit < format.base := by
      rw [← whole, mul_comm]
      exact Nat.mul_lt_mul_of_pos_left (Nat.mod_lt _ maskPositive) unitPositive
    rw [cutShare, ratio]
    rw [Element.wrap_eq (lt_trans digit format.element.base_lt_modulus)]
    have reached : diff / format.digits + 1 ≤ format.size := by
      apply Nat.lt_of_mul_lt_mul_left (a := format.digits)
      rw [mul_comm format.digits format.size]
      omega
    refine ⟨_, _, rfl, lt_of_le_of_lt (Nat.div_le_self _ _) small, ?_, ?_, ?_, fun full => ?_⟩
    · rw [length_append, length_replicate]
      exact reached
    · exact bounded_append.mpr ⟨bounded_replicate_zero format.base_positive _,
        bounded_cons.mpr ⟨digit, bounded_nil⟩⟩
    · rw [Nat.ofDigits_append, Nat.ofDigits_replicate_zero, Nat.ofDigits_singleton,
        length_append, length_replicate, length_singleton, weight]
      calc _ = format.base ^ (diff / format.digits) *
            (integer % mask * unit + format.base * (integer / mask)) := by ring
        _ = format.base ^ (diff / format.digits) *
            (unit * (integer % mask + mask * (integer / mask))) := by
            nth_rewrite 2 [← whole]
            ring
        _ = _ := by rw [split]; ring
    · rw [length_append, length_replicate] at full
      exact .inr ⟨aligned, full⟩

/-- The elements above the low ones hold the rest of the number, or the number needs
more digits than the total rank. If the low elements leave room, the result respects
the total rank. -/
theorem remainingElements_exact {low : List Nat} {integer : Nat} (small : integer < type.limit)
    (room : low.length ≤ format.size) (bounded : Bounded format.base low) :
    ∃ array left, remainingElements format type low integer = (array, ((left : Nat) : Int)) ∧
      array.length = format.size ∧ Bounded format.base array ∧
      (left = 0 → ofDigits format.base array =
          ofDigits format.base low + format.base ^ low.length * integer ∧
        (low.length < format.size → ofDigits format.base array < 10 ^ format.totalRank)) ∧
      (left ≠ 0 → 10 ^ format.totalRank ≤
        ofDigits format.base low + format.base ^ low.length * integer) := by
  have sizePositive := format.size_positive
  have topDigit := format.integerMaxOver_positive
  obtain ⟨middle, cutMiddle, middleLength, middleBounded, middleValue, early⟩ :=
    format.element.cutNonzero_exact small
  rw [format.element_base] at cutMiddle middleValue early
  have lowBounded : Bounded format.base (low ++ middle) :=
    bounded_append.mpr ⟨bounded, middleBounded⟩
  unfold remainingElements
  rw [cutMiddle]
  dsimp only
  by_cases reached : (low ++ middle).length = format.size - 1
  · have position : low.length + (format.size - 1 - low.length) = format.size - 1 := by
      rw [length_append] at reached
      omega
    have lowValue := value_lt lowBounded
    rw [reached] at lowValue
    -- the number as its elements below the top one and what is left for that one
    have whole : ofDigits format.base low + format.base ^ low.length * integer =
        ofDigits format.base (low ++ middle) + format.base ^ (format.size - 1) *
          (integer / format.base ^ (format.size - 1 - low.length)) := by
      have weight : format.base ^ (format.size - 1) =
          format.base ^ low.length * format.base ^ (format.size - 1 - low.length) := by
        rw [← pow_add, position]
      rw [Nat.ofDigits_append, middleValue, weight, mul_assoc, add_assoc, ← mul_add,
        Nat.mod_add_div]
    rw [if_pos reached, format.element.cut_natCast _
      (lt_of_le_of_lt (Nat.div_le_self _ _) small) topDigit format.integerMaxOver_le_base, whole]
    generalize integer / format.base ^ (format.size - 1 - low.length) = rest
    refine ⟨_, _, rfl, ?_, ?_, fun settled => ?_, fun excess => ?_⟩
    · rw [length_append, length_singleton]
      omega
    · exact bounded_append.mpr ⟨lowBounded, bounded_cons.mpr
        ⟨lt_of_lt_of_le (Nat.mod_lt _ topDigit) format.integerMaxOver_le_base, bounded_nil⟩⟩
    · have below := (Nat.div_eq_zero_iff_lt topDigit).mp settled
      rw [Nat.ofDigits_append, Nat.mod_eq_of_lt below, reached]
      exact ⟨rfl, fun _ => format.lt_limit lowValue below⟩
    · have above : format.integerMaxOver ≤ rest :=
        le_of_not_gt (mt (Nat.div_eq_zero_iff_lt topDigit).mpr excess)
      rw [← format.top_limit]
      exact le_trans (Nat.mul_le_mul_left _ above) (Nat.le_add_left _ _)
  · have padded : (low ++ middle ++ List.replicate (format.size - (low ++ middle).length) 0).length =
        format.size := by
      simp only [length_append, length_replicate]
      omega
    rw [if_neg reached]
    rw [length_append] at reached
    refine ⟨_, _, rfl, padded, bounded_append.mpr
      ⟨lowBounded, bounded_replicate_zero format.base_positive _⟩, fun settled => ?_,
      fun excess => ?_⟩
    · have below := (Nat.div_eq_zero_iff_lt (Nat.pow_pos format.base_positive)).mp settled
      rw [Nat.ofDigits_append_replicate_zero]
      refine ⟨by rw [Nat.ofDigits_append, middleValue, Nat.mod_eq_of_lt below], fun more => ?_⟩
      calc ofDigits format.base (low ++ middle) < format.base ^ (low ++ middle).length :=
            value_lt lowBounded
        _ ≤ format.base ^ (format.size - 1) :=
            Nat.pow_le_pow_right format.base_positive (by rw [length_append]; omega)
        _ ≤ 10 ^ format.totalRank := format.power_le_limit
    · have full : low.length = format.size := by
        by_contra shorter
        exact excess (early (by omega))
      have some : 0 < integer := pos_of_ne_zero fun none => excess (by rw [none, Nat.zero_div])
      calc 10 ^ format.totalRank ≤ format.base ^ format.size := format.limit_le_power
        _ ≤ format.base ^ low.length * integer := by
            rw [full]
            exact Nat.le_mul_of_pos_right _ some
        _ ≤ _ := Nat.le_add_left _ _

/-- Splitting a number off its sign, for every number but the most negative one. -/
theorem split_exact {integer : Int} (small : integer.natAbs < type.limit)
    (kind : type.signed = true ∨ 0 ≤ integer) :
    split type integer = .ok ((integer.natAbs : Int), decide (integer < 0)) := by
  unfold split
  by_cases below : integer < 0
  · have signed : type.signed = true := kind.resolve_right (by omega)
    have held : decide (-((type.limit : Int) - 1) ≤ integer) = true := by
      rw [decide_eq_true_eq]
      omega
    rw [if_pos ⟨signed, below⟩, held]
    have magnitude : -integer = (integer.natAbs : Int) := by omega
    simp only [magnitude, below]
    rfl
  · rw [if_neg (fun both => below both.2)]
    have magnitude : integer = (integer.natAbs : Int) := by omega
    simp only [below, decide_false]
    rw [← magnitude]

/-- What a successful construction from a numerator and a power stores: the rounded
down quotient, or zero for a power beyond all digits of the numerator. The total
rank is respected unless the shift ends inside the top element. -/
structure PowerStored (format : Format) (type : IntType) (numerator power : Nat)
    (result : Decimal format) : Prop where
  length : result.array.length = format.size
  bounded : Bounded format.base result.array
  magnitude : result.magnitude = numerator * 10 ^ format.fractionRank / 10 ^ power ∨
    type.digits10 + format.fractionRank ≤ power ∧ result.magnitude = 0
  fits : result.magnitude < 10 ^ format.totalRank ∨
    (format.fractionRank - power) % format.digits ≠ 0 ∧
      (format.fractionRank - power) / format.digits + 1 = format.size

/-- Dropping the digits of the numerator that the power puts behind the last one. -/
theorem droppedDigits_exact {magnitude : Nat} (power : Nat) (small : magnitude < type.limit)
    (short : power < type.digits10 + format.fractionRank) :
    ∃ numerator : Nat,
      (if format.fractionRank < power then
        type.wrap (type.quot magnitude type (10 ^ (power - format.fractionRank) : Nat))
      else (magnitude : Int)) = numerator ∧ numerator < type.limit ∧
      numerator * 10 ^ (format.fractionRank - min power format.fractionRank) =
        magnitude * 10 ^ format.fractionRank / 10 ^ power := by
  by_cases beyond : format.fractionRank < power
  · have fits : 10 ^ (power - format.fractionRank) < type.limit :=
      calc _ < 10 ^ type.digits10 := Nat.pow_lt_pow_right (by decide) (by omega)
        _ ≤ type.limit := Nat.pow_log_le_self 10 (by omega)
    have parts : 10 ^ power = 10 ^ (power - format.fractionRank) * 10 ^ format.fractionRank := by
      rw [← pow_add, Nat.sub_add_cancel (le_of_lt beyond)]
    generalize 10 ^ (power - format.fractionRank) = unit at *
    have smaller : magnitude / unit < type.limit := lt_of_le_of_lt (Nat.div_le_self _ _) small
    refine ⟨magnitude / unit, ?_, smaller, ?_⟩
    · rw [if_pos beyond, IntType.quot_natCast _ _ _ _ small fits, IntType.wrap_natCast smaller]
    · rw [min_eq_right (le_of_lt beyond), Nat.sub_self, pow_zero, mul_one, parts,
        Nat.mul_div_mul_right _ _ (Nat.pow_pos (by decide))]
  · refine ⟨magnitude, if_neg beyond, small, ?_⟩
    have parts : 10 ^ format.fractionRank = 10 ^ (format.fractionRank - power) * 10 ^ power := by
      rw [← pow_add, Nat.sub_add_cancel (le_of_not_gt beyond)]
    rw [min_eq_left (le_of_not_gt beyond), parts, ← mul_assoc,
      Nat.mul_div_cancel _ (Nat.pow_pos (by decide))]

/-- Construction from a numerator and a power of ten. -/
theorem ofPower_ends {integer : Int} (power : Nat) (small : integer.natAbs < type.limit)
    (kind : type.signed = true ∨ 0 ≤ integer) :
    Ends (ofPower format type integer power)
      (PowerStored format type integer.natAbs power)
      (Overflows format.totalRank
        (integer.natAbs * 10 ^ format.fractionRank / 10 ^ power)) := by
  have zeroStored : (⟨false, List.replicate format.size 0⟩ : Decimal format).magnitude = 0 :=
    Nat.ofDigits_replicate_zero
  have limit : 0 < 10 ^ format.totalRank := Nat.pow_pos (by decide)
  unfold ofPower
  by_cases trivial : type.digits10 + format.fractionRank ≤ power ∨ integer = 0
  · rw [if_pos trivial]
    refine ⟨length_replicate, bounded_replicate_zero format.base_positive _, ?_,
      .inl (lt_of_eq_of_lt zeroStored limit)⟩
    rw [zeroStored]
    rcases trivial with beyond | rfl
    · exact .inr ⟨beyond, rfl⟩
    · exact .inl (by simp)
  · rw [if_neg trivial, split_exact type small kind]
    obtain ⟨numerator, dropped, numeratorSmall, scaled⟩ := droppedDigits_exact format type
      power small (by omega)
    obtain ⟨low, rest, shifted, restSmall, room, lowBounded, lowValue, full⟩ :=
      shiftedElements_exact format type numeratorSmall (Nat.sub_le _ _)
    obtain ⟨array, left, remaining, length, bounded, settled, excess⟩ :=
      remainingElements_exact format type restSmall room lowBounded
    have within := value_lt bounded
    rw [length] at within
    dsimp only [bind, Except.bind]
    rw [dropped, shifted]
    rw [remaining]
    dsimp only
    by_cases done : left = 0
    · rw [if_neg (by simp [done])]
      obtain ⟨value, fits⟩ := settled done
      refine ⟨length, bounded, .inl (by rw [magnitude, value, lowValue, scaled]), ?_⟩
      have shift : format.fractionRank - min power format.fractionRank =
          format.fractionRank - power := by omega
      by_cases more : low.length < format.size
      · exact .inl (fits more)
      · rcases full (by omega) with blank | inside
        · -- zeros fill the array, so nothing may be left of the numerator
          have none : rest = 0 := by
            rw [show low.length = format.size by omega] at value
            exact eq_zero_of_share_lt (format.base ^ format.size) (by omega)
          refine .inl (lt_of_eq_of_lt ?_ limit)
          rw [magnitude, value, blank, none, Nat.mul_zero]
        · rw [shift] at inside
          exact .inr inside
    · rw [if_pos (by exact_mod_cast done)]
      exact ⟨rfl, by rw [← scaled, ← lowValue]; exact excess done⟩

end Decimal

end UnixCommons.Generics
