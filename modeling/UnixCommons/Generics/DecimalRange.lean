import UnixCommons.Generics.DecimalCutting
import UnixCommons.Generics.DecimalQuotient
import UnixCommons.Generics.DecimalText
import UnixCommons.Generics.SimpleDecimal

/-!
# Which decimals can be obtained

A program gets decimals from the constructors and from operations on decimals it has
already got. The objects that can appear are an inductive set over all formats, since
one format converts into another. Compound assignments and the members that change
their object are the same computations as the operations they are listed with here.

The constructors do not all respect the total rank. When the integer part shares the
top element with the fraction, the construction from parts checks it against the room
of the element and not against its rank; the construction from a numerator does the
same when its shift ends inside the top element; and negative parts become residues of
the element type. Away from those arguments, every decimal obtained is in range, and
values beyond the total rank are refused with `Overflow`.
-/

namespace UnixCommons.Generics

open Limbs Outcome Machine
open Nat (ofDigits)

namespace Decimal

variable {format : Format}

/-- The constructor from a decimal of another format. -/
def ofDecimal (format : Format) {other : Format} (diff : Decimal other) :
    Except Failure (Decimal format) :=
  ofText format diff.str

/-- The constructor from a simple decimal. -/
def ofSimple (format : Format) {other : SimpleFormat} (diff : SimpleDecimal other) :
    Except Failure (Decimal format) := do
  let decimal ← ofPower format other.base.type diff.data other.fractionRank
  .ok { decimal with negative := diff.negative }

/-- A call of a constructor with arguments of built-in types or a simple decimal. -/
inductive Construction (format : Format) where
  | parts (negative : Bool) (integerType fractionType : IntType) (integer fraction : Int)
  | power (type : IntType) (integer : Int) (exponent : Nat)
  | text (characters : List Char)
  | simple (other : SimpleFormat) (diff : SimpleDecimal other)

namespace Construction

/-- The outcome of the call. -/
def run : Construction format → Except Failure (Decimal format)
  | parts negative integerType fractionType integer fraction =>
    ofParts format negative integerType fractionType integer fraction
  | power type integer exponent => ofPower format type integer exponent
  | text characters => ofText format characters
  | simple _ diff => ofSimple format diff

/-- The arguments are values of their types, and the compile-time assertion holds. -/
def Typed : Construction format → Prop
  | parts _ integerType fractionType integer fraction =>
    integerType.Holds integer ∧ fractionType.Holds fraction
  | power type integer _ => type.Holds integer
  | text _ => True
  | simple other diff => diff.Valid ∧ other.fractionRank ≤ format.fractionRank

/-- The magnitude the arguments ask for, in units of the last digit. -/
def Denotes : Construction format → ℚ → Prop
  | parts _ _ _ integer fraction, units => units = integer * 10 ^ format.fractionRank + fraction
  | power _ integer exponent, units =>
    units = (integer.natAbs * 10 ^ format.fractionRank : ℕ) / (10 ^ exponent : ℕ)
  | text characters, units => ∃ numeral : Numeral, numeral.text = characters ∧
      units = numeral.magnitude * 10 ^ format.fractionRank
  | simple other diff, units =>
    units = (diff.data * 10 ^ format.fractionRank : ℕ) / (10 ^ other.fractionRank : ℕ)

/-- The integer part shares the top element with the fraction, has more digits than its
rank, and fits the room of the element. -/
def IntegerSlips (format : Format) (integer : Int) : Prop :=
  format.integerRank ≠ 0 ∧ format.fractionEnd + 1 = format.size ∧
    10 ^ format.integerRank ≤ integer ∧ integer < format.fractionOver

/-- The shift of a numerator ends inside the top element, and the shifted numerator has
more digits than the total rank but fits the elements. -/
def PowerSlips (format : Format) (numerator power : Nat) : Prop :=
  (format.fractionRank - power) % format.digits ≠ 0 ∧
    (format.fractionRank - power) / format.digits + 1 = format.size ∧
    10 ^ format.totalRank ≤ numerator * 10 ^ format.fractionRank / 10 ^ power ∧
    numerator * 10 ^ format.fractionRank / 10 ^ power < format.base ^ format.size
  deriving Decidable

/-- Arguments for which the constructors keep the range: no negative part, no most
negative numerator, and no part or numerator that slips past the check of the top element. -/
def Clean : Construction format → Prop
  | parts _ _ _ integer fraction => 0 ≤ integer ∧ 0 ≤ fraction ∧ ¬ IntegerSlips format integer
  | power type integer exponent =>
    -(type.limit : Int) < integer ∧ ¬ PowerSlips format integer.natAbs exponent
  | text _ => True
  | simple other diff => ¬ PowerSlips format diff.data other.fractionRank

end Construction

/-- Operations on one decimal. -/
inductive Unary where
  | negate
  | floor (fraction : Nat)
  | ceil (fraction : Nat)

/-- The decimal of a unary operation. -/
def Unary.run : Unary → Decimal format → Except Failure (Decimal format)
  | negate, decimal => .ok decimal.negate
  | floor fraction, decimal => .ok (decimal.floor fraction)
  | ceil fraction, decimal => decimal.ceil fraction

/-- Operations on two decimals; a division with remainder gives two of them. -/
inductive Binary where
  | add
  | sub
  | mul (dmr : DecimalMulRemainder)
  | div (ddr : DecimalDivRemainder)
  | quotient
  | remainder

/-- The decimal of a binary operation. -/
def Binary.run : Binary → Decimal format → Decimal format → Except Failure (Decimal format)
  | add, left, right => Decimal.add left right
  | sub, left, right => Decimal.sub left right
  | mul dmr, left, right => Decimal.mul left right dmr
  | div ddr, left, right => Decimal.div left right ddr
  | quotient, left, right => (divRemainder left right).map Prod.fst
  | remainder, left, right => (divRemainder left right).map Prod.snd

/-- Decimals obtained without an exception, when constructors are called with allowed
arguments only. -/
inductive Obtained (allowed : ∀ format : Format, Construction format → Prop) :
    ∀ {format : Format}, Decimal format → Prop
  | construct {format : Format} {call : Construction format} {result : Decimal format}
      (typed : call.Typed) (admitted : allowed format call) (built : call.run = .ok result) :
      Obtained allowed result
  | convert {other format : Format} {diff : Decimal other} {result : Decimal format}
      (source : Obtained allowed diff) (precise : other.fractionRank ≤ format.fractionRank)
      (built : ofDecimal format diff = .ok result) : Obtained allowed result
  | unary {format : Format} {decimal result : Decimal format} (operation : Unary)
      (source : Obtained allowed decimal) (computed : operation.run decimal = .ok result) :
      Obtained allowed result
  | binary {format : Format} {left right result : Decimal format} (operation : Binary)
      (first : Obtained allowed left) (second : Obtained allowed right)
      (computed : operation.run left right = .ok result) : Obtained allowed result

variable {result dividend divisor decimal : Decimal format}

/-- A delivered decimal is in its range. -/
theorem Delivers.inRange {outcome : Except Failure (Decimal format)} {exact : SignedMagnitude}
    (delivered : Delivers outcome exact) (computed : outcome = .ok result) : result.InRange :=
  (((delivers_iff).mp delivered).of_ok computed).1

/-- Whatever the rounding stage does to the product, the exported result is in range. -/
theorem mul_inRange {factor1 factor2 : Decimal format} (range1 : factor1.InRange)
    (range2 : factor2.InRange) {dmr : DecimalMulRemainder}
    (computed : mul factor1 factor2 dmr = .ok result) : result.InRange := by
  cases dmr with
  | floor => exact (mul_floor factor1 factor2 range1 range2).inRange computed
  | round => exact (mul_round factor1 factor2 range1 range2).inRange computed
  | ceil =>
    have ends : Ends (mul factor1 factor2 .ceil) InRange (fun failure => failure = .overflow) := by
      refine Ends.bind ((product_ends factor1 factor2 range1.formed range2.formed).mono (fun _ held => held.1)
        (fun _ excess => excess.1)) (fun product holds => ?_)
      have unit := (MulTmpArray.unit_ends format holds).mono (fun _ added => added.1)
        (fun _ excess => excess.1)
      have rounded : Ends (applyRemainder format .ceil product) (MulTmpArray.Holds format)
          (fun failure => failure = .overflow) := by
        unfold applyRemainder
        split
        · rw [if_neg (by decide), MulTmpArray.ceil]
          split_ifs
          · exact unit
          · exact holds
          · exact unit
          · exact holds
        · exact holds
      refine Ends.bind rounded (fun kept keptHolds => ?_)
      exact (export_delivers _ keptHolds).inRange rfl
    exact ends.of_ok computed

/-- Quotients are in their range. -/
theorem div_inRange (range1 : dividend.InRange) (range2 : divisor.InRange)
    {ddr : DecimalDivRemainder} (computed : div dividend divisor ddr = .ok result) :
    result.InRange := by
  by_cases zero : divisor.magnitude = 0
  · rw [div, divide_zero dividend divisor range2 zero] at computed
    cases computed
  · cases ddr with
    | floor => exact (div_floor dividend divisor range1 range2 zero).inRange computed
    | ceil => exact (div_ceil dividend divisor range1 range2 zero).inRange computed

/-- Both results of a division with remainder are in range. -/
theorem divRemainder_inRange {results : Decimal format × Decimal format} (range1 : dividend.InRange)
    (range2 : divisor.InRange) (computed : divRemainder dividend divisor = .ok results) :
    results.1.InRange ∧ results.2.InRange := by
  by_cases zero : divisor.magnitude = 0
  · rw [divRemainder, divide_zero dividend divisor range2 zero] at computed
    cases computed
  have ends : Ends (divRemainder dividend divisor)
      (fun results => results.1.InRange ∧ results.2.InRange) (fun _ => True) := by
    refine Ends.bind ((divide_ends dividend divisor range1 range2 zero).mono
      (fun _ divided => divided.1) (fun _ _ => trivial)) ?_
    rintro ⟨quotient, whole⟩ quotientRange
    cases whole with
    | true => exact ⟨quotientRange, range1⟩
    | false =>
      refine Ends.bind (((delivers_iff).mp (mul_floor quotient divisor quotientRange range2)).mono
        (fun _ made => made.1) (fun _ _ => trivial)) (fun product productRange => ?_)
      refine Ends.bind (((delivers_iff).mp (sub_delivers range1 productRange)).mono
        (fun _ made => made.1) (fun _ _ => trivial)) (fun remainder remainderRange => ?_)
      exact ⟨quotientRange, remainderRange⟩
  exact ends.of_ok computed

/-- One operation on one decimal keeps the range. -/
theorem Unary.inRange (operation : Unary) (inRange : decimal.InRange)
    (computed : operation.run decimal = .ok result) : result.InRange := by
  cases operation with
  | negate =>
    cases computed
    exact ⟨inRange.length, inRange.bounded, inRange.top⟩
  | floor fraction =>
    cases computed
    exact (floor_exact decimal inRange).1
  | ceil fraction => exact (ceil_delivers decimal inRange fraction).inRange computed

/-- One operation on two decimals keeps the range. -/
theorem Binary.inRange (operation : Binary) {left right : Decimal format} (leftRange : left.InRange)
    (rightRange : right.InRange) (computed : operation.run left right = .ok result) :
    result.InRange := by
  cases operation with
  | add => exact (add_delivers leftRange rightRange).inRange computed
  | sub => exact (sub_delivers leftRange rightRange).inRange computed
  | mul dmr => exact mul_inRange leftRange rightRange computed
  | div ddr => exact div_inRange leftRange rightRange computed
  | quotient =>
    obtain ⟨results, both, rfl⟩ := Outcome.map_ok_iff.mp computed
    exact (divRemainder_inRange leftRange rightRange both).1
  | remainder =>
    obtain ⟨results, both, rfl⟩ := Outcome.map_ok_iff.mp computed
    exact (divRemainder_inRange leftRange rightRange both).2

namespace Construction

theorem natCast_of_nonneg {type : IntType} {value : Int} (held : type.Holds value)
    (nonnegative : 0 ≤ value) : ∃ natural : Nat, value = natural ∧ natural < type.limit := by
  obtain ⟨natural, rfl⟩ := Int.eq_ofNat_of_zero_le nonnegative
  exact ⟨natural, rfl, by exact_mod_cast held.2⟩

/-- What a constructor call owes: a decimal in range for a magnitude below the total
rank, and no other refusal than `Overflow` of what denotes a number. -/
def Keeps (call : Construction format) : Prop :=
  Ends call.run
    (fun result => result.InRange ∧ ∀ units, call.Denotes units → units < 10 ^ format.totalRank)
    (fun failure => ∀ units, call.Denotes units → failure = .overflow)

/-- The construction from two integers keeps the range. -/
theorem parts_keeps {negative : Bool} {integerType fractionType : IntType} {integer fraction : Int}
    (typed : (parts negative integerType fractionType integer fraction :
      Construction format).Typed)
    (clean : (parts negative integerType fractionType integer fraction :
      Construction format).Clean) :
    (parts negative integerType fractionType integer fraction : Construction format).Keeps := by
  obtain ⟨integerNonneg, fractionNonneg, unslipped⟩ := clean
  obtain ⟨integer, rfl, integerSmall⟩ := natCast_of_nonneg typed.1 integerNonneg
  obtain ⟨fraction, rfl, fractionSmall⟩ := natCast_of_nonneg typed.2 fractionNonneg
  refine (ofParts_ends format negative integerSmall
    fractionSmall).mono ?_ (fun _ raised _ _ => raised.1)
  intro result stored
  have fits : integer < 10 ^ format.integerRank := by
    rcases stored.integerFits with fits | ⟨some, shared, room⟩
    · exact fits
    · by_contra long
      exact unslipped ⟨some, shared, by exact_mod_cast Nat.le_of_not_lt long, by exact_mod_cast room⟩
  have small := parts_lt format fits stored.fractionFits
  refine ⟨.of_magnitude stored.length stored.bounded (by rwa [stored.magnitude]), ?_⟩
  rintro units rfl
  exact_mod_cast small

/-- A numerator whose shift does not slip is stored in range, and is then small enough. -/
theorem ofPower_keeps {type : IntType} {integer : Int} {exponent : Nat}
    (small : integer.natAbs < type.limit) (kind : type.signed = true ∨ 0 ≤ integer)
    (unslipped : ¬ PowerSlips format integer.natAbs exponent) :
    Ends (ofPower format type integer exponent)
      (fun result => result.InRange ∧ ((integer.natAbs * 10 ^ format.fractionRank : ℕ) : ℚ) /
        (10 ^ exponent : ℕ) < 10 ^ format.totalRank)
      (fun failure => failure = .overflow) := by
  refine (ofPower_ends format type exponent small kind).mono ?_ (fun _ raised => raised.1)
  intro result stored
  have below : result.magnitude < 10 ^ format.totalRank := by
    by_contra large
    obtain ⟨cut, shared⟩ := stored.fits.resolve_left large
    rcases stored.magnitude with value | ⟨-, zero⟩
    · have room := value_lt stored.bounded
      rw [stored.length] at room
      change result.magnitude < _ at room
      rw [value] at large room
      exact unslipped ⟨cut, shared, Nat.le_of_not_lt large, room⟩
    · rw [zero] at large
      exact large (by positivity)
  refine ⟨.of_magnitude stored.length stored.bounded below, ?_⟩
  have unit : (0 : ℚ) < (10 ^ exponent : ℕ) := by positivity
  rw [div_lt_iff₀ unit]
  rcases stored.magnitude with value | ⟨beyond, -⟩
  · rw [value, Nat.div_lt_iff_lt_mul (by positivity)] at below
    exact_mod_cast below
  · have digits : integer.natAbs < 10 ^ (type.digits10 + 1) :=
      small.trans (Nat.lt_pow_succ_log_self (by decide) _)
    have total := format.totalPositive
    have product : integer.natAbs * 10 ^ format.fractionRank < 10 ^ format.totalRank * 10 ^ exponent :=
      calc integer.natAbs * 10 ^ format.fractionRank
          < 10 ^ (type.digits10 + 1) * 10 ^ format.fractionRank :=
            Nat.mul_lt_mul_of_pos_right digits (by positivity)
        _ = 10 ^ (type.digits10 + 1 + format.fractionRank) := (pow_add _ _ _).symm
        _ ≤ 10 ^ (format.totalRank + exponent) := Nat.pow_le_pow_right (by decide) (by omega)
        _ = _ := pow_add _ _ _
    exact_mod_cast product

/-- The construction from a power keeps the range. -/
theorem power_keeps {type : IntType} {integer : Int} {exponent : Nat}
    (typed : (power type integer exponent : Construction format).Typed)
    (clean : (power type integer exponent : Construction format).Clean) :
    (power type integer exponent : Construction format).Keeps := by
  obtain ⟨low, high⟩ : type.Holds integer := typed
  have small : integer.natAbs < type.limit := by
    have above := clean.1
    omega
  have kind : type.signed = true ∨ 0 ≤ integer := by
    cases signed : type.signed with
    | true => exact .inl rfl
    | false => exact .inr (by simpa [signed] using low)
  refine (ofPower_keeps small kind clean.2).mono ?_
    (fun _ raised _ _ => raised)
  rintro result ⟨inRange, below⟩
  refine ⟨inRange, ?_⟩
  rintro units rfl
  exact below

/-- The construction from a text keeps the range. -/
theorem text_keeps {characters : List Char} : (text characters : Construction format).Keeps := by
  change Ends (ofText format characters) _ _
  cases outcome : ofText format characters with
  | ok result =>
    obtain ⟨accepted, rfl⟩ := numeral_of_ofText outcome
    refine ⟨((ofText_numeral format accepted).of_ok outcome).1, ?_⟩
    rintro units ⟨numeral, same, rfl⟩
    rw [← same] at outcome
    have fits := ((ofText_numeral format numeral).of_ok outcome).2.2
    have below := numeral.scaled_lt fits
    rw [numeral.magnitude_eq_scaled fits.fraction, div_mul_cancel₀ _ (by positivity)]
    have ranks : format.integerRank + format.fractionRank = format.totalRank :=
      Nat.sub_add_cancel format.fractionBounded
    rw [ranks] at below
    exact_mod_cast below
  | error failure =>
    rintro units ⟨numeral, rfl, -⟩
    have ends := ofText_numeral format numeral
    rw [outcome] at ends
    exact ends.1

/-- The construction from a simple decimal keeps the range. -/
theorem simple_keeps {other : SimpleFormat} {diff : SimpleDecimal other}
    (typed : (simple other diff : Construction format).Typed)
    (clean : (simple other diff : Construction format).Clean) :
    (simple other diff : Construction format).Keeps := by
  have small : (diff.data : Int).natAbs < other.base.type.limit := by
    rw [Element.type_limit]
    exact typed.1.trans other.maxValue_lt
  refine Ends.bind ((ofPower_keeps small
    (.inr (Int.natCast_nonneg _)) clean).mono (fun _ kept => kept) (fun _ raised _ _ => raised)) ?_
  rintro result ⟨inRange, below⟩
  refine ⟨⟨inRange.length, inRange.bounded, inRange.top⟩, ?_⟩
  rintro units rfl
  exact below

/-- Every clean call keeps the range. -/
theorem keeps {call : Construction format} (typed : call.Typed) (clean : call.Clean) :
    call.Keeps := by
  cases call with
  | parts negative integerType fractionType integer fraction =>
    exact parts_keeps typed clean
  | power type integer exponent => exact power_keeps typed clean
  | text characters => exact text_keeps
  | simple other diff => exact simple_keeps typed clean

end Construction

/-- Conversion of an in-range decimal goes through its text. -/
theorem ofDecimal_keeps {other : Format} {diff : Decimal other} (inRange : diff.InRange) :
    Ends (ofDecimal format diff)
      (fun result => result.InRange ∧ (diff.magnitude : ℚ) * 10 ^ format.fractionRank /
        10 ^ other.fractionRank < 10 ^ format.totalRank)
      (fun failure => failure = .overflow) := by
  obtain ⟨numeral, printed, fits, scaled, -⟩ := str_numeral inRange
  have denoted : (Construction.text diff.str : Construction format).Denotes
      (diff.magnitude * 10 ^ format.fractionRank / 10 ^ other.fractionRank) := by
    refine ⟨numeral, printed, ?_⟩
    rw [numeral.magnitude_eq_scaled fits.fraction, scaled]
    ring
  exact Construction.text_keeps.mono (fun _ kept => ⟨kept.1, kept.2 _ denoted⟩)
    (fun _ raised => raised _ denoted)

/-- Over any sequence of clean constructor calls, conversions and operations the range
is kept. The induction is on how the decimal was obtained. -/
theorem Obtained.inRange (obtained : Obtained (fun _ => Construction.Clean) decimal) :
    decimal.InRange := by
  induction obtained with
  | construct typed admitted built => exact ((Construction.keeps typed admitted).of_ok built).1
  | convert source precise built ih => exact ((ofDecimal_keeps ih).of_ok built).1
  | unary operation source computed ih => exact operation.inRange ih computed
  | binary operation first second computed firstRange secondRange =>
    exact operation.inRange firstRange secondRange computed

/-- Decimals obtained with clean constructor calls are in range, and a magnitude beyond
the total rank makes a constructor throw `Overflow`. -/
theorem obtained_in_range (format : Format) :
    (∀ decimal : Decimal format, Obtained (fun _ => Construction.Clean) decimal →
      decimal.InRange ∧ decimal.magnitude < 10 ^ format.totalRank) ∧
    (∀ (call : Construction format) (units : ℚ), call.Typed → call.Clean →
      call.Denotes units → 10 ^ format.totalRank ≤ units → call.run = .error .overflow) ∧
    (∀ {other : Format} (diff : Decimal other), Obtained (fun _ => Construction.Clean) diff →
      10 ^ format.totalRank ≤ (diff.magnitude : ℚ) * 10 ^ format.fractionRank /
        10 ^ other.fractionRank → ofDecimal format diff = .error .overflow) := by
  refine ⟨?_, ?_, ?_⟩
  · intro decimal obtained
    exact ⟨obtained.inRange, obtained.inRange.magnitude_lt⟩
  · intro call units typed clean denoted large
    obtain ⟨failure, raised, overflow⟩ := (call.keeps typed clean).raised
      fun result kept => absurd (kept.2 units denoted) (not_lt.mpr large)
    rw [raised, overflow units denoted]
  · intro other diff obtained large
    obtain ⟨failure, raised, rfl⟩ := (ofDecimal_keeps obtained.inRange).raised
      fun result kept => absurd kept.2 (not_lt.mpr large)
    exact raised

theorem obtained_in_range_bytes :
    (⟨false, [0, 25, 0]⟩ : Decimal .bytes).InRange ∧
      (⟨false, [0, 25, 0]⟩ : Decimal .bytes).magnitude < 10 ^ 6 :=
  have half : Obtained (fun _ => Construction.Clean) (⟨false, [50, 12, 0]⟩ : Decimal .bytes) :=
    .construct (show (Construction.text ['1', '2', '.', '5'] : Construction .bytes).Typed
      from trivial) trivial rfl
  (obtained_in_range .bytes).1 _ (.binary .add half half rfl)

/-- Three digits before the point and two behind it, in one wide element. -/
def sharedFormat : Format := ⟨.uint64, 5, 2, by decide, by decide⟩

/-- An integer part of five digits is accepted for a rank of three. -/
theorem integer_slips :
    Obtained (fun _ _ => True) (⟨false, [1234500]⟩ : Decimal sharedFormat) ∧
      (Construction.parts false .int32 .int32 12345 0 : Construction sharedFormat).run =
        .ok ⟨false, [1234500]⟩ ∧
      ¬ (⟨false, [1234500]⟩ : Decimal sharedFormat).InRange ∧
      10 ^ sharedFormat.totalRank ≤ (⟨false, [1234500]⟩ : Decimal sharedFormat).magnitude := by
  have built : (Construction.parts false .int32 .int32 12345 0 : Construction sharedFormat).run =
      .ok ⟨false, [1234500]⟩ := by decide
  have typed : (Construction.parts false .int32 .int32 12345 0 : Construction sharedFormat).Typed :=
    ⟨by decide, by decide⟩
  exact ⟨.construct typed trivial built, built, by decide, by decide⟩

end Decimal

end UnixCommons.Generics
