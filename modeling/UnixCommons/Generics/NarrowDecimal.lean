import UnixCommons.Generics.DecimalInteger
import UnixCommons.Generics.DecimalPower

/-!
# Narrowing a multi-limb decimal to a single word

`narrow_decimal` multiplies the source by a power of ten in the source's own class, takes
the integer part and constructs the destination from it. Two intermediate values live in
the source class: the power of ten itself, and the scaled source. Either may exceed the
total rank of the source class although the narrowed number fits the destination, and
then the call throws. The law says that nothing else goes wrong.
-/

namespace UnixCommons.Generics

open Limbs Outcome Machine Decimal

variable {format : Format} {simpleFormat : SimpleFormat}

/-- `narrow_decimal`. The assertions on the ranks are made at compile time. -/
def narrowDecimal (simpleFormat : SimpleFormat) (decimal : Decimal format) :
    Except Failure (SimpleDecimal simpleFormat) := do
  let scale ← ofPower format .int64 (10 ^ simpleFormat.fractionRank : Nat) 0
  let scaled ← mul decimal scale .floor
  let integer ← scaled.integer .int64
  SimpleDecimal.ofPower simpleFormat .int64 integer simpleFormat.fractionRank

namespace Narrow

/-- The source cut to the fraction digits of the destination, in units of the last one. -/
def cut (simpleFormat : SimpleFormat) (decimal : Decimal format) : Int :=
  decimal.signed.tdiv (10 ^ (format.fractionRank - simpleFormat.fractionRank) : Nat)

/-- What the narrowing owes: the cut number if the destination can represent it, and
`Overflow` otherwise. -/
def Narrows (outcome : Except Failure (SimpleDecimal simpleFormat)) (decimal : Decimal format) :
    Prop :=
  if (cut simpleFormat decimal).natAbs < 10 ^ simpleFormat.totalRank then
    ∃ result, outcome = .ok result ∧ result.Valid ∧ result.signed = cut simpleFormat decimal
  else outcome = .error .overflow

/-- The source class can hold the power of ten it is multiplied by, within the total rank
or because it slips past the check of the top element. -/
def HasScale (format : Format) (rank : Nat) : Prop :=
  10 ^ rank * 10 ^ format.fractionRank < 10 ^ format.totalRank ∨
    Decimal.Construction.PowerSlips format (10 ^ rank) 0
  deriving Decidable

theorem int64_digits10 : IntType.int64.digits10 = 18 := by
  decide

variable {rank : Nat}

theorem pow_lt_int64 (narrow : rank ≤ 18) : 10 ^ rank < IntType.int64.limit := by
  refine lt_of_le_of_lt (Nat.pow_le_pow_right (by decide) narrow) ?_
  decide

theorem powerUnits_zero (format : Format) (rank : Nat) :
    powerUnits format.fractionRank (10 ^ rank : Nat) 0 = 10 ^ rank * 10 ^ format.fractionRank := by
  simp [powerUnits]

/-- The power of ten as a number of the source class. -/
theorem scale_stored (narrow : rank ≤ 18) (fits : HasScale format rank) :
    ∃ scale : Decimal format, ofPower format .int64 (10 ^ rank : Nat) 0 = .ok scale ∧
      scale.Formed ∧ scale.negative = false ∧
      scale.magnitude = 10 ^ rank * 10 ^ format.fractionRank := by
  have small : ((10 ^ rank : Nat) : Int).natAbs < IntType.int64.limit := by
    simpa using pow_lt_int64 narrow
  have late : ¬ (IntType.int64.digits10 + format.fractionRank ≤ 0 ∨
      ((10 ^ rank : Nat) : Int) = 0) := by
    rw [int64_digits10]
    have positive : 0 < 10 ^ rank := Nat.pow_pos (by decide)
    omega
  have ends := ofPower_ends format .int64 0 small (.inl rfl)
  have stored : ∃ scale, ofPower format .int64 (10 ^ rank : Nat) 0 = .ok scale := by
    rcases fits with room | slips
    · cases outcome : ofPower format .int64 (10 ^ rank : Nat) 0 with
      | ok scale => exact ⟨scale, rfl⟩
      | error failure =>
        rw [outcome] at ends
        have large := ends.2
        rw [Int.natAbs_natCast] at large
        omega
    · exact ofPower_slips small (.inl rfl) (by rwa [Int.natAbs_natCast])
  obtain ⟨scale, computed⟩ := stored
  have held := ends.of_ok computed
  refine ⟨scale, computed, ⟨held.length, held.bounded⟩, ?_, ?_⟩
  · rw [ofPower_negative small (.inl rfl) late computed]
    simp
  · rcases held.magnitude with exactly | ⟨early, -⟩
    · rw [exactly, Int.natAbs_natCast, pow_zero, Nat.div_one]
    · exact absurd (.inl early) late

/-- Otherwise the construction of the power of ten throws. -/
theorem scale_refused (narrow : rank ≤ 18) (large : ¬ HasScale format rank) :
    ofPower format .int64 (10 ^ rank : Nat) 0 = .error .overflow := by
  have held : IntType.int64.Holds (10 ^ rank : Nat) :=
    IntType.holds_natCast (pow_lt_int64 narrow)
  have constructs := (@Decimal.ofPower_constructs_iff _ _ format held 0).mpr ?_
  · rw [Decimal.Constructs, powerUnits_zero, if_neg fun room => large (.inl room)] at constructs
    exact constructs
  · refine ⟨fun drops => ?_, fun met => ?_, fun slips => large (.inr ?_)⟩
    · have early := drops.1
      rw [int64_digits10] at early
      omega
    · have lowest := met.2.1
      have positive := IntType.int64.limit_positive
      have nonnegative := Int.natCast_nonneg (10 ^ rank)
      omega
    · rwa [Int.natAbs_natCast] at slips

/-- Scaling by the power of ten moves the point, unless the scaled number has too many
digits for the source class. -/
theorem scaled_delivers {decimal scale : Decimal format} (inRange : decimal.InRange)
    (formed : scale.Formed) (positive : scale.negative = false)
    (value : scale.magnitude = 10 ^ rank * 10 ^ format.fractionRank) :
    Decimal.Delivers (mul decimal scale .floor)
      ⟨decimal.negative, decimal.magnitude * 10 ^ rank⟩ := by
  have delivers := inRange.formed.mul_floor formed
  rw [exactProduct_eq, Rounding.floor_quotient, value, ← Nat.mul_assoc,
    positive] at delivers
  simpa using delivers

theorem scaled_whole {magnitude : Nat} {fractionRank : Nat} (coarser : rank ≤ fractionRank) :
    magnitude * 10 ^ rank / 10 ^ fractionRank = magnitude / 10 ^ (fractionRank - rank) := by
  obtain ⟨rest, rfl⟩ := Nat.exists_eq_add_of_le coarser
  rw [pow_add, Nat.mul_comm magnitude, Nat.mul_div_mul_left _ _ (Nat.pow_pos (by decide)),
    Nat.add_sub_cancel_left]

/-- The integer part of the scaled number is the cut number. -/
theorem scaled_cut {decimal scaled : Decimal format}
    (coarser : simpleFormat.fractionRank ≤ format.fractionRank)
    (same : scaled.number =
      ⟨decimal.negative, decimal.magnitude * 10 ^ simpleFormat.fractionRank⟩) :
    scaled.signed.tdiv (10 ^ format.fractionRank : Nat) = cut simpleFormat decimal := by
  obtain ⟨negative, magnitude⟩ := SignedMagnitude.mk.inj same
  rw [cut, signed_tdiv, signed_tdiv, negative, magnitude,
    scaled_whole coarser]

/-- From the scaled number on nothing is lost: the integer type is wide enough for
everything the destination can represent. -/
theorem finished_narrows {decimal scaled : Decimal format} (inRange : scaled.InRange)
    (coarser : simpleFormat.fractionRank ≤ format.fractionRank)
    (wide : simpleFormat.totalRank ≤ 18)
    (same : scaled.number =
      ⟨decimal.negative, decimal.magnitude * 10 ^ simpleFormat.fractionRank⟩) :
    Narrows (do
      let integer ← scaled.integer .int64
      SimpleDecimal.ofPower simpleFormat .int64 integer simpleFormat.fractionRank) decimal := by
  have room := pow_lt_int64 wide
  rw [integer_eq .int64 inRange, scaled_cut coarser same, Narrows]
  generalize cut simpleFormat decimal = value
  have signed : ¬ (value < 0 ∧ IntType.int64.signed = false) :=
    fun unsigned => absurd unsigned.2 (by decide)
  by_cases large : IntType.int64.limit ≤ value.natAbs
  · have beyond : ¬ value.natAbs < 10 ^ simpleFormat.totalRank := by omega
    simp only [if_pos large, if_neg beyond]
    rfl
  · simp only [if_neg large, if_neg signed]
    have held : IntType.int64.Holds value := by
      have kind : IntType.int64.signed = true := rfl
      simp only [IntType.Holds, kind, if_true]
      omega
    have units : powerUnits simpleFormat.fractionRank value simpleFormat.fractionRank =
        value.natAbs := by
      rw [powerUnits, Nat.mul_div_cancel _ (Nat.pow_pos (by decide))]
    have constructs := (@SimpleDecimal.ofPower_constructs_iff _ _ simpleFormat held
      simpleFormat.fractionRank).mpr ?_
    · rw [SimpleDecimal.Constructs, units, Int.sign_mul_natAbs] at constructs
      exact constructs
    · refine ⟨fun drops => ?_, fun met => ?_⟩
      · have early := drops.1
        rw [int64_digits10] at early
        omega
      · have lowest := met.2.1
        omega

/-- A call that throws `Overflow` is right only for a number that does not fit. -/
theorem overflow_narrows_iff (simpleFormat : SimpleFormat) (decimal : Decimal format) :
    Narrows (.error .overflow : Except Failure (SimpleDecimal simpleFormat)) decimal ↔
      10 ^ simpleFormat.totalRank ≤ (cut simpleFormat decimal).natAbs := by
  unfold Narrows
  split_ifs with small
  · exact iff_of_false (by simp) (Nat.not_le.mpr small)
  · exact iff_of_true rfl (Nat.le_of_not_lt small)

end Narrow

open Narrow

/-- The narrowing is right exactly for the numbers that the destination cannot represent
and for those whose intermediate values fit the source class: the power of ten, and the
source scaled by it. -/
theorem narrowDecimal_exact_iff (decimal : Decimal format) (inRange : decimal.InRange)
    (simpleFormat : SimpleFormat) (coarser : simpleFormat.fractionRank ≤ format.fractionRank)
    (totalNarrow : simpleFormat.totalRank ≤ 18) (fractionNarrow : simpleFormat.fractionRank ≤ 18) :
    Narrows (narrowDecimal simpleFormat decimal) decimal ↔
      10 ^ simpleFormat.totalRank ≤ (cut simpleFormat decimal).natAbs ∨
        HasScale format simpleFormat.fractionRank ∧
          decimal.magnitude * 10 ^ simpleFormat.fractionRank < 10 ^ format.totalRank := by
  by_cases fits : HasScale format simpleFormat.fractionRank
  · obtain ⟨scale, computed, formed, positive, value⟩ := scale_stored fractionNarrow fits
    have delivers := scaled_delivers inRange formed positive value
    rw [narrowDecimal, computed, ok_bind]
    by_cases small : decimal.magnitude * 10 ^ simpleFormat.fractionRank < 10 ^ format.totalRank
    · rw [Decimal.Delivers, if_pos small] at delivers
      obtain ⟨scaled, product, scaledRange, same⟩ := delivers
      rw [product]
      exact iff_of_true (finished_narrows scaledRange coarser totalNarrow same)
        (.inr ⟨fits, small⟩)
    · rw [Decimal.Delivers, if_neg small] at delivers
      have thrown := overflow_narrows_iff simpleFormat decimal
      rw [delivers, error_bind, thrown]
      simp [small]
  · have thrown := overflow_narrows_iff simpleFormat decimal
    rw [narrowDecimal, scale_refused fractionNarrow fits, error_bind, thrown]
    simp [fits]

theorem narrowDecimal_exact_iff_bytes :
    let simpleFormat : SimpleFormat := ⟨.uint32, 4, 1, by decide, by decide, by decide⟩
    let decimal : Decimal .bytes := ⟨true, [45, 23, 1]⟩
    Narrows (narrowDecimal simpleFormat decimal) decimal ∧ cut simpleFormat decimal = -1234 := by
  intro simpleFormat decimal
  have exactly := narrowDecimal_exact_iff decimal (by decide) simpleFormat (by decide) (by decide)
    (by decide)
  exact ⟨exactly.mpr (.inr (by decide)), by decide⟩

/-- One does not narrow from eighteen digits with ten behind the point to eighteen with
eight, since ten to the eighth has too many digits for the source class; nor does 9999.99
to a number with one fraction digit, since the scaled source has. -/
theorem narrowDecimal_refuses :
    let wide : Format := ⟨.uint64, 18, 10, by decide, by decide⟩
    let one : Decimal wide := ⟨false, [10 ^ 10]⟩
    let most : Decimal .bytes := ⟨false, [99, 99, 99]⟩
    let destination : SimpleFormat := ⟨.uint64, 18, 8, by decide, by decide, by decide⟩
    let tenths : SimpleFormat := ⟨.uint32, 6, 1, by decide, by decide, by decide⟩
    (one.InRange ∧ cut destination one = 10 ^ 8 ∧
        narrowDecimal destination one = .error .overflow) ∧
      most.InRange ∧ cut tenths most = 99999 ∧ narrowDecimal tenths most = .error .overflow := by
  decide

end UnixCommons.Generics
