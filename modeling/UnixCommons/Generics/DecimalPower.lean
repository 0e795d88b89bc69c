import UnixCommons.Generics.DecimalRange
import UnixCommons.Generics.DecimalRounding

/-!
# Decimals built from a numerator and a power of ten

Both classes construct `integer * 10 ^ (-power)`, cut towards zero at their last digit.
Both return zero early for a power beyond `digits10` of the integer type, although the
largest values of the type have one digit more; both take the magnitude by a split that
refuses the most negative value. The multi-limb class in addition stores some numbers
that exceed its total rank.

The laws say that these are the only arguments for which a construction is not the
exact one: everything else is stored exactly or refused with `Overflow` when it must be.
-/

namespace UnixCommons.Generics

open Limbs Outcome Machine
open Nat (ofDigits)

/-- What a construction from a numerator and a power denotes, in units of the last digit. -/
def powerUnits (fractionRank : Nat) (integer : Int) (power : Nat) : Nat :=
  integer.natAbs * 10 ^ fractionRank / 10 ^ power

/-- The early return drops a digit: the numerator has one digit more than `digits10`, and
the power puts that digit in the last place. -/
def DropsDigit (fractionRank : Nat) (type : IntType) (integer : Int) (power : Nat) : Prop :=
  power = type.digits10 + fractionRank ∧ 10 ^ type.digits10 ≤ integer.natAbs

/-- The split meets the most negative value of the type. -/
def MeetsLowest (fractionRank : Nat) (type : IntType) (integer : Int) (power : Nat) : Prop :=
  type.signed = true ∧ integer = -(type.limit : Int) ∧ power < type.digits10 + fractionRank

section Early

variable {fractionRank : Nat} {type : IntType} {integer : Int} {power : Nat}

theorem natAbs_le_limit (held : type.Holds integer) : integer.natAbs ≤ type.limit := by
  unfold IntType.Holds at held
  split_ifs at held <;> omega

theorem limit_lt_digits (type : IntType) : type.limit < 10 ^ (type.digits10 + 1) :=
  Nat.lt_pow_succ_log_self (by decide) type.limit

theorem digits_le_limit : 10 ^ type.digits10 ≤ type.limit :=
  Nat.pow_log_le_self 10 type.limit_positive.ne'

/-- With a power beyond `digits10` at most one digit remains. -/
theorem early_units_lt (held : type.Holds integer) (early : type.digits10 + fractionRank ≤ power) :
    powerUnits fractionRank integer power < 10 := by
  have bound := natAbs_le_limit held
  have limit := limit_lt_digits type
  have shift : 10 ^ (type.digits10 + 1) * 10 ^ fractionRank ≤ 10 ^ power * 10 := by
    rw [← pow_add, ← pow_succ]
    exact Nat.pow_le_pow_right (by decide) (by omega)
  rw [powerUnits, Nat.div_lt_iff_lt_mul (Nat.pow_pos (by decide)), mul_comm 10]
  refine lt_of_lt_of_le ?_ shift
  exact Nat.mul_lt_mul_of_pos_right (by omega) (Nat.pow_pos (by decide))

/-- The early return is wrong exactly when it drops a digit. -/
theorem early_units_eq_zero_iff (held : type.Holds integer)
    (early : type.digits10 + fractionRank ≤ power) :
    powerUnits fractionRank integer power = 0 ↔
      ¬ DropsDigit fractionRank type integer power := by
  have bound := natAbs_le_limit held
  have limit := limit_lt_digits type
  have unit : 0 < 10 ^ fractionRank := Nat.pow_pos (by decide)
  rw [powerUnits, Nat.div_eq_zero_iff_lt (Nat.pow_pos (by decide))]
  by_cases exactly : power = type.digits10 + fractionRank
  · rw [DropsDigit, exactly, pow_add]
    simp
  · have shift : 10 ^ (type.digits10 + 1) * 10 ^ fractionRank ≤ 10 ^ power := by
      rw [← pow_add]
      exact Nat.pow_le_pow_right (by decide) (by omega)
    have below : integer.natAbs * 10 ^ fractionRank < 10 ^ (type.digits10 + 1) * 10 ^ fractionRank :=
      Nat.mul_lt_mul_of_pos_right (by omega) unit
    exact iff_of_true (below.trans_le shift) fun drops => exactly drops.1

/-- The early return, also that of zero: at most one digit remains, and it is dropped only
then. -/
theorem early_units (held : type.Holds integer)
    (early : type.digits10 + fractionRank ≤ power ∨ integer = 0) :
    powerUnits fractionRank integer power < 10 ∧
      (powerUnits fractionRank integer power = 0 ↔
        ¬ DropsDigit fractionRank type integer power) := by
  rcases early with beyond | rfl
  · exact ⟨early_units_lt held beyond, early_units_eq_zero_iff held beyond⟩
  · simp [powerUnits, DropsDigit]

/-- A construction that ends early does not meet the lowest value. -/
theorem early_not_lowest (early : type.digits10 + fractionRank ≤ power ∨ integer = 0) :
    ¬ MeetsLowest fractionRank type integer power := by
  rintro ⟨-, lowest, short⟩
  have positive := type.limit_positive
  omega

end Early

/-- The split asserts on the most negative value. -/
theorem split_lowest {type : IntType} (signed : type.signed = true) :
    split type (-(type.limit : Int)) = .error .assertion := by
  have positive := type.limit_positive
  have below : -(type.limit : Int) < 0 := by omega
  have missed : ¬ -((type.limit : Int) - 1) ≤ -(type.limit : Int) := by omega
  simp only [split, signed, below, missed]
  rfl

variable {integer : Int} {type : IntType}

/-- Any other value has a magnitude below the limit. -/
theorem natAbs_lt_limit (held : type.Holds integer)
    (inner : ¬ (type.signed = true ∧ integer = -(type.limit : Int))) :
    integer.natAbs < type.limit ∧ (type.signed = true ∨ 0 ≤ integer) := by
  unfold IntType.Holds at held
  cases kind : type.signed with
  | true =>
    simp only [kind, true_and] at held inner
    exact ⟨by omega, .inl rfl⟩
  | false =>
    simp only [kind, Bool.false_eq_true, if_false] at held
    exact ⟨by omega, .inr held.1⟩

/-- The sign of a numerator that is not zero. -/
theorem sign_mul_units (nonzero : integer ≠ 0) {units : Nat} :
    (⟨decide (integer < 0), units⟩ : SignedMagnitude).toInt = integer.sign * units := by
  rcases Int.lt_or_gt_of_ne nonzero with below | above
  · simp [SignedMagnitude.toInt, below, Int.sign_eq_neg_one_of_neg below]
  · have kept : ¬ integer < 0 := by omega
    simp [SignedMagnitude.toInt, kept, Int.sign_eq_one_of_pos above]

namespace Decimal

variable {power : Nat}

variable {format : Format}

open Construction (PowerSlips)

/-- What a construction from a numerator and a power owes. -/
def Constructs (outcome : Except Failure (Decimal format)) (integer : Int) (power : Nat) : Prop :=
  if powerUnits format.fractionRank integer power < 10 ^ format.totalRank then
    ∃ result, outcome = .ok result ∧ result.InRange ∧
      result.signed = integer.sign * powerUnits format.fractionRank integer power
  else outcome = .error .overflow

/-- No construction owes a failed assertion. -/
theorem assertion_not_constructs :
    ¬ Constructs (.error .assertion : Except Failure (Decimal format)) integer power := by
  unfold Constructs
  split_ifs <;> simp

/-- Elements that fill the array already leave the rest as it is. -/
theorem remainingElements_full {low : List Nat} (full : low.length = format.size) :
    remainingElements format type low integer = (low, integer) := by
  have positive := format.size_positive
  have different : ¬ format.size = format.size - 1 := by omega
  simp [remainingElements, full, Element.cutNonzero, different]

section

variable (small : integer.natAbs < type.limit) (kind : type.signed = true ∨ 0 ≤ integer)
include small kind

/-- A numerator that slips past the check of the top element is stored. -/
theorem ofPower_slips (slips : PowerSlips format integer.natAbs power) :
    ∃ result, ofPower format type integer power = .ok result := by
  obtain ⟨cut, shared, large, room⟩ := slips
  have short : power < format.fractionRank := by
    by_contra beyond
    rw [Nat.sub_eq_zero_of_le (le_of_not_gt beyond)] at cut
    simp at cut
  have nonzero : integer ≠ 0 := by
    rintro rfl
    simp at large
  have late : ¬ (type.digits10 + format.fractionRank ≤ power ∨ integer = 0) := by
    rintro (early | zero)
    · omega
    · exact nonzero zero
  obtain ⟨numerator, dropped, numeratorSmall, scaled⟩ :=
    droppedDigits_exact format type power small (by omega)
  have shift : format.fractionRank - min power format.fractionRank =
      format.fractionRank - power := by omega
  rw [shift] at scaled
  obtain ⟨low, rest, shifted, -, -, -, lowValue, -⟩ := shiftedElements_exact format type
    numeratorSmall (Nat.sub_le _ _)
  have full : low.length = format.size := by
    have length : (shiftedElements format type numerator (format.fractionRank - power)).1.length =
        format.size := by simp [shiftedElements, cut, shared]
    rwa [shifted] at length
  have settled : rest = 0 := by
    rw [full] at lowValue
    exact eq_zero_of_share_lt (format.base ^ format.size) (by omega)
  refine ⟨⟨decide (integer < 0), low⟩, ?_⟩
  unfold ofPower
  rw [if_neg late, split_exact type small kind]
  subst settled
  simp only [ok_bind, dropped, shift, shifted]
  rw [remainingElements_full full]
  rfl

/-- The sign of a decimal constructed late is that of the numerator. -/
theorem ofPower_negative {result : Decimal format}
    (late : ¬ (type.digits10 + format.fractionRank ≤ power ∨ integer = 0))
    (computed : ofPower format type integer power = .ok result) :
    result.negative = decide (integer < 0) := by
  unfold ofPower at computed
  rw [split_exact type small kind] at computed
  simp only [ok_bind] at computed
  split_ifs at computed
  all_goals
    cases computed
    rfl

end

/-- The early return stores zero, which is exact unless a digit is dropped. -/
theorem early_constructs_iff (held : type.Holds integer)
    (early : type.digits10 + format.fractionRank ≤ power ∨ integer = 0) :
    Constructs (ofPower format type integer power) integer power ↔
      ¬ DropsDigit format.fractionRank type integer power := by
  have zeroValue : (⟨false, List.replicate format.size 0⟩ : Decimal format).magnitude = 0 :=
    Nat.ofDigits_replicate_zero
  have zeroRange : (⟨false, List.replicate format.size 0⟩ : Decimal format).InRange :=
    .of_magnitude List.length_replicate (bounded_replicate_zero format.base_positive _)
      (zeroValue.trans_lt (Nat.pow_pos (by decide)))
  obtain ⟨small, dropped⟩ := early_units held early
  have room : 10 ≤ 10 ^ format.totalRank := Nat.le_self_pow format.totalPositive.ne' 10
  rw [ofPower, if_pos early, Constructs, if_pos (small.trans_le room), ← dropped]
  constructor
  · rintro ⟨result, stored, -, same⟩
    cases stored
    rw [signed, number, zeroValue] at same
    rcases Int.mul_eq_zero.mp same.symm with none | none
    · simp [powerUnits, Int.sign_eq_zero_iff_zero.mp none]
    · exact_mod_cast none
  · intro none
    refine ⟨_, rfl, zeroRange, ?_⟩
    rw [none, signed, number, zeroValue]
    simp [SignedMagnitude.toInt]

/-- A late construction of a numerator that can be split is exact unless it slips past
the check of the top element. -/
theorem late_constructs_iff (small : integer.natAbs < type.limit)
    (kind : type.signed = true ∨ 0 ≤ integer)
    (late : ¬ (type.digits10 + format.fractionRank ≤ power ∨ integer = 0)) :
    Constructs (ofPower format type integer power) integer power ↔
      ¬ PowerSlips format integer.natAbs power := by
  have short : ¬ type.digits10 + format.fractionRank ≤ power := fun early => late (.inl early)
  have ends := ofPower_ends format type power small kind
  unfold Constructs
  constructor
  · intro constructs slips
    obtain ⟨result, stored⟩ := ofPower_slips small kind slips
    have large : 10 ^ format.totalRank ≤ powerUnits format.fractionRank integer power := slips.2.2.1
    rw [if_neg (Nat.not_lt.mpr large), stored] at constructs
    cases constructs
  · intro fair
    cases outcome : ofPower format type integer power with
    | error failure =>
      rw [outcome] at ends
      obtain ⟨rfl, large⟩ := ends
      change 10 ^ format.totalRank ≤ powerUnits format.fractionRank integer power at large
      rw [if_neg (Nat.not_lt.mpr large)]
    | ok result =>
      have stored := ends.of_ok outcome
      have value : result.magnitude = powerUnits format.fractionRank integer power :=
        stored.magnitude.resolve_right fun dropped => short dropped.1
      have below : result.magnitude < 10 ^ format.totalRank := by
        by_contra large
        obtain ⟨cut, shared⟩ := stored.fits.resolve_left large
        have room := value_lt stored.bounded
        rw [stored.length] at room
        change result.magnitude < _ at room
        rw [value] at room large
        exact fair ⟨cut, shared, le_of_not_gt large, room⟩
      rw [if_pos (value ▸ below)]
      refine ⟨result, rfl, .of_magnitude stored.length stored.bounded below, ?_⟩
      rw [signed, number, ofPower_negative small kind late outcome, value]
      exact sign_mul_units (fun zero => late (.inr zero))

/-- The construction is exact unless it drops a digit, meets the most negative value or
slips past the check of the top element. -/
theorem ofPower_constructs_iff (held : type.Holds integer) (power : Nat) :
    Constructs (ofPower format type integer power) integer power ↔
      ¬ DropsDigit format.fractionRank type integer power ∧
        ¬ MeetsLowest format.fractionRank type integer power ∧
        ¬ PowerSlips format integer.natAbs power := by
  by_cases early : type.digits10 + format.fractionRank ≤ power ∨ integer = 0
  · have room : 10 ≤ 10 ^ format.totalRank := Nat.le_self_pow format.totalPositive.ne' 10
    have passed : ¬ MeetsLowest format.fractionRank type integer power := early_not_lowest early
    have fair : ¬ PowerSlips format integer.natAbs power := fun slips =>
      absurd (slips.2.2.1) (Nat.not_le.mpr ((early_units held early).1.trans_le room))
    rw [early_constructs_iff held early]
    simp [passed, fair]
  have kept : ¬ DropsDigit format.fractionRank type integer power :=
    fun drops => early (.inl drops.1.ge)
  by_cases lowest : type.signed = true ∧ integer = -(type.limit : Int)
  · obtain ⟨signed, rfl⟩ := lowest
    have met : MeetsLowest format.fractionRank type (-(type.limit : Int)) power :=
      ⟨signed, rfl, lt_of_not_ge fun beyond => early (.inl beyond)⟩
    refine iff_of_false ?_ fun fair => fair.2.1 met
    have failed : ofPower format type (-(type.limit : Int)) power = .error .assertion := by
      rw [ofPower, if_neg early, split_lowest signed]
      rfl
    rw [failed]
    exact assertion_not_constructs
  · obtain ⟨small, kind⟩ := natAbs_lt_limit held lowest
    have passed : ¬ MeetsLowest format.fractionRank type integer power :=
      fun met => lowest ⟨met.1, met.2.1⟩
    rw [late_constructs_iff small kind early]
    simp [kept, passed]

end Decimal

namespace SimpleDecimal

variable {format : SimpleFormat}

/-- `SimpleDecimal::construct_` from a numerator and a power of ten. -/
def ofPower (format : SimpleFormat) (type : IntType) (integer : Int) (power : Nat) :
    Except Failure (SimpleDecimal format) :=
  if type.digits10 + format.fractionRank ≤ power ∨ integer = 0 then .ok ⟨false, 0⟩
  else do
    let (integer, negative) ← split type integer
    if power = format.fractionRank then
      if exceeds integer format.maxValue then throw .overflow
      else return ⟨negative, format.base.cast integer⟩
    else if format.fractionRank < power then
      let integer := type.wrap (type.quot integer type (10 ^ (power - format.fractionRank) : Nat))
      if exceeds integer format.maxValue then throw .overflow
      else return ⟨negative, format.base.cast integer⟩
    else
      let mul := format.base.readyPower (format.fractionRank - power)
      if exceeds integer (format.maxValue / mul) then throw .overflow
      else return ⟨negative, format.base.wrap (format.base.cast integer * mul)⟩

/-- What a construction from a numerator and a power owes. -/
def Constructs (outcome : Except Failure (SimpleDecimal format)) (integer : Int) (power : Nat) :
    Prop :=
  if powerUnits format.fractionRank integer power < 10 ^ format.totalRank then
    ∃ result, outcome = .ok result ∧ result.Valid ∧
      result.signed = integer.sign * powerUnits format.fractionRank integer power
  else outcome = .error .overflow

/-- No construction owes a failed assertion. -/
theorem assertion_not_constructs {power : Nat} :
    ¬ Constructs (.error .assertion : Except Failure (SimpleDecimal format)) integer power := by
  unfold Constructs
  split_ifs <;> simp

theorem exceeds_natCast {value : Nat} (small : value < 2 ^ 64) (bound : Nat) :
    exceeds value bound = decide (bound ≤ value) := by
  have reduced : ((value : Int) % 2 ^ 64).toNat = value := by omega
  rw [exceeds, reduced]

/-- A check that compares the units with the limit, and data that are the units. -/
theorem checked_constructs {data : Nat} {exceeded : Bool}
    (nonzero : integer ≠ 0)
    (test : exceeded = true ↔
      10 ^ format.totalRank ≤ powerUnits format.fractionRank integer power)
    (stored : powerUnits format.fractionRank integer power < 10 ^ format.totalRank →
      data = powerUnits format.fractionRank integer power) :
    Constructs (if exceeded then throw .overflow
      else return (⟨decide (integer < 0), data⟩ : SimpleDecimal format)) integer power := by
  unfold Constructs
  split_ifs with small raised raised
  · exact absurd (test.mp raised) (Nat.not_le.mpr small)
  · rw [stored small]
    refine ⟨_, rfl, small, ?_⟩
    exact sign_mul_units nonzero
  · rfl
  · exact absurd (test.mpr (le_of_not_gt small)) raised

/-- A power beyond the fraction cuts digits off. -/
theorem powerUnits_beyond {fractionRank : Nat} (integer : Int) (beyond : fractionRank ≤ power) :
    powerUnits fractionRank integer power = integer.natAbs / 10 ^ (power - fractionRank) := by
  obtain ⟨rest, rfl⟩ := Nat.exists_eq_add_of_le beyond
  rw [powerUnits, pow_add, mul_comm, Nat.mul_div_mul_left _ _ (Nat.pow_pos (by decide)),
    Nat.add_sub_cancel_left]

/-- A power within the fraction adds zeros. -/
theorem powerUnits_within {fractionRank : Nat} (integer : Int) (within : power ≤ fractionRank) :
    powerUnits fractionRank integer power = integer.natAbs * 10 ^ (fractionRank - power) := by
  obtain ⟨rest, rfl⟩ := Nat.exists_eq_add_of_le within
  rw [powerUnits, pow_add, mul_left_comm, Nat.mul_div_cancel_left _ (Nat.pow_pos (by decide)),
    Nat.add_sub_cancel_left]

/-- A late construction of a numerator that can be split is exact. -/
theorem late_constructs (small : integer.natAbs < type.limit)
    (kind : type.signed = true ∨ 0 ≤ integer)
    (late : ¬ (type.digits10 + format.fractionRank ≤ power ∨ integer = 0)) :
    Constructs (ofPower format type integer power) integer power := by
  have nonzero : integer ≠ 0 := fun zero => late (.inr zero)
  have word := type.limit_le_word
  have cast {units : Nat} (fits : units < 10 ^ format.totalRank) : format.base.cast units = units := by
    rw [Element.cast_natCast, Element.wrap_eq (fits.trans format.maxValue_lt)]
  rw [ofPower, if_neg late, Decimal.split_exact type small kind]
  simp only [ok_bind]
  by_cases whole : power = format.fractionRank
  · have units : powerUnits format.fractionRank integer power = integer.natAbs := by
      rw [powerUnits_beyond integer whole.ge, whole, Nat.sub_self, pow_zero, Nat.div_one]
    rw [if_pos whole]
    refine checked_constructs nonzero ?_ fun fits => ?_
    · rw [exceeds_natCast (by omega), decide_eq_true_iff, units, format.maxValue_eq]
    · rw [units] at fits ⊢
      exact cast fits
  rw [if_neg whole]
  by_cases beyond : format.fractionRank < power
  · have units := powerUnits_beyond integer beyond.le
    have divisor : 10 ^ (power - format.fractionRank) < type.limit := by
      refine lt_of_lt_of_le ?_ digits_le_limit
      exact Nat.pow_lt_pow_right (by decide) (by omega)
    have less : integer.natAbs / 10 ^ (power - format.fractionRank) ≤ integer.natAbs :=
      Nat.div_le_self _ _
    rw [if_pos beyond, IntType.quot_natCast _ _ _ _ small divisor,
      IntType.wrap_natCast (by omega)]
    refine checked_constructs nonzero ?_ fun fits => ?_
    · rw [exceeds_natCast (by omega), decide_eq_true_iff, units, format.maxValue_eq]
    · rw [units] at fits ⊢
      exact cast fits
  · have within : power ≤ format.fractionRank := le_of_not_gt beyond
    have units := powerUnits_within integer within
    have unit : 0 < 10 ^ (format.fractionRank - power) := Nat.pow_pos (by decide)
    have divides : 10 ^ (format.fractionRank - power) ∣ 10 ^ format.totalRank := by
      have bounded := format.fractionBounded
      exact pow_dvd_pow 10 (by omega)
    have mul : format.base.readyPower (format.fractionRank - power) =
        10 ^ (format.fractionRank - power) := readyPower_cut
    rw [if_neg beyond, mul]
    refine checked_constructs nonzero ?_ fun fits => ?_
    · obtain ⟨count, limit⟩ := divides
      rw [exceeds_natCast (by omega), decide_eq_true_iff, units, format.maxValue_eq, limit,
        Nat.mul_div_cancel_left _ unit, mul_comm, Nat.mul_le_mul_right_iff unit]
    · rw [units] at fits ⊢
      have narrow := Nat.le_mul_of_pos_right integer.natAbs unit
      rw [cast (by omega), Element.wrap_eq (fits.trans format.maxValue_lt)]

/-- The construction is exact unless it drops a digit or meets the most negative value. -/
theorem ofPower_constructs_iff (held : type.Holds integer)
    (power : Nat) :
    Constructs (ofPower format type integer power) integer power ↔
      ¬ DropsDigit format.fractionRank type integer power ∧
        ¬ MeetsLowest format.fractionRank type integer power := by
  by_cases early : type.digits10 + format.fractionRank ≤ power ∨ integer = 0
  · have room : 10 ≤ 10 ^ format.totalRank := Nat.le_self_pow format.totalPositive.ne' 10
    obtain ⟨small, dropped⟩ := early_units held early
    have passed := early_not_lowest early
    rw [ofPower, if_pos early, Constructs, if_pos (small.trans_le room), ← dropped]
    constructor
    · rintro ⟨result, stored, -, same⟩
      cases stored
      refine ⟨?_, passed⟩
      rcases Int.mul_eq_zero.mp same.symm with none | none
      · simp [powerUnits, Int.sign_eq_zero_iff_zero.mp none]
      · exact_mod_cast none
    · rintro ⟨none, -⟩
      refine ⟨_, rfl, Nat.pow_pos (by decide), ?_⟩
      rw [none]
      simp [signed, number, SignedMagnitude.toInt]
  have kept : ¬ DropsDigit format.fractionRank type integer power :=
    fun drops => early (.inl drops.1.ge)
  by_cases lowest : type.signed = true ∧ integer = -(type.limit : Int)
  · obtain ⟨signed, rfl⟩ := lowest
    have met : MeetsLowest format.fractionRank type (-(type.limit : Int)) power :=
      ⟨signed, rfl, lt_of_not_ge fun beyond => early (.inl beyond)⟩
    refine iff_of_false ?_ fun fair => fair.2 met
    have failed : ofPower format type (-(type.limit : Int)) power = .error .assertion := by
      rw [ofPower, if_neg early, split_lowest signed]
      rfl
    rw [failed]
    exact assertion_not_constructs
  · obtain ⟨small, kind⟩ := natAbs_lt_limit held lowest
    exact iff_of_true (late_constructs small kind early)
      ⟨kept, fun met => lowest ⟨met.1, met.2.1⟩⟩

end SimpleDecimal

open Decimal.Construction (PowerSlips)

/-- Both constructions from a numerator of any integer type and a power are exact, or
refuse what has too many digits, exactly if no digit is dropped by the early return, the
numerator is not the most negative value of its type where it is split, and, for the
multi-limb class, it does not slip past the check of the top element. -/
theorem power_constructions_exact_iff (format : Format) (simpleFormat : SimpleFormat)
    (type : IntType) (integer : Int) (held : type.Holds integer) (power : Nat) :
    (Decimal.Constructs (Decimal.ofPower format type integer power) integer power ↔
        ¬ DropsDigit format.fractionRank type integer power ∧
          ¬ MeetsLowest format.fractionRank type integer power ∧
          ¬ PowerSlips format integer.natAbs power) ∧
      (SimpleDecimal.Constructs (SimpleDecimal.ofPower simpleFormat type integer power) integer
          power ↔
        ¬ DropsDigit simpleFormat.fractionRank type integer power ∧
          ¬ MeetsLowest simpleFormat.fractionRank type integer power) :=
  ⟨Decimal.ofPower_constructs_iff held power, SimpleDecimal.ofPower_constructs_iff held power⟩

theorem power_constructions_exact_iff_bytes :
    let format : SimpleFormat := ⟨.uint32, 6, 2, by decide, by decide, by decide⟩
    SimpleDecimal.Constructs (SimpleDecimal.ofPower format .int32 (-12345) 3) (-12345) 3 := by
  intro format
  have exactly := (power_constructions_exact_iff .bytes format .int32 (-12345) (by decide) 3).2
  exact exactly.mpr ⟨fun drops => absurd drops.1 (by decide), fun met => absurd met.2.1 (by decide)⟩

/-- Two thousand millions by ten to the eleventh are two hundredths, which both classes
drop. -/
theorem largest_digit_dropped :
    let format : SimpleFormat := ⟨.uint32, 6, 2, by decide, by decide, by decide⟩
    IntType.int32.Holds 2000000000 ∧ powerUnits 2 2000000000 11 = 2 ∧
      Decimal.ofPower .bytes .int32 2000000000 11 = .ok ⟨false, [0, 0, 0]⟩ ∧
      SimpleDecimal.ofPower format .int32 2000000000 11 = .ok ⟨false, 0⟩ := by
  decide

end UnixCommons.Generics
