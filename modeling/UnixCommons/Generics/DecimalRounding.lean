import UnixCommons.Generics.DecimalCutting
import UnixCommons.Generics.SimpleDecimal

/-!
# Cutting one-word decimals, and agreement with the multi-limb ones

The one-word decimal cuts its data by a division with the weight of the first digit
that is kept. Its rounding up is compared with the limit by equality alone; that is
enough, since the limit is itself a multiple of the weight.

A number held by both classes with the same ranks is cut by both to the same number,
and rounding it up overflows in both or in neither.
-/

namespace UnixCommons.Generics

/-- `DecimalHelper::pow10` for a power in its table: the entry converted to the type. -/
def Element.readyPower (base : Element) (power : Nat) : Nat := base.wrap (10 ^ power)

theorem Element.readyPower_eq {base : Element} {power : Nat} (fits : power ≤ base.digits10) :
    base.readyPower power = 10 ^ power :=
  Element.wrap_eq (base.pow_lt_modulus fits)

namespace SimpleDecimal

variable {format : SimpleFormat}

/-- `SimpleDecimal::floor`. -/
def floor (decimal : SimpleDecimal format) (fraction : Nat) : SimpleDecimal format :=
  if format.fractionRank ≤ fraction then decimal
  else
    let pow := format.base.readyPower (format.fractionRank - fraction)
    if decimal.data % pow ≠ 0 then
      { decimal with data := format.base.wrap (decimal.data / pow * pow) }
    else decimal

/-- `SimpleDecimal::ceil`. -/
def ceil (decimal : SimpleDecimal format) (fraction : Nat) :
    Except Failure (SimpleDecimal format) :=
  if format.fractionRank ≤ fraction then .ok decimal
  else
    let pow := format.base.readyPower (format.fractionRank - fraction)
    if decimal.data % pow ≠ 0 then
      let data := format.base.wrap ((decimal.data / pow + 1) * pow)
      if data = format.maxValue then .error .overflow else .ok { decimal with data }
    else .ok decimal

/-- The weight of the first digit a cut keeps, in units of the last digit. -/
def cutUnit (format : SimpleFormat) (fraction : Nat) : Nat := 10 ^ (format.fractionRank - fraction)

theorem readyPower_cut {format : SimpleFormat} {fraction : Nat} :
    format.base.readyPower (format.fractionRank - fraction) = cutUnit format fraction := by
  have bounded := format.fractionBounded
  have fits := format.totalFits
  exact Element.readyPower_eq (by omega)

theorem cutUnit_of_le {fraction : Nat} (kept : format.fractionRank ≤ fraction) :
    cutUnit format fraction = 1 := by
  simp [cutUnit, Nat.sub_eq_zero_of_le kept]

/-- The next multiple of the weight reaches the limit at most. -/
theorem raised_le {data : Nat} (small : data < 10 ^ format.totalRank) (fraction : Nat) :
    (data / cutUnit format fraction + 1) * cutUnit format fraction ≤ 10 ^ format.totalRank := by
  have bounded := format.fractionBounded
  have divides : cutUnit format fraction ∣ 10 ^ format.totalRank := pow_dvd_pow 10 (by omega)
  obtain ⟨count, whole⟩ := divides
  rw [whole] at small ⊢
  rw [Nat.mul_comm]
  exact Nat.mul_le_mul_left _ (Nat.div_lt_of_lt_mul small)

variable (decimal : SimpleDecimal format) (valid : decimal.Valid) (fraction : Nat)
include valid fraction

/-- `floor` keeps the multiples of the cut's unit below the magnitude, and the sign. -/
theorem floor_exact :
    (decimal.floor fraction).number =
      ⟨decimal.negative, decimal.data / cutUnit format fraction * cutUnit format fraction⟩ := by
  have whole := @cutUnit_of_le format fraction
  simp only [floor, readyPower_cut]
  generalize cutUnit format fraction = unit at *
  have split := Nat.div_add_mod' decimal.data unit
  have fits : format.base.wrap (decimal.data / unit * unit) = decimal.data / unit * unit := by
    apply Element.wrap_eq
    exact (Nat.div_mul_le_self _ _).trans_lt (valid.trans format.maxValue_lt)
  simp only [fits]
  split_ifs with kept cut
  · simp [number, whole kept]
  · rfl
  · have aligned : decimal.data / unit * unit = decimal.data := by omega
    simp [number, aligned]

/-- `ceil` raises the magnitude to a multiple of the cut's unit and keeps the sign; it
overflows exactly when that multiple is the limit. -/
theorem ceil_delivers :
    Delivers (decimal.ceil fraction) ⟨decimal.negative,
      Rounding.ceiling (decimal.data / cutUnit format fraction) * cutUnit format fraction⟩ := by
  have whole := @cutUnit_of_le format fraction
  have raised := raised_le valid fraction
  rw [Rounding.ceiling_quotient _ (cutUnit ..) (Nat.pow_pos (by decide))]
  simp only [ceil, readyPower_cut]
  generalize cutUnit format fraction = unit at *
  have split := Nat.div_add_mod' decimal.data unit
  have fits : format.base.wrap ((decimal.data / unit + 1) * unit) =
      (decimal.data / unit + 1) * unit :=
    Element.wrap_eq (raised.trans_lt format.maxValue_lt)
  have kept : Delivers (.ok decimal) decimal.number := by
    unfold Delivers
    rw [if_pos (by exact valid)]
    rfl
  simp only [fits, format.maxValue_eq]
  by_cases fine : format.fractionRank ≤ fraction
  · simpa [whole fine, Nat.mod_one, number] using kept
  by_cases aligned : decimal.data % unit = 0
  · have same : decimal.data / unit * unit = decimal.data := by omega
    simpa [aligned, same, number] using kept
  by_cases full : (decimal.data / unit + 1) * unit = 10 ^ format.totalRank
  · simp [Delivers, fine, aligned, full]
  · have below := lt_of_le_of_ne raised full
    simp [Delivers, fine, aligned, full, below]

end SimpleDecimal

/-- A number held with the same ranks by a multi-limb and by a one-word decimal is cut
by both to the multiple of the cut's unit below its magnitude, and raised by both to the
multiple above or refused by both. -/
theorem cuts_agree {format : Format} {simpleFormat : SimpleFormat}
    (total : format.totalRank = simpleFormat.totalRank)
    (fractions : format.fractionRank = simpleFormat.fractionRank)
    {decimal : Decimal format} {simple : SimpleDecimal simpleFormat} (inRange : decimal.InRange)
    (valid : simple.Valid) (same : decimal.number = simple.number) (fraction : Nat) :
    let unit := 10 ^ (format.fractionRank - fraction)
    let floored : SignedMagnitude := ⟨decimal.negative, decimal.magnitude / unit * unit⟩
    let raised : SignedMagnitude :=
      ⟨decimal.negative, Rounding.ceiling (decimal.magnitude / unit) * unit⟩
    ((decimal.floor fraction).InRange ∧ (decimal.floor fraction).number = floored) ∧
      ((simple.floor fraction).Valid ∧ (simple.floor fraction).number = floored) ∧
      Decimal.Delivers (decimal.ceil fraction) raised ∧
      SimpleDecimal.Delivers (simple.ceil fraction) raised := by
  intro unit floored raised
  obtain ⟨signs, magnitudes⟩ : decimal.negative = simple.negative ∧
      decimal.magnitude = simple.data := by simpa [Decimal.number, SimpleDecimal.number] using same
  have simpleUnit : SimpleDecimal.cutUnit simpleFormat fraction = unit := by
    simp [SimpleDecimal.cutUnit, unit, fractions]
  have simpleFloor := SimpleDecimal.floor_exact simple valid fraction
  have simpleCeil := SimpleDecimal.ceil_delivers simple valid fraction
  rw [simpleUnit, ← signs, ← magnitudes] at simpleFloor simpleCeil
  have decimalCeil := Decimal.ceil_delivers decimal inRange fraction
  refine ⟨Decimal.floor_exact decimal inRange, ⟨?_, simpleFloor⟩, ?_, ?_⟩
  · have data : (simple.floor fraction).data = decimal.magnitude / unit * unit :=
      congrArg SignedMagnitude.magnitude simpleFloor
    rw [SimpleDecimal.Valid, data, ← total]
    exact (Nat.div_mul_le_self _ _).trans_lt inRange.magnitude_lt
  · simpa [raised, unit, Decimal.cutUnit] using decimalCeil
  · simpa using simpleCeil

theorem cuts_agree_bytes :
    let simpleFormat : SimpleFormat := ⟨.uint32, 6, 2, by decide, by decide, by decide⟩
    let decimal : Decimal Format.bytes := ⟨true, [51, 99, 99]⟩
    let simple : SimpleDecimal simpleFormat := ⟨true, 999951⟩
    (decimal.floor 1).number = (simple.floor 1).number := by
  intro simpleFormat decimal simple
  have agree := @cuts_agree Format.bytes simpleFormat rfl rfl decimal simple (by decide)
    (by decide) (by decide) 1
  exact agree.1.2.trans agree.2.1.2.symm

end UnixCommons.Generics
