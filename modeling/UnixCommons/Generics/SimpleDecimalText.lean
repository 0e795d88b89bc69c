import UnixCommons.Generics.DecimalText
import UnixCommons.Generics.SimpleDecimal

/-!
# One-word decimals and text

The parser accumulates the written digits in the base type and scales them at the end.
Integer digits are guarded by a comparison before each step, fraction digits by a count
of those still allowed. The printer fills a buffer of two characters more than the total
rank from its end.

Three kinds of numerals of representable values are not read as written. More fraction
digits than the rank are refused even when they are zeros, and so is a point when there
is no fraction rank. With no integer rank the guard of the integer digits refuses every
digit. With one fraction digit a point without digits behind it leaves the number
unscaled. The laws below are about all other numerals.
-/

namespace UnixCommons.Generics

open List

open Numeral (reading digitOf digitChar Digits)

namespace SimpleDecimal

variable {format : SimpleFormat}

/-- Why `extract_decimal` reports a failure. -/
inductive ExtractFailure where
  | emptyString
  | emptyNumber
  | longInteger
  | longFraction
deriving DecidableEq, Repr

/-- `DecimalHelper::skip` on the characters after the current one: whether the digits
reach the end. -/
def skip (text : List Char) : Bool := (text.dropWhile Char.isDigit).isEmpty

/-- The loop over integer digits: the number and what follows the digits, or the end
flag of `skip` when the guard refuses a digit. -/
def integerLoop (format : SimpleFormat) : List Char → Nat → Except Bool (Nat × List Char)
  | [], decimal => .ok (decimal, [])
  | character :: rest, decimal =>
    if character.isDigit then
      if decimal < format.maxInteger / 10 then
        integerLoop format rest (format.base.wrap (decimal * 10 + digitOf character))
      else .error (skip rest)
    else .ok (decimal, character :: rest)

/-- The loop over fraction digits, with the count of digits still allowed. -/
def fractionLoop (format : SimpleFormat) :
    List Char → Nat → Nat → Except Bool (Nat × Nat × List Char)
  | [], decimal, digitsLeft => .ok (decimal, digitsLeft, [])
  | character :: rest, decimal, digitsLeft =>
    if character.isDigit then
      if digitsLeft ≠ 0 then
        fractionLoop format rest (format.base.wrap (decimal * 10 + digitOf character))
          (digitsLeft - 1)
      else .error (skip rest)
    else .ok (decimal, digitsLeft, character :: rest)

/-- What `extract_decimal` does behind the integer digits: the data and whether the text
is used up. -/
def extractTail (format : SimpleFormat) (decimal : Nat) (rest : List Char) :
    Except Bool (Nat × Bool) :=
  match rest with
  | '.' :: rest' =>
    if format.fractionRank ≠ 0 then do
      let (decimal, digitsLeft, rest) ← fractionLoop format rest' decimal format.fractionRank
      if 1 < format.fractionRank ∧ 0 < digitsLeft then
        .ok (format.base.wrap (decimal * 10 ^ digitsLeft), rest.isEmpty)
      else .ok (decimal, rest.isEmpty)
    else .ok (format.base.wrap (decimal * format.maxFraction), false)
  | _ => .ok (format.base.wrap (decimal * format.maxFraction), rest.isEmpty)

/-- `DecimalHelper::extract_decimal`: the decimal and the end flag, or a failure with
the end flag. -/
def extractDecimal (format : SimpleFormat) (text : List Char) :
    Except (ExtractFailure × Bool) (SimpleDecimal format × Bool) :=
  let (negative, body) := Decimal.splitSign text
  match body with
  | [] => .error (if text = [] then .emptyString else .emptyNumber, true)
  | first :: _ =>
    if first.isDigit then
      match integerLoop format body 0 with
      | .error eof => .error (.longInteger, eof)
      | .ok (decimal, rest) =>
        match extractTail format decimal rest with
        | .error eof => .error (.longFraction, eof)
        | .ok (data, eof) => .ok (⟨negative, data⟩, eof)
    else .error (.emptyNumber, false)

/-- `SimpleDecimal::construct_` from a string: every failure is reported as `Overflow`,
and characters left over as `NotNumber`. -/
def ofText (format : SimpleFormat) (text : List Char) : Except Failure (SimpleDecimal format) :=
  match extractDecimal format text with
  | .error _ => .error .overflow
  | .ok (decimal, eof) => if eof then .ok decimal else .error .notNumber

/-- The loop that omits trailing zeros of a nonzero fraction: the last digit, the digits
above it and their index. -/
def omitZeros (fraction index : Nat) : Nat × Nat × Nat :=
  if fraction % 10 ≠ 0 ∨ fraction = 0 then (fraction % 10, fraction / 10, index + 1)
  else omitZeros (fraction / 10) (index + 1)
termination_by fraction

/-- The loop that writes the other fraction digits before the buffer's start. -/
def writeFraction (fraction index : Nat) (buf : List Char) : List Char × Nat :=
  if fraction = 0 then (buf, index)
  else writeFraction (fraction / 10) (index + 1) (digitChar (fraction % 10) :: buf)
termination_by fraction

/-- The loop that writes the integer digits before the buffer's start. -/
def writeInteger (elem : Nat) (buf : List Char) : List Char :=
  if elem / 10 = 0 then digitChar (elem % 10) :: buf
  else writeInteger (elem / 10) (digitChar (elem % 10) :: buf)
termination_by elem

/-- The fraction digits as printed. -/
def fractionText (format : SimpleFormat) (fraction : Nat) : List Char :=
  if fraction ≠ 0 then
    let (rest, fraction, index) := omitZeros fraction 0
    let (buf, index) := writeFraction fraction index [digitChar rest]
    List.replicate (format.fractionRank - index) '0' ++ buf
  else ['0']

/-- `SimpleDecimal::decimal_to_char_`: the characters from the returned pointer to the
end of the buffer, which `str` returns. -/
def str (decimal : SimpleDecimal format) : List Char :=
  if decimal.data = 0 then
    if format.fractionRank ≠ 0 then ['0', '.', '0'] else ['0']
  else
    let buf :=
      if format.fractionRank ≠ 0 then
        writeInteger (decimal.data / format.maxFraction)
          ('.' :: fractionText format (decimal.data % format.maxFraction))
      else writeInteger decimal.data []
    if decimal.negative then '-' :: buf else buf

/-- The size of the buffer that `str` prints into. -/
def bufferSize (format : SimpleFormat) : Nat := format.totalRank + 2

/-- No digit follows: the text ends or goes on with another character. -/
def Stops (rest : List Char) : Prop := ∀ character ∈ rest.head?, character.isDigit = false

/-- One step of an accumulation keeps the number that the whole run will give. -/
theorem accumulated (decimal : Nat) (character : Char) (digits : List Char) :
    decimal * 10 ^ (character :: digits).length + reading ((character :: digits).map digitOf) =
      (decimal * 10 + digitOf character) * 10 ^ digits.length + reading (digits.map digitOf) := by
  rw [map_cons, Numeral.reading_cons, length_map, length_cons]
  ring

theorem accumulator_le {decimal : Nat} {digits : List Char} :
    decimal ≤ decimal * 10 ^ digits.length + reading (digits.map digitOf) :=
  (Nat.le_mul_of_pos_right decimal (by positivity)).trans (Nat.le_add_right _ _)

/-- The guard admits exactly the digits that keep the number below the integer limit,
so the loop reads a run of digits whose number stays below it. The induction is on the
run; the number read so far is the accumulator. -/
theorem integerLoop_exact (wide : 0 < format.integerRank) {digits rest : List Char}
    (decimal : Nat) (allDigits : Digits digits) (stops : Stops rest)
    (small : decimal * 10 ^ digits.length + reading (digits.map digitOf) <
      10 ^ format.integerRank) :
    integerLoop format (digits ++ rest) decimal =
      .ok (decimal * 10 ^ digits.length + reading (digits.map digitOf), rest) := by
  induction digits generalizing decimal with
  | nil =>
    cases rest with
    | nil => simp [integerLoop]
    | cons character rest =>
      have other : character.isDigit = false := stops character rfl
      simp [integerLoop, other]
  | cons character digits ih =>
    have digit : character.isDigit = true := allDigits character (.head _)
    rw [accumulated] at small ⊢
    have next := accumulator_le.trans_lt small
    have fits := next.trans (format.maxInteger_le.trans_lt format.maxValue_lt)
    have guard : decimal < format.maxInteger / 10 := by
      obtain ⟨rank, places⟩ := Nat.exists_eq_succ_of_ne_zero wide.ne'
      rw [places] at next
      rw [format.maxInteger_eq, places]
      omega
    rw [cons_append, integerLoop, if_pos digit, if_pos guard, Element.wrap_eq fits,
      ih _ (fun item inside => allDigits item (.tail _ inside)) small]

/-- The count admits as many fraction digits as are left. -/
theorem fractionLoop_exact (digits rest : List Char) {decimal digitsLeft : Nat}
    (allDigits : Digits digits) (stops : Stops rest) (enough : digits.length ≤ digitsLeft)
    (small : decimal * 10 ^ digits.length + reading (digits.map digitOf) <
      format.base.modulus) :
    fractionLoop format (digits ++ rest) decimal digitsLeft =
      .ok (decimal * 10 ^ digits.length + reading (digits.map digitOf),
        digitsLeft - digits.length, rest) := by
  induction digits generalizing decimal digitsLeft with
  | nil =>
    cases rest with
    | nil => simp [fractionLoop]
    | cons character rest =>
      have other : character.isDigit = false := stops character rfl
      simp [fractionLoop, other]
  | cons character digits ih =>
    have digit : character.isDigit = true := allDigits character (.head _)
    rw [accumulated] at small ⊢
    have next := accumulator_le.trans_lt small
    simp only [length_cons] at enough
    have some : digitsLeft ≠ 0 := by omega
    rw [cons_append, fractionLoop, if_pos digit, if_pos some, Element.wrap_eq next,
      @ih _ _ (fun item inside => allDigits item (.tail _ inside)) (by omega) small,
      length_cons, Nat.sub_sub, add_comm 1]

/-- The numerals that the constructor reads as written: a representable value in no more
fraction digits than the rank, a point only where there is a fraction rank, and digits
behind the point when there is room for one digit only. -/
structure Reads (format : SimpleFormat) (numeral : Numeral) : Prop where
  integer : numeral.integer ≠ []
  fits : numeral.Fits format.integerRank format.fractionRank
  short : numeral.fractionText.length ≤ format.fractionRank
  pointless : format.fractionRank = 0 → numeral.fraction = none
  single : format.fractionRank = 1 → numeral.fraction ≠ some []

theorem ranks (format : SimpleFormat) :
    format.integerRank + format.fractionRank = format.totalRank :=
  Nat.sub_add_cancel format.fractionBounded

variable {numeral : Numeral}

/-- The integer digits of a numeral that fits have a number below the integer limit. -/
theorem integer_lt {integerRank fractionRank : Nat} (fits : numeral.Fits integerRank fractionRank) :
    reading (numeral.integer.map digitOf) < 10 ^ integerRank := by
  rw [← Numeral.reading_dropWhile digitOf (· == '0') Numeral.digitOf_zero]
  exact numeral.integerDigits.dropWhile.reading_lt.trans_le
    (Nat.pow_le_pow_right (by decide) fits.integer)

theorem scaled_lt (fits : numeral.Fits format.integerRank format.fractionRank) :
    numeral.scaled format.fractionRank < 10 ^ format.totalRank := by
  rw [← ranks]
  exact numeral.scaled_lt fits

/-- Behind the integer digits the data become the scaled value. -/
theorem extractTail_exact (reads : Reads format numeral) :
    extractTail format (reading (numeral.integer.map digitOf)) numeral.pointText =
      .ok (numeral.scaled format.fractionRank, true) := by
  have small := (scaled_lt reads.fits).trans format.maxValue_lt
  have scaled := numeral.scaled_eq reads.short
  unfold Numeral.pointText
  cases point : numeral.fraction with
  | none =>
    have none : numeral.fractionText = [] := by simp [Numeral.fractionText, point]
    simp only [none, map_nil, Numeral.reading_nil, Nat.zero_mul, add_zero] at scaled
    simp only [extractTail, format.maxFraction_eq, isEmpty_nil]
    rw [← scaled, Element.wrap_eq small]
  | some fraction =>
    have rank : format.fractionRank ≠ 0 := by
      intro zero
      have := reads.pointless zero
      simp [point] at this
    have same : numeral.fractionText = fraction := by simp [Numeral.fractionText, point]
    have short := reads.short
    rw [same] at scaled short
    have digits : Digits fraction := by
      have all := numeral.fractionDigits
      rwa [point] at all
    have total : numeral.scaled format.fractionRank =
        (reading (numeral.integer.map digitOf) * 10 ^ fraction.length +
          reading (fraction.map digitOf)) * 10 ^ (format.fractionRank - fraction.length) := by
      rw [scaled, add_mul, mul_assoc, ← pow_add, Nat.add_sub_cancel' short]
    generalize reading (numeral.integer.map digitOf) = integer at total ⊢
    have unscaled : integer * 10 ^ fraction.length + reading (fraction.map digitOf) <
        format.base.modulus :=
      (Nat.le_mul_of_pos_right _ (by positivity)).trans_lt (total ▸ small)
    have loop := fractionLoop_exact fraction [] digits
      (by simp [Stops]) short unscaled
    rw [append_nil] at loop
    simp only [extractTail, rank, ne_eq, not_false_eq_true, if_true, loop]
    dsimp only [bind, Except.bind]
    by_cases missing : 1 < format.fractionRank ∧ 0 < format.fractionRank - fraction.length
    · rw [if_pos missing, ← total, Element.wrap_eq small, isEmpty_nil]
    · -- With one digit of fraction rank, that digit is written.
      have full : format.fractionRank - fraction.length = 0 := by
        have written : format.fractionRank = 1 → fraction ≠ [] := by
          rintro one rfl
          exact reads.single one point
        have := @length_eq_zero_iff _ fraction
        by_contra left
        have one : format.fractionRank = 1 := by omega
        exact written one (this.mp (by omega))
      rw [if_neg missing, total, full, pow_zero, mul_one, isEmpty_nil]

/-- A numeral of the readable kind is read as written. -/
theorem ofText_numeral (wide : 0 < format.integerRank) (reads : Reads format numeral) :
    ofText format numeral.text =
      .ok ⟨numeral.sign = .minus, numeral.scaled format.fractionRank⟩ := by
  have stops : Stops numeral.pointText := by
    unfold Numeral.pointText
    cases numeral.fraction with
    | none | some => simp [Stops]
  have loop := integerLoop_exact wide 0 numeral.integerDigits
    stops (by simpa using integer_lt reads.fits)
  rw [Nat.zero_mul, zero_add] at loop
  change integerLoop format numeral.body 0 = _ at loop
  obtain ⟨first, others, shape⟩ := exists_cons_of_ne_nil reads.integer
  have digit : first.isDigit = true := numeral.integerDigits first (by simp [shape])
  have body : numeral.body = first :: (others ++ numeral.pointText) := by
    rw [Numeral.body, shape, cons_append]
  unfold ofText extractDecimal
  rw [Decimal.splitSign_numeral]
  rw [body]
  dsimp only
  rw [if_pos digit, ← body, loop]
  dsimp only
  rw [extractTail_exact reads]
  rfl

/-- Omitting zeros splits off a power of ten. -/
theorem omitZeros_exact {fraction index : Nat} (nonzero : fraction ≠ 0) :
    ∃ rest upper zeros, omitZeros fraction index = (rest, upper, index + zeros + 1) ∧
      rest < 10 ∧ fraction = (upper * 10 + rest) * 10 ^ zeros := by
  induction fraction using Nat.strong_induction_on generalizing index with
  | _ fraction ih =>
    unfold omitZeros
    by_cases stop : fraction % 10 ≠ 0 ∨ fraction = 0
    · rw [if_pos stop]
      exact ⟨_, _, 0, rfl, Nat.mod_lt _ (by decide), by rw [pow_zero]; omega⟩
    · rw [if_neg stop]
      obtain ⟨rest, upper, zeros, omitted, small, value⟩ := @ih (fraction / 10) (by omega)
        (index + 1) (by omega)
      refine ⟨rest, upper, zeros + 1, by rw [omitted]; congr 2; omega, small, ?_⟩
      rw [pow_succ, ← mul_assoc]
      omega

/-- What a loop writes in front of the buffer: digits of the number, as many as it has. -/
structure Written (number : Nat) (characters : List Char) : Prop where
  digits : Digits characters
  value : reading (characters.map digitOf) = number
  short : ∀ rank, number < 10 ^ rank → characters.length ≤ rank

/-- The last digit goes behind the digits of the number above it. -/
theorem Written.append {number : Nat} {characters : List Char}
    (written : Written (number / 10) characters) :
    Digits (characters ++ [digitChar (number % 10)]) ∧
      reading ((characters ++ [digitChar (number % 10)]).map digitOf) = number := by
  obtain ⟨value, digit, -⟩ := Numeral.digitChar_facts (Nat.mod_lt number (by decide : 0 < 10))
  constructor
  · intro character inside
    rcases mem_append.mp inside with upper | last
    · exact written.digits character upper
    · rw [mem_singleton.mp last]
      exact digit
  · rw [map_append, Numeral.reading_append, written.value]
    simp only [map_cons, map_nil, length_singleton,
      Numeral.reading_singleton]
    omega

/-- The digits of the fraction, without its zeros at the end. -/
theorem writeFraction_exact {fraction index : Nat} {buf : List Char} :
    ∃ characters, writeFraction fraction index buf =
      (characters ++ buf, index + characters.length) ∧ Written fraction characters := by
  induction fraction using Nat.strong_induction_on generalizing index buf with
  | _ fraction ih =>
    unfold writeFraction
    by_cases zero : fraction = 0
    · exact ⟨[], by simp [zero], by simp [Digits], by simp [zero], by simp⟩
    · rw [if_neg zero]
      obtain ⟨characters, wrote, written⟩ := @ih (fraction / 10) (by omega) (index + 1)
        (digitChar (fraction % 10) :: buf)
      obtain ⟨digits, value⟩ := written.append
      refine ⟨characters ++ [digitChar (fraction % 10)], ?_, digits, value, ?_⟩
      · rw [wrote]
        simp only [append_assoc, singleton_append, length_append,
          length_singleton, Prod.mk.injEq, true_and]
        omega
      · intro rank small
        cases rank with
        | zero => omega
        | succ rank =>
          have := written.short rank (by omega)
          simpa using this

/-- A nonzero number is written the same way on both sides of the point. -/
theorem writeInteger_eq (elem index : Nat) {buf : List Char} (nonzero : elem ≠ 0) :
    writeInteger elem buf = (writeFraction elem index buf).1 := by
  induction elem using Nat.strong_induction_on generalizing index buf with
  | _ elem ih =>
    unfold writeInteger writeFraction
    rw [if_neg nonzero]
    by_cases last : elem / 10 = 0
    · rw [if_pos last, last, writeFraction, if_pos rfl]
    · rw [if_neg last]
      exact @ih (elem / 10) (by omega) (index + 1) _ last

/-- The integer part has one digit at least, also for a number without digits. -/
theorem writeInteger_exact {elem : Nat} {buf : List Char} :
    ∃ characters, writeInteger elem buf = characters ++ buf ∧ Digits characters ∧
      characters ≠ [] ∧ reading (characters.map digitOf) = elem ∧
      ∀ rank, elem < 10 ^ rank → characters.length ≤ max rank 1 := by
  by_cases zero : elem = 0
  · subst zero
    have wrote : writeInteger 0 buf = ['0'] ++ buf := by
      unfold writeInteger
      rfl
    exact ⟨['0'], wrote, by decide, by decide, by decide, by simp⟩
  · obtain ⟨characters, wrote, written⟩ := writeFraction_exact
    refine ⟨characters, by rw [writeInteger_eq elem 0 zero, wrote], written.digits, ?_,
      written.value, fun rank small => (written.short rank small).trans (le_max_left _ _)⟩
    rintro rfl
    exact zero written.value.symm

/-- The printed fraction digits, scaled to the rank, are the fraction. -/
theorem fractionText_exact {fraction : Nat} (rank : format.fractionRank ≠ 0)
    (small : fraction < 10 ^ format.fractionRank) :
    Digits (fractionText format fraction) ∧ fractionText format fraction ≠ [] ∧
      (fractionText format fraction).length ≤ format.fractionRank ∧
      reading ((fractionText format fraction).map digitOf) *
        10 ^ (format.fractionRank - (fractionText format fraction).length) = fraction := by
  unfold fractionText
  by_cases zero : fraction = 0
  · subst zero
    rw [if_neg (by simp)]
    exact ⟨by decide, by decide, by simp; omega, by simp [digitOf]⟩
  · rw [if_pos zero]
    obtain ⟨rest, upper, zeros, omitted, digit, value⟩ := omitZeros_exact zero
    obtain ⟨characters, wrote, written⟩ :=
      writeFraction_exact
    obtain ⟨restValue, restDigit, -⟩ := Numeral.digitChar_facts digit
    rw [omitted]
    dsimp only
    rw [wrote]
    dsimp only
    -- The zeros omitted at the end leave room for the other digits.
    have some : 0 < upper * 10 + rest := by
      by_contra none
      rw [Nat.le_zero.mp (Nat.le_of_not_lt none), Nat.zero_mul] at value
      exact zero value
    have room : characters.length + zeros + 1 ≤ format.fractionRank := by
      rw [value] at small
      have fewer : zeros < format.fractionRank := by
        refine (Nat.pow_lt_pow_iff_right (by decide : 1 < 10)).mp (lt_of_le_of_lt ?_ small)
        exact Nat.le_mul_of_pos_left _ some
      obtain ⟨places, total⟩ := Nat.exists_eq_add_of_lt fewer
      rw [total, show zeros + places + 1 = places + 1 + zeros by omega, pow_add] at small
      have narrow := Nat.lt_of_mul_lt_mul_right small
      have := written.short places (by omega)
      omega
    generalize before : format.fractionRank - (0 + zeros + 1 + characters.length) = count
    have length : (List.replicate count '0' ++ (characters ++ [digitChar rest])).length =
        format.fractionRank - zeros := by
      simp only [length_append, length_replicate, length_singleton]
      omega
    refine ⟨?_, by simp, by rw [length]; omega, ?_⟩
    · intro character inside
      simp only [mem_append, mem_replicate, mem_singleton] at inside
      rcases inside with ⟨-, rfl⟩ | inside | rfl
      · rfl
      · exact written.digits character inside
      · exact restDigit
    · have zeroDigits : (List.replicate count '0').map digitOf = List.replicate count 0 := by
        rw [map_replicate]
        rfl
      rw [length, Nat.sub_sub_self (by omega), map_append, map_append, zeroDigits,
        Numeral.reading_append, Numeral.reading_append, Numeral.reading_zeros, written.value]
      simpa [restValue] using value.symm

/-- The point and the fraction as printed. -/
def pointText (decimal : SimpleDecimal format) : Option (List Char) :=
  if format.fractionRank ≠ 0 then
    some (fractionText format (decimal.data % 10 ^ format.fractionRank))
  else none

/-- The text of zero is the general one without a sign. -/
theorem str_eq (decimal : SimpleDecimal format) :
    decimal.str = (if decimal.negative = true ∧ decimal.data ≠ 0 then ['-'] else []) ++
      writeInteger (decimal.data / 10 ^ format.fractionRank)
        ((decimal.pointText.map ('.' :: ·)).getD []) := by
  unfold str pointText
  rw [format.maxFraction_eq]
  by_cases zero : decimal.data = 0
  · have none : writeInteger 0 = fun buf => '0' :: buf := by
      funext buf
      unfold writeInteger
      rfl
    rw [zero, Nat.zero_div, none]
    by_cases rank : format.fractionRank = 0 <;> simp [rank, fractionText]
  · by_cases rank : format.fractionRank = 0 <;>
      cases sign : decimal.negative <;> simp [zero, rank]

section

variable (decimal : SimpleDecimal format) (valid : decimal.Valid)
include valid

/-- The numbers on the two sides of the point. -/
theorem str_parts :
    decimal.data / 10 ^ format.fractionRank < 10 ^ format.integerRank ∧
      Digits (decimal.pointText.getD []) ∧
      (decimal.pointText.getD []).length ≤ format.fractionRank ∧
      reading ((decimal.pointText.getD []).map digitOf) *
          10 ^ (format.fractionRank - (decimal.pointText.getD []).length) =
        decimal.data % 10 ^ format.fractionRank ∧
      decimal.pointText ≠ some [] := by
  have integer : decimal.data / 10 ^ format.fractionRank < 10 ^ format.integerRank := by
    rw [Nat.div_lt_iff_lt_mul (by positivity), ← pow_add, ranks]
    exact valid
  refine ⟨integer, ?_⟩
  unfold pointText
  by_cases rank : format.fractionRank = 0
  · simp [rank, Digits, Nat.mod_one]
  · obtain ⟨digits, nonempty, short, value⟩ := fractionText_exact rank
      (Nat.mod_lt decimal.data (Nat.pow_pos (by decide)))
    simp only [rank, ne_eq, not_false_eq_true, if_true, Option.some.injEq]
    exact ⟨digits, short, value, nonempty⟩

/-- The printed text is a readable numeral of the data. -/
theorem str_numeral :
    ∃ numeral : Numeral, numeral.text = decimal.str ∧
      numeral.scaled format.fractionRank = decimal.data ∧
      (numeral.sign = .minus ↔ decimal.negative = true ∧ decimal.data ≠ 0) ∧
      (0 < format.integerRank → Reads format numeral) ∧
      numeral.integer.length ≤ max format.integerRank 1 := by
  obtain ⟨integerSmall, fractionDigits, short, fractionValue, nonempty⟩ :=
    str_parts decimal valid
  obtain ⟨characters, wrote, digits, some, value, length⟩ := writeInteger_exact
  have integerLength := length format.integerRank integerSmall
  let numeral : Numeral :=
    { sign := if decimal.negative = true ∧ decimal.data ≠ 0 then .minus else .absent
      integer := characters
      fraction := decimal.pointText
      integerDigits := digits
      fractionDigits
      written := .inl some }
  refine ⟨numeral, ?_, ?_, ?_, ?_, integerLength⟩
  · rw [str_eq, wrote, Numeral.text, Numeral.body]
    congr 1
    · by_cases minus : decimal.negative = true ∧ decimal.data ≠ 0 <;>
        simp [numeral, minus, NumeralSign.text]
    · unfold Numeral.pointText
      cases point : decimal.pointText <;> simp [numeral, point]
  · rw [numeral.scaled_eq short]
    change reading (characters.map digitOf) * _ + reading ((decimal.pointText.getD []).map digitOf) *
      10 ^ (format.fractionRank - (decimal.pointText.getD []).length) = _
    rw [value, fractionValue, Nat.div_add_mod']
  · by_cases minus : decimal.negative = true ∧ decimal.data ≠ 0 <;> simp [numeral]
  · intro wide
    refine ⟨some, ⟨?_, ?_⟩, short, ?_, fun _ => nonempty⟩
    · refine (dropWhile_sublist _).length_le.trans (integerLength.trans ?_)
      omega
    · exact (List.rdropWhile_prefix _ _).length_le.trans short
    · intro zero
      change decimal.pointText = none
      simp [pointText, zero]

/-- Two characters beside the digits are enough, unless a sign is printed in front of a
zero that no integer rank accounts for. -/
theorem str_length (room : 0 < format.integerRank ∨ decimal.negative = false) :
    decimal.str.length ≤ bufferSize format := by
  obtain ⟨integerSmall, -, short, -, -⟩ := str_parts decimal valid
  obtain ⟨characters, wrote, -, -, -, length⟩ := writeInteger_exact
  have integerLength := length format.integerRank integerSmall
  have total := ranks format
  have point : ((decimal.pointText.map ('.' :: ·)).getD []).length ≤
      if format.fractionRank = 0 then 0 else format.fractionRank + 1 := by
    by_cases rank : format.fractionRank = 0
    · simp [pointText, rank]
    · rw [if_neg rank]
      cases text : decimal.pointText with
      | none => simp
      | some fraction => simpa [text] using short
  rw [str_eq, wrote, length_append, length_append, bufferSize]
  generalize signed : (if decimal.negative = true ∧ decimal.data ≠ 0 then ['-'] else []) = sign
  have signLength : sign.length ≤ 1 := by
    subst signed
    split <;> simp
  rcases room with wide | positive
  · split at point <;> omega
  · rw [if_neg (by simp [positive])] at signed
    subst signed
    split at point <;> simp only [length_nil] <;> omega

end

/-- The represented number. -/
def value (decimal : SimpleDecimal format) : ℚ := decimal.signed / 10 ^ format.fractionRank

/-- Equality is equality of the represented numbers. -/
theorem eq_iff {left right : SimpleDecimal format} :
    left.eq right = true ↔ left.signed = right.signed := by
  unfold eq signed number SignedMagnitude.toInt
  cases leftSign : left.negative <;> cases rightSign : right.negative <;> simp

/-- With an integer rank, numerals of the readable kind are read as written and every
valid decimal is read back from its text. The text fits its buffer; without an integer
rank this holds for decimals without a sign. -/
theorem text_exact (format : SimpleFormat) :
    (0 < format.integerRank → ∀ numeral, Reads format numeral →
      ∃ decimal, ofText format numeral.text = .ok decimal ∧ decimal.Valid ∧
        decimal.value = numeral.value) ∧
    (0 < format.integerRank → ∀ decimal : SimpleDecimal format, decimal.Valid →
      ∃ result, ofText format decimal.str = .ok result ∧ result.eq decimal = true) ∧
    (∀ decimal : SimpleDecimal format, decimal.Valid →
      0 < format.integerRank ∨ decimal.negative = false →
        decimal.str.length ≤ bufferSize format) := by
  refine ⟨?_, ?_, str_length⟩
  · intro wide numeral reads
    exact ⟨_, ofText_numeral wide reads, scaled_lt reads.fits,
      Decimal.scaled_value reads.fits.fraction⟩
  · intro wide decimal valid
    obtain ⟨numeral, printed, scaled, sign, reads, -⟩ := str_numeral decimal valid
    refine ⟨_, printed ▸ ofText_numeral wide (reads wide), eq_iff.mpr ?_⟩
    rw [scaled]
    exact Decimal.toInt_of_sign sign

theorem text_exact_wide : ∃ result, ofText .wide
    (str (⟨true, 1250000000⟩ : SimpleDecimal .wide)) = .ok result ∧
      result.eq ⟨true, 1250000000⟩ = true :=
  (text_exact .wide).2.1 (by decide) ⟨true, 1250000000⟩ (by decide)

/-- One digit on each side of the point. -/
def tenths : SimpleFormat := ⟨.uint8, 2, 1, by decide, by decide, by decide⟩

/-- Two digits, all behind the point. -/
def hundredths : SimpleFormat := ⟨.uint8, 2, 2, by decide, by decide, by decide⟩

/-- One and a half with a zero behind it. -/
def oneAndHalf : Numeral :=
  ⟨.absent, ['1'], some ['5', '0'], by decide, by decide, by decide⟩

/-- Five with a point behind it. -/
def fivePoint : Numeral := ⟨.absent, ['5'], some [], by decide, by decide, by decide⟩

/-- One half. -/
def half : Numeral := ⟨.absent, ['0'], some ['5'], by decide, by decide, by decide⟩

/-- Representable numerals that are not read as written: a zero too many behind the
point is refused, a point without digits leaves the number unscaled, and without an
integer rank every digit is refused and a negative text needs one character more than
the buffer has. -/
theorem text_not_read :
    (oneAndHalf.Fits 1 1 ∧ ofText tenths oneAndHalf.text = .error .overflow) ∧
      (fivePoint.Fits 1 1 ∧ ofText tenths fivePoint.text = .ok ⟨false, 5⟩ ∧
        fivePoint.scaled 1 = 50) ∧
      (half.Fits 0 2 ∧ ofText hundredths half.text = .error .overflow) ∧
      ((⟨true, 12⟩ : SimpleDecimal hundredths).Valid ∧
        bufferSize hundredths < (⟨true, 12⟩ : SimpleDecimal hundredths).str.length) := by
  decide +kernel

end SimpleDecimal

end UnixCommons.Generics
