import UnixCommons.Generics.Decimal
import UnixCommons.Library.Numeral

/-!
# Multi-limb decimals and text

The string constructor works on four pointers into the text: the first significant
character, the end of the integer digits, the start of the fraction digits and the
end of the significant text. The model keeps the three stretches they delimit. The
digits it accepts are laid out in an array of the total rank, and elements are
assembled from its low end. Printing takes the elements apart again and leaves out
the zeros that the value does not need, but keeps one digit on each side of a point.

The constructor accepts exactly the numerals whose significant digits fit the
ranks and gives them their written value; a numeral with too many digits overflows.
-/

namespace UnixCommons.Generics

open Limbs Outcome List
open Numeral (reading digitOf digitChar Digits)
open Nat (ofDigits)

/-- `DecimalHelper::assemble_decimal`, in the arithmetic of the element type. -/
def assembleDecimal (element : Element) (num : List Nat) : Nat :=
  num.foldl (fun ret digit => element.wrap (ret * 10 + digit)) 0

/-- `DecimalHelper::disassemble_decimal`: the given count of low digits. -/
def disassembleDecimal : Nat → Nat → List Nat
  | 0, _ => []
  | digits + 1, elem => disassembleDecimal digits (elem / 10) ++ [elem % 10]

namespace Decimal

variable {format : Format}

/-- The stretches of text between `begin` and `end`, `begin` and `integer_end`,
`fraction_begin` and `end`. -/
structure TextParts where
  number : List Char
  integer : List Char
  fraction : List Char
deriving DecidableEq, Repr

/-- Where the string constructor puts its pointers, after the sign and the leading
zeros. Trailing zeros are dropped only when there is a point; a point left at the
end is dropped with them, and then everything before it is the integer part. -/
def textParts (text : List Char) : TextParts :=
  if '.' ∈ text then
    let number := text.rdropWhile (· == '0')
    if number.getLast? = some '.' then ⟨number.dropLast, number.dropLast, []⟩
    else ⟨number, text.takeWhile (· != '.'), (number.dropWhile (· != '.')).tail⟩
  else ⟨text, text, []⟩

/-- A sign and the text after it. -/
def splitSign : List Char → Bool × List Char
  | '-' :: rest => (true, rest)
  | '+' :: rest => (false, rest)
  | text => (false, text)

/-- One of the loops that turn characters into digits. -/
def readDigits : List Char → Except Failure (List Nat)
  | [] => .ok []
  | character :: rest =>
    if character.isDigit then do
      let digits ← readDigits rest
      .ok (digitOf character :: digits)
    else .error .notNumber

/-- The loop that assembles elements, from the low end of the first `n` digits. -/
def assembleLoop (format : Format) (num : List Nat) : Nat → Nat → List Nat
  | 0, _ => []
  | count + 1, n =>
    let digits := if format.digits ≤ n then format.digits else n
    assembleDecimal format.element ((num.drop (n - digits)).take digits) ::
      assembleLoop format num count (n - digits)

/-- `Decimal::construct_` from a string. -/
def ofText (format : Format) (text : List Char) : Except Failure (Decimal format) :=
  let (negative, body) := splitSign text
  -- An empty text and a text of a sign only are refused alike.
  if body = [] then .error .notNumber
  else
    let parts := textParts (body.dropWhile (· == '0'))
    if parts.number = [] then .ok ⟨negative, List.replicate format.size 0⟩
    else if format.fractionRank < parts.fraction.length then .error .overflow
    else if format.integerRank < parts.integer.length then .error .overflow
    else do
      let fraction ← readDigits parts.fraction
      let integer ← readDigits parts.integer
      let num := List.replicate (format.integerRank - parts.integer.length) 0 ++ integer ++
        (fraction ++ List.replicate (format.fractionRank - parts.fraction.length) 0)
      .ok ⟨negative, assembleLoop format num format.size format.totalRank⟩

/-- The loop that takes elements apart; the last one fills what is left of the digits. -/
def disassembleLoop (digits : Nat) : List Nat → Nat → List Nat
  | [], _ => []
  | [top], left => disassembleDecimal left top
  | elem :: rest, left => disassembleLoop digits rest (left - digits) ++
      disassembleDecimal digits elem

/-- The printed integer digits: no leading zeros, but one digit at least. -/
def integerText (num : List Nat) : List Char :=
  let shown := num.dropWhile (· == 0)
  if shown = [] then ['0'] else shown.map digitChar

/-- The printed fraction digits: no trailing zeros, but one digit at least. -/
def fractionText (num : List Nat) : List Char :=
  let shown := num.rdropWhile (· == 0)
  if shown = [] then (num.take 1).map digitChar else shown.map digitChar

/-- `Decimal::str`. -/
def str (decimal : Decimal format) : List Char :=
  let num := disassembleLoop format.digits decimal.array format.totalRank
  let notNull := decimal.array.any (· != 0)
  (if decimal.negative && notNull then ['-'] else []) ++
    integerText (num.take format.integerRank) ++
    (if format.fractionRank ≠ 0 then '.' :: fractionText (num.drop format.integerRank) else [])

end Decimal

/-- Assembling digits that fit one element loses nothing. -/
theorem assembleDecimal_exact {element : Element} {num : List Nat}
    (bounded : ∀ digit ∈ num, digit < 10) (short : num.length ≤ element.digitsPerElement) :
    assembleDecimal element num = reading num := by
  induction num using List.reverseRecOn with
  | nil => rfl
  | append_singleton rest digit ih =>
    have total := (Numeral.reading_lt bounded).trans_le (Nat.pow_le_pow_right (by decide) short)
    have value : reading (rest ++ [digit]) = reading rest * 10 + digit := by
      simp [Numeral.reading_append]
    have small : reading rest * 10 + digit < element.modulus := by
      rw [← value]
      exact total.trans element.base_lt_modulus
    simp only [mem_append, length_append] at bounded short
    have step := ih (fun item inside => bounded item (.inl inside)) (by omega)
    rw [assembleDecimal, foldl_append]
    change element.wrap (assembleDecimal element rest * 10 + digit) = _
    rw [step, Element.wrap_eq small, value]

/-- Taking digits off an element keeps its remainder by their weight. -/
theorem disassembleDecimal_exact (digits elem : Nat) :
    (disassembleDecimal digits elem).length = digits ∧
      Bounded 10 (disassembleDecimal digits elem) ∧
      reading (disassembleDecimal digits elem) = elem % 10 ^ digits := by
  induction digits generalizing elem with
  | zero => simp [disassembleDecimal, Nat.mod_one]
  | succ digits ih =>
    obtain ⟨length, bounded, value⟩ := ih (elem / 10)
    refine ⟨by simp [disassembleDecimal, length], ?_, ?_⟩
    · exact bounded_append.mpr ⟨bounded, by simp [Nat.mod_lt]⟩
    · rw [disassembleDecimal, Numeral.reading_append, value]
      simp only [length_singleton, pow_one, Numeral.reading_singleton]
      rw [pow_succ', Nat.mod_mul]
      ring

namespace Decimal

variable {format : Format}

/-- The loop reads the first `n` digits into elements. The induction is on the
elements still to be written; the last ones are zero when the digits run out. -/
theorem assembleLoop_exact {num : List Nat} (bounded : Bounded 10 num) {count n : Nat}
    (inside : n ≤ num.length) (room : n ≤ count * format.digits) :
    (assembleLoop format num count n).length = count ∧
      Bounded format.base (assembleLoop format num count n) ∧
      ofDigits format.base (assembleLoop format num count n) = reading (num.take n) := by
  induction count generalizing n with
  | zero =>
    have none : n = 0 := by omega
    simp [assembleLoop, none]
  | succ count ih =>
    simp only [assembleLoop]
    rw [Nat.succ_mul] at room
    generalize taken : (if format.digits ≤ n then format.digits else n) = digits
    have digitsLe : digits ≤ n ∧ digits ≤ format.digits := by
      split at taken <;> omega
    obtain ⟨length, elements, value⟩ := @ih (n - digits) (by omega) (by
      split at taken <;> omega)
    have middleBounded := (bounded.drop (n - digits)).take digits
    have middleLength : ((num.drop (n - digits)).take digits).length = digits :=
      length_take_of_le (by rw [length_drop]; omega)
    have middle := assembleDecimal_exact middleBounded
      (by rw [middleLength]; exact digitsLe.2)
    have middleLt : reading ((num.drop (n - digits)).take digits) < format.base := by
      have small := Numeral.reading_lt middleBounded
      rw [middleLength] at small
      exact small.trans_le (Nat.pow_le_pow_right (by decide) digitsLe.2)
    have cut : num.take n = num.take (n - digits) ++ (num.drop (n - digits)).take digits := by
      rw [← take_add, Nat.sub_add_cancel digitsLe.1]
    refine ⟨by simp [length], by simpa [middle, middleLt] using elements, ?_⟩
    rw [Nat.ofDigits_cons, middle, value, cut, Numeral.reading_append, middleLength]
    split at taken
    · subst taken
      rw [format.base_eq, add_comm, mul_comm]
    · subst taken
      simp

variable (text : List Char)

/-- Every character is checked to be a digit. -/
theorem readDigits_ends :
    Ends (readDigits text) (fun digits => Digits text ∧ digits = text.map digitOf)
      (fun failure => failure = .notNumber ∧ ¬ Digits text) := by
  induction text with
  | nil => simp [readDigits, Digits]
  | cons character rest ih =>
    unfold readDigits
    by_cases digit : character.isDigit = true
    · rw [if_pos digit]
      refine Ends.bind (Ends.mono ih (fun _ good => good) ?_) ?_
      · rintro failure ⟨rfl, bad⟩
        exact ⟨rfl, fun digits => bad fun item inside => digits item (.tail _ inside)⟩
      · rintro digits ⟨good, rfl⟩
        refine ⟨?_, rfl⟩
        rintro item (_ | ⟨_, inside⟩)
        · exact digit
        · exact good item inside
    · rw [if_neg digit]
      exact ⟨rfl, fun digits => digit (digits character (.head _))⟩

/-- The sign of a numeral is cut off. -/
theorem splitSign_numeral (numeral : Numeral) :
    splitSign numeral.text = (decide (numeral.sign = .minus), numeral.body) := by
  unfold Numeral.text
  cases numeral.sign with
  | plus | minus => rfl
  | absent =>
    -- Neither a digit nor the point is taken for a sign.
    have plain : ∀ character rest, numeral.body = character :: rest →
        character.isDigit = true ∨ character = '.' := by
      intro character rest shape
      have inside : character ∈ numeral.integer ++ numeral.pointText := by
        change character ∈ numeral.body
        simp [shape]
      rcases mem_append.mp inside with integer | point
      · exact .inl (numeral.integerDigits character integer)
      · have fractionDigits := numeral.fractionDigits
        unfold Numeral.pointText at point
        cases fraction : numeral.fraction with
        | none => simp [fraction] at point
        | some digits =>
          simp only [fraction, mem_cons] at point fractionDigits
          rcases point with point | digit
          · exact .inr point
          · exact .inl (fractionDigits character digit)
    unfold splitSign
    split
    · next rest shape => exact absurd (plain _ _ shape) (by decide)
    · next rest shape => exact absurd (plain _ _ shape) (by decide)
    · rfl

/-- Leading zeros of the whole text are leading zeros of the integer digits. -/
theorem body_dropWhile (numeral : Numeral) :
    numeral.body.dropWhile (· == '0') = numeral.significantInteger ++ numeral.pointText := by
  have point : numeral.pointText.dropWhile (· == '0') = numeral.pointText := by
    unfold Numeral.pointText
    cases numeral.fraction <;> rfl
  unfold Numeral.body Numeral.significantInteger
  rw [dropWhile_append, point]
  cases dropped : numeral.integer.dropWhile (· == '0') <;> simp

omit text in
theorem bne_of_not_mem {mark : Char} {text : List Char} (apart : mark ∉ text) :
    ∀ character ∈ text, (character != mark) = true :=
  fun _ inside => bne_iff_ne.mpr fun same => apart (same ▸ inside)

/-- On a numeral the pointers delimit the significant digits. -/
theorem textParts_numeral {numeral : Numeral} :
    ∃ number, textParts (numeral.body.dropWhile (· == '0')) =
        ⟨number, numeral.significantInteger, numeral.significantFraction⟩ ∧
      (number = [] ↔ numeral.significantInteger = [] ∧ numeral.significantFraction = []) := by
  have integerDigits : Digits numeral.significantInteger := numeral.integerDigits.dropWhile
  have fractionDigits : Digits numeral.significantFraction := numeral.fractionDigits.rdropWhile _
  have noPoint := bne_of_not_mem integerDigits.no_point
  rw [body_dropWhile]
  unfold textParts Numeral.pointText
  cases fraction : numeral.fraction with
  | none =>
    have none : numeral.significantFraction = [] := by
      simp [Numeral.significantFraction, Numeral.fractionText, fraction]
    simp [integerDigits.no_point, none]
  | some digits =>
    have kept : digits.rdropWhile (· == '0') = numeral.significantFraction := by
      simp [Numeral.significantFraction, Numeral.fractionText, fraction]
    rw [Numeral.rdropWhile_append_cons (by decide), kept]
    by_cases none : numeral.significantFraction = []
    · simp [none]
    · have last : (numeral.significantInteger ++ '.' :: numeral.significantFraction).getLast? ≠
          some '.' := by
        rw [List.getLast?_append, List.getLast?_cons, List.getLast?_eq_some_getLast none]
        simp only [Option.some_or, ne_eq, Option.some.injEq]
        intro point
        exact fractionDigits.no_point (point ▸ getLast_mem none)
      rw [if_neg last, takeWhile_append_of_pos noPoint, dropWhile_append_of_pos noPoint]
      exact ⟨numeral.significantInteger ++ '.' :: numeral.significantFraction, by simp,
        by simp [none]⟩

/-- Conversely, the text is the integer stretch, followed by nothing or by a point
and the fraction stretch with zeros after it. A second point would be in one of the
stretches. -/
theorem textParts_text (fractionDigits : Digits (textParts text).fraction) :
    ∃ fraction : Option (List Char), Digits (fraction.getD []) ∧
      text = (textParts text).integer ++ (fraction.map ('.' :: ·)).getD [] := by
  have zeros (stretch : List Char) : Digits (stretch.rtakeWhile (· == '0')) :=
    Numeral.digits_of_zeros fun _ => mem_rtakeWhile_imp (p := (· == '0'))
  have whole (stretch : List Char) :
      stretch.rdropWhile (· == '0') ++ stretch.rtakeWhile (· == '0') = stretch :=
    rdropWhile_append_rtakeWhile
  unfold textParts at fractionDigits ⊢
  split at fractionDigits
  · next point =>
    rw [if_pos point]
    dsimp only at fractionDigits ⊢
    split at fractionDigits
    · next last =>
      refine ⟨some (text.rtakeWhile (· == '0')), zeros text, ?_⟩
      rw [if_pos last]
      have shape := dropLast_append_getLast? '.' last
      simp only [Option.map_some, Option.getD_some]
      rw [← singleton_append, ← append_assoc, shape, whole]
    · next last =>
      obtain ⟨front, back, rfl, first⟩ := eq_append_cons_of_mem point
      have before := bne_of_not_mem first
      rw [if_neg last]
      rw [Numeral.rdropWhile_append_cons (by decide),
        dropWhile_append_of_pos before] at fractionDigits
      refine ⟨some back, ?_, ?_⟩
      · have kept : Digits (back.rdropWhile (· == '0')) := fractionDigits
        rw [← whole back]
        exact fun character inside => (mem_append.mp inside).elim (kept character)
          (zeros back character)
      · rw [takeWhile_append_of_pos before]
        simp
  · next point =>
    rw [if_neg point]
    exact ⟨none, by simp [Digits], by simp⟩

/-- The value of the digit array: the integer digits, then the fraction digits
followed by zeros up to the rank. -/
theorem reading_padded (integer fraction : List Nat) (before after : Nat) :
    reading (List.replicate before 0 ++ integer ++ (fraction ++ List.replicate after 0)) =
      reading integer * 10 ^ (fraction.length + after) + reading fraction * 10 ^ after := by
  simp only [Numeral.reading_append, Numeral.reading_zeros, length_append,
    length_replicate]
  ring

/-- On a numeral the constructor gives the written number, in range, or overflows
because the significant digits do not fit. -/
theorem ofText_numeral (format : Format) (numeral : Numeral) :
    Ends (ofText format numeral.text)
      (fun decimal => decimal.InRange ∧
        decimal.number = ⟨numeral.sign = .minus, numeral.scaled format.fractionRank⟩ ∧
        numeral.Fits format.integerRank format.fractionRank)
      (fun failure => failure = .overflow ∧
        ¬ numeral.Fits format.integerRank format.fractionRank) := by
  obtain ⟨shown, parts, empty⟩ := textParts_numeral
  have integerDigits : Digits numeral.significantInteger := numeral.integerDigits.dropWhile
  have fractionDigits : Digits numeral.significantFraction := numeral.fractionDigits.rdropWhile _
  have ranks : format.integerRank + format.fractionRank = format.totalRank := by
    have bounded := format.fractionBounded
    unfold Format.integerRank
    omega
  have stored (array : List Nat) (length : array.length = format.size)
      (bounded : Bounded format.base array)
      (value : ofDigits format.base array = numeral.scaled format.fractionRank)
      (fits : numeral.Fits format.integerRank format.fractionRank) :
      (⟨numeral.sign = .minus, array⟩ : Decimal format).InRange ∧
        (⟨numeral.sign = .minus, array⟩ : Decimal format).number =
          ⟨numeral.sign = .minus, numeral.scaled format.fractionRank⟩ ∧
        numeral.Fits format.integerRank format.fractionRank := by
    refine ⟨InRange.of_magnitude length bounded ?_, ?_, fits⟩
    · rw [magnitude, value, ← ranks]
      exact numeral.scaled_lt fits
    · rw [number, magnitude, value]
  unfold ofText
  rw [splitSign_numeral]
  dsimp only
  rw [if_neg numeral.body_nonempty, parts]
  dsimp only
  split
  · next none =>
    obtain ⟨integer, fraction⟩ := empty.mp none
    refine stored _ (by simp) (bounded_replicate_zero format.base_positive _) ?_
      ⟨by simp [integer], by simp [fraction]⟩
    simp [Numeral.scaled, integer, fraction]
  split
  · next long => exact ⟨rfl, fun fits => absurd fits.fraction (Nat.not_le.mpr long)⟩
  split
  · next long => exact ⟨rfl, fun fits => absurd fits.integer (Nat.not_le.mpr long)⟩
  next some fractionFits integerFits =>
  have fits : numeral.Fits format.integerRank format.fractionRank :=
    ⟨Nat.not_lt.mp integerFits, Nat.not_lt.mp fractionFits⟩
  refine Ends.bind (Ends.mono (readDigits_ends _) (fun _ good => good) ?_) ?_
  · rintro failure ⟨-, bad⟩
    exact absurd fractionDigits bad
  rintro fraction ⟨-, rfl⟩
  refine Ends.bind (Ends.mono (readDigits_ends _) (fun _ good => good) ?_) ?_
  · rintro failure ⟨-, bad⟩
    exact absurd integerDigits bad
  rintro integer ⟨-, rfl⟩
  generalize layout : List.replicate (format.integerRank - numeral.significantInteger.length) 0 ++
    numeral.significantInteger.map digitOf ++ (numeral.significantFraction.map digitOf ++
      List.replicate (format.fractionRank - numeral.significantFraction.length) 0) = num
  have length : num.length = format.totalRank := by
    rw [← layout]
    simp only [length_append, length_replicate, length_map]
    omega
  have digits : Bounded 10 num := by
    intro digit inside
    simp only [← layout, mem_append, mem_replicate, mem_map] at inside
    rcases inside with (⟨-, rfl⟩ | ⟨character, mem, rfl⟩) | ⟨character, mem, rfl⟩ | ⟨-, rfl⟩
    · decide
    · exact Numeral.digitOf_lt (integerDigits character mem)
    · exact Numeral.digitOf_lt (fractionDigits character mem)
    · decide
  obtain ⟨size, bounded, value⟩ := assembleLoop_exact digits
    (le_of_eq length.symm) format.size_bounds.1
  refine stored _ size bounded ?_ fits
  rw [value, take_of_length_le (le_of_eq length), ← layout, reading_padded,
    length_map, Nat.add_sub_cancel' fits.fraction, Numeral.scaled]

/-- What is cut off is a sign. -/
theorem splitSign_text :
    ∃ sign : NumeralSign, text = sign.text ++ (splitSign text).2 := by
  unfold splitSign
  split
  · exact ⟨.minus, rfl⟩
  · exact ⟨.plus, rfl⟩
  · exact ⟨.absent, rfl⟩

/-- When nothing is left between the outer pointers, both stretches are empty. -/
theorem textParts_empty (empty : (textParts text).number = []) :
    (textParts text).integer = [] ∧ (textParts text).fraction = [] := by
  unfold textParts at empty ⊢
  split at empty
  · next point =>
    rw [if_pos point]
    dsimp only at empty ⊢
    split at empty
    · next last =>
      rw [if_pos last]
      exact ⟨empty, rfl⟩
    · have zeros := rdropWhile_eq_nil_iff.mp empty
      exact absurd (zeros '.' point) (by decide)
  · next point =>
    rw [if_neg point]
    exact ⟨empty, rfl⟩

variable {decimal : Decimal format}

/-- What the constructor has checked when it accepts a text. -/
theorem stretches_of_ofText {text : List Char} (accepted : ofText format text = .ok decimal) :
    (splitSign text).2 ≠ [] ∧
      Digits (textParts ((splitSign text).2.dropWhile (· == '0'))).integer ∧
      Digits (textParts ((splitSign text).2.dropWhile (· == '0'))).fraction := by
  unfold ofText at accepted
  dsimp only at accepted
  split at accepted
  · cases accepted
  next nonempty =>
  refine ⟨nonempty, ?_⟩
  split at accepted
  · next empty =>
    obtain ⟨integer, fraction⟩ := textParts_empty _ empty
    simp [integer, fraction, Digits]
  split at accepted
  · cases accepted
  split at accepted
  · cases accepted
  obtain ⟨fraction, fractionRead, rest⟩ := bind_ok_iff.mp accepted
  obtain ⟨integer, integerRead, -⟩ := bind_ok_iff.mp rest
  exact ⟨((readDigits_ends _).of_ok integerRead).1, ((readDigits_ends _).of_ok fractionRead).1⟩

/-- Whatever the constructor accepts is a numeral. -/
theorem numeral_of_ofText {text : List Char} (accepted : ofText format text = .ok decimal) :
    ∃ numeral : Numeral, numeral.text = text := by
  obtain ⟨sign, signed⟩ := splitSign_text text
  obtain ⟨nonempty, integerDigits, fractionDigits⟩ := stretches_of_ofText accepted
  generalize (splitSign text).2 = body at *
  obtain ⟨fraction, fractionDigits, shape⟩ := textParts_text _ fractionDigits
  generalize (textParts (body.dropWhile (· == '0'))).integer = integer at shape integerDigits
  have whole := takeWhile_append_dropWhile (p := (· == '0')) (l := body)
  rw [shape] at whole
  have allDigits : Digits (body.takeWhile (· == '0') ++ integer) := by
    intro character inside
    rcases mem_append.mp inside with zero | digit
    · exact Numeral.digits_of_zeros (fun _ => mem_takeWhile_imp (p := (· == '0'))) character zero
    · exact integerDigits character digit
  cases fraction with
  | none =>
    simp only [Option.map_none, Option.getD_none, append_nil] at whole
    refine ⟨⟨sign, _, none, allDigits, fractionDigits, .inl (by rwa [whole])⟩, ?_⟩
    simp [Numeral.text, Numeral.body, Numeral.pointText, signed, whole]
  | some fraction =>
    refine ⟨⟨sign, _, some fraction, allDigits, fractionDigits, .inr rfl⟩, ?_⟩
    simp only [Numeral.text, Numeral.body, Numeral.pointText, append_assoc]
    rw [signed, show integer ++ '.' :: fraction = body.dropWhile (· == '0') from shape.symm,
      takeWhile_append_dropWhile]

/-- The loop writes the elements' digits, up to the count that is left; the top
element takes all that remains. The induction is on the array. -/
theorem disassembleLoop_exact (digits : Nat) {array : List Nat} (left : Nat)
    (bounded : Bounded (10 ^ digits) array) (nonempty : array ≠ [])
    (enough : (array.length - 1) * digits ≤ left) :
    (disassembleLoop digits array left).length = left ∧
      Bounded 10 (disassembleLoop digits array left) ∧
      reading (disassembleLoop digits array left) = ofDigits (10 ^ digits) array % 10 ^ left := by
  induction array generalizing left with
  | nil => exact absurd rfl nonempty
  | cons elem rest ih =>
    cases rest with
    | nil => simpa [disassembleLoop] using disassembleDecimal_exact left elem
    | cons next rest =>
      obtain ⟨small, others⟩ := bounded_cons.mp bounded
      simp only [length_cons, Nat.add_sub_cancel, Nat.succ_mul] at enough
      obtain ⟨length, range, value⟩ := ih (left - digits) others (by simp)
        (by simp only [length_cons, Nat.add_sub_cancel]; omega)
      obtain ⟨lowLength, lowRange, lowValue⟩ := disassembleDecimal_exact digits elem
      simp only [disassembleLoop]
      refine ⟨?_, ?_, ?_⟩
      · rw [length_append]
        omega
      · exact bounded_append.mpr ⟨range, lowRange⟩
      · rw [Numeral.reading_append, value, lowLength, lowValue, show ofDigits (10 ^ digits) (elem :: next :: rest) =
            elem + 10 ^ digits * ofDigits (10 ^ digits) (next :: rest) from Nat.ofDigits_cons]
        have weight : 10 ^ left = 10 ^ digits * 10 ^ (left - digits) := by
          rw [← pow_add, Nat.add_sub_cancel' (by omega)]
        rw [weight, Nat.mod_mul, Nat.add_mul_mod_self_left, Nat.mod_eq_of_lt small,
          Nat.add_mul_div_left _ _ (by positivity), Nat.div_eq_of_lt small, Nat.zero_add,
          Nat.add_comm, Nat.mul_comm]

/-- The digits of an in-range decimal, most significant first. -/
theorem disassembled (inRange : decimal.InRange) :
    (disassembleLoop format.digits decimal.array format.totalRank).length = format.totalRank ∧
      Bounded 10 (disassembleLoop format.digits decimal.array format.totalRank) ∧
      reading (disassembleLoop format.digits decimal.array format.totalRank) =
        decimal.magnitude := by
  have positive := format.size_positive
  have nonempty : decimal.array ≠ [] := by
    intro empty
    have length := inRange.length
    simp only [empty, length_nil] at length
    omega
  obtain ⟨length, digits, value⟩ := disassembleLoop_exact format.digits
    format.totalRank inRange.bounded nonempty (by rw [inRange.length]; exact format.size_bounds.2.le)
  refine ⟨length, digits, ?_⟩
  rw [value]
  exact Nat.mod_eq_of_lt inRange.magnitude_lt

variable {num : List Nat}

section

variable (bounded : Bounded 10 num)
include bounded

theorem map_digitChar :
    Digits (num.map digitChar) ∧ (num.map digitChar).map digitOf = num := by
  constructor
  · intro character inside
    obtain ⟨digit, mem, rfl⟩ := mem_map.mp inside
    exact (Numeral.digitChar_facts (bounded digit mem)).2.1
  · rw [map_map]
    refine (map_congr_left fun digit mem => ?_).trans (map_id _)
    exact (Numeral.digitChar_facts (bounded digit mem)).1

/-- The integer part as it is written. -/
theorem integerText_exact :
    Digits (integerText num) ∧ integerText num ≠ [] ∧
      reading ((integerText num).map digitOf) = reading num ∧
      ((integerText num).dropWhile (· == '0')).length ≤ num.length := by
  have value := Numeral.reading_dropWhile id (· == 0) (fun _ zero => beq_iff_eq.mp zero) num
  simp only [map_id] at value
  unfold integerText
  dsimp only
  split
  · next none =>
    rw [none] at value
    exact ⟨by decide, by decide, value, by simp⟩
  · next some =>
    have shorter := (dropWhile_sublist (l := num) (· == 0))
    obtain ⟨digits, same⟩ := map_digitChar fun digit mem => bounded digit (shorter.subset mem)
    refine ⟨digits, by simpa using some, by rw [same, value], ?_⟩
    calc _ ≤ ((num.dropWhile (· == 0)).map digitChar).length :=
          (dropWhile_sublist _).length_le
      _ ≤ num.length := by simpa using shorter.length_le

/-- The fraction as it is written. -/
theorem fractionText_exact :
    Digits (fractionText num) ∧ (fractionText num).length ≤ num.length ∧
      reading num = reading ((fractionText num).map digitOf) *
        10 ^ (num.length - (fractionText num).length) := by
  have value := Numeral.reading_rdropWhile id (· == 0) (fun _ zero => beq_iff_eq.mp zero) num
  simp only [map_id] at value
  unfold fractionText
  dsimp only
  split
  · next none =>
    obtain ⟨digits, same⟩ := map_digitChar (bounded.take 1)
    have zeros : num = List.replicate num.length 0 :=
      eq_replicate_iff.mpr ⟨rfl, by simpa using rdropWhile_eq_nil_iff.mp none⟩
    have zero : reading (num.take 1) = 0 := by
      rw [zeros, take_replicate, Numeral.reading_zeros]
    rw [none] at value
    exact ⟨digits, by simp, by rw [same, zero, value]; simp⟩
  · have shorter := rdropWhile_prefix (· == 0) num
    obtain ⟨digits, same⟩ := map_digitChar fun digit mem => bounded digit (shorter.subset mem)
    exact ⟨digits, by simpa using shorter.length_le, by rw [same, length_map]; exact value⟩

end

/-- The printed text is a numeral of the decimal's magnitude that fits its ranks. -/
theorem str_numeral (inRange : decimal.InRange) :
    ∃ numeral : Numeral, numeral.text = decimal.str ∧
      numeral.Fits format.integerRank format.fractionRank ∧
      numeral.scaled format.fractionRank = decimal.magnitude ∧
      (numeral.sign = .minus ↔ decimal.negative = true ∧ decimal.magnitude ≠ 0) := by
  obtain ⟨length, digits, value⟩ := disassembled inRange
  have notNull : decimal.array.any (· != 0) = true ↔ decimal.magnitude ≠ 0 := by
    rw [ne_eq, ← isZero_iff, isZero]
    simp
  unfold str
  generalize disassembleLoop format.digits decimal.array format.totalRank = num
    at length digits value
  obtain ⟨integerDigits, nonempty, integerValue, integerShort⟩ :=
    integerText_exact (digits.take format.integerRank)
  obtain ⟨fractionDigits, fractionShort, fractionValue⟩ :=
    fractionText_exact (digits.drop format.integerRank)
  have low : (num.drop format.integerRank).length = format.fractionRank := by
    have bounded := format.fractionBounded
    rw [length_drop, Format.integerRank]
    omega
  have high : (num.take format.integerRank).length ≤ format.integerRank := length_take_le _ _
  rw [low] at fractionShort fractionValue
  have total : reading (num.take format.integerRank) * 10 ^ format.fractionRank +
      reading (num.drop format.integerRank) = decimal.magnitude := by
    rw [← low, ← Numeral.reading_append, take_append_drop, value]
  let fraction := if format.fractionRank ≠ 0 then
    some (fractionText (num.drop format.integerRank)) else none
  have fractionEq : fraction.getD [] = fractionText (num.drop format.integerRank) := by
    by_cases none : format.fractionRank = 0
    · rw [none, Nat.le_zero, length_eq_zero_iff] at fractionShort
      simp [fraction, none, fractionShort]
    · simp [fraction, none]
  let numeral : Numeral :=
    { sign := if decimal.negative && decimal.array.any (· != 0) then .minus else .absent
      integer := integerText (num.take format.integerRank)
      fraction
      integerDigits
      fractionDigits := by rwa [fractionEq]
      written := .inl nonempty }
  have short : numeral.fractionText.length ≤ format.fractionRank := by
    change (fraction.getD []).length ≤ _
    rwa [fractionEq]
  refine ⟨numeral, ?_, ⟨integerShort.trans high, ?_⟩, ?_, ?_⟩
  · have sign : numeral.sign.text =
        if decimal.negative && decimal.array.any (· != 0) then ['-'] else [] := by
      by_cases minus : (decimal.negative && decimal.array.any (· != 0)) = true <;>
        simp [numeral, minus, NumeralSign.text]
    have point : numeral.pointText = if format.fractionRank ≠ 0 then
        '.' :: fractionText (num.drop format.integerRank) else [] := by
      by_cases none : format.fractionRank = 0 <;> simp [numeral, Numeral.pointText, fraction, none]
    rw [Numeral.text, Numeral.body, sign, point, append_assoc]
  · exact (List.rdropWhile_prefix _ _).length_le.trans short
  · rw [numeral.scaled_eq short, ← total, fractionValue, ← integerValue, ← fractionEq]
    rfl
  · simp only [numeral, ← notNull, ← Bool.and_eq_true]
    split <;> simp [*]

/-- The represented number. -/
def value (decimal : Decimal format) : ℚ := decimal.signed / 10 ^ format.fractionRank

section

variable {numeral : Numeral}

/-- Sign and scaled digits give the number written. -/
theorem scaled_value {rank : Nat} (fits : numeral.significantFraction.length ≤ rank) :
    ((⟨numeral.sign = .minus, numeral.scaled rank⟩ : SignedMagnitude).toInt : ℚ) / 10 ^ rank =
      numeral.value := by
  rw [Numeral.value, numeral.magnitude_eq_scaled fits, SignedMagnitude.toInt]
  by_cases minus : numeral.sign = .minus
  · simp [minus, neg_div]
  · simp [minus]

/-- The sign that is not printed before a zero does not count. -/
theorem toInt_of_sign {negative : Bool} {magnitude : Nat}
    (sign : numeral.sign = .minus ↔ negative = true ∧ magnitude ≠ 0) :
    (⟨numeral.sign = .minus, magnitude⟩ : SignedMagnitude).toInt =
      (⟨negative, magnitude⟩ : SignedMagnitude).toInt := by
  by_cases zero : magnitude = 0
  · simp [SignedMagnitude.toInt, zero]
  · have signs : decide (numeral.sign = .minus) = negative := by simp [sign, zero]
    rw [signs]

end

/-- The string constructor accepts exactly the numerals with no more significant
digits than the ranks on each side of the point, gives them the number they write,
and reads back what `str` prints. -/
theorem ofText_exact (format : Format) :
    (∀ text, (∃ decimal, ofText format text = .ok decimal) ↔
      ∃ numeral : Numeral, numeral.text = text ∧
        numeral.Fits format.integerRank format.fractionRank) ∧
    (∀ (numeral : Numeral) (decimal : Decimal format),
      ofText format numeral.text = .ok decimal →
        decimal.InRange ∧ decimal.value = numeral.value) ∧
    (∀ decimal : Decimal format, decimal.InRange →
      ∃ result, ofText format decimal.str = .ok result ∧ result.eq decimal = true) := by
  refine ⟨?_, ?_, ?_⟩
  · intro text
    constructor
    · rintro ⟨decimal, accepted⟩
      obtain ⟨numeral, rfl⟩ := numeral_of_ofText accepted
      exact ⟨numeral, rfl, ((ofText_numeral format numeral).of_ok accepted).2.2⟩
    · rintro ⟨numeral, rfl, fits⟩
      have ends := ofText_numeral format numeral
      cases accepted : ofText format numeral.text with
      | ok decimal => exact ⟨decimal, rfl⟩
      | error failure =>
        rw [accepted] at ends
        exact absurd fits ends.2
  · intro numeral decimal accepted
    obtain ⟨inRange, same, fits⟩ := (ofText_numeral format numeral).of_ok accepted
    refine ⟨inRange, ?_⟩
    rw [value, signed, same]
    exact scaled_value fits.fraction
  · intro decimal inRange
    obtain ⟨numeral, printed, fits, magnitude, sign⟩ := str_numeral inRange
    have ends := ofText_numeral format numeral
    rw [printed] at ends
    cases accepted : ofText format decimal.str with
    | error failure =>
      rw [accepted] at ends
      exact absurd fits ends.2
    | ok result =>
      rw [accepted] at ends
      obtain ⟨resultRange, same, -⟩ := ends
      refine ⟨result, rfl, (eq_iff resultRange inRange).mpr ?_⟩
      rw [signed, same, magnitude]
      exact toInt_of_sign sign

theorem ofText_exact_bytes : ∃ result, ofText Format.bytes
    (str (⟨true, [50, 12, 0]⟩ : Decimal Format.bytes)) = .ok result ∧
      result.eq ⟨true, [50, 12, 0]⟩ = true :=
  (ofText_exact Format.bytes).2.2 ⟨true, [50, 12, 0]⟩ (by decide)

end Decimal

end UnixCommons.Generics
