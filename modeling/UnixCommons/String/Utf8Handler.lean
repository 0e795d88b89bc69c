import UnixCommons.Library.Bits
import UnixCommons.Library.Utf8

/-!
# UTF8Handler

Characters between their octets and their code points, one character at a time.

A reader takes the number of octets from the lead octet and does not look for overlong
or surrogate values; the check of a sequence does, except for the third of four octets,
which it leaves out. Writers write any value below 2 ^ 21, surrogates included. On the
octets of scalar values all of these agree with the encoding form.
-/

namespace UnixCommons.Text

open Bits List
open Utf8 (Trailing Listed tableRows)

/-- The number of octets a lead octet announces; none for an octet that cannot lead. -/
def getOctetCount (octet : UInt8) : Nat :=
  if octet.toNat < 0x80 then 1
  else if octet.toNat < 0xC2 then 0
  else if octet.toNat < 0xE0 then 2
  else if octet.toNat < 0xF0 then 3
  else if octet.toNat < 0xF8 then 4
  else if octet.toNat < 0xFC then 5
  else if octet.toNat < 0xFE then 6
  else 0

/-- The bits of a lead octet that belong to the code point. -/
def firstByteMasks : List Nat := [0, 0x7F, 0x1F, 0x0F, 0x07, 0x03, 0x01]

/-- The loop over the trailing octets. The NUL that follows a text is none. -/
def readTrailing : Nat → Nat → List UInt8 → Bool × Nat
  | 0, dest, _ => (true, dest)
  | _ + 1, dest, [] => (false, dest)
  | count + 1, dest, ch :: rest =>
    if ch.toNat &&& 0xC0 ≠ 0x80 then (false, dest)
    else readTrailing count (dest <<< 6 ||| (ch.toNat &&& 0x3F)) rest

/-- The code point of the octets at the beginning of a text, and whether they are
a lead octet and trailing octets. -/
def utf8CharToWchar (src : List UInt8) (octetsCount : Nat) : Bool × Nat :=
  if octetsCount ≠ 0 ∧ octetsCount ≤ 6 then
    readTrailing (octetsCount - 1) ((src.headD 0).toNat &&& firstByteMasks.getD octetsCount 0) src.tail
  else (false, 0)

/-- Trailing octets that are read from a text are read from more than it as well. -/
theorem readTrailing_append {count dest : Nat} {octets : List UInt8}
    (read : (readTrailing count dest octets).1 = true) (more : List UInt8) :
    count ≤ octets.length ∧
      readTrailing count dest (octets ++ more) = readTrailing count dest octets := by
  induction count generalizing dest octets with
  | zero => exact ⟨Nat.zero_le _, by rw [readTrailing, readTrailing]⟩
  | succ count ih =>
    cases octets with
    | nil => cases read
    | cons ch rest =>
      rw [readTrailing] at read
      split_ifs at read with other
      obtain ⟨fits, same⟩ := ih read
      rw [cons_append, readTrailing, readTrailing, if_neg other, if_neg other]
      exact ⟨Nat.succ_le_succ fits, same⟩

/-- And so is a character; it does not reach beyond the text. -/
theorem utf8CharToWchar_append {lead : UInt8} {rest : List UInt8} {octetsCount : Nat}
    (read : (utf8CharToWchar (lead :: rest) octetsCount).1 = true) (more : List UInt8) :
    octetsCount ≤ (lead :: rest).length ∧
      utf8CharToWchar (lead :: rest ++ more) octetsCount =
        utf8CharToWchar (lead :: rest) octetsCount := by
  unfold utf8CharToWchar at read ⊢
  split_ifs at read ⊢ with range
  obtain ⟨fits, same⟩ := readTrailing_append read more
  rw [tail_cons] at fits
  exact ⟨by rw [length_cons]; omega, same⟩

/-- Which second octets may follow a lead octet of three or four octets. -/
def secondOctetFits (b1 b2 : Nat) : Bool :=
  if b1 = 0xE0 then b2 &&& 0xE0 == 0xA0
  else if b1 = 0xED then b2 &&& 0xE0 == 0x80
  else if b1 = 0xF0 then decide (b2 ≥ 0x90) && decide (b2 ≤ 0xBF)
  else if b1 = 0xF4 then b2 &&& 0xF0 == 0x80
  else b2 &&& 0xC0 == 0x80

/-- The number of octets of the character a text begins with, if there is one. A NUL
follows the text, and what the source reads behind that is taken for a NUL too. -/
def isCorrectUtf8Sequence (src : List UInt8) : Option Nat :=
  let b1 := (src.getD 0 0).toNat
  let b2 := (src.getD 1 0).toNat
  if b1 ≤ 0x7F then some 1
  else if b1 < 0xC2 ∨ b1 > 0xF4 then none
  else if b1 ≤ 0xDF then if b2 &&& 0xC0 = 0x80 then some 2 else none
  else if ¬ secondOctetFits b1 b2 then none
  else if b1 < 0xF0 then
    if (src.getD 2 0).toNat &&& 0xC0 ≠ 0x80 then none else some 3
  -- the third octet of four is not looked at
  else if (src.getD 3 0).toNat &&& 0xC0 ≠ 0x80 then none
  else some 4

/-- The octets that are written for a value below 2 ^ 21. -/
def octetsBelow21 (ucs : Nat) : List UInt8 :=
  if ucs < 0x80 then [.ofNat (ucs &&& 0x7F)]
  else if ucs < 0x800 then
    [.ofNat ((ucs >>> 6 &&& 0x1F) ||| 0xC0), .ofNat ((ucs &&& 0x3F) ||| 0x80)]
  else if ucs < 0x10000 then
    [.ofNat ((ucs >>> 12 &&& 0x0F) ||| 0xE0), .ofNat ((ucs >>> 6 &&& 0x3F) ||| 0x80),
      .ofNat ((ucs &&& 0x3F) ||| 0x80)]
  else
    [.ofNat ((ucs >>> 18 &&& 0x07) ||| 0xF0), .ofNat ((ucs >>> 12 &&& 0x3F) ||| 0x80),
      .ofNat ((ucs >>> 6 &&& 0x3F) ||| 0x80), .ofNat ((ucs &&& 0x3F) ||| 0x80)]

/-- A negative character is a large unsigned number. -/
def wcharToUtf8Char (src : Int) : Option (List UInt8) :=
  if 0 ≤ src ∧ src < 0x200000 then some (octetsBelow21 src.toNat) else none

/-- `wchar_to_utf8` of one character, given as a number of 32 bits. -/
def wcharToUtf8 (ucs : Nat) : List UInt8 :=
  if ucs < 0x200000 then octetsBelow21 ucs
  else if ucs < 0x4000000 then
    [.ofNat ((ucs >>> 24 &&& 0x03) ||| 0xF8), .ofNat ((ucs >>> 18 &&& 0x3F) ||| 0x80),
      .ofNat ((ucs >>> 12 &&& 0x3F) ||| 0x80), .ofNat ((ucs >>> 6 &&& 0x3F) ||| 0x80),
      .ofNat ((ucs &&& 0x3F) ||| 0x80)]
  else
    [.ofNat ((ucs >>> 30 &&& 0x01) ||| 0xFC), .ofNat ((ucs >>> 24 &&& 0x3F) ||| 0x80),
      .ofNat ((ucs >>> 18 &&& 0x3F) ||| 0x80), .ofNat ((ucs >>> 12 &&& 0x3F) ||| 0x80),
      .ofNat ((ucs >>> 6 &&& 0x3F) ||| 0x80), .ofNat ((ucs &&& 0x3F) ||| 0x80)]

variable {value : Nat}

/-- The octets of a scalar value: the lead octet announces their number, the others are
trailing ones. -/
theorem encode_octets (scalar : Utf8.Scalar value) :
    ∃ lead octets, Utf8.encode value = lead :: octets ∧ octets.length ≤ 3 ∧
      getOctetCount lead = octets.length + 1 ∧ ∀ octet ∈ octets, Utf8.Trailing octet := by
  have written := Utf8.written_encode scalar.lt
  generalize Utf8.encode value = octets at written
  cases written with
  | one first range firstEq =>
    refine ⟨first, [], rfl, Nat.zero_le 3, ?_, nofun⟩
    rw [getOctetCount, firstEq, if_pos range]
    rfl
  | two first second range firstEq secondEq =>
    refine ⟨first, [second], rfl, by simp, ?_, ?_⟩
    · rw [getOctetCount]
      split_ifs <;> first | rfl | omega
    · simp only [forall_mem_cons, Utf8.Trailing]
      exact ⟨by omega, nofun⟩
  | three first second third range firstEq secondEq thirdEq =>
    refine ⟨first, [second, third], rfl, by simp, ?_, ?_⟩
    · rw [getOctetCount]
      split_ifs <;> first | rfl | omega
    · simp only [forall_mem_cons, Utf8.Trailing]
      exact ⟨by omega, by omega, nofun⟩
  | four first second third fourth range firstEq secondEq thirdEq fourthEq =>
    refine ⟨first, [second, third, fourth], rfl, by simp, ?_, ?_⟩
    · rw [getOctetCount]
      split_ifs <;> first | rfl | omega
    · simp only [forall_mem_cons, Utf8.Trailing]
      exact ⟨by omega, by omega, by omega, nofun⟩

/-- A trailing octet that is written. -/
theorem trailing_octet (number : Nat) : (number &&& 0x3F) ||| 0x80 = 0x80 + number % 0x40 :=
  masked_mark 2 6

/-- What is written for a scalar value is its encoding form. -/
theorem octetsBelow21_eq (small : value < 0x110000) :
    octetsBelow21 value = Utf8.encode value := by
  have alone : value &&& 0x7F = value % 0x80 := and_mask 7
  have leadOfTwo : (value / 2 ^ 6 &&& 0x1F) ||| 0xC0 = 0xC0 + value / 2 ^ 6 % 0x20 :=
    masked_mark 6 5
  have leadOfThree : (value / 2 ^ 12 &&& 0x0F) ||| 0xE0 = 0xE0 + value / 2 ^ 12 % 0x10 :=
    masked_mark 14 4
  have leadOfFour : (value / 2 ^ 18 &&& 0x07) ||| 0xF0 = 0xF0 + value / 2 ^ 18 % 0x08 :=
    masked_mark 30 3
  unfold octetsBelow21 Utf8.encode
  simp only [trailing_octet, Nat.shiftRight_eq_div_pow, alone, leadOfTwo, leadOfThree, leadOfFour]
  split_ifs with one two three
  · rw [Nat.mod_eq_of_lt one]
  · rw [Nat.mod_eq_of_lt (show value / 2 ^ 6 < 0x20 by omega)]
    rfl
  · rw [Nat.mod_eq_of_lt (show value / 2 ^ 12 < 0x10 by omega)]
    rfl
  · rw [Nat.mod_eq_of_lt (show value / 2 ^ 18 < 0x08 by omega)]
    rfl

/-- The encoding of a character of the range. -/
theorem wcharToUtf8Char_encode (small : value < 0x110000) :
    wcharToUtf8Char value = some (Utf8.encode value) := by
  rw [wcharToUtf8Char, if_pos (by omega), Int.toNat_natCast, octetsBelow21_eq small]

/-- The encoding of a character of the range, as a text. -/
theorem wcharToUtf8_encode (small : value < 0x110000) :
    wcharToUtf8 value = Utf8.encode value := by
  rw [wcharToUtf8, if_pos (by omega), octetsBelow21_eq small]

/-- The test for a trailing octet. -/
theorem trailing_iff {octet : UInt8} : octet.toNat &&& 0xC0 = 0x80 ↔ Trailing octet := by
  have all : ∀ number < 256, number &&& 0xC0 = 0x80 ↔ 0x80 ≤ number ∧ number < 0xC0 := by
    decide +kernel
  exact all octet.toNat octet.toNat_lt


/-- A trailing octet gives six bits to the code point. -/
theorem readTrailing_cons {octet : UInt8} (trailing : Utf8.Trailing octet) (count dest : Nat)
    (rest : List UInt8) :
    readTrailing (count + 1) dest (octet :: rest) =
      readTrailing count (dest * 0x40 + octet.toNat % 0x40) rest := by
  have field : octet.toNat &&& 0x3F = octet.toNat % 0x40 := and_mask 6
  have joined : dest <<< 6 ||| octet.toNat % 0x40 = dest * 0x40 + octet.toNat % 0x40 :=
    shiftLeft_or (Nat.mod_lt _ (by decide))
  rw [readTrailing, if_neg (not_not.mpr (trailing_iff.mpr trailing)), field, joined]

/-- Reading the octets of a scalar value. -/
theorem utf8CharToWchar_encode (scalar : Utf8.Scalar value) (rest : List UInt8) :
    utf8CharToWchar (Utf8.encode value ++ rest) (Utf8.encode value).length = (true, value) := by
  have written := Utf8.written_encode scalar.lt
  generalize Utf8.encode value = octets at written
  cases written with
  | one first range firstEq =>
    have low : value &&& 0x7F = value := (and_mask 7).trans (Nat.mod_eq_of_lt range)
    change (true, first.toNat &&& 0x7F) = (true, value)
    rw [firstEq, low]
  | two first second range firstEq secondEq =>
    have low : first.toNat &&& 0x1F = value / 0x40 := by
      rw [firstEq]
      exact @mark_and_mask (value / 0x40) 5 6 (by omega)
    change readTrailing 1 (first.toNat &&& 0x1F) (second :: rest) = (true, value)
    rw [readTrailing_cons ⟨by omega, by omega⟩, readTrailing]
    congr 1
    omega
  | three first second third range firstEq secondEq thirdEq =>
    have low : first.toNat &&& 0x0F = value / 0x1000 := by
      rw [firstEq]
      exact @mark_and_mask (value / 0x1000) 4 14 (by omega)
    change readTrailing 2 (first.toNat &&& 0x0F) (second :: third :: rest) = (true, value)
    rw [readTrailing_cons ⟨by omega, by omega⟩, readTrailing_cons ⟨by omega, by omega⟩,
      readTrailing]
    congr 1
    omega
  | four first second third fourth range firstEq secondEq thirdEq fourthEq =>
    have low : first.toNat &&& 0x07 = value / 0x40000 := by
      rw [firstEq]
      exact @mark_and_mask (value / 0x40000) 3 30 (by omega)
    change readTrailing 3 (first.toNat &&& 0x07) (second :: third :: fourth :: rest) = (true, value)
    rw [readTrailing_cons ⟨by omega, by omega⟩, readTrailing_cons ⟨by omega, by omega⟩,
      readTrailing_cons ⟨by omega, by omega⟩, readTrailing]
    congr 1
    omega

variable {src octets : List UInt8}

theorem isCorrectUtf8Sequence_ne_zero (correct : isCorrectUtf8Sequence src ≠ none) :
    (isCorrectUtf8Sequence src).getD 0 ≠ 0 := by
  unfold isCorrectUtf8Sequence at *
  dsimp only at *
  split_ifs at * <;> simp_all

/-- The masks of the second octets, as ranges. -/
theorem secondOctetFits_iff {b1 b2 : Nat} (octet : b2 < 256) :
    secondOctetFits b1 b2 = true ↔
      (0x80 ≤ b2 ∧ b2 < 0xC0) ∧ (b1 = 0xE0 → 0xA0 ≤ b2) ∧ (b1 = 0xED → b2 < 0xA0) ∧
        (b1 = 0xF0 → 0x90 ≤ b2) ∧ (b1 = 0xF4 → b2 < 0x90) := by
  have three : ∀ number < 256, ((number &&& 0xE0 == 0xA0) = true ↔ 0xA0 ≤ number ∧ number < 0xC0) ∧
      ((number &&& 0xE0 == 0x80) = true ↔ 0x80 ≤ number ∧ number < 0xA0) ∧
      ((number &&& 0xF0 == 0x80) = true ↔ 0x80 ≤ number ∧ number < 0x90) ∧
      ((number &&& 0xC0 == 0x80) = true ↔ 0x80 ≤ number ∧ number < 0xC0) := by
    decide +kernel
  obtain ⟨afterE0, afterED, afterF4, others⟩ := three b2 octet
  unfold secondOctetFits
  split_ifs with isE0 isED isF0 isF4
  · rw [afterE0]
    omega
  · rw [afterED]
    omega
  · simp only [Bool.and_eq_true, decide_eq_true_eq]
    omega
  · rw [afterF4]
    omega
  · rw [others]
    omega

section Rows

variable {first second third fourth : UInt8}

theorem not_listed_nil : ¬ Listed [] := by
  simp [Listed, tableRows]

/-- The sequences of one octet. -/
theorem listed_one : Listed [first] ↔ first.toNat < 0x80 := by
  simp [Listed, tableRows]
  omega

/-- The sequences of two octets. -/
theorem listed_two :
    Listed [first, second] ↔ (0xC2 ≤ first.toNat ∧ first.toNat < 0xE0) ∧ Trailing second := by
  simp [Listed, tableRows, Trailing]
  omega

/-- The sequences of three octets. -/
theorem listed_three :
    Listed [first, second, third] ↔ (0xE0 ≤ first.toNat ∧ first.toNat < 0xF0) ∧
      secondOctetFits first.toNat second.toNat = true ∧ Trailing third := by
  rw [secondOctetFits_iff second.toNat_lt]
  simp [Listed, tableRows, Trailing]
  omega

/-- The sequences of four octets. -/
theorem listed_four :
    Listed [first, second, third, fourth] ↔ (0xF0 ≤ first.toNat ∧ first.toNat < 0xF5) ∧
      secondOctetFits first.toNat second.toNat = true ∧ Trailing third ∧ Trailing fourth := by
  rw [secondOctetFits_iff second.toNat_lt]
  simp [Listed, tableRows, Trailing]
  omega

end Rows

theorem take_getD {index : Nat} (inside : index < octets.length) :
    octets.take (index + 1) = octets.take index ++ [octets.getD index 0] := by
  rw [take_add_one, getD_eq_getElem?_getD, List.getElem?_eq_getElem inside]
  rfl

/-- No octet behind the end is a trailing one. -/
theorem lt_of_trailing {index : Nat} (trailing : Trailing (octets.getD index 0)) :
    index < octets.length := by
  by_contra short
  rw [getD_eq_getElem?_getD, List.getElem?_eq_none (Nat.not_lt.mp short)] at trailing
  exact absurd trailing.1 (by decide)

/-- Four octets that are a sequence of the table but for the third. -/
def Slips (octets : List UInt8) : Prop :=
  ∃ first second third fourth, octets = [first, second, third, fourth] ∧
    Listed [first, second, 0x80, fourth] ∧ ¬ Trailing third

theorem trailing_least : Trailing 0x80 := ⟨by decide, by decide⟩

/-- A sequence that is found correct is one of the table, but for the third octet of four. -/
theorem accepted_of_correct {count : Nat} (nonempty : src ≠ [])
    (correct : isCorrectUtf8Sequence src = some count) :
    count ≤ src.length ∧ (Listed (src.take count) ∨ Slips (src.take count)) := by
  have positive := length_pos_iff.mpr nonempty
  have lead := take_getD positive
  unfold isCorrectUtf8Sequence at correct
  dsimp only at correct
  split_ifs at correct with one range two second fits three last last <;> cases correct
  · rw [lead]
    exact ⟨positive, .inl (listed_one.mpr (by omega))⟩
  · have second := trailing_iff.mp second
    have inside := lt_of_trailing second
    rw [take_getD inside, lead]
    exact ⟨inside, .inl (listed_two.mpr ⟨by omega, second⟩)⟩
  · have last := trailing_iff.mp (not_not.mp last)
    have inside := lt_of_trailing last
    rw [take_getD inside, take_getD (Nat.lt_of_succ_lt inside), lead]
    exact ⟨inside, .inl (listed_three.mpr ⟨by omega, fits, last⟩)⟩
  · have last := trailing_iff.mp (not_not.mp last)
    have inside := lt_of_trailing last
    rw [take_getD inside, take_getD (Nat.lt_of_succ_lt inside), take_getD (by omega), lead]
    refine ⟨inside, ?_⟩
    by_cases third : Trailing (src.getD 2 0)
    · exact .inl (listed_four.mpr ⟨by omega, fits, third, last⟩)
    · exact .inr ⟨_, _, _, _, rfl, listed_four.mpr ⟨by omega, fits, trailing_least, last⟩, third⟩

/-- The check does not look at the third octet of four. -/
theorem correct_four {first second fourth : UInt8} {third : UInt8}
    (listed : Listed [first, second, 0x80, fourth]) {rest : List UInt8} :
    isCorrectUtf8Sequence ([first, second, third, fourth] ++ rest) = some 4 := by
  have ⟨lead, fits, _, last⟩ := listed_four.mp listed
  unfold isCorrectUtf8Sequence
  simp only [cons_append, getD_cons_zero, getD_cons_succ]
  rw [if_neg (by omega), if_neg (by omega), if_neg (by omega), if_neg (not_not.mpr fits),
    if_neg (by omega), if_neg (not_not.mpr (trailing_iff.mpr last))]

/-- A sequence of the table is found correct. -/
theorem correct_of_listed (listed : Listed octets) (rest : List UInt8) :
    isCorrectUtf8Sequence (octets ++ rest) = some octets.length := by
  unfold isCorrectUtf8Sequence
  rcases octets with _ | ⟨a, _ | ⟨b, _ | ⟨c, _ | ⟨d, _ | ⟨e, more⟩⟩⟩⟩⟩
  · exact absurd listed not_listed_nil
  · have lead := listed_one.mp listed
    simp only [cons_append, getD_cons_zero]
    exact if_pos (by omega)
  · have ⟨lead, second⟩ := listed_two.mp listed
    simp only [cons_append, getD_cons_zero, getD_cons_succ]
    rw [if_neg (by omega), if_neg (by omega), if_pos (by omega), if_pos (trailing_iff.mpr second)]
    rfl
  · have ⟨lead, fits, third⟩ := listed_three.mp listed
    simp only [cons_append, getD_cons_zero, getD_cons_succ]
    rw [if_neg (by omega), if_neg (by omega), if_neg (by omega), if_neg (not_not.mpr fits),
      if_pos (by omega), if_neg (not_not.mpr (trailing_iff.mpr third))]
    rfl
  · have ⟨lead, fits, _, fourth⟩ := listed_four.mp listed
    exact correct_four (listed_four.mpr ⟨lead, fits, trailing_least, fourth⟩)
  · simp [Listed, tableRows] at listed

/-- What is found correct, the third octet of four set apart. -/
theorem correct_of_accepted (accepted : Listed octets ∨ Slips octets) (rest : List UInt8) :
    isCorrectUtf8Sequence (octets ++ rest) = some octets.length := by
  rcases accepted with listed | ⟨first, second, third, fourth, rfl, listed, -⟩
  · exact correct_of_listed listed rest
  · exact correct_four listed

/-- The octets of a scalar value are in the table. -/
theorem listed_encode (scalar : Utf8.Scalar value) : Listed (Utf8.encode value) := by
  have written := Utf8.written_encode scalar.lt
  unfold Utf8.Scalar at scalar
  generalize Utf8.encode value = octets at written
  cases written with
  | one first range firstEq => exact listed_one.mpr (by omega)
  | two first second range firstEq secondEq => exact listed_two.mpr ⟨by omega, by omega, by omega⟩
  | three first second third range firstEq secondEq thirdEq =>
    refine listed_three.mpr ⟨by omega, ?_, by omega, by omega⟩
    exact (secondOctetFits_iff second.toNat_lt).mpr (by omega)
  | four first second third fourth range firstEq secondEq thirdEq fourthEq =>
    refine listed_four.mpr ⟨by omega, ?_, ⟨by omega, by omega⟩, by omega, by omega⟩
    exact (secondOctetFits_iff second.toNat_lt).mpr (by omega)

end UnixCommons.Text
