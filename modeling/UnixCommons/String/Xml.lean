import UnixCommons.String.AsciiStringManip
import UnixCommons.String.Utf8Handler

/-!
# XML text

The encoder writes printable ASCII characters as they are, or by name if they are
special, and any other character by its number or, if asked for, by its octets. It has
one form for octets and one for wide characters. The decoder knows the five names and
hexadecimal numbers.

A number is written from its first digit that is not zero, out of the eight digits of
a 32-bit number. Up to seven digits fit the buffer of the source.
-/

namespace UnixCommons.Text

open List Utf8

/-- The characters of an ASCII text as octets. -/
def text (characters : List Char) : List UInt8 := characters.map octet

/-- What an exception of the functions says. -/
inductive XmlFault where
  /-- Invalid source UTF-8 string -/
  | invalidSource (src : List UInt8)
  /-- absent semicolon -/
  | absentSemicolon
  /-- empty sequence -/
  | emptySequence
  /-- invalid char code -/
  | invalidCharCode (tag : List UInt8)
  /-- unknown sequence -/
  | unknownSequence (tag : List UInt8)
deriving DecidableEq

def xuText : Nat := 0x1
def xuAttribute : Nat := 0x2
def xuPreserveUtf8 : Nat := 0x4

/-- The units in force: none stands for text and attributes. -/
def effectiveUnits (units : Nat) : Nat := if units = 0 then xuText ||| xuAttribute else units

def ampersand : UInt8 := 0x26
def apostrophe : UInt8 := 0x27
def quotation : UInt8 := 0x22
def semicolon : UInt8 := 0x3B

/-- A named character. -/
def entity (name : List Char) : List UInt8 := ampersand :: (text name ++ [semicolon])

/-- What is written for a special character. -/
def special (symbol : UInt8) (units : Nat) : List UInt8 :=
  if symbol = octet '<' then entity ['l', 't']
  else if symbol = octet '>' then entity ['g', 't']
  else if symbol = ampersand then entity ['a', 'm', 'p']
  else if units &&& xuAttribute ≠ 0 ∧ symbol = apostrophe then entity ['a', 'p', 'o', 's']
  else if units &&& xuAttribute ≠ 0 ∧ symbol = quotation then entity ['q', 'u', 'o', 't']
  else [symbol]

/-- The first digit that is not zero, looked for from a place on. -/
def firstDigit (ucs : Nat) : Nat → Nat
  | 0 => 0
  | place + 1 =>
    if ucs &&& (0xF <<< (4 * (place + 1))) ≠ 0 then place + 1 else firstDigit ucs place

/-- The digits from a place on. -/
def digitsFrom (ucs : Nat) : Nat → List UInt8
  | 0 => [hexDigit (ucs &&& 0xF)]
  | place + 1 =>
    hexDigit ((ucs &&& (0xF <<< (4 * (place + 1)))) >>> (4 * (place + 1))) :: digitsFrom ucs place

/-- The number of a character that is not NUL. -/
def wcharToHex (ucs : Nat) : List UInt8 :=
  ampersand :: octet '#' :: octet 'x' :: (digitsFrom ucs (firstDigit ucs 7) ++ [semicolon])

/-- The loop of the encoder of octets. -/
def xmlEncodeFrom (units : Nat) (src dest : List UInt8) : Except XmlFault (List UInt8) :=
  if src = [] then .ok dest
  else if isCorrectUtf8Sequence src = none then .error (.invalidSource src)
  else
    let octetsCount := (isCorrectUtf8Sequence src).getD 0
    let current := src.headD 0
    let written :=
      if octetsCount = 1 ∧ 0x20 ≤ current.toNat ∧ current.toNat ≤ 0x7E then special current units
      else if units &&& xuPreserveUtf8 ≠ 0 then src.take octetsCount
      else wcharToHex (utf8CharToWchar src octetsCount).2
    xmlEncodeFrom units (src.drop octetsCount) (dest ++ written)
termination_by src.length
decreasing_by
  rename_i nonempty correct
  have some := length_pos_iff.mpr nonempty
  have positive := isCorrectUtf8Sequence_ne_zero correct
  rw [length_drop]
  omega

/-- A text ends before its first NUL. -/
def xmlEncode (src : List UInt8) (units : Nat) : Except XmlFault (List UInt8) :=
  xmlEncodeFrom (effectiveUnits units) (src.takeWhile (· ≠ 0)) []

/-- What the encoder of wide characters writes for one of them. -/
def wideWritten (units current : Nat) : List UInt8 :=
  let low := UInt8.ofNat current
  if current >>> 8 = 0 ∧ 0x20 ≤ low.toNat ∧ low.toNat ≤ 0x7E then special low units
  else if units &&& xuPreserveUtf8 ≠ 0 then wcharToUtf8 current
  else wcharToHex current

/-- The encoder of wide characters. -/
def xmlEncodeWide (src : List Nat) (units : Nat) : List UInt8 :=
  (src.takeWhile (· ≠ 0)).flatMap (wideWritten (effectiveUnits units))

/-- The number in a tag, without its leading zeros. -/
def decodeNumber (tag number : List UInt8) : Except XmlFault (List UInt8) :=
  let digits := number.dropWhile (· = octet '0')
  if digits = [] then .ok [0]
  else if digits.length > 6 ∨ digits.all hexNumber = false then .error (.invalidCharCode tag)
  else
    match wcharToUtf8Char (readHex digits) with
    | none => .error (.invalidCharCode tag)
    | some octets => .ok octets

/-- What stands between an ampersand and a semicolon. -/
def decodeTag (tag : List UInt8) : Except XmlFault (List UInt8) :=
  if tag.head? = some (octet '#') then
    if tag[1]? = some (octet 'x') ∧ tag.drop 2 ≠ [] then decodeNumber tag (tag.drop 2)
    else .error (.unknownSequence tag)
  else if tag = text ['a', 'm', 'p'] then .ok [ampersand]
  else if tag = text ['a', 'p', 'o', 's'] then .ok [apostrophe]
  else if tag = text ['g', 't'] then .ok [octet '>']
  else if tag = text ['l', 't'] then .ok [octet '<']
  else if tag = text ['q', 'u', 'o', 't'] then .ok [quotation]
  else .error (.unknownSequence tag)

/-- The loop of the decoder: the text up to an ampersand, then a tag. -/
def xmlDecodeFrom (src dst : List UInt8) : Except XmlFault (List UInt8) :=
  let before := src.takeWhile (· ≠ ampersand)
  let found := (src.dropWhile (· ≠ ampersand)).tail
  if ampersand ∉ src then .ok (dst ++ src)
  else if semicolon ∉ found then .error .absentSemicolon
  else
    let tag := found.takeWhile (· ≠ semicolon)
    if tag = [] then .error .emptySequence
    else
      match decodeTag tag with
      | .error fault => .error fault
      | .ok octets => xmlDecodeFrom (found.drop (tag.length + 1)) (dst ++ before ++ octets)
termination_by src.length
decreasing_by
  rename_i marked _ _
  have positive := length_pos_of_mem (not_not.mp marked)
  have dropped := (dropWhile_sublist (l := src) (· ≠ ampersand)).length_le
  simp only [length_drop, length_tail]
  omega

/-- `xml_decode`. -/
def xmlDecode (src : List UInt8) : Except XmlFault (List UInt8) := xmlDecodeFrom src []

/-! ### Numbers -/

theorem two_pow_four_mul (place : Nat) : (2 : Nat) ^ (4 * place) = 16 ^ place := by
  rw [Nat.pow_mul]

variable (ucs place : Nat)

/-- A digit in place. -/
theorem digit_eq :
    (ucs &&& (0xF <<< (4 * place))) >>> (4 * place) = ucs / 16 ^ place % 16 := by
  rw [← two_pow_four_mul]
  exact Bits.masked_shiftRight 4

/-- The mask finds a digit that is not zero. -/
theorem digit_ne_zero_iff :
    ucs &&& (0xF <<< (4 * place)) ≠ 0 ↔ ucs / 16 ^ place % 16 ≠ 0 := by
  have field : ucs &&& (0xF <<< (4 * place)) = ucs / 2 ^ (4 * place) % 2 ^ 4 * 2 ^ (4 * place) :=
    Bits.masked_in_place 4
  rw [field, two_pow_four_mul]
  have positive : 16 ^ place ≠ 0 := Nat.ne_of_gt (Nat.pow_pos (by decide))
  simp only [ne_eq, mul_eq_zero, positive, or_false]
  rfl

/-- The digits read back. -/
theorem foldl_digitsFrom (ucs value place : Nat) :
    (digitsFrom ucs place).foldl (fun value digit => value <<< 4 ||| hexToInt digit) value =
      value * 16 ^ (place + 1) + ucs % 16 ^ (place + 1) := by
  induction place generalizing value with
  | zero =>
    have low : ucs &&& 0xF = ucs % 16 := Bits.and_mask 4
    rw [digitsFrom, low]
    exact shift_hexDigit (Nat.mod_lt _ (by decide))
  | succ place ih =>
    rw [digitsFrom, foldl_cons, digit_eq, shift_hexDigit (Nat.mod_lt _ (by decide)), ih,
      Nat.mod_pow_succ (k := place + 1)]
    ring

/-- From the first digit that is not zero on, nothing of a number is left out. -/
theorem firstDigit_spec {ucs place : Nat} (positive : ucs ≠ 0) (small : ucs < 16 ^ (place + 1)) :
    firstDigit ucs place ≤ place ∧ 16 ^ firstDigit ucs place ≤ ucs ∧
      ucs < 16 ^ (firstDigit ucs place + 1) := by
  induction place with
  | zero => exact ⟨le_refl 0, pos_of_ne_zero positive, small⟩
  | succ place ih =>
    rw [firstDigit]
    split
    next found =>
      refine ⟨le_refl _, ?_, small⟩
      by_contra less
      rw [digit_ne_zero_iff, Nat.div_eq_of_lt (Nat.not_le.mp less)] at found
      exact found rfl
    next missed =>
      have zero : ucs / 16 ^ (place + 1) % 16 = 0 := by
        by_contra digit
        exact missed ((digit_ne_zero_iff ucs (place + 1)).mpr digit)
      have quotient : ucs / 16 ^ (place + 1) < 16 := by
        rw [Nat.div_lt_iff_lt_mul (Nat.pow_pos (by decide)), ← Nat.pow_succ']
        exact small
      have less : ucs < 16 ^ (place + 1) := by
        rw [Nat.mod_eq_of_lt quotient] at zero
        exact Nat.lt_of_div_eq_zero (Nat.pow_pos (by decide)) zero
      obtain ⟨within, rest⟩ := ih less
      exact ⟨Nat.le_succ_of_le within, rest⟩

/-- All written digits are hexadecimal. -/
theorem digitsFrom_hexDigit :
    ∀ digit ∈ digitsFrom ucs place, ∃ value < 16, digit = hexDigit value := by
  induction place with
  | zero =>
    intro digit member
    have low : ucs &&& 0xF = ucs % 16 := Bits.and_mask 4
    rw [digitsFrom, mem_singleton, low] at member
    exact ⟨ucs % 16, Nat.mod_lt _ (by decide), member⟩
  | succ place ih =>
    rw [digitsFrom, digit_eq]
    exact forall_mem_cons.mpr ⟨⟨_, Nat.mod_lt _ (by decide), rfl⟩, ih⟩

theorem digitsFrom_length : (digitsFrom ucs place).length = place + 1 := by
  induction place with
  | zero => rfl
  | succ place ih => rw [digitsFrom, length_cons, ih]

/-- The first of the digits. -/
theorem digitsFrom_head :
    (digitsFrom ucs place).head? = some (hexDigit (ucs / 16 ^ place % 16)) := by
  cases place with
  | zero =>
    have low : ucs &&& 0xF = ucs % 16 := Bits.and_mask 4
    rw [digitsFrom, low, pow_zero, Nat.div_one]
    rfl
  | succ place =>
    rw [digitsFrom, digit_eq]
    rfl

variable {value : Nat}

/-- Digits without a leading zero. -/
theorem decodeNumber_digits {digits : List UInt8} {tag : List UInt8}
    (leading : ∃ first, digits.head? = some first ∧ first ≠ octet '0') (few : digits.length ≤ 6)
    (hexadecimal : digits.all hexNumber = true) (read : readHex digits = value)
    (small : value < 0x110000) : decodeNumber tag digits = .ok (encode value) := by
  obtain _ | ⟨first, rest⟩ := digits
  · obtain ⟨first, head, -⟩ := leading
    cases head
  obtain ⟨_, head, notZero⟩ := leading
  cases head
  have kept : (first :: rest).dropWhile (· = octet '0') = first :: rest :=
    dropWhile_cons_of_neg (by simpa using notZero)
  have accepted : ¬ ((first :: rest).length > 6 ∨ (first :: rest).all hexNumber = false) := by
    rintro (long | other)
    · exact Nat.not_le.mpr long few
    · rw [hexadecimal] at other
      cases other
  rw [decodeNumber]
  simp only [kept]
  rw [if_neg (cons_ne_nil _ _), if_neg accepted, read, wcharToUtf8Char_encode small]

/-- The number of a character is read back. -/
theorem decodeNumber_digitsFrom {ucs : Nat} (positive : ucs ≠ 0) (small : ucs < 0x110000)
    {tag : List UInt8} :
    decodeNumber tag (digitsFrom ucs (firstDigit ucs 7)) = .ok (encode ucs) := by
  obtain ⟨-, least, most⟩ := @firstDigit_spec ucs 7 positive (lt_trans small (by decide))
  generalize firstDigit ucs 7 = place at least most
  have power : 0 < 16 ^ place := Nat.pow_pos (by decide)
  refine decodeNumber_digits ⟨_, digitsFrom_head ucs place, ?_⟩ ?_ ?_ ?_ small
  · have nonzero : ∀ digit < 16, digit ≠ 0 → hexDigit digit ≠ octet '0' := by decide
    have below : ucs / 16 ^ place < 16 := by
      rw [Nat.div_lt_iff_lt_mul power, ← pow_succ']
      exact most
    rw [Nat.mod_eq_of_lt below]
    exact nonzero _ below (Nat.ne_of_gt (Nat.div_pos least power))
  · rw [digitsFrom_length]
    by_contra long
    have large : 16 ^ 6 ≤ 16 ^ place :=
      Nat.pow_le_pow_right (by decide) (Nat.le_of_succ_le_succ (Nat.not_le.mp long))
    exact absurd (le_trans large least) (Nat.not_le.mpr (lt_trans small (by decide)))
  · rw [all_eq_true]
    intro digit member
    obtain ⟨number, below, rfl⟩ := digitsFrom_hexDigit ucs place digit member
    exact hexNumber_hexDigit number below
  · rw [readHex, foldl_digitsFrom, Nat.zero_mul, zero_add, Nat.mod_eq_of_lt most]

/-- A written number is read back. -/
theorem decodeTag_number {ucs : Nat} (positive : ucs ≠ 0) (small : ucs < 0x110000) :
    decodeTag (octet '#' :: octet 'x' :: digitsFrom ucs (firstDigit ucs 7)) =
      .ok (encode ucs) := by
  have digits : digitsFrom ucs (firstDigit ucs 7) ≠ [] := by
    apply ne_nil_of_length_pos
    rw [digitsFrom_length]
    exact Nat.succ_pos _
  rw [decodeTag, if_pos (by rfl), if_pos ⟨by rfl, digits⟩]
  exact decodeNumber_digitsFrom positive small

/-! ### Decoding -/

/-- A piece of text without an ampersand goes through the decoder. -/
theorem xmlDecodeFrom_plain {octets : List UInt8} (plain : ampersand ∉ octets) {rest dst : List UInt8} :
    xmlDecodeFrom (octets ++ rest) dst = xmlDecodeFrom rest (dst ++ octets) := by
  have passes : ∀ octet ∈ octets, decide (octet ≠ ampersand) = true := by
    intro octet member
    exact decide_eq_true fun same => plain (same ▸ member)
  have marked : ampersand ∉ octets ++ rest ↔ ampersand ∉ rest := by
    simp only [mem_append, plain, false_or]
  rw [xmlDecodeFrom.eq_def (octets ++ rest), xmlDecodeFrom.eq_def rest]
  simp only [takeWhile_append_of_pos passes, dropWhile_append_of_pos passes, marked,
    append_assoc]

/-- A tag is replaced by what it stands for. -/
theorem xmlDecodeFrom_tag {tag octets : List UInt8} (some : tag ≠ []) (plain : semicolon ∉ tag)
    (decoded : decodeTag tag = .ok octets) (rest dst : List UInt8) :
    xmlDecodeFrom (ampersand :: (tag ++ semicolon :: rest)) dst = xmlDecodeFrom rest (dst ++ octets) := by
  have passes : ∀ octet ∈ tag, decide (octet ≠ semicolon) = true := by
    intro octet member
    exact decide_eq_true fun same => plain (same ▸ member)
  have found : ((ampersand :: (tag ++ semicolon :: rest)).dropWhile (· ≠ ampersand)).tail =
      tag ++ semicolon :: rest := by
    rw [dropWhile_cons_of_neg (by simp), tail_cons]
  have before : (ampersand :: (tag ++ semicolon :: rest)).takeWhile (· ≠ ampersand) = [] :=
    takeWhile_cons_of_neg (by simp)
  have name : (tag ++ semicolon :: rest).takeWhile (· ≠ semicolon) = tag := by
    rw [takeWhile_append_of_pos passes, takeWhile_cons_of_neg (by simp), append_nil]
  have behind : (tag ++ semicolon :: rest).drop (tag.length + 1) = rest := by simp
  rw [xmlDecodeFrom]
  simp only [found, before, name, behind]
  rw [if_neg (by simp), if_neg (by simp), if_neg some, decoded, append_nil]

theorem special_entity (name : List Char) (rest : List UInt8) :
    entity name ++ rest = ampersand :: (text name ++ semicolon :: rest) := by
  simp [entity]

/-- The decoder on what is written for a special character. -/
theorem xmlDecodeFrom_special (symbol : UInt8) (units : Nat) (rest dst : List UInt8) :
    xmlDecodeFrom (special symbol units ++ rest) dst = xmlDecodeFrom rest (dst ++ [symbol]) := by
  unfold special
  split_ifs with lt gt amp apos quot
  · rw [special_entity, lt]
    exact xmlDecodeFrom_tag (by decide) (by decide) (by decide) rest dst
  · rw [special_entity, gt]
    exact xmlDecodeFrom_tag (by decide) (by decide) (by decide) rest dst
  · rw [special_entity, amp]
    exact xmlDecodeFrom_tag (by decide) (by decide) (by decide) rest dst
  · rw [special_entity, apos.2]
    exact xmlDecodeFrom_tag (by decide) (by decide) (by decide) rest dst
  · rw [special_entity, quot.2]
    exact xmlDecodeFrom_tag (by decide) (by decide) (by decide) rest dst
  · exact xmlDecodeFrom_plain (by simpa using Ne.symm amp)

/-- A character that is written as a number is decoded. -/
theorem xmlDecodeFrom_wcharToHex {ucs : Nat} (positive : ucs ≠ 0) (small : ucs < 0x110000)
    {rest dst : List UInt8} :
    xmlDecodeFrom (wcharToHex ucs ++ rest) dst = xmlDecodeFrom rest (dst ++ encode ucs) := by
  have plain : semicolon ∉ octet '#' :: octet 'x' :: digitsFrom ucs (firstDigit ucs 7) := by
    have digits : ∀ number < 16, semicolon ≠ hexDigit number := by decide
    rw [mem_cons, mem_cons]
    rintro (marker | marker | member)
    · exact absurd marker (by decide)
    · exact absurd marker (by decide)
    · obtain ⟨number, below, same⟩ := digitsFrom_hexDigit ucs _ _ member
      exact digits number below same
  have decoded := xmlDecodeFrom_tag (cons_ne_nil _ _) plain (decodeTag_number positive small) rest dst
  rw [← decoded, wcharToHex]
  simp

/-! ### Encoding -/

/-- What is written for a character. -/
def xmlWritten (units value : Nat) : List UInt8 :=
  if 0x20 ≤ value ∧ value ≤ 0x7E then special (.ofNat value) units
  else if units &&& xuPreserveUtf8 ≠ 0 then encode value
  else wcharToHex value

theorem encode_ascii (ascii : value < 0x80) : encode value = [.ofNat value] :=
  if_pos ascii

/-- The test for a printable character in the encoder of octets. -/
theorem printable_octets (small : value < 0x110000) {rest : List UInt8} :
    ((encode value).length = 1 ∧ 0x20 ≤ ((encode value ++ rest).headD 0).toNat ∧
      ((encode value ++ rest).headD 0).toNat ≤ 0x7E) ↔ 0x20 ≤ value ∧ value ≤ 0x7E := by
  have written := written_encode small
  generalize encode value = octets at written
  cases written with
  | one first range firstEq =>
    simp only [length_singleton, cons_append, headD_cons, firstEq, true_and]
  | two | three | four =>
    simp only [length_cons]
    omega

/-- The encoder of octets on one character of a text. -/
theorem xmlEncodeFrom_encode (scalar : Utf8.Scalar value) (units : Nat)
    (src dest : List UInt8) :
    xmlEncodeFrom units (encode value ++ src) dest =
      xmlEncodeFrom units src (dest ++ xmlWritten units value) := by
  have count := correct_of_listed (listed_encode scalar) src
  have code := congrArg Prod.snd (utf8CharToWchar_encode scalar src)
  have some : encode value ++ src ≠ [] := by
    obtain ⟨lead, octets, encoded, -⟩ := encode_octets scalar
    rw [encoded]
    exact cons_ne_nil _ _
  have known : isCorrectUtf8Sequence (encode value ++ src) ≠ none := by
    rw [count]
    exact Option.some_ne_none _
  rw [xmlEncodeFrom, if_neg some, if_neg known]
  simp only [count, Option.getD_some, printable_octets scalar.lt, code, take_left',
    drop_left']
  rw [xmlWritten]
  split
  next printable =>
    have alone := encode_ascii (lt_of_le_of_lt printable.2 (by decide))
    rw [alone]
    rfl
  next => rfl

/-- The encoder of octets on a text. -/
theorem xmlEncodeFrom_encodeAll {values : List Nat} (scalars : ∀ value ∈ values, Utf8.Scalar value)
    (units : Nat) (dest : List UInt8) :
    xmlEncodeFrom units (encodeAll values) dest = .ok (dest ++ values.flatMap (xmlWritten units)) := by
  induction values generalizing dest with
  | nil =>
    change xmlEncodeFrom units [] dest = .ok (dest ++ [])
    rw [xmlEncodeFrom, if_pos rfl, append_nil]
  | cons value rest ih =>
    obtain ⟨first, others⟩ := forall_mem_cons.mp scalars
    rw [encodeAll_cons, xmlEncodeFrom_encode first, ih others, flatMap_cons,
      append_assoc]

/-- The encoder of wide characters writes the same. -/
theorem wideWritten_eq (small : value < 0x110000) {units : Nat} :
    wideWritten units value = xmlWritten units value := by
  have printable : (value >>> 8 = 0 ∧ 0x20 ≤ (UInt8.ofNat value).toNat ∧
      (UInt8.ofNat value).toNat ≤ 0x7E) ↔ 0x20 ≤ value ∧ value ≤ 0x7E := by
    rw [UInt8.toNat_ofNat']
    omega
  rw [wideWritten, xmlWritten]
  simp only [printable, wcharToUtf8_encode small]

/-! ### Round trip -/

/-- Only an ampersand is written with one. -/
theorem ampersand_notMem_encode (small : value < 0x110000)
    (unprintable : ¬ (0x20 ≤ value ∧ value ≤ 0x7E)) : ampersand ∉ encode value := by
  intro member
  rcases mem_encode small _ member with same | large
  · exact unprintable (same ▸ by decide)
  · exact absurd large (by decide)

/-- The decoder on what is written for a character. -/
theorem xmlDecodeFrom_written (scalar : Utf8.Scalar value) (positive : value ≠ 0)
    (units : Nat) (rest dst : List UInt8) :
    xmlDecodeFrom (xmlWritten units value ++ rest) dst = xmlDecodeFrom rest (dst ++ encode value) := by
  rw [xmlWritten]
  split
  next printable =>
    rw [xmlDecodeFrom_special, encode_ascii (lt_of_le_of_lt printable.2 (by decide))]
  next unprintable =>
    split
    · exact xmlDecodeFrom_plain (ampersand_notMem_encode scalar.lt unprintable)
    · exact xmlDecodeFrom_wcharToHex positive scalar.lt

/-- The decoder on what is written for a text. -/
theorem xmlDecodeFrom_flatMap_written {values : List Nat}
    (scalars : ∀ value ∈ values, Utf8.Scalar value) (notNul : 0 ∉ values) (units : Nat)
    (dst : List UInt8) :
    xmlDecodeFrom (values.flatMap (xmlWritten units)) dst = .ok (dst ++ encodeAll values) := by
  induction values generalizing dst with
  | nil =>
    rw [xmlDecodeFrom]
    rfl
  | cons value rest ih =>
    obtain ⟨first, others⟩ := forall_mem_cons.mp scalars
    have positive : value ≠ 0 := fun zero => notNul (zero ▸ mem_cons_self)
    have none : 0 ∉ rest := fun member => notNul (mem_cons_of_mem value member)
    rw [flatMap_cons, xmlDecodeFrom_written first positive, ih others none,
      encodeAll_cons, append_assoc]

/-- **XML text is read back.** For all units the encoder accepts every text, the decoder
gives the text back, and the encoder of wide characters writes the same. -/
theorem xml_round_trip {values : List Nat} (scalars : ∀ value ∈ values, Utf8.Scalar value)
    (notNul : 0 ∉ values) (units : Nat) :
    ∃ encoded, xmlEncode (encodeAll values) units = .ok encoded ∧
      xmlDecode encoded = .ok (encodeAll values) ∧ xmlEncodeWide values units = encoded := by
  refine ⟨values.flatMap (xmlWritten (effectiveUnits units)), ?_, ?_, ?_⟩
  · rw [xmlEncode, takeWhile_encodeAll scalars notNul, xmlEncodeFrom_encodeAll scalars]
    rfl
  · rw [xmlDecode, xmlDecodeFrom_flatMap_written scalars notNul]
    rfl
  · have whole : values.takeWhile (· ≠ 0) = values := by
      rw [takeWhile_eq_self_iff]
      intro value member
      exact decide_eq_true fun zero => notNul (zero ▸ member)
    rw [xmlEncodeWide, whole]
    exact flatMap_congr fun value member => wideWritten_eq (scalars value member).lt

/-- A special character, a quotation mark, a control character and a sign. -/
theorem xml_round_trip_mixed :
    ∃ encoded, xmlEncode (encodeAll [0x26, 0x22, 0x0A, 0x20AC]) xuText = .ok encoded ∧
      xmlDecode encoded = .ok (encodeAll [0x26, 0x22, 0x0A, 0x20AC]) ∧
      xmlEncodeWide [0x26, 0x22, 0x0A, 0x20AC] xuText = encoded :=
  xml_round_trip (by decide) (by decide) xuText

end UnixCommons.Text
