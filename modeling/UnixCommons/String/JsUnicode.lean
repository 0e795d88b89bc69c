import UnixCommons.String.AsciiStringManip
import UnixCommons.String.Utf8Handler

/-!
# Unicode escapes of JavaScript

The encoder writes letters and digits as they are and any other character as one
escape of four hexadecimal digits, or as two escapes with a surrogate pair if it lies
beyond the basic plane. The decoder joins pairs again.

The decoder takes every escape from D700 on for the first of a pair, not only those
from D800 on. The characters in between are written as one escape, so in a strict
decoder they end in an exception. These are the only characters that do not come back.
-/

namespace UnixCommons.Text

open List Utf8

/-- What an exception of the two functions says. -/
inductive JsFault where
  /-- found non-unicode symbol -/
  | nonUnicodeSymbol (found : List UInt8)
  /-- invalid symbol in the text -/
  | invalidSymbol (src : List UInt8)
  /-- unpaired surrogate in the text -/
  | unpairedSurrogate (src : List UInt8)
  /-- broken encoding in the text -/
  | brokenEncoding (src : List UInt8)
  /-- no exception: the source reads past the text -/
  | overrun
deriving DecidableEq

def backslash : UInt8 := 0x5C

/-- An escape. -/
def addUnicodeSymbol (dest : Nat) : List UInt8 :=
  [backslash, octet 'u', hexDigit (dest >>> 12 &&& 0x0F), hexDigit (dest >>> 8 &&& 0x0F),
    hexDigit (dest >>> 4 &&& 0x0F), hexDigit (dest &&& 0x0F)]

/-- The escapes of a code point. -/
def escapes (dest : Nat) : List UInt8 :=
  if dest < 0x10000 then addUnicodeSymbol dest
  else addUnicodeSymbol (0xD7C0 + (dest >>> 10)) ++ addUnicodeSymbol (0xDC00 + (dest &&& 0x3FF))

theorem drop_lead_length {octetsCount : Nat} {src : List UInt8} (some : src ≠ [])
    (positive : octetsCount ≠ 0) : (src.drop octetsCount).length < src.length := by
  have nonempty := length_pos_iff.mpr some
  rw [length_drop]
  omega

/-- The encoder's loop: letters and digits, then one other character. -/
def jsUnicodeEncodeFrom (src dst : List UInt8) : Except JsFault (List UInt8) :=
  let ptr := src.dropWhile alphaNum
  let dst := dst ++ src.takeWhile alphaNum
  if ptr = [] then .ok dst
  else
    let octetsCount := getOctetCount (ptr.headD 0)
    if octetsCount = 0 then .error (.nonUnicodeSymbol ptr)
    else
      let dst := dst ++ escapes (utf8CharToWchar ptr octetsCount).2
      if ptr.length < octetsCount then .error .overrun
      else jsUnicodeEncodeFrom (ptr.drop octetsCount) dst
termination_by src.length
decreasing_by
  rename_i goesOn leads _
  exact Nat.lt_of_lt_of_le (drop_lead_length goesOn leads) (dropWhile_sublist _).length_le

/-- A text ends before its first NUL. -/
def jsUnicodeEncode (src : List UInt8) : Except JsFault (List UInt8) :=
  jsUnicodeEncodeFrom (src.takeWhile (· ≠ 0)) []

def addWchar (src dest : List UInt8) (ch : Int) (strict : Bool) : Except JsFault (List UInt8) :=
  match wcharToUtf8Char ch with
  | some octets => .ok (dest ++ octets)
  | none => if strict then .error (.invalidSymbol src) else .ok dest

def addSurrogate (src : List UInt8) (surrogate : Nat) (dest : List UInt8) (strict : Bool) :
    Except JsFault (List UInt8) :=
  if strict then .error (.unpairedSurrogate src) else addWchar src dest surrogate strict

/-- The decoder's loop, with the surrogate that waits for its second half, if any. -/
def jsUnicodeDecodeFrom (src : List UInt8) (strict : Bool) (special : UInt8) :
    Nat → List UInt8 → List UInt8 → Except JsFault (List UInt8)
  | lastSurrogate, dest, [] =>
    if lastSurrogate ≠ 0 then addSurrogate src lastSurrogate dest strict else .ok dest
  | lastSurrogate, dest, current :: rest =>
    if current = special ∧ 4 ≤ rest.length ∧ rest.head? = some (octet 'u') then
      match rest with
      | _ :: h1 :: h2 :: h3 :: h4 :: rest =>
        let ch := readHex [h1, h2, h3, h4]
        if lastSurrogate ≠ 0 then
          if ch ≥ 0xDC00 ∧ ch < 0xE000 then do
            let joined : Int := ((lastSurrogate : Int) - 0xD7C0) * 2 ^ 10 + (ch - 0xDC00)
            let dest ← addWchar src dest joined strict
            jsUnicodeDecodeFrom src strict special 0 dest rest
          else do
            let dest ← addSurrogate src lastSurrogate dest strict
            let dest ← addWchar src dest ch strict
            jsUnicodeDecodeFrom src strict special 0 dest rest
        else if ch ≥ 0xD700 ∧ ch < 0xDC00 then
          jsUnicodeDecodeFrom src strict special ch dest rest
        else if ch ≥ 0xDC00 ∧ ch < 0xE000 then do
          let dest ← addSurrogate src ch dest strict
          jsUnicodeDecodeFrom src strict special 0 dest rest
        else do
          let dest ← addWchar src dest ch strict
          jsUnicodeDecodeFrom src strict special 0 dest rest
      -- five characters are enough for the check, the sixth is read past the text
      | _ => .error .overrun
    else if current = special ∧ strict then .error (.brokenEncoding src)
    else do
      let dest ← if lastSurrogate ≠ 0 then addSurrogate src lastSurrogate dest strict else .ok dest
      jsUnicodeDecodeFrom src strict special 0 (dest ++ [current]) rest

/-- The decoder adds to what is in its destination. -/
def jsUnicodeDecode (src dest : List UInt8) (strict : Bool) (special : UInt8) :
    Except JsFault (List UInt8) :=
  jsUnicodeDecodeFrom src strict special 0 dest src

/-! ### Escapes -/

/-- The digits of an escape. -/
theorem readHex_symbol {number : Nat} (small : number < 0x10000) :
    readHex [hexDigit (number >>> 12 &&& 0x0F), hexDigit (number >>> 8 &&& 0x0F),
      hexDigit (number >>> 4 &&& 0x0F), hexDigit (number &&& 0x0F)] = number := by
  have field : ∀ digit, digit &&& 0x0F = digit % 16 := fun digit => Bits.and_mask 4
  have below : ∀ digit, digit % 16 < 16 := fun digit => Nat.mod_lt digit (by decide)
  simp only [readHex, foldl_cons, foldl_nil, field, shift_hexDigit (below _)]
  omega

/-- What is written for a character. -/
def written (value : Nat) : List UInt8 :=
  if value < 0x80 ∧ alphaNum (.ofNat value) then [.ofNat value] else escapes value

variable {ch : UInt8}

/-- A letter or a digit goes through the encoder. -/
theorem jsUnicodeEncodeFrom_alphaNum (owned : alphaNum ch = true) {src dst : List UInt8} :
    jsUnicodeEncodeFrom (ch :: src) dst = jsUnicodeEncodeFrom src (dst ++ [ch]) := by
  rw [jsUnicodeEncodeFrom, jsUnicodeEncodeFrom]
  simp only [dropWhile_cons_of_pos owned, takeWhile_cons_of_pos owned, append_assoc,
    singleton_append]

/-- Lead octets of more than one octet are no letters or digits. -/
theorem alphaNum_lt (owned : alphaNum ch = true) : ch.toNat < 0x80 := by
  simp only [alphaNum, inRange, Bool.or_eq_true, Bool.and_eq_true, decide_eq_true_eq] at owned
  have last : 'Z'.toNat < 0x80 ∧ 'z'.toNat < 0x80 ∧ '9'.toNat < 0x80 := by decide
  omega

variable {value last : Nat}

/-- A character of more than one octet, or no letter and no digit, is escaped. -/
theorem jsUnicodeEncodeFrom_escape (scalar : Utf8.Scalar value)
    (notOwned : alphaNum ((encode value).headD 0) = false) (src dst : List UInt8) :
    jsUnicodeEncodeFrom (encode value ++ src) dst =
      jsUnicodeEncodeFrom src (dst ++ escapes value) := by
  have read := utf8CharToWchar_encode scalar src
  obtain ⟨lead, octets, encoded, few, count, trailing⟩ := encode_octets scalar
  rw [encoded] at notOwned read ⊢
  have notOwned : ¬ alphaNum lead = true := Bool.not_eq_true _ ▸ notOwned
  rw [cons_append, jsUnicodeEncodeFrom]
  rw [cons_append] at read
  have dropped : (lead :: (octets ++ src)).drop (octets.length + 1) = src := by simp
  simp only [dropWhile_cons_of_neg notOwned, takeWhile_cons_of_neg notOwned, headD_cons,
    count, length_cons] at read ⊢
  rw [if_neg (cons_ne_nil _ _), if_neg (Nat.succ_ne_zero _), read, if_neg (by simp), dropped,
    append_nil]

/-- The encoder on one character of a text. -/
theorem jsUnicodeEncodeFrom_encode (scalar : Utf8.Scalar value) (src dst : List UInt8) :
    jsUnicodeEncodeFrom (encode value ++ src) dst =
      jsUnicodeEncodeFrom src (dst ++ written value) := by
  by_cases owned : value < 0x80 ∧ alphaNum (.ofNat value) = true
  · have alone : encode value = [.ofNat value] := if_pos owned.1
    rw [written, if_pos owned, alone]
    exact jsUnicodeEncodeFrom_alphaNum owned.2
  · rw [written, if_neg owned]
    apply jsUnicodeEncodeFrom_escape scalar
    apply Bool.eq_false_of_not_eq_true
    intro lead
    apply owned
    have ascii := alphaNum_lt lead
    have shape := written_encode scalar.lt
    generalize encode value = octets at lead ascii shape
    cases shape with
    | one first range firstEq =>
      have same : UInt8.ofNat value = first := by rw [← firstEq, UInt8.ofNat_toNat]
      exact ⟨range, same ▸ lead⟩
    | two | three | four =>
      simp only [headD_cons] at ascii
      omega

variable {values : List Nat}

/-- The encoder on a text. -/
theorem jsUnicodeEncodeFrom_encodeAll (scalars : ∀ value ∈ values, Utf8.Scalar value)
    (dst : List UInt8) :
    jsUnicodeEncodeFrom (encodeAll values) dst = .ok (dst ++ values.flatMap written) := by
  induction values generalizing dst with
  | nil =>
    rw [jsUnicodeEncodeFrom]
    rfl
  | cons value rest ih =>
    obtain ⟨first, others⟩ := forall_mem_cons.mp scalars
    rw [encodeAll, flatMap_cons, jsUnicodeEncodeFrom_encode first]
    rw [← encodeAll, ih others, flatMap_cons, append_assoc]

/-! ### Decoding -/

section Decoding

variable {src : List UInt8} {strict : Bool} {number : Nat} (small : number < 0x10000)
include small

/-- An escape that is no half of a pair. -/
theorem decodeFrom_plain (outside : ¬ (0xD700 ≤ number ∧ number < 0xE000)) (dest rest : List UInt8) :
    jsUnicodeDecodeFrom src strict backslash 0 dest (addUnicodeSymbol number ++ rest) =
      jsUnicodeDecodeFrom src strict backslash 0 (dest ++ encode number) rest := by
  rw [addUnicodeSymbol, jsUnicodeDecodeFrom.eq_def]
  dsimp only [cons_append]
  rw [if_pos ⟨rfl, by simp, rfl⟩]
  rw [readHex_symbol small, if_neg (not_not.mpr rfl), if_neg (by omega), if_neg (by omega), addWchar,
    wcharToUtf8Char_encode (by omega)]
  rfl

/-- An escape that is taken for the first half of a pair. -/
theorem decodeFrom_first (first : 0xD700 ≤ number ∧ number < 0xDC00) (dest rest : List UInt8) :
    jsUnicodeDecodeFrom src strict backslash 0 dest (addUnicodeSymbol number ++ rest) =
      jsUnicodeDecodeFrom src strict backslash number dest rest := by
  rw [addUnicodeSymbol, jsUnicodeDecodeFrom.eq_def]
  dsimp only [cons_append, nil_append]
  rw [if_pos ⟨rfl, by simp, rfl⟩]
  rw [readHex_symbol small, if_neg (not_not.mpr rfl), if_pos first]

/-- The second half of a pair. -/
theorem decodeFrom_second (second : 0xDC00 ≤ number ∧ number < 0xE000)
    (pair : last ≠ 0) (range : value < 0x110000)
    (joined : ((last : Int) - 0xD7C0) * 2 ^ 10 + (number - 0xDC00) = value) (dest rest : List UInt8) :
    jsUnicodeDecodeFrom src strict backslash last dest (addUnicodeSymbol number ++ rest) =
      jsUnicodeDecodeFrom src strict backslash 0 (dest ++ encode value) rest := by
  rw [addUnicodeSymbol, jsUnicodeDecodeFrom.eq_def]
  dsimp only [cons_append]
  rw [readHex_symbol small, if_pos pair, if_pos second, joined, addWchar,
    wcharToUtf8Char_encode range]
  rfl

/-- Another escape behind the first half of a pair. -/
theorem decodeFrom_unpaired (other : ¬ (0xDC00 ≤ number ∧ number < 0xE000)) (pair : last ≠ 0)
    (dest rest : List UInt8) :
    jsUnicodeDecodeFrom src true backslash last dest (addUnicodeSymbol number ++ rest) =
      .error (.unpairedSurrogate src) := by
  rw [addUnicodeSymbol, jsUnicodeDecodeFrom.eq_def]
  dsimp only [cons_append]
  rw [readHex_symbol small, if_pos pair, if_neg other]
  rfl

end Decoding

/-- A letter or a digit goes through the decoder. -/
theorem decodeFrom_alphaNum (owned : alphaNum ch = true) {src dest rest : List UInt8}
    {strict : Bool} :
    jsUnicodeDecodeFrom src strict backslash 0 dest (ch :: rest) =
      jsUnicodeDecodeFrom src strict backslash 0 (dest ++ [ch]) rest := by
  have plain : ch ≠ backslash := by
    rintro rfl
    exact absurd owned (by decide)
  rw [jsUnicodeDecodeFrom.eq_def]
  dsimp only
  rw [if_neg (fun special => plain special.1), if_neg (fun special => plain special.1)]
  rfl

/-- A letter or a digit behind the first half of a pair. -/
theorem decodeFrom_alphaNum_unpaired (owned : alphaNum ch = true) (pair : last ≠ 0)
    {src dest rest : List UInt8} :
    jsUnicodeDecodeFrom src true backslash last dest (ch :: rest) =
      .error (.unpairedSurrogate src) := by
  have plain : ch ≠ backslash := by
    rintro rfl
    exact absurd owned (by decide)
  rw [jsUnicodeDecodeFrom.eq_def]
  dsimp only
  rw [if_neg (fun special => plain special.1), if_neg (fun special => plain special.1), if_pos pair]
  rfl

/-- The characters that the decoder takes for the first half of a pair. -/
def Mistaken (value : Nat) : Prop := 0xD700 ≤ value ∧ value < 0xD800
  deriving Decidable

/-- The two halves of a pair. -/
theorem halves (beyond : 0x10000 ≤ value) (small : value < 0x110000) :
    (0xD800 ≤ 0xD7C0 + (value >>> 10) ∧ 0xD7C0 + (value >>> 10) < 0xDC00) ∧
      (0xDC00 ≤ 0xDC00 + (value &&& 0x3FF) ∧ 0xDC00 + (value &&& 0x3FF) < 0xE000) ∧
      (((0xD7C0 + (value >>> 10) : Nat) : Int) - 0xD7C0) * 2 ^ 10 +
        (((0xDC00 + (value &&& 0x3FF) : Nat) : Int) - 0xDC00) = value := by
  have low : value &&& 0x3FF = value % 0x400 := Bits.and_mask 10
  omega

/-- The decoder on what is written for a character. -/
theorem decodeFrom_written (scalar : Utf8.Scalar value) (fine : ¬ Mistaken value)
    (src dest rest : List UInt8) (strict : Bool) :
    jsUnicodeDecodeFrom src strict backslash 0 dest (written value ++ rest) =
      jsUnicodeDecodeFrom src strict backslash 0 (dest ++ encode value) rest := by
  rw [written]
  split
  next owned =>
    have alone : encode value = [.ofNat value] := if_pos owned.1
    rw [alone]
    exact decodeFrom_alphaNum owned.2
  next =>
    rw [escapes]
    split
    next basic =>
      apply decodeFrom_plain basic
      unfold Utf8.Scalar at scalar
      unfold Mistaken at fine
      omega
    next beyond =>
      obtain ⟨first, second, joined⟩ := halves (Nat.not_lt.mp beyond) scalar.lt
      rw [append_assoc, decodeFrom_first (by omega) ⟨by omega, first.2⟩,
        decodeFrom_second (by omega) second (by omega) scalar.lt joined]

/-- Anything behind a character that is taken for the first half of a pair. -/
theorem decodeFrom_pending (pair : last ≠ 0) (scalars : ∀ value ∈ values, Utf8.Scalar value)
    {src dest : List UInt8} :
    jsUnicodeDecodeFrom src true backslash last dest (values.flatMap written) =
      .error (.unpairedSurrogate src) := by
  cases values with
  | nil =>
    change jsUnicodeDecodeFrom src true backslash last dest [] = _
    rw [jsUnicodeDecodeFrom, if_pos pair, addSurrogate, if_pos rfl]
  | cons value rest =>
    have scalar := (forall_mem_cons.mp scalars).1
    rw [flatMap_cons, written]
    split
    next owned => exact decodeFrom_alphaNum_unpaired owned.2 pair
    next =>
      rw [escapes]
      split
      next basic =>
        apply decodeFrom_unpaired basic _ pair
        unfold Utf8.Scalar at scalar
        omega
      next beyond =>
        obtain ⟨first, -, -⟩ := halves (Nat.not_lt.mp beyond) scalar.lt
        exact decodeFrom_unpaired (by omega) (by omega) pair dest _

theorem written_mistaken (mistaken : Mistaken value) : written value = addUnicodeSymbol value := by
  obtain ⟨least, most⟩ := mistaken
  rw [written, if_neg (by omega), escapes, if_pos (by omega)]

/-- The strict decoder on what is written for a text. -/
theorem decodeFrom_flatMap_written (scalars : ∀ value ∈ values, Utf8.Scalar value)
    (src dest : List UInt8) :
    jsUnicodeDecodeFrom src true backslash 0 dest (values.flatMap written) =
      if ∀ value ∈ values, ¬ Mistaken value then .ok (dest ++ encodeAll values)
      else .error (.unpairedSurrogate src) := by
  induction values generalizing dest with
  | nil =>
    change jsUnicodeDecodeFrom src true backslash 0 dest [] = .ok (dest ++ [])
    rw [jsUnicodeDecodeFrom, if_neg (not_not.mpr rfl), append_nil]
  | cons value rest ih =>
    obtain ⟨scalar, others⟩ := forall_mem_cons.mp scalars
    rw [flatMap_cons]
    by_cases mistaken : Mistaken value
    · have range : 0xD700 ≤ value ∧ value < 0xD800 := mistaken
      rw [if_neg (fun fine => fine value mem_cons_self mistaken),
        written_mistaken mistaken, decodeFrom_first (by omega) (by omega)]
      exact decodeFrom_pending (by omega) others
    · rw [decodeFrom_written scalar mistaken, ih others, append_assoc,
        ← encodeAll_cons]
      simp only [forall_mem_cons, mistaken, not_false_eq_true, true_and]

/-- **Which texts come back from their escapes.** The encoder accepts every text, and
the strict decoder gives the text back exactly when none of its characters lies between
D700 and D7FF. -/
theorem js_round_trip_iff {values : List Nat} (scalars : ∀ value ∈ values, Utf8.Scalar value)
    (notNul : 0 ∉ values) :
    ∃ encoded, jsUnicodeEncode (encodeAll values) = .ok encoded ∧
      (jsUnicodeDecode encoded [] true backslash = .ok (encodeAll values) ↔
        ∀ value ∈ values, ¬ Mistaken value) := by
  refine ⟨values.flatMap written, ?_, ?_⟩
  · rw [jsUnicodeEncode, takeWhile_encodeAll scalars notNul,
      jsUnicodeEncodeFrom_encodeAll scalars]
    rfl
  · rw [jsUnicodeDecode, decodeFrom_flatMap_written scalars, nil_append]
    constructor
    · intro decoded
      by_contra some
      rw [if_neg some] at decoded
      cases decoded
    · intro fine
      rw [if_pos fine]

/-- A letter, a sign and a character beyond the basic plane come back. -/
theorem js_round_trip_pair :
    ∃ encoded, jsUnicodeEncode (encodeAll [0x41, 0x20AC, 0x1F600]) = .ok encoded ∧
      (jsUnicodeDecode encoded [] true backslash = .ok (encodeAll [0x41, 0x20AC, 0x1F600]) ↔
        ∀ value ∈ [0x41, 0x20AC, 0x1F600], ¬ Mistaken value) :=
  js_round_trip_iff (by decide) (by decide)

/-- The syllable D700 ends in an exception. -/
theorem js_mistaken_syllable :
    ∃ encoded, jsUnicodeEncode (encodeAll [0xD700]) = .ok encoded ∧
      jsUnicodeDecode encoded [] true backslash = .error (.unpairedSurrogate encoded) := by
  refine ⟨[backslash, octet 'u', octet 'D', octet '7', octet '0', octet '0'], ?_, by decide⟩
  rw [jsUnicodeEncode, takeWhile_encodeAll (by decide) (by decide),
    jsUnicodeEncodeFrom_encodeAll (by decide)]
  decide

end UnixCommons.Text
