import UnixCommons.String.AsciiStringManip

/-!
# Base64

Three octets are written as four characters of six bits each; one or two octets left
over are written as two or three characters, with unused low bits in the last of them
that a caller may fill. Padding characters may complete the group.

The decoder reads characters through one table for both alphabets. A character it
does not know is skipped, which is also what happens to the padding character of the
standard form; the padding of the modified form, and the end of the text, end the data.
-/

namespace UnixCommons.Text.Base64

open Bits List

/-- The standard alphabet. -/
def stdEncodeTable : List Char :=
  ['A', 'B', 'C', 'D', 'E', 'F', 'G', 'H',
    'I', 'J', 'K', 'L', 'M', 'N', 'O', 'P',
    'Q', 'R', 'S', 'T', 'U', 'V', 'W', 'X',
    'Y', 'Z', 'a', 'b', 'c', 'd', 'e', 'f',
    'g', 'h', 'i', 'j', 'k', 'l', 'm', 'n',
    'o', 'p', 'q', 'r', 's', 't', 'u', 'v',
    'w', 'x', 'y', 'z', '0', '1', '2', '3',
    '4', '5', '6', '7', '8', '9', '+', '/']

/-- The alphabet for addresses. -/
def modEncodeTable : List Char :=
  ['A', 'B', 'C', 'D', 'E', 'F', 'G', 'H',
    'I', 'J', 'K', 'L', 'M', 'N', 'O', 'P',
    'Q', 'R', 'S', 'T', 'U', 'V', 'W', 'X',
    'Y', 'Z', 'a', 'b', 'c', 'd', 'e', 'f',
    'g', 'h', 'i', 'j', 'k', 'l', 'm', 'n',
    'o', 'p', 'q', 'r', 's', 't', 'u', 'v',
    'w', 'x', 'y', 'z', '0', '1', '2', '3',
    '4', '5', '6', '7', '8', '9', '-', '_']

def stdEncode (ch : Nat) : UInt8 := octet (stdEncodeTable.getD (ch &&& 0o77) 'A')

def modEncode (ch : Nat) : UInt8 := octet (modEncodeTable.getD (ch &&& 0o77) 'A')

def modPadding : UInt8 := octet '.'

/-- What a character stands for: six bits, 0o100 for the end, 0o177 for a blank. -/
def decodeTable : List Nat :=
  [0o100, 0o177, 0o177, 0o177, 0o177, 0o177, 0o177, 0o177,
    0o177, 0o177, 0o177, 0o177, 0o177, 0o177, 0o177, 0o177,
    0o177, 0o177, 0o177, 0o177, 0o177, 0o177, 0o177, 0o177,
    0o177, 0o177, 0o177, 0o177, 0o177, 0o177, 0o177, 0o177,
    0o177, 0o177, 0o177, 0o177, 0o177, 0o177, 0o177, 0o177,
    0o177, 0o177, 0o177, 0o076, 0o177, 0o076, 0o100, 0o077,
    0o064, 0o065, 0o066, 0o067, 0o070, 0o071, 0o072, 0o073,
    0o074, 0o075, 0o177, 0o177, 0o177, 0o177, 0o177, 0o177,
    0o177, 0o000, 0o001, 0o002, 0o003, 0o004, 0o005, 0o006,
    0o007, 0o010, 0o011, 0o012, 0o013, 0o014, 0o015, 0o016,
    0o017, 0o020, 0o021, 0o022, 0o023, 0o024, 0o025, 0o026,
    0o027, 0o030, 0o031, 0o177, 0o177, 0o177, 0o177, 0o077,
    0o177, 0o032, 0o033, 0o034, 0o035, 0o036, 0o037, 0o040,
    0o041, 0o042, 0o043, 0o044, 0o045, 0o046, 0o047, 0o050,
    0o051, 0o052, 0o053, 0o054, 0o055, 0o056, 0o057, 0o060,
    0o061, 0o062, 0o063, 0o177, 0o100, 0o177, 0o177, 0o177,
    0o177, 0o177, 0o177, 0o177, 0o177, 0o177, 0o177, 0o177,
    0o177, 0o177, 0o177, 0o177, 0o177, 0o177, 0o177, 0o177,
    0o177, 0o177, 0o177, 0o177, 0o177, 0o177, 0o177, 0o177,
    0o177, 0o177, 0o177, 0o177, 0o177, 0o177, 0o177, 0o177,
    0o177, 0o177, 0o177, 0o177, 0o177, 0o177, 0o177, 0o177,
    0o177, 0o177, 0o177, 0o177, 0o177, 0o177, 0o177, 0o177,
    0o177, 0o177, 0o177, 0o177, 0o177, 0o177, 0o177, 0o177,
    0o177, 0o177, 0o177, 0o177, 0o177, 0o177, 0o177, 0o177,
    0o177, 0o177, 0o177, 0o177, 0o177, 0o177, 0o177, 0o177,
    0o177, 0o177, 0o177, 0o177, 0o177, 0o177, 0o177, 0o177,
    0o177, 0o177, 0o177, 0o177, 0o177, 0o177, 0o177, 0o177,
    0o177, 0o177, 0o177, 0o177, 0o177, 0o177, 0o177, 0o177,
    0o177, 0o177, 0o177, 0o177, 0o177, 0o177, 0o177, 0o177,
    0o177, 0o177, 0o177, 0o177, 0o177, 0o177, 0o177, 0o177,
    0o177, 0o177, 0o177, 0o177, 0o177, 0o177, 0o177, 0o177,
    0o177, 0o177, 0o177, 0o177, 0o177, 0o177, 0o177, 0o177]

/-- The value of a character; anything else has the value `0177`. -/
def decode (ch : UInt8) : Nat := decodeTable.getD ch.toNat 0o177

/-- The two characters of a group that take bits of two octets each. -/
def secondDigit (first second : Nat) : Nat :=
  ((first <<< 4) &&& 0o60) ||| ((second >>> 4) &&& 0o17)

/-- The digit across the second and the third octet. -/
def thirdDigit (second third : Nat) : Nat :=
  ((second <<< 2) &&& 0o74) ||| ((third >>> 6) &&& 0o3)

/-- The encoder, for an alphabet and its padding character. -/
def funcEncode (padding : Bool) (encode : Nat → UInt8) (paddingChar fill : UInt8) :
    List UInt8 → List UInt8
  | [] => []
  | [c1] =>
    [encode (c1.toNat >>> 2), encode (((c1.toNat <<< 4) &&& 0o60) ||| (fill.toNat &&& 0x0F))] ++
      if padding then [paddingChar, paddingChar] else []
  | [c1, c2] =>
    [encode (c1.toNat >>> 2), encode (secondDigit c1.toNat c2.toNat),
      encode (((c2.toNat <<< 2) &&& 0o74) ||| (fill.toNat &&& 0x03))] ++
      if padding then [paddingChar] else []
  | p0 :: p1 :: p2 :: rest =>
    [encode (p0.toNat >>> 2), encode (secondDigit p0.toNat p1.toNat),
      encode (thirdDigit p1.toNat p2.toNat), encode (p2.toNat &&& 0o77)] ++
      funcEncode padding encode paddingChar fill rest

/-- `base64_encode`. -/
def base64Encode (src : List UInt8) (padding : Bool) : List UInt8 :=
  funcEncode padding stdEncode (octet '=') 0 src

/-- `base64mod_encode`. -/
def base64modEncode (src : List UInt8) (padding : Bool) (fill : UInt8) : List UInt8 :=
  funcEncode padding modEncode modPadding fill src

/-- A place in a text: how far it is from the beginning, and the text from there on. -/
structure Iterator where
  offset : Nat
  rest : List UInt8

/-- The text of an exception, without the name of the function that throws it. -/
structure InvalidFormatException where
  text : String
deriving DecidableEq

variable {offset second third d1 d2 d3 : Nat}

namespace Iterator

def available (p : Iterator) : Bool := !p.rest.isEmpty

def next (p : Iterator) : Iterator := ⟨p.offset + 1, p.rest.tail⟩

/-- Goes on to a character that is no blank; the end of the text stands for a NUL. -/
def skipFrom (offset : Nat) : List UInt8 → Nat × Iterator
  | [] => (decode 0, ⟨offset, []⟩)
  | char :: rest =>
    if decode char = 0o177 then skipFrom (offset + 1) rest
    else (decode char, ⟨offset, char :: rest⟩)

def skipBlanks (p : Iterator) : Nat × Iterator := skipFrom p.offset p.rest

/-- Comparison of at most a number of characters, up to a NUL. -/
def strncmpEqual : Nat → List UInt8 → List UInt8 → Bool
  | 0, _, _ => true
  | length + 1, left :: lefts, right :: rights =>
    left == right && (left == 0 || strncmpEqual length lefts rights)
  | _ + 1, _, _ => false

/-- Six padding characters and the NUL behind them. -/
def pad (char : Char) : List UInt8 := List.replicate 6 (octet char) ++ [0]

/-- What is left is to be padding that completes the group, or a whole group more. -/
def checkPadding (p : Iterator) : Except InvalidFormatException Unit :=
  let length := p.rest.length
  let padSize := (4 - p.offset % 4) % 4
  if (length ≠ padSize ∧ length ≠ padSize + 4) ∨
      (!strncmpEqual length p.rest (pad '.') ∧ !strncmpEqual length p.rest (pad '|') ∧
        !strncmpEqual length p.rest (pad '=')) then
    .error ⟨"invalid format. Padding characters expected."⟩
  else .ok ()

theorem skipFrom_length {offset : Nat} {rest : List UInt8} :
    (skipFrom offset rest).2.rest.length ≤ rest.length := by
  induction rest generalizing offset with
  | nil => exact Nat.le_refl _
  | cons char rest ih =>
    rw [skipFrom]
    split
    · exact Nat.le_succ_of_le (@ih _)
    · exact Nat.le_refl _

theorem skipBlanks_length (p : Iterator) : p.skipBlanks.2.rest.length ≤ p.rest.length :=
  skipFrom_length

theorem next_length (p : Iterator) : p.next.rest.length ≤ p.rest.length := by
  rw [next, length_tail]
  exact Nat.sub_le _ _

/-- Past a character that does not end the data less of the text is left. -/
theorem skipFrom_next_length {rest : List UInt8} (goesOn : (skipFrom offset rest).1 ≠ 0o100) :
    (skipFrom offset rest).2.next.rest.length < rest.length := by
  induction rest generalizing offset with
  | nil => exact absurd rfl goesOn
  | cons char rest ih =>
    rw [skipFrom] at goesOn ⊢
    split at goesOn
    next blank =>
      rw [if_pos blank]
      exact Nat.lt_succ_of_lt (ih goesOn)
    next digit =>
      rw [if_neg digit]
      exact Nat.lt_succ_self _

end Iterator

/-- The unused bits of the last character are handed out, or have to be clear. -/
def leftBits (fill : Option UInt8) (left : Nat) : Except InvalidFormatException (Option UInt8) :=
  match fill with
  | some _ => .ok (some (.ofNat left))
  | none =>
    if left ≠ 0 then .error ⟨"invalid format. Unexpected end of data."⟩ else .ok none

/-- The loop over groups of four characters. It ends at the end of the data with the
octets, the fill and the place it came to. -/
def decodeGroups (fill : Option UInt8) (p : Iterator) (dst : List UInt8) :
    Except InvalidFormatException (List UInt8 × Option UInt8 × Iterator) :=
  if p.available then
    let first := p.skipBlanks
    if ended : first.1 = 0o100 then .ok (dst, fill, first.2)
    else
      let second := first.2.next.skipBlanks
      if second.1 = 0o100 then .error ⟨"invalid format. Unexpected symbol."⟩
      else
        let third := second.2.next.skipBlanks
        if third.1 = 0o100 then
          match leftBits fill (second.1 &&& 0x0F) with
          | .error exception => .error exception
          | .ok fill => .ok (dst ++ [.ofNat (first.1 <<< 2 ||| second.1 >>> 4)], fill, third.2)
        else
          let fourth := third.2.next.skipBlanks
          let dst := dst ++ [.ofNat (first.1 <<< 2 ||| second.1 >>> 4),
            .ofNat (second.1 <<< 4 ||| third.1 >>> 2)]
          if fourth.1 = 0o100 then
            match leftBits fill (third.1 &&& 0x03) with
            | .error exception => .error exception
            | .ok fill => .ok (dst, fill, fourth.2)
          else decodeGroups fill fourth.2.next (dst ++ [.ofNat (third.1 <<< 6 ||| fourth.1)])
  else .ok (dst, fill, p)
termination_by p.rest.length
decreasing_by
  have first := Iterator.skipFrom_next_length ended
  have second := Iterator.skipBlanks_length p.skipBlanks.2.next
  have third := Iterator.skipBlanks_length p.skipBlanks.2.next.skipBlanks.2.next
  have fourth := Iterator.skipBlanks_length
    p.skipBlanks.2.next.skipBlanks.2.next.skipBlanks.2.next
  have afterSecond := Iterator.next_length p.skipBlanks.2.next.skipBlanks.2
  have afterThird := Iterator.next_length
    p.skipBlanks.2.next.skipBlanks.2.next.skipBlanks.2
  have afterFourth := Iterator.next_length
    p.skipBlanks.2.next.skipBlanks.2.next.skipBlanks.2.next.skipBlanks.2
  exact afterFourth.trans_lt (fourth.trans_lt (afterThird.trans_lt (third.trans_lt
    (afterSecond.trans_lt (second.trans_lt first)))))

/-- `base64mod_decode`. -/
def base64modDecode (src : List UInt8) (padding : Bool) (fill : Option UInt8) :
    Except InvalidFormatException (List UInt8 × Option UInt8) :=
  match decodeGroups fill ⟨0, src⟩ [] with
  | .error exception => .error exception
  | .ok (dst, fill, p) =>
    if padding || p.available then
      match p.checkPadding with
      | .error exception => .error exception
      | .ok _ => .ok (dst, fill)
    else .ok (dst, fill)

/-- `base64mod_encoded_size`. -/
def base64modEncodedSize (originalSize : Nat) (padding : Bool) : Nat :=
  if padding then (originalSize + 2) / 3 * 4
  else originalSize / 3 * 4 + if originalSize % 3 ≠ 0 then originalSize % 3 + 1 else 0

/-- How many bits of the last character are not used. -/
def base64modFillSize (originalSize : Nat) : Nat := (8 >>> (originalSize % 3)) &&& 6

/-! ### Digits -/

/-- The second digit as a number. -/
theorem secondDigit_eq (first second : UInt8) :
    secondDigit first.toNat second.toNat = first.toNat % 4 * 16 + second.toNat / 16 := by
  have small := second.toNat_lt
  have high : (first.toNat <<< 4) &&& 0o60 = first.toNat % 4 * 2 ^ 4 :=
    shifted_mask 2
  have low : (second.toNat >>> 4) &&& 0o17 = second.toNat / 16 := by
    rw [Nat.shiftRight_eq_div_pow]
    exact (and_mask 4).trans (Nat.mod_eq_of_lt (by omega))
  rw [secondDigit, high, low, or_low (by omega)]
  rfl

/-- The third digit as a number. -/
theorem thirdDigit_eq (second third : UInt8) :
    thirdDigit second.toNat third.toNat = second.toNat % 16 * 4 + third.toNat / 64 := by
  have small := third.toNat_lt
  have high : (second.toNat <<< 2) &&& 0o74 = second.toNat % 16 * 2 ^ 2 :=
    shifted_mask 4
  have low : (third.toNat >>> 6) &&& 0o3 = third.toNat / 64 := by
    rw [Nat.shiftRight_eq_div_pow]
    exact (and_mask 2).trans (Nat.mod_eq_of_lt (by omega))
  rw [thirdDigit, high, low, or_low (by omega)]
  rfl

theorem firstDigit_eq (first : UInt8) : first.toNat >>> 2 = first.toNat / 4 :=
  Nat.shiftRight_eq_div_pow _ 2

theorem fourthDigit_eq (third : UInt8) : third.toNat &&& 0o77 = third.toNat % 64 :=
  and_mask 6

/-- The last character of one octet, with its fill. -/
theorem lastOfOne_eq (first fill : UInt8) :
    ((first.toNat <<< 4) &&& 0o60) ||| (fill.toNat &&& 0x0F) =
      first.toNat % 4 * 16 + fill.toNat % 16 := by
  have high : (first.toNat <<< 4) &&& 0o60 = first.toNat % 4 * 2 ^ 4 :=
    shifted_mask 2
  have low : fill.toNat &&& 0x0F = fill.toNat % 16 := and_mask 4
  rw [high, low, or_low (by omega)]
  rfl

/-- The last character of two octets, with its fill. -/
theorem lastOfTwo_eq (second fill : UInt8) :
    ((second.toNat <<< 2) &&& 0o74) ||| (fill.toNat &&& 0x03) =
      second.toNat % 16 * 4 + fill.toNat % 4 := by
  have high : (second.toNat <<< 2) &&& 0o74 = second.toNat % 16 * 2 ^ 2 :=
    shifted_mask 4
  have low : fill.toNat &&& 0x03 = fill.toNat % 4 := and_mask 2
  rw [high, low, or_low (by omega)]
  rfl

theorem ofNat_eq_of_mod {number : Nat} {octet : UInt8} (value : number % 256 = octet.toNat) :
    UInt8.ofNat number = octet := by
  apply UInt8.toNat_inj.mp
  exact value

/-- The octets that four digits stand for. -/
theorem firstOctet_eq {first : Nat} (small : second < 64) :
    first <<< 2 ||| second >>> 4 = first * 4 + second / 16 := by
  rw [Nat.shiftRight_eq_div_pow, shiftLeft_or (by omega)]
  rfl

/-- The second octet as a number. -/
theorem secondOctet_eq (small : third < 64) :
    second <<< 4 ||| third >>> 2 = second * 16 + third / 4 := by
  rw [Nat.shiftRight_eq_div_pow, shiftLeft_or (by omega)]
  rfl

/-- The third octet as a number. -/
theorem thirdOctet_eq {fourth : Nat} (small : fourth < 64) :
    third <<< 6 ||| fourth = third * 64 + fourth := by
  rw [shiftLeft_or (by omega)]
  rfl

/-! ### Reading what was written -/

/-- The data end at a place and what is left there passes the check, if it is made. -/
def EndsData (expected : Bool) (offset : Nat) (tail : List UInt8) : Prop :=
  ∃ p, Iterator.skipFrom offset tail = (0o100, p) ∧
    ((expected || p.available) = true → p.checkPadding = .ok ())

/-- An alphabet and a padding character that the decoder reads. -/
structure Readable (encode : Nat → UInt8) (paddingChar : UInt8) : Prop where
  digits : ∀ digit < 64, decode (encode digit) = digit
  afterTwo : ∀ offset, offset % 4 = 0 → EndsData true (offset + 2) [paddingChar, paddingChar]
  afterThree : ∀ offset, offset % 4 = 0 → EndsData true (offset + 3) [paddingChar]

/-- The alphabet for addresses can be read back. -/
theorem modReadable : Readable modEncode modPadding where
  digits := by decide
  afterTwo offset aligned := by
    refine ⟨_, rfl, fun _ => ?_⟩
    have padSize : (4 - (offset + 2) % 4) % 4 = 2 := by omega
    simp only [Iterator.checkPadding, padSize]
    rfl
  afterThree offset aligned := by
    refine ⟨_, rfl, fun _ => ?_⟩
    have padSize : (4 - (offset + 3) % 4) % 4 = 1 := by omega
    simp only [Iterator.checkPadding, padSize]
    rfl

/-- The padding of the standard form is skipped as blanks. -/
theorem stdReadable : Readable stdEncode (octet '=') where
  digits := by decide
  afterTwo offset aligned := by
    refine ⟨_, rfl, fun _ => ?_⟩
    have padSize : (4 - (offset + 2 + 1 + 1) % 4) % 4 = 0 := by omega
    simp only [Iterator.checkPadding, padSize]
    rfl
  afterThree offset aligned := by
    refine ⟨_, rfl, fun _ => ?_⟩
    have padSize : (4 - (offset + 3 + 1) % 4) % 4 = 0 := by omega
    simp only [Iterator.checkPadding, padSize]
    rfl

variable {expected padding : Bool}

section Groups

variable {encode : Nat → UInt8} {paddingChar : UInt8} (readable : Readable encode paddingChar)
include readable

/-- A digit is no blank. -/
theorem skipFrom_digit {digit : Nat} (small : digit < 64) (offset : Nat) (rest : List UInt8) :
    Iterator.skipFrom offset (encode digit :: rest) = (digit, ⟨offset, encode digit :: rest⟩) := by
  have notBlank : digit ≠ 0o177 := by omega
  rw [Iterator.skipFrom, readable.digits digit small, if_neg notBlank]

variable (small1 : d1 < 64) (small2 : d2 < 64)
include small1 small2

/-- The loop on a whole group. -/
theorem decodeGroups_four {d4 : Nat} (small3 : d3 < 64) (small4 : d4 < 64) (out : Option UInt8)
    (offset : Nat) (rest dst : List UInt8) :
    decodeGroups out ⟨offset, encode d1 :: encode d2 :: encode d3 :: encode d4 :: rest⟩ dst =
      decodeGroups out ⟨offset + 1 + 1 + 1 + 1, rest⟩
        (dst ++ [.ofNat (d1 * 4 + d2 / 16), .ofNat (d2 * 16 + d3 / 4), .ofNat (d3 * 64 + d4)]) := by
  have go : ∀ {digit : Nat}, digit < 64 → digit ≠ 0o100 := by omega
  rw [decodeGroups]
  simp only [Iterator.skipBlanks, Iterator.next, tail_cons, skipFrom_digit readable small1,
    skipFrom_digit readable small2, skipFrom_digit readable small3,
    skipFrom_digit readable small4, go small1, go small2, go small3, go small4, firstOctet_eq small2, secondOctet_eq small3, thirdOctet_eq small4]
  rw [append_assoc]
  rfl

/-- The loop on two digits at the end of the data. -/
theorem decodeGroups_two {tail : List UInt8} (ends : EndsData expected (offset + 2) tail)
    {out : Option UInt8} {dst : List UInt8} :
    ∃ p, decodeGroups out ⟨offset, encode d1 :: encode d2 :: tail⟩ dst =
        (leftBits out (d2 % 16)).map (fun fill => (dst ++ [.ofNat (d1 * 4 + d2 / 16)], fill, p)) ∧
      ((expected || p.available) = true → p.checkPadding = .ok ()) := by
  obtain ⟨p, skipped, padded⟩ := ends
  have go : ∀ {digit : Nat}, digit < 64 → digit ≠ 0o100 := by omega
  refine ⟨p, ?_, padded⟩
  have low : d2 &&& 0x0F = d2 % 16 := and_mask 4
  rw [decodeGroups]
  simp only [Iterator.skipBlanks, Iterator.next, tail_cons, skipFrom_digit readable small1,
    skipFrom_digit readable small2, skipped, go small1, go small2, firstOctet_eq small2, low]
  cases leftBits out (d2 % 16) <;> rfl

/-- The loop on three digits at the end of the data. -/
theorem decodeGroups_three (small3 : d3 < 64) {tail : List UInt8}
    (ends : EndsData expected (offset + 3) tail) {out : Option UInt8} {dst : List UInt8} :
    ∃ p, decodeGroups out ⟨offset, encode d1 :: encode d2 :: encode d3 :: tail⟩ dst =
        (leftBits out (d3 % 4)).map (fun fill =>
          (dst ++ [.ofNat (d1 * 4 + d2 / 16), .ofNat (d2 * 16 + d3 / 4)], fill, p)) ∧
      ((expected || p.available) = true → p.checkPadding = .ok ()) := by
  obtain ⟨p, skipped, padded⟩ := ends
  have go : ∀ {digit : Nat}, digit < 64 → digit ≠ 0o100 := by omega
  refine ⟨p, ?_, padded⟩
  have low : d3 &&& 0x03 = d3 % 4 := and_mask 2
  rw [decodeGroups]
  simp only [Iterator.skipBlanks, Iterator.next, tail_cons, skipFrom_digit readable small1,
    skipFrom_digit readable small2, skipFrom_digit readable small3, skipped, go small1, go small2,
    go small3, firstOctet_eq small2, secondOctet_eq small3, low]
  cases leftBits out (d3 % 4) <;> rfl

end Groups

/-- The fill restricted to the bits of the last character that are not used. -/
def unusedFill (fill : UInt8) (size : Nat) : Nat := fill.toNat % 2 ^ base64modFillSize size

/-- The fill a decoder hands out: none of its own if all bits are used. -/
def reportedFill (out : Option UInt8) (fill : UInt8) (size : Nat) :
    Except InvalidFormatException (Option UInt8) :=
  if base64modFillSize size = 0 then .ok out else leftBits out (unusedFill fill size)

theorem base64modFillSize_add_three (size : Nat) :
    base64modFillSize (size + 3) = base64modFillSize size := by
  rw [base64modFillSize, base64modFillSize, Nat.add_mod_right]

/-- Padding that is expected was written, or is not needed. -/
theorem endsData_padding (allowed : expected = true → padding = true) {pads : List UInt8}
    (ends : EndsData true offset pads) :
    EndsData expected offset (if padding then pads else []) := by
  cases padding with
  | true =>
    obtain ⟨p, skipped, padded⟩ := ends
    exact ⟨p, skipped, fun _ => padded rfl⟩
  | false =>
    refine ⟨_, rfl, fun checked => ?_⟩
    cases expected with
    | true => cases allowed rfl
    | false => cases checked

/-- The loop on an encoded text. -/
theorem decodeGroups_funcEncode {encode : Nat → UInt8} {paddingChar : UInt8}
    (readable : Readable encode paddingChar) (allowed : expected = true → padding = true)
    {out : Option UInt8} {fill : UInt8} {data : List UInt8} (aligned : offset % 4 = 0)
    {dst : List UInt8} :
    ∃ p, decodeGroups out ⟨offset, funcEncode padding encode paddingChar fill data⟩ dst =
        (reportedFill out fill data.length).map (fun reported => (dst ++ data, reported, p)) ∧
      ((expected || p.available) = true → p.checkPadding = .ok ()) := by
  induction data using funcEncode.induct generalizing offset dst with
  | case1 =>
    refine ⟨⟨offset, []⟩, ?_, fun _ => ?_⟩
    · rw [decodeGroups, append_nil]
      rfl
    · have padSize : (4 - offset % 4) % 4 = 0 := by omega
      simp only [Iterator.checkPadding, padSize]
      rfl
  | case2 c1 =>
    have octet1 := c1.toNat_lt
    have ends := endsData_padding allowed (readable.afterTwo offset aligned)
    obtain ⟨p, read, padded⟩ := decodeGroups_two readable (show c1.toNat / 4 < 64 by omega)
      (show c1.toNat % 4 * 16 + fill.toNat % 16 < 64 by omega) ends
    refine ⟨p, ?_, padded⟩
    have left : (c1.toNat % 4 * 16 + fill.toNat % 16) % 16 = unusedFill fill 1 := by
      change _ = fill.toNat % 16
      omega
    have value : UInt8.ofNat (c1.toNat / 4 * 4 + (c1.toNat % 4 * 16 + fill.toNat % 16) / 16) = c1 :=
      ofNat_eq_of_mod (by omega)
    have reported : reportedFill out fill [c1].length = leftBits out (unusedFill fill 1) :=
      if_neg (show base64modFillSize 1 ≠ 0 by decide)
    rw [left, value] at read
    rw [funcEncode, firstDigit_eq, lastOfOne_eq, reported]
    exact read
  | case3 c1 c2 =>
    have octet1 := c1.toNat_lt
    have octet2 := c2.toNat_lt
    have ends := endsData_padding allowed (readable.afterThree offset aligned)
    obtain ⟨p, read, padded⟩ := decodeGroups_three readable (show c1.toNat / 4 < 64 by omega)
      (show c1.toNat % 4 * 16 + c2.toNat / 16 < 64 by omega)
      (show c2.toNat % 16 * 4 + fill.toNat % 4 < 64 by omega) ends
    refine ⟨p, ?_, padded⟩
    have left : (c2.toNat % 16 * 4 + fill.toNat % 4) % 4 = unusedFill fill 2 := by
      change _ = fill.toNat % 4
      omega
    have value1 : UInt8.ofNat (c1.toNat / 4 * 4 + (c1.toNat % 4 * 16 + c2.toNat / 16) / 16) = c1 :=
      ofNat_eq_of_mod (by omega)
    have value2 : UInt8.ofNat ((c1.toNat % 4 * 16 + c2.toNat / 16) * 16 +
        (c2.toNat % 16 * 4 + fill.toNat % 4) / 4) = c2 :=
      ofNat_eq_of_mod (by omega)
    have reported : reportedFill out fill [c1, c2].length = leftBits out (unusedFill fill 2) :=
      if_neg (show base64modFillSize 2 ≠ 0 by decide)
    rw [left, value1, value2] at read
    rw [funcEncode, firstDigit_eq, secondDigit_eq, lastOfTwo_eq, reported]
    exact read
  | case4 p0 p1 p2 rest ih =>
    have octet0 := p0.toNat_lt
    have octet1 := p1.toNat_lt
    have octet2 := p2.toNat_lt
    have value0 : UInt8.ofNat (p0.toNat / 4 * 4 + (p0.toNat % 4 * 16 + p1.toNat / 16) / 16) = p0 :=
      ofNat_eq_of_mod (by omega)
    have value1 : UInt8.ofNat ((p0.toNat % 4 * 16 + p1.toNat / 16) * 16 +
        (p1.toNat % 16 * 4 + p2.toNat / 64) / 4) = p1 :=
      ofNat_eq_of_mod (by omega)
    have value2 : UInt8.ofNat ((p1.toNat % 16 * 4 + p2.toNat / 64) * 64 + p2.toNat % 64) = p2 :=
      ofNat_eq_of_mod (by omega)
    obtain ⟨p, read, padded⟩ := @ih _ (show (offset + 1 + 1 + 1 + 1) % 4 = 0 by omega)
      (dst ++ [p0, p1, p2])
    refine ⟨p, ?_, padded⟩
    rw [funcEncode, firstDigit_eq, secondDigit_eq, thirdDigit_eq, fourthDigit_eq]
    simp only [cons_append, nil_append]
    rw [decodeGroups_four readable (by omega) (by omega) (by omega) (by omega), value0, value1,
      value2, read, append_assoc, reportedFill, reportedFill, unusedFill, unusedFill]
    simp only [length_cons, base64modFillSize_add_three, cons_append, nil_append]

/-- Decoding an encoded text. -/
theorem base64modDecode_funcEncode {encode : Nat → UInt8} {paddingChar : UInt8}
    (readable : Readable encode paddingChar) (allowed : expected = true → padding = true)
    (out : Option UInt8) (fill : UInt8) (data : List UInt8) :
    base64modDecode (funcEncode padding encode paddingChar fill data) expected out =
      (reportedFill out fill data.length).map fun reported => (data, reported) := by
  obtain ⟨p, read, padded⟩ := decodeGroups_funcEncode readable allowed
    (Nat.zero_mod 4)
  rw [base64modDecode, read]
  cases reportedFill out fill data.length with
  | error exception => rfl
  | ok reported =>
    simp only [Except.map]
    split
    next checked =>
      rw [padded checked]
      rfl
    next => rfl

/-- The length of an encoded text. -/
theorem funcEncode_length (padding : Bool) (encode : Nat → UInt8) (paddingChar fill : UInt8)
    (data : List UInt8) :
    (funcEncode padding encode paddingChar fill data).length =
      base64modEncodedSize data.length padding := by
  induction data using funcEncode.induct with
  | case1 | case2 | case3 => cases padding <;> simp [funcEncode, base64modEncodedSize]
  | case4 p0 p1 p2 rest ih =>
    rw [funcEncode, length_append, ih]
    simp only [base64modEncodedSize, length_cons, length_nil]
    split_ifs <;> omega

/-- **What was encoded is decoded.** The length is the one announced. With a place for
the fill, the octets come back and with them the fill in the unused bits, if there are
any; without one they come back exactly when the unused bits are clear. The standard
form is decoded as well. -/
theorem base64_round_trip (data : List UInt8) {expected padding : Bool}
    (allowed : expected = true → padding = true) (fill : UInt8) :
    (base64modEncode data padding fill).length = base64modEncodedSize data.length padding ∧
      (∀ before, base64modDecode (base64modEncode data padding fill) expected (some before) =
        .ok (data, some (if base64modFillSize data.length = 0 then before
          else .ofNat (unusedFill fill data.length)))) ∧
      base64modDecode (base64modEncode data padding fill) expected none =
        (if unusedFill fill data.length = 0 then .ok (data, none)
          else .error ⟨"invalid format. Unexpected end of data."⟩) ∧
      ∀ out, ∃ reported,
        base64modDecode (base64Encode data padding) expected out = .ok (data, reported) := by
  refine ⟨funcEncode_length .., fun before => ?_, ?_, fun out => ?_⟩
  · rw [base64modEncode, base64modDecode_funcEncode modReadable allowed, reportedFill]
    split_ifs <;> rfl
  · rw [base64modEncode, base64modDecode_funcEncode modReadable allowed, reportedFill, leftBits]
    by_cases full : base64modFillSize data.length = 0
    · rw [if_pos full, if_pos (by rw [unusedFill, full]; exact Nat.mod_one _)]
      rfl
    · rw [if_neg full]
      by_cases clear : unusedFill fill data.length = 0
      · rw [clear]
        rfl
      · simp only [ne_eq, clear]
        rfl
  · rw [base64Encode, base64modDecode_funcEncode stdReadable allowed, reportedFill]
    split_ifs with full
    · exact ⟨out, rfl⟩
    · cases out with
      | none => exact ⟨none, rfl⟩
      | some before => exact ⟨some 0, rfl⟩

/-- One octet with all four unused bits filled. -/
theorem filled_round_trip :
    (base64modEncode [0x41] true 0xFF).length = base64modEncodedSize [(0x41 : UInt8)].length true ∧
      (∀ before, base64modDecode (base64modEncode [0x41] true 0xFF) true (some before) =
        .ok ([0x41], some (if base64modFillSize [(0x41 : UInt8)].length = 0 then before
          else .ofNat (unusedFill 0xFF [(0x41 : UInt8)].length)))) ∧
      base64modDecode (base64modEncode [0x41] true 0xFF) true none =
        (if unusedFill 0xFF [(0x41 : UInt8)].length = 0 then .ok ([0x41], none)
          else .error ⟨"invalid format. Unexpected end of data."⟩) ∧
      ∀ out, ∃ reported,
        base64modDecode (base64Encode [0x41] true) true out = .ok ([0x41], reported) :=
  base64_round_trip [0x41] (fun _ => rfl) 0xFF

/-- With no unused bits the caller's place for the fill keeps what was in it. -/
theorem fill_not_reported :
    ∃ data padding fill before reported,
      base64modDecode (base64modEncode data padding fill) padding (some before) =
        .ok (data, some reported) ∧ reported.toNat ≠ unusedFill fill data.length := by
  refine ⟨[], true, 0, 7, 7, ?_, by decide⟩
  rw [base64modDecode, decodeGroups]
  rfl

end UnixCommons.Text.Base64
