import UnixCommons.Library.Bits

/-!
# AsciiStringManip

Octets as ASCII characters: the categories of letters and digits, and hexadecimal
digits with their values.
-/

namespace UnixCommons.Text

/-- A character as an octet. -/
def octet (char : Char) : UInt8 := .ofNat char.toNat

/-- A category given by a range of characters. -/
def inRange (first last : Char) (ch : UInt8) : Bool :=
  decide (first.toNat ≤ ch.toNat) && decide (ch.toNat ≤ last.toNat)

def alphaNum (ch : UInt8) : Bool :=
  inRange 'A' 'Z' ch || inRange 'a' 'z' ch || inRange '0' '9' ch

def hexNumber (ch : UInt8) : Bool :=
  inRange '0' '9' ch || inRange 'A' 'F' ch || inRange 'a' 'f' ch

/-- The ranges and characters of a category, from a character on. The character before is
zero at the beginning. -/
def charTableFrom : UInt8 → List UInt8 → UInt8 → Bool
  | _, [], _ => false
  | last, ch :: rest, symbol =>
    if ch = octet '-' ∧ last ≠ 0 ∧ rest ≠ [] then
      match rest with
      | [] => false
      | till :: rest => decide (symbol - last ≤ till - last) || charTableFrom till rest symbol
    else symbol == ch || charTableFrom ch rest symbol

/-- A category described by a text. -/
def charTable (str : List UInt8) (checkZero : Bool) (symbol : UInt8) : Bool :=
  (checkZero && symbol == 0) || charTableFrom 0 str symbol

def hexDigits : List Char :=
  ['0', '1', '2', '3', '4', '5', '6', '7', '8', '9', 'A', 'B', 'C', 'D', 'E', 'F']

def hexDigit (value : Nat) : UInt8 := octet (hexDigits.getD value '0')

/-- The value of a hexadecimal digit, and some octet for any other character; an octet
above 127 is a negative character. -/
def hexToInt (ch : UInt8) : Nat :=
  let signed : Int := if ch.toNat < 128 then ch.toNat else ch.toNat - 256
  if signed ≤ 57 then ((signed - 48) % 256).toNat else (ch.toNat &&& 0x0F) + 9

theorem hexToInt_hexDigit : ∀ value < 16, hexToInt (hexDigit value) = value := by decide

theorem hexNumber_hexDigit : ∀ value < 16, hexNumber (hexDigit value) = true := by decide

/-- Digits read one after another. -/
def readHex (digits : List UInt8) : Nat :=
  digits.foldl (fun value digit => value <<< 4 ||| hexToInt digit) 0

/-- One more digit. -/
theorem shift_hexDigit {value : Nat} {digit : Nat} (small : digit < 16) :
    value <<< 4 ||| hexToInt (hexDigit digit) = value * 16 + digit := by
  rw [hexToInt_hexDigit digit small]
  exact Bits.shiftLeft_or small

end UnixCommons.Text
