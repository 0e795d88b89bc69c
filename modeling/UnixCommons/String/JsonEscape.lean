import UnixCommons.Library.Escape
import UnixCommons.Library.Utf8
import UnixCommons.String.AsciiStringManip

/-!
# Strings of JSON

Quotes, backslashes and control characters are replaced by their escapes. They are read by the
grammar of strings in JSON texts, in which nothing of this kind stands for itself.
-/

namespace UnixCommons.Text

open List Escape

/-- The characters that are escaped. -/
def nonJson : UInt8 → Bool :=
  charTable (['\\', '"', '\n', '\r', '\x01', '-', '\x1F'].map octet) true

def unicodeRepl (major minor : Char) : List Char := ['\\', 'u', '0', '0', major, minor]

/-- The escapes of the control characters. -/
def repl : List (List Char) :=
  [unicodeRepl '0' '0', unicodeRepl '0' '1', unicodeRepl '0' '2', unicodeRepl '0' '3',
    unicodeRepl '0' '4', unicodeRepl '0' '5', unicodeRepl '0' '6', unicodeRepl '0' '7',
    ['\\', 'b'], ['\\', 't'], ['\\', 'n'], unicodeRepl '0' 'B', ['\\', 'f'], ['\\', 'r'],
    unicodeRepl '0' 'E', unicodeRepl '0' 'F', unicodeRepl '1' '0', unicodeRepl '1' '1',
    unicodeRepl '1' '2', unicodeRepl '1' '3', unicodeRepl '1' '4', unicodeRepl '1' '5',
    unicodeRepl '1' '6', unicodeRepl '1' '7', unicodeRepl '1' '8', unicodeRepl '1' '9',
    unicodeRepl '1' 'A', unicodeRepl '1' 'B', unicodeRepl '1' 'C', unicodeRepl '1' 'D',
    unicodeRepl '1' 'E', unicodeRepl '1' 'F', [], [], ['\\', '"']]

/-- What is written for a character that is escaped. -/
def jsonReplacement (ch : UInt8) : List UInt8 :=
  (if ch = octet '\\' then ['\\', '\\'] else repl.getD ch.toNat []).map octet

/-- `json_escape`. -/
def jsonEscape (src : List UInt8) : List UInt8 := copyRuns (!nonJson ·) jsonReplacement src []

/-- The letters of escapes with the characters they stand for. -/
def jsonLetters : List (Char × Char) :=
  [('"', '"'), ('\\', '\\'), ('/', '/'), ('b', '\x08'), ('f', '\x0C'), ('n', '\n'), ('r', '\r'),
    ('t', '\t')]

/-- The first character of a string. A code unit is taken as a character: no surrogate is
written. -/
def jsonChar : List UInt8 → Option (List UInt8 × Nat)
  | [] => none
  | ch :: rest =>
    if ch ≠ octet '\\' then if ch.toNat < 0x20 ∨ ch = octet '"' then none else some ([ch], 1)
    else match rest with
    | [] => none
    | letter :: later =>
      if letter = octet 'u' then
        if 4 ≤ later.length ∧ (later.take 4).all hexNumber then
          some (Utf8.encode (readHex (later.take 4)), 6)
        else none
      else (jsonLetters.find? (octet ·.1 = letter)).map fun pair => ([octet pair.2], 2)

def jsonUnescape (text : List UInt8) : Option (List UInt8) := readAll jsonChar text.length text

/-- No more is read than the character. -/
theorem jsonChar_append {octets meant : List UInt8} {count : Nat}
    (reads : jsonChar octets = some (meant, count)) {rest : List UInt8} :
    jsonChar (octets ++ rest) = some (meant, count) := by
  match octets with
  | [] => cases reads
  | [ch] =>
    simp only [jsonChar] at reads
    split_ifs at reads with plain raw
    simpa [jsonChar, plain, raw] using reads
  | ch :: letter :: later =>
    simp only [jsonChar, cons_append] at reads ⊢
    split_ifs at reads with plain raw unicode complete
    · rwa [if_pos plain, if_neg raw]
    · have longer : 4 ≤ (later ++ rest).length := by
        rw [length_append]
        exact Nat.le_add_right_of_le complete.1
      rwa [if_neg plain, if_pos unicode, take_append_of_le_length complete.1, if_pos ⟨longer, complete.2⟩]
    · rwa [if_neg plain, if_neg unicode]

/-- What is written for a character is read back. -/
theorem jsonChar_piece (ch : UInt8) :
    jsonChar (piece (!nonJson ·) jsonReplacement ch) =
      some ([ch], (piece (!nonJson ·) jsonReplacement ch).length) := by
  have all : ∀ number < 256, jsonChar (piece (!nonJson ·) jsonReplacement (.ofNat number)) =
      some ([.ofNat number], (piece (!nonJson ·) jsonReplacement (.ofNat number)).length) := by
    decide +kernel
  have here := all ch.toNat ch.toNat_lt
  rwa [UInt8.ofNat_toNat] at here

theorem piece_printed {ch : UInt8} :
    ∀ octet ∈ piece (!nonJson ·) jsonReplacement ch, 0x20 ≤ octet.toNat := by
  have all : ∀ number < 256,
      (piece (!nonJson ·) jsonReplacement (.ofNat number)).all (0x20 ≤ ·.toNat) := by decide +kernel
  have here := all ch.toNat ch.toNat_lt
  simpa [UInt8.ofNat_toNat] using here

/-- **An escaped text is read back.** It has no control character in it, and the reader lets
no quote and no backslash stand for itself. -/
theorem json_escape_read_back (src : List UInt8) :
    jsonUnescape (jsonEscape src) = some src ∧ ∀ octet ∈ jsonEscape src, 0x20 ≤ octet.toNat := by
  rw [jsonEscape, copyRuns_eq]
  constructor
  · refine readAll_flatMap (fun ch rest => ⟨?_, jsonChar_append (jsonChar_piece ch)⟩) le_rfl
    intro empty
    have read := jsonChar_piece ch
    rw [empty] at read
    cases read
  · intro octet member
    obtain ⟨ch, -, inside⟩ := mem_flatMap.mp member
    exact piece_printed octet inside

end UnixCommons.Text
