import UnixCommons.Library.Escape
import UnixCommons.String.AsciiStringManip

/-!
# Fields of CSV files

A text that has the separator, a quote or a line break in it is quoted, with its quotes
doubled. The characters to look for are given as a text, which a separator of zero ends before
it begins.
-/

namespace UnixCommons.Text

open List Escape

/-- The characters that have to be quoted. -/
def nonCsv (separator : UInt8) : UInt8 → Bool :=
  if separator = octet ',' then charTable ([',', '"', '\n', '\r'].map octet) false
  else if separator = octet ';' then charTable ([';', '"', '\n', '\r'].map octet) false
  else charTable ((separator :: ['"', '\n', '\r'].map octet).takeWhile (· ≠ 0)) false

/-- The encoder, on the characters before the NUL. There may be no text. -/
def csvEncode (src : Option (List UInt8)) (separator : UInt8) : List UInt8 :=
  match src with
  | none => []
  | some src =>
    if src.all (!nonCsv separator ·) then src
    else octet '"' :: copyRuns (· ≠ octet '"') (fun _ => [octet '"', octet '"']) src [] ++ [octet '"']

/-- The value of a quoted field behind its first quote. -/
def unquote : List UInt8 → Option (List UInt8)
  | [] => none
  | [last] => if last = octet '"' then some [] else none
  | ch :: next :: rest =>
    if ch ≠ octet '"' then (unquote (next :: rest)).map (ch :: ·)
    else if next = octet '"' then (unquote rest).map (ch :: ·)
    else none

/-- A character of a field that is not quoted. -/
def Plain (separator ch : UInt8) : Prop :=
  ch ≠ separator ∧ ch ≠ octet '"' ∧ ch ≠ octet '\n' ∧ ch ≠ octet '\r'
  deriving Decidable

/-- The value of a text that is one field. -/
def csvField (separator : UInt8) (text : List UInt8) : Option (List UInt8) :=
  if text.head? = some (octet '"') then unquote text.tail
  else if text.all (Plain separator ·) then some text
  else none

theorem charTable_four {separator symbol : UInt8} :
    charTable [separator, octet '"', octet '\n', octet '\r'] false symbol = false ↔
      Plain separator symbol := by
  simp [charTable, charTableFrom, octet, Plain]

/-- The characters that need no quotation. -/
theorem nonCsv_iff {separator : UInt8} (given : separator ≠ 0) {symbol : UInt8} :
    nonCsv separator symbol = false ↔ Plain separator symbol := by
  unfold nonCsv
  split_ifs with comma semicolon
  · exact comma ▸ charTable_four
  · exact semicolon ▸ charTable_four
  · rw [takeWhile_cons_of_pos (by simpa using given)]
    exact charTable_four

/-- Doubled quotation marks are read as one. -/
theorem unquote_pieces (src : List UInt8) :
    unquote (src.flatMap (piece (· ≠ octet '"') fun _ => [octet '"', octet '"']) ++ [octet '"']) =
      some src := by
  induction src with
  | nil => rfl
  | cons ch rest ih =>
    rw [flatMap_cons, append_assoc]
    obtain ⟨next, later, goesOn⟩ := exists_cons_of_ne_nil (append_ne_nil_of_right_ne_nil
      (rest.flatMap (piece (· ≠ octet '"') fun _ => [octet '"', octet '"'])) (cons_ne_nil (octet '"') []))
    rw [goesOn] at ih ⊢
    unfold piece
    split_ifs with other
    · rw [singleton_append, unquote, if_pos (by simpa using other), ih, Option.map_some]
    · have quote : ch = octet '"' := by simpa using other
      rw [cons_append, singleton_append, unquote, ih, quote]
      rfl

theorem unquote_length : ∀ {text value : List UInt8}, unquote text = some value → value.length < text.length
  | [], _, unquoted => nomatch unquoted
  | [last], _, unquoted => by
    rw [unquote] at unquoted
    split_ifs at unquoted
    cases unquoted
    exact Nat.one_pos
  | ch :: next :: rest, _, unquoted => by
    rw [unquote] at unquoted
    split_ifs at unquoted
    · obtain ⟨later, found, rfl⟩ := Option.map_eq_some_iff.mp unquoted
      exact Nat.succ_lt_succ (unquote_length found)
    · obtain ⟨later, found, rfl⟩ := Option.map_eq_some_iff.mp unquoted
      exact Nat.succ_lt_succ (Nat.lt_succ_of_lt (unquote_length found))

/-- Plain texts are written as they are. -/
theorem csvField_plain {separator : UInt8} {text : List UInt8} :
    csvField separator text = some text ↔ ∀ ch ∈ text, Plain separator ch := by
  simp only [csvField, all_eq_true, decide_eq_true_eq]
  split_ifs with quoted plain
  · refine ⟨fun found => ?_, fun plain => absurd rfl (plain _ (mem_of_mem_head? quoted)).2.1⟩
    have shorter := unquote_length found
    rw [length_tail] at shorter
    omega
  · exact ⟨fun _ => plain, fun _ => rfl⟩
  · exact ⟨nofun, fun all => absurd all plain⟩

/-- **An encoded text is one field.** Its value is the text, except that nothing is quoted
for a separator of zero. -/
theorem csv_field_iff (src : List UInt8) (separator : UInt8) (noNul : 0 ∉ src) :
    csvField separator (csvEncode (some src) separator) = some src ↔
      (separator = 0 → ∀ ch ∈ src, ch ≠ octet '"' ∧ ch ≠ octet '\n' ∧ ch ≠ octet '\r') := by
  rw [csvEncode]
  by_cases zero : separator = 0
  · subst zero
    have bare : src.all (!nonCsv 0 ·) = true := all_eq_true.mpr fun ch _ => rfl
    rw [if_pos bare, csvField_plain]
    refine ⟨fun plain _ ch inside => (plain ch inside).2, fun plain ch inside => ⟨?_, plain rfl ch inside⟩⟩
    rintro rfl
    exact noNul inside
  · refine ⟨fun _ none => absurd none zero, fun _ => ?_⟩
    split_ifs with bare
    · refine csvField_plain.mpr fun ch inside => (nonCsv_iff zero).mp ?_
      simpa using all_eq_true.mp bare ch inside
    · rw [csvField, cons_append, head?_cons, if_pos rfl, tail_cons, copyRuns_eq, nil_append, unquote_pieces]

/-- A quote and the separator in a field. -/
theorem quoted_field : csvField (octet ',') (csvEncode (some [octet '"', octet ',']) (octet ',')) =
    some [octet '"', octet ','] :=
  (csv_field_iff [octet '"', octet ','] (octet ',') (by decide)).mpr fun zero => absurd zero (by decide)

/-- A quote is not quoted for a separator of zero. -/
theorem zero_separator_unquoted : csvEncode (some [octet '"']) 0 = [octet '"'] ∧
    csvField 0 (csvEncode (some [octet '"']) 0) = none := by decide

end UnixCommons.Text
