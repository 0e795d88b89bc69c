import Mathlib.Data.List.Basic

/-!
# Dictionaries of the Polyglot tokenizer

An `IncHashTable` holds words with their elements, and the hashes of the words' beginnings.
A finder is given one character after the other: it knows the element of what it has been
given, and by the hash whether a longer word may follow. The hash of a word is extended by
one character at a time; which function does this is left open.

The suffix dictionary is filled line by line; a suffix that is listed again gets one more
pair of length and frequency.
-/

namespace UnixCommons.Polyglot

open List

abbrev Word := List Nat

/-- The hash of a word with one more character: `IncHash`, a CRC over the character. -/
abbrev IncHash := Nat → Nat → Nat

/-- The table of the words and that of the hashes of their beginnings. -/
structure IncHashTable (Element : Type) where
  mainTable : List (Word × Element) := []
  interTable : List Nat := []

/-- What a finder has been given, with its hash. -/
structure ConstFinder where
  word : Word := []
  hash : Nat := 0

/-- One more character of the word that is looked for. -/
def ConstFinder.append (incHash : IncHash) (finder : ConstFinder) (keyChar : Nat) : ConstFinder where
  word := finder.word ++ [keyChar]
  hash := incHash finder.hash keyChar

namespace IncHashTable

variable {Element : Type} (incHash : IncHash)

/-- What `find` of a finder answers. -/
def continues (table : IncHashTable Element) (finder : ConstFinder) : Bool :=
  table.interTable.contains finder.hash

def element (table : IncHashTable Element) (finder : ConstFinder) : Option Element :=
  table.mainTable.lookup finder.word

/-- The hashes of the proper beginnings of a word, which go on from `hashCur`. -/
def beginnings (hashCur : Nat) : Word → List Nat
  | [] | [_] => []
  | first :: second :: rest =>
    incHash hashCur first :: beginnings (incHash hashCur first) (second :: rest)

/-- A word that is in the table keeps its element. -/
def insert (table : IncHashTable Element) (word : Word) (element : Element) : IncHashTable Element where
  mainTable := if (table.mainTable.lookup word).isSome then table.mainTable
    else table.mainTable ++ [(word, element)]
  interTable := beginnings incHash 0 word ++ table.interTable

end IncHashTable

/-- A word of the dictionary. -/
structure DictionaryNode where
  id : Nat
  freq : Int
  deriving DecidableEq, Repr

/-- The length is the number the file lists, as the tokenizer reads it: signed. -/
structure Suffix where
  length : Int
  freq : Int
  deriving DecidableEq, Repr

/-- The suffixes of a word. -/
structure SuffixDictionaryNode where
  suffixes : List Suffix := []
  deriving DecidableEq, Repr

/-- A line of the suffix dictionary's file. -/
structure SuffixLine where
  suffix : Word
  length : Int
  freq : Int

/-- One line of the suffix file. -/
def loadSuffix (incHash : IncHash) (dict : IncHashTable SuffixDictionaryNode) (line : SuffixLine) :
    IncHashTable SuffixDictionaryNode :=
  if (dict.mainTable.lookup line.suffix).isSome then
    { dict with
      mainTable := dict.mainTable.map fun entry =>
        if entry.1 = line.suffix then
          (entry.1, ⟨entry.2.suffixes ++ [⟨line.length, line.freq⟩]⟩)
        else entry }
  else dict.insert incHash line.suffix ⟨[⟨line.length, line.freq⟩]⟩

/-- `load_suffixes`, for the lines that are read. -/
def loadSuffixes (incHash : IncHash) (lines : List SuffixLine) : IncHashTable SuffixDictionaryNode :=
  lines.foldl (loadSuffix incHash) {}

/-- Dictionaries whose suffixes have positive lengths. -/
def PositiveLengths (dict : IncHashTable SuffixDictionaryNode) : Prop :=
  ∀ entry ∈ dict.mainTable, ∀ suffix ∈ entry.2.suffixes, 0 < suffix.length

theorem loadSuffix_positive {incHash : IncHash} {dict : IncHashTable SuffixDictionaryNode}
    (positive : PositiveLengths dict) {line : SuffixLine} (listed : 0 < line.length) :
    PositiveLengths (loadSuffix incHash dict line) := by
  unfold loadSuffix
  split_ifs with known
  · intro entry inside suffix chosen
    obtain ⟨former, formerInside, rfl⟩ := mem_map.mp inside
    split_ifs at chosen with same
    · rcases mem_append.mp chosen with old | new
      · exact positive former formerInside suffix old
      · rw [mem_singleton.mp new]
        exact listed
    · exact positive former formerInside suffix chosen
  · intro entry inside suffix chosen
    simp only [IncHashTable.insert, known] at inside
    rcases mem_append.mp inside with old | new
    · exact positive entry old suffix chosen
    · rw [mem_singleton.mp new] at chosen
      rw [mem_singleton.mp chosen]
      exact listed

/-- A file that lists positive lengths only is loaded as such a dictionary. -/
theorem loadSuffixes_positive {incHash : IncHash} {lines : List SuffixLine}
    (listed : ∀ line ∈ lines, 0 < line.length) : PositiveLengths (loadSuffixes incHash lines) := by
  have preserved : ∀ dict, PositiveLengths dict →
      PositiveLengths (lines.foldl (loadSuffix incHash) dict) := by
    induction lines with
    | nil => exact fun dict positive => positive
    | cons line lines ih =>
      obtain ⟨first, others⟩ := forall_mem_cons.mp listed
      intro dict positive
      exact ih others _ (loadSuffix_positive positive first)
  exact preserved {} nofun

/-- What a finder finds is in the table. -/
theorem IncHashTable.mem_of_element {Element : Type} {table : IncHashTable Element}
    {finder : ConstFinder} {element : Element} (found : table.element finder = some element) :
    ∃ entry ∈ table.mainTable, entry.2 = element := by
  unfold IncHashTable.element at found
  generalize table.mainTable = entries at found
  induction entries with
  | nil => exact absurd found nofun
  | cons entry entries ih =>
    obtain ⟨word, value⟩ := entry
    rw [lookup_cons] at found
    split at found
    · exact ⟨(word, value), mem_cons_self, Option.some.inj found⟩
    · obtain ⟨other, inside, same⟩ := ih found
      exact ⟨other, mem_cons_of_mem _ inside, same⟩

end UnixCommons.Polyglot
