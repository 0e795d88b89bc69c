import Mathlib.Data.List.Chain
import Mathlib.Data.List.GetD
import UnixCommons.Library.Composition

/-!
# Composition in the normalizer

A text in a buffer is composed in place. One position reads, one writes behind it, and
one marks the character that is merged with: the first character of the text, or a
starter that was not merged with the one before. What is read is merged into the marked
character, or is written, or becomes the next marked character.

Composites come from a hash table with one record for a slot, and Hangul syllables are
composed by rule. The classes and the table are parameters.

Compared with the canonical composition the loop slips in three places. It tries to
merge a starter although marks have been left before it. It takes the character before
the first trailing consonant for one, so that it disappears behind a syllable. And an
empty slot of the table reads as a record of the pair of two null characters, so that
the second of them disappears. Everywhere else it does what the canonical composition
does, for texts in canonical order.
-/

namespace UnixCommons.Text.Normalizer

open Composing List

/-- A record of the composition table. -/
structure CompositeHashRecord where
  value : Nat
  starter : Nat
  combiner : Nat

/-- The record of a slot that holds no composite. -/
def CompositeHashRecord.isEmpty (record : CompositeHashRecord) : Bool :=
  record.value == 0 && record.starter == 0 && record.combiner == 0

/-- The combining classes and the hash table of composites. -/
structure NormTables where
  combiningClass : Nat → Nat
  compositeHash : Nat → CompositeHashRecord

def sBase : Nat := 0xAC00
def lBase : Nat := 0x1100
def vBase : Nat := 0x1161
def tBase : Nat := 0x11A7
def lCount : Nat := 19
def vCount : Nat := 21
def tCount : Nat := 28
def nCount : Nat := vCount * tCount
def sCount : Nat := lCount * nCount

/-- The slot of a pair in the composition table. -/
def hash (starter combiner : Nat) : Nat :=
  let hash := starter
  let hash := hash ^^^ ((hash &&& 0x800) >>> 6)
  let hash := hash ^^^ ((hash &&& 0x200) >>> 4)
  let hash := hash ^^^ (combiner &&& 0x20)
  let hash := hash &&& 0x5FF
  let hash := hash ^^^ ((combiner &&& 0x1F) <<< 9)
  hash % 6584

namespace NormTables

variable (tables : NormTables)

/-- The usual composite check. -/
def lookup (starter combiner : Nat) : Option Nat :=
  let record := tables.compositeHash (hash starter combiner)
  if record.starter = starter ∧ record.combiner = combiner then some record.value else none

end NormTables

/-- A leading consonant and a vowel. -/
def isLeadingPair (starter combiner : Nat) : Bool :=
  decide (starter ≥ lBase) && decide (starter < lBase + lCount) &&
    decide (combiner ≥ vBase) && decide (combiner < vBase + vCount)

/-- The syllable of a leading consonant and a vowel. -/
def syllable (starter combiner : Nat) : Nat :=
  sBase + ((starter - lBase) * vCount + (combiner - vBase)) * tCount

/-- A syllable without a trailing consonant. -/
def isOpenSyllable (starter : Nat) : Bool :=
  decide (starter ≥ sBase) && decide (starter < sBase + sCount) &&
    decide ((starter - sBase) % tCount = 0)

namespace NormTables

variable (tables : NormTables)

/-- What the three checks of `pair_compose` merge a pair to. -/
def pairComposite (starter combiner : Nat) : Option Nat :=
  if isLeadingPair starter combiner then some (syllable starter combiner)
  else if isOpenSyllable starter ∧ combiner ≥ tBase ∧ combiner < tBase + tCount then
    some (starter + (combiner - tBase))
  else tables.lookup starter combiner

/-- What a character is merged to, given the class of the last character that was left. -/
def mergeInto (lastClass starter combiner : Nat) : Option Nat :=
  if tables.combiningClass combiner > lastClass ∨ tables.combiningClass combiner = 0 then
    tables.pairComposite starter combiner
  else none

end NormTables

/-- The buffer with the position that is read, the position that is written, the
position of the character to merge with and the class of the last character left. -/
structure Composer where
  buffer : List Nat
  first : Nat
  output : Nat
  starter : Nat
  lastClass : Nat

section Loops

variable (tables : NormTables)

/-- One more character; tells whether the character to merge with stays the same. -/
def pairCompose (composer : Composer) : Bool × Composer :=
  let maybeCombiner := composer.buffer.getD composer.first 0
  let combinerClass := tables.combiningClass maybeCombiner
  match tables.mergeInto composer.lastClass (composer.buffer.getD composer.starter 0) maybeCombiner with
  | some value =>
    (true, { composer with
      buffer := composer.buffer.set composer.starter value
      first := composer.first + 1 })
  | none =>
    if combinerClass = 0 then (false, composer)
    else
      (true, { composer with
        lastClass := combinerClass
        buffer := composer.buffer.set composer.output maybeCombiner
        output := composer.output + 1
        first := composer.first + 1 })

/-- A pair that goes on reads one character. -/
theorem pairCompose_first {composer : Composer} (goesOn : (pairCompose tables composer).1 = true) :
    (pairCompose tables composer).2.first = composer.first + 1 := by
  unfold pairCompose at *
  dsimp only at *
  split at goesOn
  · rfl
  · split_ifs at goesOn ⊢
    rfl

/-- A pair that stops changes nothing. -/
theorem pairCompose_stops {composer : Composer} (stops : ¬ (pairCompose tables composer).1 = true) :
    (pairCompose tables composer).2 = composer := by
  unfold pairCompose at *
  dsimp only at *
  split at stops
  · exact absurd rfl stops
  · split_ifs at stops ⊢
    rfl
    exact absurd rfl stops

/-- The loop of `compose`. -/
def composeLoop (last : Nat) (composer : Composer) : Composer :=
  if composer.first < last then
    if (pairCompose tables composer).1 then composeLoop last (pairCompose tables composer).2
    else (pairCompose tables composer).2
  else composer
termination_by last - composer.first
decreasing_by
  rename_i inside goesOn
  rw [pairCompose_first tables goesOn]
  exact Nat.sub_lt_sub_left inside (Nat.lt_succ_self _)

/-- The loop does not go back. -/
theorem composeLoop_first {last : Nat} (composer : Composer) :
    composer.first ≤ (composeLoop tables last composer).first := by
  fun_induction composeLoop tables last composer with
  | case1 composer inside goesOn ih =>
    rw [pairCompose_first tables goesOn] at ih
    exact Nat.le_of_succ_le ih
  | case2 composer inside stops =>
    rw [pairCompose_stops tables stops]
  | case3 => exact le_refl _

/-- Composes from one character to merge with up to the next; gives the buffer and the
positions that are read and written next. -/
def compose (buffer : List Nat) (first last output : Nat) : List Nat × Nat × Nat :=
  let buffer := buffer.set output (buffer.getD first 0)
  if first + 1 = last then (buffer, first + 1, output + 1)
  else
    let composer := composeLoop tables last
      ⟨buffer, first + 1, output + 1, output, tables.combiningClass (buffer.getD output 0)⟩
    (composer.buffer, composer.first, composer.output)

/-- A call of `compose` reads a character. -/
theorem compose_first {buffer : List Nat} {first last output : Nat} :
    first < (compose tables buffer first last output).2.1 := by
  unfold compose
  split_ifs
  · exact Nat.lt_succ_self first
  · exact lt_of_lt_of_le (Nat.lt_succ_self first) (composeLoop_first tables ⟨_, _, _, _, _⟩)

/-- The loop of `compose_string`; the position that is read does not pass the last. -/
def composeStringLoop (last : Nat) (buffer : List Nat) (first writePos : Nat) : List Nat × Nat :=
  if first < last then
    let written := compose tables buffer first last writePos
    composeStringLoop last written.1 written.2.1 written.2.2
  else (buffer, writePos)
termination_by last - first
decreasing_by
  rename_i inside
  exact Nat.sub_lt_sub_left inside (compose_first tables)

/-- What stands in the buffer up to the position that is returned. -/
def composeString (text : List Nat) : List Nat :=
  let (buffer, writePos) := composeStringLoop tables text.length text 0 0
  buffer.take writePos

end Loops

/-! ## The passage without the buffer -/

/-- The characters written so far: those before the character to merge with, that
character and the marks left behind it; and the class of the last mark left. -/
structure Passage where
  front : List Nat
  base : Nat
  marks : List Nat
  lastClass : Nat

namespace Passage

/-- The characters of a passage. -/
def text (passage : Passage) : List Nat := passage.front ++ passage.base :: passage.marks

variable (tables : NormTables)

/-- A character that becomes the one to merge with. -/
def start (front : List Nat) (char : Nat) : Passage := ⟨front, char, [], tables.combiningClass char⟩

/-- One more character. -/
def read (passage : Passage) (char : Nat) : Passage :=
  match tables.mergeInto passage.lastClass passage.base char with
  | some value => { passage with base := value }
  | none =>
    if tables.combiningClass char = 0 then start tables passage.text char
    else
      { passage with
        marks := passage.marks ++ [char]
        lastClass := tables.combiningClass char }

/-- The passage after a text, unless the text is empty. -/
def reading : List Nat → Option Passage
  | [] => none
  | char :: rest => some (rest.foldl (read tables) (start tables [] char))

end Passage

section Buffer

variable {tables : NormTables} {last : Nat}

/-- The buffer holds what is written and what is still to be read. -/
structure Written (last : Nat) (buffer : List Nat) (first output : Nat) (done rest : List Nat) : Prop where
  size : buffer.length = last
  done : buffer.take output = done
  rest : buffer.drop first = rest
  behindRead : output ≤ first

variable {front marks rest buffer done : List Nat}

namespace Written

variable {buffer done rest : List Nat} {first output char : Nat}

/-- With characters left the position is inside. -/
theorem first_lt (written : Written last buffer first output done (char :: rest)) : first < last := by
  rw [← written.size]
  apply Nat.lt_of_not_le
  intro passed
  have nothing := drop_eq_nil_of_le passed
  rw [written.rest] at nothing
  exact absurd nothing (cons_ne_nil char rest)

/-- With no characters left the position is at the end. -/
theorem last_le (written : Written last buffer first output done []) : last ≤ first := by
  rw [← written.size]
  exact drop_eq_nil_iff.mp written.rest

section

variable (written : Written last buffer first output done (char :: rest))
include written

theorem next :
    buffer.getD first 0 = char := by
  have inside : first < buffer.length := written.size ▸ written.first_lt
  have split := written.rest
  rw [drop_eq_getElem_cons inside, List.cons.injEq] at split
  rw [getD_eq_getElem?_getD, List.getElem?_eq_getElem inside, Option.getD_some, split.1]

theorem drop_succ :
    buffer.drop (first + 1) = rest := by
  rw [← drop_drop, written.rest, drop_one, tail_cons]

/-- What is read is written behind. -/
theorem keep :
    Written last (buffer.set output char) (first + 1) (output + 1) (done ++ [char]) rest where
  size := by rw [length_set, written.size]
  done := by
    have inside : output < buffer.length := by
      rw [written.size]
      exact Nat.lt_of_le_of_lt written.behindRead written.first_lt
    rw [take_set, take_succ_eq_append_getElem inside, written.done]
    have atEnd : done.length = output := by
      rw [← written.done, length_take_of_le (Nat.le_of_lt inside)]
    rw [set_append_right _ _ (Nat.le_of_eq atEnd), atEnd, Nat.sub_self, set_cons_zero]
  rest := by
    rw [drop_set_of_lt (Nat.lt_succ_of_le written.behindRead), written.drop_succ]
  behindRead := Nat.succ_le_succ written.behindRead

end

/-- What is read is merged into a character that is written. -/
theorem merge {base : Nat}
    (written : Written last buffer first output (front ++ base :: marks) (char :: rest))
    {value : Nat} :
    Written last (buffer.set front.length value) (first + 1) output (front ++ value :: marks) rest where
  size := by rw [length_set, written.size]
  done := by
    rw [take_set, written.done, set_append_right _ _ (Nat.le_refl _), Nat.sub_self,
      set_cons_zero]
  rest := by
    rw [drop_set_of_lt, written.drop_succ]
    have inside := congrArg List.length written.done
    rw [length_take, length_append] at inside
    have behindRead := written.behindRead
    omega
  behindRead := Nat.le_succ_of_le written.behindRead

/-- A character that is written is found where it was written. -/
theorem base {base : Nat}
    (written : Written last buffer first output (front ++ base :: marks) rest) :
    buffer.getD front.length 0 = base := by
  have split := take_append_drop output buffer
  rw [written.done] at split
  rw [← split, append_assoc, getD_append_right _ _ _ _ (Nat.le_refl _), Nat.sub_self]
  rfl

end Written

/-- The loop of `compose` has come to a passage. -/
structure Holds (last : Nat) (composer : Composer) (passage : Passage) (rest : List Nat) : Prop where
  written : Written last composer.buffer composer.first composer.output passage.text rest
  starter : composer.starter = passage.front.length
  lastClass : composer.lastClass = passage.lastClass

/-- One call of `pair_compose`: it reads a character, or leaves it as the next one to
merge with. -/
theorem pairCompose_holds {composer : Composer} {passage : Passage} {char : Nat}
    (holds : Holds last composer passage (char :: rest)) :
    ((pairCompose tables composer).1 = true ∧
      Holds last (pairCompose tables composer).2 (passage.read tables char) rest) ∨
    (pairCompose tables composer = (false, composer) ∧
      passage.read tables char = Passage.start tables passage.text char) := by
  have base : composer.buffer.getD passage.front.length 0 = passage.base := holds.written.base
  unfold pairCompose Passage.read
  dsimp only
  rw [holds.written.next, holds.starter, base, holds.lastClass]
  cases tables.mergeInto passage.lastClass passage.base char with
  | some value =>
    left
    exact ⟨rfl, holds.written.merge, rfl, rfl⟩
  | none =>
    split_ifs
    · right
      exact ⟨rfl, rfl⟩
    · left
      refine ⟨rfl, ?_, rfl, rfl⟩
      have kept := holds.written.keep
      rw [Passage.text, append_assoc] at kept
      exact kept

/-- The loop of `compose` reads up to the next character to merge with. -/
theorem composeLoop_holds {composer : Composer} {passage : Passage}
    (holds : Holds last composer passage rest) :
    ∃ consumed left, rest = consumed ++ left ∧
      Holds last (composeLoop tables last composer) (consumed.foldl (Passage.read tables) passage) left ∧
      ∀ char ∈ left.head?, (consumed.foldl (Passage.read tables) passage).read tables char =
        Passage.start tables (consumed.foldl (Passage.read tables) passage).text char := by
  induction rest generalizing composer passage with
  | nil =>
    rw [composeLoop, if_neg (Nat.not_lt.mpr holds.written.last_le)]
    exact ⟨[], [], rfl, holds, by simp⟩
  | cons char rest ih =>
    rw [composeLoop, if_pos holds.written.first_lt]
    rcases pairCompose_holds holds with ⟨goesOn, next⟩ | ⟨stops, starts⟩
    · rw [if_pos goesOn]
      obtain ⟨consumed, left, split, reached, starts⟩ := ih next
      exact ⟨char :: consumed, left, by rw [split, cons_append], reached, starts⟩
    · rw [stops]
      refine ⟨[], char :: rest, rfl, holds, ?_⟩
      intro next isNext
      rw [List.head?_cons, Option.mem_some_iff] at isNext
      exact isNext ▸ starts

/-- A call of `compose` reads up to the next character to merge with. -/
theorem compose_written {first output char : Nat}
    (written : Written last buffer first output done (char :: rest)) :
    ∃ consumed left, rest = consumed ++ left ∧
      Written last (compose tables buffer first last output).1 (compose tables buffer first last output).2.1
        (compose tables buffer first last output).2.2
        (consumed.foldl (Passage.read tables) (Passage.start tables done char)).text left ∧
      ∀ next ∈ left.head?,
        (consumed.foldl (Passage.read tables) (Passage.start tables done char)).read tables next =
          Passage.start tables
            (consumed.foldl (Passage.read tables) (Passage.start tables done char)).text next := by
  have kept := written.keep
  have atEnd : done.length = output := by
    rw [← written.done, length_take, written.size]
    exact min_eq_left (le_of_lt (lt_of_le_of_lt written.behindRead written.first_lt))
  have base := Written.base kept
  rw [atEnd] at base
  unfold compose
  dsimp only
  rw [written.next, base]
  split_ifs with single
  · have nothing : rest = [] := by
      rw [← kept.rest, drop_eq_nil_iff, kept.size, single]
    subst nothing
    exact ⟨[], [], rfl, kept, by simp⟩
  · have holds : Holds last
        ⟨buffer.set output char, first + 1, output + 1, output, tables.combiningClass char⟩
        (Passage.start tables done char) rest := ⟨kept, atEnd.symm, rfl⟩
    obtain ⟨consumed, left, split, reached, starts⟩ := @composeLoop_holds tables _ _ _ _ holds
    exact ⟨consumed, left, split, reached.written, starts⟩

/-- The text after all that is left to be read. -/
def Passage.finish (tables : NormTables) (done : List Nat) : List Nat → List Nat
  | [] => done
  | char :: rest => (rest.foldl (Passage.read tables) (Passage.start tables done char)).text

/-- The loop in place finishes the passage. -/
theorem composeStringLoop_written {first writePos : Nat}
    (written : Written last buffer first writePos done rest) :
    (composeStringLoop tables last buffer first writePos).1.take
        (composeStringLoop tables last buffer first writePos).2 =
      Passage.finish tables done rest := by
  -- each call of `compose` reads at least one character of what is left
  induction size : rest.length using Nat.strong_induction_on generalizing buffer done rest first writePos with
  | _ size' ih =>
    cases rest with
    | nil =>
      rw [composeStringLoop, if_neg (Nat.not_lt.mpr written.last_le)]
      exact written.done
    | cons char rest =>
      obtain ⟨consumed, left, split, reached, starts⟩ := @compose_written tables _ _ _ _ _ _ _ written
      have fewer : left.length < size' := by
        rw [← size, length_cons, split, length_append]
        omega
      rw [composeStringLoop, if_pos written.first_lt]
      rw [ih left.length fewer reached rfl, split]
      cases left with
      | nil => rw [append_nil]; rfl
      | cons next rest =>
        have restarts := starts next rfl
        simp only [Passage.finish, foldl_append, foldl_cons, restarts]

/-- The loop in the buffer gives the text of the passage. -/
theorem composeString_eq (text : List Nat) :
    composeString tables text = ((Passage.reading tables text).map Passage.text).getD [] := by
  have written : Written text.length text 0 0 [] text := ⟨rfl, rfl, rfl, le_refl _⟩
  rw [composeString]
  dsimp only
  rw [composeStringLoop_written written]
  cases text <;> rfl

end Buffer

/-! ## The canonical composition -/

namespace NormTables

variable (tables : NormTables)

/-- The composites: the syllables and the records of the table. -/
def primaryComposite (starter combiner : Nat) : Option Nat :=
  if isLeadingPair starter combiner then some (syllable starter combiner)
  else if isOpenSyllable starter ∧ combiner > tBase ∧ combiner < tBase + tCount then
    some (starter + (combiner - tBase))
  else if (tables.compositeHash (hash starter combiner)).isEmpty then none
  else tables.lookup starter combiner

/-- A pair that is no composite, whose second character disappears. -/
def Swallows (starter combiner : Nat) : Prop :=
  (isOpenSyllable starter ∧ combiner = tBase) ∨
    (starter = 0 ∧ combiner = 0 ∧ (tables.compositeHash (hash 0 0)).isEmpty)
  deriving Decidable

/-- The tables are those of a character set: only starters have composites, composites
are starters, as the null character is, and no composite is recorded for a syllable with
the character before the first trailing consonant. -/
structure WellFormed : Prop where
  starters : ∀ {starter combiner value}, tables.primaryComposite starter combiner = some value →
    tables.combiningClass starter = 0 ∧ tables.combiningClass value = 0
  null : tables.combiningClass 0 = 0
  trailing : ∀ {starter}, isOpenSyllable starter → tables.primaryComposite starter tBase = none

/-- The canonical composition by the tables. -/
def canonical (text : List Nat) : List Nat :=
  Composing.compose tables.combiningClass tables.primaryComposite text

variable {tables} {starter combiner : Nat}

/-- A swallowed character leaves the starter as it is. -/
theorem pairComposite_swallows (swallows : tables.Swallows starter combiner) :
    tables.pairComposite starter combiner = some starter := by
  rcases swallows with ⟨opens, rfl⟩ | ⟨rfl, rfl, empty⟩
  · have apart : isLeadingPair starter tBase = false := by
      simp [isLeadingPair, tBase, vBase, vCount]
    rw [pairComposite, apart, if_neg Bool.false_ne_true, if_pos ⟨opens, by decide, by decide⟩,
      Nat.sub_self, Nat.add_zero]
  · simp only [CompositeHashRecord.isEmpty, Bool.and_eq_true, beq_iff_eq] at empty
    obtain ⟨⟨value, starter⟩, combiner⟩ := empty
    rw [pairComposite, if_neg (by decide), if_neg (by decide), lookup]
    rw [if_pos ⟨starter, combiner⟩, value]

/-- All other pairs are composed as they should be. -/
theorem pairComposite_primary (regular : ¬ tables.Swallows starter combiner) :
    tables.pairComposite starter combiner = tables.primaryComposite starter combiner := by
  rw [Swallows, not_or] at regular
  obtain ⟨noTail, noNull⟩ := regular
  have sameTail : (isOpenSyllable starter = true ∧ combiner ≥ tBase ∧ combiner < tBase + tCount) ↔
      isOpenSyllable starter = true ∧ combiner > tBase ∧ combiner < tBase + tCount := by
    constructor
    · rintro ⟨opens, above, below⟩
      exact ⟨opens, lt_of_le_of_ne above fun same => noTail ⟨opens, same.symm⟩, below⟩
    · rintro ⟨opens, above, below⟩
      exact ⟨opens, le_of_lt above, below⟩
  rw [pairComposite, primaryComposite]
  simp only [sameTail]
  split_ifs with leading trailing empty
  · rfl
  · rfl
  · apply if_neg
    rintro ⟨sameStarter, sameCombiner⟩
    have zeros := empty
    simp only [CompositeHashRecord.isEmpty, Bool.and_eq_true, beq_iff_eq] at zeros
    rw [zeros.1.2] at sameStarter
    rw [zeros.2] at sameCombiner
    subst sameStarter sameCombiner
    exact noNull ⟨rfl, rfl, empty⟩
  · rfl

namespace WellFormed

variable (wellFormed : tables.WellFormed)
include wellFormed

/-- A syllable is the composite of its consonant and its vowel. -/
theorem openSyllable (opens : isOpenSyllable starter) : tables.combiningClass starter = 0 := by
  simp only [isOpenSyllable, Bool.and_eq_true, decide_eq_true_eq] at opens
  obtain ⟨first, second, leading, whole⟩ :
      ∃ first second, isLeadingPair first second ∧ syllable first second = starter := by
    refine ⟨lBase + (starter - sBase) / tCount / vCount,
      vBase + (starter - sBase) / tCount % vCount, ?_, ?_⟩
    · simp only [isLeadingPair, Bool.and_eq_true, decide_eq_true_eq]
      simp only [sCount, nCount, vCount, tCount] at *
      omega
    · simp only [syllable, vCount, tCount] at *
      omega
  have composite : tables.primaryComposite first second = some starter := by
    rw [primaryComposite, if_pos leading, whole]
  exact (wellFormed.starters composite).2

/-- Only starters swallow. -/
theorem swallows_starter (swallows : tables.Swallows starter combiner) :
    tables.combiningClass starter = 0 := by
  rcases swallows with ⟨opens, -⟩ | ⟨rfl, -⟩
  · exact wellFormed.openSyllable opens
  · exact wellFormed.null

/-- A swallowed pair has no composite. -/
theorem swallows_primary (swallows : tables.Swallows starter combiner) :
    tables.primaryComposite starter combiner = none := by
  rcases swallows with ⟨opens, rfl⟩ | ⟨rfl, rfl, empty⟩
  · exact wellFormed.trailing opens
  · rw [primaryComposite, if_neg (by decide), if_neg (by decide), if_pos empty]

/-- Nothing is merged with a character that is no starter. -/
theorem pairComposite_starters {value : Nat}
    (composite : tables.pairComposite starter combiner = some value) :
    tables.combiningClass starter = 0 ∧ tables.combiningClass value = 0 := by
  by_cases swallows : tables.Swallows starter combiner
  · rw [pairComposite_swallows swallows, Option.some.injEq] at composite
    subst composite
    exact ⟨wellFormed.swallows_starter swallows, wellFormed.swallows_starter swallows⟩
  · rw [pairComposite_primary swallows] at composite
    exact wellFormed.starters composite

end WellFormed

/-- Where the loop departs from the canonical composition of what it has read: a starter
is merged over the marks behind the last starter, or a character that is not blocked
disappears. -/
def Slips (tables : NormTables) (done : List Nat) (char : Nat) : Prop :=
  ∃ starter ∈ (upTo tables.combiningClass done).getLast?,
    (tables.combiningClass char = 0 ∧ behind tables.combiningClass done ≠ [] ∧
      (tables.pairComposite starter char).isSome) ∨
    (¬ blocked tables.combiningClass done char ∧ tables.Swallows starter char)
  deriving Decidable

end NormTables

namespace Passage

variable {tables : NormTables} {passage : Passage} {lastRead char : Nat}

/-- What holds of a passage that has not slipped, after the last character read. -/
structure Fits (tables : NormTables) (passage : Passage) (lastRead : Nat) : Prop where
  marks : ∀ mark ∈ passage.marks, tables.combiningClass mark ≠ 0
  bounded : ∀ mark ∈ passage.marks, tables.combiningClass mark ≤ passage.lastClass
  reached : passage.marks ≠ [] → ∃ mark ∈ passage.marks, tables.combiningClass mark = passage.lastClass
  unmarked : passage.marks = [] → passage.lastClass = tables.combiningClass passage.base
  read : passage.lastClass ≤ tables.combiningClass lastRead
  leading : tables.combiningClass passage.base ≠ 0 → passage.front = []

namespace Fits

theorem start {front : List Nat} {char : Nat} (leading : tables.combiningClass char ≠ 0 → front = []) :
    (Passage.start tables front char).Fits tables char where
  marks := by simp [Passage.start]
  bounded := by simp [Passage.start]
  reached := by simp [Passage.start]
  unmarked := fun _ => rfl
  read := le_refl _
  leading := leading

variable (fits : passage.Fits tables lastRead)
include fits

/-- A mark is left. -/
theorem leave (isMark : tables.combiningClass char ≠ 0)
    (ordered : tables.combiningClass lastRead ≤ tables.combiningClass char) :
    Fits tables
      { passage with marks := passage.marks ++ [char], lastClass := tables.combiningClass char } char where
  marks := by
    intro mark member
    rcases mem_append.mp member with inside | last
    · exact fits.marks mark inside
    · rw [mem_singleton.mp last]
      exact isMark
  bounded := by
    intro mark member
    rcases mem_append.mp member with inside | last
    · exact le_trans (fits.bounded mark inside) (le_trans fits.read ordered)
    · rw [mem_singleton.mp last]
  reached := fun _ => ⟨char, by simp, rfl⟩
  unmarked := by simp
  read := le_refl _
  leading := fits.leading

/-- The marks block a character exactly if there are any and the last of them does. -/
theorem blocks_iff {char : Nat} :
    (∃ other ∈ passage.marks, tables.combiningClass char ≤ tables.combiningClass other) ↔
      passage.marks ≠ [] ∧ tables.combiningClass char ≤ passage.lastClass := by
  constructor
  · rintro ⟨other, member, blocks⟩
    exact ⟨ne_nil_of_mem member, le_trans blocks (fits.bounded other member)⟩
  · rintro ⟨some, blocks⟩
    obtain ⟨mark, member, reached⟩ := fits.reached some
    exact ⟨mark, member, reached ▸ blocks⟩

/-- A character is merged into the base. -/
theorem merge (isStarter : tables.combiningClass passage.base = 0)
    (free : ¬ ∃ other ∈ passage.marks, tables.combiningClass char ≤ tables.combiningClass other)
    {value : Nat} (staysStarter : tables.combiningClass value = 0) :
    Fits tables { passage with base := value } char where
  __ := fits
  unmarked := by
    intro none
    rw [staysStarter]
    exact (fits.unmarked none).trans isStarter
  read := by
    rw [fits.blocks_iff, not_and_or, not_not] at free
    rcases free with none | above
    · rw [fits.unmarked none, isStarter]
      exact Nat.zero_le _
    · exact Nat.le_of_not_le above
  leading := fun isMark => absurd staysStarter isMark

end Fits

/-- A slip behind a starter, in the words of the passage. -/
theorem slips_iff (fits : passage.Fits tables lastRead)
    (isStarter : tables.combiningClass passage.base = 0) (char : Nat) :
    tables.Slips passage.text char ↔
      (tables.combiningClass char = 0 ∧ passage.marks ≠ [] ∧
        (tables.pairComposite passage.base char).isSome) ∨
      (¬ (∃ other ∈ passage.marks, tables.combiningClass char ≤ tables.combiningClass other) ∧
        tables.Swallows passage.base char) := by
  rw [NormTables.Slips, text, blocked_iff isStarter fits.marks, upTo_eq isStarter fits.marks,
    behind_eq isStarter fits.marks, List.getLast?_concat]
  simp only [Option.mem_some_iff, exists_eq_left']

/-- Before the first starter there is nothing to slip on. -/
theorem not_slips (fits : passage.Fits tables lastRead)
    (isMark : tables.combiningClass passage.base ≠ 0) {char : Nat} :
    ¬ tables.Slips passage.text char := by
  rintro ⟨starter, isLast, -⟩
  rw [text, fits.leading isMark, upTo_none] at isLast
  · exact absurd isLast (by simp)
  · intro other member
    rcases mem_cons.mp member with rfl | inside
    · exact isMark
    · exact fits.marks other inside

section

variable (wellFormed : tables.WellFormed) (fits : passage.Fits tables lastRead)
include wellFormed fits

/-- Without a slip a character is merged as in the canonical composition. -/
theorem mergeInto_eq (regular : ¬ tables.Slips passage.text char) :
    tables.mergeInto passage.lastClass passage.base char =
      merged tables.combiningClass tables.primaryComposite passage.text char := by
  by_cases isStarter : tables.combiningClass passage.base = 0
  · rw [slips_iff fits isStarter, not_or] at regular
    obtain ⟨overMarks, swallowed⟩ := regular
    rw [text, merged_eq isStarter fits.marks, NormTables.mergeInto]
    by_cases blocks : ∃ other ∈ passage.marks, tables.combiningClass char ≤ tables.combiningClass other
    · rw [if_pos blocks]
      obtain ⟨some, below⟩ := fits.blocks_iff.mp blocks
      by_cases starts : tables.combiningClass char = 0
      · rw [if_pos (Or.inr starts)]
        have none : ¬ (tables.pairComposite passage.base char).isSome := fun composite =>
          overMarks ⟨starts, some, composite⟩
        exact Option.not_isSome_iff_eq_none.mp none
      · exact if_neg (not_or.mpr ⟨Nat.not_lt.mpr below, starts⟩)
    · rw [if_neg blocks, ← NormTables.pairComposite_primary fun swallows => swallowed ⟨blocks, swallows⟩]
      apply if_pos
      rw [fits.blocks_iff, not_and_or, not_not] at blocks
      rcases blocks with none | above
      · rw [fits.unmarked none, isStarter]
        exact (Nat.eq_zero_or_pos _).symm
      · exact Or.inl (Nat.lt_of_not_le above)
  · have nothing : tables.pairComposite passage.base char = none := by
      apply Option.eq_none_iff_forall_ne_some.mpr
      intro value composite
      exact isStarter (wellFormed.pairComposite_starters composite).1
    rw [NormTables.mergeInto, nothing, ite_self, text, fits.leading isStarter, merged_none]
    intro other member
    rcases mem_cons.mp member with rfl | inside
    · exact isStarter
    · exact fits.marks other inside

/-- One character, without a slip. -/
theorem read_fits
    (ordered : tables.combiningClass char ≠ 0 →
      tables.combiningClass lastRead ≤ tables.combiningClass char)
    (regular : ¬ tables.Slips passage.text char) :
    (passage.read tables char).text =
        step tables.combiningClass tables.primaryComposite char passage.text ∧
      (passage.read tables char).Fits tables char := by
  have same := mergeInto_eq wellFormed fits regular
  unfold read
  cases merges : tables.mergeInto passage.lastClass passage.base char with
  | some value =>
    have composite : tables.pairComposite passage.base char = some value := by
      exact (Option.ite_none_right_eq_some.mp merges).2
    obtain ⟨isStarter, staysStarter⟩ := wellFormed.pairComposite_starters composite
    rw [merges] at same
    have free := same
    rw [text, merged_eq isStarter fits.marks, eq_comm] at free
    constructor
    · exact (step_merged isStarter fits.marks same.symm).symm
    · exact fits.merge isStarter (Option.ite_none_left_eq_some.mp free).1 staysStarter
  | none =>
    rw [merges] at same
    rw [step_left same.symm]
    split_ifs with starts
    · exact ⟨rfl, Fits.start fun isMark => absurd starts isMark⟩
    · constructor
      · rw [text, text, append_assoc, cons_append]
      · exact fits.leave starts (ordered starts)

/-- One character, with a slip: the canonical composition leaves it, the loop does not. -/
theorem read_slips (slips : tables.Slips passage.text char) :
    (passage.read tables char).text ≠
      step tables.combiningClass tables.primaryComposite char passage.text := by
  have isStarter : tables.combiningClass passage.base = 0 := by
    by_contra isMark
    exact not_slips fits isMark slips
  rw [slips_iff fits isStarter] at slips
  have reads : ∃ value, tables.mergeInto passage.lastClass passage.base char = some value := by
    rw [NormTables.mergeInto]
    rcases slips with ⟨starts, -, composite⟩ | ⟨free, swallows⟩
    · rw [if_pos (Or.inr starts)]
      exact Option.isSome_iff_exists.mp composite
    · rw [fits.blocks_iff, not_and_or, not_not] at free
      refine ⟨passage.base, ?_⟩
      rw [NormTables.pairComposite_swallows swallows]
      apply if_pos
      rcases free with none | above
      · rw [fits.unmarked none, isStarter]
        exact (Nat.eq_zero_or_pos _).symm
      · exact Or.inl (Nat.lt_of_not_le above)
  have leaves : merged tables.combiningClass tables.primaryComposite passage.text char = none := by
    rw [text, merged_eq isStarter fits.marks]
    rcases slips with ⟨starts, some, -⟩ | ⟨free, swallows⟩
    · exact if_pos ((fits.blocks_iff).mpr ⟨some, by rw [starts]; exact Nat.zero_le _⟩)
    · rw [if_neg free]
      exact wellFormed.swallows_primary swallows
  obtain ⟨value, merges⟩ := reads
  intro same
  rw [read, merges, step_left leaves] at same
  have longer := congrArg List.length same
  simp [text] at longer

end

/-- One more character is read behind a text. -/
theorem reading_concat (tables : NormTables) (initial : List Nat) (char : Nat) :
    reading tables (initial ++ [char]) =
      some (match reading tables initial with
        | none => start tables [] char
        | some passage => passage.read tables char) := by
  cases initial with
  | nil => rfl
  | cons first rest => simp [reading]

/-- The passage after a text in which nothing slips. -/
theorem reading_fits (wellFormed : tables.WellFormed) {text : List Nat} {lastRead : Nat}
    (ordered : Ordered tables.combiningClass text)
    (regular : ∀ initial char, initial ++ [char] <+: text → ¬ tables.Slips (tables.canonical initial) char)
    (isLast : text.getLast? = some lastRead) :
    ∃ passage, reading tables text = some passage ∧ passage.text = tables.canonical text ∧
      passage.Fits tables lastRead := by
  induction text using List.reverseRecOn generalizing lastRead with
  | nil => exact absurd isLast (by simp)
  | append_singleton initial char ih =>
    rw [List.getLast?_concat, Option.some.injEq] at isLast
    subst isLast
    obtain ⟨orderedBefore, -, orderedLast⟩ := isChain_append.mp ordered
    rw [reading_concat, NormTables.canonical, compose_concat]
    cases before : initial.getLast? with
    | none =>
      rw [List.getLast?_eq_none_iff.mp before]
      refine ⟨_, rfl, ?_, Fits.start fun _ => rfl⟩
      rfl
    | some previous =>
      obtain ⟨passage, reached, same, fits⟩ := ih orderedBefore
        (fun shorter next inside => regular shorter next (inside.trans (prefix_append _ _))) before
      rw [reached]
      have stepOrdered := orderedLast previous before char rfl
      have stepRegular := regular initial char (prefix_refl _)
      rw [← same] at stepRegular
      obtain ⟨sameNext, fitsNext⟩ := read_fits wellFormed fits stepOrdered stepRegular
      refine ⟨_, rfl, ?_, fitsNext⟩
      rw [sameNext, same]
      rfl

end Passage

section Exactness

variable {tables : NormTables}

/-- One more character behind a text in which nothing slips. -/
theorem composeString_concat_iff (wellFormed : tables.WellFormed) {initial : List Nat} {char : Nat}
    (ordered : Ordered tables.combiningClass (initial ++ [char]))
    (regular : ∀ shorter next, shorter ++ [next] <+: initial →
      ¬ tables.Slips (tables.canonical shorter) next) :
    composeString tables (initial ++ [char]) = tables.canonical (initial ++ [char]) ↔
      ¬ tables.Slips (tables.canonical initial) char := by
  obtain ⟨orderedBefore, -, orderedLast⟩ := isChain_append.mp ordered
  rw [composeString_eq, Passage.reading_concat, NormTables.canonical, compose_concat]
  cases before : initial.getLast? with
  | none =>
    rw [List.getLast?_eq_none_iff.mp before]
    constructor
    · rintro - ⟨starter, isLast, -⟩
      rw [NormTables.canonical, compose_nil, upTo_none (by simp)] at isLast
      exact absurd isLast (by simp)
    · intro
      rfl
  | some previous =>
    obtain ⟨passage, reached, same, fits⟩ := Passage.reading_fits wellFormed orderedBefore regular before
    rw [reached, ← NormTables.canonical, ← same]
    constructor
    · intro agrees slips
      exact Passage.read_slips wellFormed fits slips agrees
    · intro keeps
      exact (Passage.read_fits wellFormed fits (orderedLast previous before char rfl) keeps).1

/-- A text in canonical order in which nothing slips is composed as the canonical composition
composes it. -/
theorem composeString_of_regular (wellFormed : tables.WellFormed) {text : List Nat}
    (ordered : Ordered tables.combiningClass text)
    (regular : ∀ initial char, initial ++ [char] <+: text →
      ¬ tables.Slips (tables.canonical initial) char) :
    composeString tables text = tables.canonical text := by
  rcases text.eq_nil_or_concat' with rfl | ⟨initial, char, rfl⟩
  · rw [composeString_eq]
    rfl
  · have before : ∀ shorter next, shorter ++ [next] <+: initial →
        ¬ tables.Slips (tables.canonical shorter) next := fun shorter next within =>
      regular shorter next (within.trans (prefix_append _ _))
    exact (composeString_concat_iff wellFormed ordered before).mpr (regular initial char (prefix_refl _))

/-- In a text in canonical order, the initial texts up to any place are composed as the
canonical composition composes them exactly if nothing slips up to there. -/
theorem composeString_canonical_iff (wellFormed : tables.WellFormed) {text : List Nat}
    (ordered : Ordered tables.combiningClass text) :
    (∀ initial, initial <+: text → composeString tables initial = tables.canonical initial) ↔
      ∀ initial char, initial ++ [char] <+: text → ¬ tables.Slips (tables.canonical initial) char := by
  constructor
  · intro agrees
    induction text using List.reverseRecOn with
    | nil =>
      intro initial char inside
      exact absurd (prefix_nil.mp inside) (by simp)
    | append_singleton front last ih =>
      intro initial char inside
      have regular := ih (isChain_append.mp ordered).1 fun shorter within =>
        agrees shorter (within.trans (prefix_append _ _))
      rcases prefix_concat_iff.mp inside with same | within
      · obtain ⟨rfl, sameChar⟩ := append_inj' same rfl
        obtain ⟨rfl, -⟩ := sameChar
        exact (composeString_concat_iff wellFormed ordered regular).mp (agrees _ (prefix_refl _))
      · exact regular initial char within
  · intro keeps initial inside
    exact composeString_of_regular wellFormed ( IsChain.prefix ordered inside)
      fun shorter next within => keeps shorter next (within.trans inside)

/-- One mark and one composite of two starters. -/
def bengaliTables : NormTables where
  combiningClass char := if char = 0x301 then 230 else 0
  compositeHash slot := if slot = hash 0x9C7 0x9BE then ⟨0x9CB, 0x9C7, 0x9BE⟩ else ⟨0, 0, 0⟩

theorem bengaliTables_lookup {starter combiner value : Nat}
    (nonempty : ¬ (bengaliTables.compositeHash (hash starter combiner)).isEmpty)
    (composite : bengaliTables.lookup starter combiner = some value) :
    starter = 0x9C7 ∧ combiner = 0x9BE ∧ value = 0x9CB := by
  rw [NormTables.lookup] at composite
  by_cases slot : hash starter combiner = hash 0x9C7 0x9BE
  · simp only [slot] at composite
    obtain ⟨⟨sameStarter, sameCombiner⟩, sameValue⟩ := Option.ite_none_right_eq_some.mp composite
    exact ⟨sameStarter.symm, sameCombiner.symm, (Option.some.inj sameValue).symm⟩
  · simp [bengaliTables, slot, CompositeHashRecord.isEmpty] at nonempty

theorem bengaliTables_wellFormed : bengaliTables.WellFormed where
  starters := by
    intro starter combiner value composite
    rw [NormTables.primaryComposite] at composite
    suffices starter ≠ 0x301 ∧ value ≠ 0x301 by simp [bengaliTables, this]
    split_ifs at composite with leading trailing empty
    · simp only [isLeadingPair, Bool.and_eq_true, decide_eq_true_eq] at leading
      simp only [Option.some.injEq, syllable] at composite
      simp only [lBase, sBase] at *
      omega
    · simp only [isOpenSyllable, Bool.and_eq_true, decide_eq_true_eq] at trailing
      simp only [Option.some.injEq] at composite
      have above := trailing.1.1.1
      simp only [sBase] at above
      omega
    · obtain ⟨rfl, rfl, rfl⟩ := bengaliTables_lookup empty composite
      decide
  null := rfl
  trailing := by
    intro starter opens
    apply Option.eq_none_iff_forall_ne_some.mpr
    intro value composite
    rw [NormTables.primaryComposite] at composite
    split_ifs at composite with leading trailing empty
    · simp [isLeadingPair, tBase, vBase, vCount] at leading
    · exact absurd trailing.2.1 (lt_irrefl _)
    · exact absurd (bengaliTables_lookup empty composite).2.1 (by decide)

/-- A vowel sign and its second half, with a mark behind them, are composed as they
should be. -/
theorem vowel_sign_canonical : composeString bengaliTables [0x9C7, 0x9BE, 0x301] = [0x9CB, 0x301] := by
  have ordered : Ordered bengaliTables.combiningClass [0x9C7, 0x9BE, 0x301] := by
    simp [Ordered, bengaliTables]
  have regular : ∀ initial char, initial ++ [char] <+: [0x9C7, 0x9BE, 0x301] →
      ¬ bengaliTables.Slips (bengaliTables.canonical initial) char := by
    rintro initial char ⟨rest, split⟩
    rcases initial with _ | ⟨first, _ | ⟨second, _ | ⟨third, others⟩⟩⟩
    · obtain ⟨rfl, -⟩ := cons_eq_cons.mp split
      decide +kernel
    · simp only [cons_append, nil_append, List.cons.injEq] at split
      obtain ⟨rfl, rfl, -⟩ := split
      decide +kernel
    · simp only [cons_append, nil_append, List.cons.injEq] at split
      obtain ⟨rfl, rfl, rfl, -⟩ := split
      decide +kernel
    · simp at split
  rw [(composeString_canonical_iff bengaliTables_wellFormed ordered).mpr regular _ (prefix_refl _)]
  decide +kernel

/-- A mark between the vowel sign and its second half blocks the second half, but the
loop merges it. -/
theorem vowel_sign_over_mark :
    Ordered bengaliTables.combiningClass [0x9C7, 0x301, 0x9BE] ∧
      composeString bengaliTables [0x9C7, 0x301, 0x9BE] = [0x9CB, 0x301] ∧
      bengaliTables.canonical [0x9C7, 0x301, 0x9BE] = [0x9C7, 0x301, 0x9BE] := by
  refine ⟨by simp [Ordered, bengaliTables], ?_, by decide +kernel⟩
  decide +kernel

end Exactness

end UnixCommons.Text.Normalizer
