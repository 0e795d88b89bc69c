import UnixCommons.String.Utf8Handler

/-!
# Checks of UTF-8

A text is checked sequence by sequence up to its NUL. The check of a sequence has its own
branches for the second octet and looks at the last one. That is all there is in a sequence
of up to three octets, but the third of four is left out.
-/

namespace UnixCommons.Text

open List

open Utf8 (Trailing Listed Composed tableRows)

/-- All octets of a sequence but the first are trailing ones. -/
theorem trailing_of_listed {first octet : UInt8} {others : List UInt8}
    (listed : Listed (first :: others)) (member : octet ∈ others) : Trailing octet := by
  obtain ⟨row, inTable, fits⟩ := listed
  have ranges : ∀ row ∈ tableRows, ∀ range ∈ row.tail, 0x80 ≤ range.1 ∧ range.2 < 0xC0 := by decide
  cases fits with
  | @cons range _ row _ head tail =>
    obtain ⟨index, inside, rfl⟩ := getElem_of_mem member
    have fitting := forall₂_iff_get.mp tail
    have bounds := ranges _ inTable row[index] (getElem_mem (fitting.1 ▸ inside))
    have within := fitting.2 index (fitting.1 ▸ inside) inside
    simp only [get_eq_getElem] at within
    exact ⟨by omega, by omega⟩

/-- A correct sequence is passed, so that the text to check gets shorter. -/
theorem drop_correct_length {str : List UInt8} (goesOn : str.headD 0 ≠ 0)
    (correct : isCorrectUtf8Sequence str ≠ none) :
    (str.drop ((isCorrectUtf8Sequence str).getD 0)).length < str.length := by
  have nonempty : str ≠ [] := fun empty => goesOn (by rw [empty]; rfl)
  have positive := isCorrectUtf8Sequence_ne_zero correct
  have some := length_pos_iff.mpr nonempty
  rw [length_drop]
  omega

/-- The check of a NUL-terminated text, on the memory from its beginning on: the place of
the first character that is not correct, if there is one. -/
def isCorrectUtf8String (str : List UInt8) : Option (List UInt8) :=
  if str.headD 0 = 0 then none
  else if isCorrectUtf8Sequence str = none then some str
  else isCorrectUtf8String (str.drop ((isCorrectUtf8Sequence str).getD 0))
termination_by str.length
decreasing_by exact drop_correct_length ‹_› ‹_›

/-- Memory is made of these sequences, all of a kind, up to a NUL. -/
def MadeOf (kind : List UInt8 → Prop) (parts : List (List UInt8)) (memory : List UInt8) : Prop :=
  (∀ part ∈ parts, kind part ∧ part.headD 0 ≠ 0) ∧
    ∃ later : List UInt8, later.headD 0 = 0 ∧ memory = parts.flatten ++ later

/-- Memory that is made of sequences of a kind up to a NUL. -/
def Reaches (kind : List UInt8 → Prop) (memory : List UInt8) : Prop :=
  ∃ parts, MadeOf kind parts memory

/-- The sequences that are found correct. -/
def Accepted (octets : List UInt8) : Prop := Listed octets ∨ Slips octets

/-- The check goes on behind the sequence that it finds correct. -/
theorem reaches_iff {str : List UInt8} (goesOn : str.headD 0 ≠ 0) :
    Reaches Accepted str ↔
      ∃ count, isCorrectUtf8Sequence str = some count ∧ Reaches Accepted (str.drop count) := by
  constructor
  · rintro ⟨parts, accepted, later, nul, rfl⟩
    cases parts with
    | nil => exact absurd nul goesOn
    | cons part parts =>
      obtain ⟨first, others⟩ := forall_mem_cons.mp accepted
      rw [flatten_cons, append_assoc]
      refine ⟨_, correct_of_accepted first.1 _, parts, others, later, nul, ?_⟩
      rw [drop_left]
  · rintro ⟨count, correct, parts, accepted, later, nul, remaining⟩
    have nonempty : str ≠ [] := fun empty => goesOn (by rw [empty]; rfl)
    have first := (accepted_of_correct nonempty correct).2
    have positive : count ≠ 0 := by
      rintro rfl
      exact isCorrectUtf8Sequence_ne_zero (by rw [correct]; nofun) (by rw [correct]; rfl)
    refine ⟨str.take count :: parts, forall_mem_cons.mpr ⟨⟨first, ?_⟩, accepted⟩, later, nul, ?_⟩
    · rwa [headD_eq_head?_getD, head?_take, if_neg positive, ← headD_eq_head?_getD]
    · rw [flatten_cons, append_assoc, ← remaining, take_append_drop]

/-- A text is accepted if the memory is made of accepted sequences up to a NUL. -/
theorem isCorrectUtf8String_iff (str : List UInt8) :
    isCorrectUtf8String str = none ↔ Reaches Accepted str := by
  induction str using isCorrectUtf8String.induct with
  | case1 str ended =>
    rw [isCorrectUtf8String, if_pos ended]
    exact ⟨fun _ => ⟨[], nofun, str, ended, rfl⟩, fun _ => rfl⟩
  | case2 str goesOn wrong =>
    rw [isCorrectUtf8String, if_neg goesOn, reaches_iff goesOn, wrong]
    exact ⟨nofun, nofun⟩
  | case3 str goesOn correct ih =>
    obtain ⟨count, found⟩ := Option.ne_none_iff_exists'.mp correct
    rw [isCorrectUtf8String, if_neg goesOn, if_neg correct, ih, reaches_iff goesOn, found]
    exact ⟨fun later => ⟨count, rfl, later⟩, by rintro ⟨_, ⟨⟩, later⟩; exact later⟩

/-- A NUL does not trail, so that sequences of the table end within the text. -/
theorem reaches_listed_iff {str beyond : List UInt8} (noNul : 0 ∉ str) :
    Reaches Listed (str ++ 0 :: beyond) ↔ Composed str := by
  have texts : ∀ octets : List UInt8, 0 ∉ octets → ∀ octet ∈ octets, decide (octet ≠ 0) = true := by
    intro octets noNul octet member
    exact decide_eq_true fun nul => noNul (nul ▸ member)
  constructor
  · rintro ⟨parts, listed, later, nul, memory⟩
    have plain : 0 ∉ parts.flatten := by
      intro member
      obtain ⟨part, inside, nulInside⟩ := mem_flatten.mp member
      obtain ⟨inTable, lead⟩ := listed part inside
      cases part with
      | nil => exact absurd nulInside not_mem_nil
      | cons first others =>
        rcases mem_cons.mp nulInside with rfl | trails
        · exact lead rfl
        · exact absurd (trailing_of_listed inTable trails).1 (by decide)
    have ended : later.takeWhile (fun octet => decide (octet ≠ 0)) = [] := by
      cases later with
      | nil => rfl
      | cons octet later => exact takeWhile_cons_of_neg (by simpa using nul)
    refine ⟨parts, fun part inside => (listed part inside).1, ?_⟩
    have same := congrArg (takeWhile fun octet => decide (octet ≠ 0)) memory
    rwa [takeWhile_append_of_pos (texts _ noNul), takeWhile_append_of_pos (texts _ plain), ended,
      takeWhile_cons_of_neg (by decide), append_nil, append_nil] at same
  · rintro ⟨parts, listed, rfl⟩
    refine ⟨parts, fun part inside => ⟨listed part inside, ?_⟩, 0 :: beyond, rfl, rfl⟩
    cases part with
    | nil => exact absurd (listed [] inside) not_listed_nil
    | cons first others =>
      rintro rfl
      exact noNul (mem_flatten.mpr ⟨_, inside, mem_cons_self⟩)

/-- Memory that begins with an accepted sequence does not stand at a NUL. -/
theorem MadeOf.headD_ne_zero {part memory : List UInt8} {parts : List (List UInt8)}
    {kind : List UInt8 → Prop} (made : MadeOf kind (part :: parts) memory) :
    memory.headD 0 ≠ 0 := by
  obtain ⟨accepted, later, -, rfl⟩ := made
  have lead := (accepted part mem_cons_self).2
  cases part with
  | nil => exact absurd rfl lead
  | cons first others => exact lead

/-- Memory is made of accepted sequences in one way only: where one begins, the check tells
where it ends. -/
theorem MadeOf.unique {parts parts' : List (List UInt8)} {memory : List UInt8}
    (made : MadeOf Accepted parts memory) (made' : MadeOf Accepted parts' memory) :
    parts = parts' := by
  induction parts generalizing parts' memory with
  | nil =>
    cases parts' with
    | nil => rfl
    | cons =>
      obtain ⟨-, later, nul, rfl⟩ := made
      exact absurd nul made'.headD_ne_zero
  | cons part parts ih =>
    cases parts' with
    | nil =>
      obtain ⟨-, later, nul, rfl⟩ := made'
      exact absurd nul made.headD_ne_zero
    | cons part' parts' =>
      obtain ⟨accepted, later, nul, rfl⟩ := made
      obtain ⟨accepted', later', nul', same⟩ := made'
      obtain ⟨first, others⟩ := forall_mem_cons.mp accepted
      obtain ⟨first', others'⟩ := forall_mem_cons.mp accepted'
      rw [flatten_cons, flatten_cons, append_assoc, append_assoc] at same
      have correct := correct_of_accepted first.1 (parts.flatten ++ later)
      rw [same, correct_of_accepted first'.1, Option.some.injEq] at correct
      obtain ⟨rfl, rest⟩ := append_inj same correct.symm
      rw [ih ⟨others, later, nul, rfl⟩ ⟨others', later', nul', rest⟩]

/-- Sequences of the table are accepted. -/
theorem MadeOf.accepted {parts : List (List UInt8)} {memory : List UInt8}
    (made : MadeOf Listed parts memory) : MadeOf Accepted parts memory :=
  ⟨fun part inside => (made.1 part inside).imp_left .inl, made.2⟩

/-- What slips is no sequence of the table. -/
theorem Slips.not_listed {octets : List UInt8} (slips : Slips octets) : ¬ Listed octets := by
  obtain ⟨_, _, _, _, rfl, -, wrong⟩ := slips
  exact fun listed => wrong (listed_four.mp listed).2.2.1

/-- The check of a sequence looks at all octets but the third of four. -/
theorem sequence_checked_iff (first : UInt8) (rest : List UInt8) :
    (∀ count, isCorrectUtf8Sequence (first :: rest) = some count ↔
        count ≤ (first :: rest).length ∧ Listed ((first :: rest).take count)) ↔
      ¬ Slips ((first :: rest).take 4) := by
  constructor
  · intro same slips
    have four : isCorrectUtf8Sequence (first :: rest) = some 4 := by
      have found := correct_of_accepted (.inr slips) ((first :: rest).drop 4)
      obtain ⟨_, _, _, _, long, -, -⟩ := slips
      rwa [take_append_drop, long] at found
    exact slips.not_listed ((same 4).mp four).2
  · intro noSlip count
    constructor
    · intro correct
      obtain ⟨inside, listed | slips⟩ := accepted_of_correct (cons_ne_nil _ _) correct
      · exact ⟨inside, listed⟩
      · have four : count = 4 := by
          obtain ⟨_, _, _, _, long, -, -⟩ := slips
          rw [← Nat.min_eq_left inside, ← length_take, long]
          rfl
        exact absurd (four ▸ slips) noSlip
    · rintro ⟨inside, listed⟩
      have found := correct_of_listed listed ((first :: rest).drop count)
      rwa [take_append_drop, length_take_of_le inside] at found

/-- **What the checks of UTF-8 accept.** A sequence is found correct exactly if it begins
with a sequence of the table, and a text exactly if it is composed of such sequences, unless
there are four octets that are a sequence but for the third, which neither check looks at:
at the beginning of the sequence, or among the pieces the memory is made of up to a NUL. -/
theorem utf8_checks_iff (first : UInt8) (rest str beyond : List UInt8) (noNul : 0 ∉ str) :
    ((∀ count, isCorrectUtf8Sequence (first :: rest) = some count ↔
          count ≤ (first :: rest).length ∧ Listed ((first :: rest).take count)) ↔
        ¬ Slips ((first :: rest).take 4)) ∧
      ((isCorrectUtf8String (str ++ 0 :: beyond) = none ↔ Composed str) ↔
        ∀ parts, MadeOf Accepted parts (str ++ 0 :: beyond) → ∀ part ∈ parts, ¬ Slips part) := by
  refine ⟨sequence_checked_iff first rest, ?_⟩
  rw [isCorrectUtf8String_iff, ← @reaches_listed_iff str beyond noNul]
  constructor
  · intro same parts made part inside slips
    obtain ⟨parts', listed⟩ := same.mp ⟨parts, made⟩
    rw [made.unique listed.accepted] at inside
    exact slips.not_listed (listed.1 part inside).1
  · intro noSlip
    constructor
    · rintro ⟨parts, made⟩
      refine ⟨parts, fun part inside => ⟨?_, (made.1 part inside).2⟩, made.2⟩
      exact (made.1 part inside).1.resolve_right (noSlip parts made part inside)
    · rintro ⟨parts, made⟩
      exact ⟨parts, made.accepted⟩

/-- The text of one character beyond the basic plane. -/
theorem face_accepted :
    isCorrectUtf8String ([0xF0, 0x9F, 0x98, 0x80] ++ 0 :: []) = none ↔
      Composed [0xF0, 0x9F, 0x98, 0x80] := by
  have listed : Listed [0xF0, 0x9F, 0x98, 0x80] :=
    listed_four.mpr ⟨by decide, by decide, ⟨by decide, by decide⟩, trailing_least⟩
  have whole : MadeOf Accepted [[0xF0, 0x9F, 0x98, 0x80]] ([0xF0, 0x9F, 0x98, 0x80] ++ 0 :: []) :=
    ⟨forall_mem_singleton.mpr ⟨.inl listed, by decide⟩, [0], rfl, rfl⟩
  refine (utf8_checks_iff 0 [] [0xF0, 0x9F, 0x98, 0x80] [] (by decide)).2.mpr ?_
  intro parts made part inside slips
  rw [made.unique whole, mem_singleton] at inside
  exact slips.not_listed (inside ▸ listed)

/-- A letter is accepted as the third octet of four. -/
theorem unchecked_letter_accepted :
    isCorrectUtf8Sequence [0xF0, 0x9F, 0x41, 0x80] = some 4 ∧
      isCorrectUtf8String ([0xF0, 0x9F, 0x41, 0x80] ++ 0 :: []) = none ∧
      ¬ Listed [0xF0, 0x9F, 0x41, 0x80] ∧ ¬ Composed [0xF0, 0x9F, 0x41, 0x80] := by
  have slips : Slips [0xF0, 0x9F, 0x41, 0x80] :=
    ⟨_, _, _, _, rfl, listed_four.mpr ⟨by decide, by decide, trailing_least, trailing_least⟩,
      fun trails => absurd trails.1 (by decide)⟩
  have whole : MadeOf Accepted [[0xF0, 0x9F, 0x41, 0x80]] ([0xF0, 0x9F, 0x41, 0x80] ++ 0 :: []) :=
    ⟨forall_mem_singleton.mpr ⟨.inr slips, by decide⟩, [0], rfl, rfl⟩
  refine ⟨rfl, (isCorrectUtf8String_iff _).mpr ⟨_, whole⟩, slips.not_listed, fun composed => ?_⟩
  obtain ⟨parts, listed⟩ := (@reaches_listed_iff _ [] (by decide)).mpr composed
  have made : MadeOf Accepted parts ([0xF0, 0x9F, 0x41, 0x80] ++ 0 :: []) := listed.accepted
  rw [made.unique whole] at listed
  exact slips.not_listed (listed.1 _ mem_cons_self).1

end UnixCommons.Text
