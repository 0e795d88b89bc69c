import UnixCommons.Library.Scan
import Mathlib.Tactic.Linarith
import Mathlib.Tactic.Ring

/-!
# The search functions of substrings

A substring is a pointer and a length; here it is the characters it covers, and reading
at any other position fails. A pattern is a character, another substring, a string that
ends with the null character, or as many characters of an array as a count says. The
overloads for pointers make a substring of the pattern first.

The functions of the standard string of the same names are described by the positions
they look for: the lowest or the highest that fits. Four things keep the functions here
from returning the same. An empty pattern is found at position zero or not at all,
whatever the start; a start behind the end is handed to the search for a pattern that is
not too long; the backward search for a counted pattern leaves the count aside; and in
the backward search for a character not in a set, nothing is found if the set is empty.
The overload of the latter for one character is declared only.
-/

namespace UnixCommons.Text.SubString

open Scan List

/-- Why a call does not return: a character outside is read, a range that ends before it
begins is searched, a null pointer is refused, or there is no code to call. -/
inductive Fault where
  | outside
  | invalidRange
  | logicError
  | undefined
  deriving DecidableEq

/-- `NPOS`. -/
def npos : Nat := 0xFFFFFFFFFFFFFFFF

variable {α : Type} [LinearOrder α] (nul : α)

/-- A pointer into an array, as the characters from there on; null pointers are `none`. -/
abbrev Pointer (α : Type) := Option (List α)

/-- A character of the text; behind its end nothing may be read. -/
def read (text : List α) (position : Nat) : Except Fault α :=
  match text[position]? with
  | some ch => .ok ch
  | none => .error .outside

/-! ## Character traits -/

/-- `Traits::find`. -/
def traitsFind (text : List α) (str size : Nat) (ch : α) : Except Fault (Option Nat) :=
  scanUp (fun position => do return decide ((← read text position) = ch)) str size

/-- `Traits::compare`. -/
def traitsCompare (text1 text2 : List α) (str1 str2 : Nat) : Nat → Except Fault Int
  | 0 => .ok 0
  | size + 1 => do
    let ch1 ← read text1 str1
    let ch2 ← read text2 str2
    if ch1 = ch2 then traitsCompare text1 text2 (str1 + 1) (str2 + 1) size
    else return if ch1 < ch2 then -1 else 1

/-- The characters before the null character, which must be there. -/
def traitsLength : List α → Except Fault Nat
  | [] => .error .outside
  | ch :: rest => do
    if ch = nul then return 0
    return (← traitsLength rest) + 1

/-! ## Constructors -/

/-- The substring constructed from a pointer. -/
def ofPointer : Pointer α → Except Fault (List α)
  | none => .error .logicError
  | some array => do return array.take (← traitsLength nul array)

/-- A substring over more than the array cannot be read. -/
def ofCounted (ptr : Pointer α) (count : Nat) : Except Fault (List α) :=
  match ptr with
  | none => if count = 0 then .ok [] else .error .logicError
  | some array => if count ≤ array.length then .ok (array.take count) else .error .outside

/-! ## Search functions -/

/-- `get_available_length_`, with its difference of `size_t` values. -/
def getAvailableLength (length pos count : Nat) : Nat :=
  min count (((length : Int) - pos) % 2 ^ 64).toNat

/-- The standard search for a range in a range: the first position where it stands, or
the end of the range. -/
def stdSearch (text : List α) (first last : Nat) (str : List α) : Except Fault Nat :=
  if last < first then .error .invalidRange
  else do
    let found ← scanUp
      (fun position => do return decide ((← traitsCompare text str position 0 str.length) = 0))
      first (last + 1 - str.length - first)
    return found.getD last

/-- `find` of a character. -/
def findChar (self : List α) (ch : α) (pos : Nat) : Except Fault Nat :=
  if pos < self.length then do
    return (← traitsFind self pos (self.length - pos) ch).getD npos
  else .ok npos

/-- `find` of a substring. -/
def find (self str : List α) (pos : Nat) : Except Fault Nat :=
  if str.length = 0 then .ok (if pos ≥ self.length then npos else 0)
  else
    let length := getAvailableLength self.length pos self.length
    if str.length > length then .ok npos
    else do
      let found ← stdSearch self pos self.length str
      return if found ≠ self.length then found else npos

/-- `rfind` of a character. -/
def rfindChar (self : List α) (ch : α) (pos : Nat) : Except Fault Nat :=
  if self.length ≠ 0 then do
    let last := min (self.length - 1) pos
    return (← scanDown (fun position => do return decide ((← read self position) = ch)) last).getD npos
  else .ok npos

/-- `rfind` of a substring. -/
def rfind (self str : List α) (pos : Nat) : Except Fault Nat :=
  if str.length > self.length then .ok npos
  else
    let pos := if pos > self.length then self.length else pos
    if str.length = 0 then .ok pos
    else do
      let pos := if pos > self.length - str.length then self.length - str.length else pos
      return (← scanDown
        (fun position => do return decide ((← traitsCompare self str position 0 str.length) = 0))
        pos).getD npos

/-- Whether the character at a position is in a set. -/
def isAny (self str : List α) (position : Nat) : Except Fault Bool := do
  return (← traitsFind str 0 str.length (← read self position)).isSome

/-- The loop of the forward searches, over the positions from the start to the end. -/
def findFirst (self : List α) (test : Nat → Except Fault Bool) (pos : Nat) : Except Fault Nat := do
  return (← scanUp test pos (self.length - pos)).getD npos

def findFirstOfChar (self : List α) (ch : α) (pos : Nat) : Except Fault Nat := findChar self ch pos

def findFirstOf (self str : List α) (pos : Nat) : Except Fault Nat :=
  findFirst self (isAny self str) pos

def findFirstNotOfChar (self : List α) (ch : α) (pos : Nat) : Except Fault Nat :=
  findFirst self (fun position => do return decide (¬ (← read self position) = ch)) pos

def findFirstNotOf (self str : List α) (pos : Nat) : Except Fault Nat :=
  findFirst self (fun position => do return !(← isAny self str position)) pos

/-- The loop of the backward searches for characters of a set. -/
def findLast (self str : List α) (test : Nat → Except Fault Bool) (pos : Nat) : Except Fault Nat :=
  if self.length ≠ 0 ∧ str.length ≠ 0 then do
    let pos := if pos ≥ self.length then self.length - 1 else pos
    return (← scanDown test pos).getD npos
  else .ok npos

def findLastOfChar (self : List α) (ch : α) (pos : Nat) : Except Fault Nat := rfindChar self ch pos

def findLastOf (self str : List α) (pos : Nat) : Except Fault Nat :=
  findLast self str (isAny self str) pos

def findLastNotOf (self str : List α) (pos : Nat) : Except Fault Nat :=
  findLast self str (fun position => do return !(← isAny self str position)) pos

/-! ## Overloads for pointers -/

/-- A member that takes a pointer searches for the substring it makes of it. -/
def viaPointer (search : List α → Nat → Except Fault Nat) (ptr : Pointer α) (pos : Nat) :
    Except Fault Nat := do
  search (← ofPointer nul ptr) pos

/-- A member that takes a pointer and a count searches for the substring it makes of them. -/
def viaCounted (search : List α → Nat → Except Fault Nat) (ptr : Pointer α) (pos count : Nat) :
    Except Fault Nat := do
  search (← ofCounted ptr count) pos

def findPointer (self : List α) := viaPointer nul (find self)
def findCounted (self : List α) := viaCounted (find self)
def rfindPointer (self : List α) := viaPointer nul (rfind self)
def findFirstOfPointer (self : List α) := viaPointer nul (findFirstOf self)
def findFirstOfCounted (self : List α) := viaCounted (findFirstOf self)
def findFirstNotOfPointer (self : List α) := viaPointer nul (findFirstNotOf self)
def findFirstNotOfCounted (self : List α) := viaCounted (findFirstNotOf self)
def findLastOfPointer (self : List α) := viaPointer nul (findLastOf self)
def findLastOfCounted (self : List α) := viaCounted (findLastOf self)
def findLastNotOfPointer (self : List α) := viaPointer nul (findLastNotOf self)
def findLastNotOfCounted (self : List α) := viaCounted (findLastNotOf self)

/-- The count is left aside. -/
def rfindCounted (self : List α) (ptr : Pointer α) (pos _count : Nat) : Except Fault Nat := do
  rfind self (← ofPointer nul ptr) pos

/-- The search members. -/
inductive Finder where
  | find
  | rfind
  | findFirstOf
  | findFirstNotOf
  | findLastOf
  | findLastNotOf
  deriving DecidableEq

/-- What is searched for. -/
inductive Pattern (α : Type) where
  | char (ch : α)
  | subString (str : List α)
  | pointer (ptr : Pointer α)
  | counted (ptr : Pointer α) (count : Nat)

/-- The overload that is called. -/
def search (self : List α) (pos : Nat) : Finder → Pattern α → Except Fault Nat
  | .find, .char ch => findChar self ch pos
  | .find, .subString str => find self str pos
  | .find, .pointer ptr => findPointer nul self ptr pos
  | .find, .counted ptr count => findCounted self ptr pos count
  | .rfind, .char ch => rfindChar self ch pos
  | .rfind, .subString str => rfind self str pos
  | .rfind, .pointer ptr => rfindPointer nul self ptr pos
  | .rfind, .counted ptr count => rfindCounted nul self ptr pos count
  | .findFirstOf, .char ch => findFirstOfChar self ch pos
  | .findFirstOf, .subString str => findFirstOf self str pos
  | .findFirstOf, .pointer ptr => findFirstOfPointer nul self ptr pos
  | .findFirstOf, .counted ptr count => findFirstOfCounted self ptr pos count
  | .findFirstNotOf, .char ch => findFirstNotOfChar self ch pos
  | .findFirstNotOf, .subString str => findFirstNotOf self str pos
  | .findFirstNotOf, .pointer ptr => findFirstNotOfPointer nul self ptr pos
  | .findFirstNotOf, .counted ptr count => findFirstNotOfCounted self ptr pos count
  | .findLastOf, .char ch => findLastOfChar self ch pos
  | .findLastOf, .subString str => findLastOf self str pos
  | .findLastOf, .pointer ptr => findLastOfPointer nul self ptr pos
  | .findLastOf, .counted ptr count => findLastOfCounted self ptr pos count
  -- declared, but without a definition
  | .findLastNotOf, .char _ => .error .undefined
  | .findLastNotOf, .subString str => findLastNotOf self str pos
  | .findLastNotOf, .pointer ptr => findLastNotOfPointer nul self ptr pos
  | .findLastNotOf, .counted ptr count => findLastNotOfCounted self ptr pos count

/-! ## The standard string -/

/-- The characters of a pattern, if it is one that may be given. -/
def Pattern.contents : Pattern α → Option (List α)
  | .char ch => some [ch]
  | .subString str => some str
  | .pointer none => none
  | .pointer (some array) => if nul ∈ array then some (array.takeWhile fun ch => ch ≠ nul) else none
  | .counted none count => if count = 0 then some [] else none
  | .counted (some array) count => if count ≤ array.length then some (array.take count) else none

/-- The positions a function of the standard string looks for. -/
def Finder.Fits (self str : List α) (pos : Nat) : Finder → Nat → Prop
  | .find, position => pos ≤ position ∧ position + str.length ≤ self.length ∧ str <+: self.drop position
  | .rfind, position => position ≤ pos ∧ position + str.length ≤ self.length ∧ str <+: self.drop position
  | .findFirstOf, position => pos ≤ position ∧ ∃ ch ∈ self[position]?, ch ∈ str
  | .findFirstNotOf, position => pos ≤ position ∧ ∃ ch ∈ self[position]?, ch ∉ str
  | .findLastOf, position => position ≤ pos ∧ ∃ ch ∈ self[position]?, ch ∈ str
  | .findLastNotOf, position => position ≤ pos ∧ ∃ ch ∈ self[position]?, ch ∉ str

instance (self str : List α) (pos : Nat) (finder : Finder) :
    DecidablePred (finder.Fits self str pos) := fun _ =>
  match finder with
  | .find | .rfind => inferInstanceAs (Decidable (_ ∧ _ ∧ _ <+: _))
  | .findFirstOf | .findFirstNotOf | .findLastOf | .findLastNotOf =>
    inferInstanceAs (Decidable (_ ∧ ∃ _ ∈ _, _))

/-- The members that search towards the end. -/
def Finder.isForward : Finder → Bool
  | .find | .findFirstOf | .findFirstNotOf => true
  | .rfind | .findLastOf | .findLastNotOf => false

/-- What the function of the standard string returns. -/
def standard (finder : Finder) (self str : List α) (pos : Nat) : Nat :=
  let found :=
    if finder.isForward then lowest (finder.Fits self str pos) (self.length + 1)
    else highest (finder.Fits self str pos) (self.length + 1)
  found.getD npos

section Standard

variable {self str : List α} {pos : Nat} {finder : Finder} {found : Option Nat}

omit [LinearOrder α] in
/-- A position that fits is at most the length. -/
theorem Finder.Fits.lt {position : Nat} (fits : finder.Fits self str pos position) :
    position < self.length + 1 := by
  have inside : ∀ {p : α → Prop}, (∃ ch ∈ self[position]?, p ch) → position < self.length + 1 := by
    rintro p ⟨ch, member, -⟩
    exact Nat.lt_succ_of_lt (List.getElem?_eq_some_iff.mp member).1
  cases finder with
  | find | rfind => exact Nat.lt_succ_of_le (Nat.le_of_add_right_le fits.2.1)
  | findFirstOf | findFirstNotOf | findLastOf | findLastNotOf => exact inside fits.2

omit [LinearOrder α] in
theorem Finder.fits_below (position : Nat) : position < self.length + 1 ∧
    finder.Fits self str pos position ↔ finder.Fits self str pos position :=
  and_iff_right_of_imp Finder.Fits.lt

/-- The lowest position that fits is the standard result of a forward search. -/
theorem standard_of_lowest (forward : finder.isForward = true)
    (isLowest : IsLowest (finder.Fits self str pos) found) :
    found.getD npos = standard finder self str pos := by
  rw [standard, if_pos forward, isLowest.unique ((lowest_below).congr Finder.fits_below)]

/-- The highest position that fits is the standard result of a backward search. -/
theorem standard_of_highest (backward : finder.isForward = false)
    (isHighest : IsHighest (finder.Fits self str pos) found) :
    found.getD npos = standard finder self str pos := by
  rw [standard, backward, if_neg Bool.false_ne_true,
    isHighest.unique ((highest_below).congr Finder.fits_below)]

/-- Functions that look for the same positions from the same side. -/
theorem standard_congr {other : Finder} (direction : finder.isForward = other.isForward)
    (same : ∀ position, finder.Fits self str pos position ↔ other.Fits self str pos position) :
    standard finder self str pos = standard other self str pos := by
  have sameFits : finder.Fits self str pos = other.Fits self str pos :=
    funext fun position => propext (same position)
  unfold standard
  rw [direction]
  simp only [sameFits]

/-- Nothing fits. -/
theorem standard_of_none (nothing : ∀ position, ¬ finder.Fits self str pos position) :
    npos = standard finder self str pos := by
  cases direction : finder.isForward with
  | true => exact @standard_of_lowest _ _ _ _ _ _ none direction nothing
  | false => exact @standard_of_highest _ _ _ _ _ _ none direction nothing

/-- Two patterns are found at the same place, or both nowhere, if the last position of the one is
that of the other. -/
theorem standard_rfind_eq_iff {other : List α} (small : self.length < npos) :
    standard .rfind self other pos = standard .rfind self str pos ↔
      ∀ last, IsHighest (Finder.Fits self other pos .rfind) last ↔
        IsHighest (Finder.Fits self str pos .rfind) last := by
  have own (pattern : List α) : ∃ last, IsHighest (Finder.Fits self pattern pos .rfind) last ∧
      standard .rfind self pattern pos = last.getD npos := by
    refine ⟨_, (highest_below).congr Finder.fits_below, rfl⟩
  have below {pattern : List α} {position : Nat}
      (highest : IsHighest (Finder.Fits self pattern pos .rfind) (some position)) :
      position < npos :=
    Nat.lt_of_le_of_lt (Nat.le_of_lt_succ highest.1.lt) small
  obtain ⟨found, highest, same⟩ := own other
  obtain ⟨found', highest', same'⟩ := own str
  rw [same, same']
  constructor
  · intro equal last
    have lasts : found = found' := by
      cases found with
      | none =>
        cases found' with
        | none => rfl
        | some position => exact absurd equal (below highest').ne'
      | some position =>
        cases found' with
        | none => exact absurd equal (below highest).ne
        | some position' => exact congrArg some equal
    subst lasts
    constructor
    · intro own
      rwa [own.unique highest]
    · intro own
      rwa [own.unique highest']
  · intro lasts
    rw [highest'.unique ((lasts found).mp highest)]

end Standard

/-! ## Reading inside -/

section Reading

variable {self str : List α} {position : Nat}

omit [LinearOrder α] in
theorem read_ok {ch : α} (there : self[position]? = some ch) : read self position = .ok ch := by
  rw [read, there]

/-- The comparison with one character inside of the text. -/
theorem read_eq_iff {ch : α} (inside : position < self.length) :
    (do return decide ((← read self position) = ch) : Except Fault Bool) =
      .ok (decide (self[position]? = some ch)) := by
  rw [read_ok (List.getElem?_eq_getElem inside), List.getElem?_eq_getElem inside]
  simp only [Option.some.injEq]
  rfl

/-- `Traits::find` finds the first occurrence among the characters it is given. -/
theorem traitsFind_ok {first size : Nat} (ch : α) (inside : first + size ≤ self.length) :
    ∃ found, traitsFind self first size ch = .ok found ∧
      IsLowest (fun other => first ≤ other ∧ other < first + size ∧ self[other]? = some ch) found := by
  apply scanUp_ok
  intro other _ below
  exact read_eq_iff (lt_of_lt_of_le below inside)

/-- The test for one of several characters. -/
theorem isAny_ok {str : List α} (inside : position < self.length) :
    isAny self str position = .ok (decide (∃ ch ∈ self[position]?, ch ∈ str)) := by
  have there := List.getElem?_eq_getElem inside
  obtain ⟨found, searched, lowest⟩ := traitsFind_ok self[position] (zero_add str.length).le
  have found_iff : found.isSome = true ↔ ∃ ch ∈ self[position]?, ch ∈ str := by
    rw [there]
    simp only [Option.mem_some_iff, exists_eq_left']
    cases found with
    | none =>
      simp only [Option.isSome_none, Bool.false_eq_true, false_iff]
      intro member
      obtain ⟨other, isThere⟩ := mem_iff_getElem?.mp member
      have below := (List.getElem?_eq_some_iff.mp isThere).1
      exact lowest other ⟨Nat.zero_le _, by rwa [zero_add], isThere⟩
    | some other =>
      simp only [Option.isSome_some, true_iff]
      exact mem_of_getElem? lowest.1.2.2
  rw [isAny, read_ok there]
  change (do return (← traitsFind str 0 str.length self[position]).isSome : Except Fault Bool) = _
  rw [searched]
  exact congrArg Except.ok (Bool.eq_iff_iff.mpr (found_iff.trans decide_eq_true_iff.symm))

/-- `Traits::compare` gives zero exactly for equal characters. -/
theorem traitsCompare_ok {first second size : Nat} (inside : first + size ≤ self.length)
    (inside' : second + size ≤ str.length) :
    ∃ result, traitsCompare self str first second size = .ok result ∧
      (result = 0 ↔ (self.drop first).take size = (str.drop second).take size) := by
  induction size generalizing first second with
  | zero => exact ⟨0, rfl, by simp⟩
  | succ size ih =>
    have here : first < self.length := by omega
    have here' : second < str.length := by omega
    have reads : traitsCompare self str first second (size + 1) =
        if self[first] = str[second] then traitsCompare self str (first + 1) (second + 1) size
        else .ok (if self[first] < str[second] then -1 else 1) := by
      rw [traitsCompare, read_ok (List.getElem?_eq_getElem here), read_ok (List.getElem?_eq_getElem here')]
      rfl
    rw [reads, drop_eq_getElem_cons here, drop_eq_getElem_cons here', take_succ_cons,
      take_succ_cons, List.cons.injEq]
    by_cases same : self[first] = str[second]
    · obtain ⟨result, compared, zero_iff⟩ := @ih (first + 1) (second + 1) (by omega) (by omega)
      exact ⟨result, by rw [if_pos same, compared], by rw [zero_iff, and_iff_right same]⟩
    · refine ⟨if self[first] < str[second] then -1 else 1, if_neg same, ?_⟩
      simp only [same, false_and]
      split_ifs <;> decide

/-- The comparison at one position tells whether the text occurs there. -/
theorem traitsCompare_iff (inside : position + str.length ≤ self.length) :
    (do return decide ((← traitsCompare self str position 0 str.length) = 0) : Except Fault Bool) =
      .ok (decide (str <+: self.drop position)) := by
  obtain ⟨result, compared, zero_iff⟩ := traitsCompare_ok inside (zero_add str.length).le
  rw [drop_zero, take_length, eq_comm (b := str), ← prefix_iff_eq_take] at zero_iff
  rw [compared]
  exact congrArg Except.ok (decide_eq_decide.mpr zero_iff)

end Reading

/-! ## Searches that find what the standard string finds -/

variable {finder : Finder}

section Agreement

variable {self str : List α} {pos : Nat} {length pos position : Nat}

/-- Up to the end of the text the difference does not wrap. -/
theorem available_inside (inside : pos ≤ length) (small : length < npos) :
    getAvailableLength length pos length = length - pos := by
  rw [npos] at small
  rw [getAvailableLength]
  omega

/-- Behind the end the difference wraps around, and everything seems available. -/
theorem available_behind (behind : length < pos) (small : pos ≤ npos) :
    getAvailableLength length pos length = length := by
  rw [npos] at small
  rw [getAvailableLength]
  omega

omit [LinearOrder α] in
/-- A single character occurs where it stands. -/
theorem singleton_prefix_drop {ch : α} :
    [ch] <+: self.drop position ↔ self[position]? = some ch := by
  constructor
  · rintro ⟨rest, split⟩
    rw [← List.head?_drop, ← split]
    rfl
  · intro there
    obtain ⟨inside, same⟩ := List.getElem?_eq_some_iff.mp there
    rw [drop_eq_getElem_cons inside, same]
    exact ⟨_, rfl⟩

/-- `find` of a character is the standard one. -/
theorem findChar_standard {ch : α} {pos : Nat} : findChar self ch pos = .ok (standard .find self [ch] pos) := by
  rw [findChar]
  split_ifs with inside
  · obtain ⟨found, searched, lowest⟩ := @traitsFind_ok _ _ self pos (self.length - pos) ch (by omega)
    rw [searched]
    refine congrArg Except.ok (standard_of_lowest rfl (lowest.congr ?_))
    intro position
    rw [Finder.Fits, singleton_prefix_drop, length_singleton]
    exact and_congr_right fun above => and_congr_left fun there => by omega
  · refine congrArg Except.ok (standard_of_none ?_)
    rintro position ⟨above, below, -⟩
    rw [length_singleton] at below
    omega

/-- A pattern that is not empty, from a start that is not behind the end. -/
theorem find_standard (nonempty : str ≠ []) (inside : pos ≤ self.length) (small : self.length < npos) :
    find self str pos = .ok (standard .find self str pos) := by
  have length_pos := length_pos_iff.mpr nonempty
  rw [find, if_neg (Nat.pos_iff_ne_zero.mp length_pos), available_inside inside small]
  dsimp only
  split_ifs with short
  · refine congrArg Except.ok (standard_of_none ?_)
    rintro position ⟨above, below, -⟩
    omega
  · have searched := @scanUp_ok _ (fun other => str <+: self.drop other) _ _ pos
      (self.length + 1 - str.length - pos) fun other _ below =>
        @traitsCompare_iff _ _ self str other (by omega)
    obtain ⟨found, scanned, lowest⟩ := searched
    rw [stdSearch, if_neg (Nat.not_lt.mpr inside), scanned]
    have isLowest : IsLowest (Finder.find.Fits self str pos) found := by
      apply lowest.congr
      intro position
      exact and_congr_right fun above => and_congr_left fun there => by omega
    rw [← standard_of_lowest rfl isLowest]
    cases found with
    | none => exact congrArg Except.ok (if_neg (not_not.mpr rfl))
    | some position =>
      have below := isLowest.1.2.1
      exact congrArg Except.ok (if_pos (by rw [Option.getD_some]; omega))

/-- A pattern longer than the substring is nowhere. -/
theorem find_longer (longer : self.length < str.length) :
    find self str pos = .ok (standard .find self str pos) := by
  have available : getAvailableLength self.length pos self.length ≤ self.length := min_le_left _ _
  rw [find, if_neg (by omega)]
  rw [if_pos (by omega)]
  refine congrArg Except.ok (standard_of_none ?_)
  rintro position ⟨above, below, -⟩
  omega

/-- Behind the end the wrapped length lets the search begin out of range. -/
theorem find_behind (nonempty : str ≠ []) (behind : self.length < pos) (small : pos ≤ npos)
    (short : str.length ≤ self.length) : find self str pos = .error .invalidRange := by
  have length_pos := length_pos_iff.mpr nonempty
  rw [find, if_neg (Nat.pos_iff_ne_zero.mp length_pos), available_behind behind small]
  rw [if_neg (Nat.not_lt.mpr short), stdSearch, if_pos behind]
  rfl

/-- The standard result for an empty text is the position itself. -/
theorem standard_find_nil : standard .find self [] pos = if pos ≤ self.length then pos else npos := by
  split_ifs with inside
  · have isLowest : IsLowest (Finder.find.Fits self [] pos) (some pos) :=
      ⟨⟨le_refl _, inside, nil_prefix⟩, fun other fits => fits.1⟩
    exact (standard_of_lowest rfl isLowest).symm
  · refine (standard_of_none ?_).symm
    rintro position ⟨above, below, -⟩
    exact inside (le_trans above below)

/-- `rfind` of a character is the standard one. -/
theorem rfindChar_standard {ch : α} {pos : Nat} :
    rfindChar self ch pos = .ok (standard .rfind self [ch] pos) := by
  rw [rfindChar]
  split_ifs with nonempty
  · obtain ⟨found, scanned, highest⟩ := @scanDown_ok _ (fun other => self[other]? = some ch) _ _
      (min (self.length - 1) pos) fun other below => read_eq_iff (by omega)
    dsimp only
    rw [scanned]
    refine congrArg Except.ok (standard_of_highest rfl (highest.congr ?_))
    intro position
    rw [Finder.Fits, singleton_prefix_drop, length_singleton, ← and_assoc]
    exact and_congr_left fun there => by omega
  · refine congrArg Except.ok (standard_of_none ?_)
    rintro position ⟨-, below, -⟩
    rw [length_singleton] at below
    omega

/-- `rfind` of a substring is the standard one. -/
theorem rfind_standard {str : List α} {pos : Nat} : rfind self str pos = .ok (standard .rfind self str pos) := by
  by_cases longer : str.length > self.length
  · rw [rfind, if_pos longer]
    refine congrArg Except.ok (standard_of_none ?_)
    rintro position ⟨-, below, -⟩
    omega
  · rw [rfind, if_neg longer]
    by_cases empty : str.length = 0
    · have isHighest : IsHighest (Finder.rfind.Fits self str pos)
          (some (if pos > self.length then self.length else pos)) := by
        rw [length_eq_zero_iff] at empty
        subst empty
        refine ⟨⟨by split_ifs <;> omega, ?_, nil_prefix⟩, ?_⟩
        · rw [length_nil]
          split_ifs <;> omega
        · rintro other ⟨below, inside, -⟩
          split_ifs <;> omega
      rw [if_pos empty]
      exact congrArg Except.ok (standard_of_highest rfl isHighest)
    · dsimp only
      rw [if_neg empty]
      have start : (if (if pos > self.length then self.length else pos) > self.length - str.length then
          self.length - str.length else if pos > self.length then self.length else pos) =
          min pos (self.length - str.length) := by
        split_ifs <;> omega
      obtain ⟨found, scanned, highest⟩ := @scanDown_ok _ (fun other => str <+: self.drop other) _ _
        (min pos (self.length - str.length)) fun other below =>
          @traitsCompare_iff _ _ self str other (by omega)
      rw [start, scanned]
      refine congrArg Except.ok (standard_of_highest rfl (highest.congr ?_))
      intro position
      rw [Finder.Fits, ← and_assoc]
      exact and_congr_left fun there => by omega

variable {test : Nat → Except Fault Bool} {wanted : Nat → Prop}

/-- The forward loop over a test that does not fail. -/
theorem findFirst_standard (forward : finder.isForward = true)
    [DecidablePred wanted]
    (tests : ∀ position, position < self.length → test position = .ok (decide (wanted position)))
    (fits_iff : ∀ position, finder.Fits self str pos position ↔
      pos ≤ position ∧ position < self.length ∧ wanted position) :
    findFirst self test pos = .ok (standard finder self str pos) := by
  obtain ⟨found, scanned, lowest⟩ := @scanUp_ok _ wanted _ _ pos (self.length - pos) fun other _ below =>
    tests other (by omega)
  rw [findFirst, scanned]
  refine congrArg Except.ok (standard_of_lowest forward (lowest.congr ?_))
  intro position
  rw [fits_iff]
  exact and_congr_right fun above => and_congr_left fun there => by omega

/-- The backward loop, unless the set is empty. -/
theorem findLast_standard (backward : finder.isForward = false) (nonempty : str ≠ [])
    [DecidablePred wanted]
    (tests : ∀ position, position < self.length → test position = .ok (decide (wanted position)))
    (fits_iff : ∀ position, finder.Fits self str pos position ↔
      position ≤ pos ∧ position < self.length ∧ wanted position) :
    findLast self str test pos = .ok (standard finder self str pos) := by
  rw [findLast]
  by_cases empty : self.length = 0
  · rw [if_neg (fun both => both.1 empty)]
    refine congrArg Except.ok (standard_of_none ?_)
    intro position fits
    have inside := ((fits_iff position).mp fits).2.1
    omega
  · rw [if_pos ⟨empty, fun none => nonempty (length_eq_zero_iff.mp none)⟩]
    have start : (if pos ≥ self.length then self.length - 1 else pos) = min pos (self.length - 1) := by
      split_ifs <;> omega
    obtain ⟨found, scanned, highest⟩ := @scanDown_ok _ wanted _ _ (min pos (self.length - 1))
      fun other below => tests other (by omega)
    dsimp only
    rw [start, scanned]
    refine congrArg Except.ok (standard_of_highest backward (highest.congr ?_))
    intro position
    rw [fits_iff, ← and_assoc]
    exact and_congr_left fun there => by omega

omit [LinearOrder α] in
/-- A condition on the character at a position, as the tests see it. -/
theorem exists_mem_iff {p : α → Prop} :
    (∃ ch ∈ self[position]?, p ch) ↔ position < self.length ∧ ∃ ch ∈ self[position]?, p ch := by
  constructor
  · rintro ⟨ch, there, holds⟩
    exact ⟨(List.getElem?_eq_some_iff.mp there).1, ch, there, holds⟩
  · exact fun both => both.2

/-- The test for none of several characters. -/
theorem notAny_ok {str : List α} (inside : position < self.length) :
    (do return !(← isAny self str position) : Except Fault Bool) =
      .ok (decide (∃ ch ∈ self[position]?, ch ∉ str)) := by
  have there := List.getElem?_eq_getElem inside
  rw [isAny_ok inside]
  simp [there]

theorem findFirstOf_standard {str : List α} {pos : Nat} :
    findFirstOf self str pos = .ok (standard .findFirstOf self str pos) :=
  findFirst_standard rfl (fun _ inside => isAny_ok inside) fun _ => and_congr_right' exists_mem_iff

theorem findFirstNotOf_standard {str : List α} {pos : Nat} :
    findFirstNotOf self str pos = .ok (standard .findFirstNotOf self str pos) :=
  findFirst_standard rfl (fun _ inside => notAny_ok inside) fun _ => and_congr_right' exists_mem_iff

theorem findFirstNotOfChar_standard {ch : α} {pos : Nat} :
    findFirstNotOfChar self ch pos = .ok (standard .findFirstNotOf self [ch] pos) := by
  have tests : ∀ position, position < self.length →
      (do return decide (¬ (← read self position) = ch) : Except Fault Bool) =
        .ok (decide (∃ other ∈ self[position]?, other ∉ [ch])) := by
    intro position inside
    have there := List.getElem?_eq_getElem inside
    rw [read_ok there]
    simp [there]
  exact findFirst_standard rfl tests fun _ => and_congr_right' exists_mem_iff

omit [LinearOrder α] in
/-- One character is a pattern and a set of characters alike. -/
theorem exists_mem_singleton {ch : α} :
    (∃ other ∈ self[position]?, other ∈ [ch]) ↔
      position + [ch].length ≤ self.length ∧ [ch] <+: self.drop position := by
  rw [singleton_prefix_drop]
  simp only [mem_singleton, exists_eq_right]
  exact ⟨fun there => ⟨(List.getElem?_eq_some_iff.mp there).1, there⟩, fun both => both.2⟩

theorem findFirstOfChar_standard {ch : α} {pos : Nat} :
    findFirstOfChar self ch pos = .ok (standard .findFirstOf self [ch] pos) := by
  rw [findFirstOfChar, findChar_standard]
  exact congrArg Except.ok (standard_congr rfl fun _ => and_congr_right' exists_mem_singleton.symm)

theorem findLastOfChar_standard {ch : α} {pos : Nat} :
    findLastOfChar self ch pos = .ok (standard .findLastOf self [ch] pos) := by
  rw [findLastOfChar, rfindChar_standard]
  exact congrArg Except.ok (standard_congr rfl fun _ => and_congr_right' exists_mem_singleton.symm)

theorem findLastOf_standard {str : List α} {pos : Nat} :
    findLastOf self str pos = .ok (standard .findLastOf self str pos) := by
  by_cases nonempty : str = []
  · subst nonempty
    rw [findLastOf, findLast, if_neg (fun both => both.2 rfl)]
    refine congrArg Except.ok (standard_of_none ?_)
    rintro position ⟨-, ch, -, member⟩
    exact absurd member not_mem_nil
  · exact findLast_standard rfl nonempty (fun _ inside => isAny_ok inside) fun _ =>
      and_congr_right' exists_mem_iff

/-- Where an empty set makes no difference. -/
theorem findLastNotOf_iff {str : List α} {pos : Nat} (small : self.length < npos) :
    findLastNotOf self str pos = .ok (standard .findLastNotOf self str pos) ↔ str ≠ [] ∨ self = [] := by
  by_cases nonempty : str = []
  · subst nonempty
    rw [findLastNotOf, findLast, if_neg (fun both => both.2 rfl)]
    simp only [ne_eq, not_true_eq_false, false_or, Except.ok.injEq]
    constructor
    · intro same
      by_contra someChars
      have length_pos := length_pos_iff.mpr someChars
      have isHighest : IsHighest (Finder.findLastNotOf.Fits self [] pos) (some (min pos (self.length - 1))) := by
        have inside : min pos (self.length - 1) < self.length := by omega
        refine ⟨⟨min_le_left _ _, self[min pos (self.length - 1)],
          List.getElem?_eq_getElem inside, not_mem_nil⟩, ?_⟩
        rintro other ⟨below, ch, there, -⟩
        have within := (List.getElem?_eq_some_iff.mp there).1
        omega
      rw [← standard_of_highest rfl isHighest, Option.getD_some] at same
      omega
    · intro nothing
      subst nothing
      apply standard_of_none
      rintro position ⟨-, ch, there, -⟩
      exact absurd there (by simp)
  · simp only [ne_eq, nonempty, not_false_eq_true, true_or, iff_true]
    exact findLast_standard rfl nonempty (fun _ inside => notAny_ok inside) fun _ =>
      and_congr_right' exists_mem_iff

/-- Where the forward search agrees: an empty pattern from the beginning of a substring
that is not empty or from behind its end, another one from a start that is not behind the
end or if it is too long. -/
def FindAgrees (self str : List α) (pos : Nat) : Prop :=
  (str = [] ∧ ((pos = 0 ∧ self ≠ []) ∨ self.length < pos)) ∨
    (str ≠ [] ∧ (pos ≤ self.length ∨ self.length < str.length))

/-- `find` of a substring is the standard one exactly if its condition holds. -/
theorem find_iff {str : List α} (small : self.length < npos) (position : pos ≤ npos) :
    find self str pos = .ok (standard .find self str pos) ↔ FindAgrees self str pos := by
  by_cases nonempty : str = []
  · subst nonempty
    have length_zero : self = [] ↔ self.length = 0 := length_eq_zero_iff.symm
    rw [find, if_pos length_nil, standard_find_nil, FindAgrees, Except.ok.injEq, ne_eq, length_zero]
    simp only [true_and, not_true_eq_false, false_and, or_false, ne_eq]
    split_ifs <;> omega
  · rw [FindAgrees]
    simp only [nonempty, false_and, ne_eq, not_false_eq_true, true_and, false_or]
    constructor
    · intro agrees
      by_contra neither
      rw [not_or, not_le, not_lt] at neither
      rw [find_behind nonempty neither.1 position neither.2] at agrees
      exact absurd agrees (by simp)
    · rintro (inside | longer)
      · exact find_standard nonempty inside small
      · exact find_longer longer

end Agreement

/-! ## All overloads -/

section Overloads

variable {nul} {self str : List α} {pos count : Nat} {ptr : Pointer α}

/-- The length of a terminated array. -/
theorem traitsLength_mem {array : List α} (ends : nul ∈ array) :
    traitsLength nul array = .ok (array.takeWhile fun ch => ch ≠ nul).length := by
  induction array with
  | nil => exact absurd ends not_mem_nil
  | cons ch rest ih =>
    rw [traitsLength]
    by_cases here : ch = nul
    · simp [here]
      rfl
    · have later : nul ∈ rest := (mem_cons.mp ends).resolve_left (Ne.symm here)
      rw [if_neg here, ih later, takeWhile_cons_of_pos (by simpa using here)]
      rfl

/-- An array without an end is read past its end. -/
theorem traitsLength_notMem {array : List α} (unterminated : nul ∉ array) :
    traitsLength nul array = .error .outside := by
  induction array with
  | nil => rfl
  | cons ch rest ih =>
    rw [mem_cons, not_or] at unterminated
    rw [traitsLength, if_neg (Ne.symm unterminated.1), ih unterminated.2]
    rfl

/-- A valid pointer gives the text it points to. -/
theorem ofPointer_contents (contents : (Pattern.pointer ptr).contents nul = some str) :
    ofPointer nul ptr = .ok str := by
  cases ptr with
  | none => exact absurd contents (by simp [Pattern.contents])
  | some array =>
    obtain ⟨ends, same⟩ := Option.ite_none_right_eq_some.mp contents
    rw [ofPointer, traitsLength_mem ends, ← Option.some.inj same]
    exact congrArg Except.ok (prefix_iff_eq_take.mp (List.takeWhile_prefix _)).symm

/-- No other pointer gives a text. -/
theorem ofPointer_invalid (invalid : (Pattern.pointer ptr).contents nul = none) :
    ∃ fault, ofPointer nul ptr = .error fault := by
  cases ptr with
  | none => exact ⟨_, rfl⟩
  | some array =>
    rw [Pattern.contents] at invalid
    have unterminated : nul ∉ array := by
      intro ends
      rw [if_pos ends] at invalid
      exact absurd invalid (by simp)
    rw [ofPointer, traitsLength_notMem unterminated]
    exact ⟨_, rfl⟩

theorem ofCounted_contents (contents : (Pattern.counted ptr count).contents nul = some str) :
    ofCounted ptr count = .ok str := by
  cases ptr with
  | none =>
    obtain ⟨zero, same⟩ := Option.ite_none_right_eq_some.mp contents
    rw [ofCounted, if_pos zero, Option.some.inj same]
  | some array =>
    obtain ⟨inside, same⟩ := Option.ite_none_right_eq_some.mp contents
    rw [ofCounted, if_pos inside, Option.some.inj same]

/-- Where a call agrees with the standard string. The backward search for a counted pattern looks
for the characters before the null character; it agrees if their last position is that of the
counted ones, or neither stands anywhere. -/
def Agrees (nul : α) (self str : List α) (pos : Nat) : Finder → Pattern α → Prop
  | .find, .char _ => True
  | .find, _ => FindAgrees self str pos
  | .rfind, .counted ptr _ =>
    ∃ terminated, (Pattern.pointer ptr).contents nul = some terminated ∧
      ∀ last, IsHighest (Finder.Fits self terminated pos .rfind) last ↔
        IsHighest (Finder.Fits self str pos .rfind) last
  | .findLastNotOf, .char _ => False
  | .findLastNotOf, _ => str ≠ [] ∨ self = []
  | _, _ => True

/-- A string given by a pointer is searched for as a substring. -/
theorem search_pointer (finder : Finder) (contents : (Pattern.pointer ptr).contents nul = some str) :
    search nul self pos finder (.pointer ptr) = search nul self pos finder (.subString str) := by
  have base : ∀ base : List α → Nat → Except Fault Nat, viaPointer nul base ptr pos = base str pos := by
    intro base
    rw [viaPointer, ofPointer_contents contents]
    rfl
  cases finder <;> exact base _

/-- All counted members but `rfind` search for the characters that are counted. -/
theorem search_counted (forward : finder ≠ .rfind)
    (contents : (Pattern.counted ptr count).contents nul = some str) :
    search nul self pos finder (.counted ptr count) = search nul self pos finder (.subString str) := by
  have base : ∀ base : List α → Nat → Except Fault Nat, viaCounted base ptr pos count = base str pos := by
    intro base
    rw [viaCounted, ofCounted_contents contents]
    rfl
  cases finder with
  | rfind => exact absurd rfl forward
  | find | findFirstOf | findFirstNotOf | findLastOf | findLastNotOf => exact base _

/-- The members that take a substring. -/
theorem search_subString_iff {finder : Finder} (small : self.length < npos) (position : pos ≤ npos) :
    search nul self pos finder (.subString str) = .ok (standard finder self str pos) ↔
      Agrees nul self str pos finder (.subString str) := by
  cases finder with
  | find => exact find_iff small position
  | rfind => exact iff_of_true rfind_standard trivial
  | findFirstOf => exact iff_of_true findFirstOf_standard trivial
  | findFirstNotOf => exact iff_of_true findFirstNotOf_standard trivial
  | findLastOf => exact iff_of_true findLastOf_standard trivial
  | findLastNotOf => exact findLastNotOf_iff small

/-- With the count left aside, the string up to the null character is searched. -/
theorem rfindCounted_iff {str : List α} (small : self.length < npos) (count : Nat) :
    rfindCounted nul self ptr pos count = .ok (standard .rfind self str pos) ↔
      ∃ terminated, (Pattern.pointer ptr).contents nul = some terminated ∧
        ∀ last, IsHighest (Finder.Fits self terminated pos .rfind) last ↔
          IsHighest (Finder.Fits self str pos .rfind) last := by
  cases contents : (Pattern.pointer ptr).contents nul with
  | none =>
    obtain ⟨fault, fails⟩ := ofPointer_invalid contents
    rw [rfindCounted, fails]
    simp only [reduceCtorEq, false_and, exists_false, iff_false]
    intro same
    cases same
  | some terminated =>
    rw [rfindCounted, ofPointer_contents contents]
    change rfind self terminated pos = _ ↔ _
    rw [rfind_standard, Except.ok.injEq, standard_rfind_eq_iff small]
    simp only [Option.some.injEq, exists_eq_left']

/-- Every overload, on every substring, pattern and start. -/
theorem search_standard_iff (nul : α) (finder : Finder) {self : List α} (small : self.length < npos)
    {pos : Nat} (position : pos ≤ npos) {pattern : Pattern α} {str : List α}
    (contents : pattern.contents nul = some str) :
    search nul self pos finder pattern = .ok (standard finder self str pos) ↔
      Agrees nul self str pos finder pattern := by
  cases pattern with
  | char ch =>
    rw [Pattern.contents, Option.some.injEq] at contents
    subst contents
    cases finder with
    | find => exact iff_of_true findChar_standard trivial
    | rfind => exact iff_of_true rfindChar_standard trivial
    | findFirstOf => exact iff_of_true findFirstOfChar_standard trivial
    | findFirstNotOf => exact iff_of_true findFirstNotOfChar_standard trivial
    | findLastOf => exact iff_of_true findLastOfChar_standard trivial
    | findLastNotOf => exact iff_of_false (by intro same; cases same) id
  | subString given =>
    rw [Pattern.contents, Option.some.injEq] at contents
    subst contents
    exact search_subString_iff small position
  | pointer ptr =>
    rw [search_pointer finder contents, search_subString_iff small position]
    cases finder <;> exact Iff.rfl
  | counted ptr count =>
    cases finder with
    | rfind => exact rfindCounted_iff small count
    | find | findFirstOf | findFirstNotOf | findLastOf | findLastNotOf =>
      rw [search_counted (by decide) contents]
      exact search_subString_iff small position

/-- Two characters of an array are found from a start inside. -/
theorem search_counted_found :
    search 0 [1, 2, 1, 2] 1 .find (.counted (some [1, 2, 3, 0]) 2) = .ok 2 := by
  have agrees : Agrees 0 [1, 2, 1, 2] [1, 2] 1 .find (.counted (some [1, 2, 3, 0]) 2) :=
    Or.inr ⟨by decide, Or.inl (by decide)⟩
  exact (@search_standard_iff Nat _ 0 .find [1, 2, 1, 2] (by decide) 1 (by decide) _ [1, 2] rfl).mpr agrees

/-- Searched backward, all characters of the array count, and nothing is found. -/
theorem search_count_ignored :
    search 0 [1, 2, 1, 2] npos .rfind (.counted (some [1, 2, 3, 0]) 2) = .ok npos ∧
      (Pattern.counted (some [1, 2, 3, 0]) 2).contents 0 = some [1, 2] ∧
      standard .rfind [1, 2, 1, 2] [1, 2] npos = 2 := by
  decide +kernel

end Overloads

end UnixCommons.Text.SubString
