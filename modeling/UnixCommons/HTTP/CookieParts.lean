import UnixCommons.HTTP.HTTPCookie

/-!
# The parts of a cookie header

A header is a sequence of parts between semicolons, which are read from the last one to the
first one, and every part is read as a name with a value. So reading a header that was
written is reading the names and values of its group of cookies behind those of the
attributes.
-/

namespace UnixCommons.HTTP

open Generics Cut List

/-! ## A header as a sequence of parts -/

/-- The parse of a part, with what stands behind its first equality sign. -/
def parsePart (reader : Reader) (header : List Char) (state : Parsing) (part : List Char) :
    Except String Parsing :=
  parseValue reader header state part (cutAt '=' part).2

variable {text name value : List Char}

section Scan

variable {reader : Reader} {header : List Char}

theorem cutAt_cons_ne {ch : Char} (other : ch ≠ '=') {part : List Char} :
    (cutAt '=' (ch :: part)).2 = (cutAt '=' part).2 := by
  have step : (ch :: part).dropWhile (· ≠ '=') = part.dropWhile (· ≠ '=') := by
    simp [other]
  unfold cutAt
  rw [step]
  split <;> rfl

/-- Characters without a semicolon become the beginning of the part. -/
theorem scanHeader_solid (solid : ';' ∉ text) (rest part : List Char) (atBegin : Bool)
    (state : Parsing) :
    scanHeader (parseValue reader header) (text ++ rest) atBegin part (cutAt '=' part).2 state =
      scanHeader (parseValue reader header) rest (atBegin && text.isEmpty) (text.reverse ++ part)
        (cutAt '=' (text.reverse ++ part)).2 state := by
  induction text generalizing part atBegin with
  | nil => simp
  | cons ch text ih =>
    simp only [mem_cons, not_or] at solid
    obtain ⟨first, others⟩ := solid
    rw [cons_append, scanHeader, if_neg (Ne.symm first)]
    have moved : (ch :: text).reverse ++ part = text.reverse ++ ch :: part := by simp
    rw [moved, isEmpty_cons, Bool.and_false]
    split_ifs with equality
    · subst equality
      exact ih others ('=' :: part) false
    · rw [← cutAt_cons_ne equality]
      exact ih others (ch :: part) false

/-- The parts of a header behind the first one, each with its semicolon. -/
def behind (parts : List (List Char)) : List Char := parts.flatMap (';' :: ·)

/-- Reads the parts from the last one to the first one. -/
def readParts (reader : Reader) (header : List Char) (parts : List (List Char)) (state : Parsing) :
    Except String Parsing :=
  parts.foldrM (fun part state => parsePart reader header state part) state

/-- The loop through a header reads its parts, if the last one is not empty or something
has been passed before it. -/
theorem scanHeader_parts {first : List Char} (firstSolid : ';' ∉ first) {others : List (List Char)}
    (solid : ∀ part ∈ others, ';' ∉ part) {atBegin : Bool}
    (begun : atBegin = true → (first :: others).getLast? ≠ some []) (state : Parsing) :
    scanHeader (parseValue reader header) (first ++ behind others).reverse atBegin [] none state =
      readParts reader header (first :: others) state := by
  have unmarked : (none : Option (List Char)) = (cutAt '=' ([] : List Char)).2 := rfl
  induction others using List.reverseRecOn generalizing atBegin state with
  | nil =>
    have passed : (atBegin && first.reverse.isEmpty) = false := by
      cases atBegin with
      | false => rfl
      | true => simpa using begun rfl
    rw [behind, flatMap_nil, append_nil, ← append_nil first.reverse, unmarked,
      scanHeader_solid (by simpa using firstSolid), passed, scanHeader]
    simp [readParts, parsePart]
  | append_singleton others last ih =>
    have passed : (atBegin && last.reverse.isEmpty) = false := by
      cases atBegin with
      | false => rfl
      | true =>
        have nonempty := begun rfl
        rw [← cons_append, List.getLast?_concat] at nonempty
        simpa using nonempty
    have lastSolid : ';' ∉ last := solid last (by simp)
    have split : (first ++ behind (others ++ [last])).reverse =
        last.reverse ++ ';' :: (first ++ behind others).reverse := by
      simp [behind]
    have lastFirst : readParts reader header (first :: (others ++ [last])) state =
        parsePart reader header state last >>= readParts reader header (first :: others) := by
      rw [readParts, ← cons_append, foldrM_append, foldrM_cons]
      rfl
    rw [split, unmarked, scanHeader_solid (by simpa using lastSolid), passed, reverse_reverse, append_nil, lastFirst]
    refine congrArg (parsePart reader header state last >>= ·) (funext fun next => ?_)
    exact ih (fun part inside => solid part (by simp [inside]))
      (fun impossible => absurd impossible Bool.false_ne_true) next

end Scan

/-! ## Parts as names and values -/

/-- Texts without semicolons and without spaces at their ends. -/
structure Tidy (text : List Char) : Prop where
  noSemicolon : ';' ∉ text
  first : ∀ ch ∈ text.head?, isSpace ch = false
  last : ∀ ch ∈ text.getLast?, isSpace ch = false

/-- A tidy text, by its characters. -/
theorem tidy_iff : Tidy text ↔
    ';' ∉ text ∧ text.head?.all (!isSpace ·) = true ∧ text.getLast?.all (!isSpace ·) = true := by
  simp only [Option.all_eq_true, Bool.not_eq_true']
  exact ⟨fun tidy => ⟨tidy.noSemicolon, tidy.first, tidy.last⟩, fun ⟨solid, first, last⟩ =>
    ⟨solid, first, last⟩⟩

instance (text : List Char) : Decidable (Tidy text) := decidable_of_iff _ tidy_iff.symm

theorem trim_blank (text : List Char) : trim (' ' :: text) = trim text := by
  simp [trim, show isSpace ' ' = true from rfl]

/-- A tidy text is not trimmed. -/
theorem Tidy.trim_eq (tidy : Tidy text) : trim text = text := by
  have front : text.dropWhile isSpace = text := by
    cases text with
    | nil => rfl
    | cons ch text => exact dropWhile_cons_of_neg (by simp [tidy.first ch rfl])
  rw [trim, front, rdropWhile_eq_self_iff]
  intro nonempty
  simpa using tidy.last _ (List.getLast?_eq_some_getLast nonempty)

/-- A part that is read as a name with a value. -/
structure ReadAs (part : List Char) (pair : List Char × List Char) : Prop where
  solid : ';' ∉ part
  nonempty : part ≠ []
  parsed : ∀ reader header state,
    parsePart reader header state part = parseNamed reader header state pair.1 pair.2

/-- The parse of a name and a value with an equality sign between them. -/
theorem parsePart_equality (noEquality : '=' ∉ name) (value : List Char) (reader : Reader)
    (header : List Char) (state : Parsing) :
    parsePart reader header state (name ++ '=' :: value) =
      parseNamed reader header state (trim name) (trim value) := by
  have front : (name ++ '=' :: value).take
      ((name ++ '=' :: value).length - value.length - 1) = name := by
    have size : (name ++ '=' :: value).length - value.length - 1 = name.length := by
      simp only [length_append, length_cons]
      omega
    rw [size, take_left]
  rw [parsePart, cutAt_cut noEquality]
  simp only [parseValue, front]

/-- A cookie is read as its name and its value. -/
theorem readAs_first (nameTidy : Tidy name) (noEquality : '=' ∉ name) (valueTidy : Tidy value) :
    ReadAs (name ++ '=' :: value) (name, value) where
  solid := by simp [nameTidy.noSemicolon, valueTidy.noSemicolon]
  nonempty := by simp
  parsed reader header state := by
    rw [parsePart_equality noEquality, nameTidy.trim_eq, valueTidy.trim_eq]

/-- The parts behind the first one begin with a space. -/
theorem readAs_other (nameTidy : Tidy name) (noEquality : '=' ∉ name) (valueTidy : Tidy value) :
    ReadAs (' ' :: (name ++ '=' :: value)) (name, value) where
  solid := by simp [nameTidy.noSemicolon, valueTidy.noSemicolon]
  nonempty := cons_ne_nil _ _
  parsed reader header state := by
    have apart : '=' ∉ ' ' :: name := by simp [noEquality]
    rw [← cons_append, parsePart_equality apart, trim_blank, nameTidy.trim_eq,
      valueTidy.trim_eq]

theorem readAs_secure : ReadAs (' ' :: secureName) (secureName, []) where
  solid := by decide
  nonempty := by decide
  parsed _ _ _ := rfl

variable {pairs : List (List Char × List Char)} {parts : List (List Char)}

theorem readAs_of_mem (read : List.Forall₂ ReadAs parts pairs) :
    ∀ part ∈ parts, ∃ pair, ReadAs part pair := by
  induction read with
  | nil => exact nofun
  | cons first others ih =>
    exact forall_mem_cons.mpr ⟨⟨_, first⟩, ih⟩

/-- Reads names with values from the last one to the first one. -/
def readPairs (reader : Reader) (header : List Char) (pairs : List (List Char × List Char))
    (state : Parsing) : Except String Parsing :=
  pairs.foldrM (fun pair state => parseNamed reader header state pair.1 pair.2) state

section

variable (reader : Reader) (header : List Char)
include reader header

theorem readPairs_nil (state : Parsing) : readPairs reader header [] state = .ok state := by
  simp [readPairs, pure, Except.pure]

/-- The pairs are read from the last one on. -/
theorem readPairs_cons (pair : List Char × List Char) (pairs : List (List Char × List Char))
    (state : Parsing) :
    readPairs reader header (pair :: pairs) state =
      readPairs reader header pairs state >>= (parseNamed reader header · pair.1 pair.2) := by
  simp [readPairs]

/-- Two sequences of pairs, one behind the other. -/
theorem readPairs_append (front back : List (List Char × List Char)) (state : Parsing) :
    readPairs reader header (front ++ back) state =
      readPairs reader header back state >>= readPairs reader header front := by
  rw [readPairs, foldrM_append]
  rfl

end

/-- The parts are read as their pairs. -/
theorem readParts_pairs (read : List.Forall₂ ReadAs parts pairs) (reader : Reader)
    (header : List Char) (state : Parsing) :
    readParts reader header parts state = readPairs reader header pairs state := by
  induction read with
  | nil => rfl
  | cons first others ih =>
    rw [readParts, readPairs, foldrM_cons, foldrM_cons, ← readParts, ih]
    exact congrArg (_ >>= ·) (funext fun next => first.parsed reader header next)

/-! ## What is written -/

/-- The cookies that are considered: not expired, with a host's name in lower case, a path
from the root, whole seconds from 1970 to 2099, and texts that do not disturb a header. -/
structure CookieDef.Fit (now : Timeval) (cookie : CookieDef) : Prop where
  name : Tidy cookie.name
  value : Tidy cookie.value
  domain : Tidy cookie.domain
  path : Tidy cookie.path
  named : cookie.name ≠ []
  noEquality : '=' ∉ cookie.name
  lowerCase : cookie.domain.map Char.toLower = cookie.domain
  host : cookie.domain ≠ [] ∧ cookie.domain ≠ ['.']
  absolute : cookie.path.head? = some '/'
  since : 0 ≤ cookie.expires.tvSec
  until2100 : cookie.expires.tvSec < 4102444800
  whole : cookie.expires.tvUsec = 0
  unexpired : cookie.expires = .zero ∨ cookie.expires.less now = false

def CookieDef.pair (cookie : CookieDef) : List Char × List Char := (cookie.name, cookie.value)

/-- The attributes as they are written, with the date of the expiration time. -/
def attributePairs (cookie : CookieDef) (date : List Char) : List (List Char × List Char) :=
  (if cookie.expires ≠ .zero then [(expiresName, date)] else []) ++
    [(domainName, cookie.domain), (pathName, cookie.path)] ++
    (if cookie.secure then [(secureName, [])] else [])

section Written

variable {now : Timeval} {cookie : CookieDef}

theorem CookieDef.Fit.path_ne_nil (fit : cookie.Fit now) : cookie.path ≠ [] := by
  intro empty
  have absolute := fit.absolute
  rw [empty] at absolute
  exact absurd absolute nofun

/-- An attribute is read as its name and its value. -/
theorem readAs_attribute (isName : name ∈ [expiresName, domainName, pathName]) (tidy : Tidy value) :
    ReadAs (' ' :: (name ++ '=' :: value)) (name, value) := by
  have named : ∀ other ∈ [expiresName, domainName, pathName], Tidy other ∧ '=' ∉ other := by
    simp only [forall_mem_cons]
    refine ⟨⟨?_, ?_⟩, ⟨?_, ?_⟩, ⟨?_, ?_⟩, nofun⟩ <;> decide
  obtain ⟨nameTidy, noEquality⟩ := named name isName
  exact readAs_other nameTidy noEquality tidy

/-- The attributes are written as parts that are read as such. -/
theorem attributesText_parts (fit : cookie.Fit now) :
    ∃ date parts, attributesText cookie = .ok (behind parts) ∧
      List.Forall₂ ReadAs parts (attributePairs cookie date) ∧ getExpires date = .ok cookie.expires := by
  obtain ⟨date, printed, read⟩ := cookieDate_printed fit.since fit.until2100 fit.whole
  have dateTidy : Tidy date := ⟨read.noSemicolon, read.first, read.last⟩
  have expiresPart : ReadAs (' ' :: (expiresName ++ '=' :: date)) (expiresName, date) :=
    readAs_attribute (by simp) dateTidy
  have domainPart : ReadAs (' ' :: (domainName ++ '=' :: cookie.domain)) (domainName, cookie.domain) :=
    readAs_attribute (by simp) fit.domain
  have pathPart : ReadAs (' ' :: (pathName ++ '=' :: cookie.path)) (pathName, cookie.path) :=
    readAs_attribute (by simp) fit.path
  have domainWritten : cookie.domain.isEmpty = false := isEmpty_eq_false_iff.mpr fit.host.1
  have pathWritten : cookie.path.isEmpty = false := isEmpty_eq_false_iff.mpr fit.path_ne_nil
  refine ⟨date,
    (if cookie.expires ≠ .zero then [' ' :: (expiresName ++ '=' :: date)] else []) ++
      [' ' :: (domainName ++ '=' :: cookie.domain), ' ' :: (pathName ++ '=' :: cookie.path)] ++
      (if cookie.secure then [' ' :: secureName] else []), ?_, ?_, read.read⟩
  · by_cases session : cookie.expires = .zero <;> cases secured : cookie.secure <;>
      simp [attributesText, session, secured, printed, domainWritten, pathWritten, behind,
        attributeText, pure, Except.pure, bind, Except.bind]
  · have optional : ∀ {condition : Prop} [Decidable condition] {part : List Char}
        {pair : List Char × List Char}, ReadAs part pair →
        List.Forall₂ ReadAs (if condition then [part] else []) (if condition then [pair] else []) := by
      intro condition _ part pair readAs
      split_ifs
      · exact .cons readAs .nil
      · exact .nil
    exact rel_append (rel_append (optional expiresPart)
      (.cons domainPart (.cons pathPart .nil))) (optional readAs_secure)

/-- The pairs of a group are written as parts that are read as such. -/
theorem pairsText_parts {first : CookieDef} {others : List CookieDef}
    (fit : ∀ cookie ∈ first :: others, cookie.Fit now) :
    ∃ parts, pairsText (first :: others) = pairText first ++ behind parts ∧
      List.Forall₂ ReadAs (pairText first :: parts) ((first :: others).map CookieDef.pair) := by
  obtain ⟨firstFit, othersFit⟩ := forall_mem_cons.mp fit
  refine ⟨others.map fun other => ' ' :: pairText other, ?_, ?_⟩
  · simp [pairsText, behind, flatMap_map]
  · refine .cons (readAs_first firstFit.name firstFit.noEquality firstFit.value) ?_
    rw [forall₂_map_left_iff, forall₂_map_right_iff, forall₂_same]
    intro other inside
    have otherFit := othersFit other inside
    exact readAs_other otherFit.name otherFit.noEquality otherFit.value

end Written

end UnixCommons.HTTP
