import UnixCommons.HTTP.UrlCheckers
import UnixCommons.HTTP.UrlText

/-!
# Addresses made from components and from other addresses

The text of an address that was made from components is split into these components again.
A copy is made from the parts of its original, so it agrees with it exactly if the text of
the original is what its parts are put together to. Whether it is depends on the way the
address came to be, its route: on the given text, or on the components. Assignment of an
address to itself clears the parts before it reads their sizes.
-/

namespace UnixCommons.HTTP

open Outcome List HTTPAddress UrlParts

/-! ## Components -/

/-- Characters that a valid part cannot have. -/
theorem marks_apart {category : Char → Bool} {marks : List Char}
    (foreign : (marks.all fun mark => !category mark &&
      !(mark == '%' || Category.hexNumber mark)) = true)
    {text : List Char} (valid : isValidEncoded text category = true) :
    ∀ ch ∈ text, marks.contains ch = false := by
  intro ch inside
  by_contra marked
  simp only [Bool.not_eq_false, contains_eq_mem, decide_eq_true_eq] at marked
  have notOwned := all_eq_true.mp foreign ch marked
  simp only [Bool.and_eq_true, Bool.not_eq_true'] at notOwned
  exact apart_of_valid valid notOwned.1 notOwned.2 inside

/-- The marks are not in a text of valid characters. -/
theorem chars_apart {category : Char → Bool} {marks : List Char}
    (foreign : (marks.all fun mark => !category mark) = true) {text : List Char}
    (valid : isValidChars text category = true) : ∀ ch ∈ text, marks.contains ch = false := by
  intro ch inside
  by_contra marked
  simp only [Bool.not_eq_false, contains_eq_mem, decide_eq_true_eq] at marked
  have owned := all_eq_true.mp valid ch inside
  have notOwned := all_eq_true.mp foreign ch marked
  simp [owned] at notOwned

theorem not_mem_of_apart {text marks : List Char} (apart : ∀ ch ∈ text, marks.contains ch = false)
    {mark : Char} (listed : mark ∈ marks) : mark ∉ text := by
  intro inside
  simpa [listed] using apart mark inside

variable {parts : UrlParts}

/-- Parts that pass the checks can be told apart in their text. -/
theorem separated_of_valid (flagged : parts.Flagged) (valid : PartsValid parts)
    (scheme : parts.scheme ≠ []) (schemeChars : ∀ ch ∈ parts.scheme, Category.schemeEnd ch = false)
    (host : parts.host ≠ []) (path : parts.path ≠ []) : Separated parts := by
  have hostChars : isValidChars parts.host Category.host = true := by
    have hostValid := valid.host
    simp only [HTTP.hostValid, Bool.and_eq_true] at hostValid
    exact hostValid.1.2
  have userinfoMarks := @marks_apart Category.userInfo ['@', '/', '?', '#'] (by decide) _ valid.userinfo
  have hostMarks := @chars_apart Category.host ['@', ':', '/', '?', '#'] (by decide) _ hostChars
  exact {
    flagged := flagged
    scheme := scheme
    schemeChars := schemeChars
    userinfo := @marks_apart Category.userInfo ['/', '?', '#'] (by decide) _ valid.userinfo
    userinfoEnd := not_mem_of_apart userinfoMarks (by decide)
    host := host
    hostChars := @chars_apart Category.host ['/', '?', '#'] (by decide) _ hostChars
    hostBegin := not_mem_of_apart hostMarks (by decide)
    hostEnd := not_mem_of_apart hostMarks (by decide)
    port := valid.port
    path := valid.rooted.resolve_left path
    pathChars := @marks_apart Category.path ['?', '#'] (by decide) _ valid.path
    query := by
      intro ch inside
      have apart := @marks_apart Category.query ['#'] (by decide) _ valid.query ch inside
      simpa [Category.queryEnd] using apart }

/-- The text of parts that pass the checks is split into the same address. -/
theorem urlWithoutCheck_assemble (separated : Separated parts) :
    URLAddress.urlWithoutCheck parts.assemble = assignUrlParts parts := by
  have nonempty : parts.assemble.isEmpty = false := by
    simp [assemble, separated.scheme]
  have split := separated.splitUrl_assemble
  have cut := assignUrlParts_parts separated.flagged
  simp only [URLAddress.urlWithoutCheck, nonempty, split, ← cut]
  rfl

/-- The port that is printed, or left out, is read back. -/
theorem portOf_printed {number : Nat} (small : number ≤ 65535) (secure : Bool) :
    portOf secure
        (if number == getDefaultPort secure then [] else Nat.toDigits 10 number) =
      .ok (number, number == getDefaultPort secure) := by
  unfold portOf
  by_cases isDefault : number = getDefaultPort secure
  · simp [isDefault]
  · simp [isDefault, Text.strToUnsigned_toDigits small]

/-- An address made from its own text, if its parts pass the checks. -/
theorem assign_assembled (separated : Separated parts) (valid : PartsValid parts)
    (served : Served true parts) (whole : parts.reflagged = parts) :
    URLAddress.assign (specificChecks true additionalChecks) parts.assemble =
      .ok (assignUrlParts parts) := by
  have cut : (assignUrlParts parts).parts.toUrlParts = parts := by
    rw [assignUrlParts_parts separated.flagged, whole]
  refine bind_ok_iff.mpr ⟨assignUrlParts parts, ?_, check_bind_ok_iff.mpr ⟨?_, rfl⟩⟩
  · rw [urlWithoutCheck_assemble separated, specificChecks_ok_iff]
    refine ⟨(assignUrlParts parts, false), rfl, ?_, rfl⟩
    rw [cut]
    exact served
  · rw [cut]
    exact (partsChecker_ok_iff separated.host).mpr valid

/-- The scheme that `set_` writes. -/
theorem scheme_facts {secure : Bool} :
    let scheme := if secure then httpsScheme else httpScheme
    scheme ≠ [] ∧ (∀ ch ∈ scheme, Category.schemeEnd ch = false) ∧ isHttp scheme = true ∧
      equalCaseless scheme httpsScheme = secure := by
  have chars : ((if secure then httpsScheme else httpScheme).all fun ch =>
      !Category.schemeEnd ch) = true := by
    cases secure <;> decide
  refine ⟨?_, ?_, ?_, ?_⟩
  · cases secure <;> decide
  · intro ch inside
    simpa using all_eq_true.mp chars ch inside
  · cases secure <;> decide
  · cases secure <;> decide

/-- The text that `set_` writes is read back. -/
theorem ofText_of_set {secure : Bool} {userinfo host path query fragment : List Char} {number : Nat}
    (small : number ≤ 65535) (hasHost : host ≠ []) (hasPath : path ≠ [])
    (made : parts = ofTexts (if secure then httpsScheme else httpScheme) userinfo host
      (if number == getDefaultPort secure then [] else Nat.toDigits 10 number) path
      query fragment)
    (passed : partsChecker parts.assemble parts = .ok ()) :
    ofText parts.assemble true =
      .ok ⟨assignUrlParts parts, true, number, secure,
        number == getDefaultPort secure⟩ := by
  obtain ⟨schemeNonempty, schemeChars, http, isSecure⟩ := scheme_facts
  have flagged : parts.Flagged := made ▸ ofTexts_flagged _ _ _ _ _ _ _
  have whole : parts.reflagged = parts := by
    rw [made]
    simp [reflagged, ofTexts, hasPath]
  have valid := (partsChecker_ok_iff (by rw [made]; exact hasHost)).mp passed
  have separated := separated_of_valid flagged valid (by rw [made]; exact schemeNonempty)
    (by rw [made]; exact schemeChars) (by rw [made]; exact hasHost) (by rw [made]; exact hasPath)
  have served : Served true parts := by
    rw [made]
    exact ⟨by simp [ofTexts, http], hasHost⟩
  have nonempty : parts.assemble.isEmpty = false := by
    simp [assemble, separated.scheme]
  have cut : (assignUrlParts parts).parts.toUrlParts = parts := by
    rw [assignUrlParts_parts flagged, whole]
  have port := portOf_printed small secure
  have ownPort : portOf (equalCaseless (assignUrlParts parts).parts.scheme httpsScheme)
      (assignUrlParts parts).parts.port =
      .ok (number, number == getDefaultPort secure) := by
    rw [cut, made]
    simp only [ofTexts, isSecure]
    exact port
  have ownSecure : equalCaseless (assignUrlParts parts).parts.scheme httpsScheme = secure := by
    rw [cut, made]
    exact isSecure
  have ownPath : (assignUrlParts parts).parts.path.isEmpty = false := by
    rw [cut, made]
    simp [ofTexts, hasPath]
  simp only [ofText, assign, nonempty, assign_assembled separated valid served whole]
  simp only [bind, Except.bind, ownPort, ownPath]
  rw [ownSecure]
  rfl

/-- Every address that the constructor from components accepts can be made from its text,
and then has the same parts, port number and flags. -/
theorem ofText_of_ofComponents (host path query fragment : List Char) (port : UInt16)
    (secure : Bool) (userinfo : List Char) (address : HTTPAddress)
    (accepted : ofComponents host path query fragment port secure userinfo =
      .ok address) :
    HTTPAddress.ofText address.url true = .ok { address with strict := true } := by
  unfold HTTPAddress.ofComponents HTTPAddress.set at accepted
  split at accepted
  case isTrue none =>
    cases accepted
    rfl
  case isFalse some =>
    rw [List.isEmpty_iff] at some
    obtain ⟨passed, same⟩ := check_bind_ok_iff.mp accepted
    have small : (if port = 0 then getDefaultPort secure else port.toNat) ≤ 65535 := by
      split
      · cases secure <;> decide
      · exact Nat.le_of_lt_succ port.toNat_lt
    have hasPath : (if path.isEmpty then defaultPath else path) ≠ [] := by
      split
      · exact cons_ne_nil _ _
      · simp_all
    have again := ofText_of_set small some hasPath rfl passed
    cases same
    exact again

/-- `https://u:p@h:8080/?q` -/
def sampleAddress : HTTPAddress :=
  ⟨assignUrlParts (ofTexts httpsScheme ['u', ':', 'p'] ['h'] ['8', '0', '8', '0'] ['/']
    ['q'] []), false, 8080, true, false⟩

theorem sampleAddress_read_back :
    ofComponents ['h'] [] ['q'] [] 8080 true ['u', ':', 'p'] = .ok sampleAddress ∧
    ofText sampleAddress.url true = .ok { sampleAddress with strict := true } :=
  ⟨by decide, ofText_of_ofComponents ['h'] [] ['q'] [] 8080 true ['u', ':', 'p'] _ (by decide)⟩

/-! ## How addresses come to be -/

/-- The ways in which an HTTP address or one of a browser comes to be: the constructors, the
member `url` of a browser address, and copies, by assignment too. The member `url` of an HTTP
address does what the constructor does. -/
inductive HTTPRoute
  | text (url : List Char) (strict : Bool)
  | components (host path query fragment : List Char) (port : UInt16) (secure : Bool)
    (userinfo : List Char)
  | browser (url : List Char)
  | browserUrl (strict : Bool) (url : List Char)
  | browserComponents (host beyond path query fragment : List Char) (port : UInt16) (secure : Bool)
    (userinfo : List Char)
  | copy (another : HTTPRoute)
  | assignSelf (self : HTTPRoute)

/-- The ways in which any address comes to be. -/
inductive Route
  | empty
  | text (value : List Char)
  | texts (scheme userinfo host port path query fragment : List Char)
  | http (route : HTTPRoute)
  | copy (another : Route)
  | assignFrom (self another : Route)
  | assignSelf (self : Route)

section Routes

variable (encode : List Char → List Nat → Except String (List Char))

/-- The address at the end of a route, or the message of the first step that failed. -/
def HTTPRoute.address : HTTPRoute → Except String HTTPAddress
  | text url strict => ofText url strict
  | components host path query fragment port secure userinfo =>
    ofComponents host path query fragment port secure userinfo
  | browser url => BrowserAddress.ofText encode url
  | browserUrl strict url => assign strict (BrowserAddress.additionalChecks encode) url
  | browserComponents host beyond path query fragment port secure userinfo =>
    BrowserAddress.ofComponents encode host beyond path query fragment port secure userinfo
  | copy another => do
    let address ← another.address
    return { address with toURLAddress := address.copy }
  | assignSelf self => do
    let address ← self.address
    return { address with toURLAddress := address.assignSelf }

/-- The same for any address. -/
def Route.address : Route → Except String URLAddress
  | empty => .ok URLAddress.empty
  | text value => URLAddress.ofText value
  | texts scheme userinfo host port path query fragment =>
    URLAddress.ofTexts scheme userinfo host port path query fragment
  | http route => do
    let address ← route.address encode
    return address.toURLAddress
  | copy another => do
    let address ← another.address
    return address.copy
  | assignFrom self another => do
    let self ← self.address
    let address ← another.address
    return self.assignFrom address
  | assignSelf self => do
    let address ← self.address
    return address.assignSelf

/-- The text of an address, with a scheme added where it may be missing. -/
def textOf (strict : Bool) (url : List Char) : List Char :=
  (withScheme strict (URLAddress.urlWithoutCheck url)).url

/-- A character of the text is replaced by its code. -/
def Replaced (strict : Bool) (url : List Char) : Prop :=
  strict = false ∧ (fixParts (partsOf strict url).toUrlParts).2 = true

/-- Nothing was given that would be a part. -/
def HTTPRoute.Blank : HTTPRoute → Prop
  | text url _ => url = []
  | components host _ _ _ _ _ _ => host = []
  | browser url => url = []
  | browserUrl _ _ => False
  | browserComponents host beyond _ _ _ _ _ _ => idnaNormalizeHost encode host beyond = .ok []
  | copy another => another.Blank
  | assignSelf _ => True

/-- The same for any address; the marks of an authority are no parts. -/
def Route.Blank : Route → Prop
  | empty => True
  | text value => value = [] ∨ value ∈ onlyMarks
  | texts scheme userinfo host port path query fragment =>
    scheme = [] ∧ userinfo = [] ∧ host = [] ∧ port = [] ∧ path = [] ∧ query = [] ∧ fragment = []
  | http route => route.Blank encode
  | copy another => another.Blank
  | assignFrom _ another => another.Blank
  | assignSelf _ => True

/-- The condition for a copy to be the same, by how the address was built. What is given as
components and what was copied before is written as a copy writes it. A text must have a path and
no empty authority, userinfo or port, unless it is written anew anyway. -/
def HTTPRoute.Keeps : HTTPRoute → Prop
  | text url strict => url ≠ [] ∧ Slashed (textOf strict url) ∧
    (Replaced strict url ∨ Clear (textOf strict url))
  | components host _ _ _ _ _ _ => host ≠ []
  | browser url => url ≠ [] ∧ Slashed (textOf false url)
  | browserUrl strict url => Slashed (textOf strict url)
  | browserComponents host beyond _ _ _ _ _ _ => idnaNormalizeHost encode host beyond ≠ .ok []
  | copy _ => True
  | assignSelf self => self.Blank encode

/-- The same for any address. -/
def Route.Keeps : Route → Prop
  | empty => False
  | text value => value ≠ [] ∧ HasPath value ∧ Clear value
  | texts _ _ _ _ _ _ _ => True
  | http route => route.Keeps encode
  | copy _ => True
  | assignFrom _ _ => True
  | assignSelf self => self.Blank encode

end Routes

/-! ## What all addresses have in common -/

/-- What all addresses have in common. -/
structure Kept (address : URLAddress) : Prop where
  flagged : address.parts.toUrlParts.Flagged
  named : ¬ Nameless address.parts.toUrlParts

/-- The same text and the same parts with their flags. -/
def Same (address original : URLAddress) : Prop :=
  address.url = original.url ∧ address.parts.toUrlParts = original.parts.toUrlParts

/-- The text is what the parts are put together to, and a path and a host are flagged as
they are found in such a text. -/
structure Spelled (address : URLAddress) : Prop where
  url : address.url = address.parts.assemble
  path : address.parts.hasPath = true
  host : address.parts.hasHost = true → address.parts.host ≠ []

variable {address : URLAddress}

/-- What is put together from the parts of an address is the same if they spell its text. -/
theorem Kept.same_assigned_iff (kept : Kept address) :
    Same (assignUrlParts address.parts.toUrlParts) address ↔ Spelled address := by
  have flagged := kept.flagged
  have scheme : address.parts.hasScheme = !address.parts.scheme.isEmpty := by
    cases flag : address.parts.hasScheme with
    | false => simp [flagged.scheme flag]
    | true =>
      have nonempty : address.parts.scheme ≠ [] := fun none => kept.named ⟨flag, none⟩
      simp [nonempty]
  rw [Same, assignUrlParts_parts flagged]
  constructor
  · rintro ⟨url, parts⟩
    refine ⟨url.symm, (congrArg hasPath parts).symm, ?_⟩
    intro flag none
    have host := congrArg hasHost parts
    simp [reflagged, flag, none] at host
  · intro spelled
    refine ⟨spelled.url.symm, ?_⟩
    have host : address.parts.hasHost = !address.parts.host.isEmpty := by
      cases flag : address.parts.hasHost with
      | false =>
        by_contra other
        have nonempty : address.parts.host ≠ [] := by
          intro none
          simp [none] at other
        simp [flagged.host nonempty] at flag
      | true => simp [spelled.host flag]
    simp only [reflagged, ← scheme, ← host]
    rw [← spelled.path]

/-- What is known of an address: when its parts spell its text, and when there are none. -/
structure Known (address : URLAddress) (keeps blank : Prop) : Prop where
  kept : Kept address
  spelled_iff : Spelled address ↔ keeps
  blank_iff : address.parts.assemble = [] ↔ blank

theorem Known.congr {keeps blank other otherBlank : Prop} (known : Known address keeps blank)
    (same : keeps ↔ other) (sameBlank : blank ↔ otherBlank) : Known address other otherBlank :=
  ⟨known.kept, known.spelled_iff.trans same, known.blank_iff.trans sameBlank⟩

/-- The flags of the empty parts are in step. -/
theorem empty_flagged : UrlParts.Flagged {} where
  scheme := fun _ => rfl
  userinfo := rfl
  host := fun some => absurd rfl some
  port := rfl
  query := fun _ => rfl
  fragment := fun _ => rfl

/-- The empty address has no flag of a path, which its copy has. -/
theorem empty_known : Known URLAddress.empty False True where
  kept := ⟨empty_flagged, by simp [Nameless, URLAddress.empty]⟩
  spelled_iff := iff_of_false (fun spelled => by cases spelled.path) not_false
  blank_iff := iff_of_true rfl trivial

/-- What is put together from parts is spelled by them. -/
theorem assignUrlParts_known (flagged : parts.Flagged) :
    Known (assignUrlParts parts) True (parts.assemble = []) := by
  have cut := assignUrlParts_parts flagged
  refine ⟨⟨?_, ?_⟩, iff_true_intro ⟨?_, rfl, ?_⟩, ?_⟩
  · rw [cut]
    exact flagged.reflagged
  · rw [cut]
    simp [Nameless, reflagged]
  · rw [cut]
    rfl
  · rw [cut]
    simp [reflagged]
  · rw [cut]
    rfl

/-- After an assignment to itself only the flag of the path is left. -/
theorem assignSelf_parts (self : URLAddress) :
    self.assignSelf.parts.toUrlParts = { hasPath := true } := by
  simp [URLAddress.assignSelf, adjustParts]

/-- The parts are lost, so they spell the text if there were none. -/
theorem assignSelf_known (self : URLAddress) :
    Known self.assignSelf (self.parts.assemble = []) True := by
  have left := assignSelf_parts self
  have nothing : self.assignSelf.parts.assemble = [] := by
    rw [left]
    rfl
  refine ⟨⟨?_, ?_⟩, ⟨?_, ?_⟩, iff_true_intro nothing⟩
  · rw [left]
    exact { empty_flagged with }
  · rw [left]
    simp [Nameless]
  · intro spelled
    exact spelled.url.trans nothing
  · intro none
    refine ⟨none.trans nothing.symm, rfl, ?_⟩
    rw [left]
    intro flag
    cases flag

/-! ## Addresses from a text -/

/-- Parts that pass the checker have no scheme without a name. -/
theorem named_of_passed {url : List Char}
    (passed : partsChecker url parts = .ok ()) : ¬ Nameless parts := by
  have scheme := ensure_ok_iff.mp (check_bind_ok_iff.mp passed).1
  rintro ⟨flag, text⟩
  simp [schemeValid, text, flag] at scheme

/-- Without a host valid parts have neither userinfo nor port. -/
theorem bare_of_passed {url : List Char} (passed : partsChecker url parts = .ok ())
    (none : parts.host = []) : parts.userinfo = [] ∧ parts.port = [] := by
  have host := (check_bind_ok_iff.mp (check_bind_ok_iff.mp (check_bind_ok_iff.mp passed).2).2).1
  simpa [checkHost, none, ensure_ok_iff] using host

/-- Parts with a host are put together to some text. -/
theorem assemble_ne_nil (host : parts.host ≠ []) : parts.assemble ≠ [] := by
  intro nothing
  have none := (assemble_eq_nil_iff.mp nothing).2.1
  simp [hasAuthority, host] at none

/-- Texts are put together to nothing if all are empty. -/
theorem ofTexts_assemble_eq_nil_iff {scheme userinfo host port path query fragment : List Char} :
    (ofTexts scheme userinfo host port path query fragment).assemble = [] ↔
      scheme = [] ∧ userinfo = [] ∧ host = [] ∧ port = [] ∧ path = [] ∧ query = [] ∧
        fragment = [] := by
  rw [assemble_eq_nil_iff]
  simp only [ofTexts, hasAuthority, behindAuthority, Bool.or_eq_false_iff, Bool.not_eq_false',
    List.isEmpty_iff, append_eq_nil_iff, and_assoc]
  cases query <;> cases fragment <;> simp

variable {url : List Char}

/-- Valid parts of a text spell it if the text has a path and no mark stands alone. -/
theorem split_spelled_iff (nonempty : url ≠ [])
    (passed : partsChecker url (splitUrl url).toUrlParts = .ok ()) :
    Spelled ⟨url, splitUrl url⟩ ↔ HasPath url ∧ Clear url := by
  have named := named_of_passed passed
  have text := splitUrl_assemble_iff nonempty named
  have path := (splitUrl_written nonempty).hasPath
  constructor
  · intro spelled
    exact ⟨path.mp spelled.path, text.mp spelled.url⟩
  · rintro ⟨hasPath, clear⟩
    exact ⟨text.mpr clear, path.mpr hasPath,
      host_of_assemble (bare_of_passed passed) nonempty clear⟩

/-- The address of a text that is not rebuilt. -/
theorem split_known (nonempty : url ≠ [])
    (passed : partsChecker url (splitUrl url).toUrlParts = .ok ()) :
    Known ⟨url, splitUrl url⟩ (HasPath url ∧ Clear url) (url ∈ onlyMarks) := by
  have named := named_of_passed passed
  exact ⟨⟨(splitUrl_split url).flagged, named⟩, split_spelled_iff nonempty passed,
    splitUrl_assemble_eq_nil_iff nonempty named⟩

/-- The end of `HTTPAddress::assign_`: the default path stands for an empty one. -/
def withPath (address : URLAddress) : URLAddress :=
  { address with parts := { address.parts with
    path := if address.parts.path.isEmpty then defaultPath else address.parts.path } }

/-- An address with a path gets no other. -/
theorem withPath_eq_self (some : address.parts.path ≠ []) : withPath address = address := by
  simp [withPath, some]

/-- An address without a path gets a slash. -/
theorem withPath_parts (none : address.parts.path = []) :
    (withPath address).parts.toUrlParts = { address.parts.toUrlParts with path := ['/'] } := by
  simp [withPath, none, defaultPath]

/-- With a host nothing but the path decides whether an address that was put together is
spelled by its parts. -/
theorem withPath_rebuilt_known (flagged : parts.Flagged) (host : parts.host ≠ []) :
    Known (withPath (assignUrlParts parts)) (parts.path ≠ []) False := by
  have known := assignUrlParts_known flagged
  have cut := assignUrlParts_parts flagged
  by_cases none : parts.path = []
  · have ownNone : (assignUrlParts parts).parts.path = [] := by
      rw [cut]
      exact none
    have ownParts := withPath_parts ownNone
    rw [cut] at ownParts
    refine ⟨⟨?_, ?_⟩, iff_of_false ?_ (not_not.mpr none), iff_of_false ?_ not_false⟩
    · rw [ownParts]
      exact { flagged.reflagged with }
    · rw [ownParts]
      simp [Nameless, reflagged]
    · intro spelled
      have sizes := congrArg length spelled.url
      rw [ownParts] at sizes
      simp [withPath, assignUrlParts, assemble, reflagged, UrlParts.hasAuthority,
        authorityText, none] at sizes
    · rw [ownParts]
      exact assemble_ne_nil host
  · have some : (assignUrlParts parts).parts.path ≠ [] := by
      rw [cut]
      exact none
    rw [withPath_eq_self some]
    exact known.congr (iff_of_true trivial none) (iff_of_false (assemble_ne_nil host) not_false)

/-- An address that is left as it was split is spelled by its parts if there is a path behind
the authority and no mark stands alone. -/
theorem withPath_split_known (nonempty : url ≠ []) (host : (splitUrl url).host ≠ [])
    (passed : partsChecker url (splitUrl url).toUrlParts = .ok ()) :
    Known (withPath ⟨url, splitUrl url⟩) (Slashed url ∧ Clear url) False := by
  have known := split_known nonempty passed
  have slashed := slashed_iff nonempty host
  have blank := assemble_ne_nil host
  by_cases none : (splitUrl url).path = []
  · have ownParts := @withPath_parts ⟨url, splitUrl url⟩ none
    refine ⟨⟨?_, ?_⟩, iff_of_false ?_ ?_, iff_of_false ?_ not_false⟩
    · rw [ownParts]
      exact { known.kept.flagged with }
    · rw [ownParts]
      exact known.kept.named
    · intro spelled
      have text := spelled.url
      rw [ownParts] at text
      exact splitUrl_not_assemble nonempty known.kept.named host none [] text
    · rintro ⟨slash, -⟩
      exact slashed.mp slash none
    · rw [ownParts]
      exact assemble_ne_nil host
  · rw [withPath_eq_self none]
    refine ⟨known.kept, known.spelled_iff.trans ?_, iff_of_false blank not_false⟩
    apply and_congr_left
    intro _
    have slash := slashed.mpr none
    obtain ⟨authority, rest, found⟩ := slash
    refine iff_of_true ?_ ⟨authority, rest, found⟩
    simp [HasPath, found]

/-- What `HTTPAddress::assign_` has done when it succeeds. -/
theorem assign_ok {strict : Bool}
    {additionalChecks : URLAddress → Except String (URLAddress × Bool)} {address : HTTPAddress}
    (assigned : assign strict additionalChecks url = .ok address) :
    url ≠ [] ∧ ∃ checked,
      additionalChecks (withScheme strict (URLAddress.urlWithoutCheck url)) = .ok checked ∧
      Served strict checked.1.parts.toUrlParts ∧
      partsChecker (mend strict checked.2 checked.1).url
        (mend strict checked.2 checked.1).parts.toUrlParts = .ok () ∧
      address.toURLAddress = withPath (mend strict checked.2 checked.1) := by
  unfold assign at assigned
  split at assigned
  case isTrue => cases assigned
  case isFalse filled =>
    obtain ⟨mended, made, ported⟩ := bind_ok_iff.mp assigned
    obtain ⟨own, specific, passed⟩ := bind_ok_iff.mp made
    obtain ⟨valid, same⟩ := check_bind_ok_iff.mp passed
    cases same
    obtain ⟨checked, additional, served, rfl⟩ := specificChecks_ok_iff.mp specific
    obtain ⟨port, -, same⟩ := bind_ok_iff.mp ported
    cases same
    exact ⟨by simpa using filled, checked, additional, served, valid, rfl⟩

/-- An address is built again from parts that differ in characters only, or left as it is. -/
theorem mend_cases (strict rebuild : Bool) (flagged : address.parts.toUrlParts.Flagged) :
    ((rebuild = true ∨ strict = false ∧ (fixParts address.parts.toUrlParts).2 = true) ∧
      ∃ fixed : UrlParts, mend strict rebuild address = assignUrlParts fixed ∧ fixed.Flagged ∧
        fixed.host = address.parts.host ∧ (fixed.path = [] ↔ address.parts.path = [])) ∨
    (¬ (rebuild = true ∨ strict = false ∧ (fixParts address.parts.toUrlParts).2 = true) ∧
      mend strict rebuild address = address) := by
  have path : (fixParts address.parts.toUrlParts).1.path = [] ↔ address.parts.path = [] := by
    rw [fixParts_eq, ← List.isEmpty_iff, fixed_isEmpty, List.isEmpty_iff]
  unfold mend
  cases strict with
  | true =>
    cases rebuild with
    | true => exact .inl ⟨.inl rfl, _, rfl, flagged, rfl, Iff.rfl⟩
    | false => exact .inr ⟨by simp, rfl⟩
  | false =>
    by_cases again : (rebuild || (fixParts address.parts.toUrlParts).2) = true
    · refine .inl ⟨by simpa using again, (fixParts address.parts.toUrlParts).1, ?_,
        fixParts_flagged flagged, rfl, path⟩
      simp [again]
    · refine .inr ⟨by simpa using again, ?_⟩
      simp [again]

/-- The text that an HTTP address is split from. -/
theorem partsOf_eq {strict : Bool} (nonempty : url ≠ []) :
    textOf strict url ≠ [] ∧
      withScheme strict (URLAddress.urlWithoutCheck url) =
        ⟨textOf strict url, splitUrl (textOf strict url)⟩ := by
  have given : URLAddress.urlWithoutCheck url = ⟨url, splitUrl url⟩ := by
    simp [URLAddress.urlWithoutCheck, nonempty]
  unfold textOf withScheme
  rw [given]
  split
  · exact ⟨by simp [URLAddress.urlWithoutCheck, httpAddScheme, httpScheme], rfl⟩
  · exact ⟨nonempty, rfl⟩

/-- An HTTP address is left as it was split if no character is replaced. -/
theorem http_known {strict : Bool} {address : HTTPAddress}
    (assigned : assign strict additionalChecks url = .ok address) :
    Known address.toURLAddress (Slashed (textOf strict url) ∧
      (Replaced strict url ∨ Clear (textOf strict url))) False := by
  obtain ⟨nonempty, checked, additional, served, passed, same⟩ := assign_ok assigned
  obtain ⟨filled, own⟩ := @partsOf_eq _ strict nonempty
  cases additional
  have ownParts : partsOf strict url = splitUrl (textOf strict url) := by rw [partsOf, own]
  rw [own] at served passed same
  have slashed := slashed_iff filled served.2
  rw [same, Replaced, ownParts]
  rcases @mend_cases ⟨textOf strict url, splitUrl (textOf strict url)⟩ strict false
    (splitUrl_split _).flagged with ⟨again, fixed, mends, flagged, host, path⟩ | ⟨once, mends⟩
  · rw [mends]
    apply (withPath_rebuilt_known flagged (host ▸ served.2)).congr _ Iff.rfl
    have replaced := again.resolve_left Bool.false_ne_true
    rw [slashed, ne_eq, path]
    exact ⟨fun some => ⟨some, .inl replaced⟩, And.left⟩
  · rw [mends] at passed ⊢
    apply (withPath_split_known filled served.2 passed).congr _ Iff.rfl
    apply and_congr_right
    intro _
    exact ⟨.inr, fun either => either.resolve_left fun replaced => once (.inr replaced)⟩

section Browser

variable {encode : List Char → List Nat → Except String (List Char)}

/-- What the additional checks of a browser address do. -/
theorem browserChecks_ok {checked : URLAddress × Bool}
    (additional : BrowserAddress.additionalChecks encode address = .ok checked) :
    address.parts.host ≠ [] ∧ ∃ encodedHost,
      checked = ({ address with parts := hosted address.parts encodedHost }, true) := by
  obtain ⟨encodedHost, normalized, same⟩ := bind_ok_iff.mp additional
  rw [idnaHostNormalize_ok_iff] at normalized
  cases same
  exact ⟨host_ne_nil_of_normalized encode normalized, encodedHost, rfl⟩

/-- The address of a browser is always put together from its parts. -/
theorem browser_known {strict : Bool} {address : HTTPAddress}
    (assigned : assign strict (BrowserAddress.additionalChecks encode) url = .ok address) :
    Known address.toURLAddress (Slashed (textOf strict url)) False := by
  obtain ⟨nonempty, checked, additional, served, -, same⟩ := assign_ok assigned
  obtain ⟨filled, own⟩ := @partsOf_eq _ strict nonempty
  rw [own] at additional
  obtain ⟨hasHost, encodedHost, rfl⟩ := browserChecks_ok additional
  have split := splitUrl_split (textOf strict url)
  have slashed := slashed_iff filled hasHost
  have flagged : (hosted (splitUrl (textOf strict url)) encodedHost).toUrlParts.Flagged :=
    { split.flagged with host := fun _ => split.flagged.host hasHost }
  rw [same]
  rcases @mend_cases ⟨textOf strict url, hosted (splitUrl (textOf strict url)) encodedHost⟩ strict
    true flagged with ⟨-, fixed, mends, fixedFlagged, host, path⟩ | ⟨once, -⟩
  · rw [mends]
    apply (withPath_rebuilt_known fixedFlagged (host ▸ served.2)).congr _ Iff.rfl
    rw [slashed, ne_eq, path]
    rfl
  · exact absurd (.inl rfl) once

/-- What `set_` has made, on an address as a constructor starts with it. -/
theorem set_known {strict secure : Bool} {userinfo host path query fragment : List Char}
    {port : Nat} {address : HTTPAddress}
    (made : set (HTTPAddress.empty strict) secure userinfo host port path query fragment =
      .ok address) :
    Known address.toURLAddress (host ≠ []) (host = []) := by
  unfold HTTPAddress.set at made
  split at made
  case isTrue none =>
    cases made
    rw [List.isEmpty_iff] at none
    exact empty_known.congr (iff_of_false not_false (not_not.mpr none)) (iff_of_true trivial none)
  case isFalse some =>
    rw [List.isEmpty_iff] at some
    obtain ⟨-, same⟩ := check_bind_ok_iff.mp made
    cases same
    exact (assignUrlParts_known (ofTexts_flagged _ _ _ _ _ _ _)).congr (iff_of_true trivial some)
      (iff_of_false (assemble_ne_nil some) some)

end Browser

/-! ## Copies -/

section Copies

variable {encode : List Char → List Nat → Except String (List Char)}

/-- An address that is empty for an empty text, and assigned otherwise. -/
theorem known_or_empty {strict : Bool} {assigned : Except String HTTPAddress} {keeps : Prop}
    {address : HTTPAddress} (made : (if url.isEmpty then .ok (empty strict) else assigned) = .ok address)
    (known : assigned = .ok address → Known address.toURLAddress keeps False) :
    Known address.toURLAddress (url ≠ [] ∧ keeps) (url = []) := by
  split at made
  case isTrue none =>
    cases made
    rw [List.isEmpty_iff] at none
    exact empty_known.congr (iff_of_false not_false fun keeps => keeps.1 none)
      (iff_of_true trivial none)
  case isFalse some =>
    rw [List.isEmpty_iff] at some
    exact (known made).congr ⟨fun keeps => ⟨some, keeps⟩, And.right⟩
      (iff_of_false not_false some)

/-- How the addresses for HTTP stand to their texts. -/
theorem HTTPRoute.known {route : HTTPRoute} {address : HTTPAddress}
    (made : route.address encode = .ok address) :
    Known address.toURLAddress (route.Keeps encode) (route.Blank encode) := by
  induction route generalizing address with
  | text url strict => exact known_or_empty made http_known
  | components => exact set_known made
  | browser url => exact known_or_empty made browser_known
  | browserUrl strict url => exact browser_known made
  | browserComponents host beyond path query fragment port secure userinfo =>
    obtain ⟨encodedHost, normalized, set⟩ := bind_ok_iff.mp made
    rw [idnaHostNormalize_ok_iff] at normalized
    apply (set_known set).congr
    · simp [HTTPRoute.Keeps, normalized]
    · simp [HTTPRoute.Blank, normalized]
  | copy another ih =>
    obtain ⟨original, own, same⟩ := bind_ok_iff.mp made
    cases same
    have known := ih own
    exact (assignUrlParts_known known.kept.flagged).congr Iff.rfl known.blank_iff
  | assignSelf self ih =>
    obtain ⟨original, own, same⟩ := bind_ok_iff.mp made
    cases same
    exact (assignSelf_known original.toURLAddress).congr (ih own).blank_iff Iff.rfl

/-- How all addresses stand to their texts. -/
theorem Route.known {route : Route} (made : route.address encode = .ok address) :
    Known address (route.Keeps encode) (route.Blank encode) := by
  induction route generalizing address with
  | empty =>
    cases made
    exact empty_known
  | text value =>
    obtain ⟨own, same, passed⟩ := bind_ok_iff.mp made
    cases same
    obtain ⟨valid, same⟩ := check_bind_ok_iff.mp passed
    cases same
    by_cases none : value = []
    · subst none
      exact empty_known.congr (iff_of_false not_false fun keeps => keeps.1 rfl)
        (iff_of_true trivial (.inl rfl))
    · have own : URLAddress.urlWithoutCheck value = ⟨value, splitUrl value⟩ := by
        simp [URLAddress.urlWithoutCheck, none]
      rw [own] at valid ⊢
      exact (split_known none valid).congr ⟨fun keeps => ⟨none, keeps⟩, And.right⟩
        ⟨.inr, fun blank => blank.resolve_left none⟩
  | texts scheme userinfo host port path query fragment =>
    obtain ⟨-, same⟩ := check_bind_ok_iff.mp made
    cases same
    exact (assignUrlParts_known (ofTexts_flagged _ _ _ _ _ _ _)).congr Iff.rfl
      ofTexts_assemble_eq_nil_iff
  | http route =>
    obtain ⟨original, own, same⟩ := bind_ok_iff.mp made
    cases same
    exact HTTPRoute.known own
  | copy another ih =>
    obtain ⟨original, own, same⟩ := bind_ok_iff.mp made
    cases same
    have known := ih own
    exact (assignUrlParts_known known.kept.flagged).congr Iff.rfl known.blank_iff
  | assignFrom self another _ ih =>
    obtain ⟨_, -, assigned⟩ := bind_ok_iff.mp made
    obtain ⟨original, own, same⟩ := bind_ok_iff.mp assigned
    cases same
    have known := ih own
    exact (assignUrlParts_known known.kept.flagged).congr Iff.rfl known.blank_iff
  | assignSelf self ih =>
    obtain ⟨original, own, same⟩ := bind_ok_iff.mp made
    cases same
    exact (assignSelf_known original).congr (ih own).blank_iff Iff.rfl

/-- **When a copy is the same.** For every address, whatever the way it came to be, a copy of it
and what is assigned from it agree with it exactly under the condition on how it was built.
Assigned to itself only the address with nothing but the flag of a path agrees with what it
was. -/
theorem copies_same_iff (route : Route) (address : URLAddress)
    (made : route.address encode = .ok address) (other : URLAddress) :
    (Same address.copy address ↔ route.Keeps encode) ∧
    (Same (other.assignFrom address) address ↔ route.Keeps encode) ∧
    (Same address.assignSelf address ↔
      address.url = [] ∧ address.parts.toUrlParts = { hasPath := true }) := by
  have known := Route.known made
  have copied := known.kept.same_assigned_iff.trans known.spelled_iff
  refine ⟨copied, copied, ?_⟩
  rw [Same, assignSelf_parts]
  constructor
  · rintro ⟨url, parts⟩
    refine ⟨?_, parts.symm⟩
    rw [← url, URLAddress.assignSelf, ← parts]
    rfl
  · rintro ⟨url, parts⟩
    refine ⟨?_, parts.symm⟩
    rw [url, URLAddress.assignSelf, parts]
    rfl

/-- The sample address is made from components, so a copy is the same. -/
theorem sampleAddress_copied :
    (Route.http (.components ['h'] [] ['q'] [] 8080 true ['u', ':', 'p'])).address
      (fun host _ => .ok host) = .ok sampleAddress.toURLAddress ∧
    Same sampleAddress.copy sampleAddress.toURLAddress := by
  have made : (Route.http (.components ['h'] [] ['q'] [] 8080 true ['u', ':', 'p'])).address
      (fun host _ => .ok host) = .ok sampleAddress.toURLAddress := by
    decide
  exact ⟨made, (copies_same_iff _ _ made URLAddress.empty).1.mpr (cons_ne_nil _ _)⟩

end Copies

/-- `http://h` -/
def withoutPath : List Char := ['h', 't', 't', 'p', ':', '/', '/', 'h']

/-- The copy of an address without a path has a text with one. An address that is assigned
to itself loses its parts. -/
theorem copy_gains_path_and_self_loses_parts :
    (ofText withoutPath true).map (fun address => address.url) = .ok withoutPath ∧
    (ofText withoutPath true).map (fun address => address.copy.url) =
      .ok (withoutPath ++ ['/']) ∧
    (ofComponents ['h'] [] [] [] 0 false []).map (fun address => address.parts.host) =
      .ok ['h'] ∧
    (ofComponents ['h'] [] [] [] 0 false []).map
      (fun address => address.assignSelf.parts.host) = .ok [] := by
  decide

end UnixCommons.HTTP
