import UnixCommons.HTTP.HTTPCookie
import UnixCommons.HTTP.HostNames
import UnixCommons.HTTP.UrlCopies

/-!
# The cookies that go to an address

`cookie_header` removes the cookies that have expired and sends a cookie if its domain ends the
host and its path begins the path of the address. It does not look at what stands in front of the
domain and behind the path, so cookies also go to other hosts and paths, unless domain and path
bring the boundary along. The addresses are those that can be made; their hosts and paths are
valid, so a cookie with other texts goes nowhere.
-/

namespace UnixCommons.HTTP

open List Generics Outcome HTTPAddress UrlParts

/-- `expire` -/
def expire (list : List CookieDef) (sessionCookies : Bool) (curTime : Timeval) : List CookieDef :=
  list.filter fun cookie =>
    !(if cookie.expires = .zero then sessionCookies else cookie.expires.less curTime)

/-- The tests of the loop in `cookie_header`. -/
def goesTo (urlAddress : HTTPAddress) (cookie : CookieDef) : Bool :=
  let host := urlAddress.parts.host
  !((cookie.secure && !urlAddress.secure) || decide (cookie.domain.length > host.length)) &&
    equalCaseless (host.drop (host.length - cookie.domain.length)) cookie.domain &&
    urlAddress.parts.path.take cookie.path.length == cookie.path

/-- The cookies that `cookie_header` writes. -/
def sent (list : List CookieDef) (urlAddress : HTTPAddress) : List CookieDef :=
  list.filter (goesTo urlAddress)

/-- `cookie_header` of a list. -/
def cookieHeader (list : List CookieDef) (urlAddress : HTTPAddress) : List Char :=
  pairsText (sent list urlAddress)

namespace CookieDefList

/-- `expire_`; a `ClientCookieFacility` never keeps what has expired. -/
def expire (keepExpired : Bool) (list : List CookieDef) (sessionCookies : Bool)
    (curTime : Timeval) : List CookieDef :=
  if keepExpired then list else HTTP.expire list sessionCookies curTime

/-- The member `cookie_header`, which removes the expired cookies first. -/
def cookieHeader (keepExpired : Bool) (list : List CookieDef) (curTime : Timeval)
    (urlAddress : HTTPAddress) : List Char :=
  HTTP.cookieHeader (expire keepExpired list false curTime) urlAddress

end CookieDefList

/-- A cookie that `expire_` leaves in a list. -/
def Lives (keepExpired : Bool) (curTime : Timeval) (cookie : CookieDef) : Prop :=
  keepExpired = true ∨ cookie.expires = .zero ∨ cookie.expires.less curTime = false

/-- The cookies that are left are those that live. -/
theorem mem_expire_iff {keepExpired : Bool} {list : List CookieDef} {curTime : Timeval}
    {cookie : CookieDef} :
    cookie ∈ CookieDefList.expire keepExpired list false curTime ↔
      cookie ∈ list ∧ Lives keepExpired curTime cookie := by
  cases keepExpired with
  | true => simp [CookieDefList.expire, Lives]
  | false =>
    by_cases session : cookie.expires = .zero <;>
      simp [CookieDefList.expire, expire, Lives, session]

/-! ## Boundaries -/

/-- A text is the other one, or goes on behind it at a boundary. -/
def Under (boundary : Char) (text part : List Char) : Prop :=
  text = part ∨ ∃ rest, text = part ++ rest ∧
    (part.getLast? = some boundary ∨ rest.head? = some boundary)

/-- The addresses a cookie is meant for. Host and domain are read from their ends. -/
structure Reaches (urlAddress : HTTPAddress) (cookie : CookieDef) : Prop where
  domain : Under '.' (lower urlAddress.parts.host).reverse (lower cookie.domain).reverse
  path : Under '/' urlAddress.parts.path cookie.path
  secure : cookie.secure = true → urlAddress.secure = true

variable {boundary : Char} {part : List Char} {urlAddress : HTTPAddress} {cookie : CookieDef}

/-- The tests look for the domain at the end of the host and the path at the begin of the
path. -/
theorem goesTo_iff : goesTo urlAddress cookie = true ↔
    (cookie.secure = true → urlAddress.secure = true) ∧
      lower cookie.domain <:+ lower urlAddress.parts.host ∧
      cookie.path <+: urlAddress.parts.path := by
  have ends : lower cookie.domain <:+ lower urlAddress.parts.host ↔
      cookie.domain.length ≤ urlAddress.parts.host.length ∧ lower (urlAddress.parts.host.drop
        (urlAddress.parts.host.length - cookie.domain.length)) = lower cookie.domain := by
    constructor
    · intro isSuffix
      have shorter := isSuffix.length_le
      rw [suffix_iff_eq_drop] at isSuffix
      simp only [lower, length_map, map_drop] at shorter isSuffix ⊢
      exact ⟨shorter, isSuffix.symm⟩
    · rintro ⟨-, same⟩
      rw [← same, lower, map_drop]
      exact drop_suffix _ _
  rw [ends, prefix_iff_eq_take]
  simp only [goesTo, equalCaseless, lower, Bool.and_eq_true, Bool.not_eq_true', Bool.or_eq_false_iff,
    Bool.and_eq_false_imp, Bool.not_eq_false', decide_eq_false_iff_not, not_lt, beq_iff_eq, and_assoc,
    eq_comm (a := cookie.path)]

/-- A part that ends with the boundary has everything under it that it begins. -/
theorem under_of_boundary {text : List Char} (begins : part <+: text)
    (bounded : part.getLast? = some boundary) : Under boundary text part := by
  obtain ⟨rest, rfl⟩ := begins
  exact .inr ⟨rest, rfl, .inl bounded⟩

/-- Behind a text with another character only the text itself can bring the boundary. -/
theorem under_append_cons {ch : Char} {rest : List Char} (different : ch ≠ boundary) :
    Under boundary (part ++ ch :: rest) part ↔ part.getLast? = some boundary := by
  constructor
  · rintro (same | ⟨rest, split, bounded | bounded⟩)
    · simp at same
    · exact bounded
    · rw [← append_cancel_left split] at bounded
      exact absurd (Option.some.inj bounded) different
  · exact under_of_boundary ⟨ch :: rest, rfl⟩

theorem getLast?_lower_reverse {text : List Char} :
    (lower text).reverse.getLast? = some '.' ↔ text.head? = some '.' := by
  rw [getLast?_reverse, lower, head?_map]
  cases text.head? with
  | none => simp
  | some ch => simp [toLower_eq_dot]

/-! ## The addresses that can be made -/

/-- An address that leads nowhere, or to a valid host and a valid path. -/
def Located (parts : UrlParts) : Prop :=
  parts.host = [] ∧ parts.path = [] ∨
  parts.host ≠ [] ∧ hostValid parts.host = true ∧ (∃ rest, parts.path = '/' :: rest) ∧
    isValidEncoded parts.path Category.path = true

/-- Mending keeps the host. -/
theorem mend_host {strict rebuild : Bool} {address : URLAddress}
    (flagged : address.parts.toUrlParts.Flagged) :
    (mend strict rebuild address).parts.host = address.parts.host := by
  rcases mend_cases strict rebuild flagged with ⟨-, fixed, same, own, host, -⟩ | ⟨-, same⟩
  · rw [same, assignUrlParts_parts own]
    exact host
  · rw [same]

/-- An address from a text is located, if the additional checks keep the flags. -/
theorem assign_located {strict : Bool}
    {additionalChecks : URLAddress → Except String (URLAddress × Bool)} {url : List Char}
    (keeps : ∀ address checked, address.parts.toUrlParts.Flagged →
      additionalChecks address = .ok checked → checked.1.parts.toUrlParts.Flagged)
    (assigned : assign strict additionalChecks url = .ok urlAddress) :
    Located urlAddress.parts.toUrlParts := by
  obtain ⟨nonempty, checked, additional, served, passed, same⟩ := assign_ok assigned
  obtain ⟨-, own⟩ := @partsOf_eq _ strict nonempty
  rw [own] at additional
  have host := @mend_host strict checked.2 _ (keeps _ _ (splitUrl_split _).flagged additional)
  have valid := (partsChecker_ok_iff (host ▸ served.2)).mp passed
  rw [same]
  refine .inr ⟨host ▸ served.2, valid.host, ?_, ?_⟩
  · rcases valid.rooted with none | ⟨rest, begins⟩
    · exact ⟨[], by simp [withPath, none, defaultPath]⟩
    · exact ⟨rest, by simp [withPath, begins]⟩
  · by_cases none : (mend strict checked.2 checked.1).parts.path = []
    · simp only [withPath, none]
      decide
    · rw [withPath_eq_self none]
      exact valid.path

/-- A host that is set is the host of the address. -/
theorem set_located {strict secure : Bool} {userinfo host path query fragment : List Char}
    {port : Nat} (made : set (HTTPAddress.empty strict) secure userinfo host port path query
      fragment = .ok urlAddress) : Located urlAddress.parts.toUrlParts := by
  unfold HTTPAddress.set at made
  split at made
  case isTrue none =>
    cases made
    exact .inl ⟨rfl, rfl⟩
  case isFalse some =>
    rw [List.isEmpty_iff] at some
    obtain ⟨passed, same⟩ := check_bind_ok_iff.mp made
    cases same
    have valid := (partsChecker_ok_iff (by exact some)).mp passed
    rw [assignUrlParts_parts (ofTexts_flagged _ _ _ _ _ _ _)]
    refine .inr ⟨some, valid.host, valid.rooted.resolve_left ?_, valid.path⟩
    cases path <;> simp [ofTexts, defaultPath]

/-- Every HTTP address that can be made is located. -/
theorem HTTPRoute.located {encode : List Char → List Nat → Except String (List Char)}
    {route : HTTPRoute} (made : route.address encode = .ok urlAddress) :
    Located urlAddress.parts.toUrlParts := by
  have browserKeeps (address : URLAddress) (checked : URLAddress × Bool)
      (flagged : address.parts.toUrlParts.Flagged)
      (additional : BrowserAddress.additionalChecks encode address = .ok checked) :
      checked.1.parts.toUrlParts.Flagged := by
    obtain ⟨hasHost, encodedHost, rfl⟩ := browserChecks_ok additional
    exact { flagged with host := fun _ => flagged.host hasHost }
  induction route generalizing urlAddress with
  | text url strict =>
    simp only [HTTPRoute.address, ofText] at made
    split at made
    · cases made
      exact .inl ⟨rfl, rfl⟩
    · apply assign_located _ made
      intro address checked flagged additional
      cases additional
      exact flagged
  | components => exact set_located made
  | browser url =>
    simp only [HTTPRoute.address, BrowserAddress.ofText] at made
    split at made
    · cases made
      exact .inl ⟨rfl, rfl⟩
    · exact assign_located browserKeeps made
  | browserUrl strict url => exact assign_located browserKeeps made
  | browserComponents host beyond path query fragment port secure userinfo =>
    obtain ⟨encodedHost, -, set⟩ := bind_ok_iff.mp made
    exact set_located set
  | copy another ih =>
    obtain ⟨original, own, same⟩ := bind_ok_iff.mp made
    cases same
    have flagged := (HTTPRoute.known own).kept.flagged
    change Located (assignUrlParts original.parts.toUrlParts).parts.toUrlParts
    rw [assignUrlParts_parts flagged]
    exact ih own
  | assignSelf self ih =>
    obtain ⟨original, own, same⟩ := bind_ok_iff.mp made
    cases same
    change Located original.assignSelf.parts.toUrlParts
    rw [assignSelf_parts]
    exact .inl ⟨rfl, rfl⟩

/-- A valid host and a valid path are those of a secure address. -/
theorem ofComponents_of_valid {host rest : List Char} (nonempty : host ≠ [])
    (valid : hostValid host = true)
    (pathValid : isValidEncoded ('/' :: rest) Category.path = true) :
    ∃ urlAddress, ofComponents host ('/' :: rest) [] [] 0 true [] = .ok urlAddress ∧
      urlAddress.parts.host = host ∧ urlAddress.parts.path = '/' :: rest ∧
      urlAddress.secure = true := by
  have filled : host.isEmpty = false := by simpa using nonempty
  have passed : PartsValid (ofTexts httpsScheme [] host [] ('/' :: rest) [] []) := {
    scheme := rfl
    userinfo := rfl
    host := valid
    port := by simp [Numeral.Digits, ofTexts]
    rooted := .inr ⟨rest, rfl⟩
    path := pathValid
    query := rfl
    fragment := rfl }
  have cut := assignUrlParts_parts (ofTexts_flagged httpsScheme [] host [] ('/' :: rest) [] [])
  refine ⟨⟨assignUrlParts (ofTexts httpsScheme [] host [] ('/' :: rest) [] []), false, 443, true,
    true⟩, ?_, ?_, ?_, rfl⟩
  · simp only [ofComponents, HTTPAddress.set, filled]
    exact check_bind_ok_iff.mpr ⟨(partsChecker_ok_iff nonempty).mpr passed, rfl⟩
  · rw [cut]
    rfl
  · rw [cut]
    rfl

/-! ## Where cookies stay -/

/-- A text that begins a valid one is completed by zeros: they end a code that is cut off. -/
theorem valid_completed {text rest : List Char}
    (valid : isValidEncoded (text ++ rest) Category.path = true) :
    isValidEncoded (text ++ ['0', '0']) Category.path = true := by
  rw [isValidEncoded_iff] at valid ⊢
  fun_induction findInvalid Category.path text with
  | case1 => decide
  | case2 ch text owned ih =>
    rw [cons_append, findInvalid_owned owned] at valid ⊢
    exact ih valid
  | case3 high low behind hex foreign ih =>
    rw [cons_append, cons_append, cons_append, findInvalid_code foreign hex] at valid ⊢
    exact ih valid
  | case4 high low behind noHex foreign =>
    rw [cons_append, cons_append, cons_append, findInvalid, if_neg foreign, if_pos rfl] at valid
    simp only [noHex, Bool.false_eq_true, if_false] at valid
    cases valid
  | case5 text short foreign =>
    -- the code is cut off: the zeros are its digits
    cases text with
    | nil => decide
    | cons high text =>
      obtain rfl : text = [] := by
        cases text with
        | nil => rfl
        | cons low behind => exact (short high low behind rfl).elim
      have hex : Category.hexNumber high = true := by
        by_contra other
        cases rest with
        | nil => cases valid
        | cons low behind => simp [findInvalid, foreign, other] at valid
      rw [cons_append, cons_append, nil_append, findInvalid_code foreign (by rw [hex]; rfl)]
      decide
  | case6 ch text foreign other =>
    rw [cons_append, findInvalid.eq_def] at valid
    simp only [foreign, other, Bool.false_eq_true, if_false] at valid
    cases valid

/-- Some address has the domain at the end of its host and the path at the begin of its path. -/
structure Matchable (cookie : CookieDef) : Prop where
  domain : hostValid cookie.domain = true ∨ hostValid ('x' :: cookie.domain) = true
  path : cookie.path = [] ∨ ∃ rest, cookie.path = '/' :: rest ∧
    isValidEncoded (cookie.path ++ ['0', '0']) Category.path = true

/-- The domain begins with a dot, or no letter can stand in front of it; the path ends with a
slash, or is empty. -/
structure Bounded (cookie : CookieDef) : Prop where
  domain : cookie.domain.head? = some '.' ∨ hostValid ('x' :: cookie.domain) = false
  path : cookie.path = [] ∨ cookie.path.getLast? = some '/'

/-- An address for a host that ends with the domain of a cookie that can be matched. Its path
goes on behind the cookie's without a slash. -/
theorem Matchable.address (matchable : Matchable cookie) {front : List Char}
    (filled : front ++ cookie.domain ≠ []) (valid : hostValid (front ++ cookie.domain) = true) :
    ∃ path urlAddress,
      ofComponents (front ++ cookie.domain) path [] [] 0 true [] = .ok urlAddress ∧
      goesTo urlAddress cookie = true ∧ urlAddress.parts.host = front ++ cookie.domain ∧
      (cookie.path ≠ [] → urlAddress.parts.path = cookie.path ++ ['0', '0']) := by
  have ends : lower cookie.domain <:+ lower (front ++ cookie.domain) :=
    ⟨lower front, by simp [lower]⟩
  rcases matchable.path with none | ⟨rest, begins, pathValid⟩
  · obtain ⟨urlAddress, made, host, -, secure⟩ :=
      @ofComponents_of_valid _ [] filled valid (by decide)
    refine ⟨_, urlAddress, made, goesTo_iff.mpr ⟨fun _ => secure, host ▸ ends, ?_⟩, host, ?_⟩
    · rw [none]
      exact nil_prefix
    · exact absurd none
  · rw [begins, cons_append] at pathValid
    obtain ⟨urlAddress, made, host, path, secure⟩ := ofComponents_of_valid filled valid pathValid
    rw [← cons_append, ← begins] at path
    refine ⟨_, urlAddress, made, goesTo_iff.mpr ⟨fun _ => secure, host ▸ ends, ?_⟩, host,
      fun _ => path⟩
    rw [path]
    exact prefix_append ..

/-- What a valid host says about the domain at its end. -/
theorem domain_cases (valid : hostValid urlAddress.parts.host = true)
    (goes : goesTo urlAddress cookie = true) :
    ∃ front, lower urlAddress.parts.host = front ++ lower cookie.domain ∧
      (front = [] ∧ hostValid cookie.domain = true ∨
        front.getLast? = some '.' ∧ (cookie.domain = [] ∨ hostValid cookie.domain = true) ∨
        hostValid ('x' :: cookie.domain) = true) := by
  obtain ⟨-, ⟨front, whole⟩, -⟩ := goesTo_iff.mp goes
  rw [← hostValid_lower, ← whole] at valid
  refine ⟨front, whole.symm, ?_⟩
  by_cases filled : front = []
  · rw [filled, nil_append, hostValid_lower] at valid
    exact .inl ⟨filled, valid⟩
  · have behind := hostValid_behind filled valid
    split at behind
    · rename_i point
      rw [hostValid_lower, lower, map_eq_nil_iff] at behind
      exact .inr (.inl ⟨point, behind⟩)
    · right
      right
      rwa [← hostValid_lower]

/-- What an address matches can be matched. -/
theorem matchable_of_goesTo (valid : hostValid urlAddress.parts.host = true)
    (rooted : ∃ rest, urlAddress.parts.path = '/' :: rest)
    (pathValid : isValidEncoded urlAddress.parts.path Category.path = true)
    (goes : goesTo urlAddress cookie = true) : Matchable cookie := by
  constructor
  · obtain ⟨front, -, ⟨-, own⟩ | ⟨-, none | own⟩ | led⟩ := domain_cases valid goes
    · exact .inl own
    · rw [none]
      exact .inr (by decide)
    · exact .inl own
    · exact .inr led
  · obtain ⟨-, -, rest, whole⟩ := goesTo_iff.mp goes
    rw [← whole] at pathValid rooted
    obtain ⟨behind, begins⟩ := rooted
    cases own : cookie.path with
    | nil => exact .inl rfl
    | cons first text =>
      rw [own] at pathValid begins
      obtain rfl : first = '/' := (cons.inj begins).1
      exact .inr ⟨text, rfl, valid_completed pathValid⟩

/-- Among the hosts that end with the domain of a cookie there is a valid one. -/
theorem Matchable.host (matchable : Matchable cookie) :
    ∃ front, front ++ cookie.domain ≠ [] ∧ hostValid (front ++ cookie.domain) = true := by
  rcases matchable.domain with own | led
  · by_cases none : cookie.domain = []
    · exact ⟨['x'], cons_ne_nil _ _, by rw [none]; decide⟩
    · exact ⟨[], none, own⟩
  · exact ⟨['x'], cons_ne_nil _ _, led⟩

/-- A cookie that goes only where it is meant to, among the addresses made from components. -/
theorem Matchable.bounded (matchable : Matchable cookie)
    (reaches : ∀ host path urlAddress, ofComponents host path [] [] 0 true [] = .ok urlAddress →
      goesTo urlAddress cookie = true → Reaches urlAddress cookie) : Bounded cookie := by
  have reached {front : List Char} (filled : front ++ cookie.domain ≠ [])
      (valid : hostValid (front ++ cookie.domain) = true) :
      Under '.' (lower (front ++ cookie.domain)).reverse (lower cookie.domain).reverse ∧
        (cookie.path ≠ [] → Under '/' (cookie.path ++ ['0', '0']) cookie.path) := by
    obtain ⟨path, urlAddress, made, goes, host, ownPath⟩ := matchable.address filled valid
    obtain ⟨domain, under, -⟩ := reaches _ path urlAddress made goes
    rw [host] at domain
    exact ⟨domain, fun some => ownPath some ▸ under⟩
  constructor
  · cases led : hostValid ('x' :: cookie.domain) with
    | false => exact .inr rfl
    | true =>
      left
      have domain := (@reached ['x'] (cons_ne_nil _ _) led).1
      rw [show (lower (['x'] ++ cookie.domain)).reverse =
        (lower cookie.domain).reverse ++ ['x'] from reverse_cons,
        under_append_cons (by decide)] at domain
      exact getLast?_lower_reverse.mp domain
  · obtain ⟨front, filled, valid⟩ := matchable.host
    by_cases none : cookie.path = []
    · exact .inl none
    · exact .inr ((under_append_cons (by decide)).mp ((reached filled valid).2 none))

/-- A cookie that brings its boundaries along goes only where it is meant to. -/
theorem Located.reaches (located : Located urlAddress.parts.toUrlParts)
    (goes : goesTo urlAddress cookie = true) (bounded : Matchable cookie → Bounded cookie) :
    Reaches urlAddress cookie := by
  obtain ⟨secure, domain, path⟩ := goesTo_iff.mp goes
  rcases located with ⟨noHost, noPath⟩ | ⟨-, valid, rooted, pathValid⟩
  · -- nothing but an empty domain and an empty path is matched there
    rw [noHost] at domain
    rw [noPath, prefix_nil] at path
    have none := suffix_nil.mp domain
    refine ⟨.inl ?_, .inl ?_, secure⟩
    · rw [noHost, none]
      rfl
    · rw [noPath, path]
  · obtain ⟨ownDomain, ownPath⟩ := bounded (matchable_of_goesTo valid rooted pathValid goes)
    refine ⟨?_, ?_, secure⟩
    · obtain ⟨front, whole, ⟨none, -⟩ | ⟨point, -⟩ | led⟩ := domain_cases valid goes
      · left
        rw [whole, none, nil_append]
      · refine .inr ⟨front.reverse, by rw [whole, reverse_append], .inr ?_⟩
        rw [head?_reverse, point]
      · have dotted := ownDomain.resolve_right (by simp [led])
        exact under_of_boundary ( reverse_prefix.mpr domain) (getLast?_lower_reverse.mpr dotted)
    · rcases ownPath with none | slashed
      · obtain ⟨rest, begins⟩ := rooted
        refine .inr ⟨urlAddress.parts.path, by rw [none, nil_append], .inr ?_⟩
        rw [begins]
        rfl
      · exact under_of_boundary path slashed

/-- **Where cookies stay with their hosts and paths.** No cookie of a list goes to an address it
is not meant for, whichever address is made, exactly if every cookie that has not expired and that
some address matches has a domain that begins with a dot, or takes no letter in front, and a path
that is empty or ends with a slash. -/
theorem sent_reaches_iff (keepExpired : Bool) (list : List CookieDef) (curTime : Timeval) :
    (∀ encode (route : HTTPRoute) urlAddress, route.address encode = .ok urlAddress →
      ∀ cookie ∈ sent (CookieDefList.expire keepExpired list false curTime) urlAddress,
        Reaches urlAddress cookie) ↔
      ∀ cookie ∈ list, Lives keepExpired curTime cookie → Matchable cookie → Bounded cookie := by
  constructor
  · intro reaches cookie member lives matchable
    apply matchable.bounded
    intro host path urlAddress made goes
    exact reaches (fun host _ => .ok host) (.components host path [] [] 0 true []) urlAddress made
      cookie (mem_filter.mpr ⟨mem_expire_iff.mpr ⟨member, lives⟩, goes⟩)
  · intro bounded encode route urlAddress made cookie inside
    obtain ⟨left, goes⟩ := mem_filter.mp inside
    obtain ⟨member, lives⟩ := mem_expire_iff.mp left
    exact (HTTPRoute.located made).reaches goes (bounded cookie member lives)

/-- A cookie of a host that did not name a domain. -/
def hostCookie : CookieDef := ⟨['a'], ['1'], ['b', '.', 'c'], ['/'], .zero, false⟩

/-- It goes to another host whose name ends with the same letters. -/
theorem hostCookie_leaks :
    (HTTPAddress.ofText ['h', 't', 't', 'p', ':', '/', '/', 'x', 'b', '.', 'c', '/'] false).toOption.map
        (CookieDefList.cookieHeader false [hostCookie] .zero) = some ['a', '=', '1'] ∧
      ¬ Under '.' ['c', '.', 'b', 'x'] (lower hostCookie.domain).reverse := by
  refine ⟨by decide, ?_⟩
  have other : ['c', '.', 'b', 'x'] = (lower hostCookie.domain).reverse ++ ['x'] := by decide
  rw [other, under_append_cons (by decide)]
  decide

end UnixCommons.HTTP
