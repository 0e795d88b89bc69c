import UnixCommons.Library.Cut
import UnixCommons.String.StringManip
import UnixCommons.String.AsciiStringManip
import UnixCommons.String.Utf8Handler

/-!
# Addresses split into parts

`[scheme:][//[userinfo@]host[:port]][path][?query][#fragment]`

An address keeps its text and the parts it was split into. The parts are views of the text,
so an address that is made from parts, or from another address, first puts the text
together and then cuts the parts out of it again by their sizes. `HTTPAddress` adds the
rules of the protocol: without strictness a scheme is added and characters that may not
stand in a part are replaced by their codes. `BrowserAddress` is never strict and encodes
the host. The checkers go through the same rules without making an address.

Texts are lists of characters, one for every byte. The host is decoded from UTF-8 with the
memory behind it in reach. The encoding of the decoded host, if it is not plain ASCII or has a
label that may already be encoded, is a parameter.
-/

namespace UnixCommons.HTTP

open Cut

/-! ## Categories of characters -/

namespace Category

def hexNumber (ch : Char) : Bool :=
  ch.isDigit || ['A', 'B', 'C', 'D', 'E', 'F', 'a', 'b', 'c', 'd', 'e', 'f'].contains ch

def unreserved (ch : Char) : Bool := ch.isAlphanum || ['-', '.', '_', '~'].contains ch

/-- The exclamation mark, the apostrophe and what stands between and behind them. -/
def subDelims (ch : Char) : Bool :=
  ['!', '$', '&', Char.ofNat 39, '(', ')', '*', '+', ',', ';', '='].contains ch

def pchar (ch : Char) : Bool := unreserved ch || subDelims ch || [':', '@'].contains ch

/-- Characters that are not compliant but in use. -/
def nonCompliant (ch : Char) : Bool :=
  ['{', '}', '|', '^', '~', '[', ']', Char.ofNat 96].contains ch

def schemeEnd (ch : Char) : Bool := [':', '/', '?', '#'].contains ch

def authorityEnd (ch : Char) : Bool := ['/', '?', '#'].contains ch

def pathEnd (ch : Char) : Bool := ['?', '#'].contains ch

def queryEnd (ch : Char) : Bool := ch == '#'

def schemeNotFirst (ch : Char) : Bool := ch.isAlphanum || ['-', '+', '.'].contains ch

def userInfo (ch : Char) : Bool := unreserved ch || subDelims ch || ch == ':'

def host (ch : Char) : Bool := unreserved ch || subDelims ch

def path (ch : Char) : Bool := nonCompliant ch || pchar ch || ch == '/'

def query (ch : Char) : Bool := nonCompliant ch || pchar ch || ['/', '?'].contains ch

def fragment (ch : Char) : Bool := nonCompliant ch || pchar ch || ['/', '?'].contains ch

def labelFirstLast (ch : Char) : Bool := ch.isAlphanum || ch == '_'

def labelMiddle (ch : Char) : Bool := ch.isAlphanum || ['-', '_'].contains ch

end Category

def isValidChars (str : List Char) (category : Char → Bool) : Bool := str.all category

/-- The text from the first character on that is neither in the category nor the begin of
a code. -/
def findInvalid (category : Char → Bool) : List Char → List Char
  | [] => []
  | ch :: rest =>
    if category ch then findInvalid category rest
    else if ch = '%' then
      match rest with
      | high :: low :: behind =>
        if Category.hexNumber high && Category.hexNumber low then findInvalid category behind
        else ch :: rest
      | _ => ch :: rest
    else ch :: rest

/-- All characters belong to the category or are escaped. -/
def isValidEncoded (encoded : List Char) (category : Char → Bool) : Bool :=
  (findInvalid category encoded).isEmpty

/-- Comparison with a `Caseless` text. -/
def equalCaseless (str caseless : List Char) : Bool :=
  str.map Char.toLower == caseless.map Char.toLower

/-! ## The parts -/

/-- The parts of a URL, each with the flag that tells whether it is there. -/
structure UrlParts where
  hasScheme : Bool := false
  scheme : List Char := []
  hasUserinfo : Bool := false
  userinfo : List Char := []
  hasHost : Bool := false
  host : List Char := []
  hasPort : Bool := false
  port : List Char := []
  hasPath : Bool := false
  path : List Char := []
  hasQuery : Bool := false
  query : List Char := []
  hasFragment : Bool := false
  fragment : List Char := []
  deriving DecidableEq, Repr

/-- The parts with the authority as it was cut out. -/
structure ExtendedUrlParts extends UrlParts where
  authority : List Char := []
  deriving DecidableEq, Repr

/-- The constructor from texts. -/
def UrlParts.ofTexts (scheme userinfo host port path query fragment : List Char) : UrlParts where
  hasScheme := !scheme.isEmpty
  scheme := scheme
  hasUserinfo := !userinfo.isEmpty
  userinfo := userinfo
  hasHost := !host.isEmpty
  host := host
  hasPort := !port.isEmpty
  port := port
  hasPath := !path.isEmpty
  path := path
  hasQuery := !query.isEmpty
  query := query
  hasFragment := !fragment.isEmpty
  fragment := fragment

/-! ## Splitting -/

/-- `split_url` from the number sign on. -/
def splitFragment (cur : List Char) (parts : ExtendedUrlParts) : ExtendedUrlParts :=
  match cur with
  | [] => parts
  | _ :: fragment => { parts with hasFragment := true, fragment := fragment }

/-- `split_url` behind the path. -/
def splitQuery (cur : List Char) (parts : ExtendedUrlParts) : ExtendedUrlParts :=
  match cur with
  | '?' :: rest =>
    let (query, rest) := cutWhere Category.queryEnd rest
    splitFragment rest { parts with hasQuery := true, query := query }
  | _ => splitFragment cur parts

/-- `split_url` from the path on. -/
def splitPath (cur : List Char) (parts : ExtendedUrlParts) : ExtendedUrlParts :=
  let (path, rest) := cutWhere Category.pathEnd cur
  splitQuery rest { parts with hasPath := true, path := path }

/-- `split_url` behind the scheme. -/
def splitHierarchy (cur : List Char) (parts : ExtendedUrlParts) : ExtendedUrlParts :=
  match cur with
  | [] => parts
  | '?' :: _ => splitQuery cur parts
  | '#' :: _ => splitQuery cur parts
  | '/' :: '/' :: rest =>
    match cutWhere Category.authorityEnd rest with
    | (authority, []) => { parts with authority := authority }
    | (authority, stop :: rest) => splitPath (stop :: rest) { parts with authority := authority }
  | _ => splitPath cur parts

/-- The position of the last character of a kind. -/
def rfindChar (str : List Char) (ch : Char) : Option Nat :=
  (str.reverse.findIdx? (· == ch)).map (str.length - 1 - ·)

/-- The end of `split_url`: userinfo, host and port. -/
def splitAuthority (parts : ExtendedUrlParts) : ExtendedUrlParts :=
  let authority := parts.authority
  if authority.isEmpty then parts
  else
    let separator := authority.findIdx? (· == '@')
    let hostBegin := separator.elim 0 (· + 1)
    let userinfo := separator.elim [] fun position => authority.take position
    let hostEnd := (rfindChar authority ':').filter fun position =>
      !(hostBegin != 0 && position < hostBegin)
    let port := hostEnd.elim [] fun position => authority.drop (position + 1)
    { parts with
      hasUserinfo := !userinfo.isEmpty
      userinfo := userinfo
      hasPort := !port.isEmpty
      port := port
      hasHost := true
      host := (authority.drop hostBegin).take (hostEnd.getD authority.length - hostBegin) }

/-- `split_url`. -/
def splitUrl (url : List Char) : ExtendedUrlParts :=
  splitAuthority (match cutWhere Category.schemeEnd url with
    | (_, []) => { hasPath := true, path := url }
    | (scheme, ':' :: rest) => splitHierarchy rest { hasScheme := true, scheme := scheme }
    | _ => splitHierarchy url {})

/-! ## Checking the parts -/

/-- What is thrown for an invalid part. -/
def makeInvalid (type : String) (url : List Char) : Except String Unit :=
  .error ("invalid " ++ type ++ " '" ++ String.ofList url ++ "'")

/-- A check with the message of its failure. -/
def ensure (valid : Bool) (type : String) (url : List Char) : Except String Unit :=
  if valid then .ok () else makeInvalid type url

/-- The tokens a splitter finds between points; nothing behind the last point is none. -/
def labelsFrom (label : List Char) : List Char → List (List Char)
  | [] => if label.isEmpty then [] else [label]
  | ch :: rest =>
    if ch = '.' then label :: labelsFrom [] rest else labelsFrom (label ++ [ch]) rest

def labels (host : List Char) : List (List Char) := labelsFrom [] host

def maxHostnameSize : Nat := 255

def maxHostnameLabelSize : Nat := 63

/-- The characters of a label that is not empty. -/
def labelValid : List Char → Bool
  | [] => false
  | first :: rest =>
    Category.labelFirstLast first && rest.getLast?.all Category.labelFirstLast &&
      isValidChars rest.dropLast Category.labelMiddle

/-- The labels of the host, one after the other. -/
def checkLabels (url : List Char) : List (List Char) → Except String Unit
  | [] => .ok ()
  | label :: rest => do
    ensure (!label.isEmpty && decide (label.length ≤ maxHostnameLabelSize))
      "length of host's label in url" url
    ensure (labelValid label) "characters in host's label in url" url
    checkLabels url rest

/-- The host with its labels; without a host there is no user and no port. -/
def checkHost (url : List Char) (parts : UrlParts) : Except String Unit :=
  if parts.host.isEmpty then
    ensure (parts.userinfo.isEmpty && parts.port.isEmpty) "empty host in url" url
  else do
    ensure (decide (parts.host.length ≤ maxHostnameSize) &&
      isValidChars parts.host Category.host) "host in url" url
    checkLabels url (labels
      (if parts.host.getLast? = some '.' then parts.host.dropLast else parts.host))

/-- The scheme, which has a name if it is there. -/
def schemeValid (parts : UrlParts) : Bool :=
  match parts.scheme with
  | [] => !parts.hasScheme
  | first :: rest => first.isAlpha && isValidChars rest Category.schemeNotFirst

/-- A path behind a host begins with a slash, and one without a host not with two. -/
def pathBegins (parts : UrlParts) : Bool :=
  if parts.host.isEmpty then !(['/', '/'].isPrefixOf parts.path) else ['/'].isPrefixOf parts.path

/-- `URLPartsChecker` -/
def partsChecker (url : List Char) (parts : UrlParts) : Except String Unit := do
  ensure (schemeValid parts) "scheme in url" url
  ensure (parts.userinfo.isEmpty || isValidEncoded parts.userinfo Category.userInfo)
    "userinfo in url" url
  checkHost url parts
  ensure (parts.port.isEmpty || isValidChars parts.port Char.isDigit) "port in url" url
  ensure (parts.path.isEmpty ||
    (pathBegins parts && isValidEncoded parts.path Category.path)) "path in url" url
  ensure (parts.query.isEmpty || isValidEncoded parts.query Category.query) "query in url" url
  ensure (parts.fragment.isEmpty || isValidEncoded parts.fragment Category.fragment)
    "fragment in url" url

/-! ## Addresses -/

/-- An address: its text and its parts. -/
structure URLAddress where
  url : List Char
  parts : ExtendedUrlParts
  deriving DecidableEq, Repr

/-- Whether the text has an authority. -/
def UrlParts.hasAuthority (parts : UrlParts) : Bool :=
  parts.hasUserinfo || !parts.host.isEmpty || parts.hasPort

/-- The text of the authority. -/
def UrlParts.authorityText (parts : UrlParts) : List Char :=
  (if parts.hasUserinfo then parts.userinfo ++ ['@'] else []) ++ parts.host ++
    (if parts.hasPort then ':' :: parts.port else [])

/-- The text that `assign_url_parts_` puts together. -/
def UrlParts.assemble (parts : UrlParts) : List Char :=
  (if parts.scheme.isEmpty then [] else parts.scheme ++ [':']) ++
  (if parts.hasAuthority then '/' :: '/' :: parts.authorityText else []) ++
  parts.path ++
  (if parts.hasQuery then '?' :: parts.query else []) ++
  (if parts.hasFragment then '#' :: parts.fragment else [])

/-- `assign_url_parts_` cuts the parts out of the new text by the sizes that `parts` has
then. -/
def adjustParts (url : List Char) (hasAuthority : Bool) (authoritySize : Nat)
    (parts : UrlParts) : ExtendedUrlParts :=
  let behindScheme := if parts.scheme.isEmpty then url else url.drop (parts.scheme.length + 1)
  let authority := if hasAuthority then (behindScheme.drop 2).take authoritySize else []
  let pathBegin := if hasAuthority then behindScheme.drop (2 + authoritySize) else behindScheme
  let hostBegin := if parts.hasUserinfo then parts.userinfo.length + 1 else parts.userinfo.length
  let queryBegin := pathBegin.drop parts.path.length
  let fragmentBegin := if parts.hasQuery then queryBegin.drop (1 + parts.query.length) else queryBegin
  { hasScheme := !parts.scheme.isEmpty
    scheme := if parts.scheme.isEmpty then [] else url.take parts.scheme.length
    authority := authority
    hasUserinfo := hasAuthority && parts.hasUserinfo
    userinfo := if hasAuthority && parts.hasUserinfo then authority.take parts.userinfo.length else []
    hasHost := hasAuthority && !parts.host.isEmpty
    host := if hasAuthority && !parts.host.isEmpty then
        (authority.drop hostBegin).take parts.host.length else []
    hasPort := hasAuthority && parts.hasPort
    port := if hasAuthority && parts.hasPort then
        (authority.drop (authority.length - parts.port.length)).take parts.port.length else []
    hasPath := true
    path := pathBegin.take parts.path.length
    hasQuery := parts.hasQuery
    query := if parts.hasQuery then (queryBegin.drop 1).take parts.query.length else []
    hasFragment := parts.hasFragment
    fragment := if parts.hasFragment then (fragmentBegin.drop 1).take parts.fragment.length else [] }

/-- `assign_url_parts_` for parts that belong to another object. -/
def assignUrlParts (parts : UrlParts) : URLAddress where
  url := parts.assemble
  parts := adjustParts parts.assemble parts.hasAuthority parts.authorityText.length parts

namespace URLAddress

/-- The default constructor. -/
def empty : URLAddress := ⟨[], {}⟩

/-- `url_without_check_`. -/
def urlWithoutCheck (value : List Char) : URLAddress :=
  if value.isEmpty then empty else ⟨value, splitUrl value⟩

/-- `assign_`, with the checks of the class. -/
def assign (specificChecks : URLAddress → Except String URLAddress) (value : List Char) :
    Except String URLAddress := do
  let address ← specificChecks (urlWithoutCheck value)
  partsChecker address.url address.parts.toUrlParts
  return address

/-- The constructor from a text. -/
def ofText (value : List Char) : Except String URLAddress := assign .ok value

/-- The constructor from the texts of the parts. -/
def ofTexts (scheme userinfo host port path query fragment : List Char) :
    Except String URLAddress := do
  let parts := UrlParts.ofTexts scheme userinfo host port path query fragment
  partsChecker parts.assemble parts
  return assignUrlParts parts

/-- The copy constructor. -/
def copy (another : URLAddress) : URLAddress := assignUrlParts another.parts.toUrlParts

/-- Assignment from another object. -/
def assignFrom (_self another : URLAddress) : URLAddress := assignUrlParts another.parts.toUrlParts

/-- Assignment from the object itself: `parts` is the object's own record, which is cleared
before the sizes are read. -/
def assignSelf (self : URLAddress) : URLAddress where
  url := self.parts.assemble
  parts := adjustParts self.parts.assemble self.parts.hasAuthority
    self.parts.authorityText.length {}

end URLAddress

/-! ## HTTP -/

def httpScheme : List Char := ['h', 't', 't', 'p']

def httpsScheme : List Char := ['h', 't', 't', 'p', 's']

def isHttp (scheme : List Char) : Bool :=
  equalCaseless scheme httpScheme || equalCaseless scheme httpsScheme

/-- `check_http_url_components`. -/
def checkHttpUrlComponents (url scheme host : List Char) (strict : Bool) :
    Except String Unit := do
  ensure (isHttp scheme || (!strict && scheme.isEmpty)) "unexpected protocol in url" url
  ensure (!host.isEmpty) "empty server name in url" url

/-- `http_url_needs_prefix`. -/
def httpUrlNeedsPrefix (scheme host : List Char) : Bool := host.isEmpty && !isHttp scheme

def httpAddScheme (url : List Char) : List Char := httpScheme ++ [':', '/', '/'] ++ url

/-- The code of a character. -/
def escape (ch : Char) : List Char :=
  ['%', Text.hexDigits.getD (ch.toNat / 16 % 16) '0', Text.hexDigits.getD (ch.toNat % 16) '0']

/-- The loop of `http_fix_part`. Behind the first character that is replaced the query's
category decides. -/
def fixLoop : Nat → List Char → List Char
  | fuel + 1, ch :: old =>
    let str := findInvalid Category.query old
    escape ch ++ old.take (old.length - str.length) ++ fixLoop fuel str
  | _, _ => []

/-- `http_fix_part`; nothing if the part is valid. -/
def httpFixPart (part : List Char) (checker : Char → Bool) : Option (List Char) :=
  let str := findInvalid checker part
  if str.isEmpty then none
  else some (part.take (part.length - str.length) ++ fixLoop str.length str)

/-- The parts with what has been replaced, and whether anything has. -/
def fixParts (parts : UrlParts) : UrlParts × Bool :=
  let userinfo := httpFixPart parts.userinfo Category.userInfo
  let path := httpFixPart parts.path Category.path
  let query := httpFixPart parts.query Category.query
  let fragment := httpFixPart parts.fragment Category.fragment
  ({ parts with
      userinfo := userinfo.getD parts.userinfo
      path := path.getD parts.path
      query := query.getD parts.query
      fragment := fragment.getD parts.fragment },
    userinfo.isSome || path.isSome || query.isSome || fragment.isSome)

/-- An address for HTTP with its port. -/
structure HTTPAddress extends URLAddress where
  strict : Bool
  portNumber : Nat
  secure : Bool
  defaultPort : Bool
  deriving DecidableEq, Repr

namespace HTTPAddress

/-- What a constructor starts with. -/
def empty (strict : Bool) : HTTPAddress := ⟨URLAddress.empty, strict, 0, false, true⟩

def getDefaultPort (secure : Bool) : Nat := if secure then 443 else 80

def defaultPath : List Char := ['/']

/-- Without strictness a scheme is added where it is missing. -/
def withScheme (strict : Bool) (address : URLAddress) : URLAddress :=
  if !strict && httpUrlNeedsPrefix address.parts.scheme address.parts.host then
    URLAddress.urlWithoutCheck (httpAddScheme address.url)
  else address

/-- The end of `specific_checks_`: without strictness the parts are fixed, and the address
is built again if anything has changed. -/
def mend (strict rebuild : Bool) (address : URLAddress) : URLAddress :=
  let (newParts, fixed) :=
    if strict then (address.parts.toUrlParts, false) else fixParts address.parts.toUrlParts
  if rebuild || fixed then assignUrlParts newParts else address

/-- `specific_checks_`; the additional checks belong to the class. -/
def specificChecks (strict : Bool)
    (additionalChecks : URLAddress → Except String (URLAddress × Bool)) (address : URLAddress) :
    Except String URLAddress := do
  let (address, rebuild) ← additionalChecks (withScheme strict address)
  checkHttpUrlComponents address.url address.parts.scheme address.parts.host strict
  return mend strict rebuild address

/-- The number of the port, and whether it is the default. -/
def portOf (secure : Bool) (port : List Char) : Except String (Nat × Bool) :=
  if port.isEmpty then .ok (getDefaultPort secure, true)
  else match Text.strToUnsigned 65535 port with
    | some number => .ok (number, false)
    | none => .error ("invalid port value=" ++ String.ofList port)

/-- `assign_` -/
def assign (strict : Bool)
    (additionalChecks : URLAddress → Except String (URLAddress × Bool)) (httpUrl : List Char) :
    Except String HTTPAddress :=
  if httpUrl.isEmpty then .error "url is nil"
  else do
    let address ← URLAddress.assign (specificChecks strict additionalChecks) httpUrl
    let secure := equalCaseless address.parts.scheme httpsScheme
    let (portNumber, defaultPort) ← portOf secure address.parts.port
    let path := if address.parts.path.isEmpty then defaultPath else address.parts.path
    return {
      url := address.url
      parts := { address.parts with path := path }
      strict := strict
      portNumber := portNumber
      secure := secure
      defaultPort := defaultPort }

/-- The checks of `HTTPAddress` beyond those of a URL: none. -/
def additionalChecks (address : URLAddress) : Except String (URLAddress × Bool) :=
  .ok (address, false)

/-- The constructor from a text. -/
def ofText (url : List Char) (strict : Bool) : Except String HTTPAddress :=
  if url.isEmpty then .ok (empty strict) else assign strict additionalChecks url

/-- `set_`, on an address as a constructor starts with it. -/
def set (self : HTTPAddress) (secure : Bool) (userinfo host : List Char) (port : Nat)
    (path query fragment : List Char) : Except String HTTPAddress :=
  if host.isEmpty then .ok { self with defaultPort := true, portNumber := 0 }
  else do
    let defaultPort := port == getDefaultPort secure
    let parts := UrlParts.ofTexts (if secure then httpsScheme else httpScheme) userinfo host
      (if defaultPort then [] else Nat.toDigits 10 port)
      (if path.isEmpty then defaultPath else path) query fragment
    partsChecker parts.assemble parts
    return {
      toURLAddress := assignUrlParts parts
      strict := self.strict
      portNumber := port
      secure := secure
      defaultPort := defaultPort }

/-- The constructor from components; a port of zero stands for the default. -/
def ofComponents (host path query fragment : List Char) (port : UInt16) (secure : Bool)
    (userinfo : List Char) : Except String HTTPAddress :=
  set (empty false) secure userinfo host
    (if port = 0 then getDefaultPort secure else port.toNat) path query fragment

end HTTPAddress

/-- Where the host begins in the text that the parts are views of. -/
def hostOffset (parts : ExtendedUrlParts) : Nat :=
  (if parts.hasScheme then parts.scheme.length + 1 else 0) + 2 +
    (parts.authority.findIdx? (· == '@')).elim 0 (· + 1)

/-- The text behind the host. -/
def behindHost (url : List Char) (parts : ExtendedUrlParts) : List Char :=
  url.drop (hostOffset parts + parts.host.length)

/-- The parts that a checker goes through and the memory behind their host. They are views of
the given text, with the memory `beyond` it, or of the checker's own text with a scheme added,
which a NUL ends. -/
def checkedParts (url beyond : List Char) (strict : Bool) : ExtendedUrlParts × List Char :=
  let split := splitUrl url
  if !strict && httpUrlNeedsPrefix split.scheme split.host then
    let fixedUrl := httpAddScheme url
    (splitUrl fixedUrl, behindHost fixedUrl (splitUrl fixedUrl))
  else (split, behindHost url split ++ beyond)

/-- `HTTPChecker`, with what the class does to the parts first. -/
def checkHttp (processParts : List Char → ExtendedUrlParts → List Char →
      Except String ExtendedUrlParts)
    (url beyond : List Char) (strict : Bool) : Except String Unit :=
  if url.isEmpty then .error "url is null"
  else do
    let (split, behind) := checkedParts url beyond strict
    let parts ← processParts url split behind
    checkHttpUrlComponents url parts.scheme parts.host strict
    partsChecker url parts.toUrlParts

/-- `HTTPChecker::process_parts_` -/
def clearParts (strict : Bool) (parts : ExtendedUrlParts) : ExtendedUrlParts :=
  if strict then parts
  else { parts with
    hasUserinfo := false, userinfo := []
    hasPath := false, path := []
    hasQuery := false, query := []
    hasFragment := false, fragment := [] }

/-- `HTTPChecker`; it does not look at the memory beyond the text. -/
def httpChecker (url : List Char) (strict : Bool) : Except String Unit :=
  checkHttp (fun _ parts _ => .ok (clearParts strict parts)) url [] strict

/-! ## Browsers -/

def idnaPrefix : List Char := ['x', 'n', '-', '-']

/-- A host that is only written in small letters: ASCII, with labels that are not encoded. -/
def isPlainHost (host : List Char) : Bool :=
  host.all (·.toNat < 128) && (labels host).all fun label =>
    !label.isEmpty && decide (label.length ≤ maxHostnameLabelSize) &&
      !equalCaseless (label.take 4) idnaPrefix

/-- The octets of a text. -/
def octets (text : List Char) : List UInt8 := text.map fun ch => .ofNat ch.toNat

/-- The loop of `idna_normalize_host` that decodes the host. `size` octets of it are left, and
every round takes one at least; a character whose octets are cut off by the end of the host is
read on in the memory behind it. -/
def decodeLoop : Nat → Nat → List UInt8 → Option (List Nat)
  | 0, _, _ => some []
  | rounds + 1, size, memory =>
    if size = 0 then some []
    else
      let octetCount := Text.getOctetCount (memory.headD 0)
      let (read, wch) := Text.utf8CharToWchar memory octetCount
      if read then
        (decodeLoop rounds (size - octetCount) (memory.drop octetCount)).map (wch :: ·)
      else none

/-- The wide characters of a host that has the text `behind` it in memory. -/
def decodeHost (host behind : List Char) : Option (List Nat) :=
  decodeLoop host.length host.length (octets (host ++ behind))

section Browser

-- What `idna_normalize_host` does with the wide characters of a host that is not plain; the host
-- itself is for the messages.
variable (encode : List Char → List Nat → Except String (List Char))

/-- `idna_normalize_host`. -/
def idnaNormalizeHost (host behind : List Char) : Except String (List Char) :=
  if host.isEmpty then .error "Host name is empty"
  else if maxHostnameSize ≤ host.length then
    .error ("Host name '" ++ String.ofList host ++ "' is too large")
  else match decodeHost host behind with
    | none => .error ("Invalid input sequence in host '" ++ String.ofList host ++ "'")
    | some whost => if isPlainHost host then .ok (host.map Char.toLower) else encode host whost

/-- The same, with the address in the message. -/
def idnaHostNormalize (url host behind : List Char) : Except String (List Char) :=
  match idnaNormalizeHost encode host behind with
  | .ok ascii => .ok ascii
  | .error message => .error (message ++ " in url '" ++ String.ofList url ++ "'")

namespace BrowserAddress

/-- `process_host_` on the parts, which are views of the address's own text. -/
def additionalChecks (address : URLAddress) : Except String (URLAddress × Bool) := do
  let encodedHost ← idnaHostNormalize encode address.url address.parts.host
    (behindHost address.url address.parts)
  return ({ address with parts := { address.parts with host := encodedHost } }, true)

/-- The constructor from a text. -/
def ofText (url : List Char) : Except String HTTPAddress :=
  if url.isEmpty then .ok (HTTPAddress.empty false)
  else HTTPAddress.assign false (additionalChecks encode) url

/-- The constructor from components; `beyond` is the memory behind the host that is given. -/
def ofComponents (host beyond path query fragment : List Char) (port : UInt16) (secure : Bool)
    (userinfo : List Char) : Except String HTTPAddress := do
  let encodedHost ← idnaHostNormalize encode [] host beyond
  HTTPAddress.set (HTTPAddress.empty true) secure userinfo encodedHost
    (if port = 0 then HTTPAddress.getDefaultPort secure else port.toNat) path query fragment

end BrowserAddress

/-- `BrowserChecker`; `beyond` is the memory behind the text. -/
def browserChecker (url beyond : List Char) : Except String Unit :=
  checkHttp (fun url parts behind => do
    let encodedHost ← idnaHostNormalize encode url (clearParts false parts).host behind
    return { clearParts false parts with host := encodedHost }) url beyond false

end Browser

end UnixCommons.HTTP
