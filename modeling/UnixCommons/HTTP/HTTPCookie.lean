import UnixCommons.HTTP.CookieDate

/-!
# Lists of cookies and their headers

`set_cookie_header` writes the cookies of one domain, path, expiration time and secure flag
into one header: the names and values first, the attributes behind them.
`load_from_headers` goes through a header from its end, part by part between semicolons.
As long as it has met attributes only, a part with the name of an attribute is one; the
first part with another name begins the cookies, and from there on every part is one. A
cookie replaces the one of its domain, path and name, or removes it when it has expired.

Texts are lists of characters, one for every byte. The clock is read once.
-/

namespace UnixCommons.HTTP

open Generics

/-- A cookie. -/
structure CookieDef where
  name : List Char := []
  value : List Char := []
  domain : List Char := []
  path : List Char := []
  expires : Timeval := .zero
  secure : Bool := false
  deriving DecidableEq, Repr

/-- A header of a response. -/
structure Header where
  name : List Char
  value : List Char
  deriving DecidableEq, Repr

def secureName : List Char := ['s', 'e', 'c', 'u', 'r', 'e']

def pathName : List Char := ['p', 'a', 't', 'h']

def domainName : List Char := ['d', 'o', 'm', 'a', 'i', 'n']

def expiresName : List Char := ['e', 'x', 'p', 'i', 'r', 'e', 's']

def setCookieName : List Char := ['S', 'e', 't', '-', 'C', 'o', 'o', 'k', 'i', 'e']

/-- The names a part is taken for an attribute by, until a cookie has been met. -/
def isAttribute (name : List Char) : Bool :=
  equalCaseless name secureName || equalCaseless name pathName || equalCaseless name domainName ||
    equalCaseless name expiresName

/-- `trim`, of spaces. -/
def trim (str : List Char) : List Char := (str.dropWhile isSpace).rdropWhile isSpace

/-! ## Reading -/

/-- What a list is read for: the address, whether expired cookies are kept, and the time. -/
structure Reader where
  urlAddress : HTTPAddress
  keepExpired : Bool
  now : Timeval

/-- The state of reading one header. -/
structure Parsing where
  list : List CookieDef
  cookie : CookieDef
  controlInfo : Bool := true
  expired : Bool := false
  deriving DecidableEq, Repr

/-- The cookies that replace each other. -/
def samePlace (cookie other : CookieDef) : Bool :=
  equalCaseless other.domain cookie.domain && other.path == cookie.path && other.name == cookie.name

/-- The first cookie of the same place is replaced. -/
def replaceFirst (cookie : CookieDef) : List CookieDef → List CookieDef
  | [] => []
  | other :: rest =>
    if samePlace cookie other then cookie :: rest else other :: replaceFirst cookie rest

/-- Puts a cookie into the list, or takes it out when it is to be dropped. -/
def place (cookie : CookieDef) (drop : Bool) (list : List CookieDef) : List CookieDef :=
  if list.any (samePlace cookie) then
    if drop then list.eraseP (samePlace cookie) else replaceFirst cookie list
  else if drop then list
  else cookie :: list

/-- The defaults of attributes, from the address. -/
def withDefaults (reader : Reader) (cookie : CookieDef) : CookieDef :=
  { cookie with
    path := if cookie.path.isEmpty then reader.urlAddress.parts.path
      else if cookie.path = [Char.ofNat 92] then ['/']
      else cookie.path
    domain := if cookie.domain.isEmpty || cookie.domain = ['.'] then reader.urlAddress.parts.host
      else cookie.domain }

/-- The cookie under construction is put into the list. -/
def storeCookie (reader : Reader) (state : Parsing) (name value : List Char) : Parsing :=
  let cookie := { state.cookie with name := name, value := value }
  { state with
    cookie := cookie
    list := place cookie (state.expired && !reader.keepExpired) state.list }

/-- The text that is thrown. -/
def faultText (header : List Char) : ExpiresFault → String
  | .invalidArgument text => String.ofList text
  | .timeException text =>
    "\tTime::Exception has been caught during parsing header:\n\t\"Set-Cookie: " ++
      String.ofList header ++ "\"\nDescription:\n" ++ text ++ "\n"

/-- The attribute with the date of expiry. -/
def setExpires (reader : Reader) (header : List Char) (state : Parsing) (value : List Char) :
    Except String Parsing :=
  match getExpires value with
  | .error fault => .error (faultText header fault)
  | .ok expires =>
    .ok { state with
      cookie := { state.cookie with expires := expires }
      expired := expires.less reader.now }

/-- `parse_value`, for a name and a value that have been trimmed. -/
def parseNamed (reader : Reader) (header : List Char) (state : Parsing) (name value : List Char) :
    Except String Parsing :=
  if name.isEmpty then .ok state
  else if state.controlInfo then
    if equalCaseless name secureName then
      .ok { state with cookie := { state.cookie with secure := true } }
    else if equalCaseless name pathName then
      .ok { state with cookie := { state.cookie with path := value } }
    else if equalCaseless name domainName then
      .ok { state with cookie := { state.cookie with domain := value } }
    else if equalCaseless name expiresName then setExpires reader header state value
    else
      let begun := { state with cookie := withDefaults reader state.cookie, controlInfo := false }
      .ok (storeCookie reader begun name value)
  else .ok (storeCookie reader state name value)

/-- `parse_value` of a part; `sep` is what stands behind its first equality sign. -/
def parseValue (reader : Reader) (header : List Char) (state : Parsing) (part : List Char)
    (sep : Option (List Char)) : Except String Parsing :=
  match sep with
  | none => parseNamed reader header state (trim part) []
  | some value =>
    parseNamed reader header state (trim (part.take (part.length - value.length - 1))) (trim value)

/-- The loop through a header from its end: the characters in front, whether none has been
passed, the part so far with its `sep`, and the state. -/
def scanHeader (parse : Parsing → List Char → Option (List Char) → Except String Parsing) :
    List Char → Bool → List Char → Option (List Char) → Parsing → Except String Parsing
  | [], atBegin, part, sep, state => if atBegin then .ok state else parse state part sep
  | ch :: rest, atBegin, part, sep, state =>
    if ch = ';' then
      (if atBegin then .ok state else parse state part sep) >>= scanHeader parse rest false [] none
    else if ch = '=' then scanHeader parse rest false (ch :: part) (some part) state
    else scanHeader parse rest false (ch :: part) sep state

/-- One header; all but `Set-Cookie` are passed over. -/
def readHeader (reader : Reader) (list : List CookieDef) (header : Header) :
    Except String (List CookieDef) :=
  if equalCaseless header.name setCookieName then do
    let state ← scanHeader (parseValue reader header.value) header.value.reverse true [] none
      { list := list, cookie := { secure := reader.urlAddress.secure } }
    return state.list
  else .ok list

/-- `load_from_headers`. -/
def loadFromHeaders (reader : Reader) (list : List CookieDef) (headers : List Header) :
    Except String (List CookieDef) :=
  headers.foldlM (readHeader reader) list

/-! ## Writing -/

/-- The cookies that are written in one header. -/
def inGroup (cookie other : CookieDef) : Bool :=
  equalCaseless other.domain cookie.domain && other.path == cookie.path &&
    other.expires == cookie.expires && other.secure == cookie.secure

def pairText (cookie : CookieDef) : List Char := cookie.name ++ '=' :: cookie.value

/-- The cookies of a header. -/
def pairsText : List CookieDef → List Char
  | [] => []
  | cookie :: rest => pairText cookie ++ rest.flatMap fun other => ';' :: ' ' :: pairText other

def attributeText (name value : List Char) : List Char := ';' :: ' ' :: (name ++ '=' :: value)

/-- The attributes of a header. -/
def attributesText (cookie : CookieDef) : Except String (List Char) := do
  let expires ←
    if cookie.expires ≠ .zero then attributeText expiresName <$> cookieDate cookie.expires
    else pure []
  return expires ++
    (if cookie.domain.isEmpty then [] else attributeText domainName cookie.domain) ++
    (if cookie.path.isEmpty then [] else attributeText pathName cookie.path) ++
    (if cookie.secure then ';' :: ' ' :: secureName else [])

/-- The loop of `set_cookie_header`; every round erases the first cookie at least. -/
def setCookieLoop : Nat → List CookieDef → Except String (List Header)
  | 0, _ => .ok []
  | _ + 1, [] => .ok []
  | fuel + 1, cookie :: rest => do
    let attributes ← attributesText cookie
    let header := pairsText ((cookie :: rest).filter (inGroup cookie)) ++ attributes
    let headers ← setCookieLoop fuel ((cookie :: rest).filter (!inGroup cookie ·))
    return ⟨setCookieName, header⟩ :: headers

/-- `set_cookie_header`. -/
def setCookieHeader (cookies : List CookieDef) : Except String (List Header) :=
  setCookieLoop cookies.length cookies

end UnixCommons.HTTP
