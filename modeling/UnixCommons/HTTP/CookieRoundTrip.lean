import UnixCommons.HTTP.CookieParts
import UnixCommons.Library.Outcome

/-!
# Cookies written and read back

The attributes of a header are read as they were written. The cookies follow, and they come
back exactly when the last cookie of the group does not have the name of an attribute: such
a cookie is taken for one, and then the list that is read is shorter than the list that was
written.
-/

namespace UnixCommons.HTTP

open Generics Cut List Outcome

variable {first other : CookieDef} {rest group : List CookieDef}

section Read

variable {pairs : List (List Char × List Char)} {cookie : CookieDef} {list : List CookieDef}
  {state : Parsing}

variable {now : Timeval} {reader : Reader} {header : List Char}

/-- The state in which the reading of a header begins. -/
def beginning (reader : Reader) (list : List CookieDef) : Parsing where
  list := list
  cookie := { secure := reader.urlAddress.secure }

/-- Reading a header that was written is reading its names and values. -/
theorem readHeader_pairs {others : List CookieDef}
    (fit : ∀ cookie ∈ first :: others, cookie.Fit now) {attributes : List (List Char)}
    (read : List.Forall₂ ReadAs attributes pairs) (list : List CookieDef) :
    readHeader reader list ⟨setCookieName, pairsText (first :: others) ++ behind attributes⟩ =
      Parsing.list <$> readPairs reader (pairsText (first :: others) ++ behind attributes)
        ((first :: others).map CookieDef.pair ++ pairs) (beginning reader list) := by
  obtain ⟨parts, text, partsRead⟩ := pairsText_parts fit
  have allRead : List.Forall₂ ReadAs (pairText first :: (parts ++ attributes))
      ((first :: others).map CookieDef.pair ++ pairs) := rel_append partsRead read
  obtain ⟨firstRead, othersRead⟩ := forall_mem_cons.mp (readAs_of_mem allRead)
  have firstSolid : ';' ∉ pairText first := firstRead.elim fun _ read => read.solid
  have othersSolid : ∀ part ∈ parts ++ attributes, ';' ∉ part :=
    fun part inside => (othersRead part inside).elim fun _ read => read.solid
  have lastNonempty : (pairText first :: (parts ++ attributes)).getLast? ≠ some [] := by
    intro empty
    obtain ⟨_, read⟩ := readAs_of_mem allRead [] (mem_of_getLast? empty)
    exact read.nonempty rfl
  have joined : pairsText (first :: others) ++ behind attributes =
      pairText first ++ behind (parts ++ attributes) := by
    simp [text, behind]
  simp only [readHeader]
  rw [joined, scanHeader_parts firstSolid othersSolid (fun _ => lastNonempty), readParts_pairs allRead]
  rfl

/-! ## The attributes are read -/

section Attributes

variable {state : Parsing} (control : state.controlInfo = true) (value : List Char)

include control

theorem parseNamed_secure : parseNamed reader header state secureName value =
    .ok { state with cookie := { state.cookie with secure := true } } := by
  have same : equalCaseless secureName secureName = true := by decide
  simp [parseNamed, control, same, show secureName ≠ [] by decide]

theorem parseNamed_path : parseNamed reader header state pathName value =
    .ok { state with cookie := { state.cookie with path := value } } := by
  have other : equalCaseless pathName secureName = false := by decide
  have same : equalCaseless pathName pathName = true := by decide
  simp [parseNamed, control, other, same, show pathName ≠ [] by decide]

theorem parseNamed_domain : parseNamed reader header state domainName value =
    .ok { state with cookie := { state.cookie with domain := value } } := by
  have noSecure : equalCaseless domainName secureName = false := by decide
  have noPath : equalCaseless domainName pathName = false := by decide
  have same : equalCaseless domainName domainName = true := by decide
  simp [parseNamed, control, noSecure, noPath, same, show domainName ≠ [] by decide]

theorem parseNamed_expires {expires : Timeval} (read : getExpires value = .ok expires) :
    parseNamed reader header state expiresName value =
      .ok { state with
        cookie := { state.cookie with expires := expires }
        expired := expires.less reader.now } := by
  have noSecure : equalCaseless expiresName secureName = false := by decide
  have noPath : equalCaseless expiresName pathName = false := by decide
  have noDomain : equalCaseless expiresName domainName = false := by decide
  have same : equalCaseless expiresName expiresName = true := by decide
  simp [parseNamed, control, noSecure, noPath, noDomain, same, setExpires, read,
    show expiresName ≠ [] by decide]

end Attributes

/-- A state that has read the attributes of a cookie. -/
structure Parsing.Attributes (state : Parsing) (cookie : CookieDef) : Prop where
  domain : state.cookie.domain = cookie.domain
  path : state.cookie.path = cookie.path
  expires : state.cookie.expires = cookie.expires
  secure : state.cookie.secure = cookie.secure
  unexpired : state.expired = false

/-- The attributes that are written are read back into the cookie under construction. -/
theorem readPairs_attributePairs {cookie : CookieDef} (fit : cookie.Fit reader.now)
    (insecure : reader.urlAddress.secure = false) {date : List Char}
    (read : getExpires date = .ok cookie.expires) (list : List CookieDef) :
    ∃ state, readPairs reader header (attributePairs cookie date) (beginning reader list) = .ok state ∧
      state.Attributes cookie ∧ state.list = list ∧ state.controlInfo = true := by
  have secured : readPairs reader header (if cookie.secure then [(secureName, [])] else [])
      (beginning reader list) = .ok { list := list, cookie := { secure := cookie.secure } } := by
    cases cookie.secure with
    | false => simp [readPairs_nil, beginning, insecure]
    | true =>
      simp only [if_true, readPairs_cons, readPairs_nil, ok_bind]
      exact parseNamed_secure rfl []
  have placed : readPairs reader header [(domainName, cookie.domain), (pathName, cookie.path)]
      { list := list, cookie := { secure := cookie.secure } } =
      .ok { list := list,
            cookie := { secure := cookie.secure, domain := cookie.domain, path := cookie.path } } := by
    simp only [readPairs_cons, readPairs_nil, ok_bind, parseNamed_path]
    exact parseNamed_domain rfl cookie.domain
  rw [attributePairs, readPairs_append, secured, ok_bind, readPairs_append, placed,
    ok_bind]
  by_cases session : cookie.expires = .zero
  · rw [if_neg (not_not_intro session)]
    exact ⟨_, rfl, ⟨rfl, rfl, session.symm, rfl, rfl⟩, rfl, rfl⟩
  · rw [if_pos session, readPairs_cons, readPairs_nil, ok_bind, parseNamed_expires rfl date read]
    exact ⟨_, rfl, ⟨rfl, rfl, rfl, rfl, fit.unexpired.resolve_left session⟩, rfl, rfl⟩

/-! ## The cookies are read -/

/-- Lower case texts are compared as they are. -/
theorem equalCaseless_lower {text other : List Char} (lower : text.map Char.toLower = text)
    (otherLower : other.map Char.toLower = other) : equalCaseless text other = true ↔ text = other := by
  rw [equalCaseless, lower, otherLower, beq_iff_eq]

/-- Cookies that are told apart by their domain, path and name. -/
def Apart (cookie other : CookieDef) : Prop :=
  (cookie.domain, cookie.path, cookie.name) ≠ (other.domain, other.path, other.name)
  deriving Decidable

/-- Cookies that are apart do not replace each other. -/
theorem samePlace_eq_false (fit : cookie.Fit now) (otherFit : other.Fit now)
    (apart : Apart cookie other) : samePlace cookie other = false := by
  rw [Bool.eq_false_iff]
  intro same
  simp only [samePlace, Bool.and_eq_true, beq_iff_eq,
    equalCaseless_lower otherFit.lowerCase fit.lowerCase] at same
  obtain ⟨⟨domain, path⟩, name⟩ := same
  exact apart (by rw [domain, path, name])

/-- A cookie that is apart from all others is put in front. -/
theorem place_new (fit : cookie.Fit now)
    (others : ∀ other ∈ list, other.Fit now ∧ Apart cookie other) :
    place cookie false list = cookie :: list := by
  have none : list.any (samePlace cookie) = false := by
    rw [any_eq_false]
    intro other inside
    simp [samePlace_eq_false fit (others other inside).1 (others other inside).2]
  simp [place, none]

/-- A cookie behind its attributes is put into the list, if it is not taken for an attribute
itself. -/
theorem parseNamed_cookie (fit : cookie.Fit now)
    (attributes : state.Attributes cookie)
    (begins : state.controlInfo = true → isAttribute cookie.name = false) :
    parseNamed reader header state cookie.name cookie.value =
      .ok { list := place cookie false state.list, cookie := cookie, controlInfo := false,
            expired := false } := by
  have named : cookie.name.isEmpty = false := isEmpty_eq_false_iff.mpr fit.named
  have whole : { state.cookie with name := cookie.name, value := cookie.value } = cookie := by
    simp only [attributes.domain, attributes.path, attributes.expires, attributes.secure]
  have defaults : withDefaults reader state.cookie = state.cookie := by
    have path : state.cookie.path.isEmpty = false := by
      rw [attributes.path]
      exact isEmpty_eq_false_iff.mpr fit.path_ne_nil
    have noBackslash : state.cookie.path ≠ [Char.ofNat 92] := by
      intro same
      have absolute := fit.absolute
      rw [← attributes.path, same] at absolute
      exact absurd absolute (by decide)
    have domain : (state.cookie.domain.isEmpty || decide (state.cookie.domain = ['.'])) = false := by
      rw [attributes.domain]
      simp [fit.host.1, fit.host.2]
    simp [withDefaults, path, noBackslash, domain]
  have stored : ∀ begun : Parsing, begun.cookie = state.cookie → begun.expired = false →
      begun.controlInfo = false → begun.list = state.list →
      storeCookie reader begun cookie.name cookie.value =
        { list := place cookie false state.list, cookie := cookie, controlInfo := false,
          expired := false } := by
    intro begun sameCookie unexpired control sameList
    simp only [storeCookie, sameCookie, whole, unexpired, control, sameList, Bool.false_and]
  cases control : state.controlInfo with
  | false =>
    simp only [parseNamed, named, control]
    exact congrArg Except.ok (stored state rfl attributes.unexpired control rfl)
  | true =>
    have plain := begins control
    simp only [isAttribute, Bool.or_eq_false_iff] at plain
    simp only [parseNamed, named, control, plain]
    exact congrArg Except.ok (stored _ defaults attributes.unexpired rfl rfl)

/-- The cookies of a group are put in front of the list, if the last one is not taken for an
attribute. The induction goes to the front of the group, as the header is read. -/
theorem readPairs_group (fit : ∀ cookie ∈ first :: rest, cookie.Fit now)
    (distinct : (first :: rest).Pairwise Apart)
    (same : ∀ cookie ∈ first :: rest, state.Attributes cookie)
    (plain : ∀ last ∈ (first :: rest).getLast?, isAttribute last.name = false)
    (others : ∀ other ∈ state.list, other.Fit now ∧ ∀ cookie ∈ first :: rest, Apart cookie other) :
    readPairs reader header ((first :: rest).map CookieDef.pair) state =
      .ok { list := first :: rest ++ state.list, cookie := first, controlInfo := false,
            expired := false } := by
  induction rest generalizing first with
  | nil =>
    have firstFit := fit first mem_cons_self
    have begins : isAttribute first.name = false := plain first rfl
    have new := place_new firstFit fun other inside =>
      ⟨(others other inside).1, (others other inside).2 first mem_cons_self⟩
    rw [map_cons, readPairs_cons]
    change parseNamed reader header state first.name first.value = _
    rw [parseNamed_cookie firstFit (same first mem_cons_self) fun _ => begins, new]
    rfl
  | cons second rest ih =>
    obtain ⟨firstFit, restFit⟩ := forall_mem_cons.mp fit
    obtain ⟨firstSame, restSame⟩ := forall_mem_cons.mp same
    obtain ⟨firstApart, restDistinct⟩ := pairwise_cons.mp distinct
    have secondSame := restSame second mem_cons_self
    have read := ih restFit restDistinct restSame
      (fun last inside => plain last (by rwa [List.getLast?_cons_cons]))
      (fun other inside => ⟨(others other inside).1,
        fun cookie member => (others other inside).2 cookie (mem_cons_of_mem _ member)⟩)
    have attributes : Parsing.Attributes
        { list := second :: rest ++ state.list, cookie := second, controlInfo := false,
          expired := false } first :=
      ⟨secondSame.domain.symm.trans firstSame.domain, secondSame.path.symm.trans firstSame.path,
        secondSame.expires.symm.trans firstSame.expires,
        secondSame.secure.symm.trans firstSame.secure, rfl⟩
    have new : place first false (second :: rest ++ state.list) =
        first :: (second :: rest ++ state.list) := by
      apply place_new firstFit
      intro other inside
      rcases mem_append.mp inside with member | before
      · exact ⟨restFit other member, firstApart other member⟩
      · exact ⟨(others other before).1, (others other before).2 first mem_cons_self⟩
    rw [map_cons, readPairs_cons, read]
    change parseNamed reader header _ first.name first.value = _
    rw [parseNamed_cookie firstFit attributes nofun, new]
    rfl

end Read

/-! ## How many cookies are read -/

section Count

variable {reader : Reader} {header : List Char}

theorem length_replaceFirst {cookie : CookieDef} {list : List CookieDef} :
    (replaceFirst cookie list).length = list.length := by
  induction list with
  | nil => rfl
  | cons other rest ih =>
    unfold replaceFirst
    split_ifs <;> simp [ih]

/-- A cookie makes the list longer by one at most. -/
theorem length_place {cookie : CookieDef} {drop : Bool} {list : List CookieDef} :
    (place cookie drop list).length ≤ list.length + 1 := by
  unfold place
  split_ifs
  · exact Nat.le_succ_of_le (length_eraseP_le)
  · exact length_replaceFirst.le.trans (Nat.le_succ _)
  · exact Nat.le_succ _
  · exact le_refl _

variable {next : Parsing} {name value : List Char}

/-- What a part does: it leaves the list as it is, or it stores a cookie, which it does not
do when it is taken for an attribute. -/
theorem parseNamed_cases (parsed : parseNamed reader header state name value = .ok next) :
    (next.list = state.list ∧ next.controlInfo = state.controlInfo) ∨
    ((state.controlInfo = true → isAttribute name = false) ∧
      ∃ begun : Parsing, begun.list = state.list ∧ next = storeCookie reader begun name value) := by
  unfold parseNamed at parsed
  split_ifs at parsed with empty control secure path domain expires
  · cases parsed
    exact .inl ⟨rfl, rfl⟩
  · cases parsed
    exact .inl ⟨rfl, rfl⟩
  · cases parsed
    exact .inl ⟨rfl, rfl⟩
  · cases parsed
    exact .inl ⟨rfl, rfl⟩
  · unfold setExpires at parsed
    split at parsed
    · exact absurd parsed nofun
    · cases parsed
      exact .inl ⟨rfl, rfl⟩
  · cases parsed
    refine .inr ⟨fun _ => ?_,
      { state with cookie := withDefaults reader state.cookie, controlInfo := false }, rfl, rfl⟩
    simp [isAttribute, secure, path, domain, expires]
  · cases parsed
    exact .inr ⟨fun isControl => absurd isControl control, _, rfl, rfl⟩

/-- A part adds at most one cookie. -/
theorem parseNamed_grows (parsed : parseNamed reader header state name value = .ok next) :
    next.list.length ≤ state.list.length + 1 := by
  rcases parseNamed_cases parsed with ⟨list, _⟩ | ⟨_, begun, list, rfl⟩
  · rw [list]
    exact Nat.le_succ _
  · rw [← list]
    exact length_place

/-- A part that is taken for an attribute adds none. -/
theorem parseNamed_attribute (control : state.controlInfo = true) (taken : isAttribute name = true)
    (parsed : parseNamed reader header state name value = .ok next) :
    next.list = state.list ∧ next.controlInfo = true := by
  rcases parseNamed_cases parsed with ⟨list, stays⟩ | ⟨plain, _⟩
  · exact ⟨list, stays.trans control⟩
  · rw [plain control] at taken
    exact absurd taken Bool.false_ne_true

/-- Every pair makes the list longer by one at most. -/
theorem readPairs_grows (read : readPairs reader header pairs state = .ok next) :
    next.list.length ≤ state.list.length + pairs.length := by
  induction pairs generalizing next with
  | nil =>
    cases read
    exact le_refl _
  | cons pair pairs ih =>
    rw [readPairs_cons, bind_ok_iff] at read
    obtain ⟨middle, before, parsed⟩ := read
    have step := parseNamed_grows parsed
    have steps := ih before
    simp only [length_cons]
    omega

/-- Attributes behind the control information leave the list alone. -/
theorem readPairs_attributes (attributes : ∀ pair ∈ pairs, isAttribute pair.1 = true)
    (control : state.controlInfo = true) (read : readPairs reader header pairs state = .ok next) :
    next.list = state.list ∧ next.controlInfo = true := by
  induction pairs generalizing next with
  | nil =>
    cases read
    exact ⟨rfl, control⟩
  | cons pair pairs ih =>
    obtain ⟨first, others⟩ := forall_mem_cons.mp attributes
    rw [readPairs_cons, bind_ok_iff] at read
    obtain ⟨middle, before, parsed⟩ := read
    obtain ⟨list, stays⟩ := ih others before
    obtain ⟨lastList, lastStays⟩ := parseNamed_attribute stays first parsed
    exact ⟨lastList.trans list, lastStays⟩

/-- Only attributes are written behind the cookies of a group. -/
theorem attributePairs_attribute {cookie : CookieDef} {date : List Char} :
    ∀ pair ∈ attributePairs cookie date, isAttribute pair.1 = true := by
  intro pair inside
  simp only [attributePairs, mem_append, mem_cons, not_mem_nil, or_false] at inside
  rcases inside with (expires | rfl | rfl) | secure
  · split_ifs at expires with dated
    · rw [mem_singleton.mp expires]
      rfl
    · exact absurd expires (not_mem_nil)
  · rfl
  · rfl
  · split_ifs at secure with secured
    · rw [mem_singleton.mp secure]
      rfl
    · exact absurd secure (not_mem_nil)

/-- A header adds at most the cookies of its group, and not all of them when the last one has
the name of an attribute. -/
theorem readPairs_header {date : List Char}
    {final : Parsing}
    (read : readPairs reader header (group.map CookieDef.pair ++ attributePairs cookie date)
      (beginning reader list) = .ok final) :
    final.list.length ≤ group.length + list.length ∧
      ((∃ last ∈ group.getLast?, isAttribute last.name = true) →
        final.list.length < group.length + list.length) := by
  rw [readPairs_append, bind_ok_iff] at read
  obtain ⟨middle, attributes, cookies⟩ := read
  obtain ⟨same, control⟩ := readPairs_attributes attributePairs_attribute rfl attributes
  have sameList : middle.list = list := same
  constructor
  · have grows := readPairs_grows cookies
    rw [length_map, sameList] at grows
    omega
  · rintro ⟨last, isLast, taken⟩
    obtain ⟨front, rfl⟩ := List.getLast?_eq_some_iff.mp isLast
    rw [map_append, readPairs_append, bind_ok_iff] at cookies
    obtain ⟨behindLast, lastRead, frontRead⟩ := cookies
    obtain ⟨swallowed, _⟩ := readPairs_attributes
      (forall_mem_singleton.mpr taken) control lastRead
    have grows := readPairs_grows frontRead
    rw [length_map, swallowed, sameList] at grows
    simp only [length_append, length_singleton]
    omega

end Count

/-! ## Groups -/

/-- No group of the list ends with a cookie that has the name of an attribute. -/
def EndsPlainly : List CookieDef → Prop
  | [] => True
  | cookie :: rest =>
    (isAttribute cookie.name = true → ∃ later ∈ rest, inGroup cookie later = true) ∧ EndsPlainly rest

instance decidableEndsPlainly : (cookies : List CookieDef) → Decidable (EndsPlainly cookies)
  | [] => inferInstanceAs (Decidable True)
  | cookie :: rest =>
    have := decidableEndsPlainly rest
    inferInstanceAs (Decidable ((isAttribute cookie.name = true →
      ∃ later ∈ rest, inGroup cookie later = true) ∧ EndsPlainly rest))

/-- The cookies that are written in one header. -/
theorem inGroup_iff : inGroup cookie other = true ↔
    equalCaseless other.domain cookie.domain = true ∧ other.path = cookie.path ∧
      other.expires = cookie.expires ∧ other.secure = cookie.secure := by
  simp [inGroup, and_assoc]

theorem inGroup_self (cookie : CookieDef) : inGroup cookie cookie = true := by
  simp [inGroup_iff, equalCaseless]

theorem inGroup_comm (cookie other : CookieDef) : inGroup cookie other = inGroup other cookie := by
  rw [Bool.eq_iff_iff, inGroup_iff, inGroup_iff]
  simp only [equalCaseless, beq_iff_eq]
  constructor <;>
    exact fun ⟨domain, path, expires, secure⟩ => ⟨domain.symm, path.symm, expires.symm, secure.symm⟩

/-- Cookies of one group are in the same groups. -/
theorem inGroup_congr {leader : CookieDef} (same : inGroup cookie other = true) :
    inGroup leader other = inGroup leader cookie := by
  obtain ⟨domain, path, expires, secure⟩ := inGroup_iff.mp same
  simp only [equalCaseless, beq_iff_eq] at domain
  simp [inGroup, equalCaseless, domain, path, expires, secure]

/-- A list ends plainly if a group of it and the rest do. -/
theorem endsPlainly_split (leader : CookieDef) (cookies : List CookieDef) :
    EndsPlainly cookies ↔ EndsPlainly (cookies.filter (inGroup leader)) ∧
      EndsPlainly (cookies.filter (!inGroup leader ·)) := by
  induction cookies with
  | nil => simp [EndsPlainly]
  | cons cookie rest ih =>
    have later : ∀ keep : CookieDef → Bool, keep cookie = true →
        (∀ other, inGroup cookie other = true → keep other = keep cookie) →
        ((∃ later ∈ rest, inGroup cookie later = true) ↔
          ∃ later ∈ rest.filter keep, inGroup cookie later = true) := by
      intro keep kept congruent
      constructor
      · rintro ⟨other, inside, same⟩
        exact ⟨other, mem_filter.mpr ⟨inside, (congruent other same).trans kept⟩, same⟩
      · rintro ⟨other, inside, same⟩
        exact ⟨other, (mem_filter.mp inside).1, same⟩
    cases member : inGroup leader cookie with
    | true =>
      have dropped : (!inGroup leader cookie) = false := by simp [member]
      rw [filter_cons_of_pos member, filter_cons_of_neg (by simp [dropped]), EndsPlainly,
        EndsPlainly, ih, later (inGroup leader) member fun other same => inGroup_congr same,
        and_assoc]
    | false =>
      have kept : (cookie :: rest).filter (!inGroup leader ·) =
          cookie :: rest.filter (!inGroup leader ·) := by simp [member]
      rw [filter_cons_of_neg (by simp [member]), kept, EndsPlainly, ih,
        later (!inGroup leader ·) (by simp [member]) fun other same => by
          simp only [inGroup_congr same]]
      exact and_left_comm

/-- A group ends plainly if its last cookie does not have the name of an attribute. -/
theorem endsPlainly_group {leader : CookieDef}
    (members : ∀ cookie ∈ group, inGroup leader cookie = true) :
    EndsPlainly group ↔ ∀ last ∈ group.getLast?, isAttribute last.name = false := by
  induction group with
  | nil => simp [EndsPlainly]
  | cons cookie rest ih =>
    obtain ⟨member, others⟩ := forall_mem_cons.mp members
    rw [EndsPlainly, ih others]
    cases rest with
    | nil => simp
    | cons second rest =>
      have together : inGroup cookie second = true := by
        rw [inGroup_congr (others second mem_cons_self), inGroup_comm]
        exact member
      exact and_iff_right fun _ => ⟨second, mem_cons_self, together⟩

/-! ## The whole list -/

section RoundTrip

variable {reader : Reader} {cookies : List CookieDef}

/-- One round of writing: the header of the first cookie's group, and the rest. -/
theorem setCookieLoop_cons (fit : cookie.Fit reader.now) {fuel : Nat} :
    ∃ date parts, List.Forall₂ ReadAs parts (attributePairs cookie date) ∧
      getExpires date = .ok cookie.expires ∧
      ∀ headers, setCookieLoop fuel (rest.filter (!inGroup cookie ·)) = .ok headers →
        setCookieLoop (fuel + 1) (cookie :: rest) =
          .ok (⟨setCookieName, pairsText (cookie :: rest.filter (inGroup cookie)) ++ behind parts⟩ ::
            headers) := by
  obtain ⟨date, parts, written, read, expires⟩ := attributesText_parts fit
  refine ⟨date, parts, read, expires, fun headers others => ?_⟩
  have self := inGroup_self cookie
  have group : (cookie :: rest).filter (inGroup cookie) = cookie :: rest.filter (inGroup cookie) := by
    simp [self]
  have remaining : (cookie :: rest).filter (!inGroup cookie ·) = rest.filter (!inGroup cookie ·) := by
    simp [self]
  rw [setCookieLoop, written, group, remaining, others]
  rfl

/-- How the members of the first cookie's group stand to it. -/
theorem group_attributes {cookie : CookieDef} (fit : cookie.Fit reader.now)
    (otherFit : other.Fit reader.now) (member : inGroup cookie other = true) {state : Parsing}
    (attributes : state.Attributes cookie) : state.Attributes other := by
  obtain ⟨domain, path, expires, secure⟩ := inGroup_iff.mp member
  have sameDomain := (equalCaseless_lower otherFit.lowerCase fit.lowerCase).mp domain
  exact ⟨attributes.domain.trans sameDomain.symm, attributes.path.trans path.symm,
    attributes.expires.trans expires.symm, attributes.secure.trans secure.symm,
    attributes.unexpired⟩

/-- A group whose last cookie does not have the name of an attribute is read back. -/
theorem readHeader_plain (insecure : reader.urlAddress.secure = false)
    (fit : ∀ cookie ∈ first :: rest, cookie.Fit reader.now)
    (members : ∀ cookie ∈ first :: rest, inGroup first cookie = true)
    (distinct : (first :: rest).Pairwise Apart) (plain : EndsPlainly (first :: rest))
    {date : List Char} (expires : getExpires date = .ok first.expires) {parts : List (List Char)}
    (attributes : List.Forall₂ ReadAs parts (attributePairs first date))
    (before : ∀ other ∈ list, other.Fit reader.now ∧ ∀ cookie ∈ first :: rest, Apart cookie other) :
    readHeader reader list ⟨setCookieName, pairsText (first :: rest) ++ behind parts⟩ =
      .ok (first :: rest ++ list) := by
  have firstFit := fit first mem_cons_self
  rw [readHeader_pairs fit attributes, readPairs_append]
  generalize pairsText (first :: rest) ++ behind parts = header
  obtain ⟨state, read, firstSame, sameList, _⟩ :=
    @readPairs_attributePairs reader header first firstFit insecure date expires list
  subst sameList
  have same : ∀ cookie ∈ first :: rest, state.Attributes cookie := fun cookie member =>
    group_attributes firstFit (fit cookie member) (members cookie member) firstSame
  rw [read, ok_bind,
    readPairs_group fit distinct same ((endsPlainly_group members).mp plain) before]
  rfl

/-- The group of a list's first cookie, followed by the rest. -/
theorem group_perm (cookie : CookieDef) (rest : List CookieDef) :
    (cookie :: rest.filter (inGroup cookie) ++ rest.filter (!inGroup cookie ·)).Perm
      (cookie :: rest) :=
  (filter_append_perm (inGroup cookie) rest).cons cookie

theorem group_members (cookie : CookieDef) (rest : List CookieDef) :
    ∀ other ∈ cookie :: rest.filter (inGroup cookie), inGroup cookie other = true :=
  forall_mem_cons.mpr
    ⟨inGroup_self cookie, fun _ inside => (mem_filter.mp inside).2⟩

/-- The condition on the last values, group by group. -/
theorem endsPlainly_cons (cookie : CookieDef) (rest : List CookieDef) :
    EndsPlainly (cookie :: rest) ↔ EndsPlainly (cookie :: rest.filter (inGroup cookie)) ∧
      EndsPlainly (rest.filter (!inGroup cookie ·)) := by
  have self := inGroup_self cookie
  have split := endsPlainly_split cookie (cookie :: rest)
  rwa [filter_cons_of_pos self, filter_cons_of_neg (by simp [self])] at split

/-- The headers are read one after the other. -/
theorem loadFromHeaders_cons (list : List CookieDef) (header : Header) (headers : List Header) :
    loadFromHeaders reader list (header :: headers) =
      readHeader reader list header >>= (loadFromHeaders reader · headers) := by
  rfl

/-- Lists that end plainly are read back, in front of what was read before. The induction is
on the rounds of writing, one header and one group each. -/
theorem load_plain (insecure : reader.urlAddress.secure = false) {fuel : Nat}
    (enough : cookies.length ≤ fuel) (fit : ∀ cookie ∈ cookies, cookie.Fit reader.now)
    (distinct : cookies.Pairwise Apart) (plain : EndsPlainly cookies)
    (before : ∀ other ∈ list, other.Fit reader.now ∧ ∀ cookie ∈ cookies, Apart cookie other) :
    ∃ headers read, setCookieLoop fuel cookies = .ok headers ∧
      loadFromHeaders reader list headers = .ok read ∧ read.Perm (cookies ++ list) := by
  induction fuel generalizing cookies list with
  | zero =>
    obtain rfl := length_eq_zero_iff.mp (Nat.le_zero.mp enough)
    exact ⟨[], list, rfl, rfl, .refl _⟩
  | succ fuel ih =>
    cases cookies with
    | nil => exact ⟨[], list, rfl, rfl, .refl _⟩
    | cons cookie rest =>
      obtain ⟨date, parts, attributes, expires, written⟩ :=
        setCookieLoop_cons (fit cookie mem_cons_self)
      have perm := group_perm cookie rest
      have members := group_members cookie rest
      obtain ⟨groupPlain, othersPlain⟩ := (endsPlainly_cons cookie rest).mp plain
      have size : (rest.filter (!inGroup cookie ·)).length ≤ fuel :=
        (length_filter_le _ _).trans (Nat.le_of_succ_le_succ enough)
      generalize rest.filter (inGroup cookie) = group at *
      generalize rest.filter (!inGroup cookie ·) = others at *
      have inCookies : ∀ {other}, other ∈ cookie :: group ++ others → other ∈ cookie :: rest :=
        fun inside => perm.mem_iff.mp inside
      have inGroup : ∀ {other}, other ∈ cookie :: group → other ∈ cookie :: rest :=
        fun inside => inCookies (mem_append_left _ inside)
      have inOthers : ∀ {other}, other ∈ others → other ∈ cookie :: rest :=
        fun inside => inCookies (mem_append_right _ inside)
      obtain ⟨groupDistinct, othersDistinct, across⟩ := pairwise_append.mp
        ((perm.pairwise_iff Ne.symm).mpr distinct)
      have beforeGroup : ∀ other ∈ list, other.Fit reader.now ∧
          ∀ member ∈ cookie :: group, Apart member other :=
        fun other inside => ⟨(before other inside).1,
          fun member isMember => (before other inside).2 member (inGroup isMember)⟩
      have beforeOthers : ∀ other ∈ cookie :: group ++ list, other.Fit reader.now ∧
          ∀ later ∈ others, Apart later other := by
        intro other inside
        rcases mem_append.mp inside with member | earlier
        · exact ⟨fit other (inGroup member),
            fun later isLater => (across other member later isLater).symm⟩
        · exact ⟨(before other earlier).1,
            fun later isLater => (before other earlier).2 later (inOthers isLater)⟩
      have readGroup := readHeader_plain insecure (fun other inside => fit other (inGroup inside))
        members groupDistinct groupPlain expires attributes beforeGroup
      obtain ⟨headers, read, writtenOthers, readOthers, readPerm⟩ :=
        ih size (fun other inside => fit other (inOthers inside)) othersDistinct othersPlain
          beforeOthers
      refine ⟨_, read, written headers writtenOthers, ?_, ?_⟩
      · rw [loadFromHeaders_cons, readGroup]
        exact readOthers
      · have moved : (others ++ (cookie :: group ++ list)).Perm (cookie :: group ++ others ++ list) := by
          rw [append_assoc]
          exact perm_append_comm_assoc _ _ _
        exact (readPerm.trans moved).trans (perm.append_right list)

/-- What is said of a list when it has been written and read back: it has not become longer,
and it has become shorter if it does not end plainly. -/
def Counted (reader : Reader) (cookies : List CookieDef) (headers : List Header) : Prop :=
  ∀ list read, loadFromHeaders reader list headers = .ok read →
    read.length ≤ cookies.length + list.length ∧
    (¬ EndsPlainly cookies → read.length < cookies.length + list.length)

theorem counted_nil : Counted reader [] [] := by
  rintro list _ ⟨rfl⟩
  exact ⟨by simp, fun ends => absurd trivial ends⟩

/-- Every list that fits is written, and counted when it is read back. -/
theorem load_count {fuel : Nat} (enough : cookies.length ≤ fuel)
    (fit : ∀ cookie ∈ cookies, cookie.Fit reader.now) :
    ∃ headers, setCookieLoop fuel cookies = .ok headers ∧ Counted reader cookies headers := by
  induction fuel generalizing cookies with
  | zero =>
    obtain rfl := length_eq_zero_iff.mp (Nat.le_zero.mp enough)
    exact ⟨[], rfl, counted_nil⟩
  | succ fuel ih =>
    cases cookies with
    | nil => exact ⟨[], rfl, counted_nil⟩
    | cons cookie rest =>
      obtain ⟨date, parts, attributes, expires, written⟩ :=
        setCookieLoop_cons (fit cookie mem_cons_self)
      have perm := group_perm cookie rest
      have members := group_members cookie rest
      have plainly := endsPlainly_cons cookie rest
      have size : (rest.filter (!inGroup cookie ·)).length ≤ fuel :=
        (length_filter_le _ _).trans (Nat.le_of_succ_le_succ enough)
      generalize rest.filter (inGroup cookie) = group at *
      have groupFit : ∀ other ∈ cookie :: group, other.Fit reader.now := fun other inside =>
        fit other (perm.mem_iff.mp (mem_append_left _ inside))
      obtain ⟨headers, writtenOthers, counted⟩ := ih size fun other inside =>
        fit other (perm.mem_iff.mp (mem_append_right _ inside))
      refine ⟨_, written headers writtenOthers, fun list read loaded => ?_⟩
      rw [loadFromHeaders_cons, bind_ok_iff] at loaded
      obtain ⟨middle, readGroup, readOthers⟩ := loaded
      rw [readHeader_pairs groupFit attributes, map_ok_iff] at readGroup
      obtain ⟨final, pairs, rfl⟩ := readGroup
      obtain ⟨most, fewer⟩ := readPairs_header pairs
      obtain ⟨othersMost, othersFewer⟩ := counted _ _ readOthers
      have total := perm.length_eq
      simp only [length_append] at total
      refine ⟨by omega, fun ends => ?_⟩
      rw [plainly, not_and_or] at ends
      rcases ends with groupEnds | othersEnd
      · have swallowed : ∃ last ∈ (cookie :: group).getLast?, isAttribute last.name = true := by
          simpa [endsPlainly_group members] using groupEnds
        have shorter := fewer swallowed
        omega
      · have shorter := othersFewer othersEnd
        omega

/-- Reading the headers of a list of cookies, for an address that is not secure, gives the
same cookies exactly when no group of the list ends with a cookie that has the name of an
attribute. -/
theorem cookies_read_back_iff (reader : Reader) (insecure : reader.urlAddress.secure = false)
    (cookies : List CookieDef) (fit : ∀ cookie ∈ cookies, cookie.Fit reader.now)
    (distinct : cookies.Pairwise Apart) :
    (∃ read, (setCookieHeader cookies >>= loadFromHeaders reader []) = .ok read ∧
      read.Perm cookies) ↔ EndsPlainly cookies := by
  constructor
  · rintro ⟨read, loaded, perm⟩
    obtain ⟨headers, written, counted⟩ := load_count (le_refl cookies.length) fit
    rw [setCookieHeader, written] at loaded
    by_contra ends
    have shorter := (counted [] read loaded).2 ends
    rw [perm.length_eq] at shorter
    exact lt_irrefl _ shorter
  · intro plain
    obtain ⟨headers, read, written, loaded, perm⟩ :=
      load_plain insecure (le_refl cookies.length) fit distinct plain (nofun : ∀ other ∈ [], _)
    rw [append_nil] at perm
    exact ⟨read, by rw [setCookieHeader, written, ok_bind, loaded], perm⟩

end RoundTrip

/-- An address that is not secure, in the year 2001. -/
def sampleReader : Reader := ⟨HTTPAddress.empty false, false, ⟨1000000000, 0⟩⟩

/-- Two cookies of one group, the first with the name of an attribute, and a secure one. -/
def sampleCookies : List CookieDef :=
  [⟨pathName, ['1'], ['a', '.', 'b'], ['/'], ⟨2000000000, 0⟩, false⟩,
    ⟨['n'], ['x', '=', 'y'], ['a', '.', 'b'], ['/'], ⟨2000000000, 0⟩, false⟩,
    ⟨['s'], [], ['a', '.', 'b'], ['/', 'c'], .zero, true⟩]

theorem sampleCookies_fit : ∀ cookie ∈ sampleCookies, cookie.Fit sampleReader.now := by
  simp only [sampleCookies, forall_mem_cons]
  refine ⟨?_, ?_, ?_, nofun⟩ <;> constructor <;> decide

theorem sampleCookies_read_back :
    ∃ read, (setCookieHeader sampleCookies >>= loadFromHeaders sampleReader []) = .ok read ∧
      read.Perm sampleCookies :=
  (cookies_read_back_iff sampleReader rfl sampleCookies sampleCookies_fit (by decide)).mpr (by decide)

/-- A cookie that has the name of the path. -/
def pathCookie : CookieDef := ⟨pathName, ['1'], ['a', '.', 'b'], ['/'], .zero, false⟩

/-- It is read as the path of no cookie at all. -/
theorem pathCookie_lost :
    pathCookie.Fit sampleReader.now ∧ sampleReader.urlAddress.secure = false ∧
      (setCookieHeader [pathCookie] >>= loadFromHeaders sampleReader []) = .ok [] := by
  refine ⟨?_, rfl, by decide⟩
  constructor <;> decide

end UnixCommons.HTTP
