import UnixCommons.HTTP.UrlChecks

/-!
# What a text says about its parts

A text that was split is not always what its parts are put together to again: an authority, a
userinfo or a port that is empty leaves its mark in the text and is no part.
-/

namespace UnixCommons.HTTP

open Cut List

/-- The text behind the scheme. -/
def hierarchy (url : List Char) : List Char :=
  match cutWhere Category.schemeEnd url with
  | (_, ':' :: rest) => rest
  | _ => url

/-- The authority of a text and what stands behind it. -/
def authorityOf (url : List Char) : Option (List Char × List Char) :=
  match hierarchy url with
  | '/' :: '/' :: rest => some (cutWhere Category.authorityEnd rest)
  | _ => none

/-- If there is an authority, it is not empty, and it has no empty userinfo and no empty port. -/
def Clear (url : List Char) : Prop :=
  ∀ authority behind, authorityOf url = some (authority, behind) →
    authority ≠ [] ∧ authority.head? ≠ some '@' ∧ authority.getLast? ≠ some ':'

/-- Something stands behind the authority; without one the text goes on, and not with the query
or the fragment. -/
def HasPath (url : List Char) : Prop :=
  match authorityOf url with
  | some (_, behind) => behind ≠ []
  | none => (hierarchy url).head?.any (!Category.pathEnd ·) = true

/-- The texts that have the marks of an authority and nothing else. -/
def onlyMarks : List (List Char) :=
  [['/', '/'], ['/', '/', '@'], ['/', '/', ':'], ['/', '/', '@', ':']]

/-- A slash stands behind the authority. -/
def Slashed (url : List Char) : Prop :=
  ∃ authority rest, authorityOf url = some (authority, '/' :: rest)

/-! ## The text behind the scheme -/

/-- A text behind a path is read into the query and the fragment, and nothing else changes. -/
theorem splitQuery_eq {cur : List Char} {parts : ExtendedUrlParts}
    (begins : cur.head?.all Category.pathEnd = true)
    (noQuery : parts.hasQuery = false) (noFragment : parts.hasFragment = false) :
    ∃ hasQuery query hasFragment fragment,
      splitQuery cur parts = { parts with
        hasQuery := hasQuery, query := query, hasFragment := hasFragment, fragment := fragment } ∧
      cur = (if hasQuery then '?' :: query else []) ++
        (if hasFragment then '#' :: fragment else []) := by
  unfold splitQuery
  split
  case h_1 rest =>
    have whole := cutWhere_append Category.queryEnd rest
    cases behind : (cutWhere Category.queryEnd rest).2 with
    | nil =>
      refine ⟨true, (cutWhere Category.queryEnd rest).1, false, parts.fragment, ?_, ?_⟩
      · simp only [splitFragment, behind, ← noFragment]
      · simpa [behind] using whole.symm
    | cons mark fragment =>
      obtain rfl : mark = '#' := by simpa [Category.queryEnd] using cutWhere_rest behind
      refine ⟨true, (cutWhere Category.queryEnd rest).1, true, fragment, ?_, ?_⟩
      · simp only [splitFragment, behind]
      · simpa [behind] using whole.symm
  case h_2 other =>
    cases cur with
    | nil =>
      refine ⟨parts.hasQuery, parts.query, parts.hasFragment, parts.fragment, rfl, ?_⟩
      simp [noQuery, noFragment]
    | cons mark fragment =>
      have ends : mark = '?' ∨ mark = '#' := by simpa [Category.pathEnd] using begins
      obtain rfl := ends.resolve_left fun same => other fragment (by rw [same])
      refine ⟨parts.hasQuery, parts.query, true, fragment, rfl, ?_⟩
      simp [noQuery]

/-- The parts before anything behind the scheme is read. -/
structure Unread (parts : ExtendedUrlParts) : Prop where
  authority : parts.authority = []
  hasPath : parts.hasPath = false
  path : parts.path = []
  hasQuery : parts.hasQuery = false
  hasFragment : parts.hasFragment = false

/-- How the text behind the scheme is made of the parts. -/
def Reads (cur : List Char) (parts : ExtendedUrlParts) : Prop :=
  match cur with
  | '/' :: '/' :: rest =>
    cutWhere Category.authorityEnd rest = (parts.authority, parts.behindAuthority) ∧
      (parts.hasPath = true ↔ parts.behindAuthority ≠ [])
  | cur =>
    parts.authority = [] ∧ parts.behindAuthority = cur ∧
      (parts.hasPath = true ↔ cur.head?.any (!Category.pathEnd ·) = true)

variable {parts : ExtendedUrlParts}

/-- What begins with the query or the fragment is read without a path. -/
theorem splitQuery_behind {cur : List Char} (begins : cur.head?.all Category.pathEnd = true)
    (noQuery : parts.hasQuery = false) (noFragment : parts.hasFragment = false) :
    (splitQuery cur parts).behindAuthority = parts.path ++ cur ∧
      (splitQuery cur parts).authority = parts.authority ∧
      (splitQuery cur parts).hasPath = parts.hasPath ∧
      (splitQuery cur parts).hasScheme = parts.hasScheme ∧
      (splitQuery cur parts).scheme = parts.scheme := by
  obtain ⟨hasQuery, query, hasFragment, fragment, same, text⟩ :=
    splitQuery_eq begins noQuery noFragment
  rw [same, text]
  exact ⟨rfl, rfl, rfl, rfl, rfl⟩

/-- The whole text from a path on is read. -/
theorem splitPath_behind (cur : List Char) (noQuery : parts.hasQuery = false)
    (noFragment : parts.hasFragment = false) :
    (splitPath cur parts).behindAuthority = cur ∧
      (splitPath cur parts).authority = parts.authority ∧
      (splitPath cur parts).hasPath = true ∧
      (splitPath cur parts).hasScheme = parts.hasScheme ∧
      (splitPath cur parts).scheme = parts.scheme := by
  have begins : (cutWhere Category.pathEnd cur).2.head?.all Category.pathEnd = true := by
    cases behind : (cutWhere Category.pathEnd cur).2 with
    | nil => rfl
    | cons mark rest => simpa using cutWhere_rest behind
  have read := @splitQuery_behind
    { parts with hasPath := true, path := (cutWhere Category.pathEnd cur).1 } _ begins noQuery
    noFragment
  rw [cutWhere_append] at read
  exact read

/-- A query or a fragment is read without a path in front of it. -/
theorem splitQuery_reads (unread : Unread parts) {mark : Char} (rest : List Char)
    (begins : Category.pathEnd mark = true) :
    (splitQuery (mark :: rest) parts).authority = [] ∧
      (splitQuery (mark :: rest) parts).behindAuthority = mark :: rest ∧
      ((splitQuery (mark :: rest) parts).hasPath = true ↔
        (mark :: rest).head?.any (!Category.pathEnd ·) = true) ∧
      (splitQuery (mark :: rest) parts).hasScheme = parts.hasScheme ∧
      (splitQuery (mark :: rest) parts).scheme = parts.scheme := by
  obtain ⟨behind, authority, hasPath, scheme⟩ := @splitQuery_behind parts (mark :: rest)
    (by simpa using begins) unread.hasQuery unread.hasFragment
  refine ⟨authority.trans unread.authority, ?_, ?_, scheme⟩
  · rw [behind, unread.path, nil_append]
  · simp [hasPath, unread.hasPath, begins]

/-- The text behind the scheme is read into the authority, the path, the query and the
fragment. -/
theorem splitHierarchy_reads (unread : Unread parts) (cur : List Char) :
    Reads cur (splitHierarchy cur parts) ∧
      (splitHierarchy cur parts).hasScheme = parts.hasScheme ∧
      (splitHierarchy cur parts).scheme = parts.scheme := by
  unfold splitHierarchy
  split
  case h_1 =>
    refine ⟨⟨unread.authority, ?_, ?_⟩, rfl, rfl⟩
    · simp [UrlParts.behindAuthority, unread.path, unread.hasQuery, unread.hasFragment]
    · simp [unread.hasPath]
  case h_2 rest =>
    obtain ⟨authority, behind, hasPath, scheme⟩ := @splitQuery_reads parts unread '?' rest rfl
    exact ⟨⟨authority, behind, hasPath⟩, scheme⟩
  case h_3 rest =>
    obtain ⟨authority, behind, hasPath, scheme⟩ := @splitQuery_reads parts unread '#' rest rfl
    exact ⟨⟨authority, behind, hasPath⟩, scheme⟩
  case h_4 rest =>
    split
    case h_1 authority cut =>
      refine ⟨⟨?_, ?_⟩, rfl, rfl⟩
      · simp [cut, UrlParts.behindAuthority, unread.path, unread.hasQuery, unread.hasFragment]
      · simp [UrlParts.behindAuthority, unread.hasPath, unread.path, unread.hasQuery,
          unread.hasFragment]
    case h_2 authority stop rest cut =>
      obtain ⟨behind, own, hasPath, scheme⟩ := @splitPath_behind
        { parts with authority := authority } (stop :: rest) unread.hasQuery unread.hasFragment
      refine ⟨⟨?_, ?_⟩, scheme⟩
      · rw [behind, own, cut]
      · simp [behind, hasPath]
  case h_5 nonempty noQuery noFragment slashes =>
    obtain ⟨behind, authority, hasPath, scheme⟩ :=
      @splitPath_behind parts cur unread.hasQuery unread.hasFragment
    refine ⟨?_, scheme⟩
    unfold Reads
    split
    · rename_i rest
      exact absurd rfl (slashes rest)
    · refine ⟨authority.trans unread.authority, behind, ?_⟩
      cases cur with
      | nil => exact absurd rfl nonempty
      | cons first rest =>
        have notQuery : first ≠ '?' := fun same => noQuery rest (by rw [same])
        have notFragment : first ≠ '#' := fun same => noFragment rest (by rw [same])
        simp [hasPath, Category.pathEnd, notQuery, notFragment]

/-- Splitting the authority changes nothing else. -/
theorem splitAuthority_frame (parts : ExtendedUrlParts) :
    (splitAuthority parts).authority = parts.authority ∧
      (splitAuthority parts).behindAuthority = parts.behindAuthority ∧
      (splitAuthority parts).hasPath = parts.hasPath ∧
      (splitAuthority parts).hasScheme = parts.hasScheme ∧
      (splitAuthority parts).scheme = parts.scheme := by
  unfold splitAuthority
  dsimp only
  split
  · exact ⟨rfl, rfl, rfl, rfl, rfl⟩
  · exact ⟨rfl, rfl, rfl, rfl, rfl⟩

/-- A text without a character that may end a scheme is a path. -/
theorem reads_whole {first : Char} {rest : List Char}
    (apart : ∀ ch ∈ first :: rest, Category.schemeEnd ch = false) :
    Reads (first :: rest) { hasPath := true, path := first :: rest } := by
  have other := apart first mem_cons_self
  simp only [Category.schemeEnd, contains_eq_mem, decide_eq_false_iff_not, mem_cons, not_or]
    at other
  unfold Reads
  split
  · rename_i text same
    cases same
    exact absurd rfl other.2.1
  · refine ⟨rfl, ?_, ?_⟩
    · simp [UrlParts.behindAuthority]
    · simp [Category.pathEnd, other]

/-- What a text gives before the authority is split. -/
theorem splitUrl_before {url : List Char} (nonempty : url ≠ []) :
    ∃ before, splitUrl url = splitAuthority before ∧ Reads (hierarchy url) before ∧
      url = (if before.hasScheme then before.scheme ++ [':'] else []) ++ hierarchy url := by
  have whole := cutWhere_append Category.schemeEnd url
  have ends := @not_ends_of_mem_cutWhere _ Category.schemeEnd url
  rcases cut : cutWhere Category.schemeEnd url with ⟨scheme, _ | ⟨mark, rest⟩⟩
  · rw [cut, append_nil] at whole
    obtain rfl : scheme = url := whole
    rw [cut] at ends
    obtain ⟨first, rest, rfl⟩ := exists_cons_of_ne_nil nonempty
    refine ⟨{ hasPath := true, path := first :: rest }, ?_, ?_, ?_⟩
    · simp only [splitUrl, cut]
    · simp only [hierarchy, cut]
      exact reads_whole fun ch => ends
    · simp [hierarchy, cut]
  · rw [cut] at whole
    by_cases colon : mark = ':'
    · subst colon
      have unread : Unread { hasScheme := true, scheme := scheme } := ⟨rfl, rfl, rfl, rfl, rfl⟩
      obtain ⟨reads, hasScheme, own⟩ := splitHierarchy_reads unread rest
      refine ⟨splitHierarchy rest { hasScheme := true, scheme := scheme }, ?_, ?_, ?_⟩
      · simp only [splitUrl, cut]
      · simpa only [hierarchy, cut] using reads
      · rw [hasScheme, own]
        simpa [hierarchy, cut] using whole.symm
    · have unread : Unread {} := ⟨rfl, rfl, rfl, rfl, rfl⟩
      obtain ⟨reads, hasScheme, -⟩ := splitHierarchy_reads unread url
      refine ⟨splitHierarchy url {}, ?_, ?_, ?_⟩
      · simp [splitUrl, cut, colon]
      · simpa [hierarchy, cut, colon] using reads
      · simp [hierarchy, cut, colon, hasScheme]

/-- What a text says about the parts it is split into. -/
structure Written (url : List Char) (parts : ExtendedUrlParts) : Prop where
  scheme : url = (if parts.hasScheme then parts.scheme ++ [':'] else []) ++ hierarchy url
  hasPath : parts.hasPath = true ↔ HasPath url
  bare : authorityOf url = none → parts.authority = [] ∧ parts.behindAuthority = hierarchy url
  authority : ∀ {authority behind}, authorityOf url = some (authority, behind) →
    parts.authority = authority ∧ parts.behindAuthority = behind

/-- The text of the parts that were split. -/
theorem splitUrl_written {url : List Char} (nonempty : url ≠ []) :
    Written url (splitUrl url) := by
  obtain ⟨before, same, reads, text⟩ := splitUrl_before nonempty
  obtain ⟨ownAuthority, ownBehind, ownHasPath, ownHasScheme, ownScheme⟩ :=
    splitAuthority_frame before
  rw [same]
  unfold Reads at reads
  split at reads
  case h_1 rest begins =>
    have found : authorityOf url = some (before.authority, before.behindAuthority) := by
      rw [authorityOf, begins]
      exact congrArg some reads.1
    refine ⟨?_, ?_, ?_, ?_⟩
    · rwa [ownHasScheme, ownScheme]
    · simpa only [ownHasPath, HasPath, found] using reads.2
    · simp [found]
    · intro authority behind own
      rw [ownAuthority, ownBehind]
      simpa [found] using own
  case h_2 other =>
    have none : authorityOf url = none := by
      unfold authorityOf
      split
      · rename_i rest begins
        exact absurd begins (other rest)
      · rfl
    refine ⟨?_, ?_, ?_, ?_⟩
    · rwa [ownHasScheme, ownScheme]
    · simpa only [ownHasPath, HasPath, none] using reads.2.2
    · intro _
      rw [ownAuthority, ownBehind]
      exact ⟨reads.1, reads.2.1⟩
    · simp [none]

/-- The text behind the scheme, if there is an authority. -/
theorem hierarchy_of_authority {url authority behind : List Char}
    (found : authorityOf url = some (authority, behind)) :
    hierarchy url = '/' :: '/' :: (authority ++ behind) ∧ '/' ∉ authority := by
  unfold authorityOf at found
  split at found
  · rename_i rest begins
    simp only [Option.some.injEq] at found
    have whole := cutWhere_append Category.authorityEnd rest
    rw [found] at whole
    refine ⟨by rw [begins, ← whole], ?_⟩
    intro inside
    have ends := @not_ends_of_mem_cutWhere _ Category.authorityEnd rest '/' (by rwa [found])
    exact absurd ends (by decide)
  · cases found

/-! ## The text of the authority -/

/-- What stands behind the last mark, if it does not stand in the lead. -/
theorem hostEnd_cases (lead back : List Char) :
    (∃ host port, back = host ++ ':' :: port ∧ ':' ∉ port ∧
      (rfindChar (lead ++ back) ':').filter
        (fun position => !(lead.length != 0 && decide (position < lead.length))) =
        some (lead.length + host.length)) ∨
    (':' ∉ back ∧ (rfindChar (lead ++ back) ':').filter
      (fun position => !(lead.length != 0 && decide (position < lead.length))) = none) := by
  have same : (fun position : Nat => !(lead.length != 0 && decide (position < lead.length))) =
      fun position => !decide (position < lead.length) := by
    funext position
    cases lead <;> simp
  rw [same]
  by_cases inside : ':' ∈ back
  · obtain ⟨last, first, split, apart⟩ := eq_append_cons_of_mem (mem_reverse.mpr inside)
    have whole : back = first.reverse ++ ':' :: last.reverse := by
      rw [← reverse_reverse back, split]
      simp
    have found := @rfindChar_cut ':' (lead ++ first.reverse) last.reverse (by simpa using apart)
    refine .inl ⟨first.reverse, last.reverse, whole, by simpa using apart, ?_⟩
    rw [whole, ← append_assoc, found]
    simp
  · exact .inr ⟨inside, Separated.rfindChar_before inside⟩

/-- The authority is the userinfo with its mark, the host and the port with its mark. -/
structure Pieces (parts : UrlParts) (authority lead tail : List Char) : Prop where
  whole : authority = lead ++ parts.host ++ tail
  lead : lead = [] ∧ parts.userinfo = [] ∧ '@' ∉ authority ∨
    lead = parts.userinfo ++ ['@'] ∧ '@' ∉ parts.userinfo
  tail : tail = [] ∧ parts.port = [] ∧ ':' ∉ parts.host ∨
    tail = ':' :: parts.port ∧ ':' ∉ parts.port

/-- The host and the port of an authority whose host begins behind `lead`. -/
theorem splitAuthority_behind {lead back : List Char} (nonempty : parts.authority ≠ [])
    (text : parts.authority = lead ++ back)
    (hostBegin : (parts.authority.findIdx? (· == '@')).elim 0 (· + 1) = lead.length) :
    ∃ tail, back = (splitAuthority parts).host ++ tail ∧
      (tail = [] ∧ (splitAuthority parts).port = [] ∧ ':' ∉ (splitAuthority parts).host ∨
        tail = ':' :: (splitAuthority parts).port ∧ ':' ∉ (splitAuthority parts).port) := by
  have filled : parts.authority.isEmpty = false := by simpa using nonempty
  simp only [splitAuthority, filled, hostBegin, Bool.false_eq_true, if_false]
  rw [text]
  rcases hostEnd_cases lead back with ⟨host, port, rfl, apart, ends⟩ | ⟨apart, ends⟩
  · have behind : (lead ++ (host ++ ':' :: port)).drop (lead.length + host.length + 1) = port := by
      have size : (lead ++ host ++ [':']).length = lead.length + host.length + 1 := by
        simp [Nat.add_assoc]
      rw [← size, show lead ++ (host ++ ':' :: port) = (lead ++ host ++ [':']) ++ port by simp,
        drop_left]
    rw [ends]
    refine ⟨':' :: port, ?_, .inr ?_⟩
    · simp
    · simp [behind, apart]
  · rw [ends]
    refine ⟨[], ?_, .inl ?_⟩
    · simp
    · simp [apart]

/-- The pieces of an authority that is split. -/
theorem splitAuthority_pieces (nonempty : parts.authority ≠ []) :
    ∃ lead tail, Pieces (splitAuthority parts).toUrlParts parts.authority lead tail := by
  have filled : parts.authority.isEmpty = false := by simpa using nonempty
  by_cases marked : '@' ∈ parts.authority
  · obtain ⟨userinfo, back, whole, apart⟩ := eq_append_cons_of_mem marked
    have found : parts.authority.findIdx? (· == '@') = some userinfo.length := by
      rw [whole]
      exact findIdx_cut apart
    have own : (splitAuthority parts).userinfo = userinfo := by
      simp only [splitAuthority, filled, Bool.false_eq_true, if_false, found]
      simp [whole]
    have text : parts.authority = (userinfo ++ ['@']) ++ back := by simp [whole]
    obtain ⟨tail, rest, ends⟩ := splitAuthority_behind nonempty text (by simp [found])
    refine ⟨userinfo ++ ['@'], tail, ?_, .inr ?_, ends⟩
    · rw [append_assoc, ← rest, text]
    · rw [own]
      exact ⟨rfl, apart⟩
  · have found : parts.authority.findIdx? (· == '@') = none := findIdx_none marked
    have own : (splitAuthority parts).userinfo = [] := by
      simp only [splitAuthority, filled, Bool.false_eq_true, if_false, found]
      rfl
    obtain ⟨tail, rest, ends⟩ :=
      splitAuthority_behind nonempty (nil_append _).symm (by simp [found])
    exact ⟨[], tail, rest, .inl ⟨rfl, own, marked⟩, ends⟩

namespace Pieces

variable {parts : UrlParts} {authority lead tail : List Char}

/-- The mark of an empty userinfo begins the authority. -/
theorem lead_cases (pieces : Pieces parts authority lead tail)
    (flag : parts.hasUserinfo = !parts.userinfo.isEmpty) :
    lead = (if parts.hasUserinfo then parts.userinfo ++ ['@'] else []) ∧
      authority.head? ≠ some '@' ∨
    lead = ['@'] ∧ parts.hasUserinfo = false ∧ authority.head? = some '@' := by
  have whole := pieces.whole
  rcases pieces.lead with ⟨rfl, none, apart⟩ | ⟨rfl, apart⟩
  · left
    refine ⟨by simp [flag, none], ?_⟩
    intro first
    exact apart (mem_of_mem_head? first)
  · cases filled : parts.userinfo with
    | nil =>
      right
      simp [flag, filled, whole]
    | cons first rest =>
      left
      rw [filled] at apart
      refine ⟨by simp [flag, filled], ?_⟩
      rw [whole, filled]
      simpa using fun same : first = '@' => apart (same ▸ mem_cons_self)

/-- The mark of an empty port ends it. -/
theorem tail_cases (pieces : Pieces parts authority lead tail)
    (flag : parts.hasPort = !parts.port.isEmpty) :
    tail = (if parts.hasPort then ':' :: parts.port else []) ∧ authority.getLast? ≠ some ':' ∨
    tail = [':'] ∧ parts.hasPort = false ∧ authority.getLast? = some ':' := by
  have whole := pieces.whole
  rcases pieces.tail with ⟨rfl, none, apart⟩ | ⟨rfl, apart⟩
  · left
    refine ⟨by simp [flag, none], ?_⟩
    intro last
    rw [whole, append_nil] at last
    cases ended : parts.host.getLast? with
    | none =>
      rw [getLast?_eq_none_iff.mp ended, append_nil] at last
      rcases pieces.lead with ⟨rfl, -⟩ | ⟨rfl, -⟩
      · cases last
      · simp at last
    | some ch =>
      rw [getLast?_append, ended, Option.some_or, Option.some.injEq] at last
      exact apart (last ▸ mem_of_mem_getLast? ended)
  · cases filled : parts.port with
    | nil =>
      right
      simp [flag, filled, whole]
    | cons first rest =>
      left
      rw [filled] at apart
      refine ⟨by simp [flag, filled], ?_⟩
      rw [whole, filled, getLast?_append, getLast?_cons_cons]
      intro last
      exact apart (mem_of_mem_getLast? (by simpa using last))

/-- An authority is the text of its parts if neither mark stands alone. -/
theorem text_iff (pieces : Pieces parts authority lead tail) 
    (userinfo : parts.hasUserinfo = !parts.userinfo.isEmpty)
    (port : parts.hasPort = !parts.port.isEmpty) :
    authority = parts.authorityText ↔
      authority.head? ≠ some '@' ∧ authority.getLast? ≠ some ':' := by
  have whole := pieces.whole
  unfold UrlParts.authorityText
  rcases pieces.lead_cases userinfo with ⟨front, first⟩ | ⟨front, noUserinfo, first⟩
  · rcases pieces.tail_cases port with ⟨back, last⟩ | ⟨back, noPort, last⟩
    · exact iff_of_true (by rw [whole, front, back]) ⟨first, last⟩
    · refine iff_of_false ?_ (fun both => both.2 last)
      intro same
      have sizes := congrArg length (whole.symm.trans same)
      simp [front, back, noPort] at sizes
  · refine iff_of_false ?_ (fun both => both.1 first)
    intro same
    have sizes := congrArg length (whole.symm.trans same)
    rcases pieces.tail_cases port with ⟨back, -⟩ | ⟨back, noPort, -⟩
    · simp [front, back, noUserinfo] at sizes
    · simp [front, back, noUserinfo, noPort] at sizes
      omega

end Pieces

/-! ## Texts that are put together again -/

/-- An authority that is there is written out. -/
theorem UrlParts.authorityText_ne_nil {parts : UrlParts}
    (hasAuthority : parts.hasAuthority = true) : parts.authorityText ≠ [] := by
  simp only [UrlParts.hasAuthority, Bool.or_eq_true, Bool.not_eq_true'] at hasAuthority
  rcases hasAuthority with (userinfo | host) | port
  · simp [UrlParts.authorityText, userinfo]
  · simp [UrlParts.authorityText, isEmpty_eq_false_iff.mp host]
  · simp [UrlParts.authorityText, port]

/-- The scheme is written out if it is not empty. -/
theorem scheme_text {parts : UrlParts} (flagged : parts.Flagged) (named : ¬ Nameless parts) :
    (if parts.hasScheme then parts.scheme ++ [':'] else []) =
      if parts.scheme.isEmpty then [] else parts.scheme ++ [':'] := by
  cases hasScheme : parts.hasScheme with
  | false => simp [flagged.scheme hasScheme]
  | true =>
    have nonempty : parts.scheme ≠ [] := fun none => named ⟨hasScheme, none⟩
    simp [nonempty]

section Texts

variable {url : List Char}

/-- The pieces of the authority of a text. -/
theorem splitUrl_pieces (filled : (splitUrl url).authority ≠ []) :
    ∃ lead tail, Pieces (splitUrl url).toUrlParts (splitUrl url).authority lead tail := by
  have own : (splitUrl url).authority = _ := (splitAuthority_frame _).1
  rw [own] at filled ⊢
  exact splitAuthority_pieces filled

/-- The authority of a text is the text of its parts if neither mark stands alone. -/
theorem authority_text_iff (filled : (splitUrl url).authority ≠ []) :
    (splitUrl url).authority = (splitUrl url).authorityText ↔
      (splitUrl url).authority.head? ≠ some '@' ∧
      (splitUrl url).authority.getLast? ≠ some ':' := by
  have flagged := (splitUrl_split url).flagged
  obtain ⟨lead, tail, pieces⟩ := splitUrl_pieces filled
  exact pieces.text_iff flagged.userinfo flagged.port

/-- A text is what its parts are put together to if no mark in it stands alone. -/
theorem splitUrl_assemble_iff (nonempty : url ≠ [])
    (named : ¬ Nameless (splitUrl url).toUrlParts) : url = (splitUrl url).assemble ↔ Clear url := by
  have written := splitUrl_written nonempty
  have flagged := (splitUrl_split url).flagged
  have same : url = (splitUrl url).assemble ↔ hierarchy url = (splitUrl url).behindScheme := by
    rw [UrlParts.assemble_eq, ← scheme_text flagged named]
    nth_rewrite 1 [written.scheme]
    exact append_right_inj _
  rw [same, UrlParts.behindScheme]
  cases found : authorityOf url with
  | none =>
    obtain ⟨noAuthority, behind⟩ := written.bare found
    rw [((splitUrl_split url).bare noAuthority).2, ← behind]
    exact iff_of_true rfl (by simp [Clear, found])
  | some pair =>
    obtain ⟨authority, behind⟩ := pair
    obtain ⟨rfl, rfl⟩ := written.authority found
    obtain ⟨text, -⟩ := hierarchy_of_authority found
    have clear : Clear url ↔ (splitUrl url).authority ≠ [] ∧
        (splitUrl url).authority = (splitUrl url).authorityText := by
      simp only [Clear, found, Option.some.injEq, Prod.mk.injEq, and_imp, forall_eq',
        forall_apply_eq_imp_iff]
      exact and_congr_right fun filled => (authority_text_iff filled).symm
    rw [text, clear]
    cases hasAuthority : (splitUrl url).hasAuthority with
    | false =>
      -- the slashes are in the text and nothing else of the authority is a part
      obtain ⟨hasUserinfo, -, host, hasPort, -⟩ := flagged.no_authority hasAuthority
      have none : (splitUrl url).authorityText = [] := by
        simp [UrlParts.authorityText, hasUserinfo, host, hasPort]
      refine iff_of_false ?_ ?_
      · intro equal
        have sizes := congrArg length equal
        simp only [length_cons, length_append, Bool.false_eq_true, if_false, nil_append] at sizes
        omega
      · rintro ⟨filled, own⟩
        exact filled (own.trans none)
    | true =>
      simp only [if_true, cons_append, cons.injEq, true_and, append_left_inj]
      constructor
      · intro own
        exact ⟨own ▸ UrlParts.authorityText_ne_nil hasAuthority, own⟩
      · exact And.right

/-- In a text that is put together again from valid parts a host that is flagged is there. -/
theorem host_of_assemble (passed : (splitUrl url).host = [] →
      (splitUrl url).userinfo = [] ∧ (splitUrl url).port = [])
    (nonempty : url ≠ []) (clear : Clear url) (hasHost : (splitUrl url).hasHost = true) :
    (splitUrl url).host ≠ [] := by
  have written := splitUrl_written nonempty
  have flagged := (splitUrl_split url).flagged
  have filled : (splitUrl url).authority ≠ [] := by
    intro none
    simp [((splitUrl_split url).bare none).1] at hasHost
  intro none
  obtain ⟨noUserinfo, noPort⟩ := passed none
  cases found : authorityOf url with
  | none => exact filled (written.bare found).1
  | some pair =>
    obtain ⟨authority, behind⟩ := pair
    obtain ⟨rfl, -⟩ := written.authority found
    have own := (authority_text_iff filled).mpr (clear _ _ found).2
    apply filled
    rw [own]
    simp [UrlParts.authorityText, flagged.userinfo, flagged.port, noUserinfo, noPort, none]

/-- A text with a host has an authority. -/
theorem authorityOf_of_host (nonempty : url ≠ []) (host : (splitUrl url).host ≠ []) :
    ∃ authority, authorityOf url = some (authority, (splitUrl url).behindAuthority) := by
  have written := splitUrl_written nonempty
  cases found : authorityOf url with
  | none =>
    have none := ((splitUrl_split url).bare (written.bare found).1).2
    simp [UrlParts.hasAuthority, host] at none
  | some pair =>
    obtain ⟨authority, behind⟩ := pair
    obtain ⟨-, rfl⟩ := written.authority found
    exact ⟨authority, rfl⟩

/-- A text with a host has a path if a slash stands behind the authority. -/
theorem slashed_iff (nonempty : url ≠ []) (host : (splitUrl url).host ≠ []) :
    Slashed url ↔ (splitUrl url).path ≠ [] := by
  obtain ⟨authority, found⟩ := authorityOf_of_host nonempty host
  have slash : Slashed url ↔ ∃ rest, (splitUrl url).behindAuthority = '/' :: rest := by
    simp [Slashed, found]
  rw [slash, UrlParts.behindAuthority]
  rcases (splitUrl_split url).rooted host with none | ⟨rest, begins⟩
  · rw [none]
    refine iff_of_false ?_ (fun some => some rfl)
    rintro ⟨rest, begins⟩
    cases hasQuery : (splitUrl url).hasQuery <;>
      cases hasFragment : (splitUrl url).hasFragment <;> simp [hasQuery, hasFragment] at begins
  · rw [begins]
    exact iff_of_true ⟨_, rfl⟩ (cons_ne_nil _ _)

/-- A path that is written where the text has none is not in the text. -/
theorem splitUrl_not_assemble (nonempty : url ≠ [])
    (named : ¬ Nameless (splitUrl url).toUrlParts) (host : (splitUrl url).host ≠ []) (none : (splitUrl url).path = []) (rest : List Char) :
    url ≠ UrlParts.assemble { (splitUrl url).toUrlParts with path := '/' :: rest } := by
  have written := splitUrl_written nonempty
  have flagged := (splitUrl_split url).flagged
  have hasAuthority : UrlParts.hasAuthority
      { (splitUrl url).toUrlParts with path := '/' :: rest } = true := by
    simp [UrlParts.hasAuthority, host]
  obtain ⟨authority, found⟩ := authorityOf_of_host nonempty host
  obtain ⟨text, apart⟩ := hierarchy_of_authority found
  intro same
  rw [UrlParts.assemble_eq, ← scheme_text flagged named] at same
  nth_rewrite 1 [written.scheme] at same
  have behind := append_cancel_left same
  have longer : authority ++ (splitUrl url).behindAuthority =
      (splitUrl url).authorityText ++ '/' :: rest ++ (splitUrl url).behindAuthority := by
    rw [UrlParts.behindScheme, text, hasAuthority, if_pos rfl] at behind
    rw [UrlParts.behindAuthority, none] at behind ⊢
    simpa [UrlParts.behindAuthority, UrlParts.authorityText] using behind
  apply apart
  rw [append_cancel_right longer]
  simp

/-- Parts that are put together to nothing are all empty. -/
theorem UrlParts.assemble_eq_nil_iff {parts : UrlParts} :
    parts.assemble = [] ↔
      parts.scheme = [] ∧ parts.hasAuthority = false ∧ parts.behindAuthority = [] := by
  rw [UrlParts.assemble_eq, UrlParts.behindScheme]
  cases parts.scheme <;> cases parts.hasAuthority <;> simp

/-- A text without a part has nothing but the marks of an authority. -/
theorem splitUrl_assemble_eq_nil_iff (nonempty : url ≠ [])
    (named : ¬ Nameless (splitUrl url).toUrlParts) :
    (splitUrl url).assemble = [] ↔ url ∈ onlyMarks := by
  constructor
  · intro nothing
    obtain ⟨scheme, hasAuthority, behind⟩ := UrlParts.assemble_eq_nil_iff.mp nothing
    have written := splitUrl_written nonempty
    have flagged := (splitUrl_split url).flagged
    have text : url = hierarchy url := by
      have whole := written.scheme
      rwa [scheme_text flagged named, scheme] at whole
    cases found : authorityOf url with
    | none =>
      rw [(written.bare found).2, ← text] at behind
      exact absurd behind nonempty
    | some pair =>
      obtain ⟨authority, rest⟩ := pair
      obtain ⟨own, ownRest⟩ := written.authority found
      rw [(hierarchy_of_authority found).1, ← ownRest, behind, append_nil] at text
      rw [text]
      by_cases filled : authority = []
      · simp [filled, onlyMarks]
      · obtain ⟨-, userinfo, host, -, port⟩ := flagged.no_authority hasAuthority
        obtain ⟨lead, tail, pieces⟩ := splitUrl_pieces (own ▸ filled)
        have whole := pieces.whole
        have marks : (lead = [] ∨ lead = ['@']) ∧ (tail = [] ∨ tail = [':']) := by
          constructor
          · exact pieces.lead.imp And.left fun both => by rw [both.1, userinfo]; rfl
          · exact pieces.tail.imp And.left fun both => by rw [both.1, port]
        rw [own, host] at whole
        rcases marks with ⟨rfl | rfl, rfl | rfl⟩ <;> simp [whole, onlyMarks]
  · intro marks
    have all : ∀ text ∈ onlyMarks, (splitUrl text).assemble = [] := by decide
    exact all url marks

end Texts

end UnixCommons.HTTP
