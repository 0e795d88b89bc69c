import UnixCommons.HTTP.UrlAddress

/-!
# Parts and texts

Two laws connect the parts of an address with its text. Parts that are cut out of the text
they were put together to are the parts again, apart from flags that the text decides. And
splitting the text gives the parts back, if none of them has a character that ends an
earlier one. What splitting says about any text is collected in `Split`.
-/

namespace UnixCommons.HTTP

open Cut List

/-! ## Cutting the parts out of their own text -/

namespace UrlParts

/-- A part whose flag is not set is empty; userinfo and port are flagged exactly when they
are there. -/
structure Flagged (parts : UrlParts) : Prop where
  scheme : parts.hasScheme = false → parts.scheme = []
  userinfo : parts.hasUserinfo = !parts.userinfo.isEmpty
  host : parts.host ≠ [] → parts.hasHost = true
  port : parts.hasPort = !parts.port.isEmpty
  query : parts.hasQuery = false → parts.query = []
  fragment : parts.hasFragment = false → parts.fragment = []

/-- The parts with the flags that cutting them out gives. -/
def reflagged (parts : UrlParts) : UrlParts :=
  { parts with
    hasScheme := !parts.scheme.isEmpty
    hasHost := !parts.host.isEmpty
    hasPath := true }

/-- The authority in the text. -/
def ownAuthority (parts : UrlParts) : List Char :=
  if parts.hasAuthority then parts.authorityText else []

/-- The text behind the authority. -/
def behindAuthority (parts : UrlParts) : List Char :=
  parts.path ++ ((if parts.hasQuery then '?' :: parts.query else []) ++
    (if parts.hasFragment then '#' :: parts.fragment else []))

/-- The text behind the scheme. -/
def behindScheme (parts : UrlParts) : List Char :=
  (if parts.hasAuthority then '/' :: '/' :: parts.authorityText else []) ++ parts.behindAuthority

/-- The scheme and what stands behind it. -/
theorem assemble_eq (parts : UrlParts) :
    parts.assemble =
      (if parts.scheme.isEmpty then [] else parts.scheme ++ [':']) ++ parts.behindScheme := by
  simp [assemble, behindScheme, behindAuthority]

/-- Parts made of texts have their flags in step. -/
theorem ofTexts_flagged (scheme userinfo host port path query fragment : List Char) :
    (ofTexts scheme userinfo host port path query fragment).Flagged where
  scheme := by simp [ofTexts]
  userinfo := rfl
  host := by simp [ofTexts]
  port := rfl
  query := by simp [ofTexts]
  fragment := by simp [ofTexts]

variable {parts : UrlParts}

theorem Flagged.reflagged (flagged : parts.Flagged) : parts.reflagged.Flagged where
  scheme := by simp [UrlParts.reflagged]
  __ := flagged
  host := by simp [UrlParts.reflagged]

/-- Without an authority its parts are empty. -/
theorem Flagged.no_authority (flagged : parts.Flagged) (without : parts.hasAuthority = false) :
    parts.hasUserinfo = false ∧ parts.userinfo = [] ∧ parts.host = [] ∧ parts.hasPort = false ∧
      parts.port = [] := by
  simp only [hasAuthority] at without
  have noUserinfo := flagged.userinfo
  have noPort := flagged.port
  simp_all

/-- The text behind the scheme is what `adjust_parts` finds there. -/
theorem drop_scheme (parts : UrlParts) :
    (if parts.scheme.isEmpty then parts.assemble
      else parts.assemble.drop (parts.scheme.length + 1)) = parts.behindScheme := by
  rw [assemble_eq]
  split
  · rfl
  · have size : (parts.scheme ++ [':']).length = parts.scheme.length + 1 := by simp
    rw [← size, drop_left]

/-- The authority cut out of the text is the one assembled. -/
theorem take_authority (parts : UrlParts) :
    (if parts.hasAuthority then (parts.behindScheme.drop 2).take parts.authorityText.length
      else []) = parts.ownAuthority := by
  unfold ownAuthority
  cases hasAuthority : parts.hasAuthority with
  | false => rfl
  | true => simp [behindScheme, hasAuthority]

/-- What is left behind the authority. -/
theorem drop_authority (parts : UrlParts) :
    (if parts.hasAuthority then parts.behindScheme.drop (2 + parts.authorityText.length)
      else parts.behindScheme) = parts.behindAuthority := by
  cases hasAuthority : parts.hasAuthority with
  | false => simp [behindScheme, hasAuthority]
  | true => simp [behindScheme, hasAuthority, add_comm 2]

/-- Cutting out the parts of the authority. -/
theorem take_host (flagged : parts.Flagged) (hasAuthority : parts.hasAuthority = true) :
    (parts.ownAuthority.drop (if parts.hasUserinfo then parts.userinfo.length + 1
      else parts.userinfo.length)).take parts.host.length = parts.host := by
  simp only [ownAuthority, hasAuthority, authorityText]
  cases hasUserinfo : parts.hasUserinfo with
  | false =>
    have none := flagged.userinfo
    simp_all
  | true => simp

/-- Parts that are cut out of their own text. -/
theorem assignUrlParts_parts (flagged : parts.Flagged) :
    (assignUrlParts parts).parts = ⟨parts.reflagged, parts.ownAuthority⟩ := by
  have scheme : (if parts.scheme.isEmpty then [] else
      parts.assemble.take parts.scheme.length) = parts.scheme := by
    rw [assemble_eq]
    split
    · simp_all
    · simp
  have path : parts.behindAuthority.take parts.path.length = parts.path := by
    simp [behindAuthority]
  have query : (if parts.hasQuery then ((parts.behindAuthority.drop parts.path.length).drop
      1).take parts.query.length else []) = parts.query := by
    cases hasQuery : parts.hasQuery with
    | false => simp [flagged.query hasQuery]
    | true => simp [behindAuthority, hasQuery]
  have fragment : (if parts.hasFragment then
      ((if parts.hasQuery then (parts.behindAuthority.drop parts.path.length).drop
        (1 + parts.query.length) else parts.behindAuthority.drop parts.path.length).drop 1).take
        parts.fragment.length else []) = parts.fragment := by
    cases hasFragment : parts.hasFragment with
    | false => simp [flagged.fragment hasFragment]
    | true =>
      cases hasQuery : parts.hasQuery <;>
        simp [behindAuthority, hasQuery, hasFragment, add_comm 1]
  simp only [assignUrlParts, adjustParts, drop_scheme, take_authority, drop_authority, scheme,
    path, query, fragment]
  cases hasAuthority : parts.hasAuthority with
  | false =>
    obtain ⟨hasUserinfo, userinfo, host, hasPort, port⟩ := flagged.no_authority hasAuthority
    simp [reflagged, hasUserinfo, userinfo, host, hasPort, port]
  | true =>
    have userinfo : (if parts.hasUserinfo then parts.ownAuthority.take parts.userinfo.length
        else []) = parts.userinfo := by
      cases hasUserinfo : parts.hasUserinfo with
      | false =>
        have none := flagged.userinfo
        simp_all
      | true => simp [ownAuthority, hasAuthority, authorityText, hasUserinfo]
    have host := take_host flagged hasAuthority
    have port : (if parts.hasPort then (parts.ownAuthority.drop
        (parts.ownAuthority.length - parts.port.length)).take parts.port.length else []) =
        parts.port := by
      cases hasPort : parts.hasPort with
      | false =>
        have none := flagged.port
        simp_all
      | true =>
        simp only [ownAuthority, hasAuthority, if_true, authorityText, hasPort]
        rw [append_cons, length_append, Nat.add_sub_cancel, drop_left, take_length]
    simp only [Bool.true_and, userinfo, host, port, reflagged]
    cases parts.host <;> rfl

end UrlParts

/-! ## What splitting gives -/

theorem authorityEnd_cases {ch : Char} (ends : Category.authorityEnd ch = true) :
    ch = '/' ∨ ch = '?' ∨ ch = '#' := by
  simpa [Category.authorityEnd] using ends

/-- A path is empty or begins with a slash. -/
def Rooted (path : List Char) : Prop := path = [] ∨ ∃ rest, path = '/' :: rest

/-- What `split_url` says about every text. -/
structure Split (parts : ExtendedUrlParts) : Prop where
  flagged : parts.toUrlParts.Flagged
  path : '?' ∉ parts.path
  rooted : parts.host ≠ [] → Rooted parts.path
  bare : parts.authority = [] → parts.hasHost = false ∧ parts.toUrlParts.hasAuthority = false

/-- The parts before the authority is split. -/
structure Unsplit (parts : ExtendedUrlParts) : Prop where
  scheme : parts.hasScheme = false → parts.scheme = []
  userinfo : parts.hasUserinfo = false ∧ parts.userinfo = []
  host : parts.hasHost = false ∧ parts.host = []
  port : parts.hasPort = false ∧ parts.port = []
  path : '?' ∉ parts.path
  rooted : parts.authority ≠ [] → Rooted parts.path
  query : parts.hasQuery = false → parts.query = []
  fragment : parts.hasFragment = false → parts.fragment = []

namespace Unsplit

variable {parts : ExtendedUrlParts}

/-- Cutting off the fragment keeps the parts unsplit. -/
theorem splitFragment (unsplit : Unsplit parts) (cur : List Char) :
    Unsplit (splitFragment cur parts) := by
  cases cur with
  | nil => exact unsplit
  | cons mark fragment => exact { unsplit with fragment := by simp [HTTP.splitFragment] }

/-- Cutting off the query keeps the parts unsplit. -/
theorem splitQuery (unsplit : Unsplit parts) (cur : List Char) :
    Unsplit (splitQuery cur parts) := by
  unfold HTTP.splitQuery
  split
  · apply splitFragment
    exact { unsplit with query := by simp }
  · exact unsplit.splitFragment cur

/-- Cutting off the path keeps the parts unsplit. -/
theorem splitPath (unsplit : Unsplit parts) {cur : List Char}
    (rooted : parts.authority ≠ [] → Rooted (cutWhere Category.pathEnd cur).1) :
    Unsplit (splitPath cur parts) := by
  apply splitQuery
  exact { unsplit with
    path := by
      intro inside
      have ends := not_ends_of_mem_cutWhere inside
      exact absurd ends (by decide)
    rooted := rooted }

/-- Behind an authority comes a slash, or no path at all. -/
theorem rooted_behind {authority rest : List Char} {stop : Char} {cur : List Char}
    (cut : cutWhere Category.authorityEnd cur = (authority, stop :: rest)) :
    Rooted (cutWhere Category.pathEnd (stop :: rest)).1 := by
  have ends : Category.authorityEnd stop = true :=
    cutWhere_rest (show (cutWhere Category.authorityEnd cur).2 = stop :: rest by rw [cut])
  rcases authorityEnd_cases ends with rfl | rfl | rfl
  · right
    exact ⟨_, rfl⟩
  · left
    rw [cutWhere_cons_end rfl]
  · left
    rw [cutWhere_cons_end rfl]

/-- Cutting the part behind the scheme keeps the parts unsplit. -/
theorem splitHierarchy (unsplit : Unsplit parts) (noAuthority : parts.authority = [])
    (noPath : parts.path = []) (cur : List Char) : Unsplit (splitHierarchy cur parts) := by
  have joined (authority : List Char) : Unsplit { parts with authority := authority } :=
    { unsplit with rooted := fun _ => .inl noPath }
  unfold HTTP.splitHierarchy
  split
  · exact unsplit
  · exact unsplit.splitQuery _
  · exact unsplit.splitQuery _
  · split
    · exact joined _
    · rename_i authority stop rest cut
      apply (joined authority).splitPath
      intro _
      exact rooted_behind cut
  · apply unsplit.splitPath
    intro some
    exact absurd noAuthority some

/-- The last cut is that of the authority. -/
theorem splitAuthority (unsplit : Unsplit parts) : Split (splitAuthority parts) := by
  unfold HTTP.splitAuthority
  dsimp only
  split
  · exact {
      flagged := {
        __ := unsplit
        userinfo := by simp [unsplit.userinfo]
        host := fun some => absurd unsplit.host.2 some
        port := by simp [unsplit.port]
        fragment := unsplit.fragment }
      path := unsplit.path
      rooted := fun some => absurd unsplit.host.2 some
      bare := fun _ => ⟨unsplit.host.1, by
        simp [UrlParts.hasAuthority, unsplit.userinfo, unsplit.host, unsplit.port]⟩ }
  · rename_i nonempty
    exact {
      flagged := {
        scheme := unsplit.scheme
        userinfo := rfl
        host := fun _ => rfl
        port := rfl
        query := unsplit.query
        fragment := unsplit.fragment }
      path := unsplit.path
      rooted := fun _ => unsplit.rooted (by simpa using nonempty)
      bare := fun none => absurd none (by simpa using nonempty) }

end Unsplit

/-- What `split_url` gives, for any text. -/
theorem splitUrl_split (url : List Char) : Split (splitUrl url) := by
  have nothing : Unsplit {} := {
    scheme := fun _ => rfl
    userinfo := ⟨rfl, rfl⟩
    host := ⟨rfl, rfl⟩
    port := ⟨rfl, rfl⟩
    path := not_mem_nil
    rooted := fun _ => .inl rfl
    query := fun _ => rfl
    fragment := fun _ => rfl }
  apply Unsplit.splitAuthority
  split
  · rename_i front cut
    refine { nothing with path := ?_, rooted := fun some => absurd rfl some }
    intro inside
    have whole := cutWhere_append Category.schemeEnd url
    rw [cut, append_nil] at whole
    have ends : Category.schemeEnd '?' = false :=
      @not_ends_of_mem_cutWhere _ Category.schemeEnd url '?' (by rw [cut]; exact whole ▸ inside)
    exact absurd ends (by decide)
  · rename_i scheme rest cut
    apply Unsplit.splitHierarchy
    · exact { nothing with scheme := by simp }
    · rfl
    · rfl
  · exact nothing.splitHierarchy rfl rfl url

/-! ## Splitting a text that was put together -/

variable {mark : Char} {front back : List Char}

theorem findIdx_none (apart : mark ∉ front) : front.findIdx? (· == mark) = none := by
  rw [List.findIdx?_eq_none_iff]
  intro item inside
  simpa using fun same : item = mark => apart (same ▸ inside)

/-- The first mark is the one between the parts. -/
theorem findIdx_cut (apart : mark ∉ front) :
    (front ++ mark :: back).findIdx? (· == mark) = some front.length := by
  simp [findIdx_none apart, List.findIdx?_cons]

/-- The last mark is the one between the parts. -/
theorem rfindChar_cut (apart : mark ∉ back) :
    rfindChar (front ++ mark :: back) mark = some front.length := by
  have found : (back.reverse ++ mark :: front.reverse).findIdx? (· == mark) =
      some back.reverse.length := findIdx_cut (by simpa using apart)
  simp only [rfindChar, reverse_append, reverse_cons, append_assoc,
    singleton_append, found, length_reverse, Option.map_some, length_append,
    length_cons, Option.some.injEq]
  omega

theorem rfindChar_none (apart : mark ∉ front) : rfindChar front mark = none := by
  have none : front.reverse.findIdx? (· == mark) = none := findIdx_none (by simpa using apart)
  simp [rfindChar, none]

/-- No part has a character that ends an earlier one. -/
structure Separated (parts : UrlParts) : Prop where
  flagged : parts.Flagged
  scheme : parts.scheme ≠ []
  schemeChars : ∀ ch ∈ parts.scheme, Category.schemeEnd ch = false
  userinfo : ∀ ch ∈ parts.userinfo, Category.authorityEnd ch = false
  userinfoEnd : '@' ∉ parts.userinfo
  host : parts.host ≠ []
  hostChars : ∀ ch ∈ parts.host, Category.authorityEnd ch = false
  hostBegin : '@' ∉ parts.host
  hostEnd : ':' ∉ parts.host
  port : ∀ ch ∈ parts.port, ch.isDigit = true
  path : ∃ rest, parts.path = '/' :: rest
  pathChars : ∀ ch ∈ parts.path, Category.pathEnd ch = false
  query : ∀ ch ∈ parts.query, Category.queryEnd ch = false

namespace Separated

variable {parts : UrlParts}

section

variable (separated : Separated parts)
include separated

/-- Parts with a host have an authority. -/
theorem hasAuthority : parts.hasAuthority = true := by
  simp [UrlParts.hasAuthority, separated.host]

/-- Only digits stand in the port. -/
theorem port_apart (other : mark.isDigit = false) : mark ∉ parts.port := by
  intro inside
  exact absurd (separated.port mark inside) (by simp [other])

/-- No character of the authority ends it. -/
theorem authority_apart :
    ∀ ch ∈ parts.authorityText, Category.authorityEnd ch = false := by
  intro ch inside
  have digits : ch.isDigit = true → Category.authorityEnd ch = false := by
    intro digit
    by_contra ends
    rcases authorityEnd_cases (by simpa using ends) with rfl | rfl | rfl <;>
      exact absurd digit (by decide)
  simp only [UrlParts.authorityText, mem_append] at inside
  rcases inside with (userinfo | host) | port
  · split at userinfo
    · rcases mem_append.mp userinfo with before | mark
      · exact separated.userinfo ch before
      · rw [mem_singleton.mp mark]
        decide
    · cases userinfo
  · exact separated.hostChars ch host
  · split at port
    · rcases mem_cons.mp port with rfl | digit
      · decide
      · exact digits (separated.port ch digit)
    · cases port

/-- The query and the fragment are found behind the path. -/
theorem splitPath_behind {before : ExtendedUrlParts}
    (noQuery : before.hasQuery = false ∧ before.query = [])
    (noFragment : before.hasFragment = false ∧ before.fragment = []) :
    splitPath parts.behindAuthority before =
      { before with
        hasPath := true
        path := parts.path
        hasQuery := parts.hasQuery
        query := parts.query
        hasFragment := parts.hasFragment
        fragment := parts.fragment } := by
  unfold UrlParts.behindAuthority splitPath
  cases hasQuery : parts.hasQuery with
  | false =>
    cases hasFragment : parts.hasFragment with
    | false =>
      simp [cutWhere_whole separated.pathChars, splitQuery, splitFragment, noQuery, noFragment,
        separated.flagged.query hasQuery, separated.flagged.fragment hasFragment]
    | true =>
      simp [cutWhere_cut separated.pathChars (show Category.pathEnd '#' = true from rfl),
        splitQuery, splitFragment, noQuery, separated.flagged.query hasQuery]
  | true =>
    cases hasFragment : parts.hasFragment with
    | false =>
      simp [cutWhere_cut separated.pathChars (show Category.pathEnd '?' = true from rfl),
        splitQuery, splitFragment, noFragment, cutWhere_whole separated.query,
        separated.flagged.fragment hasFragment]
    | true =>
      simp [cutWhere_cut separated.pathChars (show Category.pathEnd '?' = true from rfl),
        splitQuery, splitFragment,
        cutWhere_cut separated.query (show Category.queryEnd '#' = true from rfl)]

end

/-- A colon in front of the host is not the one before the port. -/
theorem rfindChar_before (apart : mark ∉ back) :
    (rfindChar (front ++ back) mark).filter (fun position => !decide (position < front.length)) =
      none := by
  by_cases inside : mark ∈ front
  · obtain ⟨last, first, split, apartLast⟩ := eq_append_cons_of_mem (mem_reverse.mpr inside)
    have whole : front = first.reverse ++ mark :: last.reverse := by
      rw [← reverse_reverse front, split]
      simp
    have found := @rfindChar_cut mark first.reverse (last.reverse ++ back) (by simp [apartLast, apart])
    have same : front ++ back = first.reverse ++ mark :: (last.reverse ++ back) := by simp [whole]
    rw [same, found]
    have shorter : first.length < front.length := by
      rw [whole]
      simp
    simp [shorter]
  · rw [rfindChar_none (by simp [inside, apart])]
    rfl

/-- What stands before the host. -/
def lead (parts : UrlParts) : List Char :=
  if parts.hasUserinfo then parts.userinfo ++ ['@'] else []

theorem authorityText_eq (parts : UrlParts) : parts.authorityText =
    lead parts ++ parts.host ++ (if parts.hasPort then ':' :: parts.port else []) := rfl

variable (separated : Separated parts)
include separated

/-- The user is found in front of the first `@`. -/
theorem findIdx_text :
    parts.authorityText.findIdx? (· == '@') =
      if parts.hasUserinfo then some parts.userinfo.length else none := by
  have noPort := separated.port_apart (show ('@').isDigit = false by decide)
  cases hasUserinfo : parts.hasUserinfo with
  | false =>
    simp only [UrlParts.authorityText, hasUserinfo, Bool.false_eq_true, if_false]
    apply findIdx_none
    split <;> simp [separated.hostBegin, noPort]
  | true =>
    simp only [UrlParts.authorityText, hasUserinfo, if_true, append_assoc]
    exact findIdx_cut separated.userinfoEnd

/-- The port is found behind the last colon. -/
theorem rfindChar_text :
    (rfindChar parts.authorityText ':').filter
        (fun position => !((lead parts).length != 0 && decide (position < (lead parts).length))) =
      if parts.hasPort then some ((lead parts).length + parts.host.length) else none := by
  have noColon : ':' ∉ parts.port := separated.port_apart (by decide)
  have same : (fun position : Nat =>
      !((lead parts).length != 0 && decide (position < (lead parts).length))) =
      fun position => !decide (position < (lead parts).length) := by
    funext position
    cases lead parts <;> simp
  rw [same, authorityText_eq]
  cases hasPort : parts.hasPort with
  | false => simpa using rfindChar_before separated.hostEnd
  | true =>
    rw [if_pos rfl, rfindChar_cut noColon]
    simp

/-- The authority is split into the parts it was put together from. -/
theorem splitAuthority_text {before : ExtendedUrlParts}
    (own : before.authority = parts.authorityText) :
    splitAuthority before =
      { before with
        hasUserinfo := parts.hasUserinfo
        userinfo := parts.userinfo
        hasHost := true
        host := parts.host
        hasPort := parts.hasPort
        port := parts.port } := by
  have nonempty : parts.authorityText.isEmpty = false := by
    simp [UrlParts.authorityText, separated.host]
  have flagUserinfo := separated.flagged.userinfo
  have flagPort := separated.flagged.port
  have found := separated.findIdx_text
  have colon := separated.rfindChar_text
  have text := authorityText_eq parts
  simp only [splitAuthority, own, nonempty, found]
  have hostBegin : (if parts.hasUserinfo then some parts.userinfo.length else none).elim 0
      (· + 1) = (lead parts).length := by
    unfold lead
    cases parts.hasUserinfo <;> simp
  have userinfo : (if parts.hasUserinfo then some parts.userinfo.length else none).elim []
      (fun position => parts.authorityText.take position) = parts.userinfo := by
    cases hasUserinfo : parts.hasUserinfo with
    | false => simp_all
    | true => simp [UrlParts.authorityText, hasUserinfo]
  rw [hostBegin, userinfo, colon]
  cases hasPort : parts.hasPort with
  | false =>
    have none : parts.port = [] := by simpa [hasPort] using flagPort
    simp [text, hasPort, none, flagUserinfo]
  | true =>
    have behindPort : parts.authorityText.drop ((lead parts).length + parts.host.length + 1) =
        parts.port := by
      have front : (lead parts ++ parts.host ++ [':']).length =
          (lead parts).length + parts.host.length + 1 := by simp [add_assoc]
      rw [text, if_pos hasPort, append_cons, ← front, drop_left]
    have hasOwn : (!parts.port.isEmpty) = true := by rw [← flagPort, hasPort]
    have host : (parts.authorityText.drop (lead parts).length).take parts.host.length =
        parts.host := by simp [text]
    simp [behindPort, hasOwn, host, flagUserinfo]

/-- Parts that are assembled and split again are the same, but for their flags. -/
theorem splitUrl_assemble :
    splitUrl parts.assemble = ⟨parts.reflagged, parts.ownAuthority⟩ := by
  obtain ⟨rest, begins⟩ := separated.path
  have behind : ∃ tail, parts.behindAuthority = '/' :: tail := ⟨_, by
    simp only [UrlParts.behindAuthority, begins]
    rfl⟩
  obtain ⟨tail, slash⟩ := behind
  have text : parts.assemble =
      parts.scheme ++ ':' :: ('/' :: '/' :: (parts.authorityText ++ '/' :: tail)) := by
    simp [UrlParts.assemble_eq, UrlParts.behindScheme, separated.hasAuthority, separated.scheme,
      slash]
  have cutScheme := @cutWhere_cut _ Category.schemeEnd ':' parts.scheme
    ('/' :: '/' :: (parts.authorityText ++ '/' :: tail)) separated.schemeChars rfl
  have cutAuthority := @cutWhere_cut _ Category.authorityEnd '/' parts.authorityText tail
    separated.authority_apart rfl
  simp only [splitUrl, text, cutScheme, splitHierarchy, cutAuthority]
  rw [← slash, separated.splitPath_behind ⟨rfl, rfl⟩ ⟨rfl, rfl⟩,
    separated.splitAuthority_text rfl]
  simp [UrlParts.reflagged, UrlParts.ownAuthority, separated.hasAuthority, separated.scheme,
    separated.host]

end Separated

end UnixCommons.HTTP
