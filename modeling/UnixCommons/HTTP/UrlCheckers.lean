import UnixCommons.HTTP.UrlChecks

/-!
# Checkers and constructors

A checker is meant to accept the texts an address can be made from. The two go through the
same rules in their own code. They differ in the number of the port, which only the
constructor converts, in a userinfo that the constructor mends, which the checker leaves
aside, and in a scheme without a name, which is lost when the constructor builds the address
again. A browser's host at the end of the text may be cut off within a character; the checker
completes it from the memory behind the text, the constructor has a text of its own.
-/

namespace UnixCommons.HTTP

open Outcome List HTTPAddress

/-- The number of the port is one of a port; an empty text is no port. -/
def PortFits (port : List Char) : Prop := Nat.ofDigitChars 10 port 0 ≤ 65535

/-- The scheme is one of HTTP and there is a host. -/
def Served (strict : Bool) (parts : UrlParts) : Prop :=
  (isHttp parts.scheme || (!strict && parts.scheme.isEmpty)) = true ∧ parts.host ≠ []

/-- The parts of a text, with a scheme added where it may be missing. -/
def partsOf (strict : Bool) (url : List Char) : ExtendedUrlParts :=
  (withScheme strict (URLAddress.urlWithoutCheck url)).parts

/-- What stands behind the host in the text the parts are views of. -/
def behindOf (strict : Bool) (url : List Char) : List Char :=
  let address := withScheme strict (URLAddress.urlWithoutCheck url)
  behindHost address.url address.parts

/-- The memory beyond that text for a checker: its own text, with a scheme added, ends. -/
def reachOf (strict : Bool) (url beyond : List Char) : List Char :=
  if !strict && httpUrlNeedsPrefix (splitUrl url).scheme (splitUrl url).host then [] else beyond

/-- The checks of the scheme and the host, as one condition. -/
theorem components_ok_iff (url : List Char) (strict : Bool) (parts : UrlParts) :
    checkHttpUrlComponents url parts.scheme parts.host strict = .ok () ↔ Served strict parts := by
  simp [checkHttpUrlComponents, check_bind_ok_iff, ensure_ok_iff, Served]

/-- A port of digits is taken exactly if it fits. -/
theorem portOf_isOk_iff {secure : Bool} {port : List Char} (digits : Numeral.Digits port) :
    (portOf secure port).isOk = true ↔ PortFits port := by
  unfold portOf PortFits
  cases port with
  | nil => simp [Except.toBool]
  | cons first rest =>
    rw [Text.strToUnsigned_digits digits (cons_ne_nil _ _)]
    by_cases fits : Nat.ofDigitChars 10 (first :: rest) 0 ≤ 65535
    · simp [fits, Except.toBool]
    · simp [fits, Except.toBool]

/-! ## Texts that are not empty -/

section Text

variable (first : Char) (rest : List Char)

/-- A checker goes through the parts that the constructor has. -/
theorem checkHttp_ok_iff
    (processParts : List Char → ExtendedUrlParts → List Char → Except String ExtendedUrlParts)
    (beyond : List Char) (strict : Bool) :
    checkHttp processParts (first :: rest) beyond strict = .ok () ↔
      ∃ parts, processParts (first :: rest) (partsOf strict (first :: rest))
          (behindOf strict (first :: rest) ++ reachOf strict (first :: rest) beyond) = .ok parts ∧
        Served strict parts.toUrlParts ∧ PartsValid parts.toUrlParts := by
  have same : checkedParts (first :: rest) beyond strict = (partsOf strict (first :: rest),
      behindOf strict (first :: rest) ++ reachOf strict (first :: rest) beyond) := by
    simp only [checkedParts, partsOf, behindOf, reachOf, withScheme, URLAddress.urlWithoutCheck,
      isEmpty_cons, Bool.false_eq_true, if_false]
    split
    · rw [append_nil]
      rfl
    · rfl
  simp only [checkHttp, isEmpty_cons, Bool.false_eq_true, if_false, same]
  rw [bind_ok_iff]
  apply exists_congr
  intro parts
  rw [check_bind_ok_iff, components_ok_iff]
  apply and_congr_right
  intro _
  apply and_congr_right
  intro served
  exact partsChecker_ok_iff served.2

/-- What passes the specific checks, and as what. -/
theorem specificChecks_ok_iff {strict : Bool}
    {additionalChecks : URLAddress → Except String (URLAddress × Bool)} {given mended : URLAddress} :
    specificChecks strict additionalChecks given = .ok mended ↔
      ∃ checked, additionalChecks (withScheme strict given) = .ok checked ∧
        Served strict checked.1.parts.toUrlParts ∧
        mend strict checked.2 checked.1 = mended := by
  unfold specificChecks
  rw [bind_ok_iff]
  apply exists_congr
  intro checked
  rw [check_bind_ok_iff, components_ok_iff]
  simp only [pure, Except.pure, Except.ok.injEq]

/-- The constructor mends the parts before it checks them, and converts the port. -/
theorem assign_isOk_iff {strict : Bool}
    {additionalChecks : URLAddress → Except String (URLAddress × Bool)} :
    (assign strict additionalChecks (first :: rest)).isOk = true ↔
      ∃ checked, additionalChecks (withScheme strict
          (URLAddress.urlWithoutCheck (first :: rest))) = .ok checked ∧
        Served strict checked.1.parts.toUrlParts ∧
        ∃ mended, mend strict checked.2 checked.1 = mended ∧
          partsChecker mended.url mended.parts.toUrlParts = .ok () ∧
          (portOf (equalCaseless mended.parts.scheme httpsScheme)
            mended.parts.port).isOk = true := by
  simp only [assign, isEmpty_cons, Bool.false_eq_true, if_false]
  rw [bind_isOk_iff]
  constructor
  · rintro ⟨mended, assigned, ported⟩
    obtain ⟨own, specific, passed⟩ := bind_ok_iff.mp assigned
    obtain ⟨valid, same⟩ := check_bind_ok_iff.mp passed
    cases same
    obtain ⟨checked, additional, served, mends⟩ :=
      specificChecks_ok_iff.mp specific
    obtain ⟨port, converted, -⟩ := bind_isOk_iff.mp ported
    refine ⟨checked, additional, served, mended, mends, valid, ?_⟩
    rw [converted]
    rfl
  · rintro ⟨checked, additional, served, mended, mends, valid, ported⟩
    have specific := specificChecks_ok_iff.mpr
      ⟨checked, additional, served, mends⟩
    refine ⟨mended, bind_ok_iff.mpr ⟨mended, specific, ?_⟩, bind_isOk_iff.mpr ?_⟩
    · exact check_bind_ok_iff.mpr ⟨valid, rfl⟩
    · cases port : portOf (equalCaseless mended.parts.scheme httpsScheme)
        mended.parts.port with
      | ok converted => exact ⟨converted, rfl, rfl⟩
      | error message =>
        rw [port] at ported
        cases ported

/-- The parts of a text are split. -/
theorem partsOf_split (strict : Bool) : Split (partsOf strict (first :: rest)) := by
  simp only [partsOf, withScheme, URLAddress.urlWithoutCheck, isEmpty_cons,
    Bool.false_eq_true, if_false]
  split
  · exact splitUrl_split (httpAddScheme (first :: rest))
  · exact splitUrl_split (first :: rest)

/-- What a checker without strictness wants of the parts. -/
abbrev Passes (parts : ExtendedUrlParts) : Prop :=
  (Served false parts.toUrlParts ∧ PartsValid (bare parts)) ∧ ¬ Nameless parts.toUrlParts

/-- What a constructor without strictness wants of them. -/
abbrev Suits (rebuilt : Bool) (parts : ExtendedUrlParts) : Prop :=
  (Served false parts.toUrlParts ∧ PartsValid (bare parts)) ∧
    (rebuilt = true ∨ ¬ Nameless parts.toUrlParts) ∧ Mends parts.userinfo ∧ PortFits parts.port

/-- Without strictness: what the checks before gave is mended. -/
theorem unstrict_isOk_iff {additionalChecks : URLAddress → Except String (URLAddress × Bool)}
    {address : URLAddress} {rebuild : Bool}
    (checked : additionalChecks (withScheme false
      (URLAddress.urlWithoutCheck (first :: rest))) = .ok (address, rebuild))
    (flagged : address.parts.toUrlParts.Flagged) (apart : '?' ∉ address.parts.path)
    (rooted : address.parts.host ≠ [] → Rooted address.parts.path) :
    (assign false additionalChecks (first :: rest)).isOk = true ↔
      Suits (rebuild || (fixParts address.parts.toUrlParts).2) address.parts := by
  have same := mend_parts flagged rebuild
  have host : (mend false rebuild address).parts.host = address.parts.host := by
    rw [same]
    split <;> rfl
  have port : (mend false rebuild address).parts.port = address.parts.port := by
    rw [same]
    split <;> rfl
  rw [assign_isOk_iff]
  constructor
  · rintro ⟨_, given, served, mended, rfl, passed, ported⟩
    cases checked.symm.trans given
    have valid := (partsChecker_ok_iff (host ▸ served.2)).mp passed
    obtain ⟨bareValid, name, mends⟩ :=
      (mend_valid_iff flagged apart (rooted served.2)).mp valid
    refine ⟨⟨served, bareValid⟩, name, mends, ?_⟩
    rw [← port]
    exact (portOf_isOk_iff valid.port).mp ported
  · rintro ⟨⟨served, bareValid⟩, name, mends, fits⟩
    have valid := (mend_valid_iff flagged apart (rooted served.2)).mpr
      ⟨bareValid, name, mends⟩
    refine ⟨_, checked, served, _, rfl, (partsChecker_ok_iff (host ▸ served.2)).mpr valid, ?_⟩
    rw [portOf_isOk_iff valid.port, port]
    exact fits

/-! ## HTTP addresses -/

theorem isOk_unit_iff {outcome : Except String Unit} : outcome.isOk = true ↔ outcome = .ok () := by
  cases outcome <;> simp [Except.toBool]

/-- The texts that a strict address is made of. -/
theorem ofText_strict :
    (ofText (first :: rest) true).isOk = true ↔
      (Served true (partsOf true (first :: rest)).toUrlParts ∧
        PartsValid (partsOf true (first :: rest)).toUrlParts) ∧
      PortFits (partsOf true (first :: rest)).port := by
  simp only [ofText, isEmpty_cons, Bool.false_eq_true, if_false]
  rw [assign_isOk_iff]
  constructor
  · rintro ⟨_, given, served, mended, rfl, passed, ported⟩
    cases given
    have valid := (partsChecker_ok_iff served.2).mp passed
    exact ⟨⟨served, valid⟩, (portOf_isOk_iff valid.port).mp ported⟩
  · rintro ⟨⟨served, valid⟩, fits⟩
    exact ⟨_, rfl, served, _, rfl, (partsChecker_ok_iff served.2).mpr valid,
      (portOf_isOk_iff valid.port).mpr fits⟩

/-- Without strictness a checker leaves out what is mended. -/
theorem bare_and_named_iff (parts : ExtendedUrlParts) :
    PartsValid (clearParts false parts).toUrlParts ↔
      PartsValid (bare parts) ∧ ¬ Nameless parts.toUrlParts :=
  partsValid_iff_named

/-- The texts that pass the checker. -/
theorem httpChecker_unstrict :
    (httpChecker (first :: rest) false).isOk = true ↔ Passes (partsOf false (first :: rest)) := by
  rw [isOk_unit_iff, httpChecker, checkHttp_ok_iff]
  constructor
  · rintro ⟨_, given, served, valid⟩
    cases given
    obtain ⟨bareValid, name⟩ := (bare_and_named_iff _).mp valid
    exact ⟨⟨served, bareValid⟩, name⟩
  · rintro ⟨⟨served, bareValid⟩, name⟩
    exact ⟨_, rfl, served, (bare_and_named_iff _).mpr ⟨bareValid, name⟩⟩

/-- The texts that an address is made of when it may be mended. -/
theorem ofText_unstrict :
    (ofText (first :: rest) false).isOk = true ↔
      Suits (fixParts (partsOf false (first :: rest)).toUrlParts).2
        (partsOf false (first :: rest)) := by
  have split := partsOf_split first rest false
  have checked : additionalChecks (withScheme false
      (URLAddress.urlWithoutCheck (first :: rest))) = .ok (_, false) := rfl
  exact unstrict_isOk_iff first rest checked split.flagged split.path split.rooted

/-! ## Browser addresses -/

section Browser

variable (encode : List Char → List Nat → Except String (List Char))

/-- The parts with an encoded host. -/
def hosted (parts : ExtendedUrlParts) (encodedHost : List Char) : ExtendedUrlParts :=
  { parts with host := encodedHost }

/-- Only the message of a failure knows the address. -/
theorem idnaHostNormalize_ok_iff {url host behind encodedHost : List Char} :
    idnaHostNormalize encode url host behind = .ok encodedHost ↔
      idnaNormalizeHost encode host behind = .ok encodedHost := by
  unfold idnaHostNormalize
  cases idnaNormalizeHost encode host behind <;> simp

/-- An empty host is refused. -/
theorem host_ne_nil_of_normalized {host behind encodedHost : List Char}
    (normalized : idnaNormalizeHost encode host behind = .ok encodedHost) : host ≠ [] := by
  rintro rfl
  cases normalized

/-- A host that is normalized has been decoded. -/
theorem decoded_of_normalized {host behind encodedHost : List Char}
    (normalized : idnaNormalizeHost encode host behind = .ok encodedHost) :
    decodeHost host behind ≠ none := by
  intro none
  simp only [idnaNormalizeHost, none] at normalized
  split_ifs at normalized

/-- A host that is decoded from a text is decoded to the same from the text with more behind
it. -/
theorem decodeLoop_append {rounds size : Nat} {memory : List UInt8} {whost : List Nat}
    (fits : size ≤ memory.length) (decoded : decodeLoop rounds size memory = some whost)
    (more : List UInt8) : decodeLoop rounds size (memory ++ more) = some whost := by
  induction rounds generalizing size memory whost with
  | zero => exact decoded
  | succ rounds ih =>
    rw [decodeLoop] at decoded ⊢
    split_ifs at decoded ⊢ with none
    · exact decoded
    cases memory with
    | nil => exact absurd (Nat.le_zero.mp fits) none
    | cons lead rest =>
      dsimp only [headD_cons] at decoded ⊢
      rw [cons_append, headD_cons, ← cons_append]
      cases read : (Text.utf8CharToWchar (lead :: rest) (Text.getOctetCount lead)).1 with
      | false => simp [read] at decoded
      | true =>
        obtain ⟨inside, same⟩ := Text.utf8CharToWchar_append read more
        rw [read, if_pos rfl, Option.map_eq_some_iff] at decoded
        obtain ⟨others, later, rfl⟩ := decoded
        rw [same, read, if_pos rfl, drop_append_of_le_length inside,
          ih (by rw [length_drop]; omega) later]
        rfl

/-- A decoded host does not depend on what stands further behind. -/
theorem decodeHost_append {host behind : List Char} {whost : List Nat}
    (decoded : decodeHost host behind = some whost) (more : List Char) :
    decodeHost host (behind ++ more) = some whost := by
  unfold decodeHost at decoded ⊢
  rw [← append_assoc, octets, map_append]
  exact decodeLoop_append (by simp [octets]) decoded _

/-- With a host that is complete in the text the memory beyond does not matter. -/
theorem idnaNormalizeHost_append {host behind : List Char} (complete : decodeHost host behind ≠ none)
    (more : List Char) :
    idnaNormalizeHost encode host (behind ++ more) = idnaNormalizeHost encode host behind := by
  obtain ⟨whost, decoded⟩ := Option.ne_none_iff_exists'.mp complete
  simp only [idnaNormalizeHost, decoded, decodeHost_append decoded more]

/-- The checker wants a host that it can normalize, with the memory beyond the text in reach. -/
theorem browserChecker_isOk_iff (beyond : List Char) :
    (browserChecker encode (first :: rest) beyond).isOk = true ↔
      ∃ encodedHost,
        idnaNormalizeHost encode (partsOf false (first :: rest)).host
          (behindOf false (first :: rest) ++ reachOf false (first :: rest) beyond) =
            .ok encodedHost ∧
        Passes (hosted (partsOf false (first :: rest)) encodedHost) := by
  rw [isOk_unit_iff, browserChecker, checkHttp_ok_iff]
  constructor
  · rintro ⟨parts, given, served, valid⟩
    obtain ⟨encodedHost, normalized, same⟩ := bind_ok_iff.mp given
    cases same
    rw [idnaHostNormalize_ok_iff] at normalized
    obtain ⟨bareValid, name⟩ := (bare_and_named_iff
      (hosted (partsOf false (first :: rest)) encodedHost)).mp valid
    exact ⟨encodedHost, normalized, ⟨served, bareValid⟩, name⟩
  · rintro ⟨encodedHost, normalized, ⟨served, bareValid⟩, name⟩
    refine ⟨_, bind_ok_iff.mpr ⟨encodedHost, ?_, rfl⟩, served, (bare_and_named_iff
      (hosted (partsOf false (first :: rest)) encodedHost)).mpr ⟨bareValid, name⟩⟩
    exact (idnaHostNormalize_ok_iff encode).mpr normalized

/-- The constructor wants one that it can normalize in its own text. -/
theorem browser_ofText_isOk_iff :
    (BrowserAddress.ofText encode (first :: rest)).isOk = true ↔
      ∃ encodedHost,
        idnaNormalizeHost encode (partsOf false (first :: rest)).host
          (behindOf false (first :: rest)) = .ok encodedHost ∧
        Suits true (hosted (partsOf false (first :: rest)) encodedHost) := by
  have split := partsOf_split first rest false
  simp only [BrowserAddress.ofText, isEmpty_cons, Bool.false_eq_true, if_false]
  cases normalized : idnaNormalizeHost encode (partsOf false (first :: rest)).host
      (behindOf false (first :: rest)) with
  | error message =>
    constructor
    · intro assigned
      obtain ⟨checked, given, -⟩ := (assign_isOk_iff first rest).mp assigned
      obtain ⟨encodedHost, own, -⟩ := bind_ok_iff.mp given
      rw [idnaHostNormalize_ok_iff] at own
      cases normalized.symm.trans own
    · rintro ⟨encodedHost, own, -⟩
      cases own
  | ok encodedHost =>
    have nonempty := host_ne_nil_of_normalized encode normalized
    have checked : BrowserAddress.additionalChecks encode (withScheme false
        (URLAddress.urlWithoutCheck (first :: rest))) =
        .ok ({ withScheme false (URLAddress.urlWithoutCheck (first :: rest)) with
          parts := hosted (partsOf false (first :: rest)) encodedHost }, true) := by
      refine bind_ok_iff.mpr ⟨encodedHost, ?_, rfl⟩
      exact (idnaHostNormalize_ok_iff encode).mpr normalized
    have flagged : (hosted (partsOf false (first :: rest)) encodedHost).toUrlParts.Flagged :=
      { split.flagged with host := fun _ => split.flagged.host nonempty }
    rw [unstrict_isOk_iff first rest checked flagged split.path (fun _ => split.rooted nonempty)]
    simp [hosted]

end Browser

/-! ## Where they agree -/

/-- Where a checker and a constructor without strictness agree. Of the parts that both
accept, the port must fit and the userinfo must be mended; a scheme without a name is
refused by the checker, so the constructor must refuse it too. -/
def Agrees (rebuilt : Bool) (parts : ExtendedUrlParts) : Prop :=
  Served false parts.toUrlParts ∧ PartsValid (bare parts) →
    (¬ Nameless parts.toUrlParts → Mends parts.userinfo ∧ PortFits parts.port) ∧
    (Nameless parts.toUrlParts →
      ¬ (rebuilt = true ∧ Mends parts.userinfo ∧ PortFits parts.port))

/-- Both want what is basic; the checker refuses what has no name, and the constructor what
is neither rebuilt nor has a name, what is not mended and what does not fit. -/
theorem agree_iff {rebuilt : Bool} {parts : ExtendedUrlParts} :
    (Passes parts ↔ Suits rebuilt parts) ↔ Agrees rebuilt parts := by
  unfold Agrees
  tauto

/-- A checker accepts exactly the texts an address can be made from if and only if the
condition holds. Where a browser's host is only complete with the memory beyond the text, which
the constructor has not, the checker must not accept it. -/
theorem checkers_agree_iff (encode : List Char → List Nat → Except String (List Char))
    (first : Char) (rest beyond : List Char) :
    ((httpChecker (first :: rest) true).isOk = (ofText (first :: rest) true).isOk ↔
      (Served true (partsOf true (first :: rest)).toUrlParts ∧
        PartsValid (partsOf true (first :: rest)).toUrlParts →
          PortFits (partsOf true (first :: rest)).port)) ∧
    ((httpChecker (first :: rest) false).isOk = (ofText (first :: rest) false).isOk ↔
      Agrees (fixParts (partsOf false (first :: rest)).toUrlParts).2
        (partsOf false (first :: rest))) ∧
    ((browserChecker encode (first :: rest) beyond).isOk =
        (BrowserAddress.ofText encode (first :: rest)).isOk ↔
      ∀ encodedHost,
        idnaNormalizeHost encode (partsOf false (first :: rest)).host
          (behindOf false (first :: rest) ++ reachOf false (first :: rest) beyond) =
            .ok encodedHost →
          if decodeHost (partsOf false (first :: rest)).host (behindOf false (first :: rest)) ≠ none
          then Agrees true (hosted (partsOf false (first :: rest)) encodedHost)
          else ¬ Passes (hosted (partsOf false (first :: rest)) encodedHost)) := by
  refine ⟨?_, ?_, ?_⟩
  · rw [Bool.eq_iff_iff, isOk_unit_iff, httpChecker, checkHttp_ok_iff, ofText_strict]
    simp [clearParts]
  · rw [Bool.eq_iff_iff, httpChecker_unstrict, ofText_unstrict]
    exact agree_iff
  · rw [Bool.eq_iff_iff, browserChecker_isOk_iff, browser_ofText_isOk_iff]
    by_cases complete : decodeHost (partsOf false (first :: rest)).host
        (behindOf false (first :: rest)) ≠ none
    · rw [idnaNormalizeHost_append encode complete]
      simp only [if_pos complete]
      cases idnaNormalizeHost encode (partsOf false (first :: rest)).host
          (behindOf false (first :: rest)) with
      | error message => simp
      | ok encodedHost =>
        simp only [Except.ok.injEq, exists_eq_left', forall_eq']
        exact agree_iff
    · have refused : ¬ ∃ encodedHost,
          idnaNormalizeHost encode (partsOf false (first :: rest)).host
            (behindOf false (first :: rest)) = .ok encodedHost ∧
          Suits true (hosted (partsOf false (first :: rest)) encodedHost) :=
        fun ⟨_, normalized, _⟩ => complete (decoded_of_normalized encode normalized)
      simp only [if_neg complete, refused, iff_false, not_exists, not_and]

end Text

/-- `http://h:65536/` -/
def largePort : List Char :=
  ['h', 't', 't', 'p', ':', '/', '/', 'h', ':', '6', '5', '5', '3', '6', '/']

/-- A userinfo with a brace and a bar in front of the host. -/
def bracedUserinfo : List Char :=
  ['h', 't', 't', 'p', ':', '/', '/', '{', '|', '@', 'h', '/']

/-- `://h/` and a space. -/
def namelessScheme : List Char := [':', '/', '/', 'h', '/', ' ']

/-- `http://h` and the first octet of two. -/
def cutOffHost : List Char := ['h', 't', 't', 'p', ':', '/', '/', 'h', Char.ofNat 0xC3]

/-- A port above the range and a spoiled userinfo are accepted by the checkers only, a
scheme without a name by the constructors only. A host that is cut off is accepted by the
checker if its last octet stands behind the text. -/
theorem checkers_disagree :
    ((httpChecker largePort true).isOk = true ∧
      (ofText largePort true).isOk = false) ∧
    ((httpChecker bracedUserinfo false).isOk = true ∧
      (ofText bracedUserinfo false).isOk = false) ∧
    ((httpChecker namelessScheme false).isOk = false ∧
      (ofText namelessScheme false).isOk = true) ∧
    ((browserChecker (fun host _ => .ok host) namelessScheme []).isOk = false ∧
      (BrowserAddress.ofText (fun host _ => .ok host) namelessScheme).isOk = true) ∧
    ((browserChecker (fun _ _ => .ok ['h']) cutOffHost [Char.ofNat 0xA9]).isOk = true ∧
      (BrowserAddress.ofText (fun _ _ => .ok ['h']) cutOffHost).isOk = false) := by
  decide

end UnixCommons.HTTP
