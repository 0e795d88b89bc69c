import UnixCommons.HTTP.UrlSplit
import UnixCommons.Library.Outcome

/-!
# What the checks accept

A text is validly encoded if it is made of characters of a category and of codes. A part
that is fixed is validly encoded again, except for what the loop leaves in it by looking at
the query's category. With that it is said exactly which texts are accepted by a checker and
by the constructor of an address, and where the two differ.
-/

namespace UnixCommons.HTTP

open Outcome List

/-! ## Encoded texts -/

variable {front str path : List Char} (part : List Char)

section Encoded

variable {ch : Char}

variable {category : Char → Bool}

variable {text : List Char}

theorem isValidEncoded_iff :
    isValidEncoded text category = true ↔ findInvalid category text = [] := isEmpty_iff

/-- A character of the category is passed over. -/
theorem findInvalid_owned (owned : category ch = true) (rest : List Char) :
    findInvalid category (ch :: rest) = findInvalid category rest := by
  rw [findInvalid.eq_def]
  simp [owned]

/-- An escape is passed over. -/
theorem findInvalid_code (foreign : ¬ category '%' = true) {high low : Char}
    (hex : (Category.hexNumber high && Category.hexNumber low) = true) (behind : List Char) :
    findInvalid category ('%' :: high :: low :: behind) = findInvalid category behind := by
  simp only [findInvalid, foreign, hex, if_true, Bool.false_eq_true, if_false]

/-- A valid text in front is passed over. -/
theorem findInvalid_append (valid : isValidEncoded front category = true) (text : List Char) :
    findInvalid category (front ++ text) = findInvalid category text := by
  rw [isValidEncoded_iff] at valid
  fun_induction findInvalid category front with
  | case1 => rfl
  | case2 ch rest owned ih =>
    rw [cons_append, findInvalid_owned owned, ih valid]
  | case3 high low behind hex foreign ih =>
    rw [cons_append, cons_append, cons_append, findInvalid_code foreign hex,
      ih valid]
  | case4 | case5 | case6 => cases valid

/-- What is in front of the first character that is not valid. -/
theorem findInvalid_front (text : List Char) :
    ∃ front, text = front ++ findInvalid category text ∧
      isValidEncoded front category = true := by
  fun_induction findInvalid category text with
  | case1 => exact ⟨[], rfl, rfl⟩
  | case2 ch rest owned ih =>
    obtain ⟨front, split, valid⟩ := ih
    refine ⟨ch :: front, ?_, ?_⟩
    · rw [cons_append, ← split]
    · rw [isValidEncoded, findInvalid_owned owned]
      exact valid
  | case3 high low behind hex foreign ih =>
    obtain ⟨front, split, valid⟩ := ih
    refine ⟨'%' :: high :: low :: front, ?_, ?_⟩
    · simp only [cons_append, ← split]
    · rw [isValidEncoded, findInvalid_code foreign hex]
      exact valid
  | case4 | case5 | case6 => exact ⟨[], rfl, rfl⟩

/-- The character that is found is not in the category. -/
theorem findInvalid_head {rest : List Char} (found : findInvalid category text = ch :: rest) :
    category ch = false := by
  fun_induction findInvalid category text with
  | case1 => cases found
  | case2 _ _ _ ih => exact ih found
  | case3 _ _ _ _ _ ih => exact ih found
  | case4 _ _ _ _ foreign =>
    cases found
    simpa using foreign
  | case5 _ _ foreign =>
    cases found
    simpa using foreign
  | case6 _ _ foreign =>
    cases found
    simpa using foreign

/-- The check of a text in two parts. -/
theorem isValidEncoded_append (frontValid : isValidEncoded front category = true)
    (valid : isValidEncoded text category = true) :
    isValidEncoded (front ++ text) category = true := by
  rw [isValidEncoded_iff, findInvalid_append frontValid]
  exact isValidEncoded_iff.mp valid

/-- The same text under another category. -/
theorem isValidEncoded_mono {other : Char → Bool} (percent : other '%' = false)
    (owned : ∀ ch ∈ text, category ch = true → other ch = true)
    (valid : isValidEncoded text category = true) : isValidEncoded text other = true := by
  rw [isValidEncoded_iff] at valid ⊢
  fun_induction findInvalid category text with
  | case1 => rfl
  | case2 ch rest inside ih =>
    have here := owned ch mem_cons_self inside
    rw [findInvalid_owned here]
    exact ih (fun item behind => owned item (mem_cons_of_mem _ behind)) valid
  | case3 high low behind hex foreign ih =>
    rw [findInvalid_code (by simp [percent]) hex]
    apply ih _ valid
    intro item inside
    exact owned item (by simp [inside])
  | case4 | case5 | case6 => cases valid

/-- The characters of a valid text. -/
theorem owned_of_valid (valid : isValidEncoded text category = true)
    (inside : ch ∈ text) : category ch = true ∨ ch = '%' ∨ Category.hexNumber ch = true := by
  rw [isValidEncoded_iff] at valid
  fun_induction findInvalid category text with
  | case1 => cases inside
  | case2 first rest owned ih =>
    rcases mem_cons.mp inside with rfl | behind
    · exact .inl owned
    · exact ih valid behind
  | case3 high low rest hex foreign ih =>
    rw [Bool.and_eq_true] at hex
    rcases mem_cons.mp inside with rfl | behind
    · exact .inr (.inl rfl)
    rcases mem_cons.mp behind with rfl | behind
    · exact .inr (.inr hex.1)
    rcases mem_cons.mp behind with rfl | behind
    · exact .inr (.inr hex.2)
    · exact ih valid behind
  | case4 | case5 | case6 => cases valid

/-- A character that is no part of a code and not in the category is not in a valid text. -/
theorem apart_of_valid (valid : isValidEncoded text category = true)
    (foreign : category ch = false) (noCode : (ch == '%' || Category.hexNumber ch) = false) :
    ch ∉ text := by
  intro inside
  simp only [Bool.or_eq_false_iff, beq_eq_false_iff_ne] at noCode
  rcases owned_of_valid valid inside with owned | percent | hex
  · simp [owned] at foreign
  · exact noCode.1 percent
  · simp [hex] at noCode

/-! ## Fixed parts -/

theorem hexNumber_hexDigits : ∀ value < 16,
    Category.hexNumber (Text.hexDigits.getD value '0') = true := by decide

/-- What is written for a character that is replaced is valid. -/
theorem escape_valid (percent : category '%' = false) :
    isValidEncoded (escape ch) category = true := by
  have high := hexNumber_hexDigits (ch.toNat / 16 % 16) (Nat.mod_lt _ (by decide))
  have low := hexNumber_hexDigits (ch.toNat % 16) (Nat.mod_lt _ (by decide))
  rw [isValidEncoded_iff, escape, findInvalid_code (by simp [percent]) (by rw [high, low]; rfl)]
  rfl

/-- The characters that are passed over are those in front of the next invalid one. -/
theorem take_front {back : List Char} (split : text = front ++ back) :
    text.take (text.length - back.length) = front := by
  rw [split, length_append, Nat.add_sub_cancel, take_left]

/-- One round of the loop. -/
theorem fixLoop_cons {fuel : Nat} (old : List Char) :
    ∃ front, old = front ++ findInvalid Category.query old ∧
      isValidEncoded front Category.query = true ∧
      fixLoop (fuel + 1) (ch :: old) =
        escape ch ++ front ++ fixLoop fuel (findInvalid Category.query old) := by
  obtain ⟨front, split, valid⟩ := findInvalid_front old
  refine ⟨front, split, valid, ?_⟩
  rw [fixLoop, take_front split]

/-- The loop leaves a valid text, if what the query's category lets pass is in the part's
own category. -/
theorem fixLoop_valid (percent : category '%' = false) {fuel : Nat}
    (owned : ∀ ch ∈ str.tail, Category.query ch = true → category ch = true) :
    isValidEncoded (fixLoop fuel str) category = true := by
  induction fuel generalizing str with
  | zero => rfl
  | succ fuel ih =>
    cases str with
    | nil => rfl
    | cons ch old =>
      obtain ⟨front, split, valid, round⟩ := fixLoop_cons old
      rw [round]
      have inside : ∀ item ∈ front ++ findInvalid Category.query old,
          Category.query item = true → category item = true := by
        rw [← split]
        exact owned
      apply isValidEncoded_append
      · apply isValidEncoded_append (escape_valid percent)
        apply isValidEncoded_mono percent _ valid
        intro item before
        exact inside item (mem_append_left _ before)
      · apply ih
        intro item behind
        exact inside item (mem_append_right _ (mem_of_mem_tail behind))

/-- What the query's category lets pass stays in the text. -/
theorem mem_fixLoop {fuel : Nat} (enough : str.length ≤ fuel) (inside : ch ∈ str.tail)
    (passes : Category.query ch = true) : ch ∈ fixLoop fuel str := by
  induction fuel generalizing str with
  | zero =>
    rw [eq_nil_of_length_eq_zero (Nat.le_zero.mp enough)] at inside
    cases inside
  | succ fuel ih =>
    cases str with
    | nil => cases inside
    | cons first old =>
      obtain ⟨front, split, valid, round⟩ := fixLoop_cons old
      rw [round]
      rw [split] at inside
      rcases mem_append.mp inside with before | behind
      · simp [before]
      · apply mem_append_right
        apply ih
        · have size := congrArg List.length split
          simp only [length_append, length_cons] at size enough
          omega
        · cases next : findInvalid Category.query old with
          | nil => simp [next] at behind
          | cons head rest =>
            rw [next] at behind
            rcases mem_cons.mp behind with rfl | later
            · rw [findInvalid_head next] at passes
              cases passes
            · exact later

/-- A part after it was fixed. -/
def fixed (part : List Char) (checker : Char → Bool) : List Char :=
  (httpFixPart part checker).getD part

variable (checker : Char → Bool)

/-- A part is fixed exactly if it is not valid. -/
theorem httpFixPart_isSome :
    (httpFixPart part checker).isSome = !isValidEncoded part checker := by
  unfold httpFixPart isValidEncoded
  dsimp only
  split <;> simp_all

/-- A part that is valid stays as it is; in any other the text behind the first invalid
character goes through the loop. -/
theorem fixed_eq :
    ∃ front, part = front ++ findInvalid checker part ∧ isValidEncoded front checker = true ∧
      fixed part checker =
        front ++ fixLoop (findInvalid checker part).length (findInvalid checker part) := by
  obtain ⟨front, split, valid⟩ := findInvalid_front part
  refine ⟨front, split, valid, ?_⟩
  unfold fixed httpFixPart
  dsimp only
  split
  case isTrue none =>
    rw [List.isEmpty_iff] at none
    rw [none] at split ⊢
    simpa [fixLoop] using split
  case isFalse some => rw [Option.getD_some, take_front split]

/-- A fixed part is valid exactly if behind the first character that was replaced nothing
of the query's category is foreign to its own. -/
theorem fixed_valid_iff (percent : category '%' = false)
    (codes : ∀ ch, Category.hexNumber ch = true → category ch = true) (part : List Char) :
    isValidEncoded (fixed part category) category = true ↔
      ∀ ch ∈ (findInvalid category part).tail, Category.query ch = true → category ch = true := by
  obtain ⟨front, split, valid, eq⟩ := fixed_eq part category
  rw [eq]
  constructor
  · intro whole ch inside passes
    have kept := mem_fixLoop (Nat.le_refl _) inside passes
    rcases owned_of_valid whole (mem_append_right _ kept) with owned | rfl | hex
    · exact owned
    · exact absurd passes (by decide)
    · exact codes ch hex
  · intro owned
    exact isValidEncoded_append valid (fixLoop_valid percent owned)

/-- An empty part stays empty. -/
theorem fixed_nil : fixed [] checker = [] := by
  simp [fixed, httpFixPart, findInvalid]

/-- Fixing leaves no part empty. -/
theorem fixed_ne_nil {part : List Char} (nonempty : part ≠ []) {checker : Char → Bool} :
    fixed part checker ≠ [] := by
  obtain ⟨front, split, _, eq⟩ := fixed_eq part checker
  rw [eq]
  cases found : findInvalid checker part with
  | nil =>
    rw [found, append_nil] at split
    simp [← split, nonempty]
  | cons ch old => simp [fixLoop, escape]

theorem fixed_isEmpty : (fixed part checker).isEmpty = part.isEmpty := by
  cases part with
  | nil => rfl
  | cons ch rest =>
    rw [isEmpty_cons, isEmpty_eq_false_iff]
    exact fixed_ne_nil (cons_ne_nil ch rest)

/-- The character a valid part begins with stays in its place. -/
theorem fixed_cons {checker : Char → Bool} (owned : checker ch = true)
    {rest : List Char} : ∃ behind, fixed (ch :: rest) checker = ch :: behind := by
  obtain ⟨front, split, _, eq⟩ := fixed_eq (ch :: rest) checker
  rw [eq]
  cases front with
  | nil =>
    have foreign := findInvalid_head split.symm
    rw [owned] at foreign
    cases foreign
  | cons first others =>
    injection split with same
    rw [same]
    exact ⟨_, rfl⟩

end Encoded

/-! ## The checks of the parts -/

theorem ensure_ok_iff {valid : Bool} {type : String} {url : List Char} :
    ensure valid type url = .ok () ↔ valid = true := by
  cases valid <;> simp [ensure, makeInvalid]

/-- A host as the checks want it, whatever text it stands in. -/
def hostValid (host : List Char) : Bool :=
  decide (host.length ≤ maxHostnameSize) && isValidChars host Category.host &&
    (labels (if host.getLast? = some '.' then host.dropLast else host)).all fun label =>
      !label.isEmpty && decide (label.length ≤ maxHostnameLabelSize) && labelValid label

/-- The check of the labels, as one condition. -/
theorem checkLabels_ok_iff (url : List Char) (all : List (List Char)) :
    checkLabels url all = .ok () ↔ (all.all fun label => !label.isEmpty &&
      decide (label.length ≤ maxHostnameLabelSize) && labelValid label) = true := by
  induction all with
  | nil => simp [checkLabels]
  | cons label rest ih =>
    simp only [checkLabels, check_bind_ok_iff, ensure_ok_iff, all_cons, Bool.and_eq_true]
    tauto

variable {parts : UrlParts}

/-- The check of the host, as one condition. -/
theorem checkHost_ok_iff {url : List Char} (nonempty : parts.host ≠ []) :
    checkHost url parts = .ok () ↔ hostValid parts.host = true := by
  simp only [checkHost, List.isEmpty_iff, nonempty, if_false, check_bind_ok_iff, ensure_ok_iff,
    checkLabels_ok_iff, hostValid, Bool.and_eq_true]

/-- What the checks say about parts with a host. -/
structure PartsValid (parts : UrlParts) : Prop where
  scheme : schemeValid parts = true
  userinfo : isValidEncoded parts.userinfo Category.userInfo = true
  host : hostValid parts.host = true
  port : Numeral.Digits parts.port
  rooted : Rooted parts.path
  path : isValidEncoded parts.path Category.path = true
  query : isValidEncoded parts.query Category.query = true
  fragment : isValidEncoded parts.fragment Category.fragment = true

/-- An empty part is valid anyway. -/
theorem isEmpty_or_valid (category : Char → Bool) :
    (part.isEmpty || isValidEncoded part category) = isValidEncoded part category := by
  cases part <;> rfl

/-- The check of the path of an address with a host. -/
theorem isEmpty_or_rooted (nonempty : parts.host ≠ []) :
    (parts.path.isEmpty || (pathBegins parts && isValidEncoded parts.path Category.path)) = true ↔
      Rooted parts.path ∧ isValidEncoded parts.path Category.path = true := by
  cases path : parts.path with
  | nil => simp [Rooted, isValidEncoded, findInvalid]
  | cons first rest =>
    have begins : pathBegins parts = true ↔ Rooted (first :: rest) := by
      simp [pathBegins, nonempty, path, Rooted, eq_comm (a := '/')]
    simp only [isEmpty_cons, Bool.false_or, Bool.and_eq_true, begins]

/-- The check of the port. -/
theorem isEmpty_or_digits (port : List Char) :
    (port.isEmpty || isValidChars port Char.isDigit) = true ↔ Numeral.Digits port := by
  cases port with
  | nil => simp [Numeral.Digits]
  | cons first rest => simp [Numeral.Digits, isValidChars]

/-- The parts pass the checker exactly if they are valid. -/
theorem partsChecker_ok_iff {url : List Char} (nonempty : parts.host ≠ []) :
    partsChecker url parts = .ok () ↔ PartsValid parts := by
  simp only [partsChecker, check_bind_ok_iff, ensure_ok_iff, isEmpty_or_valid,
    isEmpty_or_rooted nonempty, isEmpty_or_digits, checkHost_ok_iff nonempty]
  constructor
  · rintro ⟨scheme, userinfo, host, port, ⟨rooted, path⟩, query, fragment⟩
    exact ⟨scheme, userinfo, host, port, rooted, path, query, fragment⟩
  · intro valid
    exact ⟨valid.scheme, valid.userinfo, valid.host, valid.port, ⟨valid.rooted, valid.path⟩,
      valid.query, valid.fragment⟩

/-! ## Mended addresses -/

/-- The loop that mends a userinfo leaves nothing in it that does not belong there. -/
def Mends (userinfo : List Char) : Prop :=
  ∀ ch ∈ (findInvalid Category.userInfo userinfo).tail,
    Category.query ch = true → Category.userInfo ch = true

/-- A colon in front of everything: a scheme without a name. -/
def Nameless (parts : UrlParts) : Prop := parts.hasScheme = true ∧ parts.scheme = []

/-- The parts with the scheme's flag as it would be in a text of their own. -/
def named (parts : UrlParts) : UrlParts := { parts with hasScheme := !parts.scheme.isEmpty }

/-- The name of the scheme is one condition among the others. -/
theorem partsValid_iff_named :
    PartsValid parts ↔ PartsValid (named parts) ∧ ¬ Nameless parts := by
  have scheme : schemeValid parts = true ↔
      schemeValid (named parts) = true ∧ ¬ Nameless parts := by
    cases text : parts.scheme <;> simp [schemeValid, named, Nameless, text]
  constructor
  · intro valid
    obtain ⟨own, name⟩ := scheme.mp valid.scheme
    exact ⟨{ valid with scheme := own }, name⟩
  · rintro ⟨valid, name⟩
    exact { valid with scheme := scheme.mpr ⟨valid.scheme, name⟩ }

/-- The digits of an escape are letters or digits. -/
theorem alphanum_of_hex (hex : Category.hexNumber ch = true) :
    ch.isAlphanum = true := by
  simp only [Category.hexNumber, Bool.or_eq_true, contains_eq_mem, decide_eq_true_eq] at hex
  rcases hex with digit | letter
  · simp [Char.isAlphanum, digit]
  · have letters : (['A', 'B', 'C', 'D', 'E', 'F', 'a', 'b', 'c', 'd', 'e', 'f'].all
        Char.isAlphanum) = true := by decide
    exact all_eq_true.mp letters ch letter

theorem pchar_of_hex {ch : Char} (hex : Category.hexNumber ch = true) :
    Category.pchar ch = true := by
  simp [Category.pchar, Category.unreserved, alphanum_of_hex hex]

/-- A fixed userinfo is valid exactly if the loop mends it. -/
theorem fixed_userinfo {userinfo : List Char} :
    isValidEncoded (fixed userinfo Category.userInfo) Category.userInfo = true ↔ Mends userinfo :=
  fixed_valid_iff (by decide) (fun ch hex => by
    simp [Category.userInfo, Category.unreserved, alphanum_of_hex hex]) userinfo

/-- A fixed path is valid. -/
theorem fixed_path (apart : '?' ∉ path) :
    isValidEncoded (fixed path Category.path) Category.path = true := by
  rw [fixed_valid_iff (by decide) (fun ch hex => by simp [Category.path, pchar_of_hex hex])]
  intro ch inside passes
  obtain ⟨front, split, _⟩ := findInvalid_front path
  have there : ch ∈ path := by
    rw [split]
    exact mem_append_right _ (mem_of_mem_tail inside)
  have other : ch ≠ '?' := fun same => apart (same ▸ there)
  simpa [Category.query, Category.path, other] using passes

/-- A fixed query is valid. -/
theorem fixed_query {query : List Char} :
    isValidEncoded (fixed query Category.query) Category.query = true := by
  rw [fixed_valid_iff (by decide) (fun ch hex => by simp [Category.query, pchar_of_hex hex])]
  intro ch _ passes
  exact passes

/-- The fragment has the characters of the query. -/
theorem fixed_fragment {fragment : List Char} :
    isValidEncoded (fixed fragment Category.fragment) Category.fragment = true :=
  fixed_query

/-- Fixing keeps the slash a path begins with. -/
theorem fixed_rooted (rooted : Rooted path) : Rooted (fixed path Category.path) := by
  rcases rooted with rfl | ⟨rest, rfl⟩
  · exact .inl rfl
  · exact .inr (fixed_cons (by decide))

/-- What fixing does to each part, and when it tells of a change. -/
theorem fixParts_eq (parts : UrlParts) :
    fixParts parts =
      ({ parts with
        userinfo := fixed parts.userinfo Category.userInfo
        path := fixed parts.path Category.path
        query := fixed parts.query Category.query
        fragment := fixed parts.fragment Category.fragment },
      !(isValidEncoded parts.userinfo Category.userInfo && isValidEncoded parts.path Category.path &&
        isValidEncoded parts.query Category.query &&
        isValidEncoded parts.fragment Category.fragment)) := by
  simp only [fixParts, httpFixPart_isSome, Bool.not_and]
  rfl

/-- Fixing keeps the flags in step with the parts. -/
theorem fixParts_flagged (flagged : parts.Flagged) : (fixParts parts).1.Flagged := by
  rw [fixParts_eq]
  exact {
    __ := flagged
    userinfo := by
      simp only [fixed_isEmpty]
      exact flagged.userinfo
    query := by
      intro none
      simp only [flagged.query none, fixed_nil]
    fragment := by
      intro none
      simp only [flagged.fragment none, fixed_nil] }

/-- What both a checker and an address look at without strictness. -/
def bare (parts : ExtendedUrlParts) : UrlParts := named (clearParts false parts).toUrlParts

/-- What is cleared is valid. -/
theorem bare_valid_iff (parts : ExtendedUrlParts) :
    PartsValid (bare parts) ↔ schemeValid (named parts.toUrlParts) = true ∧
      hostValid parts.host = true ∧ Numeral.Digits parts.port := by
  constructor
  · intro valid
    exact ⟨valid.scheme, valid.host, valid.port⟩
  · rintro ⟨scheme, host, port⟩
    exact ⟨scheme, rfl, host, port, .inl rfl, rfl, rfl, rfl⟩

section Mend

variable {address : URLAddress} (flagged : address.parts.toUrlParts.Flagged)
  (apart : '?' ∉ address.parts.path) (rooted : Rooted address.parts.path)

include flagged in
/-- The parts of a mended address. -/
theorem mend_parts (rebuild : Bool) :
    (HTTPAddress.mend false rebuild address).parts.toUrlParts =
      if (rebuild || (fixParts address.parts.toUrlParts).2) = true
      then (fixParts address.parts.toUrlParts).1.reflagged else address.parts.toUrlParts := by
  unfold HTTPAddress.mend
  simp only [Bool.false_eq_true, if_false]
  split
  · rw [UrlParts.assignUrlParts_parts (fixParts_flagged flagged)]
  · rfl

include flagged apart rooted in
/-- A mended address passes the checks, apart from a userinfo that the loop spoils; building
it again loses the flag of a scheme without a name. -/
theorem mend_valid_iff {rebuild : Bool} :
    PartsValid (HTTPAddress.mend false rebuild address).parts.toUrlParts ↔
      PartsValid (bare address.parts) ∧
      ((rebuild || (fixParts address.parts.toUrlParts).2) = true ∨
        ¬ Nameless address.parts.toUrlParts) ∧
      Mends address.parts.userinfo := by
  rw [mend_parts flagged, bare_valid_iff]
  split
  case isTrue built =>
    simp only [built, true_or, true_and]
    rw [fixParts_eq]
    constructor
    · intro valid
      exact ⟨⟨valid.scheme, valid.host, valid.port⟩, fixed_userinfo.mp valid.userinfo⟩
    · rintro ⟨⟨scheme, host, port⟩, mends⟩
      exact ⟨scheme, fixed_userinfo.mpr mends, host, port, fixed_rooted rooted,
        fixed_path apart, fixed_query, fixed_fragment⟩
  case isFalse kept =>
    have unchanged := kept
    simp only [fixParts_eq, Bool.or_eq_true, Bool.not_eq_true', not_or, Bool.not_eq_false,
      Bool.and_eq_true] at unchanged
    obtain ⟨-, ⟨⟨userinfo, path⟩, query⟩, fragment⟩ := unchanged
    have mends : Mends address.parts.userinfo := by
      rw [isValidEncoded_iff] at userinfo
      simp [Mends, userinfo]
    rw [partsValid_iff_named]
    constructor
    · rintro ⟨valid, name⟩
      exact ⟨⟨valid.scheme, valid.host, valid.port⟩, .inr name, mends⟩
    · rintro ⟨⟨scheme, host, port⟩, name, -⟩
      exact ⟨⟨scheme, userinfo, host, port, rooted, path, query, fragment⟩,
        name.resolve_left kept⟩

end Mend

end UnixCommons.HTTP
