import UnixCommons.HTTP.UrlCopies

/-!
# What fixing a part means

A part is fixed so that it passes the check and still stands for the same bytes. It always
stands for the same bytes. It passes the check unless the loop leaves in it what only the
query may have, which of the four parts happens to the userinfo alone.
-/

namespace UnixCommons.HTTP

open List

/-! ## Decoding -/

def hexValue (digit : Char) : Nat := Text.hexDigits.findIdx (· == digit.toUpper)

/-- The bytes a text stands for: complete codes are decoded, any other percent sign stands
for itself. -/
def percentDecode : List Char → List UInt8
  | [] => []
  | '%' :: high :: low :: behind =>
    if Category.hexNumber high && Category.hexNumber low then
      .ofNat (16 * hexValue high + hexValue low) :: percentDecode behind
    else .ofNat '%'.toNat :: percentDecode (high :: low :: behind)
  | ch :: rest => .ofNat ch.toNat :: percentDecode rest

variable {category : Char → Bool} {ch : Char} {front text str part rest : List Char}

theorem percentDecode_cons (plain : ch ≠ '%') (rest : List Char) :
    percentDecode (ch :: rest) = .ofNat ch.toNat :: percentDecode rest := by
  rw [percentDecode]
  intro high low behind percent
  exact absurd percent plain

/-- A text is decoded behind a valid one as it is alone. -/
theorem percentDecode_append (percent : category '%' = false)
    (valid : isValidEncoded front category = true) (text : List Char) :
    percentDecode (front ++ text) = percentDecode front ++ percentDecode text := by
  rw [isValidEncoded_iff] at valid
  fun_induction findInvalid category front with
  | case1 => rfl
  | case2 ch rest owned ih =>
    have plain : ch ≠ '%' := by
      rintro rfl
      simp [owned] at percent
    rw [cons_append, percentDecode_cons plain, percentDecode_cons plain, ih valid, cons_append]
  | case3 high low behind hex foreign ih =>
    simp only [cons_append, percentDecode, hex, if_true, ih valid]
  | case4 | case5 | case6 => cases valid

/-- The character that is found stands for itself. -/
theorem percentDecode_found (found : findInvalid category text = ch :: rest) :
    percentDecode (ch :: rest) = .ofNat ch.toNat :: percentDecode rest := by
  fun_induction findInvalid category text with
  | case1 => cases found
  | case2 _ _ _ ih => exact ih found
  | case3 _ _ _ _ _ ih => exact ih found
  | case4 high low behind broken =>
    cases found
    simp only [percentDecode, broken, Bool.false_eq_true, if_false]
  | case5 _ few =>
    cases found
    rw [percentDecode]
    intro high low behind _
    exact few high low behind
  | case6 _ _ _ plain =>
    cases found
    exact percentDecode_cons plain rest

theorem hexValue_hexDigits : ∀ value < 16,
    hexValue (Text.hexDigits.getD value '0') = value := by decide

/-- An escaped character is decoded to itself. -/
theorem percentDecode_escape (ch : Char) (text : List Char) :
    percentDecode (escape ch ++ text) = .ofNat ch.toNat :: percentDecode text := by
  have high : ch.toNat / 16 % 16 < 16 := Nat.mod_lt _ (by decide)
  have low : ch.toNat % 16 < 16 := Nat.mod_lt _ (by decide)
  have whole : UInt8.ofNat (16 * (ch.toNat / 16 % 16) + ch.toNat % 16) = .ofNat ch.toNat := by
    apply UInt8.toNat_inj.mp
    rw [UInt8.toNat_ofNat', UInt8.toNat_ofNat']
    omega
  simp only [escape, cons_append, nil_append, percentDecode, hexNumber_hexDigits _ high,
    hexNumber_hexDigits _ low, Bool.and_self, if_true, hexValue_hexDigits _ high,
    hexValue_hexDigits _ low, whole]

/-- The loop keeps the bytes of a text whose first character was found. -/
theorem fixLoop_decoded {fuel : Nat} (enough : str.length ≤ fuel)
    (found : findInvalid category text = str) :
    percentDecode (fixLoop fuel str) = percentDecode str := by
  induction fuel generalizing str text category with
  | zero =>
    rw [eq_nil_of_length_eq_zero (Nat.le_zero.mp enough)]
    rfl
  | succ fuel ih =>
    cases str with
    | nil => rfl
    | cons ch old =>
      obtain ⟨front, split, valid, round⟩ := fixLoop_cons old
      have fewer : (findInvalid Category.query old).length ≤ fuel := by
        have size := congrArg List.length split
        simp only [length_append, length_cons] at size enough
        omega
      calc percentDecode (fixLoop (fuel + 1) (ch :: old))
        _ = .ofNat ch.toNat ::
            percentDecode (front ++ fixLoop fuel (findInvalid Category.query old)) := by
          rw [round, append_assoc, percentDecode_escape]
        _ = .ofNat ch.toNat :: percentDecode (front ++ findInvalid Category.query old) := by
          rw [percentDecode_append (by decide) valid, percentDecode_append (by decide) valid,
            ih fewer rfl]
        _ = percentDecode (ch :: old) := by rw [← split, percentDecode_found found]

/-- A fixed part stands for the bytes it stood for. -/
theorem fixed_decoded (percent : category '%' = false) :
    percentDecode (fixed part category) = percentDecode part := by
  obtain ⟨front, split, valid, eq⟩ := fixed_eq part category
  rw [eq, percentDecode_append percent valid, fixLoop_decoded (Nat.le_refl _) rfl,
    ← percentDecode_append percent valid, ← split]

/-! ## The parts of an address -/

/-- A valid part is not changed. -/
theorem fixed_of_valid (valid : isValidEncoded part category = true) :
    fixed part category = part := by
  simp [fixed, httpFixPart, isValidEncoded_iff.mp valid]

/-- An address that is mended has the fixed parts, whether it is built again or not. -/
theorem mend_fixed {address : URLAddress} (flagged : address.parts.toUrlParts.Flagged) :
    (HTTPAddress.mend false false address).parts.userinfo =
        fixed address.parts.userinfo Category.userInfo ∧
      (HTTPAddress.mend false false address).parts.path =
        fixed address.parts.path Category.path ∧
      (HTTPAddress.mend false false address).parts.query =
        fixed address.parts.query Category.query ∧
      (HTTPAddress.mend false false address).parts.fragment =
        fixed address.parts.fragment Category.fragment := by
  rw [mend_parts flagged]
  split
  · exact ⟨rfl, rfl, rfl, rfl⟩
  · rename_i kept
    simp only [fixParts_eq, Bool.false_or, Bool.not_eq_true', Bool.not_eq_false,
      Bool.and_eq_true] at kept
    obtain ⟨⟨⟨userinfo, path⟩, query⟩, fragment⟩ := kept
    exact ⟨(fixed_of_valid userinfo).symm, (fixed_of_valid path).symm,
      (fixed_of_valid query).symm, (fixed_of_valid fragment).symm⟩

/-- A part after it was fixed: it has only characters of the category and codes, and it stands
for the same bytes. -/
structure Fixed (category : Char → Bool) (original part : List Char) : Prop where
  allowed : isValidEncoded part category = true
  decoded : percentDecode part = percentDecode original

/-- Every part is fixed by its own category. -/
structure FixedParts (original parts : UrlParts) : Prop where
  userinfo : Fixed Category.userInfo original.userinfo parts.userinfo
  path : Fixed Category.path original.path parts.path
  query : Fixed Category.query original.query parts.query
  fragment : Fixed Category.fragment original.fragment parts.fragment

/-- The checks of an address without those of the characters of userinfo, path, query and
fragment. -/
def frameChecker (url : List Char) (parts : UrlParts) : Except String Unit := do
  ensure (schemeValid parts) "scheme in url" url
  checkHost url parts
  ensure (parts.port.isEmpty || isValidChars parts.port Char.isDigit) "port in url" url
  ensure (parts.path.isEmpty || pathBegins parts) "path in url" url

/-- The characters of fixed parts are no reason to refuse an address. -/
theorem FixedParts.checked {original parts : UrlParts} (fixed : FixedParts original parts)
    {url : List Char} : partsChecker url parts = frameChecker url parts := by
  have passes (type : String) : ensure true type url = .ok () := rfl
  have after (next : Unit → Except String Unit) : (Except.ok () >>= next) = next () := rfl
  have last (outcome : Except String Unit) : (outcome >>= fun _ => .ok ()) = outcome := by
    cases outcome <;> rfl
  simp only [partsChecker, frameChecker, fixed.userinfo.allowed, fixed.path.allowed,
    fixed.query.allowed, fixed.fragment.allowed, Bool.or_true, Bool.and_true, passes, after, last]

/-- The address of a text that `specific_checks_` finds without strictness. -/
def unfixed (url : List Char) : URLAddress :=
  HTTPAddress.withScheme false (URLAddress.urlWithoutCheck url)

/-- And the one it leaves. -/
def mended (url : List Char) : URLAddress := HTTPAddress.mend false false (unfixed url)

theorem unfixed_split (url : List Char) : Split (unfixed url).parts := by
  cases url with
  | nil => exact splitUrl_split (httpAddScheme [])
  | cons first rest => exact partsOf_split first rest false

/-- **Where an address without strictness is fixed.** Its four parts contain only what they
may, stand for the same bytes and are no reason to refuse the address, exactly if the loop
finds nothing in the userinfo that only a query may have. -/
theorem unstrict_fixed_iff (url : List Char) :
    (FixedParts (unfixed url).parts.toUrlParts (mended url).parts.toUrlParts ∧
      partsChecker (mended url).url (mended url).parts.toUrlParts =
        frameChecker (mended url).url (mended url).parts.toUrlParts) ↔
      Mends (unfixed url).parts.userinfo := by
  have split := unfixed_split url
  obtain ⟨userinfo, path, query, fragment⟩ := mend_fixed split.flagged
  rw [← fixed_userinfo]
  constructor
  · rintro ⟨fixed, -⟩
    exact userinfo ▸ fixed.userinfo.allowed
  · intro valid
    have fixed : FixedParts (unfixed url).parts.toUrlParts (mended url).parts.toUrlParts := {
      userinfo := userinfo ▸ ⟨valid, fixed_decoded (by decide)⟩
      path := path ▸ ⟨fixed_path split.path, fixed_decoded (by decide)⟩
      query := query ▸ ⟨fixed_query, fixed_decoded (by decide)⟩
      fragment := fragment ▸ ⟨fixed_fragment, fixed_decoded (by decide)⟩ }
    exact ⟨fixed, fixed.checked⟩

/-- The bar behind the brace stays, and the address is refused for it. -/
theorem bracedUserinfo_refused :
    (mended bracedUserinfo).parts.userinfo = ['%', '7', 'B', '|'] ∧
      isValidEncoded ['%', '7', 'B', '|'] Category.userInfo = false ∧
      (HTTPAddress.ofText bracedUserinfo false).isOk = false := by
  decide

end UnixCommons.HTTP
