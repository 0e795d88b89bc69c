import UnixCommons.Library.Escape
import UnixCommons.String.AsciiStringManip

/-!
# URL encoding

The encoder writes every character out of its category as an escape of two hexadecimal digits,
and a blank as a plus sign. There are two decoders, one that decodes to another text and one
that decodes in place.
-/

namespace UnixCommons.Text

open Escape List

/-- The characters that are not encoded. -/
def mime : UInt8 → Bool :=
  charTable (['A', '-', 'Z', 'a', '-', 'z', '0', '-', '9', '_', '*', '.', ',', '-'].map octet) false

/-- What is written for any other character. -/
def mimeEscape (ch : UInt8) : List UInt8 :=
  if ch = octet ' ' then [octet '+']
  else [octet '%', hexDigit (ch.toNat >>> 4 &&& 0x0F), hexDigit (ch.toNat &&& 0x0F)]

/-- `mime_url_encode`. -/
def mimeUrlEncode (src : List UInt8) : List UInt8 := copyRuns mime mimeEscape src []

/-- broken encoding in the text -/
structure BrokenEncoding where
  src : List UInt8
deriving DecidableEq

/-- The octet of two digits. -/
def hexToChar (major minor : UInt8) : UInt8 := .ofNat (hexToInt major <<< 4 ||| hexToInt minor)

/-- The loop of the decoder. -/
def mimeUrlDecodeFrom (src : List UInt8) (strict : Bool) :
    List UInt8 → List UInt8 → Except BrokenEncoding (List UInt8)
  | dst, [] => .ok dst
  | dst, ch :: rest =>
    if ch = octet '+' then mimeUrlDecodeFrom src strict (dst ++ [octet ' ']) rest
    else if ch = octet '%' then
      match rest with
      | h1 :: h2 :: later =>
        if hexNumber h1 && hexNumber h2 then
          mimeUrlDecodeFrom src strict (dst ++ [hexToChar h1 h2]) later
        else if strict then .error ⟨src⟩
        else mimeUrlDecodeFrom src strict (dst ++ [ch]) (h1 :: h2 :: later)
      | rest => if strict then .error ⟨src⟩ else mimeUrlDecodeFrom src strict (dst ++ [ch]) rest
    else mimeUrlDecodeFrom src strict (dst ++ [ch]) rest

/-- `mime_url_decode`. -/
def mimeUrlDecode (src : List UInt8) (strict : Bool) : Except BrokenEncoding (List UInt8) :=
  mimeUrlDecodeFrom src strict [] src

/-- The loop of the decoder in place, with the places it writes to and reads from and the
number of characters before it. -/
def mimeUrlDecodeLoop (text : List UInt8) (dest src : Nat) : Nat → List UInt8 × Except BrokenEncoding Nat
  | 0 => (text, .ok dest)
  | size + 1 =>
    let ch := text.getD src 0
    if ch = octet '+' then mimeUrlDecodeLoop (text.set dest (octet ' ')) (dest + 1) (src + 1) size
    else if ch = octet '%' then
      let h1 := text.getD (src + 1) 0
      let h2 := text.getD (src + 2) 0
      if size < 2 ∨ hexNumber h1 = false ∨ hexNumber h2 = false then
        (text, .error ⟨(text.drop src).takeWhile (· ≠ 0)⟩)
      else mimeUrlDecodeLoop (text.set dest (hexToChar h1 h2)) (dest + 1) (src + 3) (size - 2)
    else mimeUrlDecodeLoop (text.set dest ch) (dest + 1) (src + 1) size
termination_by size => size
decreasing_by all_goals omega

/-- The decoder in place: the text that it leaves, and its exception if there is one. -/
def mimeUrlDecodeInPlace (text : List UInt8) : List UInt8 × Except BrokenEncoding Unit :=
  match mimeUrlDecodeLoop text 0 0 text.length with
  | (text, .ok dest) => (text.take dest, .ok ())
  | (text, .error broken) => (text, .error broken)

/-! ## Round trip -/

/-- The two digits of an octet are read back. -/
theorem hexToChar_hexDigit (ch : UInt8) :
    hexToChar (hexDigit (ch.toNat >>> 4 &&& 0x0F)) (hexDigit (ch.toNat &&& 0x0F)) = ch := by
  have all : ∀ number < 256, hexToChar (hexDigit (number >>> 4 &&& 0x0F)) (hexDigit (number &&& 0x0F)) =
      .ofNat number := by decide +kernel
  rw [all ch.toNat ch.toNat_lt, UInt8.ofNat_toNat]

variable {ch : UInt8}

/-- The characters that are not encoded are not decoded either. -/
theorem mime_unescaped (owned : mime ch = true) : ch ≠ octet '+' ∧ ch ≠ octet '%' := by
  have all : ∀ number < 256, mime (.ofNat number) = true →
      UInt8.ofNat number ≠ octet '+' ∧ UInt8.ofNat number ≠ octet '%' := by decide +kernel
  rw [← @UInt8.ofNat_toNat ch] at owned ⊢
  exact all ch.toNat ch.toNat_lt owned

theorem hexNumber_field {number : Nat} : hexNumber (hexDigit (number &&& 0x0F)) = true :=
  hexNumber_hexDigit _ (Nat.lt_succ_of_le Nat.and_le_right)

/-- The decoder on what is written for a character. -/
theorem decodeFrom_piece (src dst rest : List UInt8) (strict : Bool) (ch : UInt8) :
    mimeUrlDecodeFrom src strict dst (piece mime mimeEscape ch ++ rest) =
      mimeUrlDecodeFrom src strict (dst ++ [ch]) rest := by
  rw [piece, mimeEscape]
  split_ifs with owned space
  · rw [singleton_append, mimeUrlDecodeFrom.eq_def]
    dsimp only
    rw [if_neg (mime_unescaped owned).1, if_neg (mime_unescaped owned).2]
  · rw [mimeUrlDecodeFrom.eq_def, space]
    exact if_pos rfl
  · simp only [cons_append]
    rw [mimeUrlDecodeFrom, hexNumber_field, hexNumber_field,
      hexToChar_hexDigit]
    rfl

/-- The unreserved characters of a URL. -/
def unreserved (ch : UInt8) : Bool := alphaNum ch || (['-', '.', '_', '~'].map octet).contains ch

/-- All but two of the characters that are kept are unreserved. -/
theorem unreserved_of_mime (owned : mime ch = true) :
    unreserved ch = true ∨ ch = octet '*' ∨ ch = octet ',' := by
  have all : ∀ number < 256, mime (.ofNat number) = true →
      unreserved (.ofNat number) = true ∨ .ofNat number = octet '*' ∨ .ofNat number = octet ',' := by
    decide +kernel
  rw [← @UInt8.ofNat_toNat ch] at owned ⊢
  exact all ch.toNat ch.toNat_lt owned

/-- What an encoded text is made of. -/
def UrlPiece (octets : List UInt8) : Prop :=
  (∃ ch, octets = [ch] ∧ (unreserved ch = true ∨ ch = octet '*' ∨ ch = octet ',')) ∨ octets = [octet '+'] ∨
    ∃ h1 h2, octets = [octet '%', h1, h2] ∧ hexNumber h1 = true ∧ hexNumber h2 = true

/-- **URL encoding is undone by the decoder.** The encoded text has only unreserved
characters, asterisks, commas, plus signs and escapes of two hexadecimal digits. -/
theorem mime_url_round_trip (src : List UInt8) (strict : Bool) :
    mimeUrlDecode (mimeUrlEncode src) strict = .ok src ∧
      ∃ pieces : List (List UInt8), mimeUrlEncode src = pieces.flatten ∧ ∀ octets ∈ pieces, UrlPiece octets := by
  rw [mimeUrlEncode, copyRuns_eq]
  constructor
  · have decoded : ∀ text dst (src : List UInt8), mimeUrlDecodeFrom text strict dst
        (src.flatMap (piece mime mimeEscape)) = .ok (dst ++ src) := by
      intro text dst src
      induction src generalizing dst with
      | nil => rw [flatMap_nil, mimeUrlDecodeFrom, append_nil]
      | cons ch rest ih =>
        rw [flatMap_cons, decodeFrom_piece, ih, append_assoc, singleton_append]
    exact decoded _ [] src
  · refine ⟨src.map (piece mime mimeEscape), flatMap_def, ?_⟩
    rw [forall_mem_map]
    intro ch _
    rw [piece, mimeEscape]
    split_ifs with owned
    · exact .inl ⟨ch, rfl, unreserved_of_mime owned⟩
    · exact .inr (.inl rfl)
    · exact .inr (.inr ⟨_, _, rfl, hexNumber_field, hexNumber_field⟩)

/-- A comma is reserved, and goes out as it is. -/
theorem comma_unescaped : mimeUrlEncode [octet ','] = [octet ','] ∧ unreserved (octet ',') = false := by
  decide +kernel

/-! ## The two decoders -/

/-- What a strict decoder decodes, and the text from a broken escape on. -/
def strictDecode : List UInt8 → List UInt8 × Option (List UInt8)
  | [] => ([], none)
  | ch :: rest =>
    if ch = octet '+' then (strictDecode rest).map (octet ' ' :: ·) id
    else if ch = octet '%' then
      match rest with
      | h1 :: h2 :: later =>
        if hexNumber h1 && hexNumber h2 then (strictDecode later).map (hexToChar h1 h2 :: ·) id
        else ([], some (ch :: h1 :: h2 :: later))
      | rest => ([], some (ch :: rest))
    else (strictDecode rest).map (ch :: ·) id

/-- Strict decoding gives the whole text or fails. -/
theorem mimeUrlDecodeFrom_strict (src dst rest : List UInt8) :
    mimeUrlDecodeFrom src true dst rest =
      if (strictDecode rest).2 = none then .ok (dst ++ (strictDecode rest).1) else .error ⟨src⟩ := by
  induction rest using strictDecode.induct generalizing dst with
  | case1 => simp [mimeUrlDecodeFrom, strictDecode]
  | case2 rest ih =>
    rw [mimeUrlDecodeFrom.eq_def, strictDecode.eq_def]
    simp [ih]
  | case3 h1 h2 later hex different ih =>
    rw [mimeUrlDecodeFrom.eq_def, strictDecode.eq_def]
    simp [hex, different, ih]
  | case4 h1 h2 later hex different =>
    rw [mimeUrlDecodeFrom.eq_def, strictDecode.eq_def]
    simp [hex, different]
  | case5 rest short different =>
    rw [mimeUrlDecodeFrom.eq_def, strictDecode.eq_def]
    simp [different]
  | case6 ch rest notPlus notPercent ih =>
    rw [mimeUrlDecodeFrom.eq_def, strictDecode.eq_def]
    simp [notPlus, notPercent, ih]

/-- The text with its first characters written over. -/
def overwritten (text written : List UInt8) : List UInt8 := written ++ text.drop written.length

theorem set_overwritten {text written : List UInt8} (inside : written.length < text.length) (ch : UInt8) :
    (overwritten text written).set written.length ch = overwritten text (written ++ [ch]) := by
  rw [overwritten, overwritten, drop_eq_getElem_cons inside, set_append_right _ _ (Nat.le_refl _),
    Nat.sub_self, length_append, append_assoc]
  rfl

/-- The decoder in place reads a rest of the text, and has not written as far as that. -/
structure ReadsFrom (text written : List UInt8) (src : Nat) (rest : List UInt8) : Prop where
  before : written.length ≤ src
  here : text.drop src = rest

variable {text written rest : List UInt8} {src : Nat}

section

variable (reads : ReadsFrom text written src rest)
include reads

/-- The write position is inside of the text. -/
theorem ReadsFrom.inside (nonempty : rest ≠ []) : written.length < text.length := by
  by_contra behind
  exact nonempty (reads.here ▸ drop_eq_nil_of_le (by have := reads.before; omega))

/-- What is still to be read has not been overwritten. -/
theorem ReadsFrom.drop_overwritten :
    (overwritten text written).drop src = rest := by
  rw [overwritten, drop_append, drop_eq_nil_of_le reads.before, drop_drop,
    Nat.add_sub_cancel' reads.before, reads.here, nil_append]

theorem ReadsFrom.getD_overwritten (index : Nat) :
    (overwritten text written).getD (src + index) 0 = rest.getD index 0 := by
  rw [← reads.drop_overwritten, getD_eq_getElem?_getD, getD_eq_getElem?_getD, List.getElem?_drop]

theorem ReadsFrom.next {count : Nat} (positive : 0 < count) (ch : UInt8) :
    ReadsFrom text (written ++ [ch]) (src + count) (rest.drop count) where
  before := by
    have := reads.before
    rw [length_append, length_singleton]
    omega
  here := by rw [← drop_drop, reads.here]

end

/-- What the decoder in place has done from a place on: it writes over what it has read. -/
def LoopDecodes (text written : List UInt8) (src : Nat) (rest : List UInt8) : Prop :=
  mimeUrlDecodeLoop (overwritten text written) written.length src rest.length =
    (overwritten text (written ++ (strictDecode rest).1),
      match (strictDecode rest).2 with
      | none => .ok (written ++ (strictDecode rest).1).length
      | some broken => .error ⟨broken.takeWhile (· ≠ 0)⟩)

/-- One character is decoded from a few. -/
theorem LoopDecodes.step {later : List UInt8} {count : Nat}
    (inside : written.length < text.length)
    (after : LoopDecodes text (written ++ [ch]) (src + count) later)
    (decoded : strictDecode rest = (strictDecode later).map (ch :: ·) id)
    (moves : mimeUrlDecodeLoop (overwritten text written) written.length src rest.length =
      mimeUrlDecodeLoop ((overwritten text written).set written.length ch) (written.length + 1)
        (src + count) later.length) : LoopDecodes text written src rest := by
  rw [LoopDecodes, moves, set_overwritten inside, decoded]
  rw [LoopDecodes, length_append, append_assoc] at after
  exact after

/-- One turn of the loop in place. -/
theorem ReadsFrom.loop_cons (reads : ReadsFrom text written src (ch :: rest)) :
    mimeUrlDecodeLoop (overwritten text written) written.length src (ch :: rest).length =
      let next ch count := mimeUrlDecodeLoop ((overwritten text written).set written.length ch)
        (written.length + 1) (src + count) ((ch :: rest).drop count).length
      if ch = octet '+' then next (octet ' ') 1
      else if ch = octet '%' then
        if rest.length < 2 ∨ hexNumber (rest.getD 0 0) = false ∨ hexNumber (rest.getD 1 0) = false then
          (overwritten text written, .error ⟨(ch :: rest).takeWhile (· ≠ 0)⟩)
        else next (hexToChar (rest.getD 0 0) (rest.getD 1 0)) 3
      else next ch 1 := by
  have read : (overwritten text written).getD src 0 = ch := reads.getD_overwritten 0
  rw [length_cons, mimeUrlDecodeLoop, read, reads.drop_overwritten, reads.getD_overwritten 1,
    reads.getD_overwritten 2]
  simp only [getD_cons_succ, drop_succ_cons, drop_zero, length_drop]

/-- The loop in place decodes as the other one does. -/
theorem mimeUrlDecodeLoop_eq (reads : ReadsFrom text written src rest) :
    LoopDecodes text written src rest := by
  induction rest using strictDecode.induct generalizing written src with
  | case1 => rw [LoopDecodes, length_nil, mimeUrlDecodeLoop, strictDecode, append_nil]
  | case2 rest ih =>
    refine .step (reads.inside nofun) (ih (reads.next one_pos (octet ' '))) ?_ ?_
    · rw [strictDecode.eq_def]
      exact if_pos rfl
    · rw [reads.loop_cons]
      exact if_pos rfl
  | case3 h1 h2 later hex different ih =>
    refine .step (reads.inside nofun) (ih (reads.next three_pos (hexToChar h1 h2))) ?_ ?_
    · rw [strictDecode, if_neg different, if_pos rfl, if_pos hex]
    · rw [Bool.and_eq_true] at hex
      rw [reads.loop_cons]
      rw [if_neg different, if_pos rfl, if_neg]
      · rfl
      · simp [hex]
  | case4 h1 h2 later hex different =>
    have broken : hexNumber h1 = false ∨ hexNumber h2 = false := by
      rwa [← Bool.and_eq_false_iff, ← Bool.not_eq_true]
    have decoded : strictDecode (octet '%' :: h1 :: h2 :: later) = ([], some (octet '%' :: h1 :: h2 :: later)) := by
      rw [strictDecode, if_neg different, if_pos rfl, if_neg hex]
    rw [LoopDecodes, reads.loop_cons, decoded, append_nil]
    rw [if_neg different, if_pos rfl]
    exact if_pos (.inr broken)
  | case5 rest short different =>
    have few : rest.length < 2 := by
      match rest, short with
      | [], _ => exact two_pos
      | [h1], _ => exact one_lt_two
      | h1 :: h2 :: later, short => exact absurd rfl (short h1 h2 later)
    have decoded : strictDecode (octet '%' :: rest) = ([], some (octet '%' :: rest)) := by
      rw [strictDecode.eq_def]
      dsimp only
      rw [if_neg different, if_pos rfl]
      split
      · exact absurd rfl (short _ _ _)
      · rfl
    rw [LoopDecodes, reads.loop_cons, decoded, append_nil]
    rw [if_neg different, if_pos rfl]
    exact if_pos (.inl few)
  | case6 ch rest notPlus notPercent ih =>
    refine .step (reads.inside nofun) (ih (reads.next one_pos ch)) ?_ ?_
    · rw [strictDecode.eq_def]
      dsimp only
      rw [if_neg notPlus, if_neg notPercent]
    · rw [reads.loop_cons]
      rw [if_neg notPlus, if_neg notPercent]
      rfl

/-- What the decoder in place leaves of a text. -/
theorem mimeUrlDecodeInPlace_eq (text : List UInt8) :
    mimeUrlDecodeInPlace text = match strictDecode text with
      | (out, none) => (out, .ok ())
      | (out, some broken) => (overwritten text out, .error ⟨broken.takeWhile (· ≠ 0)⟩) := by
  have loop : LoopDecodes text [] 0 text := mimeUrlDecodeLoop_eq ⟨le_rfl, rfl⟩
  rw [LoopDecodes] at loop
  rw [mimeUrlDecodeInPlace]
  rw [show overwritten text [] = text from rfl, length_nil, nil_append] at loop
  rw [loop]
  rcases strictDecode text with ⟨out, _ | broken⟩
  · dsimp only
    rw [overwritten, take_left]
  · rfl

/-- **The decoders agree.** Both decode the same texts to the same result. When the decoder in
place throws, what it has decoded is written over the beginning of the text. -/
theorem mime_url_decoders_agree (text : List UInt8) :
    (∀ out, mimeUrlDecode text true = .ok out ↔ mimeUrlDecodeInPlace text = (out, .ok ())) ∧
      ((mimeUrlDecodeInPlace text).2 ≠ .ok () →
        (mimeUrlDecodeInPlace text).1 = overwritten text (strictDecode text).1) := by
  rw [mimeUrlDecode, mimeUrlDecodeFrom_strict, mimeUrlDecodeInPlace_eq]
  rcases strictDecode text with ⟨out, _ | broken⟩
  · simp
  · exact ⟨fun _ => ⟨nofun, nofun⟩, fun _ => rfl⟩

/-- The plus sign is gone when the escape is found to be broken. -/
theorem broken_escape_overwrites : mimeUrlDecode (['+', '%'].map octet) true = .error ⟨['+', '%'].map octet⟩ ∧
    mimeUrlDecodeInPlace (['+', '%'].map octet) = ([' ', '%'].map octet, .error ⟨['%'].map octet⟩) := by
  rw [mimeUrlDecodeInPlace_eq]
  decide

end UnixCommons.Text
