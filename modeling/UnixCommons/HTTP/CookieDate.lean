import UnixCommons.Generics.Time
import UnixCommons.HTTP.UrlAddress

/-!
# The dates of cookies

`cookie_date` prints a moment as `Sun, 6-Nov-1994 08:49:37 GMT`, and `get_expires` reads
such a text: three words, the second one with the date and the third one with the time of
day. A moment of whole seconds from 1970 up to the end of 2099 is read back as it was.
-/

variable {time number : Int}

namespace UnixCommons.Generics

namespace Time

/-- The number of a month with the given name. -/
def month (mon : List Char) : Except String Nat :=
  if mon.isEmpty then .error "empty month specified"
  else match monthNames.findIdx? (HTTP.equalCaseless mon ·) with
    | none => .error ("invalid month specified '" ++ String.ofList mon ++ "'")
    | some index => .ok index

/-- A name by its number, which is taken for an unsigned one. -/
def nameOf (names : List (List Char)) (what : String) (index : Int) : Except String (List Char) :=
  match names[(index % 4294967296).toNat]? with
  | none => .error ("invalid " ++ what ++ " specified '" ++ toString (index % 4294967296) ++ "'")
  | some name => .ok name

def monthName (index : Int) : Except String (List Char) := nameOf monthNames "month" index

def weekDayName (index : Int) : Except String (List Char) := nameOf dayNames "day" index

/-- The moment of an `ExtendedTime` made from the fields of a date. -/
def ofDate (year month day hour min sec : Int) : Timeval where
  tvSec := gmToTime (timeToGm (gmToTime
    ⟨year - 1900, month - 1, day, hour, min, sec, 0, 0, 0⟩) 0)
  tvUsec := 0

/-- The fields of a moment before the year 2100. -/
structure Fields (et : ExtendedTime) : Prop where
  year : 70 ≤ et.tmYear ∧ et.tmYear < 200
  mon : 0 ≤ et.tmMon ∧ et.tmMon < 12
  mday : 1 ≤ et.tmMday ∧ et.tmMday ≤ 31
  hour : 0 ≤ et.tmHour ∧ et.tmHour < 24
  min : 0 ≤ et.tmMin ∧ et.tmMin < 60
  sec : 0 ≤ et.tmSec ∧ et.tmSec < 60
  wday : 0 ≤ et.tmWday ∧ et.tmWday < 7

/-- Before 2100 the fields are within their ranges. -/
theorem timeToGm_fields (since : 0 ≤ time) (until2100 : time < 4102444800) (usec : Int) :
    Fields (timeToGm time usec) := by
  have broken := timeToGm_broken since usec
  exact ⟨⟨broken.year, broken.year_lt (by omega)⟩, broken.mon, broken.mday_le, broken.hour, broken.min,
    broken.sec, broken.wday⟩

/-- The date of a moment is put together again. -/
theorem ofDate_timeToGm (since : 0 ≤ time) (usec : Int) :
    ofDate ((timeToGm time usec).tmYear + 1900) ((timeToGm time usec).tmMon + 1)
      (timeToGm time usec).tmMday (timeToGm time usec).tmHour (timeToGm time usec).tmMin
      (timeToGm time usec).tmSec = ⟨time, 0⟩ := by
  have again := (timeToGm_broken since usec).again
  generalize timeToGm time usec = et at *
  have shown : gmToTime ⟨et.tmYear + 1900 - 1900, et.tmMon + 1 - 1, et.tmMday, et.tmHour, et.tmMin,
      et.tmSec, 0, 0, 0⟩ = time := by
    simp only [Int.add_sub_cancel]
    exact again
  simp only [ofDate, shown, (timeToGm_broken since _).again]

end Time

end UnixCommons.Generics

namespace UnixCommons.HTTP

open Cut Generics List Time

/-- The characters of `isspace`. -/
def isSpace (ch : Char) : Bool :=
  ch == ' ' || (decide (9 ≤ ch.toNat) && decide (ch.toNat ≤ 13))

/-! ## Printing -/

/-- A number as a stream writes it. -/
def intText (number : Int) : List Char :=
  if number < 0 then '-' :: Nat.toDigits 10 number.natAbs else Nat.toDigits 10 number.natAbs

/-- `%02i` -/
def twoDigitText (number : Int) : List Char :=
  if 0 ≤ number ∧ number < 10 then '0' :: intText number else intText number

/-- The date of a cookie, without the day of the week. -/
def dateText (et : ExtendedTime) (month : List Char) : List Char :=
  intText et.tmMday ++ '-' :: (month ++ '-' :: intText (et.tmYear + 1900))

/-- The time of a cookie. -/
def timeText (et : ExtendedTime) : List Char :=
  twoDigitText et.tmHour ++ ':' :: (twoDigitText et.tmMin ++ ':' :: twoDigitText et.tmSec)

/-- `cookie_date`. -/
def cookieDate (time : Timeval) : Except String (List Char) := do
  let et := timeToGm time.tvSec time.tvUsec
  let weekDay ← weekDayName et.tmWday
  let month ← monthName et.tmMon
  return weekDay ++ [','] ++ ' ' :: (dateText et month ++ ' ' :: (timeText et ++
    ' ' :: ['G', 'M', 'T']))

/-! ## Reading -/

/-- The next token of a text, and what is behind it: characters that are owned separate the
tokens, and there are no empty ones. This is `get_token` of a splitter, and for spaces what
a stream reads into a string. -/
def getToken (owned : Char → Bool) (str : List Char) : Option (List Char × List Char) :=
  if (str.dropWhile owned).isEmpty then none else some (cutWhere owned (str.dropWhile owned))

/-- What `get_expires` throws. -/
inductive ExpiresFault where
  | invalidArgument (text : List Char)
  | timeException (text : String)
  deriving DecidableEq, Repr

/-- Whether a number is negative, and its digits. -/
def splitSign : List Char → Bool × List Char
  | '-' :: digits => (true, digits)
  | '+' :: digits => (false, digits)
  | digits => (false, digits)

/-- A token without spaces that a stream reads as an `int` up to its end. -/
def readInt (token : List Char) : Option Int :=
  let digits := (splitSign token).2
  let number := Nat.ofDigitChars 10 digits 0
  if digits.isEmpty || !digits.all Char.isDigit then none
  else if (splitSign token).1 then if number ≤ 2147483648 then some (-number) else none
  else if number ≤ 2147483647 then some number else none

/-- A number token of the date. -/
def intToken (token : List Char) : Except ExpiresFault Int :=
  (readInt token).elim (.error (.invalidArgument token)) .ok

/-- A month token of the date. -/
def monthToken (token : List Char) : Except ExpiresFault Nat :=
  match month token with
  | .error text => .error (.timeException text)
  | .ok month => .ok month

/-- The day, the month and the year; those that are missing are 0. -/
def readDateTokens (date : List Char) : Except ExpiresFault (Int × Int × Int) :=
  match getToken (· == '-') date with
  | none => .ok (0, 0, 0)
  | some (dayToken, behindDay) => do
    let day ← intToken dayToken
    match getToken (· == '-') behindDay with
    | none => .ok (day, 0, 0)
    | some (token, behindMonth) => do
      let month ← monthToken token
      match getToken (· == '-') behindMonth with
      | none => .ok (day, month + 1, 0)
      | some (yearToken, _) => do
        let year ← intToken yearToken
        .ok (day, month + 1, if year < 100 then year + 2000 else year)

/-- The date with its checks of the ranges. -/
def readDate (date : List Char) : Except ExpiresFault (Int × Int × Int) := do
  let (day, month, year) ← readDateTokens date
  if day < 1 ∨ day > 31 ∨ month < 1 ∨ month > 12 ∨ year < 1900 then
    .error (.invalidArgument (['i', 'n', 'v', 'a', 'l', 'i', 'd', ' ', 'd', 'a', 't', 'e', ' '] ++ date))
  else .ok (day, month, year)

/-- The hours, the minutes and the seconds; those that are missing are 0. -/
def readTime (time : List Char) : Except ExpiresFault (Int × Int × Int) :=
  match getToken (· == ':') time with
  | none => .ok (0, 0, 0)
  | some (hoursToken, behindHours) => do
    let hours ← intToken hoursToken
    match getToken (· == ':') behindHours with
    | none => .ok (hours, 0, 0)
    | some (minutesToken, behindMinutes) => do
      let minutes ← intToken minutesToken
      match getToken (· == ':') behindMinutes with
      | none => .ok (hours, minutes, 0)
      | some (secondsToken, _) => do
        let seconds ← intToken secondsToken
        .ok (hours, minutes, seconds)

/-- The second and the third word of a text. -/
def dateAndTime (value : List Char) : Option (List Char × List Char) := do
  let (_, behindDay) ← getToken isSpace value
  let (date, behindDate) ← getToken isSpace behindDay
  let (time, _) ← getToken isSpace behindDate
  return (date, time)

/-- `get_expires`. -/
def getExpires (value : List Char) : Except ExpiresFault Timeval :=
  match dateAndTime value with
  | none => .error (.invalidArgument value)
  | some (date, time) => do
    let (day, month, year) ← readDate date
    let (hours, minutes, seconds) ← readTime time
    return ofDate year month day hours minutes seconds

/-! ## Printed dates are read back -/

section Tokens

variable {owned : Char → Bool} {token rest : List Char} {stop : Char}

/-- A separator in front of a token is passed over. -/
theorem getToken_skip (isOwned : owned stop = true) :
    getToken owned (stop :: rest) = getToken owned rest := by
  simp [getToken, isOwned]

/-- A token in front of a separator. -/
theorem getToken_cut (nonempty : token ≠ []) (apart : ∀ ch ∈ token, owned ch = false)
    (isOwned : owned stop = true) :
    getToken owned (token ++ stop :: rest) = some (token, stop :: rest) := by
  obtain ⟨first, others, rfl⟩ := exists_cons_of_ne_nil nonempty
  have kept : owned first = false := apart first mem_cons_self
  have whole : ((first :: others) ++ stop :: rest).dropWhile owned =
      (first :: others) ++ stop :: rest := by
    simp [kept]
  rw [getToken, whole, cutWhere_cut apart isOwned]
  rfl

/-- The last token ends with the text. -/
theorem getToken_last (nonempty : token ≠ []) (apart : ∀ ch ∈ token, owned ch = false) :
    getToken owned token = some (token, []) := by
  obtain ⟨first, others, rfl⟩ := exists_cons_of_ne_nil nonempty
  have kept : owned first = false := apart first mem_cons_self
  have whole : (first :: others).dropWhile owned = first :: others := by
    simp [kept]
  rw [getToken, whole, cutWhere_whole apart]
  rfl

/-- The three tokens of a text with two separators of one character. -/
theorem getToken_three {front back : List Char} (frontNonempty : front ≠ [])
    (frontApart : stop ∉ front) (nonempty : token ≠ []) (apart : stop ∉ token)
    (backNonempty : back ≠ []) (backApart : stop ∉ back) :
    getToken (· == stop) (front ++ stop :: (token ++ stop :: back)) =
        some (front, stop :: (token ++ stop :: back)) ∧
      getToken (· == stop) (stop :: (token ++ stop :: back)) = some (token, stop :: back) ∧
      getToken (· == stop) (stop :: back) = some (back, []) := by
  have isOwned : (stop == stop) = true := beq_self_eq_true stop
  have other : ∀ {text : List Char}, stop ∉ text → ∀ ch ∈ text, (ch == stop) = false := by
    intro text outside ch inside
    exact beq_eq_false_iff_ne.mpr fun same => outside (same ▸ inside)
  have skip : ∀ text, getToken (· == stop) (stop :: text) = getToken (· == stop) text :=
    fun text => @getToken_skip (· == stop) text stop isOwned
  refine ⟨getToken_cut frontNonempty (other frontApart) isOwned, ?_, ?_⟩
  · exact (skip _).trans (getToken_cut nonempty (other apart) isOwned)
  · exact (skip _).trans (getToken_last backNonempty (other backApart))

end Tokens

/-! ### Numbers -/

theorem intText_digits (least : 0 ≤ number) : Numeral.Digits (intText number) := by
  rw [intText, if_neg (Int.not_lt.mpr least)]
  exact Text.digits_toDigits

theorem intText_ne_nil : intText number ≠ [] := by
  unfold intText
  split_ifs
  · exact cons_ne_nil _ _
  · exact Nat.toDigits_ne_nil

theorem twoDigitText_digits (least : 0 ≤ number) : Numeral.Digits (twoDigitText number) := by
  unfold twoDigitText
  split_ifs
  · exact forall_mem_cons.mpr ⟨rfl, intText_digits least⟩
  · exact intText_digits least

theorem twoDigitText_ne_nil : twoDigitText number ≠ [] := by
  unfold twoDigitText
  split_ifs
  · exact cons_ne_nil _ _
  · exact intText_ne_nil

variable {text word : List Char}

/-- A number without a sign. -/
theorem splitSign_digits (digits : Numeral.Digits text) : splitSign text = (false, text) := by
  unfold splitSign
  split
  case h_1 => exact absurd (digits '-' mem_cons_self) (by decide)
  case h_2 => exact absurd (digits '+' mem_cons_self) (by decide)
  case h_3 => rfl

/-- A text of digits is read as its number. -/
theorem readInt_digits (digits : Numeral.Digits text) (nonempty : text ≠ [])
    (fits : Nat.ofDigitChars 10 text 0 ≤ 2147483647) :
    readInt text = some (Nat.ofDigitChars 10 text 0 : Int) := by
  have all : text.all Char.isDigit = true := all_eq_true.mpr digits
  have some : text.isEmpty = false := isEmpty_eq_false_iff.mpr nonempty
  simp [readInt, splitSign_digits digits, all, some, fits]

/-- The digits of a number are read as the number. -/
theorem ofDigitChars_intText (least : 0 ≤ number) :
    (Nat.ofDigitChars 10 (intText number) 0 : Int) = number := by
  rw [intText, if_neg (Int.not_lt.mpr least), Nat.ofDigitChars_toDigits (by decide) (by decide)]
  omega

/-- A printed number of an `int` is read back, also with a zero in front of it. -/
theorem intToken_intText (least : 0 ≤ number) (most : number ≤ 2147483647) :
    intToken (intText number) = .ok number := by
  have value := ofDigitChars_intText least
  rw [intToken, readInt_digits (intText_digits least) intText_ne_nil (by omega), value]
  rfl

/-- Two digits are read as the number. -/
theorem intToken_twoDigitText (least : 0 ≤ number) (most : number ≤ 2147483647) :
    intToken (twoDigitText number) = .ok number := by
  by_cases small : 0 ≤ number ∧ number < 10
  · have value : (Nat.ofDigitChars 10 (twoDigitText number) 0 : Int) = number := by
      rw [twoDigitText, if_pos small]
      exact ofDigitChars_intText least
    rw [intToken, readInt_digits (twoDigitText_digits least) twoDigitText_ne_nil (by omega),
      value]
    rfl
  · rw [twoDigitText, if_neg small]
    exact intToken_intText least most

/-- Characters that are no separators of any kind: letters and digits. -/
def Plain (text : List Char) : Prop := ∀ ch ∈ text, ch.isAlphanum = true

instance (text : List Char) : Decidable (Plain text) :=
  decidable_of_iff (text.all Char.isAlphanum = true) all_eq_true

theorem Plain.digits (digits : Numeral.Digits text) : Plain text :=
  fun ch inside => by simp [Char.isAlphanum, digits ch inside]

variable {ch mark : Char}

/-- Any other character is not in a plain text. -/
theorem Plain.not_mem (plain : Plain text) (other : ch.isAlphanum = false) :
    ch ∉ text :=
  fun inside => absurd (plain ch inside) (by simp [other])

theorem isSpace_of_isAlphanum (plain : ch.isAlphanum = true) : isSpace ch = false := by
  rw [Bool.eq_false_iff]
  intro space
  have number : Char.ofNat ch.toNat = ch := Char.ofNat_toNat ch
  simp only [isSpace, Bool.or_eq_true, beq_iff_eq, Bool.and_eq_true, decide_eq_true_eq] at space
  rcases space with rfl | ⟨least, most⟩
  · exact absurd plain (by decide)
  · generalize ch.toNat = code at number least most
    subst number
    revert plain
    interval_cases code <;> decide

/-! ### Names -/

theorem plain_dayNames : ∀ index < 7, Plain (dayNames.getD index []) ∧
    dayNames.getD index [] ≠ [] := by
  decide

theorem plain_monthNames : ∀ index < 12, Plain (monthNames.getD index []) ∧
    monthNames.getD index [] ≠ [] := by
  decide

/-- The names of the months are read as their numbers. -/
theorem monthToken_monthNames : ∀ index < 12,
    monthToken (monthNames.getD index []) = .ok index := by
  decide

/-- The name of an index within the table. -/
theorem nameOf_ok {names : List (List Char)} {what : String} {index : Int} (least : 0 ≤ index)
    (inside : index < names.length) (short : names.length ≤ 4294967296) :
    nameOf names what index = .ok (names.getD index.toNat []) := by
  obtain ⟨number, rfl⟩ := Int.eq_ofNat_of_zero_le least
  have known : number < names.length := by omega
  have same : ((number : Int) % 4294967296).toNat = number := by omega
  rw [nameOf, same]
  simp [List.getElem?_eq_getElem known]

/-! ### The parts of a date -/

variable {et : ExtendedTime}

/-- The written time is read back. -/
theorem readTime_timeText (fields : Time.Fields et) :
    readTime (timeText et) = .ok (et.tmHour, et.tmMin, et.tmSec) := by
  obtain ⟨hourLeast, hourMost⟩ := fields.hour
  obtain ⟨minLeast, minMost⟩ := fields.min
  obtain ⟨secLeast, secMost⟩ := fields.sec
  have apart : ∀ {number : Int}, 0 ≤ number → ':' ∉ twoDigitText number :=
    fun least => (Plain.digits (twoDigitText_digits least)).not_mem (by decide)
  obtain ⟨first, second, third⟩ := getToken_three
    twoDigitText_ne_nil (apart hourLeast) twoDigitText_ne_nil (apart minLeast)
    twoDigitText_ne_nil (apart secLeast)
  simp only [readTime, timeText, first, second, third, intToken_twoDigitText hourLeast (by omega),
    intToken_twoDigitText minLeast (by omega), intToken_twoDigitText secLeast (by omega)]
  rfl

/-- The written date is read back. -/
theorem readDate_dateText (fields : Time.Fields et) :
    readDate (dateText et (monthNames.getD et.tmMon.toNat [])) =
      .ok (et.tmMday, et.tmMon + 1, et.tmYear + 1900) := by
  obtain ⟨yearLeast, yearMost⟩ := fields.year
  obtain ⟨monLeast, monMost⟩ := fields.mon
  obtain ⟨dayLeast, dayMost⟩ := fields.mday
  have dayFrom : 0 ≤ et.tmMday := by omega
  have yearFrom : 0 ≤ et.tmYear + 1900 := by omega
  have apart : ∀ {number : Int}, 0 ≤ number → '-' ∉ intText number :=
    fun least => (Plain.digits (intText_digits least)).not_mem (by decide)
  obtain ⟨plain, named⟩ := plain_monthNames et.tmMon.toNat (by omega)
  obtain ⟨first, second, third⟩ := getToken_three
    intText_ne_nil (apart dayFrom) named (plain.not_mem (by decide))
    intText_ne_nil (apart yearFrom)
  have month := monthToken_monthNames et.tmMon.toNat (by omega)
  have number : (et.tmMon.toNat : Int) = et.tmMon := Int.toNat_of_nonneg monLeast
  have tokens : readDateTokens (dateText et (monthNames.getD et.tmMon.toNat [])) =
      .ok (et.tmMday, et.tmMon + 1, et.tmYear + 1900) := by
    simp only [readDateTokens, dateText, first, second, third, month,
      intToken_intText dayFrom (by omega), intToken_intText yearFrom (by omega)]
    change Except.ok (et.tmMday, (et.tmMon.toNat : Int) + 1,
      if et.tmYear + 1900 < 100 then et.tmYear + 1900 + 2000 else et.tmYear + 1900) = _
    rw [number, if_neg (by omega)]
  rw [readDate, tokens]
  exact if_neg (by omega)

/-! ### The whole date -/

/-- Plain texts and marks between them have no other characters. -/
theorem joined_chars {first second third : List Char} {mark : Char} (one : Plain first)
    (two : Plain second) (three : Plain third) :
    ∀ ch ∈ first ++ mark :: (second ++ mark :: third), ch.isAlphanum = true ∨ ch = mark := by
  intro ch inside
  simp only [mem_append, mem_cons] at inside
  rcases inside with found | found | found | found | found
  · exact .inl (one ch found)
  · exact .inr found
  · exact .inl (two ch found)
  · exact .inr found
  · exact .inl (three ch found)

/-- The characters of a date. -/
theorem dateText_chars (fields : Time.Fields et) {month : List Char} (plain : Plain month) :
    ∀ ch ∈ dateText et month, ch.isAlphanum = true ∨ ch = '-' := by
  obtain ⟨yearLeast, _⟩ := fields.year
  obtain ⟨dayLeast, _⟩ := fields.mday
  have day : Plain (intText et.tmMday) := .digits (intText_digits (by omega))
  have year : Plain (intText (et.tmYear + 1900)) := .digits (intText_digits (by omega))
  exact joined_chars day plain year

/-- The characters of a time. -/
theorem timeText_chars (fields : Time.Fields et) :
    ∀ ch ∈ timeText et, ch.isAlphanum = true ∨ ch = ':' :=
  joined_chars (.digits (twoDigitText_digits fields.hour.1))
    (.digits (twoDigitText_digits fields.min.1)) (.digits (twoDigitText_digits fields.sec.1))

/-- A word of letters, digits and one other character that is no space has no space. -/
theorem not_isSpace (solid : isSpace mark = false)
    (chars : ∀ ch ∈ word, ch.isAlphanum = true ∨ ch = mark) : ∀ ch ∈ word, isSpace ch = false := by
  intro ch inside
  rcases chars ch inside with plain | rfl
  · exact isSpace_of_isAlphanum plain
  · exact solid

theorem not_mem_of_chars (chars : ∀ ch ∈ word, ch.isAlphanum = true ∨ ch = mark)
    (other : ch.isAlphanum = false) (apart : ch ≠ mark) : ch ∉ word := by
  intro inside
  rcases chars ch inside with plain | same
  · rw [other] at plain
    exact absurd plain (by decide)
  · exact apart same

/-- The three words that are read of a text that begins with three words. -/
theorem dateAndTime_words {week date time rest : List Char} (weekNonempty : week ≠ [])
    (weekSolid : ∀ ch ∈ week, isSpace ch = false) (dateNonempty : date ≠ [])
    (dateSolid : ∀ ch ∈ date, isSpace ch = false) (timeNonempty : time ≠ [])
    (timeSolid : ∀ ch ∈ time, isSpace ch = false) :
    dateAndTime (week ++ ' ' :: (date ++ ' ' :: (time ++ ' ' :: rest))) = some (date, time) := by
  have blank : isSpace ' ' = true := rfl
  simp only [dateAndTime, getToken_cut weekNonempty weekSolid blank, getToken_skip blank,
    getToken_cut dateNonempty dateSolid blank, getToken_cut timeNonempty timeSolid blank,
    Option.bind_eq_bind, Option.bind_some]
  rfl

/-- What a printed date is to its reader: it begins and ends with letters, has no
semicolon and is read as the moment. -/
structure Printed (time : Timeval) (text : List Char) : Prop where
  read : getExpires text = .ok time
  noSemicolon : ';' ∉ text
  first : ∀ ch ∈ text.head?, isSpace ch = false
  last : ∀ ch ∈ text.getLast?, isSpace ch = false

/-- Every moment of whole seconds from 1970 to 2099 is printed, and read back. -/
theorem cookieDate_printed {time : Timeval} (since : 0 ≤ time.tvSec)
    (until2100 : time.tvSec < 4102444800) (whole : time.tvUsec = 0) :
    ∃ text, cookieDate time = .ok text ∧ Printed time text := by
  have fields := timeToGm_fields since until2100 time.tvUsec
  have moment := ofDate_timeToGm since time.tvUsec
  generalize broken : timeToGm time.tvSec time.tvUsec = et at fields moment
  obtain ⟨monLeast, monMost⟩ := fields.mon
  obtain ⟨dayLeast, dayMost⟩ := fields.wday
  obtain ⟨monthPlain, _⟩ := plain_monthNames et.tmMon.toNat (by omega)
  obtain ⟨weekPlain, weekNamed⟩ := plain_dayNames et.tmWday.toNat (by omega)
  have weekDay : weekDayName et.tmWday = .ok (dayNames.getD et.tmWday.toNat []) :=
    nameOf_ok dayLeast dayMost (by decide)
  have month : monthName et.tmMon = .ok (monthNames.getD et.tmMon.toNat []) :=
    nameOf_ok monLeast monMost (by decide)
  generalize dayNames.getD et.tmWday.toNat [] = week at weekDay weekPlain weekNamed
  have date := readDate_dateText fields
  generalize monthNames.getD et.tmMon.toNat [] = mon at month monthPlain date
  have dateChars := dateText_chars fields monthPlain
  have timeChars := timeText_chars fields
  have dateNonempty : dateText et mon ≠ [] := by simp [dateText]
  have timeNonempty : timeText et ≠ [] := by simp [timeText]
  have weekChars : ∀ ch ∈ week ++ [','], ch.isAlphanum = true ∨ ch = ',' := by
    intro ch inside
    rcases mem_append.mp inside with letter | comma
    · exact .inl (weekPlain ch letter)
    · exact .inr (mem_singleton.mp comma)
  have printed : cookieDate time = .ok (week ++ [','] ++ ' ' :: (dateText et mon ++ ' ' ::
      (timeText et ++ ' ' :: ['G', 'M', 'T']))) := by
    simp only [cookieDate, broken, weekDay, month]
    rfl
  refine ⟨_, printed, ?_, ?_, ?_, ?_⟩
  · have words := @dateAndTime_words _ _ _ ['G', 'M', 'T'] (by simp)
      (not_isSpace (by decide) weekChars) dateNonempty (not_isSpace (by decide) dateChars)
      timeNonempty (not_isSpace (by decide) timeChars)
    simp only [getExpires, words, date, readTime_timeText fields]
    change Except.ok (ofDate _ _ _ _ _ _) = _
    rw [moment, ← whole]
  · have apart : ';' ∉ week ++ [','] := not_mem_of_chars weekChars (by decide) (by decide)
    have noDate : ';' ∉ dateText et mon := not_mem_of_chars dateChars (by decide) (by decide)
    have noTime : ';' ∉ timeText et := not_mem_of_chars timeChars (by decide) (by decide)
    simp only [mem_append, mem_cons, not_or] at apart ⊢
    exact ⟨apart, by decide, noDate, by decide, noTime, by decide, by decide⟩
  · obtain ⟨letter, letters, rfl⟩ := exists_cons_of_ne_nil weekNamed
    rintro ch ⟨rfl⟩
    exact isSpace_of_isAlphanum (weekPlain letter mem_cons_self)
  · intro ch found
    simp only [List.getLast?_append, List.getLast?_cons] at found
    obtain rfl : 'T' = ch := by simpa using found
    decide

end UnixCommons.HTTP
