import Mathlib.Data.List.TakeWhile
import Mathlib.Tactic.IntervalCases

/-!
# Moments and calendar dates

`time_to_gm` breaks the seconds since the beginning of 1970 down into a date and a time of
day, and `gm_to_time` puts them together again. Every fourth year counts as a leap year,
so the two agree with the calendar from 1970 up to February 2100 and with each other
always.

Fields are C integers; division and remainder round towards zero as in the source.
-/

namespace UnixCommons.Generics

/-- The fields of `tm`, with the microseconds of `ExtendedTime`. -/
structure ExtendedTime where
  tmYear : Int
  tmMon : Int
  tmMday : Int
  tmHour : Int
  tmMin : Int
  tmSec : Int
  tmWday : Int
  tmYday : Int
  tmUsec : Int
  deriving DecidableEq, Repr

/-- `Generics::Time`: seconds and microseconds since the beginning of 1970. -/
structure Timeval where
  tvSec : Int
  tvUsec : Int
  deriving DecidableEq, Repr

namespace Timeval

/-- `Time::ZERO` -/
def zero : Timeval := ⟨0, 0⟩

/-- `operator <`. -/
def less (time other : Timeval) : Bool :=
  decide (time.tvSec < other.tvSec) ||
    decide (time.tvSec = other.tvSec ∧ time.tvUsec < other.tvUsec)

end Timeval

/-- `add_num`: a number written with a fixed count of digits. -/
def addNum : Nat → Int → List Char
  | 0, _ => []
  | size + 1, number => addNum size (number.tdiv 10) ++ [Char.ofNat (48 + number.tmod 10).toNat]

namespace Time

def dayNames : List (List Char) :=
  [['S', 'u', 'n'], ['M', 'o', 'n'], ['T', 'u', 'e'], ['W', 'e', 'd'], ['T', 'h', 'u'],
    ['F', 'r', 'i'], ['S', 'a', 't']]

def monthNames : List (List Char) :=
  [['J', 'a', 'n'], ['F', 'e', 'b'], ['M', 'a', 'r'], ['A', 'p', 'r'], ['M', 'a', 'y'],
    ['J', 'u', 'n'], ['J', 'u', 'l'], ['A', 'u', 'g'], ['S', 'e', 'p'], ['O', 'c', 't'],
    ['N', 'o', 'v'], ['D', 'e', 'c']]

/-- `DAYS`: the days of a year before each of its months. -/
def days : Bool → List Int
  | false => [0, 31, 59, 90, 120, 151, 181, 212, 243, 273, 304, 334]
  | true => [0, 31, 60, 91, 121, 152, 182, 213, 244, 274, 305, 335]

/-- `gm_to_time` -/
def gmToTime (et : ExtendedTime) : Int :=
  let years := et.tmYear - 70
  (years * 365 + (years + 1).tdiv 4 + (days (years % 4 = 2)).getD et.tmMon.toNat 0 + et.tmMday - 1) * 86400
    + et.tmHour * 3600 + et.tmMin * 60 + et.tmSec

/-- The year within a cycle of four, the day within the year and whether it is a leap
year, from the day within the cycle. -/
def yearOfCycle (day : Int) : Int × Int × Bool :=
  if day ≥ 365 then
    if day ≥ 365 * 2 then
      if day ≥ 365 * 3 + 1 then (3, day - (365 * 3 + 1), false)
      else (2, day - 365 * 2, true)
    else (1, day - 365, false)
  else (0, day, false)

/-- The month a day of the year is in: the search of `std::lower_bound` among the months
from the second one on. -/
def monthOf (leap : Bool) (day : Int) : Nat :=
  ((days leap).tail.takeWhile (· < day)).length

/-- `time_to_gm`; `usec` is set by the constructor of `ExtendedTime` that calls it. -/
def timeToGm (time usec : Int) : ExtendedTime :=
  let minutes := time.tdiv 60
  let hours := minutes.tdiv 60
  let day := hours.tdiv 24
  let (year, yearDay, leap) := yearOfCycle (day.tmod (4 * 365 + 1))
  let month := monthOf leap (yearDay + 1)
  { tmYear := day.tdiv (4 * 365 + 1) * 4 + year + 70
    tmMon := month
    tmMday := yearDay + 1 - (days leap).getD month 0
    tmHour := hours.tmod 24
    tmMin := minutes.tmod 60
    tmSec := time.tmod 60
    tmWday := (day + 4).tmod 7
    tmYday := yearDay
    tmUsec := usec }

/-- The years of a cycle of four, one after another, and the leap year among them. -/
theorem yearOfCycle_spec {day : Int} (start : 0 ≤ day) (inside : day < 4 * 365 + 1) :
    0 ≤ (yearOfCycle day).1 ∧ (yearOfCycle day).1 ≤ 3 ∧
    0 ≤ (yearOfCycle day).2.1 ∧
    (yearOfCycle day).2.1 < 365 + (yearOfCycle day).2.2.toNat ∧
    (yearOfCycle day).1 * 365 + ((yearOfCycle day).1 + 1) / 4 + (yearOfCycle day).2.1 = day ∧
    ((yearOfCycle day).2.2 = true ↔ (yearOfCycle day).1 = 2) := by
  unfold yearOfCycle
  repeat' split
  all_goals
    simp only [Bool.toNat_true]
    exact ⟨by omega, by omega, by omega, by omega, by omega, by simp⟩

/-- The days of a month, from the table of the days before it. -/
def monthLength (leap : Bool) (month : Nat) : Int :=
  (days leap).tail.getD month (365 + leap.toNat) - (days leap).getD month 0

/-- The month and the day of the month, from the day of the year. -/
theorem monthOf_spec (leap : Bool) : ∀ day < 365 + leap.toNat,
    monthOf leap ((day : Int) + 1) < 12 ∧
      1 ≤ (day : Int) + 1 - (days leap).getD (monthOf leap ((day : Int) + 1)) 0 ∧
      (day : Int) + 1 - (days leap).getD (monthOf leap ((day : Int) + 1)) 0 ≤
        monthLength leap (monthOf leap ((day : Int) + 1)) := by
  cases leap <;> decide +kernel

theorem monthLength_le (leap : Bool) : ∀ month < 12, monthLength leap month ≤ 31 := by
  cases leap <;> decide

/-- Whether a year, counted from 1900, is taken for a leap year: every fourth one is. -/
def fourthYear (year : Int) : Bool := decide ((year - 70) % 4 = 2)

/-- The seconds of a date from 1970 on. -/
theorem gmToTime_since {et : ExtendedTime} (since : 70 ≤ et.tmYear) :
    gmToTime et = ((et.tmYear - 70) * 365 + (et.tmYear - 69) / 4 +
        (days (fourthYear et.tmYear)).getD et.tmMon.toNat 0 + et.tmMday - 1) * 86400 +
      et.tmHour * 3600 + et.tmMin * 60 + et.tmSec := by
  have years : et.tmYear - 70 + 1 = et.tmYear - 69 := by omega
  rw [gmToTime, years, Int.tdiv_eq_ediv_of_nonneg (by omega)]
  rfl

/-- The fields that a moment is broken down to. -/
structure Broken (time : Int) (et : ExtendedTime) : Prop where
  year : 70 ≤ et.tmYear
  mon : 0 ≤ et.tmMon ∧ et.tmMon < 12
  mday : 1 ≤ et.tmMday ∧ et.tmMday ≤ monthLength (fourthYear et.tmYear) et.tmMon.toNat
  hour : 0 ≤ et.tmHour ∧ et.tmHour < 24
  min : 0 ≤ et.tmMin ∧ et.tmMin < 60
  sec : 0 ≤ et.tmSec ∧ et.tmSec < 60
  wday : 0 ≤ et.tmWday ∧ et.tmWday < 7
  week : et.tmWday = (time / 86400 + 4) % 7
  yday : 0 ≤ et.tmYday ∧ et.tmYday < 365 + (fourthYear et.tmYear).toNat
  inYear : et.tmYday = (days (fourthYear et.tmYear)).getD et.tmMon.toNat 0 + et.tmMday - 1
  again : gmToTime et = time

/-- The fields of a moment from 1970 on. -/
theorem timeToGm_broken {time : Int} (since : 0 ≤ time) (usec : Int) :
    Broken time (timeToGm time usec) := by
  have minutesFrom : 0 ≤ time / 60 := by omega
  have hoursFrom : 0 ≤ time / 60 / 60 := by omega
  have daysFrom : 0 ≤ time / 60 / 60 / 24 := by omega
  have weekFrom : 0 ≤ time / 60 / 60 / 24 + 4 := by omega
  have cycleFrom : 0 ≤ time / 60 / 60 / 24 % (4 * 365 + 1) := by omega
  have cycleTo : time / 60 / 60 / 24 % (4 * 365 + 1) < 4 * 365 + 1 := by omega
  have spec := yearOfCycle_spec cycleFrom cycleTo
  simp only [timeToGm, Int.tdiv_eq_ediv_of_nonneg, Int.tmod_eq_emod_of_nonneg, since, minutesFrom,
    hoursFrom, daysFrom, weekFrom]
  generalize yearOfCycle (time / 60 / 60 / 24 % (4 * 365 + 1)) = broken at spec ⊢
  obtain ⟨year, yearDay, leap⟩ := broken
  obtain ⟨yearFrom, yearTo, dayFrom, dayTo, sum, leapYear⟩ := spec
  dsimp only at *
  obtain ⟨day, rfl⟩ := Int.eq_ofNat_of_zero_le dayFrom
  obtain ⟨inYear, first, last⟩ := monthOf_spec leap day (by omega)
  have isLeap : fourthYear (time / 60 / 60 / 24 / (4 * 365 + 1) * 4 + year + 70) = leap := by
    rw [fourthYear]
    cases leap with
    | true =>
      have second := leapYear.mp rfl
      simp only [decide_eq_true_eq]
      omega
    | false =>
      have other : year ≠ 2 := fun second => by simpa using leapYear.mpr second
      simp only [decide_eq_false_iff_not]
      omega
  constructor
  case mday => simpa only [isLeap] using ⟨first, last⟩
  case yday => simpa only [isLeap] using ⟨dayFrom, dayTo⟩
  case inYear =>
    simp only [isLeap, Int.toNat_natCast]
    omega
  case again =>
    rw [gmToTime_since (by dsimp only; omega)]
    simp only [isLeap, Int.toNat_natCast]
    omega
  all_goals
    dsimp only
    omega

namespace Broken

variable {time : Int} {et : ExtendedTime}

theorem mday_le (broken : Broken time et) : 1 ≤ et.tmMday ∧ et.tmMday ≤ 31 := by
  have longest := monthLength_le (fourthYear et.tmYear) et.tmMon.toNat (by have := broken.mon; omega)
  exact ⟨broken.mday.1, broken.mday.2.trans longest⟩

/-- The moment, from the day of the year. -/
theorem time_eq (broken : Broken time et) :
    time = ((et.tmYear - 70) * 365 + (et.tmYear - 69) / 4 + et.tmYday) * 86400 +
      et.tmHour * 3600 + et.tmMin * 60 + et.tmSec := by
  have again := broken.again
  rw [gmToTime_since broken.year] at again
  rw [broken.inYear]
  omega

/-- A moment before 2100 is in a year before 2100. -/
theorem year_lt (broken : Broken time et) (until2100 : time < 4102444800) : et.tmYear < 200 := by
  have total := broken.time_eq
  obtain ⟨least, -⟩ := broken.yday
  obtain ⟨hour, -⟩ := broken.hour
  obtain ⟨min, -⟩ := broken.min
  obtain ⟨sec, -⟩ := broken.sec
  omega

end Broken

end Time

end UnixCommons.Generics
