import Mathlib.Tactic.IntervalCases

/-!
# The Gregorian calendar

Dates and moments of the proleptic Gregorian calendar, and how many days and seconds lie
between the beginning of a first year and a moment. The days are counted year by year and
month by month; `daysBetween_eq` is the closed form of the count of years.
-/

namespace UnixCommons.Gregorian

/-- The leap years. -/
def isLeap (year : Int) : Bool :=
  decide (year % 4 = 0) && (decide (year % 100 ≠ 0) || decide (year % 400 = 0))

def yearLength (year : Int) : Int := if isLeap year then 366 else 365

def monthLengths (leap : Bool) : List Int :=
  [31, if leap then 29 else 28, 31, 30, 31, 30, 31, 31, 30, 31, 30, 31]

/-- The days of some years in succession. -/
def daysBetween (first : Int) : Nat → Int
  | 0 => 0
  | years + 1 => daysBetween first years + yearLength (first + years)

/-- A date, with months and days counted from one, and a time of day. -/
structure Moment where
  year : Int
  month : Int
  day : Int
  hour : Int
  minute : Int
  second : Int
  deriving DecidableEq

namespace Moment

/-- The moment exists, in the first year or later. -/
structure Valid (first : Int) (moment : Moment) : Prop where
  since : first ≤ moment.year
  month : 1 ≤ moment.month ∧ moment.month ≤ 12
  day : 1 ≤ moment.day ∧
    moment.day ≤ (monthLengths (isLeap moment.year)).getD (moment.month - 1).toNat 0
  hour : 0 ≤ moment.hour ∧ moment.hour < 24
  minute : 0 ≤ moment.minute ∧ moment.minute < 60
  second : 0 ≤ moment.second ∧ moment.second < 60

/-- The days of the year before the month. -/
def beforeMonth (moment : Moment) : Int :=
  ((monthLengths (isLeap moment.year)).take (moment.month - 1).toNat).sum

/-- The seconds since the beginning of the first year. -/
def seconds (first : Int) (moment : Moment) : Int :=
  (daysBetween first (moment.year - first).toNat + moment.beforeMonth + moment.day - 1) * 86400 +
    moment.hour * 3600 + moment.minute * 60 + moment.second

end Moment

/-- The leap days before a year, from a common beginning. -/
def leapDays (year : Int) : Int := (year - 1) / 4 - (year - 1) / 100 + (year - 1) / 400

/-- One more year. -/
theorem leapDays_succ (year : Int) : 365 + leapDays (year + 1) = leapDays year + yearLength year := by
  unfold leapDays yearLength isLeap
  simp only [Bool.and_eq_true, Bool.or_eq_true, decide_eq_true_eq]
  split <;> omega

/-- The days of some years, by their leap days. -/
theorem daysBetween_eq (first : Int) (years : Nat) :
    daysBetween first years = 365 * years + leapDays (first + years) - leapDays first := by
  induction years with
  | zero => simp [daysBetween]
  | succ years ih =>
    have next := leapDays_succ (first + years)
    rw [daysBetween]
    rw [Int.add_assoc] at next
    push_cast
    omega

end UnixCommons.Gregorian
