import UnixCommons.Generics.Time
import UnixCommons.Library.Gregorian

/-!
# Broken down moments and the calendar

The fields `time_to_gm` makes are within their ranges and agree with each other. They are
those of the Gregorian calendar up to the end of February 2100: the year 2100 is taken for
a leap year, and from then on the dates are behind.
-/

namespace UnixCommons.Generics.Time

open Gregorian

/-- Every moment from 1970 on is broken down to fields within their ranges that agree with
each other and are put together again; the day of the week advances by one a day. -/
theorem timeToGm_consistent (time usec : Int) (since : 0 ≤ time) :
    Broken time (timeToGm time usec) ∧
      (timeToGm (time + 86400) usec).tmWday = ((timeToGm time usec).tmWday + 1) % 7 := by
  have broken := timeToGm_broken since usec
  have tomorrow := timeToGm_broken (show 0 ≤ time + 86400 by omega) usec
  refine ⟨broken, ?_⟩
  rw [tomorrow.week, broken.week]
  omega

theorem timeToGm_consistent_million :
    (timeToGm 1086400 0).tmWday = ((timeToGm 1000000 0).tmWday + 1) % 7 :=
  (timeToGm_consistent 1000000 0 (by decide)).2

/-! ## The calendar -/

/-- The date and the time of day that the fields stand for. -/
def momentOf (et : ExtendedTime) : Moment :=
  ⟨et.tmYear + 1900, et.tmMon + 1, et.tmMday, et.tmHour, et.tmMin, et.tmSec⟩

/-- A leap day more than there is comes before all months from March on. -/
theorem days_sub_months (four leap : Bool) : ∀ mon < 12,
    (days four).getD mon 0 - ((monthLengths leap).take mon).sum =
      if 2 ≤ mon then (four.toNat : Int) - leap.toNat else 0 := by
  cases four <;> cases leap <;> decide

theorem monthLength_eq {leap : Bool} : ∀ mon < 12,
    monthLength leap mon = (monthLengths leap).getD mon 0 := by
  cases leap <;> decide

/-- From 1970 to 2099 the fourth years are the leap years. -/
theorem fourthYear_eq_isLeap {year : Int} (since : 70 ≤ year) (until2100 : year < 200) :
    fourthYear year = isLeap (year + 1900) := by
  rw [Bool.eq_iff_iff]
  simp only [fourthYear, isLeap, Bool.and_eq_true, Bool.or_eq_true, decide_eq_true_eq]
  omega

/-- The days by which the fields are counted too late: those of the century years that are
no leap years. -/
def skippedDays (et : ExtendedTime) : Int :=
  (et.tmYear + 1899) / 100 - (et.tmYear + 1899) / 400 - 15 +
    if 2 ≤ et.tmMon.toNat then ((fourthYear et.tmYear).toNat : Int) - (isLeap (et.tmYear + 1900)).toNat
    else 0

variable {et : ExtendedTime}

/-- The seconds of a date, with the leap days that are not skipped. -/
theorem gmToTime_eq (valid : (momentOf et).Valid 1970) :
    gmToTime et = (momentOf et).seconds 1970 + skippedDays et * 86400 := by
  have since : 1970 ≤ et.tmYear + 1900 := valid.since
  obtain ⟨first, last⟩ : 1 ≤ et.tmMon + 1 ∧ et.tmMon + 1 ≤ 12 := valid.month
  have months := days_sub_months (fourthYear et.tmYear) (isLeap (et.tmYear + 1900)) et.tmMon.toNat
    (by omega)
  rw [gmToTime_since (by omega), skippedDays]
  simp only [Moment.seconds, Moment.beforeMonth, momentOf, daysBetween_eq, leapDays, Int.add_sub_cancel]
  omega

/-- No day is counted too late exactly before March 2100. -/
theorem skippedDays_eq_zero (since : 70 ≤ et.tmYear) (first : 0 ≤ et.tmMon) :
    skippedDays et = 0 ↔ et.tmYear < 200 ∨ (et.tmYear = 200 ∧ et.tmMon < 2) := by
  have fourth : (fourthYear et.tmYear = true) ↔ (et.tmYear + 1900) % 4 = 0 := by
    simp only [fourthYear, decide_eq_true_eq]
    omega
  have leap : (isLeap (et.tmYear + 1900) = true) ↔ (et.tmYear + 1900) % 4 = 0 ∧
      ((et.tmYear + 1900) % 100 ≠ 0 ∨ (et.tmYear + 1900) % 400 = 0) := by
    simp only [isLeap, Bool.and_eq_true, Bool.or_eq_true, decide_eq_true_eq]
  unfold skippedDays
  cases isFourth : fourthYear et.tmYear <;> cases isLeapYear : isLeap (et.tmYear + 1900) <;>
    simp only [isFourth, isLeapYear, Bool.toNat_true, Bool.toNat_false, true_iff, false_iff,
      Bool.false_eq_true] at fourth leap ⊢ <;>
    split_ifs <;> omega

/-- The seconds are exact before March 2100. -/
theorem gmToTime_gregorian_iff (valid : (momentOf et).Valid 1970) :
    gmToTime et = (momentOf et).seconds 1970 ↔
      et.tmYear < 200 ∨ (et.tmYear = 200 ∧ et.tmMon < 2) := by
  have since : 1970 ≤ et.tmYear + 1900 := valid.since
  have first : 1 ≤ et.tmMon + 1 := valid.month.1
  rw [gmToTime_eq valid, ← skippedDays_eq_zero (by omega) (by omega)]
  omega

/-- The days of 2100 that the calendar has before March. -/
theorem before_march {mon : Nat} {mday : Int} (inYear : mon < 12) (last : mday ≤ monthLength true mon) :
    (days true).getD mon 0 + mday - 1 < 59 ∧ 1 ≤ mday ↔
      mon < 2 ∧ 1 ≤ mday ∧ mday ≤ (monthLengths false).getD mon 0 := by
  interval_cases mon <;> simp [days, monthLength, monthLengths] at last ⊢ <;> omega

namespace Broken

variable {time : Int} {et : ExtendedTime}

/-- The moments before March 2100, by their fields. -/
theorem untilMarch_iff (broken : Broken time et) :
    time < 4107542400 ↔ et.tmYear < 200 ∨ (et.tmYear = 200 ∧ et.tmMon < 2 ∧
      et.tmMday ≤ (monthLengths false).getD et.tmMon.toNat 0) := by
  have total := broken.time_eq
  obtain ⟨monFirst, monLast⟩ := broken.mon
  obtain ⟨mdayFirst, mdayLast⟩ := broken.mday
  obtain ⟨ydayFirst, ydayLast⟩ := broken.yday
  obtain ⟨hourFirst, hourLast⟩ := broken.hour
  obtain ⟨minFirst, minLast⟩ := broken.min
  obtain ⟨secFirst, secLast⟩ := broken.sec
  have leapDay : (fourthYear et.tmYear).toNat ≤ 1 := Bool.toNat_le _
  have byYday : time < 4107542400 ↔ et.tmYear < 200 ∨ (et.tmYear = 200 ∧ et.tmYday < 59) := by
    omega
  rw [byYday]
  refine or_congr_right (and_congr_right fun year => ?_)
  have isFourth : fourthYear et.tmYear = true := by rw [year]; rfl
  rw [isFourth] at mdayLast
  have days := before_march (by omega) mdayLast
  rw [broken.inYear, isFourth]
  omega

/-- Up to 2100 the fields are a date of the calendar unless they are a 29th of February
2100. -/
theorem valid_iff (broken : Broken time et) (until2100 : et.tmYear ≤ 200) :
    (momentOf et).Valid 1970 ↔ et.tmYear < 200 ∨
      et.tmMday ≤ (monthLengths false).getD et.tmMon.toNat 0 := by
  have since := broken.year
  obtain ⟨monFirst, monLast⟩ := broken.mon
  have dayFits : et.tmMday ≤ (monthLengths (isLeap (et.tmYear + 1900))).getD et.tmMon.toNat 0 ↔
      et.tmYear < 200 ∨ et.tmMday ≤ (monthLengths false).getD et.tmMon.toNat 0 := by
    rcases Int.lt_or_le et.tmYear 200 with before | from2100
    · rw [← fourthYear_eq_isLeap since before, ← monthLength_eq _ (by omega)]
      exact ⟨fun _ => .inl before, fun _ => broken.mday.2⟩
    · have year : et.tmYear = 200 := Int.le_antisymm until2100 from2100
      have notLeap : isLeap (et.tmYear + 1900) = false := by rw [year]; rfl
      rw [notLeap, or_iff_right (by omega)]
  have mon : (et.tmMon + 1 - 1).toNat = et.tmMon.toNat := by rw [Int.add_sub_cancel]
  rw [← dayFits, ← mon]
  constructor
  · exact fun valid => valid.day.2
  · intro fits
    refine ⟨?_, ⟨?_, ?_⟩, ⟨broken.mday.1, fits⟩, broken.hour, broken.min, broken.sec⟩
    all_goals
      dsimp only [momentOf]
      omega

end Broken

/-- The fields are those of the calendar exactly before March 2100. -/
theorem timeToGm_gregorian_iff {time : Int} (since : 0 ≤ time) {usec : Int} :
    ((momentOf (timeToGm time usec)).Valid 1970 ∧
        (momentOf (timeToGm time usec)).seconds 1970 = time) ↔ time < 4107542400 := by
  have broken := timeToGm_broken since usec
  rw [broken.untilMarch_iff]
  constructor
  · rintro ⟨valid, same⟩
    rcases (gmToTime_gregorian_iff valid).mp (broken.again.trans same.symm) with early | ⟨year, february⟩
    · exact .inl early
    · rcases (broken.valid_iff year.le).mp valid with early | fits
      · exact .inl early
      · exact .inr ⟨year, february, fits⟩
  · intro untilMarch
    have valid : (momentOf (timeToGm time usec)).Valid 1970 := by
      rcases untilMarch with early | ⟨year, -, fits⟩
      · exact (broken.valid_iff early.le).mpr (.inl early)
      · exact (broken.valid_iff year.le).mpr (.inr fits)
    have same := (gmToTime_gregorian_iff valid).mpr
      (untilMarch.imp_right fun late => ⟨late.1, late.2.1⟩)
    exact ⟨valid, same.symm.trans broken.again⟩

/-- `time_to_gm` gives the Gregorian date and time of a moment from 1970 on exactly before
March 2100, and `gm_to_time` gives the seconds of a Gregorian date from 1970 on exactly for
the dates before March 2100. -/
theorem gregorian_until_march (time usec : Int) (since : 0 ≤ time) (et : ExtendedTime)
    (valid : (momentOf et).Valid 1970) :
    (((momentOf (timeToGm time usec)).Valid 1970 ∧
        (momentOf (timeToGm time usec)).seconds 1970 = time) ↔ time < 4107542400) ∧
      (gmToTime et = (momentOf et).seconds 1970 ↔
        et.tmYear + 1900 < 2100 ∨ (et.tmYear + 1900 = 2100 ∧ et.tmMon + 1 < 3)) := by
  refine ⟨timeToGm_gregorian_iff since, ?_⟩
  rw [gmToTime_gregorian_iff valid]
  omega

/-- The first of March 2100 is taken for a 29th of February. -/
theorem march_2100 :
    momentOf (timeToGm 4107542400 0) = ⟨2100, 2, 29, 0, 0, 0⟩ ∧
      (Moment.mk 2100 3 1 0 0 0).seconds 1970 = 4107542400 ∧
      gmToTime ⟨200, 2, 1, 0, 0, 0, 0, 0, 0⟩ = 4107542400 + 86400 := by
  decide +kernel

/-- The first of March 2000 is the day behind a leap day for both. -/
theorem march_2000 :
    ((momentOf (timeToGm 951868800 0)).Valid 1970 ∧
        (momentOf (timeToGm 951868800 0)).seconds 1970 = 951868800) ∧
      gmToTime ⟨100, 2, 1, 0, 0, 0, 3, 60, 0⟩ = (Moment.mk 2000 3 1 0 0 0).seconds 1970 := by
  have march : (momentOf ⟨100, 2, 1, 0, 0, 0, 3, 60, 0⟩).Valid 1970 :=
    ⟨by decide, by decide, by decide, by decide, by decide, by decide⟩
  obtain ⟨toGm, toTime⟩ := gregorian_until_march 951868800 0 (by decide) _ march
  exact ⟨toGm.mpr (by decide), toTime.mpr (.inl (by decide))⟩

end UnixCommons.Generics.Time
