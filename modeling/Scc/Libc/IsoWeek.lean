import Scc.Libc.StrftimeWeeks

/-!
# Weeks of ISO 8601

`isoyear()` and `isoweek()` count from the Monday of the first week of a year, which has its first Thursday. The
sums are those of an `int` here, which C leaves undefined when they overflow, so they are `none` for the last years
of an `int`.
-/

namespace Scc.Libc.IsoWeek

open Scc.Libc.Calendar (INT_MAX daysyear newYear daysmon yearday)
open Scc.Libc.Strftime (Tm THU InRange IsoRight weekday weekYear week)

set_option autoImplicit false

def int (v : Int) : Option Int := if -2 ^ 31 ≤ v ∧ v ≤ INT_MAX then some v else none

def newyear (year : Int) : Option Int := do
  let year ← int (year + (1900 - 1))
  let day ← int (1 + year)
  let day ← int (day + year.tdiv 4)
  let day ← int (day - year.tdiv 100)
  let day ← int (day + year.tdiv 400)
  some (day.tmod 7)

def first (day year : Int) : Option Int := do
  let ny ← newyear year
  if ny = day then some 0
  else if day - ny < 0 then some (7 - (ny - day))
  else some (day - ny)

def isoyear (tm : Tm) : Option Int :=
  if tm.yday < 7 then do
    let monday ← (first THU tm.year).map (· - 3)
    if tm.yday < monday then int (tm.year - 1) else some tm.year
  else if 357 < tm.yday then do
    let year ← int (tm.year + 1)
    let monday ← (first THU year).map (· - 3)
    if 31 + monday ≤ tm.mday then int (tm.year + 1) else some tm.year
  else some tm.year

def isoweek (tm : Tm) : Option Int := do
  let year ← isoyear tm
  let monday ← (first THU year).map (· - 3)
  let yday :=
    if tm.year < year then tm.mday - 31 + monday
    else if year < tm.year then daysyear year + tm.yday
    else tm.yday
  some ((yday - monday).tdiv 7 + 1)

/-- Days are counted from 1 January 1970, which was a Thursday, and weeks begin with Monday. -/
def monday (day : Int) : Int := day - (day + 3) % 7

def firstThursday (year : Int) : Int := newYear year + -newYear year % 7

theorem firstThursday_least (year : Int) : IsLeast {day | newYear year ≤ day ∧ day % 7 = 0} (firstThursday year) := by
  unfold firstThursday
  constructor
  · constructor <;> omega
  · intro day later
    rcases later with ⟨since, thursday⟩
    omega

/-- The week of a day, where the first week of a year is the one with the first Thursday. -/
structure WeekDate (day year number : Int) : Prop where
  counted : monday day = firstThursday year - 3 + 7 * (number - 1)
  positive : 1 ≤ number
  before : monday day < firstThursday (year + 1) - 3

theorem firstThursday_next (year : Int) :
    firstThursday (year + 1) = firstThursday year + 7 * 52 ∨ firstThursday (year + 1) = firstThursday year + 7 * 53 := by
  have next := Calendar.newYear_succ year
  have span := Calendar.daysyear_pos year
  unfold firstThursday
  omega

theorem firstThursday_mono {year year' : Int} (le : year ≤ year') : firstThursday year ≤ firstThursday year' := by
  have := Calendar.newYear_mono le
  unfold firstThursday
  omega

theorem WeekDate.bound {day year number : Int} (date : WeekDate day year number) : number ≤ 53 := by
  have counted := date.counted
  have before := date.before
  have next := firstThursday_next year
  omega

theorem WeekDate.shared {day day' year number : Int} (date : WeekDate day year number)
    (same : monday day' = monday day) : WeekDate day' year number := by
  constructor
  · rw [same]
    exact date.counted
  · exact date.positive
  · rw [same]
    exact date.before

theorem WeekDate.unique {day year number year' number' : Int} (date : WeekDate day year number)
    (date' : WeekDate day year' number') : year' = year ∧ number' = number := by
  have counted := date.counted
  have counted' := date'.counted
  have positive := date.positive
  have positive' := date'.positive
  have before := date.before
  have before' := date'.before
  have sameYear : year' = year := by
    rcases Int.lt_trichotomy year year' with less | same | more
    · have := @firstThursday_mono (year + 1) year' (by omega)
      omega
    · exact same.symm
    · have := @firstThursday_mono (year' + 1) year (by omega)
      omega
  subst sameYear
  constructor
  · rfl
  · omega

theorem WeekDate.next {day day' year number number' : Int} (date : WeekDate day year number)
    (date' : WeekDate day' year number') (after_ : monday day' = monday day + 7) : number' = number + 1 := by
  have counted := date.counted
  have counted' := date'.counted
  omega

/-- The fields of the date agree with each other. -/
structure Consistent (tm : Tm) : Prop where
  since : 0 ≤ tm.year
  mon : 0 ≤ tm.mon ∧ tm.mon < 12
  mday : 1 ≤ tm.mday ∧ tm.mday ≤ daysmon (1900 + tm.year) tm.mon.toNat
  yday : tm.yday = yearday (1900 + tm.year) tm.mon.toNat + tm.mday - 1
  wday : tm.wday = weekday tm.year tm.yday

def dayNumber (tm : Tm) : Int := newYear (1900 + tm.year) + tm.yday

theorem yearday_mono (year : Int) {mon mon' : Nat} (le : mon ≤ mon') : yearday year mon ≤ yearday year mon' := by
  induction le with
  | refl => exact Int.le_refl _
  | @step mon' le ih =>
    have next := Calendar.yearday_succ year mon'
    have days := Calendar.daysmon_pos year mon'
    rw [next]
    omega

theorem yearday_december (year : Int) : yearday year 11 = daysyear year - 31 := by
  have all := Calendar.yearday_year year
  rw [Calendar.yearday_succ] at all
  have days : daysmon year 11 = 31 := rfl
  omega

theorem daysmon_bound (year : Int) (mon : Nat) : daysmon year mon ≤ 31 := by
  have feb : Calendar.FEBDAYS year ≤ 31 := by
    unfold Calendar.FEBDAYS
    split_ifs <;> omega
  unfold daysmon
  split <;> omega

variable {tm : Tm} {year : Int}

theorem Consistent.inside (date : Consistent tm) : 0 ≤ tm.yday ∧ tm.yday < daysyear (1900 + tm.year) := by
  have mon := date.mon
  have mday := date.mday
  have yday := date.yday
  have start := yearday_mono (1900 + tm.year) (Nat.zero_le tm.mon.toNat)
  have finish := @yearday_mono (1900 + tm.year) (tm.mon.toNat + 1) 12 (by omega)
  rw [Calendar.yearday_year, Calendar.yearday_succ] at finish
  have zero : yearday (1900 + tm.year) 0 = 0 := rfl
  omega

theorem Consistent.december (date : Consistent tm) :
    (357 < tm.yday → tm.mon = 11) ∧ (tm.mon = 11 → tm.yday = daysyear (1900 + tm.year) - 32 + tm.mday) := by
  have mon := date.mon
  have mday := date.mday
  have yday := date.yday
  have december := yearday_december (1900 + tm.year)
  have span := Calendar.daysyear_pos (1900 + tm.year)
  constructor
  · intro late
    by_contra other
    have before := @yearday_mono (1900 + tm.year) (tm.mon.toNat + 1) 11 (by omega)
    rw [Calendar.yearday_succ] at before
    omega
  · intro last
    have number : tm.mon.toNat = 11 := by omega
    rw [number, december] at yday
    omega

theorem Consistent.inRange (date : Consistent tm) :
    InRange (1900 + tm.year) { tm with sec := 0, min := 0, hour := 0, gmtoff := 0 } := by
  have mon := date.mon
  have mday := date.mday
  have most := daysmon_bound (1900 + tm.year) tm.mon.toNat
  have inside := date.inside
  have span := Calendar.daysyear_pos (1900 + tm.year)
  have since := date.since
  have wday := date.wday
  have week : 0 ≤ tm.wday ∧ tm.wday ≤ 6 := by
    rw [wday]
    unfold weekday
    omega
  constructor <;> dsimp only <;> omega

theorem week_date (date : Consistent tm) : WeekDate (dayNumber tm) (1900 + weekYear tm) (week tm) := by
  have inside := date.inside
  have before := Calendar.newYear_succ (1900 + tm.year - 1)
  have next := Calendar.newYear_succ (1900 + tm.year)
  have later := Calendar.newYear_succ (1900 + tm.year + 1)
  have span := Calendar.daysyear_pos (1900 + tm.year - 1)
  have span' := Calendar.daysyear_pos (1900 + tm.year)
  have span'' := Calendar.daysyear_pos (1900 + tm.year + 1)
  rw [Int.sub_add_cancel] at before
  have thursday : Strftime.thursday tm = monday (dayNumber tm) + 3 - newYear (1900 + tm.year) := by
    unfold Strftime.thursday monday dayNumber weekday
    omega
  have last : 1900 + (tm.year - 1) = 1900 + tm.year - 1 := by omega
  have following : 1900 + (tm.year + 1) = 1900 + tm.year + 1 := by omega
  have whole : (monday (dayNumber tm) + 3) % 7 = 0 := by
    unfold monday
    omega
  have back : dayNumber tm - 6 ≤ monday (dayNumber tm) := by
    unfold monday
    omega
  have forth : monday (dayNumber tm) ≤ dayNumber tm := by
    unfold monday
    omega
  have day : dayNumber tm = newYear (1900 + tm.year) + tm.yday := rfl
  unfold weekYear week
  rw [thursday]
  split_ifs with early late
  · rw [last]
    constructor
    · unfold firstThursday
      omega
    · omega
    · rw [Int.sub_add_cancel]
      unfold firstThursday
      omega
  · rw [following]
    constructor
    · unfold firstThursday
      omega
    · omega
    · unfold firstThursday
      omega
  · constructor
    · unfold firstThursday
      omega
    · omega
    · unfold firstThursday
      omega

/-- The largest sum of `_newyear()` is an `int`. -/
def Fits (year : Int) : Prop := 1 + (year + 1899) + (year + 1899) / 4 ≤ INT_MAX

theorem int_eq {v : Int} (lower : -2 ^ 31 ≤ v) (upper : v ≤ INT_MAX) : int v = some v := if_pos ⟨lower, upper⟩

theorem int_over {v : Int} (large : INT_MAX < v) : int v = none := by
  unfold int
  rw [if_neg]
  omega

theorem newyear_fits (since : -1 ≤ year) (fits : Fits year) : newyear year = some (Calendar.newyear year) := by
  have quarter : (year + (1900 - 1)).tdiv 4 = (year + (1900 - 1)) / 4 := Int.tdiv_eq_ediv_of_nonneg (by omega)
  have century : (year + (1900 - 1)).tdiv 100 = (year + (1900 - 1)) / 100 := Int.tdiv_eq_ediv_of_nonneg (by omega)
  have cycle : (year + (1900 - 1)).tdiv 400 = (year + (1900 - 1)) / 400 := Int.tdiv_eq_ediv_of_nonneg (by omega)
  unfold Fits INT_MAX at fits
  have shifted : int (year + (1900 - 1)) = some (year + (1900 - 1)) := int_eq (by omega) (by unfold INT_MAX; omega)
  unfold newyear Calendar.newyear
  rw [shifted]
  simp only [Option.bind_eq_bind, Option.bind_some]
  rw [int_eq (by omega) (by unfold INT_MAX; omega), Option.bind_some, quarter,
    int_eq (by omega) (by unfold INT_MAX; omega), Option.bind_some, century,
    int_eq (by omega) (by unfold INT_MAX; omega), Option.bind_some, cycle,
    int_eq (by omega) (by unfold INT_MAX; omega), Option.bind_some]

theorem newyear_over (since : -1 ≤ year) (large : ¬ Fits year) : newyear year = none := by
  have quarter : (year + (1900 - 1)).tdiv 4 = (year + (1900 - 1)) / 4 := Int.tdiv_eq_ediv_of_nonneg (by omega)
  unfold Fits at large
  unfold newyear
  by_cases shifted : INT_MAX < year + (1900 - 1)
  · rw [int_over shifted]
    rfl
  · rw [int_eq (by omega) (by omega)]
    simp only [Option.bind_eq_bind, Option.bind_some]
    by_cases one : INT_MAX < 1 + (year + (1900 - 1))
    · rw [int_over one]
      rfl
    · rw [int_eq (by omega) (by omega), Option.bind_some, quarter, int_over (by omega)]
      rfl

theorem first_fits (day : Int) (since : -1 ≤ year) (fits : Fits year) :
    first day year = some (Strftime.first day year) := by
  unfold first Strftime.first
  rw [newyear_fits since fits]
  dsimp only [Option.bind_eq_bind, Option.bind_some]
  split_ifs <;> rfl

theorem first_over (day : Int) (since : -1 ≤ year) (large : ¬ Fits year) : first day year = none := by
  unfold first
  rw [newyear_over since large]
  rfl

theorem Fits.mono {year year' : Int} (le : year ≤ year') (fits : Fits year') : Fits year := by
  unfold Fits at *
  omega

theorem Fits.small (fits : Fits year) (since : 0 ≤ year) : year + 1 ≤ INT_MAX := by
  unfold Fits at fits
  omega

/-- The years that are passed to `first()`. -/
def Counted (tm : Tm) : Prop := Fits tm.year ∧ (357 < tm.yday → Fits (tm.year + 1))

theorem isoyear_fits (since : 0 ≤ tm.year) (counted : Counted tm) :
    isoyear tm = some (Strftime.isoyear tm) := by
  rcases counted with ⟨fits, next⟩
  have small := fits.small since
  unfold isoyear Strftime.isoyear
  rw [first_fits THU (by omega) fits, int_eq (by omega) small, int_eq (by omega) (by omega)]
  by_cases start : tm.yday < 7
  · rw [if_pos start, if_pos start]
    dsimp only [Option.map_some, Option.bind_eq_bind, Option.bind_some]
    split_ifs <;> rfl
  · rw [if_neg start, if_neg start]
    by_cases ends : 357 < tm.yday
    · rw [if_pos ends, if_pos ends]
      dsimp only [Option.bind_eq_bind, Option.bind_some]
      rw [first_fits THU (by omega) (next ends)]
      dsimp only [Option.map_some, Option.bind_some]
      split_ifs <;> rfl
    · rw [if_neg ends, if_neg ends]

theorem isoweek_fits (since : 0 ≤ tm.year) (counted : Counted tm) :
    isoweek tm = some (Strftime.isoweek tm) := by
  have year : -1 ≤ Strftime.isoyear tm ∧ Fits (Strftime.isoyear tm) := by
    rcases Strftime.isoyear_cases tm with same | ⟨start, early, before⟩ | ⟨ends, late, after_⟩
    · rw [same]
      exact ⟨by omega, counted.1⟩
    · rw [before]
      exact ⟨by omega, Fits.mono (by omega) counted.1⟩
    · rw [after_]
      exact ⟨by omega, counted.2 ends⟩
  unfold isoweek Strftime.isoweek
  rw [isoyear_fits since counted]
  dsimp only [Option.bind_eq_bind, Option.bind_some]
  rw [first_fits THU year.1 year.2]
  rfl

theorem isoweek_over (since : 0 ≤ tm.year) (large : ¬ Counted tm) : isoweek tm = none := by
  unfold Counted at large
  by_cases start : tm.yday < 7
  · have over_ : ¬ Fits tm.year := by
      intro fits
      exact large ⟨fits, by omega⟩
    unfold isoweek isoyear
    rw [if_pos start, first_over THU (by omega) over_]
    rfl
  · by_cases ends : 357 < tm.yday
    · have over_ : ¬ Fits (tm.year + 1) := by
        intro fits
        exact large ⟨Fits.mono (by omega) fits, fun _ => fits⟩
      unfold isoweek isoyear
      rw [if_neg start, if_pos ends]
      by_cases last : INT_MAX < tm.year + 1
      · rw [int_over last]
        rfl
      · rw [int_eq (by omega) (by omega)]
        dsimp only [Option.bind_eq_bind, Option.bind_some]
        rw [first_over THU (by omega) over_]
        rfl
    · have over_ : ¬ Fits tm.year := by
        intro fits
        exact large ⟨fits, by omega⟩
      unfold isoweek isoyear
      rw [if_neg start, if_neg ends]
      dsimp only [Option.bind_eq_bind, Option.bind_some]
      rw [first_over THU (by omega) over_]
      rfl

theorem isoRight_iff (date : Consistent tm) : IsoRight tm ↔ ¬ (tm.mon = 11 ∧ 28 ≤ tm.mday ∧ tm.wday = 0) := by
  have since := date.since
  have inside := date.inside
  have december := date.december
  have mday := date.mday
  have most := daysmon_bound (1900 + tm.year) tm.mon.toNat
  have span := Calendar.daysyear_pos (1900 + tm.year)
  have next := Strftime.weekday_succ tm.year
  have here := Strftime.weekday_add tm.year tm.yday
  have monday := @Strftime.first_eq THU (tm.year + 1) (by omega) (by decide) (by decide)
  have range : 0 ≤ weekday tm.year 0 ∧ weekday tm.year 0 < 7 := by
    unfold weekday
    omega
  unfold IsoRight
  rw [monday, next, date.wday, here]
  unfold THU
  generalize weekday tm.year 0 = w at *
  generalize daysyear (1900 + tm.year) = span_ at *
  by_cases early : tm.yday ≤ 357
  · simp only [early, true_or, true_iff]
    omega
  · have last := december.1 (by omega)
    have place := december.2 last
    simp only [early, false_or, last, true_and]
    omega

/-- Both functions return the week of the date. -/
def Right (tm : Tm) : Prop :=
  ∃ year number, isoyear tm = some year ∧ isoweek tm = some number ∧
    WeekDate (dayNumber tm) (1900 + year) number ∧ 1 ≤ number ∧ number ≤ 53

/-- The sums are not too large, and it is not a Sunday from 28 to 31 December. -/
def Holds (tm : Tm) : Prop := Counted tm ∧ ¬ (tm.mon = 11 ∧ 28 ≤ tm.mday ∧ tm.wday = 0)

theorem right_iff (date : Consistent tm) : Right tm ↔ Holds tm := by
  let tm' : Tm := { tm with sec := 0, min := 0, hour := 0, gmtoff := 0 }
  have isoyearRight : Strftime.isoyear tm = weekYear tm ↔ IsoRight tm := @Strftime.isoyear_iff _ tm' date.inRange
  have isoweekRight : Strftime.isoweek tm = week tm ↔ IsoRight tm := @Strftime.isoweek_iff _ tm' date.inRange
  have calendar := week_date date
  by_cases counted : Counted tm
  · unfold Right Holds
    rw [isoyear_fits date.since counted, isoweek_fits date.since counted, ← isoRight_iff date]
    constructor
    · intro right
      rcases right with ⟨year, number, sameYear, sameNumber, weekDate, positive, bound⟩
      have unique := weekDate.unique calendar
      refine ⟨counted, isoyearRight.1 ?_⟩
      rw [Option.some.inj sameYear]
      omega
    · intro holds
      rcases holds with ⟨fits, right⟩
      rw [isoyearRight.2 right, isoweekRight.2 right]
      exact ⟨weekYear tm, week tm, rfl, rfl, calendar, calendar.positive, calendar.bound⟩
  · constructor
    · intro right
      rcases right with ⟨year, number, sameYear, sameNumber, rest⟩
      rw [isoweek_over date.since counted] at sameNumber
      contradiction
    · intro holds
      exact absurd holds.1 counted

/-- `isoyear()` and `isoweek()` give the week of a date, whose days have the same week, and one less than the days of
the following week. -/
theorem week_iff {tm : Tm} (date : Consistent tm) : (Right tm ↔ Holds tm) ∧
      ∀ tm', Consistent tm' → Holds tm → Holds tm' →
        (monday (dayNumber tm') = monday (dayNumber tm) → isoyear tm' = isoyear tm ∧ isoweek tm' = isoweek tm) ∧
          (monday (dayNumber tm') = monday (dayNumber tm) + 7 → isoyear tm' = isoyear tm →
            isoweek tm' = (isoweek tm).map (· + 1)) := by
  refine ⟨right_iff date, ?_⟩
  intro tm' date' holds holds'
  obtain ⟨year, number, isYear, isNumber, weekDate, positive, bound⟩ := (right_iff date).2 holds
  obtain ⟨year', number', isYear', isNumber', weekDate', positive', bound'⟩ := (right_iff date').2 holds'
  rw [isYear, isNumber, isYear', isNumber']
  constructor
  · intro same
    have unique := (weekDate.shared same).unique weekDate'
    have sameYear : year' = year := by omega
    rw [sameYear, unique.2]
    exact ⟨rfl, rfl⟩
  · intro after_ sameYear
    rw [Option.some.inj sameYear] at weekDate'
    rw [weekDate.next weekDate' after_]
    rfl

def newYearsDay : Tm := ⟨0, 0, 0, 1, 0, 121, 5, 0, 0, []⟩

theorem newYearsDay_week : Right newYearsDay := by
  have date : Consistent newYearsDay := by
    constructor <;> decide
  apply (week_iff date).1.2
  unfold Holds Counted Fits
  decide

def lastSunday : Tm := ⟨0, 0, 0, 28, 11, 114, 0, 361, 0, []⟩

theorem lastSunday_week : Consistent lastSunday ∧ ¬ Right lastSunday := by
  have date : Consistent lastSunday := by
    constructor <;> decide
  refine ⟨date, ?_⟩
  rw [right_iff date]
  intro holds
  exact absurd holds.2 (by decide)

end Scc.Libc.IsoWeek
