import Mathlib.Tactic.Linarith
import Mathlib.Tactic.Ring

/-!
# Calendar time

`gmtime()` goes through the years from 1970 on and through the months of the last one, and `mktime()`
adds them up again. `localtime()` asks `gmtime()` for the fields that decide about daylight saving, and
again for those of the shifted time. All of them return the same static `struct tm`.
-/

namespace Scc.Libc.Calendar

set_option autoImplicit false

def INT_MAX : Int := 2 ^ 31 - 1

def EPOCH : Int := 1970
def MINYEAR : Int := 1900
def MAXYEAR : Int := 9999
def SECMIN : Int := 60
def SECHOUR : Int := 60 * SECMIN
def SECDAY : Int := 24 * SECHOUR
def THU : Int := 4

structure Tm where
  sec : Int
  min : Int
  hour : Int
  mday : Int
  mon : Nat
  year : Int
  wday : Int
  yday : Int
  isdst : Int
  zone : String
  gmtoff : Int
deriving DecidableEq

def daysyear (year : Int) : Int :=
  if year % 4 ≠ 0 then 365
  else if year % 100 = 0 ∧ year % 400 ≠ 0 then 365
  else 366

def FEBDAYS (year : Int) : Int := if daysyear year = 366 then 29 else 28

/-- `_daysmon`, whose February is set for the year before it is used. -/
def daysmon (year : Int) : Nat → Int
  | 1 => FEBDAYS year
  | 3 | 5 | 8 | 10 => 30
  | _ => 31

variable (year : Int)

theorem daysyear_pos : 365 ≤ daysyear year ∧ daysyear year ≤ 366 := by
  unfold daysyear
  split_ifs <;> omega

theorem daysmon_pos (mon : Nat) : 28 ≤ daysmon year mon := by
  have feb : 28 ≤ FEBDAYS year := by
    unfold FEBDAYS
    split_ifs <;> omega
  unfold daysmon
  split <;> omega

/-- The loop over the years, with the day in the last one; there is no result when the year is larger
than an `int`. -/
def years (i day : Int) : Option (Int × Int) :=
  if daysyear i ≤ day then
    if i = INT_MAX then none else years (i + 1) (day - daysyear i)
  else some (i, day)
termination_by day.toNat
decreasing_by
  have := daysyear_pos i
  omega

/-- The loop over the months, unless it leaves the table. -/
def months (year : Int) (i : Nat) (day : Int) : Option (Nat × Int) :=
  if i < 12 then
    if daysmon year i ≤ day then months year (i + 1) (day - daysmon year i) else some (i, day)
  else none
termination_by 12 - i

def gmtime (t : Int) : Option Tm := do
  let sec := t.tmod SECDAY
  let min := sec.tdiv 60
  let day := t.tdiv SECDAY
  let (year, yday) ← years EPOCH day
  let (mon, mday) ← months year 0 yday
  some
    { sec := sec.tmod 60, min := min.tmod 60, hour := min.tdiv 60, mday := mday + 1, mon, year := year - 1900,
      wday := (day + THU).tmod 7, yday, isdst := 0, zone := "GMT", gmtoff := 0 }

def norm (v n max : Int) : Option (Int × Int) :=
  let under : Option (Int × Int) :=
    if v < 0 then
      let d := (-v).tdiv max + 1
      if INT_MAX - d < n then none else some (v + d * max, n - d)
    else some (v, n)
  under.bind fun (v, n) =>
    if max ≤ v then
      let d := v.tdiv max
      if n < -2 ^ 31 + d then none else some (v - d * max, n + d)
    else some (v, n)

/-- The loop that adds the days of earlier months. -/
def earlier (year : Int) (mon : Nat) (day : Int) : Option (Int × Nat × Int) :=
  if day < 1 then
    if mon = 0 then
      if year = MINYEAR then none else earlier (year - 1) 11 (day + daysmon (year - 1) 11)
    else earlier year (mon - 1) (day + daysmon year (mon - 1))
  else some (year, mon, day)
termination_by (1 - day).toNat
decreasing_by
  · have := daysmon_pos (year - 1) 11
    omega
  · have := daysmon_pos year (mon - 1)
    omega

/-- The loop that takes the days of the months away. -/
def later (year : Int) (mon : Nat) (day : Int) : Option (Int × Nat × Int) :=
  if daysmon year mon < day then
    if mon = 11 then
      if year = MAXYEAR then none else later (year + 1) 0 (day - daysmon year mon)
    else later year (mon + 1) (day - daysmon year mon)
  else some (year, mon, day)
termination_by day.toNat
decreasing_by
  · have := daysmon_pos year mon
    omega
  · have := daysmon_pos year mon
    omega

def yearday (year : Int) (mon : Nat) : Int := ((List.range mon).map (daysmon year)).sum

def newyear (year : Int) : Int :=
  let year := year + (1900 - 1)
  (1 + year + year.tdiv 4 - year.tdiv 100 + year.tdiv 400).tmod 7

def normalize (tm : Tm) : Option Tm := do
  let (sec, min) ← norm tm.sec tm.min 60
  let (min, hour) ← norm min tm.hour 60
  let (hour, mday) ← norm hour tm.mday 24
  let (mon, year) ← norm tm.mon tm.year 12
  if year < 0 then none
  else if MAXYEAR < MINYEAR + year then none
  else
    let (year, mon, day) ← earlier (MINYEAR + year) mon.toNat mday
    let (year, mon, day) ← later year mon day
    let yday := yearday year mon + day - 1
    some
      { tm with
        sec, min, hour, mon, mday := day, year := year - MINYEAR, yday,
        wday := (newyear (year - MINYEAR) + yday).tmod 7, isdst := 0 }

def systime (tm : Tm) : Int :=
  let year := tm.year + MINYEAR
  ((List.range (year - EPOCH).toNat).map fun n : Nat => daysyear (EPOCH + n) * SECDAY).sum +
    ((List.range tm.mon).map fun i => daysmon year i * SECDAY).sum +
    tm.sec + tm.min * SECMIN + tm.hour * SECHOUR + (tm.mday - 1) * SECDAY

def mktime (tm : Tm) : Int := ((normalize tm).map systime).getD (-1)

/-- What `_tzset()` makes of the environment, with the offsets of the known zones put in. -/
structure Tz where
  stdoff : Int
  dstoff : Int
  start : Int
  last : Int
  julian : Bool
  stdname : String
  dstname : String

/-- The test for daylight saving, on the fields of universal time. -/
def Daylight (tz : Tz) (tm : Tm) : Prop :=
  let yday := if (tz.julian ∧ tm.yday + 1 < 60) ∨ FEBDAYS tm.year < 29 then tm.yday + 1 else tm.yday
  tz.start ≤ yday ∧ yday ≤ tz.last ∧ 2 ≤ tm.hour

instance (tz : Tz) (tm : Tm) : Decidable (Daylight tz tm) := inferInstanceAs (Decidable (_ ∧ _ ∧ _))

/-- The offset, the flag and the name that are assigned before the second call of `gmtime()`. -/
def zone (tz : Tz) (tm : Tm) : Int × Int × String :=
  if Daylight tz tm then (tz.dstoff, 1, tz.dstname) else (tz.stdoff, 0, tz.stdname)

/-- `gmtime()` assigns all fields of the static structure again. -/
def localtime (tz : Tz) (t : Int) : Option Tm :=
  (gmtime t).bind fun tm => gmtime (t + (zone tz tm).1)

/-- The days from the first year to the start of a year. -/
def daysBefore (year : Int) : Int := 365 * (year - 1) + (year - 1) / 4 - (year - 1) / 100 + (year - 1) / 400

/-- The days from the epoch to the start of a year. -/
def newYear (year : Int) : Int := daysBefore year - daysBefore 1970

/-- The fields are in their ranges and denote an instant. -/
structure Denotes (tm : Tm) (t : Int) : Prop where
  sec : 0 ≤ tm.sec ∧ tm.sec < 60
  min : 0 ≤ tm.min ∧ tm.min < 60
  hour : 0 ≤ tm.hour ∧ tm.hour < 24
  mon : tm.mon < 12
  mday : 1 ≤ tm.mday ∧ tm.mday ≤ daysmon (tm.year + 1900) tm.mon
  yday : 0 ≤ tm.yday ∧ tm.yday < daysyear (tm.year + 1900)
  monthday : tm.yday = yearday (tm.year + 1900) tm.mon + tm.mday - 1
  wday : 0 ≤ tm.wday ∧ tm.wday < 7 ∧ tm.wday = (newYear (tm.year + 1900) + tm.yday + 4) % 7
  instant : t = (newYear (tm.year + 1900) + tm.yday) * 86400 + tm.hour * 3600 + tm.min * 60 + tm.sec

theorem daysBefore_succ : daysBefore (year + 1) = daysBefore year + daysyear year := by
  unfold daysBefore daysyear
  split_ifs <;> omega

theorem daysBefore_mono {year year' : Int} (le : year ≤ year') : daysBefore year ≤ daysBefore year' := by
  unfold daysBefore
  omega

theorem newYear_succ : newYear (year + 1) = newYear year + daysyear year := by
  have := daysBefore_succ year
  unfold newYear
  omega

theorem newYear_mono {year year' : Int} (le : year ≤ year') : newYear year ≤ newYear year' := by
  have := daysBefore_mono le
  unfold newYear
  omega

theorem years_spec (i day : Int) (start : 0 ≤ day) (small : i ≤ INT_MAX) :
    match years i day with
    | some (year, yday) => i ≤ year ∧ year ≤ INT_MAX ∧ 0 ≤ yday ∧ yday < daysyear year ∧
        newYear i + day = newYear year + yday
    | none => newYear (INT_MAX + 1) ≤ newYear i + day := by
  induction i, day using years.induct with
  | case1 day more =>
    rw [years, if_pos more, if_pos rfl]
    have := newYear_succ INT_MAX
    dsimp only
    omega
  | case2 i day more other ih =>
    rw [years, if_pos more, if_neg other]
    have spec := ih (by omega) (by omega)
    have next := newYear_succ i
    cases found : years (i + 1) (day - daysyear i) with
    | none =>
      rw [found] at spec
      dsimp only at spec ⊢
      omega
    | some r =>
      rw [found] at spec
      dsimp only at spec ⊢
      omega
  | case3 i day fits =>
    rw [years, if_neg fits]
    dsimp only
    omega

theorem yearday_succ (mon : Nat) : yearday year (mon + 1) = yearday year mon + daysmon year mon := by
  rw [yearday, List.range_succ, List.map_append, List.sum_append]
  simp [yearday]

theorem yearday_year : yearday year 12 = daysyear year := by
  have days := daysyear_pos year
  have feb : FEBDAYS year = daysyear year - 337 := by
    unfold FEBDAYS daysyear
    split_ifs <;> omega
  simp [yearday, List.range_succ, daysmon, feb]
  omega

theorem months_spec (i : Nat) (day : Int) (start : 0 ≤ day) (small : i ≤ 12)
    (inside : yearday year i + day < daysyear year) :
    ∃ mon mday, months year i day = some (mon, mday) ∧ mon < 12 ∧ 0 ≤ mday ∧ mday < daysmon year mon ∧
      yearday year i + day = yearday year mon + mday := by
  induction i, day using months.induct year with
  | case1 i day more longer ih =>
    rw [months, if_pos more, if_pos longer]
    have next := yearday_succ year i
    rcases ih (by omega) (by omega) (by omega) with ⟨mon, mday, found, rest⟩
    exact ⟨mon, mday, found, by omega⟩
  | case2 i day more fits =>
    rw [months, if_pos more, if_neg fits]
    exact ⟨i, day, rfl, more, start, by omega, rfl⟩
  | case3 i day past =>
    have last : i = 12 := by omega
    subst last
    rw [yearday_year] at inside
    omega

theorem newYear_epoch : newYear EPOCH = 0 := by decide

variable {t : Int} {tm : Tm}

/-- For an instant from the epoch on, unless its year is larger than an `int`. -/
theorem gmtime_denotes (start : 0 ≤ t) (small : t < newYear (INT_MAX + 1) * 86400) :
    ∃ tm, gmtime t = some tm ∧ Denotes tm t ∧ 1970 ≤ tm.year + 1900 ∧
      tm.isdst = 0 ∧ tm.zone = "GMT" ∧ tm.gmtoff = 0 := by
  have day : t.tdiv SECDAY = t / 86400 := Int.tdiv_eq_ediv_of_nonneg start
  have sec : t.tmod SECDAY = t % 86400 := Int.tmod_eq_emod_of_nonneg start
  have first : 0 ≤ t / 86400 := by omega
  have rest : 0 ≤ t % 86400 := by omega
  have minutes : (t % 86400).tdiv 60 = t % 86400 / 60 := Int.tdiv_eq_ediv_of_nonneg rest
  have seconds : (t % 86400).tmod 60 = t % 86400 % 60 := Int.tmod_eq_emod_of_nonneg rest
  have nonneg : 0 ≤ t % 86400 / 60 := by omega
  have hours : (t % 86400 / 60).tdiv 60 = t % 86400 / 60 / 60 := Int.tdiv_eq_ediv_of_nonneg nonneg
  have minute : (t % 86400 / 60).tmod 60 = t % 86400 / 60 % 60 := Int.tmod_eq_emod_of_nonneg nonneg
  have weekday : (t / 86400 + THU).tmod 7 = (t / 86400 + THU) % 7 :=
    Int.tmod_eq_emod_of_nonneg (by unfold THU; omega)
  have spec := years_spec EPOCH (t / 86400) first (by decide)
  rw [newYear_epoch] at spec
  cases found : years EPOCH (t / 86400) with
  | none =>
    rw [found] at spec
    dsimp only at spec
    omega
  | some r =>
    rcases r with ⟨year, yday⟩
    rw [found] at spec
    have ⟨since, _, lower, upper, total⟩ := spec
    rcases months_spec year 0 yday lower (by decide) (by simpa [yearday] using upper) with
      ⟨mon, mday, month, small_, mlower, mupper, days⟩
    have named : gmtime t = some
        { sec := t % 86400 % 60, min := t % 86400 / 60 % 60, hour := t % 86400 / 60 / 60, mday := mday + 1, mon,
          year := year - 1900, wday := (t / 86400 + THU) % 7, yday, isdst := 0, zone := "GMT", gmtoff := 0 } := by
      simp only [gmtime, day, sec, minutes, seconds, hours, minute, weekday, found]
      change (months year 0 yday).bind _ = _
      rw [month]
      rfl
    refine ⟨_, named, ?_, ?_, rfl, rfl, rfl⟩
    · have back : year - 1900 + 1900 = year := by omega
      have zero : yearday year 0 = 0 := rfl
      unfold THU
      refine ⟨?_, ?_, ?_, small_, ?_, ?_, ?_, ?_, ?_⟩ <;> dsimp only <;> (try rw [back]) <;> omega
    · change 1970 ≤ year - 1900 + 1900
      unfold EPOCH at since
      omega

theorem gmtime_before (before : t < 0) (made : gmtime t = some tm) : ¬ Denotes tm t := by
  intro denotes
  rcases Option.bind_eq_some_iff.mp made with ⟨⟨year, yday⟩, found, rest⟩
  rcases Option.bind_eq_some_iff.mp rest with ⟨⟨mon, mday⟩, _, fields⟩
  cases fields
  have seconds := denotes.sec.1
  have minutes := denotes.min.1
  have hours := denotes.hour.1
  have split_day := Int.mul_tdiv_add_tmod t SECDAY
  have split_hour := Int.mul_tdiv_add_tmod (t.tmod SECDAY) 60
  have split_minute := Int.mul_tdiv_add_tmod ((t.tmod SECDAY).tdiv 60) 60
  dsimp only at seconds minutes hours
  change 86400 * t.tdiv SECDAY + t.tmod SECDAY = t at split_day
  have negative : t.tdiv SECDAY < 0 := by omega
  have stays : years EPOCH (t.tdiv SECDAY) = some (EPOCH, t.tdiv SECDAY) := by
    have := daysyear_pos EPOCH
    rw [years, if_neg (by omega)]
  have yday_ : yday = t.tdiv SECDAY := by
    rw [stays] at found
    cases found
    rfl
  have lower := denotes.yday.1
  change 0 ≤ yday at lower
  omega

theorem norm_inside {v n max : Int} (lower : 0 ≤ v) (upper : v < max) : norm v n max = some (v, n) := by
  unfold norm
  rw [if_neg (by omega)]
  change (if max ≤ v then _ else some (v, n)) = some (v, n)
  rw [if_neg (by omega)]

theorem normalize_denotes (denotes : Denotes tm t) (start : 0 ≤ tm.year)
    (small : tm.year + 1900 ≤ MAXYEAR) : ∃ tm', normalize tm = some tm' ∧ tm'.sec = tm.sec ∧ tm'.min = tm.min ∧
      tm'.hour = tm.hour ∧ tm'.mday = tm.mday ∧ tm'.mon = tm.mon ∧ tm'.year = tm.year := by
  have months_ : norm tm.mon tm.year 12 = some ((tm.mon : Int), tm.year) :=
    norm_inside (by omega) (by have := denotes.mon; omega)
  have no_earlier : earlier (MINYEAR + tm.year) tm.mon tm.mday = some (MINYEAR + tm.year, tm.mon, tm.mday) := by
    have := denotes.mday
    rw [earlier, if_neg (by omega)]
  have no_later : later (MINYEAR + tm.year) tm.mon tm.mday = some (MINYEAR + tm.year, tm.mon, tm.mday) := by
    have inside := denotes.mday.2
    have year : MINYEAR + tm.year = tm.year + 1900 := Int.add_comm _ _
    rw [later, if_neg (by rw [year]; omega)]
  have year : MINYEAR + tm.year - MINYEAR = tm.year := by omega
  unfold normalize
  rw [norm_inside denotes.sec.1 denotes.sec.2]
  change ∃ tm', ((norm tm.min tm.hour 60).bind _) = some tm' ∧ _
  rw [norm_inside denotes.min.1 denotes.min.2]
  change ∃ tm', ((norm tm.hour tm.mday 24).bind _) = some tm' ∧ _
  rw [norm_inside denotes.hour.1 denotes.hour.2]
  change ∃ tm', ((norm tm.mon tm.year 12).bind _) = some tm' ∧ _
  rw [months_]
  change ∃ tm', (if tm.year < 0 then none else if MAXYEAR < MINYEAR + tm.year then none else
    (earlier (MINYEAR + tm.year) tm.mon tm.mday).bind _) = some tm' ∧ _
  rw [if_neg (by omega), if_neg (by unfold MINYEAR; omega), no_earlier]
  change ∃ tm', ((later (MINYEAR + tm.year) tm.mon tm.mday).bind _) = some tm' ∧ _
  rw [no_later]
  exact ⟨_, rfl, rfl, rfl, rfl, rfl, rfl, year⟩

theorem sum_years (n : Nat) :
    ((List.range n).map fun k : Nat => daysyear (EPOCH + k) * SECDAY).sum = newYear (EPOCH + n) * 86400 := by
  induction n with
  | zero =>
    have epoch : newYear (EPOCH + (0 : Nat)) = 0 := newYear_epoch
    rw [epoch]
    rfl
  | succ n ih =>
    have next := newYear_succ (EPOCH + n)
    have cast : EPOCH + ((n + 1 : Nat) : Int) = EPOCH + n + 1 := by
      push_cast
      ring
    rw [List.range_succ, List.map_append, List.sum_append, ih, cast, next]
    simp only [List.map_cons, List.map_nil, List.sum_singleton, SECDAY, SECHOUR, SECMIN]
    ring

theorem sum_months (mon : Nat) :
    ((List.range mon).map fun i => daysmon year i * SECDAY).sum = yearday year mon * 86400 := by
  induction mon with
  | zero => rfl
  | succ mon ih =>
    rw [List.range_succ, List.map_append, List.sum_append, ih, yearday_succ]
    simp only [List.map_cons, List.map_nil, List.sum_singleton, SECDAY, SECHOUR, SECMIN]
    ring

theorem systime_denotes (denotes : Denotes tm t) (start : 1970 ≤ tm.year + 1900) : systime tm = t := by
  have instant := denotes.instant
  have monthday := denotes.monthday
  have count : EPOCH + ((tm.year + MINYEAR - EPOCH).toNat : Int) = tm.year + 1900 := by
    unfold EPOCH MINYEAR
    omega
  unfold systime
  dsimp only
  rw [sum_years, sum_months, count]
  unfold SECHOUR SECDAY SECHOUR SECMIN MINYEAR
  omega

theorem denotes_year (denotes : Denotes tm t) :
    newYear (tm.year + 1900) * 86400 ≤ t ∧ t < newYear (tm.year + 1901) * 86400 := by
  have ⟨sec, sec'⟩ := denotes.sec
  have ⟨min, min'⟩ := denotes.min
  have ⟨hour, hour'⟩ := denotes.hour
  have ⟨yday, yday'⟩ := denotes.yday
  have instant := denotes.instant
  have next := newYear_succ (tm.year + 1900)
  have year : tm.year + 1900 + 1 = tm.year + 1901 := by omega
  rw [year] at next
  omega

theorem mktime_denotes (denotes : Denotes tm t) (start : 1970 ≤ tm.year + 1900) :
    mktime tm = t ↔ tm.year + 1900 ≤ MAXYEAR := by
  have lower : newYear 1970 ≤ newYear (tm.year + 1900) := newYear_mono start
  have epoch : newYear 1970 = 0 := newYear_epoch
  have since := (denotes_year denotes).1
  constructor
  · intro same
    by_contra late
    have refused : normalize tm = none := by
      have months_ : norm tm.mon tm.year 12 = some ((tm.mon : Int), tm.year) :=
        norm_inside (by omega) (by have := denotes.mon; omega)
      unfold normalize
      rw [norm_inside denotes.sec.1 denotes.sec.2]
      change ((norm tm.min tm.hour 60).bind _) = none
      rw [norm_inside denotes.min.1 denotes.min.2]
      change ((norm tm.hour tm.mday 24).bind _) = none
      rw [norm_inside denotes.hour.1 denotes.hour.2]
      change ((norm tm.mon tm.year 12).bind _) = none
      rw [months_]
      change (if tm.year < 0 then none else if MAXYEAR < MINYEAR + tm.year then none else _) = none
      rw [if_neg (by omega), if_pos (by unfold MINYEAR; omega)]
    rw [mktime, refused] at same
    change -1 = t at same
    omega
  · intro small
    rcases normalize_denotes denotes (by omega) small with ⟨tm', made, sec, min, hour, mday, mon, year⟩
    have same : systime tm' = systime tm := by
      unfold systime
      rw [sec, min, hour, mday, mon, year]
    rw [mktime, made]
    exact same.trans (systime_denotes denotes start)

theorem denotes_unique {tm tm' : Tm} (denotes : Denotes tm t) (denotes' : Denotes tm' t) :
    tm.year = tm'.year ∧ tm.yday = tm'.yday ∧ tm.hour = tm'.hour := by
  have ⟨since, before⟩ := denotes_year denotes
  have ⟨since', before'⟩ := denotes_year denotes'
  have year : tm.year = tm'.year := by
    by_contra other
    cases Int.lt_or_gt_of_ne other with
    | inl earlier_ =>
      have := newYear_mono (show tm.year + 1901 ≤ tm'.year + 1900 by omega)
      omega
    | inr later_ =>
      have := newYear_mono (show tm'.year + 1901 ≤ tm.year + 1900 by omega)
      omega
  have ⟨sec, sec_⟩ := denotes.sec
  have ⟨min, min_⟩ := denotes.min
  have ⟨hour, hour_⟩ := denotes.hour
  have ⟨sec', sec'_⟩ := denotes'.sec
  have ⟨min', min'_⟩ := denotes'.min
  have ⟨hour', hour'_⟩ := denotes'.hour
  have instant := denotes.instant
  have instant' := denotes'.instant
  rw [year] at instant
  exact ⟨year, by omega, by omega⟩

theorem gmtime_static (made : gmtime t = some tm) :
    tm.isdst = 0 ∧ tm.zone = "GMT" ∧ tm.gmtoff = 0 ∧ t < newYear (INT_MAX + 1) * 86400 := by
  rcases Option.bind_eq_some_iff.mp made with ⟨⟨year, yday⟩, found, rest⟩
  rcases Option.bind_eq_some_iff.mp rest with ⟨⟨mon, mday⟩, _, fields⟩
  cases fields
  refine ⟨rfl, rfl, rfl, ?_⟩
  have positive : 0 < newYear (INT_MAX + 1) := by decide
  by_cases before : t < 0
  · omega
  · have day : t.tdiv SECDAY = t / 86400 := Int.tdiv_eq_ediv_of_nonneg (by omega)
    have spec := years_spec EPOCH (t / 86400) (by omega) (by decide)
    rw [← day, found, newYear_epoch] at spec
    have ⟨_, small, _, upper, total⟩ := spec
    have next := newYear_succ year
    have mono := newYear_mono (show year + 1 ≤ INT_MAX + 1 by omega)
    omega

/-- `gmtime()` gives fields in their ranges that denote the instant. -/
def GmtimeRight (t : Int) : Prop := ∃ tm, gmtime t = some tm ∧ Denotes tm t

/-- `localtime()` gives the fields of the shifted time with the offset, the flag and the name of the zone,
and `mktime()` gives the instant back. -/
def LocaltimeRight (tz : Tz) (t : Int) : Prop :=
  ∃ tm g local_, gmtime t = some tm ∧ gmtime (t + (zone tz tm).1) = some g ∧ localtime tz t = some local_ ∧
    local_ = { g with gmtoff := (zone tz tm).1, isdst := (zone tz tm).2.1, zone := (zone tz tm).2.2 } ∧
    mktime local_ = t

theorem gmtime_iff (t : Int) : GmtimeRight t ↔ 0 ≤ t ∧ t < newYear (INT_MAX + 1) * 86400 := by
  constructor
  · rintro ⟨tm, made, denotes⟩
    refine ⟨?_, (gmtime_static made).2.2.2⟩
    by_contra before
    exact gmtime_before (by omega) made denotes
  · rintro ⟨start, small⟩
    rcases gmtime_denotes start small with ⟨tm, made, denotes, _⟩
    exact ⟨tm, made, denotes⟩

/-- For every instant and time zone: `gmtime()` is right exactly from the epoch on, as long as the year is
an `int`; and it is right together with `localtime()` and `mktime()` exactly when moreover the year is
one that `mktime()` knows, and the zone has no offset, has the name `GMT` and no daylight saving at the
instant. -/
theorem calendar_iff (tz : Tz) (t : Int) : (GmtimeRight t ↔ 0 ≤ t ∧ t < newYear (INT_MAX + 1) * 86400) ∧
      (GmtimeRight t ∧ LocaltimeRight tz t ↔ 0 ≤ t ∧ t < newYear (MAXYEAR + 1) * 86400 ∧
        tz.stdoff = 0 ∧ tz.stdname = "GMT" ∧ ∀ tm, Denotes tm t → ¬ Daylight tz tm) := by
  have years_ : newYear (MAXYEAR + 1) ≤ newYear (INT_MAX + 1) := newYear_mono (by decide)
  refine ⟨gmtime_iff t, ?_⟩
  constructor
  · rintro ⟨right, tm, g, local_, made, shifted, found, fields, back⟩
    have ⟨start, small⟩ := (gmtime_iff t).mp right
    rcases gmtime_denotes start small with ⟨tm', made', denotes, since, _⟩
    have first : tm' = tm := Option.some.inj (made'.symm.trans made)
    subst first
    have same : local_ = g := by
      rw [localtime, made] at found
      exact Option.some.inj (found.symm.trans shifted)
    have ⟨isdst, name, gmtoff, _⟩ := gmtime_static shifted
    subst same
    have off := congrArg Tm.gmtoff fields
    have flag := congrArg Tm.isdst fields
    have zone_ := congrArg Tm.zone fields
    rw [gmtoff] at off
    rw [isdst] at flag
    rw [name] at zone_
    dsimp only at off flag zone_
    have dark : ¬ Daylight tz tm' := by
      intro light
      rw [zone, if_pos light] at flag
      change (0 : Int) = 1 at flag
      exact absurd flag (by decide)
    rw [zone, if_neg dark] at off zone_
    have standard : (zone tz tm').1 = 0 := by
      rw [zone, if_neg dark]
      exact off.symm
    rw [standard, Int.add_zero] at shifted
    have again : tm' = local_ := Option.some.inj (made'.symm.trans shifted)
    subst again
    have last := (mktime_denotes denotes since).mp back
    have before := (denotes_year denotes).2
    have mono := newYear_mono (show tm'.year + 1901 ≤ MAXYEAR + 1 by omega)
    refine ⟨start, by omega, off.symm, zone_.symm, fun other denotes' light => dark ?_⟩
    have ⟨year, yday, hour⟩ := denotes_unique denotes denotes'
    unfold Daylight at light ⊢
    rw [year, yday, hour]
    exact light
  · rintro ⟨start, small, off, name, dark⟩
    rcases gmtime_denotes start (by omega) with ⟨tm, made, denotes, since, isdst, zoned, gmtoff⟩
    have standard : zone tz tm = (0, 0, "GMT") := by
      rw [zone, if_neg (dark tm denotes), off, name]
    have last : tm.year + 1900 ≤ MAXYEAR := by
      by_contra late
      have mono := newYear_mono (show MAXYEAR + 1 ≤ tm.year + 1900 by omega)
      have := (denotes_year denotes).1
      omega
    refine ⟨⟨tm, made, denotes⟩, tm, tm, tm, made, ?_, ?_, ?_, (mktime_denotes denotes since).mpr last⟩
    · rw [standard, Int.add_zero]
      exact made
    · rw [localtime, made, Option.bind_some, standard, Int.add_zero]
      exact made
    · rw [standard]
      cases tm
      cases isdst
      cases zoned
      cases gmtoff
      rfl

/-- A second before the epoch has a negative second, and an hour east of Greenwich is not kept. -/
theorem calendar_lost : ¬ GmtimeRight (-1) ∧
    ¬ LocaltimeRight ⟨3600, 7200, -1, -1, false, "CET", "CEST"⟩ 0 := by
  constructor
  · intro right
    rcases right with ⟨tm, made, denotes⟩
    exact gmtime_before (by decide) made denotes
  · rintro ⟨tm, g, local_, made, shifted, found, fields, -⟩
    have same : local_ = g := by
      rw [localtime, made] at found
      exact Option.some.inj (found.symm.trans shifted)
    subst same
    have zone_ := congrArg Tm.zone fields
    rw [(gmtime_static shifted).2.1] at zone_
    dsimp only at zone_
    rw [zone] at zone_
    split_ifs at zone_ <;> exact absurd zone_ (by decide)

end Scc.Libc.Calendar
