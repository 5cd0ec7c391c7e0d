import Scc.Libc.Calendar

/-!
# The normalisation of a date

`normalize()` on fields that are `int`s. Every sum, difference, product and negation is checked here, where
`Scc.Libc.Calendar` takes the fields of a date that is in its range already. `maxYear` is the `_MAXYEAR` of
the platform, 2038 or 9999, and division rounds to zero in the code and down in the statements.
-/

namespace Scc.Libc.Mktime

open Scc.Libc.Calendar (MINYEAR daysyear FEBDAYS daysmon yearday newYear)

set_option autoImplicit false

def INT_MIN : Int := -2 ^ 31
def INT_MAX : Int := 2 ^ 31 - 1

structure Tm where
  sec : Int
  min : Int
  hour : Int
  mday : Int
  mon : Int
  year : Int
  wday : Int
  yday : Int
  isdst : Int

/-- Why there are no new fields: an `int` overflows, or 0 is returned. -/
inductive Stop
  | overflow
  | refused
deriving DecidableEq

abbrev IsInt (x : Int) : Prop := INT_MIN ≤ x ∧ x ≤ INT_MAX

def int (x : Int) : Except Stop Int := if IsInt x then .ok x else .error .overflow

/-- The first `if` of `norm()`. -/
def borrow (v n max : Int) : Except Stop (Int × Int) :=
  if v < 0 then do
    let minus ← int (-v)
    let d ← int (minus.tdiv max + 1)
    let units ← int (d * max)
    let v ← int (v + units)
    let limit ← int (INT_MAX - d)
    if limit < n then .error .refused
    else do
      let n ← int (n - d)
      .ok (v, n)
  else .ok (v, n)

/-- The second `if` of `norm()`. -/
def carry (v n max : Int) : Except Stop (Int × Int) :=
  if max ≤ v then do
    let d := v.tdiv max
    let units ← int (d * max)
    let v ← int (v - units)
    let limit ← int (INT_MIN + d)
    if n < limit then .error .refused
    else do
      let n ← int (n + d)
      .ok (v, n)
  else .ok (v, n)

def norm (v n max : Int) : Except Stop (Int × Int) := do
  let (v, n) ← borrow v n max
  carry v n max

/-- The loop that adds the days of earlier months. -/
def earlier (year : Int) (mon : Nat) (day : Int) : Except Stop (Int × Nat × Int) :=
  if day < 1 then
    if mon = 0 then
      if year = MINYEAR then .error .refused
      else do
        let _ ← int (day + daysmon (year - 1) 11)
        earlier (year - 1) 11 (day + daysmon (year - 1) 11)
    else do
      let _ ← int (day + daysmon year (mon - 1))
      earlier year (mon - 1) (day + daysmon year (mon - 1))
  else .ok (year, mon, day)
termination_by (1 - day).toNat
decreasing_by
  · have := Calendar.daysmon_pos (year - 1) 11
    omega
  · have := Calendar.daysmon_pos year (mon - 1)
    omega

/-- The loop that takes the days of the months away. -/
def later (maxYear year : Int) (mon : Nat) (day : Int) : Except Stop (Int × Nat × Int) :=
  if daysmon year mon < day then do
    let _ ← int (day - daysmon year mon)
    if mon = 11 then
      if year = maxYear then .error .refused else later maxYear (year + 1) 0 (day - daysmon year mon)
    else later maxYear year (mon + 1) (day - daysmon year mon)
  else .ok (year, mon, day)
termination_by day.toNat
decreasing_by
  · have := Calendar.daysmon_pos year mon
    omega
  · have := Calendar.daysmon_pos year mon
    omega

def newyear (year : Int) : Except Stop Int := do
  let year ← int (year + (1900 - 1))
  let day ← int (1 + year)
  let day ← int (day + year.tdiv 4)
  let day ← int (day - year.tdiv 100)
  let day ← int (day + year.tdiv 400)
  .ok (day.tmod 7)

/-- What `normalize()` does after the carries. -/
def normalizeDays (maxYear : Int) (tm : Tm) : Except Stop Tm :=
  if tm.year < 0 then .error .refused
  else do
    let year ← int (MINYEAR + tm.year)
    if maxYear < year then .error .refused
    else do
      let (year, mon, day) ← earlier year tm.mon.toNat tm.mday
      let (year, mon, day) ← later maxYear year mon day
      let yday ← int (yearday year mon)
      let days ← int (yday + day)
      let yday ← int (days - 1)
      let first ← newyear (year - MINYEAR)
      let days ← int (first + yday)
      .ok { tm with mon, mday := day, year := year - MINYEAR, yday, wday := days.tmod 7, isdst := 0 }

def normalize (maxYear : Int) (tm : Tm) : Except Stop Tm := do
  let (sec, min) ← norm tm.sec tm.min 60
  let (min, hour) ← norm min tm.hour 60
  let (hour, mday) ← norm hour tm.mday 24
  let (mon, year) ← norm tm.mon tm.year 12
  normalizeDays maxYear { tm with sec, min, hour, mday, mon, year }

/-- The days from the epoch to the day that the fields name, after carrying the months only. -/
def dayNumber (tm : Tm) : Int :=
  newYear (MINYEAR + (tm.year + tm.mon / 12)) + yearday (MINYEAR + (tm.year + tm.mon / 12)) (tm.mon % 12).toNat +
    tm.mday - 1

def instant (tm : Tm) : Int := ((dayNumber tm * 24 + tm.hour) * 60 + tm.min) * 60 + tm.sec

/-- The date is between the first day of the year 1900 and the last one of `maxYear`. -/
def InRange (maxYear : Int) (tm : Tm) : Prop :=
  newYear MINYEAR * 86400 ≤ instant tm ∧ instant tm < newYear (maxYear + 1) * 86400

/-- The fields are in their ranges, and the day of the week and of the year are right. -/
structure Proper (tm : Tm) : Prop where
  sec : 0 ≤ tm.sec ∧ tm.sec < 60
  min : 0 ≤ tm.min ∧ tm.min < 60
  hour : 0 ≤ tm.hour ∧ tm.hour < 24
  mon : 0 ≤ tm.mon ∧ tm.mon < 12
  mday : 1 ≤ tm.mday ∧ tm.mday ≤ daysmon (MINYEAR + tm.year) tm.mon.toNat
  yday : tm.yday = dayNumber tm - newYear (MINYEAR + tm.year)
  wday : tm.wday = (dayNumber tm + 4) % 7

/-- No `int` overflows, there are new fields exactly when `range` holds, and they are the proper ones of the
instant `t`. -/
structure Good (range : Prop) (t : Int) (made : Except Stop Tm) : Prop where
  defined : made ≠ .error .overflow
  succeeds : (∃ tm, made = .ok tm) ↔ range
  fields : ∀ tm, made = .ok tm → Proper tm ∧ instant tm = t

def Normalizes (maxYear : Int) (tm : Tm) : Prop :=
  Good (InRange maxYear tm) (instant tm) (normalize maxYear tm)

/-- A carry from a field to the next one overflows. -/
def Overflows (v n max : Int) : Prop :=
  (v < 0 ∧ (INT_MAX < (-v / max + 1) * max ∨ n < INT_MIN + (-v / max + 1))) ∨ (max ≤ v ∧ INT_MAX - v / max < n)

/-- A carry is refused by one of the two comparisons with a limit. -/
def Refused (v n max : Int) : Prop :=
  (v < 0 ∧ (INT_MAX - (-v / max + 1) < n ∨ (v % max = 0 ∧ n = INT_MIN + (-v / max + 1)))) ∨
    (max ≤ v ∧ n < INT_MIN + v / max)

/-- A carry does not overflow, and it is only refused outside of the range. -/
def Carries (range : Prop) (v n max : Int) (next : Int → Prop) : Prop :=
  ¬ Overflows v n max ∧ (Refused v n max → ¬ range) ∧ (¬ Refused v n max → next (n + v / max))

/-- The fields are carried, and the year is in the range before the days are carried, or the date is not. -/
def Sound (maxYear : Int) (tm : Tm) : Prop :=
  Carries (InRange maxYear tm) tm.sec tm.min 60 fun min =>
    Carries (InRange maxYear tm) min tm.hour 60 fun hour =>
      Carries (InRange maxYear tm) hour tm.mday 24 fun _ =>
        Carries (InRange maxYear tm) tm.mon tm.year 12 fun year =>
          MINYEAR + year ≤ INT_MAX ∧ (InRange maxYear tm → 0 ≤ year ∧ MINYEAR + year ≤ maxYear)

theorem int_ok {x : Int} (inside : IsInt x) : int x = .ok x := if_pos inside

theorem int_overflow {x : Int} (outside : ¬ IsInt x) : int x = .error .overflow := if_neg outside

variable {max n v t maxYear : Int} {range : Prop} {tm : Tm}

theorem borrow_spec (field : max = 60 ∨ max = 24 ∨ max = 12) (isV : IsInt v) (isN : IsInt n)
    (negative : v < 0) : borrow v n max =
      if INT_MAX < (-v / max + 1) * max then .error .overflow
      else if INT_MAX - (-v / max + 1) < n then .error .refused
      else if n < INT_MIN + (-v / max + 1) then .error .overflow
      else .ok (v + (-v / max + 1) * max, n - (-v / max + 1)) := by
  have rounded : (-v).tdiv max = -v / max := Int.tdiv_eq_ediv_of_nonneg (by omega)
  unfold borrow
  rw [if_pos negative]
  by_cases least : v = INT_MIN
  · subst least
    rw [int_overflow (by decide), if_pos]
    · rfl
    · rcases field with rfl | rfl | rfl <;> decide
  · unfold IsInt INT_MIN INT_MAX at isV isN
    unfold INT_MIN at least
    have minus : int (-v) = .ok (-v) := int_ok (by unfold IsInt INT_MIN INT_MAX; omega)
    have d : int (-v / max + 1) = .ok (-v / max + 1) := by
      apply int_ok
      unfold IsInt INT_MIN INT_MAX
      rcases field with rfl | rfl | rfl <;> omega
    simp only [minus, Except.bind, bind, rounded, d]
    by_cases large : INT_MAX < (-v / max + 1) * max
    · rw [if_pos large, int_overflow (by unfold IsInt; omega)]
    · have units : int ((-v / max + 1) * max) = .ok ((-v / max + 1) * max) := by
        apply int_ok
        unfold INT_MAX at large
        unfold IsInt INT_MIN INT_MAX
        rcases field with rfl | rfl | rfl <;> omega
      have sum : int (v + (-v / max + 1) * max) = .ok (v + (-v / max + 1) * max) := by
        apply int_ok
        unfold INT_MAX at large
        unfold IsInt INT_MIN INT_MAX
        rcases field with rfl | rfl | rfl <;> omega
      have limit : int (INT_MAX - (-v / max + 1)) = .ok (INT_MAX - (-v / max + 1)) := by
        apply int_ok
        unfold IsInt INT_MIN INT_MAX
        rcases field with rfl | rfl | rfl <;> omega
      simp only [units, sum, limit, if_neg large]
      by_cases refused : INT_MAX - (-v / max + 1) < n
      · rw [if_pos refused, if_pos refused]
      · rw [if_neg refused, if_neg refused]
        by_cases under : n < INT_MIN + (-v / max + 1)
        · rw [if_pos under, int_overflow (by unfold IsInt; omega)]
        · rw [if_neg under, int_ok]
          unfold INT_MIN at under
          unfold IsInt INT_MIN INT_MAX
          rcases field with rfl | rfl | rfl <;> omega

theorem carry_spec (field : max = 60 ∨ max = 24 ∨ max = 12) (isV : IsInt v) (isN : IsInt n)
    (positive : max ≤ v) : carry v n max =
      if n < INT_MIN + v / max then .error .refused else if INT_MAX - v / max < n then .error .overflow
      else .ok (v % max, n + v / max) := by
  have rounded : v.tdiv max = v / max := Int.tdiv_eq_ediv_of_nonneg (by omega)
  unfold IsInt INT_MIN INT_MAX at isV isN
  have rest : v - v / max * max = v % max := by
    rcases field with rfl | rfl | rfl <;> omega
  have units : int (v / max * max) = .ok (v / max * max) := by
    apply int_ok
    unfold IsInt INT_MIN INT_MAX
    rcases field with rfl | rfl | rfl <;> omega
  have difference : int (v % max) = .ok (v % max) := by
    apply int_ok
    unfold IsInt INT_MIN INT_MAX
    rcases field with rfl | rfl | rfl <;> omega
  have limit : int (INT_MIN + v / max) = .ok (INT_MIN + v / max) := by
    apply int_ok
    unfold IsInt INT_MIN INT_MAX
    rcases field with rfl | rfl | rfl <;> omega
  unfold carry
  rw [if_pos positive]
  simp only [rounded, units, Except.bind, bind, rest, difference, limit]
  by_cases refused : n < INT_MIN + v / max
  · rw [if_pos refused, if_pos refused]
  · rw [if_neg refused, if_neg refused]
    by_cases large : INT_MAX - v / max < n
    · rw [if_pos large, int_overflow (by unfold IsInt; omega)]
    · rw [if_neg large, int_ok]
      unfold INT_MAX at large
      unfold IsInt INT_MIN INT_MAX
      rcases field with rfl | rfl | rfl <;> omega

theorem carry_borrowed (field : max = 60 ∨ max = 24 ∨ max = 12) (isV : IsInt v) (isN : IsInt n)
    (negative : v < 0) (fits : ¬ INT_MAX < (-v / max + 1) * max) (stays : ¬ n < INT_MIN + (-v / max + 1)) :
    carry (v + (-v / max + 1) * max) (n - (-v / max + 1)) max =
      if v % max = 0 ∧ n = INT_MIN + (-v / max + 1) then .error .refused else .ok (v % max, n + v / max) := by
  unfold IsInt INT_MIN INT_MAX at isV isN
  unfold INT_MIN at stays
  unfold INT_MAX at fits
  by_cases multiple : v % max = 0
  · have whole : v + (-v / max + 1) * max = max := by
      rcases field with rfl | rfl | rfl <;> omega
    have positive : 0 < max := by omega
    have next : n - (-v / max + 1) + 1 = n + v / max := by
      rcases field with rfl | rfl | rfl <;> omega
    rw [whole, carry_spec field (by unfold IsInt INT_MIN INT_MAX; omega)
      (by unfold IsInt INT_MIN INT_MAX; rcases field with rfl | rfl | rfl <;> omega) le_rfl,
      Int.ediv_self positive.ne', Int.emod_self, next, multiple]
    unfold INT_MIN INT_MAX
    by_cases least : n = -2 ^ 31 + (-v / max + 1)
    · rw [if_pos (by omega), if_pos ⟨rfl, least⟩]
    · rw [if_neg (by omega), if_neg (by rcases field with rfl | rfl | rfl <;> omega),
        if_neg (fun both => least both.2)]
  · have rest : v + (-v / max + 1) * max = v % max := by
      rcases field with rfl | rfl | rfl <;> omega
    have next : n - (-v / max + 1) = n + v / max := by
      rcases field with rfl | rfl | rfl <;> omega
    have small : ¬ max ≤ v % max := by
      rcases field with rfl | rfl | rfl <;> omega
    rw [rest, next, if_neg (fun both => multiple both.1)]
    exact if_neg small

theorem norm_spec (field : max = 60 ∨ max = 24 ∨ max = 12) (isV : IsInt v) (isN : IsInt n) :
    (Overflows v n max → norm v n max = .error .overflow) ∧
      (¬ Overflows v n max → Refused v n max → norm v n max = .error .refused) ∧
      (¬ Overflows v n max → ¬ Refused v n max → norm v n max = .ok (v % max, n + v / max) ∧
        IsInt (n + v / max)) := by
  have units : 0 < max := by omega
  by_cases negative : v < 0
  · have small : ¬ max ≤ v := by omega
    have first := borrow_spec field isV isN negative
    have second := carry_borrowed field isV isN negative
    have quarter : (-v / max + 1) * max ≤ INT_MAX → -v / max + 1 ≤ 2 ^ 30 := by
      unfold INT_MAX
      rcases field with rfl | rfl | rfl <;> omega
    unfold norm Overflows Refused
    simp only [negative, small, true_and, false_and, or_false]
    unfold IsInt at isN ⊢
    by_cases large : INT_MAX < (-v / max + 1) * max
    · rw [if_pos large] at first
      simp [large, first, bind, Except.bind]
    · have d := quarter (not_lt.mp large)
      rw [if_neg large] at first
      by_cases under : n < INT_MIN + (-v / max + 1)
      · rw [if_neg (by unfold INT_MIN INT_MAX at *; omega), if_pos under] at first
        simp [under, first, bind, Except.bind]
      · rw [if_neg under] at first
        by_cases above : INT_MAX - (-v / max + 1) < n
        · rw [if_pos above] at first
          simp [above, first, large, under, bind, Except.bind]
        · rw [if_neg above] at first
          simp only [first, large, under, above, bind, Except.bind, second large under]
          by_cases refused : v % max = 0 ∧ n = INT_MIN + (-v / max + 1)
          · simp [refused]
          · have inside : INT_MIN ≤ n + v / max ∧ n + v / max ≤ INT_MAX := by
              unfold INT_MIN INT_MAX at *
              rcases field with rfl | rfl | rfl <;> omega
            simp [refused, inside]
  · have borrowed : borrow v n max = .ok (v, n) := if_neg negative
    have whole : norm v n max = carry v n max := by
      unfold norm
      rw [borrowed]
      rfl
    rw [whole]
    unfold Overflows Refused
    simp only [negative, false_and, false_or]
    by_cases positive : max ≤ v
    · have made := carry_spec field isV isN positive
      have above : n < INT_MIN + v / max → n ≤ INT_MAX - v / max := by
        unfold IsInt INT_MIN INT_MAX at *
        rcases field with rfl | rfl | rfl <;> omega
      have later : 0 ≤ v / max := Int.ediv_nonneg (by omega) units.le
      unfold IsInt at isN ⊢
      simp only [positive, true_and, not_lt]
      by_cases refused : n < INT_MIN + v / max
      · rw [if_pos refused] at made
        have := above refused
        exact ⟨fun over_ => absurd over_ (by omega), fun _ _ => made, fun _ ok => absurd refused (by omega)⟩
      · rw [if_neg refused] at made
        by_cases large : INT_MAX - v / max < n
        · rw [if_pos large] at made
          exact ⟨fun _ => made, fun ok => absurd large (by omega), fun ok => absurd large (by omega)⟩
        · rw [if_neg large] at made
          exact ⟨fun over_ => absurd over_ large, fun _ no => absurd no refused, fun _ _ => ⟨made, by omega, by omega⟩⟩
    · have inside : carry v n max = .ok (v, n) := if_neg positive
      have same : v % max = v := Int.emod_eq_of_lt (by omega) (by omega)
      have none_ : v / max = 0 := Int.ediv_eq_zero_of_lt (by omega) (by omega)
      simp only [positive, false_and, false_implies, not_false_eq_true, forall_const, true_and, inside, same, none_,
        Int.add_zero]
      exact isN

theorem norm_calendar (field : max = 60 ∨ max = 24 ∨ max = 12) (isV : IsInt v) (isN : IsInt n)
    {made : Int × Int} (carried : norm v n max = .ok made) : Calendar.norm v n max = some made := by
  have ⟨overflow, refused, exact_⟩ := norm_spec field isV isN
  have fits : ¬ Overflows v n max := by
    intro over_
    cases (overflow over_).symm.trans carried
  have goes : ¬ Refused v n max := by
    intro stops
    cases (refused fits stops).symm.trans carried
  have same := (exact_ fits goes).1
  rw [carried] at same
  cases same
  unfold Overflows at fits
  unfold Refused at goes
  unfold Calendar.norm Calendar.INT_MAX
  unfold INT_MIN INT_MAX at fits goes
  by_cases negative : v < 0
  · have rounded : (-v).tdiv max = -v / max := Int.tdiv_eq_ediv_of_nonneg (by omega)
    rw [if_pos negative, rounded]
    dsimp only
    rw [if_neg (by omega), Option.bind_some]
    by_cases multiple : v % max = 0
    · have whole : v + (-v / max + 1) * max = max := by
        rcases field with rfl | rfl | rfl <;> omega
      have once : max.tdiv max = 1 := Int.tdiv_self (by omega)
      dsimp only
      rw [whole, if_pos le_rfl, once, if_neg (by omega), multiple]
      congr 2
      · omega
      · rcases field with rfl | rfl | rfl <;> omega
    · have rest : v + (-v / max + 1) * max = v % max := by
        rcases field with rfl | rfl | rfl <;> omega
      dsimp only
      rw [rest, if_neg (by rcases field with rfl | rfl | rfl <;> omega)]
      congr 2
      rcases field with rfl | rfl | rfl <;> omega
  · rw [if_neg negative, Option.bind_some]
    dsimp only
    by_cases positive : max ≤ v
    · have rounded : v.tdiv max = v / max := Int.tdiv_eq_ediv_of_nonneg (by omega)
      rw [if_pos positive, rounded, if_neg (by omega)]
      congr 2
      rcases field with rfl | rfl | rfl <;> omega
    · rw [if_neg positive, Int.emod_eq_of_lt (by omega) (by omega), Int.ediv_eq_zero_of_lt (by omega) (by omega),
        Int.add_zero]

/-- The days from the epoch to the day before the first one of a month. -/
def monthStart (year : Int) (mon : Nat) : Int := newYear year + yearday year mon

variable (year : Int)

theorem monthStart_succ (mon : Nat) : monthStart year (mon + 1) = monthStart year mon + daysmon year mon := by
  have := Calendar.yearday_succ year mon
  unfold monthStart
  omega

theorem monthStart_year : monthStart year 12 = monthStart (year + 1) 0 := by
  have := Calendar.yearday_year year
  have := Calendar.newYear_succ year
  have zero : yearday (year + 1) 0 = 0 := rfl
  unfold monthStart
  omega

theorem daysmon_le (mon : Nat) : daysmon year mon ≤ 31 := by
  have feb : FEBDAYS year ≤ 29 := by
    unfold FEBDAYS
    split_ifs <;> omega
  unfold daysmon
  split <;> omega

theorem yearday_nonneg (mon : Nat) : 0 ≤ yearday year mon := by
  induction mon with
  | zero => rfl
  | succ mon ih =>
    have := Calendar.yearday_succ year mon
    have := Calendar.daysmon_pos year mon
    omega

theorem yearday_le (mon : Nat) : yearday year mon ≤ 31 * mon := by
  induction mon with
  | zero => rfl
  | succ mon ih =>
    have := Calendar.yearday_succ year mon
    have := daysmon_le year mon
    push_cast
    omega

theorem yearday_mono (year : Int) {mon mon' : Nat} (le : mon ≤ mon') : yearday year mon ≤ yearday year mon' := by
  induction mon', le using Nat.le_induction with
  | base => exact le_rfl
  | succ mon' _ ih =>
    have := Calendar.yearday_succ year mon'
    have := Calendar.daysmon_pos year mon'
    omega

/-- What a loop over the months gives for the day `number`. -/
def Walked (refused : Prop) (number : Int) (Inside : Int → Nat → Int → Prop) : Except Stop (Int × Nat × Int) → Prop
  | .error .overflow => False
  | .error .refused => refused
  | .ok (year, mon, day) => Inside year mon day ∧ mon < 12 ∧ 1 ≤ day ∧ monthStart year mon + day = number

theorem Walked.mono {refused : Prop} {number : Int} {Inside Inside' : Int → Nat → Int → Prop}
    {made : Except Stop (Int × Nat × Int)} (walked : Walked refused number Inside made)
    (wider : ∀ year mon day, Inside year mon day → Inside' year mon day) : Walked refused number Inside' made := by
  cases made with
  | error stop => cases stop <;> exact walked
  | ok made => exact ⟨wider _ _ _ walked.1, walked.2⟩

theorem earlier_spec (mon : Nat) (day : Int) (since : MINYEAR ≤ year) (month : mon < 12) (isDay : IsInt day) :
    Walked (monthStart year mon + day ≤ newYear MINYEAR) (monthStart year mon + day)
      (fun year' _ day' => MINYEAR ≤ year' ∧ year' ≤ year ∧ IsInt day') (earlier year mon day) := by
  unfold IsInt INT_MIN INT_MAX at isDay
  induction year, mon, day using earlier.induct with
  | case1 day before =>
    have zero : yearday MINYEAR 0 = 0 := rfl
    rw [earlier, if_pos before, if_pos rfl, if_pos rfl]
    change monthStart MINYEAR 0 + day ≤ newYear MINYEAR
    unfold monthStart
    omega
  | case2 year day before first ih =>
    have days := Calendar.daysmon_pos (year - 1) 11
    have most := daysmon_le (year - 1) 11
    have month := monthStart_succ (year - 1) 11
    have turn : monthStart (year - 1) (11 + 1) = monthStart (year - 1 + 1) 0 := monthStart_year (year - 1)
    rw [Int.sub_add_cancel] at turn
    have same : monthStart (year - 1) 11 + (day + daysmon (year - 1) 11) = monthStart year 0 + day := by omega
    have next := ih (by omega) (by decide) (by omega)
    rw [same] at next
    rw [earlier, if_pos before, if_pos rfl, if_neg first, int_ok (by unfold IsInt INT_MIN INT_MAX; omega)]
    apply next.mono
    intro year' mon' day' inside
    exact ⟨inside.1, by omega, inside.2.2⟩
  | case3 year mon day before later_ ih =>
    have days := Calendar.daysmon_pos year (mon - 1)
    have most := daysmon_le year (mon - 1)
    have month' := monthStart_succ year (mon - 1)
    rw [Nat.sub_add_cancel (by omega)] at month'
    have same : monthStart year (mon - 1) + (day + daysmon year (mon - 1)) = monthStart year mon + day := by omega
    have next := ih since (by omega) (by omega)
    rw [same] at next
    rw [earlier, if_pos before, if_neg later_, int_ok (by unfold IsInt INT_MIN INT_MAX; omega)]
    exact next
  | case4 year mon day inside =>
    rw [earlier, if_neg inside]
    exact ⟨⟨since, le_rfl, isDay⟩, month, by omega, rfl⟩

theorem later_spec (maxYear year : Int) (mon : Nat) (day : Int) (last : year ≤ maxYear) (month : mon < 12)
    (isDay : IsInt day) (first : 1 ≤ day) :
    Walked (newYear (maxYear + 1) < monthStart year mon + day) (monthStart year mon + day)
      (fun year' mon' day' => year ≤ year' ∧ year' ≤ maxYear ∧ day' ≤ daysmon year' mon')
      (later maxYear year mon day) := by
  unfold IsInt INT_MIN INT_MAX at isDay
  induction year, mon, day using later.induct with
  | case1 year mon day more ih_year ih_month =>
    have month' := monthStart_succ year mon
    have days := Calendar.daysmon_pos year mon
    rw [later, if_pos more, int_ok (by unfold IsInt INT_MIN INT_MAX; omega)]
    change Walked _ _ _ (if mon = 11 then (if year = maxYear then _ else _) else _)
    by_cases december : mon = 11
    · subst december
      have turn : monthStart year (11 + 1) = monthStart (year + 1) 0 := monthStart_year year
      rw [if_pos rfl]
      by_cases ends : year = maxYear
      · subst ends
        have zero : yearday (year + 1) 0 = 0 := rfl
        rw [if_pos rfl]
        change newYear (year + 1) < monthStart year 11 + day
        unfold monthStart at turn month' ⊢
        omega
      · have same : monthStart (year + 1) 0 + (day - daysmon year 11) = monthStart year 11 + day := by omega
        have next := ih_year (by omega) (by decide) (by omega) (by omega)
        rw [same] at next
        rw [if_neg ends]
        apply next.mono
        intro year' mon' day' inside
        exact ⟨by omega, inside.2⟩
    · have same : monthStart year (mon + 1) + (day - daysmon year mon) = monthStart year mon + day := by omega
      have next := ih_month last (by omega) (by omega) (by omega)
      rw [same] at next
      rw [if_neg december]
      exact next
  | case2 year mon day inside =>
    rw [later, if_neg inside]
    exact ⟨⟨le_rfl, last, by omega⟩, month, first, rfl⟩

theorem newyear_spec {year : Int} (since : 0 ≤ year) (small : year ≤ 8099) :
    newyear year = .ok ((newYear (MINYEAR + year) + 4) % 7) := by
  have quarter : (year + (1900 - 1)).tdiv 4 = (year + (1900 - 1)) / 4 := Int.tdiv_eq_ediv_of_nonneg (by omega)
  have century : (year + (1900 - 1)).tdiv 100 = (year + (1900 - 1)) / 100 := Int.tdiv_eq_ediv_of_nonneg (by omega)
  have cycle : (year + (1900 - 1)).tdiv 400 = (year + (1900 - 1)) / 400 := Int.tdiv_eq_ediv_of_nonneg (by omega)
  have isInt : ∀ {x : Int}, 0 ≤ x → x ≤ 20000 → int x = .ok x := by
    intro x lower upper
    apply int_ok
    unfold IsInt INT_MIN INT_MAX
    omega
  unfold newyear
  rw [isInt (by omega) (by omega)]
  simp only [bind, Except.bind]
  rw [isInt (by omega) (by omega), quarter, century, cycle]
  dsimp only
  rw [isInt (by omega) (by omega)]
  dsimp only
  rw [isInt (by omega) (by omega)]
  dsimp only
  rw [isInt (by omega) (by omega)]
  dsimp only
  rw [Int.tmod_eq_emod_of_nonneg (by omega)]
  have epoch : Calendar.daysBefore 1970 = 719162 := by decide
  unfold newYear
  rw [epoch]
  have before : MINYEAR + year - 1 = year + (1900 - 1) := by
    unfold MINYEAR
    omega
  unfold Calendar.daysBefore
  rw [before]
  congr 1
  omega

theorem good_refused (outside : ¬ range) : Good range t (.error .refused) where
  defined := by simp
  succeeds := by simp [outside]
  fields := by simp

theorem good_refused_iff (range : Prop) (t : Int) : Good range t (.error .refused) ↔ ¬ range := by
  constructor
  · intro good inside
    rcases good.succeeds.mpr inside with ⟨tm, made⟩
    cases made
  · exact good_refused

theorem good_ok (inside : range) (proper : Proper tm) (same : instant tm = t) : Good range t (.ok tm) where
  defined := by simp
  succeeds := by simp [inside]
  fields := by
    intro tm' made
    cases made
    exact ⟨proper, same⟩

/-- The fields that are carried before the days are in their ranges. -/
structure Carried (tm : Tm) : Prop where
  sec : 0 ≤ tm.sec ∧ tm.sec < 60
  min : 0 ≤ tm.min ∧ tm.min < 60
  hour : 0 ≤ tm.hour ∧ tm.hour < 24
  mon : 0 ≤ tm.mon ∧ tm.mon < 12

theorem Carried.dayNumber (carried : Carried tm) :
    dayNumber tm = monthStart (MINYEAR + tm.year) tm.mon.toNat + tm.mday - 1 := by
  have month := carried.mon
  have none_ : tm.mon / 12 = 0 := by omega
  have same : tm.mon % 12 = tm.mon := by omega
  unfold Mktime.dayNumber monthStart
  rw [none_, same, Int.add_zero]

theorem Carried.inRange_iff (carried : Carried tm) (maxYear : Int) :
    InRange maxYear tm ↔ newYear MINYEAR ≤ Mktime.dayNumber tm ∧ Mktime.dayNumber tm < newYear (maxYear + 1) := by
  have sec := carried.sec
  have min := carried.min
  have hour := carried.hour
  unfold InRange instant
  omega

theorem finish_good (known : maxYear = 2038 ∨ maxYear = 9999) (carried : Carried tm)
    {year : Int} {mon : Nat} {day : Int} (since : MINYEAR ≤ year) (last : year ≤ maxYear) (month : mon < 12)
    (first : 1 ≤ day) (fits : day ≤ daysmon year mon) (number : monthStart year mon + day = dayNumber tm + 1) :
    Good (InRange maxYear tm) (instant tm) (do
      let yday ← int (yearday year mon)
      let days ← int (yday + day)
      let yday ← int (days - 1)
      let first ← newyear (year - MINYEAR)
      let days ← int (first + yday)
      .ok { tm with mon, mday := day, year := year - MINYEAR, yday, wday := days.tmod 7, isdst := 0 }) := by
  have lower := yearday_nonneg year mon
  have upper := yearday_le year mon
  have most := daysmon_le year mon
  have years : MINYEAR + (year - MINYEAR) = year := by omega
  have isInt : ∀ {x : Int}, 0 ≤ x → x ≤ 20000 → int x = .ok x := by
    intro x lower upper
    apply int_ok
    unfold IsInt INT_MIN INT_MAX
    omega
  have span : 0 ≤ year - MINYEAR ∧ year - MINYEAR ≤ 8099 := by
    unfold MINYEAR at *
    omega
  have weekday := Int.emod_nonneg (newYear year + 4) (by decide : (7 : Int) ≠ 0)
  have weekday' := Int.emod_lt_of_pos (newYear year + 4) (by decide : (0 : Int) < 7)
  simp only [bind, Except.bind]
  rw [isInt lower (by omega)]
  dsimp only
  rw [isInt (by omega) (by omega)]
  dsimp only
  rw [isInt (by omega) (by omega)]
  dsimp only
  rw [newyear_spec span.1 span.2, years]
  dsimp only
  rw [isInt (by omega) (by omega)]
  dsimp only
  rw [Int.tmod_eq_emod_of_nonneg (by omega)]
  have carried' : Carried { tm with
      mon, mday := day, year := year - MINYEAR, yday := yearday year mon + day - 1,
      wday := ((newYear year + 4) % 7 + (yearday year mon + day - 1)) % 7, isdst := 0 } :=
    ⟨carried.sec, carried.min, carried.hour, Int.natCast_nonneg mon, by dsimp only; omega⟩
  have same := carried'.dayNumber
  dsimp only at same
  rw [years, Int.toNat_natCast] at same
  have day_ : Mktime.dayNumber { tm with
      mon, mday := day, year := year - MINYEAR, yday := yearday year mon + day - 1,
      wday := ((newYear year + 4) % 7 + (yearday year mon + day - 1)) % 7, isdst := 0 } = dayNumber tm := by omega
  unfold monthStart at number
  apply good_ok
  · rw [carried.inRange_iff]
    have start := Calendar.newYear_mono since
    have mono := Calendar.newYear_mono (show year + 1 ≤ maxYear + 1 by omega)
    have next := Calendar.newYear_succ year
    have whole := Calendar.yearday_year year
    have more : yearday year (mon + 1) ≤ yearday year 12 := by
      have := yearday_mono year (show mon + 1 ≤ 12 by omega)
      exact this
    have := Calendar.yearday_succ year mon
    omega
  · refine ⟨carried'.sec, carried'.min, carried'.hour, carried'.mon, ⟨first, ?_⟩, ?_, ?_⟩
    · rw [years]
      exact fits
    · rw [day_]
      dsimp only
      rw [years]
      omega
    · rw [day_]
      dsimp only
      omega
  · unfold instant
    rw [day_]

theorem days_good (known : maxYear = 2038 ∨ maxYear = 9999) (carried : Carried tm)
    (isDay : IsInt tm.mday) (since : 0 ≤ tm.year) (last : MINYEAR + tm.year ≤ maxYear) :
    Good (InRange maxYear tm) (instant tm) (normalizeDays maxYear tm) := by
  have isYear : int (MINYEAR + tm.year) = .ok (MINYEAR + tm.year) := by
    apply int_ok
    unfold IsInt INT_MIN INT_MAX MINYEAR at *
    omega
  have month := carried.mon
  have number := carried.dayNumber
  have walked := earlier_spec (MINYEAR + tm.year) tm.mon.toNat tm.mday (by omega) (by omega) isDay
  unfold normalizeDays
  rw [if_neg (by omega), isYear]
  change Good _ _ (if maxYear < MINYEAR + tm.year then _ else _)
  rw [if_neg (by omega)]
  generalize earlier (MINYEAR + tm.year) tm.mon.toNat tm.mday = back at walked ⊢
  cases back with
  | error stop =>
    cases stop with
    | overflow => exact walked.elim
    | refused =>
      apply good_refused
      rw [carried.inRange_iff, number]
      change _ ≤ _ at walked
      omega
  | ok made =>
    rcases made with ⟨year, mon, day⟩
    have ⟨⟨first, before, isDay'⟩, month', start, same⟩ := walked
    have walked' := later_spec maxYear year mon day (by omega) month' isDay' start
    change Good _ _ ((later maxYear year mon day).bind _)
    generalize later maxYear year mon day = forth at walked' ⊢
    cases forth with
    | error stop =>
      cases stop with
      | overflow => exact walked'.elim
      | refused =>
        apply good_refused
        rw [carried.inRange_iff, number]
        change _ < _ at walked'
        omega
    | ok made =>
      rcases made with ⟨year', mon', day'⟩
      have ⟨⟨after_, last', fits⟩, month'', start', same'⟩ := walked'
      exact finish_good known carried (by omega) last' month'' start' fits (by omega)

theorem normalizeDays_iff (known : maxYear = 2038 ∨ maxYear = 9999) (carried : Carried tm)
    (isDay : IsInt tm.mday) (isYear : IsInt tm.year) :
    Good (InRange maxYear tm) (instant tm) (normalizeDays maxYear tm) ↔
      MINYEAR + tm.year ≤ INT_MAX ∧ (InRange maxYear tm → 0 ≤ tm.year ∧ MINYEAR + tm.year ≤ maxYear) := by
  have minimum : INT_MIN ≤ MINYEAR + tm.year := by
    unfold IsInt INT_MIN at *
    unfold MINYEAR
    omega
  have span : maxYear ≤ INT_MAX := by
    unfold INT_MAX
    omega
  by_cases negative : tm.year < 0
  · have small : MINYEAR + tm.year ≤ INT_MAX := by
      unfold MINYEAR INT_MAX
      omega
    unfold normalizeDays
    rw [if_pos negative, good_refused_iff]
    constructor
    · intro outside
      exact ⟨small, fun inside => absurd inside outside⟩
    · intro sound inside
      have := (sound.2 inside).1
      omega
  · by_cases over_ : INT_MAX < MINYEAR + tm.year
    · have overflow : int (MINYEAR + tm.year) = .error .overflow := int_overflow (by unfold IsInt; omega)
      unfold normalizeDays
      rw [if_neg negative, overflow]
      constructor
      · intro good
        exact absurd rfl good.defined
      · intro sound
        have := sound.1
        omega
    · by_cases last : maxYear < MINYEAR + tm.year
      · have isSum : int (MINYEAR + tm.year) = .ok (MINYEAR + tm.year) := int_ok (by unfold IsInt; omega)
        unfold normalizeDays
        rw [if_neg negative, isSum]
        change Good _ _ (if maxYear < MINYEAR + tm.year then _ else _) ↔ _
        rw [if_pos last, good_refused_iff]
        constructor
        · intro outside
          exact ⟨by omega, fun inside => absurd inside outside⟩
        · intro sound inside
          have := (sound.2 inside).2
          omega
      · constructor
        · intro _
          exact ⟨by omega, fun _ => ⟨by omega, by omega⟩⟩
        · intro _
          exact days_good known carried isDay (by omega) (by omega)

theorem norm_good (field : max = 60 ∨ max = 24 ∨ max = 12) (isV : IsInt v)
    (isN : IsInt n) {rest : Int × Int → Except Stop Tm} {next : Int → Prop}
    (goes : IsInt (n + v / max) → (Good range t (rest (v % max, n + v / max)) ↔ next (n + v / max))) :
    Good range t (norm v n max >>= rest) ↔ Carries range v n max next := by
  have ⟨overflow, refused, carried⟩ := norm_spec field isV isN
  unfold Carries
  by_cases over_ : Overflows v n max
  · rw [overflow over_]
    constructor
    · intro good
      exact absurd rfl good.defined
    · intro sound
      exact absurd over_ sound.1
  · by_cases stops : Refused v n max
    · rw [refused over_ stops]
      change Good range t (.error .refused) ↔ _
      rw [good_refused_iff]
      simp [over_, stops]
    · have ⟨made, isNext⟩ := carried over_ stops
      rw [made]
      change Good range t (rest (v % max, n + v / max)) ↔ _
      rw [goes isNext]
      simp [over_, stops]

def carriedFields (tm : Tm) : Tm :=
  { tm with
    sec := tm.sec % 60
    min := (tm.min + tm.sec / 60) % 60
    hour := (tm.hour + (tm.min + tm.sec / 60) / 60) % 24
    mday := tm.mday + (tm.hour + (tm.min + tm.sec / 60) / 60) / 24
    mon := tm.mon % 12
    year := tm.year + tm.mon / 12 }

theorem carriedFields_carried (tm : Tm) : Carried (carriedFields tm) := by
  constructor <;> dsimp only [carriedFields] <;> omega

theorem carriedFields_instant (tm : Tm) : instant (carriedFields tm) = instant tm := by
  have day := (carriedFields_carried tm).dayNumber
  have day' : dayNumber tm = monthStart (MINYEAR + (tm.year + tm.mon / 12)) (tm.mon % 12).toNat + tm.mday - 1 := rfl
  dsimp only [carriedFields] at day
  unfold instant
  dsimp only [carriedFields]
  omega

/-- `normalize()` is right exactly for the fields that can be carried, where the date is in the range only if
its year is before the days are carried. -/
theorem normalizes_iff (maxYear : Int) (known : maxYear = 2038 ∨ maxYear = 9999) (tm : Tm) (sec : IsInt tm.sec)
    (min : IsInt tm.min) (hour : IsInt tm.hour) (mday : IsInt tm.mday) (mon : IsInt tm.mon) (year : IsInt tm.year) :
    Normalizes maxYear tm ↔ Sound maxYear tm := by
  unfold Normalizes normalize Sound
  apply norm_good (.inl rfl) sec min
  intro isMin
  apply norm_good (.inl rfl) isMin hour
  intro isHour
  apply norm_good (.inr (.inl rfl)) isHour mday
  intro isDay
  apply norm_good (.inr (.inr rfl)) mon year
  intro isYear
  have days := normalizeDays_iff known (carriedFields_carried tm) isDay isYear
  unfold InRange at days ⊢
  rw [carriedFields_instant] at days
  exact days

theorem normalizes_iff_minute :
    Normalizes 9999 ⟨60, 0, 0, 1, 0, 70, 0, 0, 0⟩ ↔ Sound 9999 ⟨60, 0, 0, 1, 0, 70, 0, 0, 0⟩ :=
  normalizes_iff 9999 (.inr rfl) _ (by decide) (by decide) (by decide) (by decide) (by decide) (by decide)

/-- The hours of the last `int` of minutes are in the range, but one minute cannot be taken away from it. -/
theorem minute_refused : ¬ ∀ (maxYear : Int), maxYear = 2038 ∨ maxYear = 9999 → ∀ tm : Tm, IsInt tm.sec →
    IsInt tm.min → IsInt tm.hour → IsInt tm.mday → IsInt tm.mon → IsInt tm.year → Normalizes maxYear tm := by
  intro all
  have good := all 9999 (.inr rfl) ⟨-1, INT_MAX, 0, 1, 0, 70, 0, 0, 0⟩ (by decide) (by decide) (by decide)
    (by decide) (by decide) (by decide)
  have refused : normalize 9999 ⟨-1, INT_MAX, 0, 1, 0, 70, 0, 0, 0⟩ = .error .refused := by
    have first : norm (-1) INT_MAX 60 = .error .refused := by decide
    unfold normalize
    rw [first]
    rfl
  have inside : InRange 9999 ⟨-1, INT_MAX, 0, 1, 0, 70, 0, 0, 0⟩ := by
    unfold InRange
    decide
  rcases good.succeeds.mpr inside with ⟨tm, made⟩
  cases refused.symm.trans made

end Scc.Libc.Mktime
