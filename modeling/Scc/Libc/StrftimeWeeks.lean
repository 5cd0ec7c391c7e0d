import Scc.Libc.Strftime

/-!
# Numbers and weeks of a date

What `dval()` writes is the decimal number, and the weeks that `strftime()` computes from the first day of the
year are those of the calendar, apart from the end of a year of weeks.
-/

namespace Scc.Libc.Strftime

open Scc.Libc.Calendar (newyear daysyear newYear)

set_option autoImplicit false

theorem digits_length (fill : Char) {n : Nat} (some_ : 0 < n) (val : Nat) (s : List Char) :
    (digits fill n val s).length = n + s.length := by
  induction n generalizing val s with
  | zero => omega
  | succ n ih =>
    unfold digits
    dsimp only
    split_ifs with more
    · rw [ih more.1, List.length_cons]
      omega
    · simp
      omega

theorem digits_decimal (fill : Char) {n : Nat} (some_ : 0 < n) {val : Nat} (fits : val < 10 ^ n) (s : List Char) :
    digits fill n val s = (Nat.toDigits 10 val).leftpad n fill ++ s := by
  induction n generalizing val s with
  | zero => omega
  | succ n ih =>
    unfold digits
    dsimp only
    split_ifs with more
    · have large : 10 ≤ val := by omega
      have fewer : val / 10 < 10 ^ n := by
        rw [Nat.div_lt_iff_lt_mul (by decide), ← Nat.pow_succ]
        exact fits
      rw [ih more.1 fewer, Nat.toDigits_of_base_le (by decide) large]
      simp [List.leftpad]
    · have small : val < 10 := by
        by_cases last : n = 0
        · subst last
          exact fits
        · omega
      rw [Nat.toDigits_of_lt_base small, Nat.mod_eq_of_lt small]
      simp [List.leftpad]

variable {val maxYear : Int} {tm : Tm}

theorem dval_length (siz width : Nat) (some_ : 0 < width) (fill : Char) (positive : 0 ≤ val) :
    (dval siz width fill val).length = min siz width := by
  unfold dval
  by_cases none_ : siz = 0
  · simp [none_]
  · rw [if_neg none_, if_neg (by omega)]
    split_ifs
    · rw [digits_length fill (by omega)]
      simp
      omega
    · rw [digits_length fill some_]
      simp
      omega

theorem dval_decimal {siz width : Nat} (some_ : 0 < width) (room : width ≤ siz) (fill : Char)
    (positive : 0 ≤ val) (fits : val < 10 ^ width) : dval siz width fill val = decimal width fill val := by
  have fits' : val.toNat < 10 ^ width := by
    have cast : ((10 ^ width : Nat) : Int) = 10 ^ width := by push_cast; rfl
    omega
  unfold dval decimal
  rw [if_neg (by omega), if_neg (by omega), if_neg (by omega), digits_decimal fill some_ fits', List.append_nil]

theorem decimal_length {width : Nat} (some_ : 0 < width) (fill : Char) (positive : 0 ≤ val)
    (fits : val < 10 ^ width) : (decimal width fill val).length = width := by
  rw [← dval_decimal some_ (Nat.le_refl width) fill positive fits, dval_length _ _ some_ _ positive, Nat.min_self]

theorem weekday_add (year yday : Int) : weekday year yday = (weekday year 0 + yday) % 7 := by
  unfold weekday
  omega

theorem newyear_weekday {year : Int} (since : -1 ≤ year) : newyear year = weekday year 0 := by
  have quarter : (year + (1900 - 1)).tdiv 4 = (year + (1900 - 1)) / 4 := Int.tdiv_eq_ediv_of_nonneg (by omega)
  have century : (year + (1900 - 1)).tdiv 100 = (year + (1900 - 1)) / 100 := Int.tdiv_eq_ediv_of_nonneg (by omega)
  have cycle : (year + (1900 - 1)).tdiv 400 = (year + (1900 - 1)) / 400 := Int.tdiv_eq_ediv_of_nonneg (by omega)
  have epoch : Calendar.daysBefore 1970 = 719162 := by decide
  have before : 1900 + year - 1 = year + (1900 - 1) := by omega
  unfold newyear weekday newYear
  dsimp only
  rw [quarter, century, cycle, Int.tmod_eq_emod_of_nonneg (by omega), epoch]
  unfold Calendar.daysBefore
  rw [before]
  omega

theorem weekday_succ (year : Int) : weekday (year + 1) 0 = (weekday year 0 + daysyear (1900 + year)) % 7 := by
  have next := Calendar.newYear_succ (1900 + year)
  rw [Int.add_assoc] at next
  unfold weekday
  omega

theorem first_eq {day year : Int} (since : -1 ≤ year) (lower : 0 ≤ day) (upper : day < 7) :
    first day year = (day - weekday year 0) % 7 := by
  have week : 0 ≤ weekday year 0 ∧ weekday year 0 < 7 := by
    unfold weekday
    omega
  unfold first
  rw [newyear_weekday since]
  dsimp only
  split_ifs <;> omega

theorem count_weeks (year : Int) (day : Int) (lower : 0 ≤ day) (upper : day < 7) (yday : Nat) :
    (((List.range (yday + 1)).filter fun d : Nat => weekday year d = day).length : Int) =
      if (yday : Int) < (day - weekday year 0) % 7 then 0 else ((yday : Int) - (day - weekday year 0) % 7) / 7 + 1 := by
  have range : 0 ≤ weekday year 0 ∧ weekday year 0 < 7 := by
    unfold weekday
    omega
  induction yday with
  | zero =>
    simp only [Nat.zero_add, List.range_one, List.filter_cons, List.filter_nil, Nat.cast_zero, decide_eq_true_eq]
    split_ifs <;> simp <;> omega
  | succ yday ih =>
    rw [List.range_succ, List.filter_append, List.length_append, Nat.cast_add, ih]
    have here := weekday_add year ((yday + 1 : Nat) : Int)
    simp only [List.filter_cons, List.filter_nil, decide_eq_true_eq]
    rw [here]
    push_cast
    split_ifs <;> simp <;> omega

theorem weeknum_eq (since : 0 ≤ tm.year) (yday : 0 ≤ tm.yday) {day : Int} (lower : 0 ≤ day)
    (upper : day < 7) : weeknum tm day = weeks tm day := by
  have count := count_weeks tm.year day lower upper tm.yday.toNat
  rw [Int.toNat_of_nonneg yday] at count
  unfold weeknum weeks
  rw [count, first_eq (by omega) lower upper]
  dsimp only
  split_ifs with before
  · rfl
  · rw [Int.tdiv_eq_ediv_of_nonneg (by omega)]

/-- The year of the week is the right one at the end of a year: the first Monday of the next one is counted from
the 31 December in `isoyear()`. -/
def IsoRight (tm : Tm) : Prop :=
  tm.yday ≤ 357 ∨ (31 + (first THU (tm.year + 1) - 3) ≤ tm.mday ↔
    daysyear (1900 + tm.year) + (first THU (tm.year + 1) - 3) ≤ tm.yday)

theorem isoyear_iff {maxYear : Int} {tm : Tm} (fields : InRange maxYear tm) :
    isoyear tm = weekYear tm ↔ IsoRight tm := by
  have year := fields.year
  have yday := fields.yday
  have span := Calendar.daysyear_pos (1900 + tm.year)
  have next := weekday_succ tm.year
  have here := weekday_add tm.year tm.yday
  have range : 0 ≤ weekday tm.year 0 ∧ weekday tm.year 0 < 7 := by
    unfold weekday
    omega
  have monday := @first_eq THU tm.year (by omega) (by decide) (by decide)
  have monday' := @first_eq THU (tm.year + 1) (by omega) (by decide) (by decide)
  unfold isoyear weekYear thursday IsoRight
  rw [monday, monday', next, here]
  unfold THU
  generalize weekday tm.year 0 = w at *
  generalize daysyear (1900 + tm.year) = span_ at *
  by_cases start : tm.yday < 7
  · rw [if_pos start]
    have early : tm.yday ≤ 357 := by omega
    simp only [early, true_or, iff_true]
    split_ifs <;> omega
  · rw [if_neg start]
    by_cases ends : 357 < tm.yday
    · rw [if_pos ends]
      have late : ¬ tm.yday ≤ 357 := by omega
      simp only [late, false_or]
      by_cases code : 31 + ((4 - (w + span_) % 7) % 7 - 3) ≤ tm.mday
      · simp only [code, if_true, true_iff]
        split_ifs <;> omega
      · simp only [code, if_false, false_iff]
        split_ifs <;> omega
    · rw [if_neg ends]
      have early : tm.yday ≤ 357 := by omega
      simp only [early, true_or, iff_true]
      split_ifs <;> omega

theorem daysyear_short {year : Int} (since : 0 ≤ year)
    (friday : 4 < weekday (year + 1) 0 ∨ weekday (year + 1) 0 < 1) :
    daysyear year = daysyear (1900 + year) := by
  have epoch : Calendar.daysBefore 1970 = 719162 := by decide
  unfold weekday newYear at friday
  rw [epoch] at friday
  unfold Calendar.daysBefore at friday
  unfold Calendar.daysyear
  by_cases century : year % 100 = 0
  · have cycle : year % 400 = 0 ∨ year % 400 = 100 ∨ year % 400 = 200 ∨ year % 400 = 300 := by omega
    have whole : year = 400 * (year / 400) + year % 400 := by omega
    generalize year / 400 = k at whole
    rcases cycle with rest | rest | rest | rest <;> rw [rest] at whole <;> subst whole <;> split_ifs <;> omega
  · split_ifs <;> omega

theorem isoyear_cases (tm : Tm) :
    isoyear tm = tm.year ∨ (tm.yday < 7 ∧ tm.yday < first THU tm.year - 3 ∧ isoyear tm = tm.year - 1) ∨
      (357 < tm.yday ∧ 31 + (first THU (tm.year + 1) - 3) ≤ tm.mday ∧ isoyear tm = tm.year + 1) := by
  unfold isoyear
  split_ifs <;> omega

theorem weekYear_cases (tm : Tm) :
    weekYear tm = tm.year - 1 ∨ weekYear tm = tm.year ∨ weekYear tm = tm.year + 1 := by
  unfold weekYear
  split_ifs <;> simp

theorem isoweek_iff {maxYear : Int} {tm : Tm} (fields : InRange maxYear tm) : isoweek tm = week tm ↔ IsoRight tm := by
  have year := fields.year
  have yday := fields.yday
  have mday := fields.mday
  have span := Calendar.daysyear_pos (1900 + tm.year)
  have next := weekday_succ tm.year
  have here := weekday_add tm.year tm.yday
  have range : 0 ≤ weekday tm.year 0 ∧ weekday tm.year 0 < 7 := by
    unfold weekday
    omega
  have monday := @first_eq THU tm.year (by omega) (by decide) (by decide)
  have monday' := @first_eq THU (tm.year + 1) (by omega) (by decide) (by decide)
  rw [← isoyear_iff fields]
  rcases isoyear_cases tm with same | ⟨start, early, before⟩ | ⟨ends, late, after_⟩
  · unfold isoweek week weekYear thursday
    rw [same]
    dsimp only
    rw [monday, here, if_neg (Int.lt_irrefl _), if_neg (Int.lt_irrefl _)]
    unfold THU
    have forward : 0 ≤ tm.yday - ((4 - weekday tm.year 0) % 7 - 3) := by
      unfold isoyear at same
      rw [monday] at same
      unfold THU at same
      split_ifs at same <;> omega
    rw [Int.tdiv_eq_ediv_of_nonneg forward]
    generalize weekday tm.year 0 = w at *
    generalize daysyear (1900 + tm.year) = span_ at *
    split_ifs <;> omega
  · have previous := @first_eq THU (tm.year - 1)
    have turn := weekday_succ (tm.year - 1)
    have some_ : 0 < tm.year := by
      by_contra zero
      have zero' : tm.year = 0 := by omega
      have january : weekday 0 0 = 1 := by decide
      rw [monday, zero', january] at early
      unfold THU at early
      omega
    have spec : thursday tm < 0 := by
      unfold thursday
      rw [here]
      rw [monday] at early
      unfold THU at early
      omega
    have right : isoyear tm = weekYear tm := by
      rw [before]
      unfold weekYear
      rw [if_pos spec]
    have short : daysyear (tm.year - 1) = daysyear (1900 + (tm.year - 1)) := by
      apply daysyear_short (by omega)
      rw [Int.sub_add_cancel]
      rw [monday] at early
      unfold THU at early
      omega
    have days := Calendar.daysyear_pos (1900 + (tm.year - 1))
    rw [Int.sub_add_cancel] at turn
    have year_ : 1900 + tm.year - 1 = 1900 + (tm.year - 1) := by omega
    simp only [right, iff_true]
    unfold isoweek week
    rw [before, if_pos spec, year_]
    dsimp only
    rw [if_neg (by omega), if_pos (by omega), previous (by omega) (by decide) (by decide), short]
    unfold thursday at spec ⊢
    rw [here] at spec ⊢
    unfold THU
    generalize weekday (tm.year - 1) 0 = v at *
    generalize weekday tm.year 0 = w at *
    generalize daysyear (1900 + (tm.year - 1)) = span_ at *
    rw [Int.tdiv_eq_ediv_of_nonneg (by omega)]
    omega
  · unfold isoweek week weekYear thursday
    rw [after_, here]
    dsimp only
    rw [if_pos (by omega)]
    have code : (tm.mday - 31 + (first THU (tm.year + 1) - 3) - (first THU (tm.year + 1) - 3)).tdiv 7 = 0 := by
      rw [monday'] at late ⊢
      unfold THU at late ⊢
      rw [Int.add_sub_cancel]
      have days : tm.mday = 28 ∨ tm.mday = 29 ∨ tm.mday = 30 ∨ tm.mday = 31 := by omega
      rcases days with day | day | day | day <;> rw [day] <;> rfl
    rw [code]
    generalize weekday tm.year 0 = w at *
    generalize daysyear (1900 + tm.year) = span_ at *
    split_ifs <;> omega

theorem isoweek_bounds (fields : InRange maxYear tm) :
    (0 ≤ isoweek tm ∧ isoweek tm < 100) ∧ 0 ≤ week tm ∧ week tm < 100 := by
  have year := fields.year
  have yday := fields.yday
  have mday := fields.mday
  have span := Calendar.daysyear_pos (1900 + tm.year)
  have span' := Calendar.daysyear_pos (1900 + tm.year - 1)
  have here : 0 ≤ weekday tm.year tm.yday ∧ weekday tm.year tm.yday < 7 := by
    unfold weekday
    omega
  have monday := @first_eq THU tm.year (by omega) (by decide) (by decide)
  have monday' := @first_eq THU (tm.year + 1) (by omega) (by decide) (by decide)
  unfold THU at monday monday'
  constructor
  · have small : ∀ x : Int, -6 ≤ x → x ≤ 400 → 0 ≤ x.tdiv 7 + 1 ∧ x.tdiv 7 + 1 < 100 := by
      intro x lower upper
      have := Int.mul_tdiv_add_tmod x 7
      have := Int.tmod_lt_of_pos x (by decide : (0 : Int) < 7)
      have := Int.lt_tmod_of_pos x (by decide : (0 : Int) < 7)
      omega
    rcases isoyear_cases tm with same | ⟨start, early, before⟩ | ⟨ends, late, after_⟩
    · unfold isoweek
      rw [same]
      dsimp only
      rw [if_neg (Int.lt_irrefl _), if_neg (Int.lt_irrefl _)]
      unfold THU
      exact small _ (by omega) (by omega)
    · have short := Calendar.daysyear_pos (tm.year - 1)
      have previous : 0 ≤ first THU (tm.year - 1) ∧ first THU (tm.year - 1) ≤ 6 := by
        by_cases zero : tm.year = 0
        · have january : weekday 0 0 = 1 := by decide
          unfold THU at early
          rw [monday, zero, january] at early
          omega
        · have := @first_eq THU (tm.year - 1) (by omega) (by decide) (by decide)
          unfold THU at this ⊢
          omega
      unfold isoweek
      rw [before]
      dsimp only
      rw [if_neg (by omega), if_pos (by omega)]
      exact small _ (by omega) (by omega)
    · unfold isoweek
      rw [after_]
      dsimp only
      rw [if_pos (by omega)]
      unfold THU at late ⊢
      exact small _ (by omega) (by omega)
  · unfold week thursday
    split_ifs <;> omega

theorem weeks_bounds (fields : InRange maxYear tm) {day : Int} (lower : 0 ≤ day)
    (upper : day < 7) : weeknum tm day = weeks tm day ∧ 0 ≤ weeknum tm day ∧ weeknum tm day < 100 := by
  have yday := fields.yday
  have thisFirst := @first_eq day tm.year (by have := fields.year; omega) lower upper
  refine ⟨weeknum_eq fields.year.1 yday.1 lower upper, ?_⟩
  unfold weeknum
  rw [thisFirst]
  dsimp only
  split_ifs with before
  · omega
  · rw [Int.tdiv_eq_ediv_of_nonneg (by omega)]
    omega

theorem iso_years (known : maxYear = 2038 ∨ maxYear = 9999) (fields : InRange maxYear tm) :
    (0 ≤ isoyear tm ∧ isoyear tm ≤ 8099) ∧ 0 ≤ weekYear tm ∧ weekYear tm ≤ 8099 := by
  have year := fields.year
  have yday := fields.yday
  have mday := fields.mday
  have span := Calendar.daysyear_pos (1900 + tm.year)
  have here := weekday_add tm.year tm.yday
  have next := weekday_succ tm.year
  have monday := @first_eq THU tm.year (by omega) (by decide) (by decide)
  have monday' := @first_eq THU (tm.year + 1) (by omega) (by decide) (by decide)
  have start : tm.year = 0 → weekday tm.year 0 = 1 := by
    intro zero
    rw [zero]
    decide
  have last : tm.year = 8099 → weekday (tm.year + 1) 0 = 6 := by
    intro most
    rw [most]
    decide
  have range : 0 ≤ weekday tm.year 0 ∧ weekday tm.year 0 < 7 := by
    unfold weekday
    omega
  have range' : 0 ≤ weekday (tm.year + 1) 0 ∧ weekday (tm.year + 1) 0 < 7 := by
    unfold weekday
    omega
  unfold isoyear weekYear thursday
  rw [monday, monday', here]
  unfold THU
  constructor
  · split_ifs <;> omega
  · split_ifs <;> omega

end Scc.Libc.Strftime
