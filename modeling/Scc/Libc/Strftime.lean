import Scc.Libc.Calendar

/-!
# Formatted dates

`strftime()` writes to `s` while there is space left. A format is the list of its characters and
conversions here, and what is written is a list of blocks with their offsets from the start of the array. A
conversion may call `strftime()` again, so there is a depth. `none` is a behaviour that C leaves undefined. `bits`
is the width of a `size_t`.
-/

namespace Scc.Libc.Strftime

open Scc.Libc.Calendar (newyear daysyear newYear)

set_option autoImplicit false

structure Tm where
  sec : Int
  min : Int
  hour : Int
  mday : Int
  mon : Int
  year : Int
  wday : Int
  yday : Int
  gmtoff : Int
  zone : List Char

def days : List String := ["Sunday", "Monday", "Tuesday", "Wednesday", "Thursday", "Friday", "Saturday"]

def months : List String :=
  ["January", "February", "March", "April", "May", "June", "July", "August", "September", "October", "November",
    "December"]

def am_pm : List String := ["AM", "PM"]

def SUN : Int := 0
def MON : Int := 1
def THU : Int := 4

def first (day year : Int) : Int :=
  let ny := newyear year
  if ny = day then 0 else if day - ny < 0 then 7 - (ny - day) else day - ny

def weeknum (tm : Tm) (day : Int) : Int :=
  let fday := first day tm.year
  if tm.yday < fday then 0 else (tm.yday - fday).tdiv 7 + 1

def isoyear (tm : Tm) : Int :=
  if tm.yday < 7 then
    if tm.yday < first THU tm.year - 3 then tm.year - 1 else tm.year
  else if 357 < tm.yday then
    if 31 + (first THU (tm.year + 1) - 3) ≤ tm.mday then tm.year + 1 else tm.year
  else tm.year

def isoweek (tm : Tm) : Int :=
  let year := isoyear tm
  let monday := first THU year - 3
  let yday :=
    if tm.year < year then tm.mday - 31 + monday
    else if year < tm.year then daysyear year + tm.yday
    else tm.yday
  (yday - monday).tdiv 7 + 1

def isoday (tm : Tm) : Int := if tm.wday = 0 then 7 else tm.wday

structure Block where
  start : Nat
  text : List Char

def Block.put (mem : Nat → Char) (b : Block) : Nat → Char :=
  fun k => if b.start ≤ k then (b.text[k - b.start]?).getD (mem k) else mem k

def store (mem : Nat → Char) (blocks : List Block) : Nat → Char := blocks.foldl Block.put mem

def sval (siz : Nat) (strs : List String) (abrev : Bool) (idx max : Int) : Option (List Char) :=
  if siz = 0 then some []
  else if idx < 0 ∧ max ≤ idx then some ['?']
  else if idx < 0 then none
  else
    strs[idx.toNat]?.map fun str =>
      let len := if abrev then 3 else str.length
      str.toList.take (min len siz)

/-- The loops of `dval()`, with `n` characters left in front of the ones that are there. -/
def digits (fill : Char) : Nat → Nat → List Char → List Char
  | 0, _, s => s
  | n + 1, val, s =>
    let s := Nat.digitChar (val % 10) :: s
    if 0 < n ∧ 0 < val / 10 then digits fill n (val / 10) s else List.replicate n fill ++ s

def dval (siz prec : Nat) (fill : Char) (val : Int) : List Char :=
  if siz = 0 then []
  else
    let prec := if siz < prec then siz else prec
    if val < 0 then ['?'] else digits fill prec val.toNat []

/-- The second call of `dval()` adds `n` to a pointer that has moved by the sign. -/
def timezone (s siz : Nat) (tm : Tm) : List Block × Nat :=
  let sign := if 0 ≤ tm.gmtoff then '+' else '-'
  let off := if 0 ≤ tm.gmtoff then tm.gmtoff else -tm.gmtoff
  let hours := dval (siz - 1) 2 '0' (off.tdiv 3600)
  let n := 1 + hours.length
  let minutes := dval (siz - n) 2 '0' ((off.tmod 3600).tdiv 60)
  ([⟨s, [sign]⟩, ⟨s + 1, hours⟩, ⟨s + 1 + n, minutes⟩], n + minutes.length)

/-- A character, a conversion without its modifier, or a conversion at the end of the format. -/
inductive Item
  | plain (ch : Char)
  | conv (c : Char)
  | cut
deriving DecidableEq

def read : List Char → List Item
  | [] => []
  | ['%'] => [.cut]
  | ['%', 'E'] => [.cut]
  | ['%', 'O'] => [.cut]
  | '%' :: 'E' :: c :: fmt => .conv c :: read fmt
  | '%' :: 'O' :: c :: fmt => .conv c :: read fmt
  | '%' :: c :: fmt => .conv c :: read fmt
  | ch :: fmt => .plain ch :: read fmt

/-- The places that the cases of the switch lead to. A character without a case leads behind it. -/
inductive Action
  | sval (strs : List String) (abrev : Bool) (idx max : Int)
  | number (width : Nat) (fill : Char) (val : Int)
  | character (val : Char)
  | recursive (tfmt : String)
  | timezone
  | zone
  | nothing

def action (tm : Tm) : Char → Action
  | 'a' => .sval days true tm.wday 7
  | 'A' => .sval days false tm.wday 7
  | 'h' => .sval months true tm.mon 12
  | 'b' => .sval months true tm.mon 12
  | 'B' => .sval months false tm.mon 12
  | 'c' => .recursive "%a %b %e %T %Y"
  | 'C' => .number 2 '0' ((tm.year + 1900).tdiv 100)
  | 'd' => .number 2 '0' tm.mday
  | 'D' => .recursive "%m/%d/%y"
  | 'e' => .number 2 ' ' tm.mday
  | 'F' => .recursive "%Y-%m-%d"
  | 'g' => .number 2 '0' (isoyear tm)
  | 'G' => .number 4 '0' (isoyear tm + 1900)
  | 'H' => .number 2 '0' tm.hour
  | 'I' =>
    let val := if tm.hour = 0 then 12 else tm.hour
    .number 2 '0' (if 12 < val then val - 12 else val)
  | 'j' => .number 3 '0' (tm.yday + 1)
  | 'm' => .number 2 '0' (tm.mon + 1)
  | 'M' => .number 2 '0' tm.min
  | 'n' => .character '\n'
  | 'p' => .sval am_pm false (if 12 < tm.hour then 1 else 0) 2
  | 'r' => .recursive "%I:%M:%S %p"
  | 'R' => .recursive "%H:%M"
  | 'S' => .number 2 '0' tm.sec
  | 't' => .character '\t'
  | 'u' => .number 1 '0' (isoday tm)
  | 'U' => .number 2 '0' (weeknum tm SUN)
  | 'V' => .number 2 '0' (isoweek tm)
  | 'w' => .number 1 '0' tm.wday
  | 'W' => .number 2 '0' (weeknum tm MON)
  | 'X' => .recursive "%H:%M:%S"
  | 'T' => .recursive "%H:%M:%S"
  | 'x' => .recursive "%m/%d/%y"
  | 'y' => .number 2 '0' (tm.year.tmod 100)
  | 'Y' => .number 4 '0' (1900 + tm.year)
  | 'z' => .timezone
  | 'Z' => .zone
  | '%' => .character '%'
  | _ => .nothing

/-- A call of `strftime()`: the place and the size of the array, and the format. -/
abbrev Call : Type := Nat → Nat → List Char → Option (List Block × Nat)

/-- What one item writes at `s` with `n` characters left, and `inc`. -/
def perform (bits : Nat) (recur : Call) (tm : Tm) (i : Item) (s n : Nat) (inc : Option Nat) :
    Option (List Block × Nat) :=
  match i with
  | .plain ch => some ([⟨s, [ch]⟩], 1)
  | .cut => some ([], 0)
  | .conv c =>
    match action tm c with
    | .sval strs abrev idx max => (sval n strs abrev idx max).map fun text => ([⟨s, text⟩], text.length)
    | .number width fill val => some ([⟨s, dval n width fill val⟩], (dval n width fill val).length)
    | .character val => some ([⟨s, [val]⟩], 1)
    | .recursive tfmt => recur s ((n + 1) % 2 ^ bits) tfmt.toList
    | .timezone => some (timezone s n tm)
    | .zone => some ([⟨s, tm.zone.take n⟩], min tm.zone.length n)
    | .nothing => inc.map fun inc => ([], inc)

/-- The loop, with what is written and where `s` is at the end. -/
def loop (bits : Nat) (recur : Call) (tm : Tm) : List Item → Nat → Nat → Option Nat → Option (List Block × Nat)
  | [], s, _, _ => some ([], s)
  | i :: items, s, n, inc =>
    if n = 0 then some ([], s)
    else
      (perform bits recur tm i s n inc).bind fun (blocks, inc) =>
        (loop bits recur tm items (s + inc) ((n + (2 ^ bits - inc)) % 2 ^ bits) (some inc)).map fun (more, e) =>
          (blocks ++ more, e)

def strftime (bits : Nat) (tm : Tm) : Nat → Call
  | 0, _, _, _ => none
  | depth + 1, s, maxsize, fmt =>
    (loop bits (strftime bits tm depth) tm (read fmt) s maxsize none).map fun (blocks, e) =>
      if e - s = maxsize then (blocks, 0) else (blocks ++ [⟨e, ['\x00']⟩], e - s)

/-- A number with at least `width` characters. -/
def decimal (width : Nat) (fill : Char) (v : Int) : List Char := (Nat.toDigits 10 v.toNat).leftpad width fill

/-- The day of the week of a day of a year. -/
def weekday (year yday : Int) : Int := (newYear (1900 + year) + yday + 4) % 7

/-- The weeks of a year that begin with a certain day of the week, up to the day. -/
def weeks (tm : Tm) (day : Int) : Nat :=
  ((List.range (tm.yday.toNat + 1)).filter fun d : Nat => weekday tm.year d = day).length

/-- The day of the year that is the Thursday of the week, where a week begins with Monday. -/
def thursday (tm : Tm) : Int := tm.yday - (weekday tm.year tm.yday + 6) % 7 + 3

/-- The year of the week is the one of its Thursday. -/
def weekYear (tm : Tm) : Int :=
  if thursday tm < 0 then tm.year - 1
  else if daysyear (1900 + tm.year) ≤ thursday tm then tm.year + 1
  else tm.year

def week (tm : Tm) : Int :=
  (if thursday tm < 0 then thursday tm + daysyear (1900 + tm.year - 1)
    else if daysyear (1900 + tm.year) ≤ thursday tm then thursday tm - daysyear (1900 + tm.year)
    else thursday tm) / 7 + 1

def dayName (tm : Tm) : List Char := (days.getD tm.wday.toNat "").toList
def monthName (tm : Tm) : List Char := (months.getD tm.mon.toNat "").toList
def hour12 (tm : Tm) : List Char := decimal 2 '0' ((tm.hour + 11) % 12 + 1)
def amPm (tm : Tm) : List Char := (if 12 ≤ tm.hour then "PM" else "AM").toList
def year4 (tm : Tm) : List Char := decimal 4 '0' (1900 + tm.year)

def time (tm : Tm) : List Char := decimal 2 '0' tm.hour ++ ':' :: decimal 2 '0' tm.min ++ ':' :: decimal 2 '0' tm.sec

def date (tm : Tm) : List Char :=
  decimal 2 '0' (tm.mon + 1) ++ '/' :: decimal 2 '0' tm.mday ++ '/' :: decimal 2 '0' (tm.year % 100)

def offset (tm : Tm) : List Char :=
  (if 0 ≤ tm.gmtoff then '+' else '-') ::
    (decimal 2 '0' (tm.gmtoff.natAbs / 3600 : Nat) ++ decimal 2 '0' (tm.gmtoff.natAbs % 3600 / 60 : Nat))

def expand (tm : Tm) : Char → Option (List Char)
  | 'a' => some ((dayName tm).take 3)
  | 'A' => some (dayName tm)
  | 'h' => some ((monthName tm).take 3)
  | 'b' => some ((monthName tm).take 3)
  | 'B' => some (monthName tm)
  | 'c' => some ((dayName tm).take 3 ++ ' ' :: (monthName tm).take 3 ++ ' ' :: decimal 2 ' ' tm.mday ++
      ' ' :: time tm ++ ' ' :: year4 tm)
  | 'C' => some (decimal 2 '0' ((1900 + tm.year) / 100))
  | 'd' => some (decimal 2 '0' tm.mday)
  | 'D' => some (date tm)
  | 'e' => some (decimal 2 ' ' tm.mday)
  | 'F' => some (year4 tm ++ '-' :: decimal 2 '0' (tm.mon + 1) ++ '-' :: decimal 2 '0' tm.mday)
  | 'g' => some (decimal 2 '0' ((1900 + weekYear tm) % 100))
  | 'G' => some (decimal 4 '0' (1900 + weekYear tm))
  | 'H' => some (decimal 2 '0' tm.hour)
  | 'I' => some (hour12 tm)
  | 'j' => some (decimal 3 '0' (tm.yday + 1))
  | 'm' => some (decimal 2 '0' (tm.mon + 1))
  | 'M' => some (decimal 2 '0' tm.min)
  | 'n' => some ['\n']
  | 'p' => some (amPm tm)
  | 'r' => some (hour12 tm ++ ':' :: decimal 2 '0' tm.min ++ ':' :: decimal 2 '0' tm.sec ++ ' ' :: amPm tm)
  | 'R' => some (decimal 2 '0' tm.hour ++ ':' :: decimal 2 '0' tm.min)
  | 'S' => some (decimal 2 '0' tm.sec)
  | 't' => some ['\t']
  | 'u' => some (decimal 1 '0' ((tm.wday + 6) % 7 + 1))
  | 'U' => some (decimal 2 '0' (weeks tm SUN))
  | 'V' => some (decimal 2 '0' (week tm))
  | 'w' => some (decimal 1 '0' tm.wday)
  | 'W' => some (decimal 2 '0' (weeks tm MON))
  | 'X' => some (time tm)
  | 'T' => some (time tm)
  | 'x' => some (date tm)
  | 'y' => some (decimal 2 '0' (tm.year % 100))
  | 'Y' => some (year4 tm)
  | 'z' => some (offset tm)
  | 'Z' => some tm.zone
  | '%' => some ['%']
  | _ => none

def Item.text (tm : Tm) : Item → Option (List Char)
  | .plain ch => some [ch]
  | .conv c => expand tm c
  | .cut => none

/-- The expansion of a format whose conversions are all known. -/
def expansion (tm : Tm) : List Item → Option (List Char)
  | [] => some []
  | i :: items => (i.text tm).bind fun text => (expansion tm items).map (text ++ ·)

/-- The fields are in their ranges, the year from 1900 to `maxYear`. -/
structure InRange (maxYear : Int) (tm : Tm) : Prop where
  sec : 0 ≤ tm.sec ∧ tm.sec ≤ 60
  min : 0 ≤ tm.min ∧ tm.min ≤ 59
  hour : 0 ≤ tm.hour ∧ tm.hour ≤ 23
  mday : 1 ≤ tm.mday ∧ tm.mday ≤ 31
  mon : 0 ≤ tm.mon ∧ tm.mon ≤ 11
  year : 0 ≤ tm.year ∧ 1900 + tm.year ≤ maxYear
  wday : 0 ≤ tm.wday ∧ tm.wday ≤ 6
  yday : 0 ≤ tm.yday ∧ tm.yday ≤ 365
  gmtoff : -360000 < tm.gmtoff ∧ tm.gmtoff < 360000

def Block.Inside (maxsize : Nat) (b : Block) : Prop := b.text ≠ [] → b.start + b.text.length ≤ maxsize

/-- What was promised for the array of `maxsize` characters, whatever is in it before. -/
structure Contract (maxsize : Nat) (text : List Char) (blocks : List Block) (n : Nat) : Prop where
  inside : ∀ b ∈ blocks, b.Inside maxsize
  returned : n = if text.length < maxsize then text.length else 0
  written : text.length < maxsize → ∀ mem : Nat → Char,
    (∀ k c, text[k]? = some c → store mem blocks k = c) ∧ store mem blocks text.length = '\x00'

end Scc.Libc.Strftime
