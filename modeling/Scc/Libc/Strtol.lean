import Mathlib.Algebra.Ring.Nat
import Mathlib.Algebra.Ring.Int.Defs
import Mathlib.Data.List.TakeWhile

/-!
# From a string to an integer

A string is the list of its bytes without the NUL, and a `char` is signed: the `ctype` functions look in
front of their table for a byte from 128 on. `long` and `long long` have any width. The position for `*end`
is an index of the string, and a null `end` is not written. `subject` is the subject sequence of C99.
-/

namespace Scc.Libc.Strtol

set_option autoImplicit false

def char (c : UInt8) : Int := if c.toNat < 128 then c.toNat else c.toNat - 256

def U : Nat := 0x01
def L : Nat := 0x02
def D : Nat := 0x04
def C : Nat := 0x08
def P : Nat := 0x10
def S : Nat := 0x20
def X : Nat := 0x40
def SP : Nat := 0x80

/-- `__ctype` up to 127, and the rest is 0. -/
def table : List Nat :=
  0 :: List.replicate 9 C ++ List.replicate 5 (C ||| S) ++ List.replicate 18 C ++ (S ||| SP) :: List.replicate 15 P ++
    List.replicate 10 D ++ List.replicate 7 P ++ List.replicate 6 (U ||| X) ++ List.replicate 20 U ++
    List.replicate 6 P ++ List.replicate 6 (L ||| X) ++ List.replicate 20 L ++ List.replicate 4 P ++ [C]

/-- `(__ctype+1)[c]`, with the memory in front of the table. -/
def ctype (front : Int → Nat) (c : Int) : Nat := if c < -1 then front c else table.getD (c + 1).toNat 0

def isspace (front : Int → Nat) (c : Int) : Bool := ctype front c &&& S ≠ 0

def islower (front : Int → Nat) (c : Int) : Bool := ctype front c &&& L ≠ 0

/-- `c & ~0x20` clears a bit, of a negative number too. -/
def toupper (front : Int → Nat) (c : Int) : Int := if islower front c then c - c / 32 % 2 * 32 else c

def digits : List Int := "0123456789ABCDEFGHIJKLMNOPQRSTUVWXYZ".toList.map fun c => c.toNat

def strchr (s : List Int) (c : Int) : Option Nat := (s ++ [0]).idxOf? c

def INT_MAX : Nat := 2 ^ 31 - 1

def dtoi (front : Int → Nat) (c : Int) : Nat := (strchr digits (toupper front c)).getD INT_MAX

/-- The value, the position for `*end`, and whether `errno` is `ERANGE`. -/
structure Conversion where
  value : Int
  stop : Nat
  erange : Bool
deriving DecidableEq

structure Start where
  sign : Int
  base : Nat
  rest : List UInt8

def start (front : Int → Nat) (minus : Int) (s : List UInt8) (base : Nat) : Start :=
  let s := s.dropWhile fun c => isspace front (char c)
  let sign := if s.head? = some 45 then minus else -minus
  let s := if s.head? = some 45 ∨ s.head? = some 43 then s.drop 1 else s
  let x := toupper front (char (s.getD 1 0)) = 88
  let base := if base = 0 then if s.head? = some 48 then if x then 16 else 8 else 10 else base
  ⟨sign, base, if base = 16 ∧ s.head? = some 48 ∧ x then s.drop 2 else s⟩

/-- The loop over the digits: the number, what is left, and whether it overflows. The NUL at the end is not
a digit. -/
def convert (step : Int → Nat → Option Int) (front : Int → Nat) (base : Nat) :
    List UInt8 → Int → Int × List UInt8 × Bool
  | [], n => (n, [], false)
  | c :: t, n =>
    if dtoi front (char c) < base then
      match step n (dtoi front (char c)) with
      | none => (n, c :: t, true)
      | some n => convert step front base t n
    else (n, c :: t, false)

/-- A turn of `strtol()`, where `n` is negative. -/
def subtract (min sign : Int) (base : Nat) (n : Int) (d : Nat) : Option Int :=
  if n < min.tdiv base then none
  else if -(d : Int) < min - n * base then none
  else if n * base - d = min ∧ sign < 0 then none
  else some (n * base - d)

/-- A turn of `strtoul()`. -/
def add (max : Nat) (base : Nat) (n : Int) (d : Nat) : Option Int :=
  if n > (max / base : Nat) then none
  else if d > max - n * base then none
  else some (n * base + d)

def strto (front : Int → Nat) (minus : Int) (step : Int → Nat → Int → Nat → Option Int) (overflow : Int → Int)
    (ret : Int → Int) (s : List UInt8) (base : Nat) : Conversion :=
  let from_ := start front minus s base
  let r := convert (step from_.sign from_.base) front from_.base from_.rest 0
  if r.2.2 then ⟨overflow from_.sign, s.length - r.2.1.length, true⟩
  else ⟨ret (r.1 * from_.sign), if r.2.1.length ≠ from_.rest.length then s.length - r.2.1.length else 0, false⟩

def LONG_MAX (w : Nat) : Int := 2 ^ (w - 1) - 1
def LONG_MIN (w : Nat) : Int := -LONG_MAX w - 1
def ULONG_MAX (w : Nat) : Nat := 2 ^ w - 1

def strtol (front : Int → Nat) (long : Nat) : List UInt8 → Nat → Conversion :=
  strto front 1 (subtract (LONG_MIN long)) (fun sign => if sign < 0 then LONG_MAX long else LONG_MIN long) id

def strtoll (front : Int → Nat) (longlong : Nat) : List UInt8 → Nat → Conversion :=
  strto front 1 (subtract (LONG_MIN longlong)) (fun sign => if sign < 0 then LONG_MAX longlong else LONG_MIN longlong) id

def strtoul (front : Int → Nat) (long : Nat) : List UInt8 → Nat → Conversion :=
  strto front (-1) (fun _ => add (ULONG_MAX long)) (fun _ => ULONG_MAX long) (· % 2 ^ long)

def strtoull (front : Int → Nat) (longlong : Nat) : List UInt8 → Nat → Conversion :=
  strto front (-1) (fun _ => add (ULONG_MAX longlong)) (fun _ => ULONG_MAX longlong) (· % 2 ^ longlong)

def blank (c : UInt8) : Bool := c = 32 ∨ 9 ≤ c ∧ c ≤ 13

def digit (c : UInt8) : Option Nat :=
  if 48 ≤ c ∧ c ≤ 57 then some (c.toNat - 48)
  else if 65 ≤ c ∧ c ≤ 90 then some (c.toNat - 55)
  else if 97 ≤ c ∧ c ≤ 122 then some (c.toNat - 87)
  else none

def digitIn (base : Nat) (c : UInt8) : Bool := (digit c).any (· < base)

def value (base : Nat) (ds : List UInt8) : Nat := ds.foldl (fun v c => v * base + (digit c).getD 0) 0

structure Subject where
  negative : Bool
  value : Nat
  stop : Nat
deriving DecidableEq

/-- The string after the blanks and the sign. -/
def unsigned (s : List UInt8) : List UInt8 :=
  let s := s.dropWhile blank
  if s.head? = some 45 ∨ s.head? = some 43 then s.drop 1 else s

def negative (s : List UInt8) : Bool := (s.dropWhile blank).head? = some 45

def Prefixed (base : Nat) (s : List UInt8) : Prop :=
  (base = 0 ∨ base = 16) ∧ s.head? = some 48 ∧ (s.getD 1 0 = 88 ∨ s.getD 1 0 = 120)

instance (base : Nat) (s : List UInt8) : Decidable (Prefixed base s) := by
  unfold Prefixed
  infer_instance

def Hexadecimal (base : Nat) (s : List UInt8) : Prop := Prefixed base s ∧ digitIn 16 (s.getD 2 0) = true

instance (base : Nat) (s : List UInt8) : Decidable (Hexadecimal base s) := by
  unfold Hexadecimal
  infer_instance

def baseOf (base : Nat) (s : List UInt8) : Nat :=
  if Hexadecimal base s then 16 else if base = 0 then if s.head? = some 48 then 8 else 10 else base

def number (base : Nat) (s : List UInt8) : List UInt8 := if Hexadecimal base s then s.drop 2 else s

def subject (s : List UInt8) (base : Nat) : Option Subject :=
  let t := unsigned s
  let ds := (number base t).takeWhile (digitIn (baseOf base t))
  if ds = [] then none
  else some ⟨negative s, value (baseOf base t) ds, s.length - (number base t).length + ds.length⟩

/-- The value of a subject sequence in a signed type. -/
def clamped (w : Nat) : Option Subject → Conversion
  | none => ⟨0, 0, false⟩
  | some j =>
    let v : Int := if j.negative then -(j.value : Int) else j.value
    if v < LONG_MIN w then ⟨LONG_MIN w, j.stop, true⟩
    else if LONG_MAX w < v then ⟨LONG_MAX w, j.stop, true⟩
    else ⟨v, j.stop, false⟩

/-- In an unsigned type a minus negates the number that was read. -/
def reduced (w : Nat) : Option Subject → Conversion
  | none => ⟨0, 0, false⟩
  | some j =>
    if ULONG_MAX w < j.value then ⟨ULONG_MAX w, j.stop, true⟩
    else ⟨(if j.negative then -(j.value : Int) else j.value) % 2 ^ w, j.stop, false⟩

def nowhere (_ : Int) : Nat := 0

theorem ctype_low (front : Int → Nat) {c : Int} (low : -1 ≤ c) : ctype front c = ctype nowhere c := by
  unfold ctype
  rw [if_neg (by omega), if_neg (by omega)]

theorem low_bytes : (List.range 128).all (fun n =>
    let c := UInt8.ofNat n
    isspace nowhere (char c) = blank c ∧
      (digit c).all (fun d => dtoi nowhere (char c) = d ∧ d < 36) ∧
      (digit c = none → 36 ≤ dtoi nowhere (char c)) ∧
      (toupper nowhere (char c) = 88 ↔ c = 88 ∨ c = 120)) = true := by
  decide +kernel

variable {c : UInt8} {front : Int → Nat} {s : List UInt8}

theorem char_low (low : c.toNat < 128) : -1 ≤ char c := by
  unfold char
  rw [if_pos low]
  omega

theorem char_high (high : ¬c.toNat < 128) : char c < 0 := by
  have := c.toNat_lt
  unfold char
  rw [if_neg high]
  omega

theorem low_byte (low : c.toNat < 128) : isspace nowhere (char c) = blank c ∧
      (digit c).all (fun d => dtoi nowhere (char c) = d ∧ d < 36) ∧
      (digit c = none → 36 ≤ dtoi nowhere (char c)) ∧ (toupper nowhere (char c) = 88 ↔ c = 88 ∨ c = 120) := by
  have at_ := List.all_eq_true.mp low_bytes c.toNat (List.mem_range.mpr low)
  rw [UInt8.ofNat_toNat] at at_
  exact of_decide_eq_true at_

theorem toupper_low (front : Int → Nat) (low : c.toNat < 128) :
    toupper front (char c) = toupper nowhere (char c) := by
  unfold toupper islower
  rw [ctype_low front (char_low low)]

theorem toupper_high (front : Int → Nat) (high : ¬c.toNat < 128) : toupper front (char c) < 0 := by
  have negative := char_high high
  unfold toupper
  split_ifs <;> omega

theorem digits_nonneg : ∀ c ∈ digits ++ [0], 0 ≤ c := by
  have all : (digits ++ [0]).all (0 ≤ ·) = true := by decide
  intro c mem
  exact of_decide_eq_true (List.all_eq_true.mp all c mem)

theorem dtoi_high (front : Int → Nat) (high : ¬c.toNat < 128) : dtoi front (char c) = INT_MAX := by
  have absent : strchr digits (toupper front (char c)) = none := by
    unfold strchr
    rw [List.idxOf?_eq_none_iff]
    intro mem
    have := digits_nonneg _ mem
    have := toupper_high front high
    omega
  unfold dtoi
  rw [absent]
  rfl

theorem digit_high (high : ¬c.toNat < 128) : digit c = none := by
  unfold digit
  simp only [UInt8.le_iff_toNat_le]
  rw [if_neg (by simp; omega), if_neg (by simp; omega), if_neg (by simp; omega)]

theorem isspace_low (front : Int → Nat) (low : c.toNat < 128) : isspace front (char c) = blank c := by
  have same := (low_byte low).1
  unfold isspace at same ⊢
  rw [ctype_low front (char_low low)]
  exact same

theorem isspace_blank (front : Int → Nat) (is : blank c = true) : isspace front (char c) = true := by
  have low : c.toNat < 128 := by
    unfold blank at is
    simp only [UInt8.le_iff_toNat_le, decide_eq_true_eq] at is
    rcases is with rfl | range
    · decide
    · simp at range
      omega
  rw [isspace_low front low, is]

theorem dtoi_digit (front : Int → Nat) {d : Nat} (is : digit c = some d) :
    dtoi front (char c) = d ∧ d < 36 := by
  by_cases low : c.toNat < 128
  · have both := (low_byte low).2.1
    rw [is, Option.all_some, decide_eq_true_eq] at both
    unfold dtoi at both ⊢
    rw [toupper_low front low]
    exact both
  · rw [digit_high low] at is
    cases is

theorem dtoi_other (front : Int → Nat) (is : digit c = none) : 36 ≤ dtoi front (char c) := by
  by_cases low : c.toNat < 128
  · have large := (low_byte low).2.2.1 is
    unfold dtoi at large ⊢
    rw [toupper_low front low]
    exact large
  · rw [dtoi_high front low]
    decide

theorem dtoi_lt_iff (front : Int → Nat) {base : Nat} (small : base ≤ 36) (c : UInt8) :
    dtoi front (char c) < base ↔ digitIn base c = true := by
  unfold digitIn
  cases is : digit c with
  | none =>
    have := dtoi_other front is
    simp
    omega
  | some d =>
    rw [(dtoi_digit front is).1]
    simp

theorem toupper_iff (front : Int → Nat) (c : UInt8) : toupper front (char c) = 88 ↔ c = 88 ∨ c = 120 := by
  by_cases low : c.toNat < 128
  · rw [toupper_low front low]
    exact (low_byte low).2.2.2
  · have negative := toupper_high front low
    refine iff_of_false (by omega) ?_
    rintro (rfl | rfl) <;> exact low (by decide)

/-- A loop that keeps a number which stands for the digits read so far, as long as that fits. -/
structure Keeps (step : Int → Nat → Option Int) (base : Nat) (good : Nat → Prop) (stands : Nat → Int) : Prop where
  turn : ∀ v d, good (v * base + d) → step (stands v) d = some (stands (v * base + d))
  full : ∀ v d, ¬good (v * base + d) → step (stands v) d = none
  less : ∀ v d, good (v * base + d) → good v

section

variable {step : Int → Nat → Option Int} {base : Nat} {good : Nat → Prop} {stands : Nat → Int}

theorem Keeps.first (keeps : Keeps step base good stands) (ds : List UInt8) (v : Nat)
    (fits : good (ds.foldl (fun v c => v * base + (digit c).getD 0) v)) : good v := by
  induction ds generalizing v with
  | nil => exact fits
  | cons c ds ih => exact keeps.less v _ (ih _ fits)

theorem convert_digits (keeps : Keeps step base good stands) (small : base ≤ 36) (front : Int → Nat)
    (text : List UInt8) (v : Nat) (fits : good v) :
    let v' := (text.takeWhile (digitIn base)).foldl (fun v c => v * base + (digit c).getD 0) v
    let rest := text.dropWhile (digitIn base)
    (good v' → convert step front base text (stands v) = (stands v', rest, false)) ∧
      (¬good v' → ∃ n t, convert step front base text (stands v) = (n, t, true) ∧
        rest.length < t.length ∧ t.length ≤ text.length) := by
  induction text generalizing v with
  | nil => exact ⟨fun _ => rfl, fun full => absurd fits full⟩
  | cons c text ih =>
    dsimp only at ih ⊢
    by_cases is : digitIn base c = true
    · have number : dtoi front (char c) = (digit c).getD 0 := by
        unfold digitIn at is
        cases value : digit c with
        | none =>
          rw [value] at is
          cases is
        | some d => exact (dtoi_digit front value).1
      rw [List.takeWhile_cons_of_pos is, List.dropWhile_cons_of_pos is, List.foldl_cons]
      have turn : convert step front base (c :: text) (stands v) =
          match step (stands v) ((digit c).getD 0) with
          | none => (stands v, c :: text, true)
          | some n => convert step front base text n := by
        rw [convert, if_pos ((dtoi_lt_iff front small c).mpr is), number]
      rw [turn]
      by_cases next : good (v * base + (digit c).getD 0)
      · rw [keeps.turn v _ next]
        have later := ih (v * base + (digit c).getD 0) next
        refine ⟨later.1, fun full => ?_⟩
        rcases later.2 full with ⟨n, t, run, before, within⟩
        exact ⟨n, t, run, before, within.trans (Nat.le_succ _)⟩
      · rw [keeps.full v _ next]
        refine ⟨fun all => absurd (keeps.first _ _ all) next, fun _ => ⟨_, _, rfl, ?_, Nat.le_refl _⟩⟩
        exact Nat.lt_succ_of_le (List.length_dropWhile_le _ _)
    · rw [List.takeWhile_cons_of_neg is, List.dropWhile_cons_of_neg is]
      refine ⟨fun _ => ?_, fun full => absurd fits full⟩
      rw [convert, if_neg fun lt => is ((dtoi_lt_iff front small c).mp lt)]
      rfl

end

def SignedFits (w : Nat) (sign : Int) (v : Nat) : Prop := if sign < 0 then v < 2 ^ (w - 1) else v ≤ 2 ^ (w - 1)

theorem subtract_keeps (w : Nat) (sign : Int) {base : Nat} (positive : 0 < base) :
    Keeps (subtract (LONG_MIN w) sign base) base (SignedFits w sign) fun v => -(v : Int) := by
  have min : LONG_MIN w = -((2 ^ (w - 1) : Nat) : Int) := by
    unfold LONG_MIN LONG_MAX
    push_cast
    omega
  have quotient : (LONG_MIN w).tdiv base = -((2 ^ (w - 1) / base : Nat) : Int) := by
    rw [min, Int.neg_tdiv]
    rfl
  have large : ∀ v : Nat, 2 ^ (w - 1) / base < v ↔ 2 ^ (w - 1) < v * base := fun v =>
    Nat.div_lt_iff_lt_mul positive
  constructor
  · intro v d fits
    unfold SignedFits at fits
    unfold subtract
    have := large v
    have product : -(v : Int) * base = -((v * base : Nat) : Int) := by
      push_cast
      rw [Int.neg_mul]
    rw [quotient, product, min]
    split_ifs at fits with sign_
    · rw [if_neg (by omega), if_neg (by omega), if_neg (by omega)]
      congr 1
      push_cast
      omega
    · rw [if_neg (by omega), if_neg (by omega), if_neg (by omega)]
      congr 1
      push_cast
      omega
  · intro v d full
    unfold SignedFits at full
    unfold subtract
    have := large v
    have product : -(v : Int) * base = -((v * base : Nat) : Int) := by
      push_cast
      rw [Int.neg_mul]
    rw [quotient, product, min]
    split_ifs at full with sign_ <;> split_ifs <;> first | rfl | omega
  · intro v d fits
    have : v ≤ v * base := Nat.le_mul_of_pos_right v positive
    unfold SignedFits at fits ⊢
    split_ifs at fits ⊢ <;> omega

theorem add_keeps (max : Nat) {base : Nat} (positive : 0 < base) :
    Keeps (add max base) base (· ≤ max) fun v => (v : Int) := by
  have large : ∀ v : Nat, max / base < v ↔ max < v * base := fun v => Nat.div_lt_iff_lt_mul positive
  constructor
  · intro v d fits
    have := large v
    have product : (v : Int) * base = ((v * base : Nat) : Int) := by push_cast; rfl
    unfold add
    rw [product, if_neg (by omega), if_neg (by omega)]
    congr 1
  · intro v d full
    have := large v
    have product : (v : Int) * base = ((v * base : Nat) : Int) := by push_cast; rfl
    unfold add
    rw [product]
    split_ifs <;> first | rfl | omega
  · intro v d fits
    have : v ≤ v * base := Nat.le_mul_of_pos_right v positive
    omega

/-- The first character that is not a blank is not in the table, and the memory in front of it has the bit of
a blank. -/
def Misread (front : Int → Nat) (s : List UInt8) : Prop :=
  ∃ c, (s.dropWhile blank).head? = some c ∧ isspace front (char c) = true

/-- The string after the blanks of the code and the sign. -/
def unsignedBy (front : Int → Nat) (s : List UInt8) : List UInt8 :=
  let s := s.dropWhile fun c => isspace front (char c)
  if s.head? = some 45 ∨ s.head? = some 43 then s.drop 1 else s

def negativeBy (front : Int → Nat) (s : List UInt8) : Bool :=
  (s.dropWhile fun c => isspace front (char c)).head? = some 45

/-- The base in which the code reads the digits, and where it begins. -/
def baseBy (base : Nat) (t : List UInt8) : Nat := if Prefixed base t then 16 else baseOf base t

def numberBy (base : Nat) (t : List UInt8) : List UInt8 := if Prefixed base t then t.drop 2 else t

theorem start_eq (front : Int → Nat) (minus : Int) (s : List UInt8) (base : Nat) :
    start front minus s base = ⟨if negativeBy front s then minus else -minus, baseBy base (unsignedBy front s),
      numberBy base (unsignedBy front s)⟩ := by
  unfold start negativeBy
  dsimp only
  rw [show (if (s.dropWhile fun c => isspace front (char c)).head? = some 45 ∨
      (s.dropWhile fun c => isspace front (char c)).head? = some 43 then
      (s.dropWhile fun c => isspace front (char c)).drop 1
    else s.dropWhile fun c => isspace front (char c)) = unsignedBy front s from rfl]
  generalize unsignedBy front s = t
  have x := toupper_iff front (t.getD 1 0)
  unfold baseBy numberBy baseOf Hexadecimal Prefixed
  by_cases zero : t.head? = some 48 <;> by_cases letter : toupper front (char (t.getD 1 0)) = 88 <;>
    by_cases auto : base = 0 <;> by_cases hex : base = 16 <;> simp_all

theorem dropWhile_blank (right : ¬Misread front s) :
    s.dropWhile (fun c => isspace front (char c)) = s.dropWhile blank := by
  induction s with
  | nil => rfl
  | cons c s ih =>
    by_cases is : blank c = true
    · rw [List.dropWhile_cons_of_pos (p := fun c => isspace front (char c)) (isspace_blank front is),
        List.dropWhile_cons_of_pos is]
      apply ih
      rintro ⟨d, here, space⟩
      exact right ⟨d, by rw [List.dropWhile_cons_of_pos is]; exact here, space⟩
    · have plain : ¬isspace front (char c) = true := fun space =>
        right ⟨c, by rw [List.dropWhile_cons_of_neg is]; rfl, space⟩
      rw [List.dropWhile_cons_of_neg (p := fun c => isspace front (char c)) plain, List.dropWhile_cons_of_neg is]

theorem takeWhile_ne_nil {p : UInt8 → Bool} : s.takeWhile p ≠ [] ↔ ∃ c, s.head? = some c ∧ p c = true := by
  cases s with
  | nil => simp
  | cons c s =>
    by_cases is : p c = true
    · rw [List.takeWhile_cons_of_pos is]
      simp [is]
    · rw [List.takeWhile_cons_of_neg is]
      simp [is]

theorem subject_misread (misread : Misread front s) (base : Nat) : subject s base = none := by
  rcases misread with ⟨c, here, space⟩
  have high : ¬c.toNat < 128 := by
    intro low
    have notBlank : blank c = false := by
      have first := List.head?_dropWhile_not blank s
      rw [here] at first
      exact first
    rw [isspace_low front low, notBlank] at space
    cases space
  have other : ∀ n : UInt8, n.toNat < 128 → (s.dropWhile blank).head? ≠ some n := by
    intro n low same
    rw [here] at same
    cases same
    exact high low
  have plain : unsigned s = s.dropWhile blank := by
    unfold unsigned
    dsimp only
    rw [if_neg]
    rintro (minus | plus)
    · exact other 45 (by decide) minus
    · exact other 43 (by decide) plus
  have bare : number base (unsigned s) = s.dropWhile blank := by
    unfold number
    rw [plain, if_neg fun hex => other 48 (by decide) hex.1.2.1]
  unfold subject
  dsimp only
  rw [bare, if_pos]
  by_contra some_
  rcases takeWhile_ne_nil.mp some_ with ⟨d, first, is⟩
  rw [here] at first
  cases first
  unfold digitIn at is
  rw [digit_high high] at is
  cases is

theorem unsignedBy_eq (right : ¬Misread front s) :
    unsignedBy front s = unsigned s ∧ negativeBy front s = negative s := by
  unfold unsignedBy unsigned negativeBy negative
  rw [dropWhile_blank right]
  exact ⟨rfl, rfl⟩

theorem unsignedBy_length (front : Int → Nat) (s : List UInt8) (base : Nat) :
    (numberBy base (unsignedBy front s)).length ≤ s.length := by
  have dropped := List.length_dropWhile_le (fun c => isspace front (char c)) s
  unfold numberBy unsignedBy
  dsimp only
  split_ifs <;> (try rw [List.length_drop]) <;> (try rw [List.length_drop]) <;> omega

/-- What the code does for a number of this sign. -/
structure Kind where
  minus : Int
  step : Int → Nat → Int → Nat → Option Int
  overflow : Int → Int
  ret : Int → Int
  good : Int → Nat → Prop
  stands : Nat → Int

structure Kind.Ok (kind : Kind) : Prop where
  keeps : ∀ sign base, 0 < base → Keeps (kind.step sign base) base (kind.good sign) kind.stands
  zero : ∀ sign, kind.good sign 0
  stands_zero : kind.stands 0 = 0
  ret_zero : kind.ret 0 = 0

def Kind.sign (kind : Kind) (negative : Bool) : Int := if negative then kind.minus else -kind.minus

def Kind.strto (kind : Kind) (front : Int → Nat) : List UInt8 → Nat → Conversion :=
  Strtol.strto front kind.minus kind.step kind.overflow kind.ret

/-- What is expected of a subject sequence. -/
def Kind.Expected (kind : Kind) (expected : Option Subject → Conversion) : Prop :=
  expected none = ⟨0, 0, false⟩ ∧ ∀ j : Subject,
    (kind.good (kind.sign j.negative) j.value →
      expected (some j) = ⟨kind.ret (kind.stands j.value * kind.sign j.negative), j.stop, false⟩) ∧
    (¬kind.good (kind.sign j.negative) j.value →
      expected (some j) = ⟨kind.overflow (kind.sign j.negative), j.stop, true⟩)

/-- The code converts as it should: a byte that is misread is followed by nothing to convert, or else there
is no prefix without a digit after it and the number fits. -/
def Kind.Agrees (kind : Kind) (front : Int → Nat) (s : List UInt8) (base : Nat) : Prop :=
  (Misread front s →
    (numberBy base (unsignedBy front s)).takeWhile (digitIn (baseBy base (unsignedBy front s))) = []) ∧
  (¬Misread front s → (Prefixed base (unsigned s) → Hexadecimal base (unsigned s)) ∧
    ∀ j, subject s base = some j → kind.good (kind.sign j.negative) j.value)

section

variable {kind : Kind} (ok : kind.Ok) {base : Nat} (bases : base = 0 ∨ 2 ≤ base ∧ base ≤ 36)

include bases

theorem baseOf_range (t : List UInt8) : 2 ≤ baseOf base t ∧ baseOf base t ≤ 36 := by
  unfold baseOf
  split_ifs <;> omega

theorem baseBy_range (t : List UInt8) : 2 ≤ baseBy base t ∧ baseBy base t ≤ 36 := by
  have := baseOf_range bases t
  unfold baseBy
  split_ifs <;> omega

include ok

/-- The result of the code, by the digits that it finds. -/
theorem strto_digits (front : Int → Nat) (s : List UInt8) :
    let text := numberBy base (unsignedBy front s)
    let base' := baseBy base (unsignedBy front s)
    let ds := text.takeWhile (digitIn base')
    let sign := kind.sign (negativeBy front s)
    let stop := s.length - text.length + ds.length
    (kind.good sign (value base' ds) → kind.strto front s base =
      ⟨kind.ret (kind.stands (value base' ds) * sign), if ds = [] then 0 else stop, false⟩) ∧
    (¬kind.good sign (value base' ds) → ∃ early < stop, kind.strto front s base =
      ⟨kind.overflow sign, early, true⟩) := by
  have range := baseBy_range bases (unsignedBy front s)
  have within := unsignedBy_length front s base
  have loop := convert_digits (ok.keeps (kind.sign (negativeBy front s)) (baseBy base (unsignedBy front s)) (by omega))
    range.2 front (numberBy base (unsignedBy front s)) 0 (ok.zero _)
  rw [ok.stands_zero] at loop
  unfold Kind.strto strto
  rw [start_eq]
  dsimp only at loop ⊢
  generalize numberBy base (unsignedBy front s) = text at within loop ⊢
  generalize baseBy base (unsignedBy front s) = base' at loop ⊢
  have cut : (text.takeWhile (digitIn base')).length + (text.dropWhile (digitIn base')).length = text.length := by
    rw [← List.length_append, List.takeWhile_append_dropWhile]
  rw [show (if negativeBy front s then kind.minus else -kind.minus) = kind.sign (negativeBy front s) from rfl]
  constructor
  · intro fits
    rw [loop.1 fits]
    dsimp only
    rw [if_neg (by decide)]
    congr 1
    by_cases none_ : text.takeWhile (digitIn base') = []
    · rw [none_, List.length_nil] at cut
      rw [if_pos none_, if_neg (by omega)]
    · have := List.length_pos_iff.mpr none_
      rw [if_neg none_, if_pos (by omega)]
      omega
  · intro full
    rcases loop.2 full with ⟨n, t, run, before, inside⟩
    rw [run]
    dsimp only
    rw [if_pos rfl]
    exact ⟨s.length - t.length, by omega, rfl⟩

theorem strto_none (front : Int → Nat) (s : List UInt8)
    (none_ : (numberBy base (unsignedBy front s)).takeWhile (digitIn (baseBy base (unsignedBy front s))) = []) :
    kind.strto front s base = ⟨0, 0, false⟩ := by
  have result := (strto_digits ok bases front s).1
  rw [none_] at result
  rw [result (ok.zero _), if_pos rfl]
  change (⟨kind.ret (kind.stands 0 * _), 0, false⟩ : Conversion) = _
  rw [ok.stands_zero, Int.zero_mul, ok.ret_zero]

/-- With digits the code does not say that there is nothing. -/
theorem strto_some (front : Int → Nat) (s : List UInt8)
    (some_ : (numberBy base (unsignedBy front s)).takeWhile (digitIn (baseBy base (unsignedBy front s))) ≠ []) :
    kind.strto front s base ≠ ⟨0, 0, false⟩ := by
  have result := strto_digits ok bases front s
  have := List.length_pos_iff.mpr some_
  intro nothing
  by_cases fits : kind.good (kind.sign (negativeBy front s)) (value (baseBy base (unsignedBy front s))
      ((numberBy base (unsignedBy front s)).takeWhile (digitIn (baseBy base (unsignedBy front s)))))
  · rw [result.1 fits, if_neg some_] at nothing
    have := congrArg Conversion.stop nothing
    dsimp only at this
    omega
  · rcases result.2 fits with ⟨early, -, run⟩
    rw [run] at nothing
    have := congrArg Conversion.erange nothing
    cases this

omit ok in
theorem subject_bare {s : List UInt8} (prefixed : Prefixed base (unsigned s)) (bare : ¬Hexadecimal base (unsigned s)) :
    ∃ j, subject s base = some j ∧ 0 < j.stop := by
  have number_eq : number base (unsigned s) = unsigned s := if_neg bare
  have zero : digitIn (baseOf base (unsigned s)) 48 = true := by
    have := baseOf_range bases (unsigned s)
    change decide (0 < baseOf base (unsigned s)) = true
    rw [decide_eq_true_eq]
    omega
  have some_ : (unsigned s).takeWhile (digitIn (baseOf base (unsigned s))) ≠ [] :=
    takeWhile_ne_nil.mpr ⟨48, prefixed.2.1, zero⟩
  have := List.length_pos_iff.mpr some_
  unfold subject
  dsimp only
  rw [number_eq, if_neg some_]
  exact ⟨_, rfl, by dsimp only; omega⟩

theorem strto_iff {expected : Option Subject → Conversion} (expects : kind.Expected expected) (front : Int → Nat)
    (s : List UInt8) : kind.strto front s base = expected (subject s base) ↔ kind.Agrees front s base := by
  by_cases misread : Misread front s
  · rw [subject_misread misread, expects.1]
    constructor
    · intro same
      refine ⟨fun _ => ?_, fun right => absurd misread right⟩
      by_contra some_
      exact strto_some ok bases front s some_ same
    · intro agrees
      exact strto_none ok bases front s (agrees.1 misread)
  · have same := unsignedBy_eq misread
    by_cases prefixed : Prefixed base (unsigned s) ∧ ¬Hexadecimal base (unsigned s)
    · -- the code does not find a digit after the prefix
      rcases subject_bare bases prefixed.1 prefixed.2 with ⟨j, subject_eq, positive⟩
      have nothing : (numberBy base (unsignedBy front s)).takeWhile
          (digitIn (baseBy base (unsignedBy front s))) = [] := by
        rw [same.1]
        unfold numberBy baseBy
        rw [if_pos prefixed.1, if_pos prefixed.1]
        by_contra some_
        rcases takeWhile_ne_nil.mp some_ with ⟨c, here, is⟩
        apply prefixed.2
        refine ⟨prefixed.1, ?_⟩
        rw [List.head?_drop] at here
        rw [List.getD_eq_getElem?_getD, here]
        exact is
      rw [strto_none ok bases front s nothing, subject_eq]
      constructor
      · intro equal
        have stop : (expected (some j)).stop = j.stop := by
          by_cases fits : kind.good (kind.sign j.negative) j.value
          · rw [(expects.2 j).1 fits]
          · rw [(expects.2 j).2 fits]
        have := congrArg Conversion.stop equal
        rw [stop] at this
        dsimp only at this
        omega
      · intro agrees
        exact absurd ((agrees.2 misread).1 prefixed.1) prefixed.2
    · have decided : Prefixed base (unsigned s) → Hexadecimal base (unsigned s) := by
        intro has
        by_contra bare
        exact prefixed ⟨has, bare⟩
      have number_eq : numberBy base (unsignedBy front s) = number base (unsigned s) := by
        rw [same.1]
        unfold numberBy number
        by_cases has : Prefixed base (unsigned s)
        · rw [if_pos has, if_pos (decided has)]
        · rw [if_neg has, if_neg fun hex => has hex.1]
      have base_eq : baseBy base (unsignedBy front s) = baseOf base (unsigned s) := by
        rw [same.1]
        unfold baseBy
        by_cases has : Prefixed base (unsigned s)
        · rw [if_pos has]
          unfold baseOf
          rw [if_pos (decided has)]
        · rw [if_neg has]
      have result := strto_digits ok bases front s
      have nothing := strto_none ok bases front s
      rw [number_eq, base_eq] at result nothing
      rw [same.2] at result
      unfold Kind.Agrees
      by_cases none_ : (number base (unsigned s)).takeWhile (digitIn (baseOf base (unsigned s))) = []
      · have absent : subject s base = none := if_pos none_
        rw [nothing none_, absent, expects.1]
        exact iff_of_true rfl ⟨fun wrong => absurd wrong misread, fun _ => ⟨decided, nofun⟩⟩
      · have present : subject s base = some _ := if_neg none_
        rw [present]
        by_cases fits : kind.good (kind.sign (negative s)) (value (baseOf base (unsigned s))
            ((number base (unsigned s)).takeWhile (digitIn (baseOf base (unsigned s)))))
        · rw [result.1 fits, if_neg none_, (expects.2 _).1 fits]
          refine iff_of_true rfl ⟨fun wrong => absurd wrong misread, fun _ => ⟨decided, ?_⟩⟩
          rintro j ⟨⟩
          exact fits
        · rcases result.2 fits with ⟨early, before, run⟩
          rw [run, (expects.2 _).2 fits]
          constructor
          · intro equal
            have := congrArg Conversion.stop equal
            dsimp only at this
            omega
          · intro agrees
            exact absurd ((agrees.2 misread).2 _ rfl) fits

end

def signedKind (w : Nat) : Kind where
  minus := 1
  step := subtract (LONG_MIN w)
  overflow := fun sign => if sign < 0 then LONG_MAX w else LONG_MIN w
  ret := id
  good := SignedFits w
  stands := fun v => -(v : Int)

def unsignedKind (w : Nat) : Kind where
  minus := -1
  step := fun _ => add (ULONG_MAX w)
  overflow := fun _ => ULONG_MAX w
  ret := (· % 2 ^ w)
  good := fun _ v => v ≤ ULONG_MAX w
  stands := fun v => v

theorem signedKind_ok (w : Nat) : (signedKind w).Ok where
  keeps := fun sign _ positive => subtract_keeps w sign positive
  zero := by
    intro sign
    have : 0 < 2 ^ (w - 1) := Nat.two_pow_pos _
    unfold signedKind SignedFits
    dsimp only
    split_ifs <;> omega
  stands_zero := rfl
  ret_zero := rfl

theorem unsignedKind_ok (w : Nat) : (unsignedKind w).Ok where
  keeps := fun _ _ positive => add_keeps (ULONG_MAX w) positive
  zero := fun _ => Nat.zero_le _
  stands_zero := rfl
  ret_zero := Int.zero_emod _

theorem signedKind_expected (w : Nat) : (signedKind w).Expected (clamped w) := by
  have power : ((2 ^ (w - 1) : Nat) : Int) = 2 ^ (w - 1) := by push_cast; rfl
  have positive : (0 : Int) < 2 ^ (w - 1) := by
    rw [← power]
    exact_mod_cast Nat.two_pow_pos (w - 1)
  refine ⟨rfl, fun j => ⟨fun fits => ?_, fun full => ?_⟩⟩
  · unfold signedKind SignedFits at fits
    unfold clamped signedKind LONG_MIN LONG_MAX
    dsimp only [Kind.sign] at fits ⊢
    cases minus : j.negative with
    | true =>
      rw [minus] at fits
      have least : ¬-(j.value : Int) < -(2 ^ (w - 1) - 1) - 1 := by
        simp at fits
        omega
      simp only [if_true]
      rw [if_neg least, if_neg (by omega), id, Int.mul_one]
    | false =>
      rw [minus] at fits
      have most : ¬(2 ^ (w - 1) - 1 : Int) < j.value := by
        simp at fits
        omega
      simp only [Bool.false_eq_true, if_false]
      rw [if_neg (by omega), if_neg most, id, Int.mul_neg, Int.mul_one, Int.neg_neg]
  · unfold signedKind SignedFits at full
    unfold clamped signedKind LONG_MIN LONG_MAX
    dsimp only [Kind.sign] at full ⊢
    cases minus : j.negative with
    | true =>
      rw [minus] at full
      have least : -(j.value : Int) < -(2 ^ (w - 1) - 1) - 1 := by
        simp at full
        omega
      simp only [if_true]
      rw [if_pos least, if_neg (by omega)]
    | false =>
      rw [minus] at full
      have most : (2 ^ (w - 1) - 1 : Int) < j.value := by
        simp at full
        omega
      simp only [Bool.false_eq_true, if_false]
      rw [if_neg (by omega), if_pos most, if_pos (by omega)]

theorem unsignedKind_expected (w : Nat) : (unsignedKind w).Expected (reduced w) := by
  refine ⟨rfl, fun j => ⟨fun fits => ?_, fun full => ?_⟩⟩
  · have small : ¬ULONG_MAX w < j.value := Nat.not_lt_of_le fits
    unfold reduced
    dsimp only
    rw [if_neg small]
    unfold unsignedKind Kind.sign
    cases j.negative with
    | true =>
      dsimp only
      rw [if_pos rfl, if_pos rfl, Int.mul_neg, Int.mul_one]
    | false =>
      dsimp only
      rw [if_neg Bool.false_ne_true, if_neg Bool.false_ne_true, Int.neg_neg, Int.mul_one]
  · have large : ULONG_MAX w < j.value := Nat.lt_of_not_le full
    unfold reduced
    dsimp only
    rw [if_pos large]
    rfl

inductive Function
  | strtol
  | strtoll
  | strtoul
  | strtoull

def Function.run (front : Int → Nat) (long longlong : Nat) : Function → List UInt8 → Nat → Conversion
  | strtol => Strtol.strtol front long
  | strtoll => Strtol.strtoll front longlong
  | strtoul => Strtol.strtoul front long
  | strtoull => Strtol.strtoull front longlong

def Function.expected (long longlong : Nat) : Function → Option Subject → Conversion
  | strtol => clamped long
  | strtoll => clamped longlong
  | strtoul => reduced long
  | strtoull => reduced longlong

def Function.kind (long longlong : Nat) : Function → Kind
  | strtol => signedKind long
  | strtoll => signedKind longlong
  | strtoul => unsignedKind long
  | strtoull => unsignedKind longlong

end Scc.Libc.Strtol
