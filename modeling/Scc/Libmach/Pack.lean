import Scc.Lib.Numeral
import Scc.Lib.Shifts

/-!
# Packing

`pack()` writes values as the letters of a format say, and `unpack()` reads them back.
Where the program has no defined behaviour (an argument that is not what the letter says,
a source that is too short) there is no result.
-/

namespace Scc.Libmach.Pack

open Scc.Lib Scc.Lib.Shifts

set_option autoImplicit false

inductive Letter
  /-- `'` and a count. -/
  | array (n : Int)
  | c
  | s
  | l
  | q
deriving DecidableEq

def INT_MAX : Nat := 2 ^ 31 - 1

def isspace (c : Char) : Bool :=
  c = ' ' || c = '\n' || c = '\t' || c = '\r' || c = '\x0b' || c = '\x0c'

/-- Not defined if the number is not an int. -/
def atoi (text : List Char) : Option Int :=
  let number (sign : Int) (text : List Char) : Option Int :=
    if Numeral.atoi text ≤ INT_MAX then some (sign * Numeral.atoi text) else none
  match text.dropWhile isspace with
  | '-' :: text => number (-1) text
  | '+' :: text => number 1 text
  | text => number 1 text

/-- What one turn of the loop reads of the format. -/
inductive Next
  | letter (letter : Letter) (fmt : List Char)
  /-- `default` of the switch. -/
  | unknown
  | undefined
deriving DecidableEq

def next : List Char → Next
  | '\'' :: fmt =>
    match atoi fmt with
    | some n => .letter (.array n) (fmt.dropWhile Char.isDigit)
    | none => .undefined
  | 'c' :: fmt => .letter .c fmt
  | 's' :: fmt => .letter .s fmt
  | 'l' :: fmt => .letter .l fmt
  | 'q' :: fmt => .letter .q fmt
  | _ => .unknown

/-- What is passed for a letter: a number, or a pointer to bytes. -/
inductive Arg
  | number (v : Nat)
  | pointer (bytes : List UInt8)
deriving DecidableEq

inductive Order
  | LITTLE_ENDIAN
  | BIG_ENDIAN
deriving DecidableEq

/-- The bits at which the bytes of a number begin, in the order of `lpack()`. -/
def lshifts : Letter → List Nat
  | .array _ => []
  | .c => [0]
  | .s => [0, 8]
  | .l => [0, 8, 16, 24]
  | .q => [0, 8, 16, 24, 32, 40, 48, 56]

/-- In the order of `bpack()`. -/
def bshifts : Letter → List Nat
  | .array _ => []
  | .c => [0]
  | .s => [8, 0]
  | .l => [24, 16, 8, 0]
  | .q => [56, 48, 40, 32, 24, 16, 8, 0]

def put (shifts : Letter → List Nat) : Letter → Arg → Option (List UInt8)
  | .array n, .pointer bytes =>
    -- a negative count never comes down to zero
    if 0 ≤ n ∧ n.toNat ≤ bytes.length then some (bytes.take n.toNat) else none
  | .array _, .number _ => none
  | _, .pointer _ => none
  | letter, .number v => some (scatter (shifts letter) v)

/-- What one letter stores, and the rest of the source. -/
def get (shifts : Letter → List Nat) : Letter → List UInt8 → Option (Arg × List UInt8)
  | .array n, src =>
    if 0 ≤ n ∧ n.toNat ≤ src.length then some (.pointer (src.take n.toNat), src.drop n.toNat) else none
  | letter, src =>
    let n := (shifts letter).length
    if n ≤ src.length then some (.number (gather (shifts letter) src), src.drop n) else none

/-- A difference of pointers that is returned as an int. -/
def toInt (n : Nat) : Int := Int.bmod n (2 ^ 32)

/-- The bytes that are written, and whether the format comes to its end. -/
def packLoop (shifts : Letter → List Nat) : Nat → List Char → List Arg → Option (List UInt8 × Bool)
  | _, [], _ => some ([], true)
  | 0, _, _ => none
  | fuel + 1, fmt, va =>
    match next fmt, va with
    | .letter letter fmt, arg :: va =>
      (put shifts letter arg).bind fun bytes =>
        (packLoop shifts fuel fmt va).map fun r => (bytes ++ r.1, r.2)
    | .unknown, _ => some ([], false)
    | _, _ => none

def unpackLoop (shifts : Letter → List Nat) : Nat → List Char → List UInt8 → Option (List Arg × Nat × Bool)
  | _, [], _ => some ([], 0, true)
  | 0, _, _ => none
  | fuel + 1, fmt, src =>
    match next fmt with
    | .letter letter fmt =>
      (get shifts letter src).bind fun r =>
        (unpackLoop shifts fuel fmt r.2).map fun r' =>
          (r.1 :: r'.1, src.length - r.2.length + r'.2.1, r'.2.2)
    | .unknown => some ([], 0, false)
    | .undefined => none

def lpack (fmt : List Char) (va : List Arg) : Option (List UInt8 × Bool) :=
  packLoop lshifts fmt.length fmt va

def bpack (fmt : List Char) (va : List Arg) : Option (List UInt8 × Bool) :=
  packLoop bshifts fmt.length fmt va

def lunpack (src : List UInt8) (fmt : List Char) : Option (List Arg × Nat × Bool) :=
  unpackLoop lshifts fmt.length fmt src

def bunpack (src : List UInt8) (fmt : List Char) : Option (List Arg × Nat × Bool) :=
  unpackLoop bshifts fmt.length fmt src

def pack (order : Order) (fmt : List Char) (va : List Arg) : Option (List UInt8 × Int) :=
  let fn := if order = .LITTLE_ENDIAN then lpack else bpack
  (fn fmt va).map fun r => (r.1, if r.2 then toInt r.1.length else -1)

def unpack (order : Order) (src : List UInt8) (fmt : List Char) : Option (List Arg × Int) :=
  let fn := if order = .LITTLE_ENDIAN then lunpack else bunpack
  (fn src fmt).map fun r => (r.1, if r.2.2 then toInt r.2.1 else -1)

end Scc.Libmach.Pack
