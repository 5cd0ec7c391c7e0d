import Scc.Libc.Mbrtowc

/-!
# Formatted output

`vfprintf()` copies the format and replaces its conversions by their arguments. A character is a byte,
and the format and the strings are given without the NUL at their end. The loop over the format, the
loop over the flags and the loops over the digits of a width or a precision are one recursion over the
format: `Reading` is the number that is being read, and a conversion that is being read has a `Conv`.

A `va_list` is a list of words and strings, and an `int` is the low half of a word. `none` is a behaviour
that C leaves undefined: an argument that is missing or of the wrong kind, an `int` that overflows, or a
number that does not fit the buffer. Floating conversions are to be done in the source too.
-/

namespace Scc.Libc.Printf

open Scc.Libc.Wchar (wchar ulong validutf8)

set_option autoImplicit false

def MAXPREC : Nat := 50
def INT_MAX : Nat := 2 ^ 31 - 1

def LONG : Nat := 1 <<< 0
def LLONG : Nat := 1 <<< 1
def SHORT : Nat := 1 <<< 2
def CHAR : Nat := 1 <<< 3
def SIZET : Nat := 1 <<< 4
def PTRDIFF : Nat := 1 <<< 5
def INTMAX : Nat := 1 <<< 6
def VOIDPTR : Nat := 1 <<< 7
def UNSIGNED : Nat := 1 <<< 8
def ALTFORM : Nat := 1 <<< 9

/-- A string is without its NUL, a wide one is a list of `wchar_t`. -/
inductive Arg
  | word (bits : BitVec 64)
  | str (s : List Char)
  | wstr (ws : List Int)

/-- An `int` in a word. -/
def int (bits : BitVec 64) : Int := (bits.setWidth 32).toInt

structure Conv where
  sign : Option Char
  prec : Nat
  digs : List Char
  fill : Char
  precise : Bool
  left : Bool
  flags : Nat
  width : Int

def upper : List Char := "0123456789ABCDEFX".toList
def lower : List Char := "0123456789abcdefx".toList

def Conv.initial : Conv := ⟨none, 0, upper, ' ', false, false, 0, 0⟩

def has (flags flag : Nat) : Bool := flags &&& flag ≠ 0

/-- `getnum()`, with the sign that it leaves. The overflow of `-val` wraps. -/
def getnum (bits : BitVec 64) (flags : Nat) (sign : Option Char) : Nat × Option Char :=
  let (val, uval) : Int × Nat :=
    if has flags CHAR then (int bits, (int bits % 2 ^ 8).toNat)
    else if has flags SHORT then (int bits, (int bits % 2 ^ 16).toNat)
    else if has flags LONG then (bits.toInt, bits.toNat)
    else if has flags LLONG then (bits.toInt, bits.toNat)
    else if has flags SIZET then (0, bits.toNat)
    else if has flags INTMAX then (bits.toInt, bits.toNat)
    else if has flags VOIDPTR then (0, bits.toNat)
    else (int bits, (int bits % 2 ^ 32).toNat)
  if !has flags UNSIGNED ∧ val < 0 then ((-val).toNat, some '-') else (uval, sign)

/-- The digits of a number in front of `buf`; 64 are enough for a word. -/
def digits (digs : List Char) (base : Nat) : Nat → Nat → List Char → List Char
  | 0, _, buf => buf
  | fuel + 1, val, buf =>
    let buf := digs.getD (val % base) '0' :: buf
    if 0 < val / base then digits digs base fuel (val / base) buf else buf

def numtostr (val : Nat) (flags : Nat) (conv : Conv) (base : Nat) : List Char :=
  let buf := digits conv.digs base 64 val []
  let buf := List.replicate (conv.prec - buf.length) '0' ++ buf
  let buf :=
    if has flags ALTFORM then
      if base = 8 ∧ buf.head? ≠ some '0' then '0' :: buf
      else if base = 16 ∧ val ≠ 0 then '0' :: conv.digs.getD 16 'X' :: buf
      else buf
    else buf
  match conv.sign with
  | some sign => sign :: buf
  | none => buf

/-- The characters in front of the zeros that fill a number. -/
def prefixLength (s : List Char) : Nat :=
  match s with
  | '-' :: _ => 1
  | '+' :: _ => 1
  | '0' :: 'X' :: _ => 2
  | '0' :: 'x' :: _ => 2
  | _ => 0

def strout (s : List Char) (len : Nat) (width : Int) (fill : Char) : List Char :=
  let adjust := width.natAbs - len
  let ahead := if fill = '0' then prefixLength s else 0
  -- `len` is a `size_t`, and one that is shorter than the prefix wraps around
  let rest := if ahead ≤ len then (s.drop ahead).take (len - ahead) else s.drop ahead
  s.take ahead ++ (if width < 0 then [] else List.replicate adjust fill) ++ rest ++
    (if width < 0 then List.replicate adjust ' ' else [])

def byte (n : Nat) : Char := Char.ofNat (n % 2 ^ 8)

/-- `wcrtomb()`, `none` for a code that it refuses. -/
def wcrtomb (wc : Int) : Option (List Char) :=
  let c := ulong wc
  if c < 0x80 then some [byte c]
  else
    match validutf8 wc with
    | some (true, n) =>
      let lead := (List.range (n - 1)).foldl (fun s _ => s >>> 1 ||| 0x80) 0x80
      some (byte (lead ||| c >>> (6 * (n - 1))) ::
        (List.range (n - 1)).map fun i => byte (0x80 ||| (c >>> (6 * (n - 2 - i)) &&& 0x3f)))
    | _ => none

/-- `_fputwc()`: the bytes that it writes, and the error flag of the stream. `fwrite()` ends after the
first byte when the flag is set. -/
def fputwc (err : Bool) (wc : Int) : List Char × Bool :=
  match wcrtomb wc with
  | some bytes => if err then (bytes.take 1, true) else (bytes, false)
  | none => ([], true)

def fputws (err : Bool) : List Int → List Char × Bool
  | [] => ([], err)
  | wc :: ws =>
    let (bytes, err) := fputwc err wc
    let (rest, err) := fputws err ws
    (bytes ++ rest, err)

def wstrout (ws : List Int) (len : Nat) (width : Int) (fill : Char) (err : Bool) : List Char × Bool :=
  let adjust := width.natAbs - len
  fputws err ((if width < 0 then [] else List.replicate adjust (fill.toNat : Int)) ++
    (ws.take len).takeWhile (· ≠ 0) ++ if width < 0 then List.replicate adjust 32 else [])

/-- What is written between two additions to the count: characters, whose number is the `inc` of the
loop, or nothing with an `inc` left from before. -/
inductive Piece
  | text (chars : List Char)
  | silent
deriving DecidableEq

def Piece.chars : Piece → List Char
  | .text chars => chars
  | .silent => []

structure Printer where
  args : List Arg
  err : Bool
  pieces : List Piece

def Printer.add (p : Printer) (piece : Piece) : Printer := { p with pieces := p.pieces ++ [piece] }

/-- `va_arg(va2, int)`. -/
def Printer.int (p : Printer) : Option (Int × Printer) :=
  match p.args with
  | .word bits :: args => some (Printf.int bits, { p with args })
  | _ => none

def numeric (conv : Conv) (base : Nat) (p : Printer) : Option Printer :=
  match p.args with
  | .word bits :: args =>
    let conv := { conv with prec := min conv.prec MAXPREC }
    let (val, sign) := getnum bits conv.flags conv.sign
    let s := numtostr val conv.flags { conv with sign } base
    if s.length ≤ MAXPREC then
      some ({ p with args }.add (.text (strout s s.length conv.width conv.fill)))
    else none
  | _ => none

def charout (conv : Conv) (ch : Int) (p : Printer) : Printer :=
  let s := if ch % 2 ^ 8 = 0 then [] else [byte (ch % 2 ^ 8).toNat]
  p.add (.text (strout s 1 conv.width conv.fill))

def wideout (conv : Conv) (ws : List Int) (len : Nat) (p : Printer) : Printer :=
  let (chars, err) := wstrout ws len conv.width conv.fill p.err
  { p with err }.add (.text chars)

def Conv.cut (conv : Conv) (len : Nat) : Nat :=
  if conv.precise ∧ conv.prec < len then conv.prec else len

/-- The cases of the switch that end a conversion; every other character ends it too, without output. -/
def convert (c : Char) (conv : Conv) (p : Printer) : Option Printer :=
  match c with
  | '%' => some (charout conv '%'.toNat p)
  | 'c' =>
    p.int.map fun (ch, p) =>
      if has conv.flags LONG then wideout conv [ch] 1 p else charout conv ch p
  | 'u' => numeric { conv with flags := conv.flags ||| UNSIGNED } 10 p
  | 'i' => numeric conv 10 p
  | 'd' => numeric conv 10 p
  | 'p' =>
    numeric { conv with
      digs := lower
      flags := conv.flags ||| VOIDPTR ||| ALTFORM ||| UNSIGNED } 16 p
  | 'x' => numeric { conv with digs := lower, flags := conv.flags ||| UNSIGNED } 16 p
  | 'X' => numeric { conv with flags := conv.flags ||| UNSIGNED } 16 p
  | 'o' => numeric { conv with flags := conv.flags ||| UNSIGNED } 8 p
  | 's' =>
    match p.args, has conv.flags LONG with
    | .wstr ws :: args, true => some (wideout conv ws (conv.cut ws.length) { p with args })
    | .str s :: args, false =>
      some ({ p with args }.add (.text (strout s (conv.cut s.length) conv.width conv.fill)))
    | _, _ => none
  | 'n' =>
    match p.args with
    | _ :: args => some ({ p with args }.add .silent)
    | [] => none
  | _ => some (p.add .silent)

def flag (c : Char) (conv : Conv) : Option Conv :=
  match c with
  | ' ' => some { conv with sign := conv.sign.orElse fun _ => some ' ' }
  | '+' => some { conv with sign := some '+' }
  | '#' => some { conv with flags := conv.flags ||| ALTFORM }
  | '0' => some { conv with fill := '0' }
  | 'l' => some { conv with flags := conv.flags + LONG }
  | 'h' => some { conv with flags := conv.flags + SHORT }
  | 'j' => some { conv with flags := conv.flags ||| INTMAX }
  | 't' => some { conv with flags := conv.flags ||| PTRDIFF }
  | 'z' => some { conv with flags := conv.flags ||| SIZET }
  | _ => none

inductive Reading
  | none
  | width (n : Nat)
  | prec (n : Nat)

/-- The assignments after the loop over the digits. -/
def Reading.finish (reading : Reading) (conv : Conv) : Conv :=
  match reading with
  | .none => conv
  | .width n => { conv with width := if conv.left then -n else n }
  | .prec n => { conv with prec := n, precise := true }

def digit (c : Char) : Nat := c.toNat - '0'.toNat

def Reading.next (reading : Reading) (c : Char) : Option Reading :=
  if c.isDigit then
    match reading with
    | .none => Option.none
    | .width n => some (.width (n * 10 + digit c))
    | .prec n => some (.prec (n * 10 + digit c))
  else Option.none

def Reading.value : Reading → Nat
  | .none => 0
  | .width n => n
  | .prec n => n

/-- `n` of a precision that is an argument is ignored when it is negative. -/
def setPrec (n : Int) (conv : Conv) : Conv :=
  if 0 ≤ n then { conv with prec := n.toNat, precise := true } else conv

/-- The rest of the format, inside a conversion or not. -/
def vfprintf : List Char → Option (Reading × Conv) → Printer → Option Printer
  | [], _, p => some p
  | c :: fmt, none, p =>
    if c = '%' then vfprintf fmt (some (.none, .initial)) p else vfprintf fmt none (p.add (.text [c]))
  | c :: fmt, some (reading, conv), p =>
    match reading.next c with
    | some reading => if reading.value ≤ INT_MAX then vfprintf fmt (some (reading, conv)) p else none
    | none =>
      let conv := reading.finish conv
      match c, fmt with
      | '.', '*' :: fmt => p.int.bind fun (n, p) => vfprintf fmt (some (.none, setPrec n conv)) p
      | '.', fmt => vfprintf fmt (some (.prec 0, conv)) p
      | '*', fmt => p.int.bind fun (n, p) => vfprintf fmt (some (.none, { conv with width := n })) p
      | '-', fmt => vfprintf fmt (some (.width 0, { conv with left := true })) p
      | c, fmt =>
        if c.isDigit ∧ c ≠ '0' then vfprintf fmt (some (.width (digit c), conv)) p
        else
          match flag c conv with
          | some conv => vfprintf fmt (some (.none, conv)) p
          | none => (convert c conv p).bind (vfprintf fmt none)

/-- The pieces that are written and the error flag, for a format and its arguments. -/
def print (fmt : List Char) (args : List Arg) : Option (List Piece × Bool) :=
  (vfprintf fmt none ⟨args, false, []⟩).map fun p => (p.pieces, p.err)

def written (pieces : List Piece) : List Char := pieces.flatMap Piece.chars

/-- The additions of `inc` to `cnt`; an `inc` that was never set has no value. -/
def count (inc : Option Nat) (cnt : Nat) : List Piece → Option Nat
  | [] => some cnt
  | .text chars :: pieces => count (some chars.length) (cnt + chars.length) pieces
  | .silent :: pieces => inc.bind fun last => count inc (cnt + last) pieces

def EOF : Int := -1

/-- The value of `vfprintf()`, a `size_t` that is returned as an `int`. -/
def result (pieces : List Piece) (err : Bool) : Option Int :=
  if err then some EOF else (count none 0 pieces).map fun cnt => ((cnt % 2 ^ 64 : Nat) : Int).bmod (2 ^ 32)

end Scc.Libc.Printf
