import Mathlib.Algebra.Ring.Nat
import Scc.Lib.Fuel

/-!
# Tokens of the assembler

`next()` on the text of an operand. A symbol carries what the parser asks of it;
strings and character constants are no part of an expression and are left out.
-/

namespace Scc.As

set_option autoImplicit false

open Scc.Lib.Fuel

abbrev Text := List Char
abbrev TUINT := BitVec 64

def TUINT_MAX : Nat := 2 ^ 64 - 1
def INTIDENTSIZ : Nat := 63

structure Symbol where
  value : TUINT
  /-- `FDEF` -/
  defined : Bool
  /-- `FREG` -/
  isReg : Bool
deriving DecidableEq

inductive Token where
  | EOS
  | IDEN (sym : Symbol)
  | NUMBER (val : TUINT)
  | REG (sym : Symbol)
  | SHL
  | SHR
  | GE
  | LE
  | char (c : Char)
deriving DecidableEq

inductive Failure where
  | unexpected (t : Token)
  | divisionByZero
  | invalidUnary
  | invalidDigit
  | overflow
  | tokenTooBig
  /-- Strings and character constants. -/
  | leftOut
  /-- `abort()` -/
  | aborted
  /-- A node is read after `deltree()` has given it back. -/
  | freed
deriving DecidableEq

def isspace (c : Char) : Bool :=
  c = ' ' || c = '\n' || c = '\t' || c = '\r' || c = '\x0b' || c = '\x0c'

/-- The index of a digit in `"0123456789ABCDEF"`, in upper or lower case. -/
def xdigit (c : Char) : Option Nat :=
  if '0' ≤ c ∧ c ≤ '9' then some (c.toNat - 48)
  else if 'A' ≤ c ∧ c ≤ 'F' then some (c.toNat - 55)
  else if 'a' ≤ c ∧ c ≤ 'f' then some (c.toNat - 87)
  else none

/-- The loop of `number()`: the value and the text behind the digits. -/
def digits (base n : Nat) : Text → Except Failure (Nat × Text)
  | [] => .ok (n, [])
  | c :: rest =>
    match xdigit c with
    | none => .ok (n, c :: rest)
    | some d =>
      if base < d then .error .invalidDigit
      else if TUINT_MAX / base - d ≤ n then .error .overflow
      else digits base (n * base + d) rest

/-- The base of a number and the text behind its mark. -/
def numberBase : Text → Nat × Text
  | '0' :: 'x' :: rest => (16, rest)
  | '0' :: rest => (8, rest)
  | text => (10, text)

def number (text : Text) : Except Failure (Token × Text) :=
  match digits (numberBase text).1 0 (numberBase text).2 with
  | .error e => .error e
  | .ok (n, rest) =>
    if INTIDENTSIZ < text.length - rest.length then .error .tokenTooBig
    else .ok (.NUMBER (BitVec.ofNat 64 n), rest)

def isiden (c : Char) : Bool :=
  c.isAlphanum || c = '\'' || c = '_' || c = '.' || c = '$'

def iden (lookup : Text → Symbol) (text : Text) : Except Failure (Token × Text) :=
  let name := text.takeWhile isiden
  if INTIDENTSIZ < name.length then .error .tokenTooBig
  else
    let sym := lookup name
    .ok (if sym.isReg then .REG sym else .IDEN sym, text.dropWhile isiden)

/-- `follow()` looks at the second character and does not take it: `tok2str()`
continues at `endp`. -/
def follow (expect1 expect2 : Char) (ifyes1 ifyes2 ifno : Token) (text : Text) : Token :=
  if text.head? = some expect1 then ifyes1
  else if text.head? = some expect2 then ifyes2
  else ifno

def operator (c : Char) (text : Text) : Token :=
  if c = '>' then follow '=' '>' .LE .SHL (.char '>') text
  else if c = '<' then follow '=' '<' .GE .SHR (.char '>') text
  else .char c

/-- The state of the parser: the current token, the text behind it and the mode in
which a percent sign begins a register. -/
structure Parser where
  yytoken : Token
  textp : Text
  regmode : Bool
deriving DecidableEq

def next (lookup : Text → Symbol) (p : Parser) : Except Failure Parser :=
  let read : Except Failure (Token × Text) :=
    match p.textp.dropWhile isspace with
    | [] => .ok (.EOS, [])
    | c :: rest =>
      if c = '"' ∨ c = '\'' then .error .leftOut
      else if c = '%' then
        if p.regmode then iden lookup (c :: rest) else .ok (operator c rest, rest)
      else if c = '.' ∨ c = '_' then iden lookup (c :: rest)
      else if c.isDigit then number (c :: rest)
      else if c.isAlpha then iden lookup (c :: rest)
      else .ok (operator c rest, rest)
  read.map fun (yytoken, textp) => { p with yytoken, textp }

end Scc.As
