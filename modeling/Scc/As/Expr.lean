import Scc.As.Lexer

/-!
# The expression parser of the assembler

The grammar functions fold every operator as soon as its operands are read.
`expr()` calls itself through parentheses, so the functions below take it as an
argument; their loops spend one unit of fuel at each operator.
-/

namespace Scc.As

set_option autoImplicit false

open Scc.Lib.Fuel

/-- A node of the tree. `fold()` leaves a number and gives its operands back to the
arena. -/
inductive Node where
  | NUMBER (val : TUINT)
  | IDEN (sym : Symbol)
  /-- A unary operator on a symbol. -/
  | unary (op : Char)
  | freed
deriving DecidableEq

/-- The value of a node that `constant()` accepts. -/
def constant : Node → Except Failure (Option TUINT)
  | .NUMBER val => .ok (some val)
  | .IDEN sym => .ok (if sym.defined then some sym.value else none)
  | .unary _ => .ok none
  | .freed => .error .freed

def truth (b : Bool) : TUINT := if b then 1 else 0

/-- The value that `fold()` computes. -/
def foldValue (op : Token) (lv rv : TUINT) : Except Failure TUINT :=
  match op with
  | .char '*' => .ok (lv - rv)
  | .char '/' => if rv = 0 then .error .divisionByZero else .ok (lv / rv)
  | .char '%' => if rv = 0 then .error .divisionByZero else .ok (lv % rv)
  | .SHL => .ok (lv <<< rv.toNat)
  | .SHR => .ok (lv >>> rv.toNat)
  | .char '+' => .ok (lv + rv)
  | .char '-' => .ok (lv - rv)
  | .char '<' => .ok (truth (lv < rv))
  | .char '>' => .ok (truth (rv < lv))
  | .char '=' => .ok (truth (lv = rv))
  | .GE => .ok (truth (rv ≤ lv))
  | .LE => .ok (truth (lv ≤ rv))
  | .char '|' => .ok (lv ||| rv)
  | .char '^' => .ok (lv ^^^ rv)
  | _ => .error .aborted

/-- `binary()`; without a constant it aborts. -/
def binary (op : Token) (l r : Node) : Except Failure Node :=
  match constant l, constant r with
  | .error e, _ => .error e
  | .ok none, _ => .error .aborted
  | .ok (some _), .error e => .error e
  | .ok (some _), .ok none => .error .aborted
  | .ok (some lv), .ok (some rv) => (foldValue op lv rv).map .NUMBER

def unaryop (op : Char) : Node → Except Failure Node
  | .NUMBER val =>
    if op = '!' then .ok (.NUMBER (truth (val = 0)))
    else if op = '+' then .ok (.NUMBER val)
    else if op = '-' then .ok (.NUMBER (-val))
    else .error .aborted
  | .IDEN _ => .ok (.unary op)
  | .unary _ => .ok (.unary op)
  | .freed => .error .freed

section Grammar

variable (lookup : Text → Symbol)

/-- The result of a grammar function: a node and the state behind it. -/
abbrev Parsed := Result Failure (Node × Parser)

def advance (p : Parser) : Result Failure Parser := some (next lookup p)

def expect (t : Token) (p : Parser) : Result Failure Parser :=
  if p.yytoken = t then advance lookup p else .error (.unexpected p.yytoken)

variable (expr : Parser → Parsed)

/-- An opening parenthesis is still the current token when `expr()` is called. -/
def primary (p : Parser) : Parsed :=
  match p.yytoken with
  | .IDEN sym => (advance lookup p).andThen fun p => .ok (.IDEN sym, p)
  | .NUMBER val => (advance lookup p).andThen fun p => .ok (.NUMBER val, p)
  | t =>
    if t = .char '(' then
      (expr p).andThen fun (np, p) =>
        (expect lookup (.char ')') p).andThen fun p => .ok (np, p)
    else .error (.unexpected t)

def unaryMark (t : Token) : Option Char :=
  if t = .char '!' then some '!'
  else if t = .char '-' then some '-'
  else if t = .char '+' then some '+'
  else none

def unary (p : Parser) : Parsed :=
  match unaryMark p.yytoken with
  | some op =>
    (advance lookup p).andThen fun p =>
      (primary lookup expr p).andThen fun (np, p) =>
        match unaryop op np with
        | .ok np => .ok (np, p)
        | .error e => .error e
  | none => primary lookup expr p

/-- The loop of `mul()`. The folded node is dropped and the left operand, which has
been given back, stays the result. -/
def mulLoop : Nat → Node → Parser → Parsed
  | 0, _, _ => none
  | fuel + 1, np, p =>
    if p.yytoken ∈ [.char '*', .char '/', .char '%', .SHL, .SHR] then
      (advance lookup p).andThen fun p' =>
        (primary lookup expr p').andThen fun (r, p') =>
          match binary p.yytoken np r with
          | .ok _ => mulLoop fuel .freed p'
          | .error e => .error e
    else .ok (np, p)

def binaryLoop (ops : List Token) (operand : Nat → Parser → Parsed) : Nat → Node → Parser → Parsed
  | 0, _, _ => none
  | fuel + 1, np, p =>
    if p.yytoken ∈ ops then
      (advance lookup p).andThen fun p' =>
        (operand fuel p').andThen fun (r, p') =>
          match binary p.yytoken np r with
          | .ok np => binaryLoop ops operand fuel np p'
          | .error e => .error e
    else .ok (np, p)

def mul (fuel : Nat) (p : Parser) : Parsed :=
  (unary lookup expr p).andThen fun (np, p) => mulLoop lookup expr fuel np p

def add (fuel : Nat) (p : Parser) : Parsed :=
  (mul lookup expr fuel p).andThen fun (np, p) =>
    binaryLoop lookup [.char '+', .char '-'] (mul lookup expr) fuel np p

def relational (fuel : Nat) (p : Parser) : Parsed :=
  (add lookup expr fuel p).andThen fun (np, p) =>
    binaryLoop lookup [.char '<', .char '>', .char '=', .GE, .LE] (add lookup expr) fuel np p

def and (fuel : Nat) (p : Parser) : Parsed :=
  (relational lookup expr fuel p).andThen fun (np, p) =>
    binaryLoop lookup [.char '&'] (relational lookup expr) fuel np p

/-- The body of `expr()`. -/
def exprBody (fuel : Nat) (p : Parser) : Parsed :=
  (and lookup expr fuel { p with regmode := false }).andThen fun (np, p) =>
    (binaryLoop lookup [.char '|', .char '^'] (and lookup expr) fuel np p).andThen fun (np, p) =>
      .ok (np, { p with regmode := true })

end Grammar

def expr (lookup : Text → Symbol) : Nat → Parser → Parsed
  | 0, _ => none
  | fuel + 1, p => exprBody lookup (expr lookup fuel) fuel p

/-- The expression at the start of an operand. -/
def operandExpr (lookup : Text → Symbol) (text : Text) (fuel : Nat) : Parsed :=
  (advance lookup ⟨.EOS, text, true⟩).andThen (expr lookup fuel)

end Scc.As
