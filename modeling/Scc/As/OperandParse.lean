import Scc.Lib.Logged
import Scc.As.Expr

/-!
# Operands of the assembler

`getargs()` splits the argument field of a line into operands; `operand()`, the
grammar functions and the scanners below them read the text up to its NUL. The text
is the list of its characters, and a scanner that runs behind its end reads past the
NUL. The functions note the calls on which something can go wrong.
-/

namespace Scc.As.OperandParse

set_option autoImplicit false

open Scc.Lib.Logged

def NARGS : Nat := 20

/-- A token: one that can be part of an expression, the `NUMBER` of `character()` or
`STRING`. -/
inductive Lexeme where
  | plain (t : Token)
  | character
  | STRING
deriving DecidableEq

/-- `yylval.sym` is `none` until a token has set it, then the value of the symbol. -/
structure Parser where
  yytoken : Lexeme
  yylval : Option TUINT
  textp : Text
  regmode : Bool
deriving DecidableEq

inductive Addr where
  | AREG
  | ASTR
  | ANUMBER
  | AIMM
  | ADIRECT
  | AINDEX
  | AINDIR
deriving DecidableEq

inductive Node where
  /-- A number with the value of its symbol, if it has one. -/
  | NUMBER (val : Option TUINT)
  | IDEN (sym : Symbol)
  | REG (sym : Symbol)
  | STRING
  | unary (op : Char) (np : Node)
  | AREG_OFF (reg off : Node)
  | memory (op : Addr) (np : Node)
  /-- A node that `deltree()` has given back. -/
  | freed
deriving DecidableEq

/-- The messages of `error()`. -/
inductive Report where
  | lexical (e : Failure)
  | unexpected (t : Lexeme)
  | divisionByZero
  | invalidUnary
  | trailing
  | tooMany
deriving DecidableEq

inductive Stop where
  | error (report : Report)
  | abort
  /-- A node is read that `deltree()` has given back. -/
  | freed
  /-- A symbol is read through `NULL`. -/
  | noSymbol
  /-- A character behind the NUL is read. -/
  | overrun
  /-- The value of a function without a `return` is used. -/
  | noValue
deriving DecidableEq

inductive Call where
  | string (text : Text)
  | primary (yytoken : Lexeme)
  | unaryop (op : Char) (np : Node)
  | binary (op : Token) (l r : Node)
  | moperand
deriving DecidableEq

abbrev Parsed (α : Type) := Run Call Stop α

def report (e : Report) {α : Type} : Parsed α := .error (.error e)

/-- `character()` begins at the opening quote, where its loop stops. -/
def character (text : Text) : Except Stop Text :=
  if '\'' ∈ text then .ok (text.dropWhile (· ≠ '\'')) else .error .overrun

/-- The text behind the opening quote; `tok2str()` takes both quotes. -/
def string (text : Text) : Except Stop Text :=
  if '"' ∈ text then
    if INTIDENTSIZ < (text.takeWhile (· ≠ '"')).length + 2 then
      .error (.error (.lexical .tokenTooBig))
    else .ok (text.dropWhile (· ≠ '"')).tail
  else .error .overrun

/-- What a token leaves in `yylval.sym`. -/
def symValue (t : Token) (yylval : Option TUINT) : Option TUINT :=
  match t with
  | .IDEN sym => some sym.value
  | .REG sym => some sym.value
  | .NUMBER val => some val
  | _ => yylval

section Grammar

variable (lookup : Text → Symbol)

def next (p : Parser) : Parsed Parser :=
  match p.textp.dropWhile isspace with
  | [] => .ok { p with yytoken := .plain .EOS, textp := [] }
  | c :: rest =>
    if c = '"' then
      Run.log (.string rest) ((Run.ofExcept (string rest)).andThen fun textp =>
        .ok { p with yytoken := .STRING, yylval := some 0, textp })
    else if c = '\'' then
      (Run.ofExcept (character (c :: rest))).andThen fun textp =>
        .ok { p with yytoken := .character, textp }
    else
      match As.next lookup ⟨.EOS, c :: rest, p.regmode⟩ with
      | .ok q =>
        .ok { p with
          yytoken := .plain q.yytoken, yylval := symValue q.yytoken p.yylval, textp := q.textp }
      | .error e => report (.lexical e)

/-- The next character that is no blank; `EOS` is none. -/
def ahead (p : Parser) : Option Char := (p.textp.dropWhile isspace).head?

def expect (t : Token) (p : Parser) : Parsed Parser :=
  if p.yytoken = .plain t then next lookup p else report (.unexpected p.yytoken)

/-- The value of a node that `constant()` accepts, `none` in it if there is no symbol. -/
def constant : Node → Option (Option TUINT)
  | .NUMBER val => some val
  | .IDEN sym => if sym.defined then some (some sym.value) else none
  | _ => none

/-- `fold()` of two constants. -/
def fold (op : Token) (lv rv : Option TUINT) : Except Stop Node :=
  match lv, rv with
  | some lv, some rv =>
    match foldValue op lv rv with
    | .ok val => .ok (.NUMBER (some val))
    | .error e => .error (if e = .divisionByZero then .error .divisionByZero else .abort)
  | _, _ => .error .noSymbol

/-- `binary()`: without two constants it aborts. -/
def binary (op : Token) (l r : Node) : Except Stop Node :=
  if l = .freed ∨ r = .freed then .error .freed
  else
    match constant l, constant r with
    | some lv, some rv => fold op lv rv
    | _, _ => .error .abort

/-- `np->addr` is `ANUMBER`. -/
def Node.isNumber : Node → Bool
  | .NUMBER _ | .IDEN _ | .unary _ _ => true
  | _ => false

def unaryop (op : Char) (np : Node) : Except Stop Node :=
  match np with
  | .NUMBER val =>
    match val with
    | none => .error .noSymbol
    | some val =>
      if op = '!' then .ok (.NUMBER (some (truth (val = 0))))
      else if op = '+' then .ok (.NUMBER (some val))
      else if op = '-' then .ok (.NUMBER (some (-val)))
      else .error .abort
  | .freed => .error .freed
  | np => if np.isNumber then .ok (.unary op np) else .error (.error .invalidUnary)

variable (expr : Parser → Parsed (Node × Parser))

/-- The node of an operand that is one token. -/
def atom (p : Parser) : Option Node :=
  match p.yytoken with
  | .character => some (.NUMBER p.yylval)
  | .STRING => none
  | .plain t =>
    match t with
    | .IDEN sym => some (.IDEN sym)
    | .NUMBER val => some (.NUMBER (some val))
    | _ => none

/-- An opening parenthesis is still the current token when `expr()` is called. -/
def primary (p : Parser) : Parsed (Node × Parser) :=
  Run.log (.primary p.yytoken) <|
    match atom p with
    | some np => (next lookup p).andThen fun p => .ok (np, p)
    | none =>
      if p.yytoken = .plain (.char '(') then
        (expr p).andThen fun (np, p) =>
          (expect lookup (.char ')') p).andThen fun p => .ok (np, p)
      else report (.unexpected p.yytoken)

/-- The operator that `unary()` takes. -/
def unaryMark (t : Lexeme) : Option Char :=
  if t = .plain (.char '!') then some '!'
  else if t = .plain (.char '-') then some '-'
  else if t = .plain (.char '+') then some '+'
  else none

def unary (p : Parser) : Parsed (Node × Parser) :=
  match unaryMark p.yytoken with
  | some op =>
    (next lookup p).andThen fun p =>
      (primary lookup expr p).andThen fun (np, p) =>
        Run.log (.unaryop op np) ((Run.ofExcept (unaryop op np)).andThen fun np => .ok (np, p))
  | none => primary lookup expr p

/-- The operator among those of a level that stands at the current token. -/
def operatorOf (ops : List Token) (t : Lexeme) : Option Token :=
  match t with
  | .plain op => if op ∈ ops then some op else none
  | _ => none

/-- The loop of a level. That of `mul()` drops the folded node and keeps the left
operand, which has been given back. -/
def loop (ops : List Token) (keep : Bool) (operand : Parser → Parsed (Node × Parser)) :
    Nat → Node → Parser → Parsed (Node × Parser)
  | 0, _, _ => Run.none
  | fuel + 1, np, p =>
    match operatorOf ops p.yytoken with
    | none => .ok (np, p)
    | some op =>
      (next lookup p).andThen fun p =>
        (operand p).andThen fun (r, p) =>
          Run.log (.binary op np r) ((Run.ofExcept (binary op np r)).andThen fun folded =>
            loop ops keep operand fuel (if keep then folded else .freed) p)

def mul (fuel : Nat) (p : Parser) : Parsed (Node × Parser) :=
  (unary lookup expr p).andThen fun (np, p) =>
    loop lookup [.char '*', .char '/', .char '%', .SHL, .SHR] false (primary lookup expr) fuel np p

def add (fuel : Nat) (p : Parser) : Parsed (Node × Parser) :=
  (mul lookup expr fuel p).andThen fun (np, p) =>
    loop lookup [.char '+', .char '-'] true (mul lookup expr fuel) fuel np p

def relational (fuel : Nat) (p : Parser) : Parsed (Node × Parser) :=
  (add lookup expr fuel p).andThen fun (np, p) =>
    loop lookup [.char '<', .char '>', .char '=', .GE, .LE] true (add lookup expr fuel) fuel np p

def and (fuel : Nat) (p : Parser) : Parsed (Node × Parser) :=
  (relational lookup expr fuel p).andThen fun (np, p) =>
    loop lookup [.char '&'] true (relational lookup expr fuel) fuel np p

/-- The body of `expr()`. -/
def exprBody (fuel : Nat) (p : Parser) : Parsed (Node × Parser) :=
  (and lookup expr fuel { p with regmode := false }).andThen fun (np, p) =>
    (loop lookup [.char '|', .char '^'] true (and lookup expr fuel) fuel np p).andThen
      fun (np, p) => .ok (np, { p with regmode := true })

end Grammar

section Operands

variable (lookup : Text → Symbol)

def expr : Nat → Parser → Parsed (Node × Parser)
  | 0, _ => Run.none
  | fuel + 1, p => exprBody lookup (expr fuel) (fuel + 1) p

def regOf (t : Lexeme) : Option Symbol :=
  match t with
  | .plain t =>
    match t with
    | .REG sym => some sym
    | _ => none
  | _ => none

def getreg (p : Parser) : Parsed (Node × Parser) :=
  match regOf p.yytoken with
  | some sym => (next lookup p).andThen fun p => .ok (.REG sym, p)
  | none => report (.unexpected p.yytoken)

/-- The back ends that have a `moperand()`. -/
inductive Target where
  | x80
  | x86
  | ppc
deriving DecidableEq

/-- An address in parentheses, of the x80. -/
def inParentheses (fuel : Nat) (p : Parser) : Parsed (Node × Parser) :=
  if (regOf p.yytoken).isSome then
    (getreg lookup p).andThen fun (reg, p) =>
      if p.yytoken = .plain (.char '+') ∨ p.yytoken = .plain (.char '-') then
        (expr lookup fuel p).andThen fun (off, p) => .ok (.memory .AINDEX (.AREG_OFF reg off), p)
      else if p.yytoken = .plain (.char ')') then .ok (.memory .AINDIR reg, p)
      else report (.unexpected p.yytoken)
  else (expr lookup fuel p).andThen fun (dir, p) => .ok (.memory .ADIRECT dir, p)

/-- An address of the x80 up to its closing parenthesis. -/
def address (fuel : Nat) (p : Parser) : Parsed (Node × Parser) :=
  if p.yytoken = .plain (.char '(') then (next lookup p).andThen (inParentheses lookup fuel)
  else
    (expr lookup fuel p).andThen fun (off, p) =>
      (expect lookup (.char '(') p).andThen fun p =>
        (getreg lookup p).andThen fun (reg, p) => .ok (.memory .AINDEX (.AREG_OFF reg off), p)

/-- The `moperand()` of the x80 reads an address, that of the ppc aborts and that of
the x86 has an empty body. -/
def moperand (target : Target) (fuel : Nat) (p : Parser) : Parsed (Node × Parser) :=
  Run.log .moperand <|
    match target with
    | .x80 =>
      (address lookup fuel p).andThen fun (np, p) =>
        (expect lookup (.char ')') p).andThen fun p => .ok (np, p)
    | .x86 => .error .noValue
    | .ppc => .error .abort

structure Operand where
  addr : Addr
  np : Node
deriving DecidableEq

def addrOf : Node → Addr
  | .memory op _ => op
  | _ => .ANUMBER

/-- The end of `operand()`. -/
def finish (result : Option Operand × Parser) : Parsed (Option Operand × Parser) :=
  if result.2.yytoken = .plain (.char ',') ∨ result.2.yytoken = .plain .EOS then .ok result
  else report .trailing

/-- The `default` of `operand()` without and with `imm`. -/
def expression (target : Target) (fuel : Nat) (p : Parser) : Parsed (Option Operand × Parser) :=
  (moperand lookup target fuel p).andThen fun (np, p) => .ok (some ⟨addrOf np, np⟩, p)

def immediate (fuel : Nat) (p : Parser) : Parsed (Option Operand × Parser) :=
  (next lookup p).andThen fun p =>
    (expr lookup fuel p).andThen fun (np, p) => .ok (some ⟨.AIMM, np⟩, p)

/-- The `case`s of `operand()`. -/
def byToken (target : Target) (fuel : Nat) (p : Parser) : Parsed (Option Operand × Parser) :=
  match p.yytoken with
  | .STRING => (next lookup p).andThen fun p => .ok (some ⟨.ASTR, .STRING⟩, p)
  | .character => expression lookup target fuel p
  | .plain t =>
    match t with
    | .EOS => .ok (none, p)
    | .REG _ => (getreg lookup p).andThen fun (np, p) => .ok (some ⟨.AREG, np⟩, p)
    | .IDEN sym =>
      if ahead p = none ∨ ahead p = some ',' then
        (next lookup p).andThen fun p => .ok (some ⟨.ANUMBER, .IDEN sym⟩, p)
      else expression lookup target fuel p
    | t =>
      if t = .char '$' then immediate lookup fuel p
      else expression lookup target fuel p

/-- The parser stands where the operand before has ended. -/
def operand (target : Target) (fuel : Nat) (p : Parser) : Parsed (Option Operand × Parser) :=
  (next lookup { p with regmode := true }).andThen fun p =>
    (byToken lookup target fuel p).andThen finish

/-- The loop of `getargs()` for so many operands more. -/
def operands (target : Target) (fuel : Nat) : Nat → Parser → Parsed (List Operand)
  | 0, _ => report .tooMany
  | left + 1, p =>
    (operand lookup target fuel p).andThen fun (np, p) =>
      match np with
      | none => .ok []
      | some np => (operands target fuel left p).andThen fun more => .ok (np :: more)

/-- The arguments of an instruction; `yylval` is what the lines before have left. -/
def getargs (target : Target) (yylval : Option TUINT) (s : Option Text) (fuel : Nat) :
    Parsed (Option (List Operand)) :=
  match s with
  | none => .ok none
  | some text =>
    (operands lookup target fuel (NARGS - 1) ⟨.plain .EOS, yylval, text, true⟩).andThen
      fun args => .ok (some args)

end Operands

/-- The operators that `fold()` knows. -/
def foldOps : List Token :=
  [.char '*', .char '/', .char '%', .SHL, .SHR, .char '+', .char '-', .char '<', .char '>',
    .char '=', .GE, .LE, .char '|', .char '^']

/-- A string is closed, no parenthesis stands for an operand of an expression, only
constants with a symbol are folded, and the back end reads addresses. -/
def Harmless (target : Target) : Call → Prop
  | .string text => '"' ∈ text
  | .primary t => t ≠ .plain (.char '(')
  | .unaryop _ np => np ≠ .NUMBER none ∧ np ≠ .freed
  | .binary op l r =>
    op ∈ foldOps ∧ ∃ lv rv, constant l = some (some lv) ∧ constant r = some (some rv)
  | .moperand => target = .x80

def Reported : Stop → Prop
  | .error _ => True
  | _ => False

/-- The call returns its arguments or reports an error. -/
def Returns (lookup : Text → Symbol) (target : Target) (yylval : Option TUINT) (s : Option Text) :
    Prop :=
  ∃ result, Scc.Lib.Logged.Ends Reported result ∧
    Scc.Lib.Fuel.Settles (fun fuel => (getargs lookup target yylval s fuel).result) result

/-- More than the number of steps that a loop can take. -/
def enough (s : Option Text) : Nat := (s.getD []).length + 1

end Scc.As.OperandParse
