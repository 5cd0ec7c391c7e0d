import Scc.Cc1.Token

/-!
# Macro definitions and their expansion

`define()` keeps a replacement list as text, in which three control characters
stand for parameters and for the two operators; `copymacro()` writes the expansion
of that text.
-/

namespace Scc.Cc1.Lex

set_option autoImplicit false

def MACROPAR : Char := '\x11'
def CONCAT : Char := '\x12'
def STRINGIZE : Char := '\x13'

/-- What a zero byte leaves of `yytext`. -/
def cstring (text : Text) : Text := text.takeWhile fun c => c ≠ '\x00'

def Token.yytext : Token → Text
  | .text yytext => yytext
  | .string bytes => '"' :: bytes ++ ['"']

def isCONCAT (t : Token) : Bool := t = .text ['#', '#']

def isSTRINGIZE (t : Token) : Bool := t = .text ['#']

def decimal (n : Nat) : Char := Char.ofNat (48 + n % 10)

/-- The text `"%c%02d%c"` of a parameter; there are never a thousand. -/
def macropar (n : Nat) : Text :=
  if n < 100 then [MACROPAR, decimal (n / 10), decimal n, MACROPAR]
  else [MACROPAR, decimal (n / 100), decimal (n / 10), decimal n, MACROPAR]

/-- The number of the parameter that a token names. -/
def findpar (args : List Text) (t : Token) : Option Nat := args.findIdx? fun arg => t = .text arg

/-- The loop of `getdefs()`: the text that it writes, or `none` where it reports an
error. `prev` is the token before. -/
def getdefs (args : List Text) (prev : Option Token) (bufsiz : Nat) : List Token → Option Text
  | [] => if prev.any isSTRINGIZE || prev.any isCONCAT then none else some []
  | t :: rest =>
    if prev = none ∧ isCONCAT t = true then none
    else if prev.any isSTRINGIZE ∧ findpar args t = none then none
    else
      let text :=
        match findpar args t with
        | some n => macropar n
        | none => cstring t.yytext
      if bufsiz ≤ text.length then none
      else if isCONCAT t then
        (getdefs args (some t) (bufsiz - 2) rest).map fun defs => CONCAT :: ' ' :: defs
      else if isSTRINGIZE t then
        (getdefs args (some t) (bufsiz - 1) rest).map fun defs => STRINGIZE :: defs
      else
        (getdefs args (some t) (bufsiz - text.length - 1) rest).map fun defs =>
          text ++ ' ' :: defs

/-- The replacement list that `define()` keeps for the rest of its line. -/
def define (args : List Text) (line : Text) : Option Text :=
  (tokens true line).bind (getdefs args none (LINESIZ - 3))

/-- The search for the end of a literal in `copymacro()`: the number of characters
through the delimiter, or `none` when it runs over the end. -/
def delimited (delim : Char) : Bool → Text → Option Nat
  | _, [] => none
  | esc, c :: rest =>
    if c = '\\' ∧ esc = false then (delimited delim true rest).map (· + 1)
    else if c = delim ∧ esc = false then some 1
    else (delimited delim false rest).map (· + 1)

/-- `atoi()` on a text without a sign. -/
def atoi (text : Text) : Nat :=
  ((text.dropWhile isspace).takeWhile Char.isDigit).foldl (fun n c => 10 * n + (c.toNat - 48)) 0

/-- The loop of the stringizing operator, with the room that it leaves. -/
def stringize (bufsiz : Nat) : Text → Option (Text × Nat)
  | [] => some ([], bufsiz)
  | c :: rest =>
    if c = '"' then
      if bufsiz < 3 then none
      else (stringize (bufsiz - 2) rest).map fun (text, room) => ('\\' :: '"' :: text, room)
    else
      if bufsiz < 2 then none
      else (stringize (bufsiz - 1) rest).map fun (text, room) => (c :: text, room)

/-- `concatoper()`: the operator follows or precedes; both texts lead away from the
parameter. -/
def concatoper (before after : Text) : Bool :=
  (after.dropWhile isspace).head? = some CONCAT || (before.dropWhile isspace).head? = some CONCAT

/-- The loop of `copymacro()`. `before` and `written` are what is read and what is
written so far, backwards; `expandarg` expands an argument into the given room. -/
def copymacro (arglist : List Text) (expandarg : Bool → Text → Nat → Option Text)
    (before written : Text) (bufsiz : Nat) (s : Text) : Option Text :=
  match s with
  | [] => some written.reverse
  | c :: rest =>
    if c = '\'' ∨ c = '"' then
      (delimited c false rest).bind fun n =>
        if bufsiz < n + 1 then none
        else
          copymacro arglist expandarg ((c :: rest.take n).reverse ++ before)
            ((c :: rest.take n).reverse ++ written) (bufsiz - (n + 1)) (rest.drop n)
    else if c = CONCAT then
      copymacro arglist expandarg (c :: before) (written.dropWhile (· = ' '))
        (bufsiz + (written.takeWhile (· = ' ')).length) (rest.drop (rest.takeWhile (· = ' ')).length)
    else if c = STRINGIZE then
      if bufsiz < 3 then none
      else
        (stringize bufsiz (arglist.getD (atoi (rest.drop 1)) [])).bind fun (text, room) =>
          copymacro arglist expandarg ((c :: rest.take 4).reverse ++ before)
            (('"' :: text ++ ['"']).reverse ++ written) room (rest.drop 4)
    else if c = MACROPAR then
      (expandarg (concatoper before (rest.drop 3)) (arglist.getD (atoi rest) []) bufsiz).bind
        fun text =>
          copymacro arglist expandarg ((c :: rest.take 3).reverse ++ before)
            (text.reverse ++ written) (bufsiz - text.length) (rest.drop 3)
    else if bufsiz = 0 then none
    else copymacro arglist expandarg (c :: before) (c :: written) (bufsiz - 1) rest
termination_by s.length
decreasing_by
  · simp only [List.length_drop, List.length_cons]
    omega
  · simp only [List.length_drop, List.length_cons]
    omega
  · simp only [List.length_drop, List.length_cons]
    omega
  · simp only [List.length_drop, List.length_cons]
    omega
  · exact Nat.lt_succ_self _

/-- The expansion of a macro without parameters. -/
def expandobject (defs : Text) : Option Text :=
  copymacro [] (fun _ _ _ => none) [] [] (INPUTSIZ - 1) defs

end Scc.Cc1.Lex
