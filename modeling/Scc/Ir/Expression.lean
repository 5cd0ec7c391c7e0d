import Scc.Lib.Numeral

/-!
# Expressions between cc1 and cc2

cc1 writes an expression in postfix: every node is a field with its operator and the letter
of its type, and fields have tabs in between. cc2 reads the fields with a stack. Both sides
decide from the operator how many operands it has.
-/

namespace Scc.Ir

open Scc.Lib.Numeral

set_option autoImplicit false

inductive Letter
  | INT8 | INT16 | INT32 | INT64 | UINT8 | UINT16 | UINT32 | UINT64
  | FLOAT | DOUBLE | LDOUBLE | VOID | BOOL | POINTER | ELLIPSIS | VA_ARG | FUNCTION
deriving DecidableEq

def Letter.char : Letter → Char
  | .INT8 => 'C'
  | .INT16 => 'I'
  | .INT32 => 'W'
  | .INT64 => 'Q'
  | .UINT8 => 'K'
  | .UINT16 => 'N'
  | .UINT32 => 'Z'
  | .UINT64 => 'O'
  | .FLOAT => 'J'
  | .DOUBLE => 'D'
  | .LDOUBLE => 'H'
  | .VOID => '0'
  | .BOOL => 'B'
  | .POINTER => 'P'
  | .ELLIPSIS => 'E'
  | .VA_ARG => '1'
  | .FUNCTION => 'F'

inductive Kind
  | ARY
  | UNION
  | STRUCT
deriving DecidableEq

def Kind.char : Kind → Char
  | .ARY => 'V'
  | .UNION => 'U'
  | .STRUCT => 'S'

/-- The identifiers are of an unsigned short. -/
abbrev Id := Fin 65536

inductive Ty
  | plain (letter : Letter)
  | ftn (ellipsis : Bool)
  | composed (kind : Kind) (id : Id)
deriving DecidableEq

def Ty.letter : Ty → Char
  | .plain letter => letter.char
  | .ftn _ => Letter.FUNCTION.char
  | .composed kind _ => kind.char

def Ty.isVoid : Ty → Bool
  | .plain .VOID => true
  | _ => false

inductive Bin
  | OADD | OSUB | OMUL | OMOD | ODIV | OSHL | OSHR | OLT | OGT | OGE | OLE | OEQ | ONE
  | OBAND | OBXOR | OBOR | OAND | OOR | OCOMMA | OFIELD
deriving DecidableEq

def Bin.char : Bin → Char
  | .OADD => '+'
  | .OSUB => '-'
  | .OMUL => '*'
  | .OMOD => '%'
  | .ODIV => '/'
  | .OSHL => 'l'
  | .OSHR => 'r'
  | .OLT => '<'
  | .OGT => '>'
  | .OGE => ']'
  | .OLE => '['
  | .OEQ => '='
  | .ONE => '!'
  | .OBAND => '&'
  | .OBXOR => '^'
  | .OBOR => '|'
  | .OAND => 'a'
  | .OOR => 'o'
  | .OCOMMA => ','
  | .OFIELD => '.'

inductive Un
  | OPTR | OADDR | OSNEG | ONEG | OCPL
deriving DecidableEq

def Un.char : Un → Char
  | .OPTR => '@'
  | .OADDR => '\''
  | .OSNEG => '_'
  | .ONEG => 'n'
  | .OCPL => '~'

inductive Sub
  | OADD | OSUB | OMUL | OMOD | ODIV | OSHL | OSHR | OBAND | OBOR | OBXOR | OINC | ODEC
deriving DecidableEq

def Sub.char : Sub → Char
  | .OADD => '+'
  | .OSUB => '-'
  | .OMUL => '*'
  | .OMOD => '%'
  | .ODIV => '/'
  | .OSHL => 'l'
  | .OSHR => 'r'
  | .OBAND => '&'
  | .OBOR => '|'
  | .OBXOR => '^'
  | .OINC => 'i'
  | .ODEC => 'd'

/-- The operators that `emitbin()` writes. -/
inductive Op
  | binary (op : Bin)
  | unary (op : Un)
  | assign (sub : Option Sub)
  | OASK
  | OCOLON
  | OPAR
  | OCALL
  | OCALLE
deriving DecidableEq

def optxt : Op → Option (List Char)
  | .binary op => some [op.char]
  | .unary op => some [op.char]
  | .assign none => some [':']
  | .assign (some sub) => some [':', sub.char]
  | .OASK => some ['?']
  | .OCOLON => none
  | .OPAR => some ['p']
  | .OCALL => some ['c']
  | .OCALLE => some ['z']

inductive Builtin
  | va_arg | va_start | va_end | va_copy
deriving DecidableEq

def Builtin.name : Builtin → List Char
  | .va_arg => "__builtin_va_arg".toList
  | .va_start => "__builtin_va_start".toList
  | .va_end => "__builtin_va_end".toList
  | .va_copy => "__builtin_va_copy".toList

def Builtin.nchilds : Builtin → Nat
  | .va_arg => 1
  | .va_start => 2
  | .va_end => 1
  | .va_copy => 2

/-- The letter of a variable, from its flags. -/
inductive Sclass
  | local_ | private_ | global | register | field | extern_ | auto
deriving DecidableEq

def Sclass.char : Sclass → Char
  | .local_ => 'T'
  | .private_ => 'Y'
  | .global => 'G'
  | .register => 'R'
  | .field => 'M'
  | .extern_ => 'X'
  | .auto => 'A'

inductive Tree
  | nil
  /-- A variable; `initlst` is the flag `SINITLST` of a compound literal. -/
  | var (sclass : Sclass) (id : Id) (initlst : Bool)
  /-- A constant of a pointer, an integer or an enumeration. -/
  | const (letter : Letter) (size : Nat) (u : BitVec 64) (initlst : Bool)
  | bin (op : Op) (type : Ty) (left right : Tree)
  | cast (type : Ty) (left : Tree)
  | builtin (sym : Builtin) (type : Ty) (left right : Tree)

def emitletter : Ty → List Char
  | .plain letter => [letter.char]
  | .ftn ellipsis => [if ellipsis then Letter.ELLIPSIS.char else Letter.FUNCTION.char]
  | .composed kind id => kind.char :: numeral 10 id.val

/-- The value without the bits that the type does not have. -/
def masked (size : Nat) (u : BitVec 64) : Nat := u.toNat % 2 ^ (8 * size)

def emitvar (sclass : Sclass) (id : Id) : List Char := sclass.char :: numeral 10 id.val

def emitconst (letter : Letter) (size : Nat) (u : BitVec 64) : List Char :=
  '#' :: letter.char :: numeral 16 (masked size u)

/-- There is no tab in front of a compound literal. -/
def emitsym (initlst : Bool) (text : List Char) : List Char :=
  (if initlst then [] else ['\t']) ++ text

def emitnode : Tree → List Char
  | .nil => []
  | .var sclass id initlst => emitsym initlst (emitvar sclass id)
  | .const letter size u initlst => emitsym initlst (emitconst letter size u)
  | .bin op type left right =>
    emitnode left ++ emitnode right ++
      match optxt op with
      | some s => '\t' :: (s ++ emitletter type)
      | none => []
  | .cast type left => emitnode left ++ if type.isVoid then [] else ['\t', 'g', type.letter]
  | .builtin sym type left right =>
    emitnode left ++ emitnode right ++ '\t' :: '"' :: sym.name ++ '\t' :: 'm' :: emitletter type

def emitexp (np : Tree) : List Char := emitnode np ++ ['\n']

inductive CType
  | simple (letter : Letter)
  | composed (id : Nat)
deriving DecidableEq

inductive Storage
  | OAUTO | OREG | OMEM
deriving DecidableEq

inductive NodeOp
  | binary (op : Bin)
  | unary (op : Un)
  | assign (sub : Option Sub)
  | OASK
  | OCAST
  | OPAR
  | OCALL
  | OCALLE
  | OBUILTIN (subop : Builtin)
deriving DecidableEq

inductive Node
  | nil
  | sym (op : Storage) (id : Nat)
  | const (type : CType) (value : Nat)
  | node (op : NodeOp) (type : CType) (left right : Node)
  | colon (left right : Node)
deriving DecidableEq

inductive Elem
  | type (tp : CType)
  | name (s : List Char)
  | node (np : Node)
deriving DecidableEq

/-- The last element pushed is the first of the list. -/
abbrev Stack := List Elem

def STACKSIZ : Nat := 50

def USHRT_MAX : Nat := 65535

def push (elem : Elem) (s : Stack) : Option Stack :=
  if s.length < STACKSIZ then some (elem :: s) else none

def getsym (id : Nat) : Option Nat := if id ≥ USHRT_MAX then none else some id

inductive Parse
  | symbol (op : Storage)
  | type (letter : Letter)
  | composed
  | getname
  | unary (op : NodeOp)
  | binary (op : Bin)
  | builtin
  | assign
  | ternary
  | call (op : NodeOp)
  | constant
deriving DecidableEq

/-- The table of the letters of expressions. -/
def optbl : Char → Option Parse
  | 'A' => some (.symbol .OAUTO)
  | 'R' => some (.symbol .OREG)
  | 'G' => some (.symbol .OMEM)
  | 'X' => some (.symbol .OMEM)
  | 'Y' => some (.symbol .OMEM)
  | 'T' => some (.symbol .OMEM)
  | 'M' => some (.symbol .OMEM)
  | 'C' => some (.type .INT8)
  | 'I' => some (.type .INT16)
  | 'W' => some (.type .INT32)
  | 'Q' => some (.type .INT64)
  | 'K' => some (.type .UINT8)
  | 'N' => some (.type .UINT16)
  | 'Z' => some (.type .UINT32)
  | 'O' => some (.type .UINT64)
  | 'J' => some (.type .FLOAT)
  | 'D' => some (.type .DOUBLE)
  | 'H' => some (.type .LDOUBLE)
  | '0' => some (.type .VOID)
  | 'B' => some (.type .BOOL)
  | 'P' => some (.type .POINTER)
  | 'E' => some (.type .ELLIPSIS)
  | '1' => some (.type .VA_ARG)
  | 'F' => some (.type .FUNCTION)
  | 'V' => some .composed
  | 'U' => some .composed
  | 'S' => some .composed
  | '"' => some .getname
  | '~' => some (.unary (.unary .OCPL))
  | '_' => some (.unary (.unary .OSNEG))
  | '\'' => some (.unary (.unary .OADDR))
  | '@' => some (.unary (.unary .OPTR))
  | 'g' => some (.unary .OCAST)
  | 'p' => some (.unary .OPAR)
  | 'n' => some (.unary (.unary .ONEG))
  | 'a' => some (.binary .OAND)
  | 'o' => some (.binary .OOR)
  | '.' => some (.binary .OFIELD)
  | '+' => some (.binary .OADD)
  | '-' => some (.binary .OSUB)
  | '*' => some (.binary .OMUL)
  | '%' => some (.binary .OMOD)
  | '/' => some (.binary .ODIV)
  | 'l' => some (.binary .OSHL)
  | 'r' => some (.binary .OSHR)
  | '<' => some (.binary .OLT)
  | '>' => some (.binary .OGT)
  | '[' => some (.binary .OLE)
  | ']' => some (.binary .OGE)
  | '=' => some (.binary .OEQ)
  | '!' => some (.binary .ONE)
  | '&' => some (.binary .OBAND)
  | '|' => some (.binary .OBOR)
  | '^' => some (.binary .OBXOR)
  | ',' => some (.binary .OCOMMA)
  | 'm' => some .builtin
  | ':' => some .assign
  | '?' => some .ternary
  | 'c' => some (.call .OCALL)
  | 'z' => some (.call .OCALLE)
  | '#' => some .constant
  | _ => none

/-- `gettype()` pushes the type and takes it from the stack again. -/
def gettype (token : List Char) (s : Stack) : Option CType :=
  match token with
  | [] => none
  | c :: rest =>
    match optbl c with
    | some (.type letter) => (push (.type (.simple letter)) s).map fun _ => .simple letter
    | some .composed =>
      (getsym (atoi rest)).bind fun id =>
        (push (.type (.composed id)) s).map fun _ => .composed id
    | _ => none

def subop : Char → Option Sub
  | '+' => some .OADD
  | '-' => some .OSUB
  | '*' => some .OMUL
  | '%' => some .OMOD
  | '/' => some .ODIV
  | 'l' => some .OSHL
  | 'r' => some .OSHR
  | '&' => some .OBAND
  | '|' => some .OBOR
  | '^' => some .OBXOR
  | 'i' => some .OINC
  | 'd' => some .ODEC
  | _ => none

def popNode : Stack → Option (Node × Stack)
  | .node np :: s => some (np, s)
  | _ => none

def popName : Stack → Option (List Char × Stack)
  | .name t :: s => some (t, s)
  | _ => none

/-- The function and the chain of its parameters. -/
def popCall : Node → Stack → Option (Node × Node × Stack)
  | par, .node (.node .OPAR type left _) :: s => popCall (.node .OPAR type left par) s
  | par, .node np :: s => some (np, par, s)
  | _, _ => none

def binaryNode (op : NodeOp) (type : CType) (s : Stack) : Option Stack :=
  (popNode s).bind fun (right, s) =>
    (popNode s).bind fun (left, s) => push (.node (.node op type left right)) s

def unaryNode (op : NodeOp) (type : CType) (s : Stack) : Option Stack :=
  (popNode s).bind fun (left, s) => push (.node (.node op type left .nil)) s

def builtins (name : List Char) : Option Builtin :=
  if name = Builtin.va_arg.name then some .va_arg
  else if name = Builtin.va_start.name then some .va_start
  else if name = Builtin.va_end.name then some .va_end
  else if name = Builtin.va_copy.name then some .va_copy
  else none

/-- A field, without its first letter. Only initializers have constants that are strings. -/
def Parse.run : Parse → List Char → Stack → Option Stack
  | .symbol op, token, s => (getsym (atoi token)).bind fun id => push (.node (.sym op id)) s
  | .type letter, _, s => push (.type (.simple letter)) s
  | .composed, token, s => (getsym (atoi token)).bind fun id => push (.type (.composed id)) s
  | .getname, token, s => push (.name token) s
  | .unary op, token, s => (gettype token s).bind fun tp => unaryNode op tp s
  | .binary op, token, s => (gettype token s).bind fun tp => binaryNode (.binary op) tp s
  | .builtin, token, s =>
    (gettype token s).bind fun tp =>
      (popName s).bind fun (name, s) =>
        (builtins name).bind fun sub =>
          if sub.nchilds = 2 then binaryNode (.OBUILTIN sub) tp s
          else unaryNode (.OBUILTIN sub) tp s
  | .assign, token, s =>
    match token with
    | [] => none
    | c :: rest =>
      match subop c with
      | some sub => (gettype rest s).bind fun tp => binaryNode (.assign (some sub)) tp s
      | none => (gettype token s).bind fun tp => binaryNode (.assign none) tp s
  | .ternary, token, s =>
    (gettype token s).bind fun tp =>
      (popNode s).bind fun (no, s) =>
        (popNode s).bind fun (yes, s) =>
          (popNode s).bind fun (ask, s) => push (.node (.node .OASK tp ask (.colon yes no))) s
  | .call op, token, s =>
    (popCall .nil s).bind fun (fn, pars, s) =>
      (gettype token s).bind fun tp => push (.node (.node op tp fn pars)) s
  | .constant, token, s =>
    (gettype token s).bind fun tp =>
      push (.node (.const tp (value 16 (fun c => letters.idxOf c) (token.drop 1) % 2 ^ 64))) s

/-- The fields of a line, until one that no function parses. -/
def eval : List (List Char) → Stack → Option Stack
  | [], s => some s
  | [] :: _, s => some s
  | (c :: token) :: rest, s =>
    match optbl c with
    | some parse => (parse.run token s).bind (eval rest)
    | none => some s

/-- The fields that `strtok()` finds. -/
def strtok (line : List Char) : List (List Char) :=
  (line.splitOnP fun c => c = '\t' ∨ c = '\n').filter fun token => token ≠ []

/-- A line has to fit into the buffer with its end. -/
def nextline (linesiz : Nat) (line : List Char) : Option Stack :=
  if line.length < linesiz then eval (strtok line) [] else none

end Scc.Ir
