import Scc.As.Expr

/-!
# Constant expressions

The expressions of the assembler with their values modulo 2^64 and the texts that
spell them. An operator binds its operands by its level; a division by zero has no
value.
-/

namespace Scc.As

set_option autoImplicit false

inductive Unary where
  | not
  | minus
  | plus
deriving DecidableEq

inductive Binary where
  | mul
  | div
  | mod
  | shl
  | shr
  | add
  | sub
  | lt
  | gt
  | eq
  | ge
  | le
  | band
  | bor
  | bxor
deriving DecidableEq

/-- A constant expression; a number is its digits. -/
inductive Expr where
  | number (text : Text)
  | paren (e : Expr)
  | unary (op : Unary) (e : Expr)
  | binary (op : Binary) (l r : Expr)

def Unary.mark : Unary → Char
  | .not => '!'
  | .minus => '-'
  | .plus => '+'

def Unary.value : Unary → TUINT → TUINT
  | .not, v => truth (v = 0)
  | .minus, v => -v
  | .plus, v => v

def Binary.mark : Binary → Text
  | .mul => ['*']
  | .div => ['/']
  | .mod => ['%']
  | .shl => ['<', '<']
  | .shr => ['>', '>']
  | .add => ['+']
  | .sub => ['-']
  | .lt => ['<']
  | .gt => ['>']
  | .eq => ['=']
  | .ge => ['>', '=']
  | .le => ['<', '=']
  | .band => ['&']
  | .bor => ['|']
  | .bxor => ['^']

/-- The level of an operator, from `expr()` down to `mul()`. -/
def Binary.level : Binary → Nat
  | .bor | .bxor => 1
  | .band => 2
  | .lt | .gt | .eq | .ge | .le => 3
  | .add | .sub => 4
  | .mul | .div | .mod | .shl | .shr => 5

def Binary.value : Binary → TUINT → TUINT → Option TUINT
  | .mul, l, r => some (l * r)
  | .div, l, r => if r = 0 then none else some (l / r)
  | .mod, l, r => if r = 0 then none else some (l % r)
  | .shl, l, r => some (l <<< r.toNat)
  | .shr, l, r => some (l >>> r.toNat)
  | .add, l, r => some (l + r)
  | .sub, l, r => some (l - r)
  | .lt, l, r => some (truth (l < r))
  | .gt, l, r => some (truth (r < l))
  | .eq, l, r => some (truth (l = r))
  | .ge, l, r => some (truth (r ≤ l))
  | .le, l, r => some (truth (l ≤ r))
  | .band, l, r => some (l &&& r)
  | .bor, l, r => some (l ||| r)
  | .bxor, l, r => some (l ^^^ r)

namespace Expr

/-- `unary()` is level 6 and `primary()` level 7. -/
def level : Expr → Nat
  | .number _ => 7
  | .paren _ => 7
  | .unary _ _ => 6
  | .binary op _ _ => op.level

def numeral (text : Text) : Nat :=
  (numberBase text).2.foldl (fun n c => n * (numberBase text).1 + (xdigit c).getD 0) 0

def eval : Expr → Option TUINT
  | .number text => some (BitVec.ofNat 64 (numeral text))
  | .paren e => e.eval
  | .unary op e => e.eval.map op.value
  | .binary op l r => l.eval.bind fun lv => r.eval.bind fun rv => op.value lv rv

end Expr

def isxdigit (c : Char) : Bool := (xdigit c).isSome

def isNumeral (text : Text) : Bool :=
  match text with
  | '0' :: 'x' :: rest => rest ≠ [] && rest.all isxdigit
  | '0' :: rest => rest.all fun c => '0' ≤ c && c ≤ '7'
  | text => text ≠ [] && text.all Char.isDigit

def Blank (text : Text) : Prop := ∀ c ∈ text, isspace c = true

/-- The texts of an expression, with blanks between its tokens. -/
inductive Spells : Expr → Text → Prop where
  | number {text : Text} (wellFormed : isNumeral text = true)
      (small : Expr.numeral text < 2 ^ 64) : Spells (.number text) text
  | paren {e : Expr} {text blank blank' : Text} (inner : Spells e text) (spaces : Blank blank)
      (spaces' : Blank blank') : Spells (.paren e) ('(' :: blank ++ text ++ blank' ++ [')'])
  | unary {op : Unary} {e : Expr} {text blank : Text} (binds : 6 ≤ e.level) (inner : Spells e text)
      (spaces : Blank blank) : Spells (.unary op e) (op.mark :: blank ++ text)
  | binary {op : Binary} {l r : Expr} {left right blank blank' : Text}
      (bindsLeft : op.level ≤ l.level) (bindsRight : op.level < r.level) (innerLeft : Spells l left)
      (innerRight : Spells r right) (spaces : Blank blank) (spaces' : Blank blank') :
      Spells (.binary op l r) (left ++ blank ++ op.mark ++ blank' ++ right)

/-- The operators that are folded, and their node kept. -/
def Binary.kept : Binary → Bool
  | .add | .sub | .lt | .gt | .eq | .bor | .bxor => true
  | _ => false

/-- The operator that is folded in place of another. -/
def Binary.read : Binary → Binary
  | .lt => .gt
  | op => op

/-- The operators whose folded node is dropped. -/
def Binary.drops : Binary → Bool
  | .mul | .div | .mod => true
  | _ => false

namespace Expr

def isNumber : Expr → Bool
  | .number _ => true
  | _ => false

/-- The expression with every `<` read as `>`. -/
def read : Expr → Expr
  | .binary op l r => .binary op.read l.read r.read
  | .number text => .number text
  | .paren e => .paren e.read
  | .unary op e => .unary op e.read

/-- Numbers that `number()` accepts, with at most one unary operator, and operators
that are folded. -/
def supported : Expr → Bool
  | .number text => (As.number text).isOk
  | .paren _ => false
  | .unary _ e => e.isNumber && e.supported
  | .binary op l r => op.kept && l.supported && r.supported

/-- A multiplication or a division, and its result is dropped. -/
def dropped : Expr → Bool
  | .binary op l r =>
    op.drops && l.supported && r.isNumber && r.supported && (op = .mul || r.eval ≠ some 0)
  | _ => false

/-- A division by zero is met, and nothing went wrong before. -/
def trapped : Expr → Bool
  | .binary op l r =>
    l.trapped ||
      ((l.supported || l.dropped) && (op.kept || op = .band) && r.trapped) ||
      ((op = .div || op = .mod) && l.supported && r.isNumber && r.supported && r.eval = some 0)
  | _ => false

end Expr

end Scc.As
