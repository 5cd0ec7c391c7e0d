import Mathlib.Algebra.Ring.Nat
import Mathlib.Algebra.Ring.Int.Defs
import Mathlib.Data.Int.ModEq

/-!
# Controlling expressions

`exp2cond()` makes a condition of the tree of an expression, and with `NEGATE` the
opposite one; `simplify()` folds it. An expression is a constant, a comparison of two
ints, a logical operator, or anything else: of the others only the type and what they
evaluate to matters here. A comparison of another type ends in a conversion to int and
is one of the others, as `exp2cond()` sees it.
-/

namespace Scc.Cc1.Lowering

set_option autoImplicit false

inductive TypeOp
  | INT
  | ENUM
  | PTR
  | FLOAT
  /-- A structure or a union. -/
  | AGGREG
deriving DecidableEq

structure Ty where
  op : TypeOp
  size : Nat
  signed : Bool
deriving DecidableEq

/-- The value of the type that a value becomes. -/
def Ty.wrap (type : Ty) (value : Int) : Int :=
  if type.op = .INT ∨ type.op = .ENUM then
    if type.signed then Int.bmod value (2 ^ (8 * type.size)) else value % 2 ^ (8 * type.size)
  else value

structure Arch where
  intsize : Nat
  pos : 0 < intsize
  le : intsize ≤ 8

def Arch.inttype (arch : Arch) : Ty := ⟨.INT, arch.intsize, true⟩

/-- The operators of `compare()`. -/
inductive Rel
  | OEQ
  | ONE
  | OLT
  | OGE
  | OLE
  | OGT
deriving DecidableEq

def Rel.holds : Rel → Int → Int → Bool
  | .OEQ, l, r => l = r
  | .ONE, l, r => l ≠ r
  | .OLT, l, r => l < r
  | .OGE, l, r => l ≥ r
  | .OLE, l, r => l ≤ r
  | .OGT, l, r => l > r

def negop : Rel → Rel
  | .OEQ => .ONE
  | .ONE => .OEQ
  | .OLT => .OGE
  | .OGE => .OLT
  | .OLE => .OGT
  | .OGT => .OLE

/-- A constant of a type. Floating ones are left out. -/
def Ty.Fits (type : Ty) (value : Int) : Prop := type.op ≠ .FLOAT ∧ type.wrap value = value

inductive Expr (arch : Arch) : Ty → Type
  | constant (type : Ty) (value : Int) (fits : type.Fits value) : Expr arch type
  | other (type : Ty) (id : Nat) : Expr arch type
  | not {type : Ty} (operand : Expr arch type) : Expr arch arch.inttype
  /-- `||` or `&&`. -/
  | logic {type type' : Ty} (or : Bool) (left : Expr arch type) (right : Expr arch type') :
      Expr arch arch.inttype
  | compare (op : Rel) (left right : Expr arch arch.inttype) : Expr arch arch.inttype

abbrev History := List Nat

/-- What an expression evaluates to may depend on all that has been evaluated before. -/
abbrev Valuation := History → Nat → Int

def bit (b : Bool) : Int := if b then 1 else 0

/-- The value that C prescribes, and what has been evaluated then. -/
def Expr.eval {arch : Arch} (ν : Valuation) : {type : Ty} → Expr arch type → History → Int × History
  | _, .constant _ value _, h => (value, h)
  | _, .other type id, h => (type.wrap (ν h id), h ++ [id])
  | _, .not operand, h =>
    let r := operand.eval ν h
    (bit (r.1 = 0), r.2)
  | _, .logic or left right, h =>
    let l := left.eval ν h
    if decide (l.1 ≠ 0) = or then (bit or, l.2)
    else
      let r := right.eval ν l.2
      (bit (r.1 ≠ 0), r.2)
  | _, .compare op left right, h =>
    let l := left.eval ν h
    let r := right.eval ν l.2
    (bit (op.holds l.1 r.1), r.2)

inductive Node
  /-- A symbol with a constant value. -/
  | const (type : Ty) (value : Int)
  | other (type : Ty) (id : Nat)
  | neg (np : Node)
  | logic (or : Bool) (left right : Node)
  | compare (op : Rel) (left right : Node)
  /-- A conversion to int. -/
  | cast (np : Node)
  | comma (left right : Node)
deriving DecidableEq

def Node.value : Node → Option Int
  | .const _ value => some value
  | _ => none

def Node.type (arch : Arch) : Node → Ty
  | .const type _ => type
  | .other type _ => type
  | .comma _ right => right.type arch
  | _ => arch.inttype

def Node.eval (arch : Arch) (ν : Valuation) : Node → History → Int × History
  | .const type value, h => (type.wrap value, h)
  | .other type id, h => (type.wrap (ν h id), h ++ [id])
  | .neg np, h =>
    let r := np.eval arch ν h
    (bit (r.1 = 0), r.2)
  | .logic or left right, h =>
    let l := left.eval arch ν h
    if decide (l.1 ≠ 0) = or then (bit or, l.2)
    else
      let r := right.eval arch ν l.2
      (bit (r.1 ≠ 0), r.2)
  | .compare op left right, h =>
    let l := left.eval arch ν h
    let r := right.eval arch ν l.2
    (bit (op.holds l.1 r.1), r.2)
  | .cast np, h =>
    let r := np.eval arch ν h
    (arch.inttype.wrap r.1, r.2)
  | .comma left right, h => right.eval arch ν (left.eval arch ν h).2

/-- The conversions of the operands to a common type change neither of them where both
are ints, and not whether an operand of another type is zero. -/
def compare (op : Rel) (lp rp : Node) : Node := .compare op lp rp

def exp2cond (arch : Arch) (np : Node) (neg : Bool) : Option Node :=
  if (np.type arch).op = .AGGREG then none
  else
    match np with
    | .neg np => some (if neg then .neg (.neg np) else .neg np)
    | .logic or left right => some (if neg then .neg (.logic or left right) else .logic or left right)
    | .compare op left right => some (.compare (if neg then negop op else op) left right)
    | np => some (compare (if neg then .OEQ else .ONE) np (.const arch.inttype 0))

def negation (arch : Arch) (np : Node) : Option Node := exp2cond arch np true

def logic (arch : Arch) (or : Bool) (lp rp : Node) : Option Node :=
  (exp2cond arch lp false).bind fun lp => (exp2cond arch rp false).map (.logic or lp)

def expr {arch : Arch} : {type : Ty} → Expr arch type → Option Node
  | _, .constant type value _ => some (.const type value)
  | _, .other type id => some (.other type id)
  | _, .not operand => (expr operand).bind (negation arch)
  | _, .logic or left right => (expr left).bind fun lp => (expr right).bind (logic arch or lp)
  | _, .compare op left right => (expr left).bind fun lp => (expr right).map (compare op lp)

/-- The value in sixty-four bits, extended from the sign of the int if that is set and
left alone if not. -/
def foldcast (arch : Arch) (value : Int) : Int :=
  if 2 ^ (8 * arch.intsize - 1) ≤ value % 2 ^ (8 * arch.intsize) then
    value % 2 ^ (8 * arch.intsize) - 2 ^ (8 * arch.intsize)
  else Int.bmod value (2 ^ 64)

def foldunary (arch : Arch) : Node → Node
  | .neg (.neg np) => np
  | .cast (.const _ value) => .const arch.inttype (foldcast arch value)
  | np => np

def fold (arch : Arch) : Node → Node
  | .neg (.const _ value) => .const arch.inttype (bit (value = 0))
  | .logic or (.const _ l) (.const _ r) =>
    .const arch.inttype (bit (if or then l ≠ 0 || r ≠ 0 else l ≠ 0 && r ≠ 0))
  | .compare op (.const _ l) (.const _ r) => .const arch.inttype (bit (op.holds l r))
  | np => np

def commutative : Node → Node
  | .compare op l r =>
    if r.value.isSome ∨ l.value.isNone then .compare op l r
    else
      match op with
      | .OEQ => .compare .OEQ r l
      | .ONE => .compare .ONE r l
      | op => .compare (negop op) r l
  | np => np

def cmpnode (np : Node) (val : Int) : Bool :=
  match np with
  | .const type value => (type.op = .PTR || type.op = .INT) && value = val
  | _ => false

def identity : Node → Node
  | .logic true l r =>
    if cmpnode l 1 ∨ cmpnode r 0 then l
    else if cmpnode l 0 then r
    else if cmpnode r 1 then .comma l r
    else .logic true l r
  | .logic false l r =>
    if cmpnode l 0 ∨ cmpnode r 1 then l
    else if cmpnode l 1 then r
    else if cmpnode r 0 then .comma l r
    else .logic false l r
  | np => np

/-- What is done with a node whose operands are simplified. -/
def rewrite (arch : Arch) : Node → Node
  | .neg np => fold arch (foldunary arch (.neg np))
  | .cast np => foldunary arch (.cast np)
  | .logic or l r => identity (fold arch (.logic or l r))
  | .compare op l r => fold arch (commutative (.compare op l r))
  | np => np

def simplify (arch : Arch) : Node → Node
  | .neg np => rewrite arch (.neg (simplify arch np))
  | .logic or l r => rewrite arch (.logic or (simplify arch l) (simplify arch r))
  | .compare op l r => rewrite arch (.compare op (simplify arch l) (simplify arch r))
  | .cast np => rewrite arch (.cast (simplify arch np))
  | .comma l r => .comma (simplify arch l) (simplify arch r)
  | np => np

/-- An ordering with a constant on the left only, which `commutative()` turns round and
negates. -/
def turned (arch : Arch) (op : Rel) (l r : Node) : Bool :=
  op ≠ .OEQ && op ≠ .ONE && (simplify arch l).value.isSome && (simplify arch r).value.isNone

/-- No ordering in the tree is turned round. -/
def Node.direct (arch : Arch) : Node → Bool
  | .neg np => np.direct arch
  | .logic _ l r => l.direct arch && r.direct arch
  | .compare op l r => l.direct arch && r.direct arch && !turned arch op l r
  | .cast np => np.direct arch
  | .comma l r => l.direct arch && r.direct arch
  | _ => true

def condexpr {arch : Arch} {type : Ty} (e : Expr arch type) (neg : Bool) : Option Node :=
  (expr e).bind fun np => (exp2cond arch np neg).map (simplify arch)

section Simplify

variable {arch : Arch}

def Node.Bit (arch : Arch) (np : Node) : Prop :=
  ∀ ν h, ∃ b, (np.eval arch ν h).1 = bit b

/-- The operands of logical operators are conditions, and every constant is one of its type. -/
def Node.Formed (arch : Arch) : Node → Prop
  | .const type value => type.wrap value = value
  | .other _ _ => True
  | .neg np => np.Formed arch ∧ np.Bit arch
  | .logic _ l r => (l.Formed arch ∧ l.Bit arch) ∧ r.Formed arch ∧ r.Bit arch
  | .compare _ l r => l.Formed arch ∧ r.Formed arch
  | .cast _ => False
  | .comma l r => l.Formed arch ∧ r.Formed arch

def Node.Keeps (arch : Arch) (np np' : Node) : Prop :=
  np'.Formed arch ∧ ∀ ν h, np'.eval arch ν h = np.eval arch ν h

variable {np l r c : Node} {neg : Bool}

theorem Node.Keeps.refl (formed : np.Formed arch) : np.Keeps arch np :=
  ⟨formed, fun _ _ => rfl⟩

theorem Node.Keeps.trans {np np' np'' : Node} (first : np.Keeps arch np') (second : np'.Keeps arch np'') :
    np.Keeps arch np'' :=
  ⟨second.1, fun ν h => (second.2 ν h).trans (first.2 ν h)⟩

theorem Node.Bit.keeps {np np' : Node} (isBit : np.Bit arch) (keeps : np.Keeps arch np') : np'.Bit arch := by
  intro ν h
  rw [keeps.2]
  exact isBit ν h

variable (b : Bool)

theorem wrap_bit : arch.inttype.wrap (bit b) = bit b := by
  have pos := arch.pos
  have large : 2 ^ 2 ≤ 2 ^ (8 * arch.intsize) := Nat.pow_le_pow_right (by decide) (by omega)
  have wrapped : arch.inttype.wrap (bit b) = Int.bmod (bit b) (2 ^ (8 * arch.intsize)) := rfl
  rw [wrapped]
  generalize 2 ^ (8 * arch.intsize) = bound at large
  cases b with
  | false => exact Int.zero_bmod
  | true =>
    apply Int.bmod_eq_of_le
    · rw [bit, if_pos rfl]
      omega
    · rw [bit, if_pos rfl]
      omega

theorem formed_bit : (Node.const arch.inttype (bit b)).Formed arch := wrap_bit b

attribute [local simp] Node.eval in
@[simp] theorem eval_bit (ν : Valuation) (h : History) :
    (Node.const arch.inttype (bit b)).eval arch ν h = (bit b, h) := by
  simp [wrap_bit]

theorem bit_ne_zero : decide (bit b ≠ 0) = b := by
  cases b with
  | false => rfl
  | true => rfl

theorem bit_eq_zero : decide (bit b = 0) = !b := by
  cases b with
  | false => rfl
  | true => rfl

theorem bit_inj {a b : Bool} (same : bit a = bit b) : a = b := by
  rw [← bit_ne_zero a, same, bit_ne_zero]

theorem fold_keeps (formed : np.Formed arch) : np.Keeps arch (fold arch np) := by
  unfold fold
  split
  · rename_i type value
    have fits : type.wrap value = value := formed.1
    refine ⟨formed_bit _, fun ν h => ?_⟩
    rw [eval_bit]
    simp only [Node.eval, fits]
  · rename_i or type l type' r
    have fits : type.wrap l = l := formed.1.1
    have fits' : type'.wrap r = r := formed.2.1
    refine ⟨formed_bit _, fun ν h => ?_⟩
    rw [eval_bit]
    simp only [Node.eval, fits, fits']
    cases or with
    | false => by_cases zero : l = 0 <;> simp [zero]
    | true => by_cases zero : l = 0 <;> simp [zero]
  · rename_i op type l type' r
    have fits : type.wrap l = l := formed.1
    have fits' : type'.wrap r = r := formed.2
    refine ⟨formed_bit _, fun ν h => ?_⟩
    rw [eval_bit]
    simp only [Node.eval, fits, fits']
  · exact Node.Keeps.refl formed

theorem foldunary_keeps (formed : (Node.neg np).Formed arch) :
    (Node.neg np).Keeps arch (foldunary arch (.neg np)) := by
  cases np with
  | neg np =>
    have isBit : np.Bit arch := formed.1.2
    refine ⟨formed.1.1, fun ν h => ?_⟩
    rcases isBit ν h with ⟨b, value⟩
    simp only [foldunary, Node.eval, value, bit_eq_zero, Bool.not_not]
    rw [← value]
  | _ => exact Node.Keeps.refl formed

theorem holds_comm {op : Rel} (symmetric : op = .OEQ ∨ op = .ONE) (l r : Int) :
    op.holds l r = op.holds r l := by
  rcases symmetric with isEq | isNe
  · subst isEq
    exact decide_eq_decide.mpr eq_comm
  · subst isNe
    exact decide_eq_decide.mpr ne_comm

theorem commutative_keeps {op : Rel} (formed : (Node.compare op l r).Formed arch)
    (straight : op = .OEQ ∨ op = .ONE ∨ l.value = none ∨ r.value.isSome) :
    (Node.compare op l r).Keeps arch (commutative (.compare op l r)) := by
  unfold commutative
  by_cases stays : r.value.isSome ∨ l.value.isNone
  · simp only [stays, if_true]
    exact Node.Keeps.refl formed
  · simp only [stays, if_false]
    rw [not_or] at stays
    cases l with
    | const type value =>
      have mirrored : ∀ ν h, (Node.compare op r (.const type value)).eval arch ν h =
          (bit (op.holds (r.eval arch ν h).1 (type.wrap value)), (r.eval arch ν h).2) := fun _ _ => rfl
      rcases straight with isEq | isNe | noConst | someRight
      · subst isEq
        refine ⟨⟨formed.2, formed.1⟩, fun ν h => ?_⟩
        rw [mirrored, holds_comm (Or.inl rfl)]
        rfl
      · subst isNe
        refine ⟨⟨formed.2, formed.1⟩, fun ν h => ?_⟩
        rw [mirrored, holds_comm (Or.inr rfl)]
        rfl
      · exact absurd noConst (by simp [Node.value])
      · exact absurd someRight stays.1
    | _ => exact absurd rfl stays.2

theorem cmpnode_const {val : Int} (same : cmpnode np val = true) : ∃ type, np = .const type val := by
  cases np with
  | const type value =>
    simp only [cmpnode, Bool.and_eq_true, decide_eq_true_eq] at same
    exact ⟨type, by rw [same.2]⟩
  | _ => exact absurd same (by simp [cmpnode])

theorem identity_logic (or : Bool) (l r : Node) : identity (.logic or l r) =
      if cmpnode l (bit or) ∨ cmpnode r (bit !or) then l else if cmpnode l (bit !or) then r
      else if cmpnode r (bit or) then .comma l r else .logic or l r := by
  cases or with
  | false => rfl
  | true => rfl

theorem logic_eval {or a b : Bool} {ν : Valuation} {h h' h'' : History}
    (left : l.eval arch ν h = (bit a, h')) (right : r.eval arch ν h' = (bit b, h'')) :
    (Node.logic or l r).eval arch ν h = if a = or then (bit or, h') else (bit b, h'') := by
  simp only [Node.eval, left, right, bit_ne_zero]

theorem const_eval {val : Int} (formed : np.Formed arch) (isConst : cmpnode np val = true)
    (ν : Valuation) (h : History) : np.eval arch ν h = (val, h) := by
  rcases cmpnode_const isConst with ⟨type, isConst⟩
  subst isConst
  have fits : type.wrap val = val := formed
  rw [Node.eval, fits]

theorem Node.Bit.eval (isBit : np.Bit arch) (ν : Valuation) (h : History) :
    ∃ b h', np.eval arch ν h = (bit b, h') := by
  rcases isBit ν h with ⟨b, value⟩
  exact ⟨b, (np.eval arch ν h).2, Prod.ext value rfl⟩

theorem identity_keeps {or : Bool} (formed : (Node.logic or l r).Formed arch) :
    (Node.logic or l r).Keeps arch (identity (.logic or l r)) := by
  rcases formed with ⟨⟨formedL, bitL⟩, formedR, bitR⟩
  rw [identity_logic]
  split_ifs with keepsLeft keepsRight ordered
  · refine ⟨formedL, fun ν h => ?_⟩
    rcases bitL.eval ν h with ⟨a, h', left⟩
    rcases bitR.eval ν h' with ⟨b, h'', right⟩
    rw [logic_eval left right, left]
    rcases keepsLeft with decides | neutral
    · rw [const_eval formedL decides, Prod.mk.injEq] at left
      rw [← bit_inj left.1, if_pos rfl]
    · rw [const_eval formedR neutral, Prod.mk.injEq] at right
      rw [← bit_inj right.1, ← right.2]
      by_cases same : a = or
      · rw [if_pos same, same]
      · rw [if_neg same, Bool.eq_not_of_ne same]
  · refine ⟨formedR, fun ν h => ?_⟩
    rcases bitL.eval ν h with ⟨a, h', left⟩
    rcases bitR.eval ν h' with ⟨b, h'', right⟩
    rw [logic_eval left right]
    rw [const_eval formedL keepsRight, Prod.mk.injEq] at left
    rw [← bit_inj left.1, if_neg (Bool.not_ne_self or), left.2, right]
  · refine ⟨⟨formedL, formedR⟩, fun ν h => ?_⟩
    rcases bitL.eval ν h with ⟨a, h', left⟩
    rcases bitR.eval ν h' with ⟨b, h'', right⟩
    rw [logic_eval left right, Node.eval, left, right]
    rw [const_eval formedR ordered, Prod.mk.injEq] at right
    rw [← bit_inj right.1, ← right.2, ite_self]
  · exact Node.Keeps.refl ⟨⟨formedL, bitL⟩, formedR, bitR⟩

theorem fold_logic (arch : Arch) (or : Bool) (l r : Node) :
    (∃ b, fold arch (.logic or l r) = .const arch.inttype (bit b)) ∨
      fold arch (.logic or l r) = .logic or l r := by
  unfold fold
  split
  · rename_i same
    cases same
  · exact Or.inl ⟨_, rfl⟩
  · rename_i same
    cases same
  · exact Or.inr rfl

theorem simplify_keeps (formed : np.Formed arch) (direct : np.direct arch = true) :
    np.Keeps arch (simplify arch np) := by
  induction np with
  | const type value => exact Node.Keeps.refl formed
  | other type id => exact Node.Keeps.refl formed
  | cast np ih => exact formed.elim
  | comma l r ihL ihR =>
    rw [Node.direct, Bool.and_eq_true] at direct
    have left := ihL formed.1 direct.1
    have right := ihR formed.2 direct.2
    refine ⟨⟨left.1, right.1⟩, fun ν h => ?_⟩
    rw [simplify, Node.eval, Node.eval, left.2, right.2]
  | neg np ih =>
    have operand := ih formed.1 direct
    have inside : (Node.neg np).Keeps arch (.neg (simplify arch np)) := by
      refine ⟨⟨operand.1, formed.2.keeps operand⟩, fun ν h => ?_⟩
      rw [Node.eval, Node.eval, operand.2]
    have unary := inside.trans (foldunary_keeps inside.1)
    exact unary.trans (fold_keeps unary.1)
  | logic or l r ihL ihR =>
    rw [Node.direct, Bool.and_eq_true] at direct
    have left := ihL formed.1.1 direct.1
    have right := ihR formed.2.1 direct.2
    have inside : (Node.logic or l r).Keeps arch (.logic or (simplify arch l) (simplify arch r)) := by
      refine ⟨⟨⟨left.1, formed.1.2.keeps left⟩, right.1, formed.2.2.keeps right⟩, fun ν h => ?_⟩
      simp only [Node.eval, left.2, right.2]
    have folded := inside.trans (fold_keeps inside.1)
    rw [simplify, rewrite]
    rcases fold_logic arch or (simplify arch l) (simplify arch r) with ⟨b, isConst⟩ | same
    · rw [isConst] at folded ⊢
      exact folded
    · rw [same] at folded ⊢
      exact folded.trans (identity_keeps folded.1)
  | compare op l r ihL ihR =>
    rw [Node.direct, Bool.and_eq_true, Bool.and_eq_true] at direct
    have left := ihL formed.1 direct.1.1
    have right := ihR formed.2 direct.1.2
    have inside : (Node.compare op l r).Keeps arch
        (.compare op (simplify arch l) (simplify arch r)) := by
      refine ⟨⟨left.1, right.1⟩, fun ν h => ?_⟩
      simp only [Node.eval, left.2, right.2]
    have straight : op = .OEQ ∨ op = .ONE ∨ (simplify arch l).value = none ∨
        (simplify arch r).value.isSome := by
      have notTurned := direct.2
      simp only [turned, Bool.not_eq_true', Bool.and_eq_false_iff, decide_eq_false_iff_not,
        Decidable.not_not] at notTurned
      rcases notTurned with ((isEq | isNe) | noConst) | noConst
      · exact Or.inl isEq
      · exact Or.inr (Or.inl isNe)
      · exact Or.inr (Or.inr (Or.inl (Option.isNone_iff_eq_none.mp (Option.isSome_eq_false_iff.mp noConst))))
      · exact Or.inr (Or.inr (Or.inr (Option.isNone_eq_false_iff.mp noConst)))
    have turned := inside.trans (commutative_keeps inside.1 straight)
    exact turned.trans (fold_keeps turned.1)

theorem negop_holds (op : Rel) (l r : Int) : (negop op).holds l r = !op.holds l r := by
  cases op <;> simp only [negop, Rel.holds, ← decide_not] <;> exact decide_eq_decide.mpr (by omega)

theorem wrap_zero : arch.inttype.wrap 0 = 0 := wrap_bit false

/-- The tree is the condition that another is not zero, or that it is. -/
def Decides (arch : Arch) (np : Node) (neg : Bool) (c : Node) : Prop :=
  c.Formed arch ∧ ∀ ν h, c.eval arch ν h =
    (bit (decide ((np.eval arch ν h).1 ≠ 0) ^^ neg), (np.eval arch ν h).2)

theorem decides_itself (formed : np.Formed arch) (isBit : np.Bit arch) : Decides arch np false np := by
  refine ⟨formed, fun ν h => ?_⟩
  rcases isBit.eval ν h with ⟨b, h', value⟩
  rw [value, bit_ne_zero, Bool.xor_false]

theorem decides_neg (formed : np.Formed arch) (isBit : np.Bit arch) : Decides arch np true (.neg np) := by
  refine ⟨⟨formed, isBit⟩, fun ν h => ?_⟩
  rcases isBit.eval ν h with ⟨b, h', value⟩
  rw [Node.eval, value, bit_ne_zero, bit_eq_zero, Bool.xor_true]

theorem decides_compare (formed : np.Formed arch) (neg : Bool) :
    Decides arch np neg (compare (if neg then .OEQ else .ONE) np (.const arch.inttype 0)) := by
  refine ⟨⟨formed, wrap_zero⟩, fun ν h => ?_⟩
  cases neg with
  | false => simp [compare, Node.eval, wrap_zero, Rel.holds]
  | true => simp [compare, Node.eval, wrap_zero, Rel.holds]

theorem exp2cond_decides (formed : np.Formed arch)
    (made : exp2cond arch np neg = some c) : Decides arch np neg c := by
  unfold exp2cond at made
  by_cases aggregate : (np.type arch).op = .AGGREG
  · rw [if_pos aggregate] at made
    exact absurd made (by simp)
  rw [if_neg aggregate] at made
  cases np with
  | neg np =>
    cases made
    have isBit : (Node.neg np).Bit arch := fun ν h => ⟨_, rfl⟩
    cases neg with
    | false => exact decides_itself formed isBit
    | true => exact decides_neg formed isBit
  | logic or l r =>
    cases made
    have isBit : (Node.logic or l r).Bit arch := by
      intro ν h
      rcases formed.1.2.eval ν h with ⟨a, h', left⟩
      rcases formed.2.2.eval ν h' with ⟨b, h'', right⟩
      rw [logic_eval left right]
      split_ifs with same
      · exact ⟨_, rfl⟩
      · exact ⟨_, rfl⟩
    cases neg with
    | false => exact decides_itself formed isBit
    | true => exact decides_neg formed isBit
  | compare op l r =>
    cases made
    have isBit : (Node.compare op l r).Bit arch := fun ν h => ⟨_, rfl⟩
    cases neg with
    | false => exact decides_itself formed isBit
    | true =>
      have opposite : ∀ ν h, (Node.compare (negop op) l r).eval arch ν h =
          (Node.neg (.compare op l r)).eval arch ν h := by
        intro ν h
        change (bit ((negop op).holds _ _), _) = (bit (decide (bit _ = 0)), _)
        rw [negop_holds, bit_eq_zero]
        rfl
      exact ⟨formed, fun ν h => (opposite ν h).trans ((decides_neg formed isBit).2 ν h)⟩
  | const type value =>
    cases made
    exact decides_compare formed neg
  | other type id =>
    cases made
    exact decides_compare formed neg
  | cast np => exact formed.elim
  | comma l r =>
    cases made
    exact decides_compare formed neg

theorem turned_negop (op : Rel) (l r : Node) : turned arch (negop op) l r = turned arch op l r := by
  cases op <;> rfl

theorem exp2cond_direct (direct : np.direct arch = true)
    (made : exp2cond arch np neg = some c) : c.direct arch = true := by
  unfold exp2cond at made
  by_cases aggregate : (np.type arch).op = .AGGREG
  · rw [if_pos aggregate] at made
    exact absurd made (by simp)
  rw [if_neg aggregate] at made
  have compared : ∀ np : Node, np.direct arch = true →
      (compare (if neg then .OEQ else .ONE) np (.const arch.inttype 0)).direct arch = true := by
    intro np direct
    cases neg <;> simp [compare, Node.direct, turned, direct]
  cases np with
  | neg np =>
    cases made
    cases neg <;> exact direct
  | logic or l r =>
    cases made
    cases neg <;> exact direct
  | compare op l r =>
    cases made
    cases neg with
    | false => exact direct
    | true =>
      rw [if_pos rfl, Node.direct, turned_negop]
      exact direct
  | const type value =>
    cases made
    exact compared _ direct
  | other type id =>
    cases made
    exact compared _ direct
  | cast np =>
    cases made
    exact compared _ direct
  | comma l r =>
    cases made
    exact compared _ direct

theorem Decides.bit (decides : Decides arch np neg c) : c.Bit arch := by
  intro ν h
  rw [decides.2]
  exact ⟨_, rfl⟩

theorem expr_keeps {type : Ty} {e : Expr arch type} (made : expr e = some np) :
    np.Formed arch ∧ ∀ ν h, np.eval arch ν h = e.eval ν h := by
  induction e generalizing np with
  | constant type value fits =>
    cases made
    refine ⟨fits.2, fun ν h => ?_⟩
    rw [Node.eval, Expr.eval, fits.2]
  | other type id =>
    cases made
    exact ⟨trivial, fun ν h => rfl⟩
  | not operand ih =>
    rw [expr, Option.bind_eq_some_iff] at made
    rcases made with ⟨inner, here, negated⟩
    have value := ih here
    have decides := exp2cond_decides value.1 negated
    refine ⟨decides.1, fun ν h => ?_⟩
    rw [decides.2, value.2, Expr.eval]
    simp
  | logic or left right ihL ihR =>
    rw [expr, Option.bind_eq_some_iff] at made
    rcases made with ⟨lp, leftHere, made⟩
    rw [Option.bind_eq_some_iff] at made
    rcases made with ⟨rp, rightHere, made⟩
    rw [logic, Option.bind_eq_some_iff] at made
    rcases made with ⟨l, leftMade, made⟩
    rw [Option.map_eq_some_iff] at made
    rcases made with ⟨r, rightMade, made⟩
    cases made
    have leftValue := ihL leftHere
    have rightValue := ihR rightHere
    have leftDecides := exp2cond_decides leftValue.1 leftMade
    have rightDecides := exp2cond_decides rightValue.1 rightMade
    refine ⟨⟨⟨leftDecides.1, leftDecides.bit⟩, rightDecides.1, rightDecides.bit⟩, fun ν h => ?_⟩
    rw [logic_eval (leftDecides.2 ν h) (rightDecides.2 ν _), Expr.eval]
    simp only [leftValue.2, rightValue.2, Bool.xor_false]
  | compare op left right ihL ihR =>
    rw [expr, Option.bind_eq_some_iff] at made
    rcases made with ⟨lp, leftHere, made⟩
    rw [Option.map_eq_some_iff] at made
    rcases made with ⟨rp, rightHere, made⟩
    cases made
    have leftValue := ihL leftHere
    have rightValue := ihR rightHere
    refine ⟨⟨leftValue.1, rightValue.1⟩, fun ν h => ?_⟩
    simp only [Lowering.compare, Node.eval, Expr.eval, leftValue.2, rightValue.2]

/-- No ordering in the tree of the expression is turned round. -/
def Expr.direct {type : Ty} (e : Expr arch type) : Bool :=
  match expr e with
  | some np => np.direct arch
  | none => true

theorem condexpr_eval {type : Ty} {e : Expr arch type}
    (direct : e.direct = true) (made : condexpr e neg = some c) : c.Formed arch ∧ ∀ ν h, c.eval arch ν h =
      (bit (decide ((e.eval ν h).1 ≠ 0) ^^ neg), (e.eval ν h).2) := by
  rw [condexpr, Option.bind_eq_some_iff] at made
  rcases made with ⟨np, built, made⟩
  rw [Option.map_eq_some_iff] at made
  rcases made with ⟨cond, condMade, made⟩
  have value := expr_keeps built
  rw [Expr.direct, built] at direct
  have decides := exp2cond_decides value.1 condMade
  have keeps := simplify_keeps decides.1 (exp2cond_direct direct condMade)
  subst made
  refine ⟨keeps.1, fun ν h => ?_⟩
  rw [keeps.2, decides.2, value.2]

end Simplify

end Scc.Cc1.Lowering
