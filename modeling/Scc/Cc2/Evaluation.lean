import Mathlib.Logic.Relation
import Scc.Cc2.Node

/-!
# What a tree does

The meaning of the operators but those that say in which order, and whether, their
operands are evaluated. The operands of any other operator are evaluated in any order,
one step of either at a time; the state of the program is whatever the operators make
of it, so what they do and in which order can be seen from it.
-/

namespace Scc.Cc2

open Relation

set_option autoImplicit false

universe u v

/-- A value and an effect for every node, given the values of its operands. -/
structure Interp (V : Type u) (S : Type v) where
  apply : Op → Ty → U → Option V → Option V → S → V × S
  const : Ty → Bool → V
  truthy : V → Bool
  truthy_const : ∀ type b, truthy (const type b) = b

inductive Run (V : Type u) where
  | nil
  | val (v : V)
  | node (op : Op) (type : Ty) (u : U) (left right : Run V)
  /-- The right operand of `&&` or `||` decides. -/
  | test (type : Ty) (right : Run V)

variable {V : Type u} {S : Type v}

/-- The operators that order the evaluation of their operands. -/
def control (op : Op) : Bool :=
  op = .ONEG || op = .OAND || op = .OOR || op = .OCOMMA || op = .OASK

/-- The operators that leave it open; `~` is `^` with all bits set. -/
def plain (op : Op) : Bool := !control op && op != .OCPL

def Run.operand : Run V → Option (Option V)
  | .nil => some none
  | .val v => some (some v)
  | _ => none

def tmpOf : U → Sym
  | .sym sym => sym
  | _ => 0

/-- A tree with the values of its temporaries. -/
def load (tmps : Sym → V) : Node → Run V
  | .nil => .nil
  | .node op type u left right =>
    if op = .OTMP then .val (tmps (tmpOf u)) else .node op type u (load tmps left) (load tmps right)

section Steps

variable (I : Interp V S)

inductive Step : Run V × S → Run V × S → Prop where
  | left {op : Op} {type : Ty} {u : U} {l l' r : Run V} {s s' : S} (step : Step (l, s) (l', s')) :
      Step (.node op type u l r, s) (.node op type u l' r, s')
  | right {op : Op} {type : Ty} {u : U} {l r r' : Run V} {s s' : S} (isPlain : plain op = true)
      (step : Step (r, s) (r', s')) : Step (.node op type u l r, s) (.node op type u l r', s')
  | apply {op : Op} {type : Ty} {u : U} {l r : Run V} {lv rv : Option V} {s : S}
      (isPlain : plain op = true) (left : l.operand = some lv) (right : r.operand = some rv) :
      Step (.node op type u l r, s)
        (.val (I.apply op type u lv rv s).1, (I.apply op type u lv rv s).2)
  | complement {type : Ty} {u : U} {l r : Run V} {s : S} :
      Step (.node .OCPL type u l r, s)
        (.node .OBXOR type u l (.node .OCONST type (.i (BitVec.allOnes 64)) .nil .nil), s)
  | neg {type : Ty} {u : U} {v : V} {r : Run V} {s : S} :
      Step (.node .ONEG type u (.val v) r, s) (.val (I.const type (!I.truthy v)), s)
  | and {type : Ty} {u : U} {v : V} {r : Run V} {s : S} :
      Step (.node .OAND type u (.val v) r, s)
        (if I.truthy v then .test type r else .val (I.const type false), s)
  | or {type : Ty} {u : U} {v : V} {r : Run V} {s : S} :
      Step (.node .OOR type u (.val v) r, s)
        (if I.truthy v then .val (I.const type true) else .test type r, s)
  | testing {type : Ty} {r r' : Run V} {s s' : S} (step : Step (r, s) (r', s')) :
      Step (.test type r, s) (.test type r', s')
  | tested {type : Ty} {v : V} {s : S} : Step (.test type (.val v), s) (.val (I.const type (I.truthy v)), s)
  | comma {type : Ty} {u : U} {v : V} {r : Run V} {s : S} :
      Step (.node .OCOMMA type u (.val v) r, s) (r, s)
  | ask {type type' : Ty} {u u' : U} {op : Op} {v : V} {yes no : Run V} {s : S} :
      Step (.node .OASK type u (.val v) (.node op type' u' yes no), s)
        (if I.truthy v then yes else no, s)

abbrev Steps : Run V × S → Run V × S → Prop := ReflTransGen (Step I)

def Evals (t : Run V) (s : S) (v : V) (s' : S) : Prop := Steps I (t, s) (.val v, s')

variable {I}

theorem Steps.inside (around : Run V → Run V)
    (congruence : ∀ {t t' : Run V} {s s' : S}, Step I (t, s) (t', s') → Step I (around t, s) (around t', s'))
    {t t' : Run V} {s s' : S} (steps : Steps I (t, s) (t', s')) : Steps I (around t, s) (around t', s') :=
  ReflTransGen.lift (fun p : Run V × S => (around p.1, p.2)) (fun _ _ step => congruence step) _ _ steps

theorem Steps.left (op : Op) (type : Ty) (u : U) {l l' : Run V} (r : Run V) {s s' : S}
    (steps : Steps I (l, s) (l', s')) : Steps I (.node op type u l r, s) (.node op type u l' r, s') :=
  Steps.inside (fun t => .node op type u t r) Step.left steps

theorem Steps.right {op : Op} (isPlain : plain op = true) (type : Ty) (u : U) (l : Run V)
    {r r' : Run V} {s s' : S} (steps : Steps I (r, s) (r', s')) :
    Steps I (.node op type u l r, s) (.node op type u l r', s') :=
  Steps.inside (fun t => .node op type u l t) (Step.right isPlain) steps

theorem Steps.test (type : Ty) {r r' : Run V} {s s' : S} (steps : Steps I (r, s) (r', s')) :
    Steps I (.test type r, s) (.test type r', s') :=
  Steps.inside (fun t => .test type t) Step.testing steps

section Ordered

variable {type : Ty} {u : U} {l r : Run V} {v w : V} {s s' s'' : S}

theorem evals_neg (evals : Evals I l s v s') :
    Evals I (.node .ONEG type u l r) s (I.const type (!I.truthy v)) s' :=
  (Steps.left .ONEG type u r evals).tail Step.neg

theorem evals_and_false (evals : Evals I l s v s') (falsy : I.truthy v = false) :
    Evals I (.node .OAND type u l r) s (I.const type false) s' := by
  have step : Step I (.node .OAND type u (.val v) r, s')
      (if I.truthy v then .test type r else .val (I.const type false), s') := Step.and
  rw [falsy] at step
  exact (Steps.left .OAND type u r evals).tail step

theorem evals_and_true (evals : Evals I l s v s') (truthy : I.truthy v = true) (next : Evals I r s' w s'') :
    Evals I (.node .OAND type u l r) s (I.const type (I.truthy w)) s'' := by
  have step : Step I (.node .OAND type u (.val v) r, s')
      (if I.truthy v then .test type r else .val (I.const type false), s') := Step.and
  rw [truthy] at step
  exact (((Steps.left .OAND type u r evals).tail step).trans (next.test type)).tail Step.tested

theorem evals_or_true (evals : Evals I l s v s') (truthy : I.truthy v = true) :
    Evals I (.node .OOR type u l r) s (I.const type true) s' := by
  have step : Step I (.node .OOR type u (.val v) r, s')
      (if I.truthy v then .val (I.const type true) else .test type r, s') := Step.or
  rw [truthy] at step
  exact (Steps.left .OOR type u r evals).tail step

theorem evals_or_false (evals : Evals I l s v s') (falsy : I.truthy v = false) (next : Evals I r s' w s'') :
    Evals I (.node .OOR type u l r) s (I.const type (I.truthy w)) s'' := by
  have step : Step I (.node .OOR type u (.val v) r, s')
      (if I.truthy v then .val (I.const type true) else .test type r, s') := Step.or
  rw [falsy] at step
  exact (((Steps.left .OOR type u r evals).tail step).trans (next.test type)).tail Step.tested

theorem steps_comma (evals : Evals I l s v s') : Steps I (.node .OCOMMA type u l r, s) (r, s') :=
  (Steps.left .OCOMMA type u r evals).tail Step.comma

theorem steps_ask {op' : Op} {type' : Ty} {u' : U} {yes no : Run V} (evals : Evals I l s v s') :
    Steps I (.node .OASK type u l (.node op' type' u' yes no), s) (if I.truthy v then yes else no, s') :=
  (Steps.left .OASK type u (.node op' type' u' yes no) evals).tail Step.ask

end Ordered

end Steps

theorem load_node {op : Op} (notTmp : op ≠ .OTMP) (tmps : Sym → V) (type : Ty) (u : U) (left right : Node) :
    load tmps (.node op type u left right) = .node op type u (load tmps left) (load tmps right) := by
  rw [load, if_neg notTmp]

/-- A tree whose operators leave the order open. -/
def Node.lowered : Node → Bool
  | .nil => true
  | .node op _ _ left right => plain op && left.lowered && right.lowered

theorem lowered_evals (I : Interp V S) (tmps : Sym → V) {np : Node} (lowered : np.lowered = true) (s : S) :
    ∃ t s' operand, Steps I (load tmps np, s) (t, s') ∧ t.operand = some operand ∧
      (np ≠ .nil → ∃ v, t = .val v) := by
  induction np generalizing s with
  | nil => exact ⟨.nil, s, none, ReflTransGen.refl, rfl, fun notNil => absurd rfl notNil⟩
  | node op type u left right ihLeft ihRight =>
    simp only [Node.lowered, Bool.and_eq_true] at lowered
    rw [load]
    by_cases isTmp : op = .OTMP
    · rw [if_pos isTmp]
      exact ⟨.val (tmps (tmpOf u)), s, some (tmps (tmpOf u)), ReflTransGen.refl, rfl,
        fun _ => ⟨tmps (tmpOf u), rfl⟩⟩
    · rw [if_neg isTmp]
      rcases ihLeft lowered.1.2 s with ⟨l, s1, lv, stepsLeft, leftDone, _⟩
      rcases ihRight lowered.2 s1 with ⟨r, s2, rv, stepsRight, rightDone, _⟩
      have isPlain := lowered.1.1
      have applied : Steps I (.node op type u (load tmps left) (load tmps right), s)
          (.val (I.apply op type u lv rv s2).1, (I.apply op type u lv rv s2).2) :=
        ((stepsLeft.left op type u (load tmps right)).trans
          (stepsRight.right isPlain type u l)).tail (Step.apply isPlain leftDone rightDone)
      exact ⟨.val (I.apply op type u lv rv s2).1, (I.apply op type u lv rv s2).2,
        some (I.apply op type u lv rv s2).1, applied, rfl,
        fun _ => ⟨(I.apply op type u lv rv s2).1, rfl⟩⟩

end Scc.Cc2
