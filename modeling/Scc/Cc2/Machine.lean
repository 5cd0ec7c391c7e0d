import Scc.Lib.Reaching
import Scc.Cc2.Evaluation

/-!
# What a list of statements does

Control is at a suffix of the statements of the function. A jump goes to the statement
that bears the label; there is none when nothing does. What is said of a piece of the
list is that something must be reached from its beginning.
-/

namespace Scc.Cc2

open Relation Scc.Lib.Reaching

set_option autoImplicit false

universe u v

variable {V : Type u} {S : Type v}

structure Config (V : Type u) (S : Type v) where
  rest : List Stmt
  tmps : Sym → V
  state : S
  /-- The value of the last expression statement. -/
  last : Option V

/-- The statement that bears a label, and what follows it. -/
def target : List Stmt → Sym → Option (List Stmt)
  | [], _ => none
  | stmt :: rest, sym => if stmt.label = some sym then some (stmt :: rest) else target rest sym

def write (tmps : Sym → V) (tmp : Sym) (v : V) (other : Sym) : V :=
  if other = tmp then v else tmps other

inductive Exec (I : Interp V S) (program : List Stmt) : Config V S → Config V S → Prop where
  | nop {label : Option Sym} {rest : List Stmt} {tmps : Sym → V} {s : S} {last : Option V} :
      Exec I program ⟨⟨label, .ONOP⟩ :: rest, tmps, s, last⟩ ⟨rest, tmps, s, last⟩
  | jmp {label : Option Sym} {sym : Sym} {rest into : List Stmt} {tmps : Sym → V} {s : S}
      {last : Option V} (there : target program sym = some into) :
      Exec I program ⟨⟨label, .OJMP sym⟩ :: rest, tmps, s, last⟩ ⟨into, tmps, s, last⟩
  | taken {label : Option Sym} {cond : Node} {sym : Sym} {rest into : List Stmt} {tmps : Sym → V}
      {s s' : S} {last : Option V} {v : V} (evals : Evals I (load tmps cond) s v s')
      (truthy : I.truthy v = true) (there : target program sym = some into) :
      Exec I program ⟨⟨label, .OBRANCH cond sym⟩ :: rest, tmps, s, last⟩ ⟨into, tmps, s', last⟩
  | passed {label : Option Sym} {cond : Node} {sym : Sym} {rest : List Stmt} {tmps : Sym → V}
      {s s' : S} {last : Option V} {v : V} (evals : Evals I (load tmps cond) s v s')
      (falsy : I.truthy v = false) :
      Exec I program ⟨⟨label, .OBRANCH cond sym⟩ :: rest, tmps, s, last⟩ ⟨rest, tmps, s', last⟩
  | set {label : Option Sym} {tmp : Sym} {type : Ty} {one : Bool} {rest : List Stmt}
      {tmps : Sym → V} {s : S} {last : Option V} :
      Exec I program ⟨⟨label, .set tmp type one⟩ :: rest, tmps, s, last⟩
        ⟨rest, write tmps tmp (I.const type one), s, last⟩
  | assign {label : Option Sym} {tmp : Sym} {rhs : Node} {rest : List Stmt} {tmps : Sym → V}
      {s s' : S} {last : Option V} {v : V} (evals : Evals I (load tmps rhs) s v s') :
      Exec I program ⟨⟨label, .assign tmp rhs⟩ :: rest, tmps, s, last⟩
        ⟨rest, write tmps tmp v, s', last⟩
  | expr {label : Option Sym} {np : Node} {rest : List Stmt} {tmps : Sym → V}
      {s s' : S} {last : Option V} {v : V} (evals : Evals I (load tmps np) s v s') :
      Exec I program ⟨⟨label, .expr np⟩ :: rest, tmps, s, last⟩ ⟨rest, tmps, s', some v⟩

def labels (stmts : List Stmt) : List Sym := stmts.filterMap Stmt.label

theorem labels_append (front back : List Stmt) : labels (front ++ back) = labels front ++ labels back :=
  List.filterMap_append

theorem mem_labels_append {front back : List Stmt} {sym : Sym} :
    sym ∈ labels (front ++ back) ↔ sym ∈ labels front ∨ sym ∈ labels back := by
  rw [labels_append, List.mem_append]

theorem mem_labels_cons {label : Option Sym} {body : Body} {rest : List Stmt} {sym : Sym} :
    sym ∈ labels (⟨label, body⟩ :: rest) ↔ label = some sym ∨ sym ∈ labels rest := by
  cases label with
  | none => simp [labels]
  | some here => simp [labels, eq_comm]

theorem target_behind {front : List Stmt} {sym : Sym} (absent : sym ∉ labels front)
    (back : List Stmt) : target (front ++ back) sym = target back sym := by
  induction front with
  | nil => rfl
  | cons stmt rest ih =>
    rcases stmt with ⟨label, body⟩
    rw [mem_labels_cons, not_or] at absent
    rw [List.cons_append, target, if_neg absent.1]
    exact ih absent.2

theorem target_cons {stmt : Stmt} {sym : Sym} (differ : stmt.label ≠ some sym) (rest : List Stmt) :
    target (stmt :: rest) sym = target rest sym := by
  rw [target, if_neg differ]

theorem target_here (sym : Sym) (body : Body) (rest : List Stmt) :
    target (⟨some sym, body⟩ :: rest) sym = some (⟨some sym, body⟩ :: rest) := by
  rw [target, if_pos rfl]

section Statements

variable {I : Interp V S} {program : List Stmt} {goal : Config V S → Prop} {label : Option Sym}
  {rest into : List Stmt} {tmps : Sym → V} {s : S} {last : Option V}

/-- What every run of the program must come to. -/
abbrev Reaches (I : Interp V S) (program : List Stmt) (goal : Config V S → Prop) :
    Config V S → Prop := Must (Exec I program) goal

theorem reaches_nop (next : Reaches I program goal ⟨rest, tmps, s, last⟩) :
    Reaches I program goal ⟨⟨label, .ONOP⟩ :: rest, tmps, s, last⟩ := by
  apply Must.forced Exec.nop ?_ next
  intro c step
  cases step with
  | nop => rfl

theorem reaches_jmp {sym : Sym} (there : target program sym = some into)
    (next : Reaches I program goal ⟨into, tmps, s, last⟩) :
    Reaches I program goal ⟨⟨label, .OJMP sym⟩ :: rest, tmps, s, last⟩ := by
  apply Must.forced (Exec.jmp there) ?_ next
  intro c step
  cases step with
  | jmp there' =>
    rw [there] at there'
    rw [Option.some.inj there']

theorem reaches_set {tmp : Sym} {type : Ty} {one : Bool}
    (next : Reaches I program goal ⟨rest, write tmps tmp (I.const type one), s, last⟩) :
    Reaches I program goal ⟨⟨label, .set tmp type one⟩ :: rest, tmps, s, last⟩ := by
  apply Must.forced Exec.set ?_ next
  intro c step
  cases step with
  | set => rfl

theorem lowered_value {np : Node} (lowered : np.lowered = true) (notNil : np ≠ .nil) (tmps : Sym → V)
    (s : S) : ∃ v s', Evals I (load tmps np) s v s' := by
  rcases lowered_evals I tmps lowered s with ⟨t, s', operand, steps, _, isVal⟩
  rcases isVal notNil with ⟨v, valEq⟩
  rw [valEq] at steps
  exact ⟨v, s', steps⟩

theorem reaches_assign {tmp : Sym} {rhs : Node} (lowered : rhs.lowered = true) (notNil : rhs ≠ .nil)
    (next : ∀ v s', Evals I (load tmps rhs) s v s' →
      Reaches I program goal ⟨rest, write tmps tmp v, s', last⟩) :
    Reaches I program goal ⟨⟨label, .assign tmp rhs⟩ :: rest, tmps, s, last⟩ := by
  rcases lowered_value (I := I) lowered notNil tmps s with ⟨v, s', evals⟩
  apply Must.moves ⟨_, Exec.assign evals⟩
  intro c step
  cases step with
  | assign evals' => exact next _ _ evals'

theorem reaches_expr {np : Node} (lowered : np.lowered = true) (notNil : np ≠ .nil)
    (next : ∀ v s', Evals I (load tmps np) s v s' → Reaches I program goal ⟨rest, tmps, s', some v⟩) :
    Reaches I program goal ⟨⟨label, .expr np⟩ :: rest, tmps, s, last⟩ := by
  rcases lowered_value (I := I) lowered notNil tmps s with ⟨v, s', evals⟩
  apply Must.moves ⟨_, Exec.expr evals⟩
  intro c step
  cases step with
  | expr evals' => exact next _ _ evals'

theorem reaches_branch {cond : Node} {sym : Sym} (lowered : cond.lowered = true)
    (notNil : cond ≠ .nil) (there : target program sym = some into)
    (next : ∀ v s', Evals I (load tmps cond) s v s' →
      Reaches I program goal ⟨if I.truthy v then into else rest, tmps, s', last⟩) :
    Reaches I program goal ⟨⟨label, .OBRANCH cond sym⟩ :: rest, tmps, s, last⟩ := by
  rcases lowered_value (I := I) lowered notNil tmps s with ⟨v, s', evals⟩
  have can : ∃ c, Exec I program ⟨⟨label, .OBRANCH cond sym⟩ :: rest, tmps, s, last⟩ c := by
    cases truthy : I.truthy v with
    | true => exact ⟨_, Exec.taken evals truthy there⟩
    | false => exact ⟨_, Exec.passed evals truthy⟩
  apply Must.moves can
  intro c step
  cases step with
  | taken evals' truthy there' =>
    have reached := next _ _ evals'
    rw [there] at there'
    rw [if_pos truthy, Option.some.inj there'] at reached
    exact reached
  | passed evals' falsy =>
    have reached := next _ _ evals'
    rw [if_neg (by rw [falsy]; exact Bool.false_ne_true)] at reached
    exact reached

end Statements

end Scc.Cc2
