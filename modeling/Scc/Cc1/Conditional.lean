import Mathlib.Tactic.Common

/-!
# Conditional inclusion

`cpp()` looks at each logical line before the lexer does. Its state is the
stack `ifstate` of open conditional sections and the counter `cppoff`; a line
without `#` reaches the lexer when the counter is zero. The definitions follow
`ifclause`, `elseclause`, `cppelse`, `elif`, `endif` and the dispatch in
`cpp()`; `select` is what C asks of the same lines, read off their nesting.
-/

namespace Scc.Cc1.Conditional

set_option autoImplicit false

/-- Nesting levels of conditional inclusion. -/
def NR_COND : Nat := 63

/-- What the conditional directives ask of the rest of the preprocessor: the
value `constexpr()` folds a controlling expression to, the `SDECLARED` flag of
a macro name, and what `#define`, `#undef`, `#include`, `#line`, `#pragma` and
`#error` do to the macros. `none` is a diagnosed line. -/
structure Meaning (Env Expr Name Dir : Type) where
  constexpr : Env → Expr → Option Int
  declared : Env → Name → Bool
  directive : Env → Dir → Option Env

inductive Opening (Expr Name : Type) where
  | cppif (expr : Expr)
  | ifdef (name : Name)
  | ifndef (name : Name)
deriving DecidableEq

inductive Line (Expr Name Dir Text : Type) where
  | text (text : Text)
  | other (directive : Dir)
  | opening (opening : Opening Expr Name)
  | elif (expr : Expr)
  | cppelse
  | endif
deriving DecidableEq

structure IfState where
  enabled : Bool
  iselse : Bool
deriving DecidableEq

/-- `ifstate[0 .. cppctx)` with the innermost section first, the skip counter,
and the macros. -/
structure State (Env : Type) where
  ifstate : List IfState
  cppoff : Int
  env : Env
deriving DecidableEq

variable {Env Expr Name Dir Text : Type} (M : Meaning Env Expr Name Dir)

def start (env : Env) : State Env := ⟨[], 0, env⟩

/-- The tail of `ifclause()` from its label `disabled`. -/
def pushStatus (state : State Env) (status : Bool) : State Env :=
  { state with
    ifstate := ⟨status, false⟩ :: state.ifstate
    cppoff := if status then state.cppoff else state.cppoff + 1 }

def ifclause (negate : Bool) (condition : Env → Option Bool) (state : State Env) :
    Option (State Env) :=
  if state.ifstate.length = NR_COND - 1 then none
  else if state.cppoff ≠ 0 then some (pushStatus state false)
  else (condition state.env).map fun status =>
    pushStatus state (if negate then !status else status)

def exprStatus (expr : Expr) (env : Env) : Option Bool :=
  (M.constexpr env expr).map fun value => decide (value ≠ 0)

def cppif (expr : Expr) : State Env → Option (State Env) :=
  ifclause false (exprStatus M expr)

def ifdef (name : Name) : State Env → Option (State Env) :=
  ifclause false fun env => some (M.declared env name)

def ifndef (name : Name) : State Env → Option (State Env) :=
  ifclause true fun env => some (M.declared env name)

def elseclause (state : State Env) : Option (State Env) :=
  match state.ifstate with
  | [] => none
  | top :: below =>
    some { state with
      ifstate := { top with enabled := !top.enabled } :: below
      cppoff := state.cppoff + if top.enabled then 1 else -1 }

def cppelse (state : State Env) : Option (State Env) :=
  match state.ifstate with
  | [] => none
  | top :: below =>
    if top.iselse then none
    else elseclause { state with ifstate := { top with iselse := true } :: below }

/-- `#elif` flips the section like `#else`; where that enables it, the section
is popped and opened again as an `#if`. -/
def elif (expr : Expr) (state : State Env) : Option (State Env) :=
  match state.ifstate with
  | [] => none
  | top :: below =>
    if top.iselse then none
    else (elseclause state).bind fun flipped =>
      if !top.enabled then cppif M expr { flipped with ifstate := below }
      else some flipped

def endif (state : State Env) : Option (State Env) :=
  match state.ifstate with
  | [] => none
  | top :: below =>
    some { state with
      ifstate := below
      cppoff := if top.enabled then state.cppoff else state.cppoff - 1 }

/-- One line through `cpp()`. -/
def cpp (state : State Env) : Line Expr Name Dir Text → Option (State Env)
  | .text _ => some state
  | .other directive =>
    if state.cppoff ≠ 0 then some state
    else (M.directive state.env directive).map fun env => { state with env := env }
  | .opening (.cppif expr) => cppif M expr state
  | .opening (.ifdef name) => ifdef M name state
  | .opening (.ifndef name) => ifndef M name state
  | .elif expr => elif M expr state
  | .cppelse => cppelse state
  | .endif => endif state

/-- All lines in order, with one mark for each: whether `cppoff` is zero after
it. On a line of text the mark says that the lexer receives the line, on a
directive that opens a group it says that the group is taken. -/
def cppLines (state : State Env) :
    List (Line Expr Name Dir Text) → Option (List Bool × State Env)
  | [] => some ([], state)
  | line :: rest =>
    (cpp M state line).bind fun next =>
      (cppLines next rest).map fun result =>
        (decide (next.cppoff = 0) :: result.1, result.2)

mutual

/-- Lines with complete conditional sections. -/
inductive Lines (Expr Name Dir Text : Type) where
  | nil
  | text (text : Text) (rest : Lines Expr Name Dir Text)
  | other (directive : Dir) (rest : Lines Expr Name Dir Text)
  | conditional (opening : Opening Expr Name) (body : Lines Expr Name Dir Text)
      (groups : Groups Expr Name Dir Text) (rest : Lines Expr Name Dir Text)

/-- The groups of a section after its first one, up to `#endif`. -/
inductive Groups (Expr Name Dir Text : Type) where
  | endif
  | elif (expr : Expr) (body : Lines Expr Name Dir Text)
      (groups : Groups Expr Name Dir Text)
  | cppelse (body : Lines Expr Name Dir Text)

end

mutual

def Lines.flatten : Lines Expr Name Dir Text → List (Line Expr Name Dir Text)
  | .nil => []
  | .text text rest => .text text :: rest.flatten
  | .other directive rest => .other directive :: rest.flatten
  | .conditional opening body groups rest =>
    .opening opening :: (body.flatten ++ (groups.flatten ++ rest.flatten))

def Groups.flatten : Groups Expr Name Dir Text → List (Line Expr Name Dir Text)
  | .endif => [.endif]
  | .elif expr body groups => .elif expr :: (body.flatten ++ groups.flatten)
  | .cppelse body => .cppelse :: (body.flatten ++ [.endif])

end

mutual

def Lines.depth : Lines Expr Name Dir Text → Nat
  | .nil => 0
  | .text _ rest => rest.depth
  | .other _ rest => rest.depth
  | .conditional _ body groups rest => max (1 + max body.depth groups.depth) rest.depth

def Groups.depth : Groups Expr Name Dir Text → Nat
  | .endif => 0
  | .elif _ body groups => max body.depth groups.depth
  | .cppelse body => body.depth

end

def Opening.status (env : Env) : Opening Expr Name → Option Bool
  | .cppif expr => exprStatus M expr env
  | .ifdef name => some (M.declared env name)
  | .ifndef name => some !(M.declared env name)

mutual

/-- The marks C prescribes. `live` says that every enclosing group is taken. A
condition is evaluated only in a live section none of whose earlier groups was
taken, and `none` says that such a condition or directive is ill formed. -/
def Lines.select (live : Bool) (env : Env) :
    Lines Expr Name Dir Text → Option (List Bool × Env)
  | .nil => some ([], env)
  | .text _ rest =>
    (rest.select live env).map fun result => (live :: result.1, result.2)
  | .other directive rest =>
    (if live then M.directive env directive else some env).bind fun next =>
      (rest.select live next).map fun result => (live :: result.1, result.2)
  | .conditional opening body groups rest =>
    (if live then opening.status M env else some false).bind fun taken =>
      (body.select taken env).bind fun first =>
        (groups.select live taken first.2).bind fun later =>
          (rest.select live later.2).map fun result =>
            (taken :: (first.1 ++ (later.1 ++ result.1)), result.2)

/-- `done` says that an earlier group of the section was taken. -/
def Groups.select (live done : Bool) (env : Env) :
    Groups Expr Name Dir Text → Option (List Bool × Env)
  | .endif => some ([live], env)
  | .elif expr body groups =>
    (if live && !done then exprStatus M expr env else some false).bind fun taken =>
      (body.select taken env).bind fun group =>
        (groups.select live (done || taken) group.2).map fun result =>
          (taken :: (group.1 ++ result.1), result.2)
  | .cppelse body =>
    (body.select (live && !done) env).map fun group =>
      ((live && !done) :: (group.1 ++ [live]), group.2)

end

mutual

theorem Lines.select_dead (lines : Lines Expr Name Dir Text) (env : Env) :
    lines.select M false env = some (List.replicate lines.flatten.length false, env) := by
  cases lines with
  | nil => rfl
  | text text rest =>
    simp [Lines.select, Lines.flatten, rest.select_dead env, List.replicate_succ]
  | other directive rest =>
    simp [Lines.select, Lines.flatten, rest.select_dead env, List.replicate_succ]
  | conditional opening body groups rest =>
    simp [Lines.select, Lines.flatten, body.select_dead env, groups.select_dead false env,
      rest.select_dead env, List.replicate_succ]

theorem Groups.select_dead (groups : Groups Expr Name Dir Text) (done : Bool) (env : Env) :
    groups.select M false done env = some (List.replicate groups.flatten.length false, env) := by
  cases groups with
  | endif => rfl
  | elif expr body groups =>
    simp [Groups.select, Groups.flatten, body.select_dead env,
      groups.select_dead done env, List.replicate_succ]
  | cppelse body =>
    simp [Groups.select, Groups.flatten, body.select_dead env, List.replicate_succ, ← List.replicate_succ']

end

theorem Groups.select_done (groups : Groups Expr Name Dir Text) (live : Bool) (env : Env) :
    groups.select M live true env =
      some (List.replicate (groups.flatten.length - 1) false ++ [live], env) := by
  cases groups with
  | endif => rfl
  | elif expr body groups =>
    have later := groups.select_done live env
    have nonempty : 0 < groups.flatten.length := by
      cases groups <;> simp [Groups.flatten]
    obtain ⟨count, length⟩ : ∃ count, groups.flatten.length = count + 1 :=
      ⟨groups.flatten.length - 1, by omega⟩
    simp [Groups.select, Groups.flatten, body.select_dead M env, later, length,
      ← List.append_assoc, ← Nat.add_assoc, List.replicate_succ]
  | cppelse body =>
    simp [Groups.select, Groups.flatten, body.select_dead M env, List.replicate_succ]

end Scc.Cc1.Conditional
