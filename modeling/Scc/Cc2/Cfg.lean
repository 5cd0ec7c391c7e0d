import Scc.Lib.Run
import Scc.Cc2.Op

/-!
# Jumps and labels

The statements of a function while the parser and `sethi()` build the list and while
`optjmps()` rewrites it. A label has a count of its references and points at the
statement that bears it. The nodes of a `switch` refer to labels from outside the
list until `swtch_if()` puts them into it.
-/

namespace Scc.Cc2.Cfg

open Scc.Lib.Run

set_option autoImplicit false

/-- A statement at its address; `sym` is `u.sym` and `left` the operator of the
condition. -/
structure Stmt where
  addr : Nat
  label : Option Sym
  op : Op
  sym : Sym
  left : Op
deriving DecidableEq

def Stmt.target (np : Stmt) : Option Sym :=
  if np.op = .OJMP ∨ np.op = .OBRANCH then some np.sym else none

/-- Where `optjmps_helper()` is. -/
inductive Point where
  | enter
  | branch
  | chain_jumps
deriving DecidableEq

/-- The list as it is built, or rewritten: then `done` is the part that `apply()` has
passed, from its end, and `rest` begins with the current statement. -/
structure State where
  done : List Stmt
  rest : List Stmt
  /-- The labels of the nodes that a `switch` keeps. -/
  swtch : List Sym
  refcnt : Sym → Int
  /-- `u.stmt` of a label. -/
  stmt : Sym → Option Nat
  rewriting : Bool
  point : Point
  modjmp : Bool

def State.stmts (state : State) : List Stmt := state.done.reverse ++ state.rest

def start : State where
  done := []
  rest := []
  swtch := []
  refcnt := fun _ => 0
  stmt := fun _ => none
  rewriting := false
  point := .enter
  modjmp := false

def add (count : Sym → Int) (sym : Sym) (n : Int) (other : Sym) : Int :=
  if sym = other then count other + n else count other

inductive Event where
  /-- A statement without references is added by the parser or put before the
  current one by `prestmt()`. -/
  | insert (index : Nat) (addr : Nat) (op : Op)
  /-- `jump()` of the parser and `branchnode()`. -/
  | jump (index : Nat) (addr : Nat) (op : Op) (sym : Sym) (left : Op)
  /-- `labelstmt()` -/
  | labelstmt (index : Nat) (sym : Sym)
  /-- `jump()` for a node that the `switch` keeps. -/
  | keep (sym : Sym)
  /-- `swtch_if()` puts a kept node into the list. -/
  | place (kept : Nat) (index : Nat) (addr : Nat) (op : Op) (left : Op)
  /-- `sethi()` has put other branches in the place of a branch. -/
  | branched (index : Nat)
  | optjmps
  | rewrite

/-- A new statement has an address of its own. -/
def insertStmt (index : Nat) (np : Stmt) (state : State) : Option State :=
  if np.addr ∈ state.rest.map Stmt.addr ∨ state.rest.length < index then none
  else some { state with rest := state.rest.insertIdx index np }

def isJump (op : Op) : Bool := op = .OJMP || op = .OBRANCH

def build (state : State) : Event → Option State
  | .insert index addr op =>
    if isJump op then none else insertStmt index ⟨addr, none, op, 0, .ONOP⟩ state
  | .jump index addr op sym left =>
    if isJump op then
      insertStmt index ⟨addr, none, op, sym, left⟩ { state with refcnt := add state.refcnt sym 1 }
    else none
  | .labelstmt index sym =>
    match state.rest[index]? with
    | none => none
    | some np =>
      some { state with
        rest := state.rest.set index { np with label := some sym }
        stmt := fun other => if other = sym then some np.addr else state.stmt other }
  | .keep sym =>
    some { state with swtch := sym :: state.swtch, refcnt := add state.refcnt sym 1 }
  | .place kept index addr op left =>
    match state.swtch[kept]? with
    | none => none
    | some sym =>
      if isJump op then
        insertStmt index ⟨addr, none, op, sym, left⟩
          { state with swtch := state.swtch.eraseIdx kept }
      else none
  | .branched index =>
    match state.rest[index]? with
    | none => none
    | some np =>
      if np.op = .OBRANCH then
        some { state with
          rest := state.rest.eraseIdx index
          refcnt := add state.refcnt np.sym (-1) }
      else none
  | .optjmps => some { state with rewriting := true }
  | .rewrite => none

/-- `skipnop()` from a statement on; the end of the list is no `ONOP`. -/
def skipnop (target : Option Nat) : List Stmt → Option Stmt
  | [] => none
  | np :: rest => if np.op = .ONOP ∧ some np.addr ≠ target then skipnop target rest else some np

/-- The list from the statement at an address on. -/
def listAt (addr : Option Nat) (stmts : List Stmt) : List Stmt :=
  stmts.dropWhile fun np => some np.addr ≠ addr

def advance (np : Stmt) (rest : List Stmt) (state : State) : State :=
  { state with done := np :: state.done, rest, point := .enter }

def delstmt (rest : List Stmt) (state : State) : State :=
  { state with rest, point := .enter, modjmp := true }

/-- The list ends before the statements that a branch looks at. -/
def short : List Stmt → Bool
  | [] => true
  | [next] => next.op = .OJMP
  | _ => false

/-- A branch over a jump: the jump and the statements behind it. -/
def overJump (np : Stmt) (rest : List Stmt) (refcnt : Sym → Int) : Option (Stmt × List Stmt) :=
  match rest with
  | next :: after =>
    if next.op = .OJMP ∧ after.head?.bind Stmt.label = some np.sym ∧
        (∀ label ∈ next.label, refcnt label = 0) then some (next, after)
    else none
  | [] => none

/-- One step of `optjmps()`: `none` at its end, when it aborts and when it follows a
pointer to a deleted statement. -/
def rewrite (state : State) : Option State :=
  match state.rest with
  | [] =>
    if state.modjmp then
      some { state with done := [], rest := state.done.reverse, modjmp := false }
    else none
  | np :: rest =>
    match state.point with
    | .enter =>
      match np.op with
      | .ONOP =>
        match np.label with
        | none => none
        | some label =>
          if state.refcnt label = 0 then some (delstmt rest state)
          else some (advance np rest state)
      | .OBRANCH => some { state with point := .branch }
      | .OJMP =>
        match skipnop (state.stmt np.sym) rest with
        | none => none
        | some p =>
          if some p.addr = state.stmt np.sym then
            some (delstmt rest { state with refcnt := add state.refcnt np.sym (-1) })
          else some { state with point := .chain_jumps }
      | _ => some (advance np rest state)
    | .branch =>
      if short rest then none
      else
        match overJump np rest state.refcnt with
        | some (next, after) =>
          (negop np.left).map fun left =>
            { state with
              rest := { np with sym := next.sym, left } :: after
              refcnt := add state.refcnt np.sym (-1)
              modjmp := true }
        | none => some { state with point := .chain_jumps }
    | .chain_jumps =>
      match skipnop none (listAt (state.stmt np.sym) state.stmts) with
      | none => none
      | some p =>
        if p.addr ≠ np.addr ∧ p.op = .OJMP then
          some { state with
            rest := { np with sym := p.sym } :: rest
            refcnt := add state.refcnt np.sym (-1)
            modjmp := true }
        else some (advance np rest state)

def step (state : State) (event : Event) : Option State :=
  if state.rewriting then
    match event with
    | .rewrite => rewrite state
    | _ => none
  else build state event

end Scc.Cc2.Cfg
