import Scc.Lib.Run

/-!
# The symbol table

A symbol is known by the number of its creation. `newsym()` threads it on the
list `head` (or `labels`), newest first; `install()` links it into the hash chain
of its name, also newest first, and sets `SDECLARED`. `popctx()` walks `head` as
long as the symbols belong to the current context and unlinks each one, relying
on it to be at the head of its chain.

Symbols that are freed keep their record, and an undeclared symbol that is freed
stays in its chain, as in the code.
-/

namespace Scc.Cc1.SymbolTable

set_option autoImplicit false

def NR_SYM_HASH : UInt32 := 64
def NR_CPP_HASH : UInt32 := 32
def NR_LBL_HASH : UInt32 := 16

def NR_BLOCK : Nat := 127

abbrev Name := List Char

inductive Namespace where
  | dummy
  | iden
  | tag
  | label
  | cpp
  | keyword
  | cppclauses
  | structs (number : Nat)
deriving DecidableEq

def Namespace.isStruct : Namespace → Bool
  | .structs _ => true
  | _ => false

inductive Table where
  | htab
  | htabcpp
  | htablbl
deriving DecidableEq

def Namespace.table : Namespace → Table
  | .cpp => .htabcpp
  | .label => .htablbl
  | _ => .htab

def Table.size : Table → UInt32
  | .htab => NR_SYM_HASH
  | .htabcpp => NR_CPP_HASH
  | .htablbl => NR_LBL_HASH

def genhash (name : Name) : UInt32 :=
  name.foldl (fun h c => (h * 33) ^^^ c.val) 5381

/-- A table and the index of a chain in it. -/
abbrev Bucket := Table × UInt32

def hash (name : Name) (ns : Namespace) : Bucket :=
  (ns.table, genhash name &&& (ns.table.size - 1))

/-- The fields of a symbol that the table reads; strings, labels of the code
generator and anonymous tags have no name. -/
structure Symbol where
  name : Option Name
  ns : Namespace
  ctx : Nat
  declared : Bool
  typedefName : Bool
deriving DecidableEq

structure State where
  store : Nat → Symbol
  /-- The number of symbols created so far. -/
  count : Nat
  head : List Nat
  labels : List Nat
  chains : Bucket → List Nat
  curctx : Nat

def setSymbol (store : Nat → Symbol) (id : Nat) (sym : Symbol) (other : Nat) : Symbol :=
  if other = id then sym else store other

def setChain (chains : Bucket → List Nat) (bucket : Bucket) (chain : List Nat)
    (other : Bucket) : List Nat :=
  if other = bucket then chain else chains other

def newsym (ns : Namespace) (name : Option Name) (state : State) : State :=
  { state with
    store := setSymbol state.store state.count ⟨name, ns, state.curctx, false, false⟩
    count := state.count + 1
    head := if ns.table = .htab then state.count :: state.head else state.head
    labels := if ns.table = .htablbl then state.count :: state.labels else state.labels }

/-- The test of `lookup()`: a symbol of the namespace, a keyword, or a typedef
name where a member of a structure is looked for. -/
def isFound (ns : Namespace) (name : Name) (sym : Symbol) : Bool :=
  sym.name = some name &&
    (sym.ns = ns || sym.ns = .keyword || (sym.typedefName && ns.isStruct))

/-- `lookup()` with `NOALLOC`. -/
def find (state : State) (ns : Namespace) (name : Name) : Option Nat :=
  (state.chains (hash name ns)).find? fun id => isFound ns name (state.store id)

def lookup (ns : Namespace) (name : Name) (alloc : Bool) (state : State) : State :=
  match find state ns name with
  | some _ => state
  | none => if alloc then newsym ns (some name) state else state

def setDeclared (declared : Bool) (id : Nat) (state : State) : State :=
  { state with store := setSymbol state.store id { state.store id with declared := declared } }

def setTypedef (id : Nat) (state : State) : State :=
  { state with store := setSymbol state.store id { state.store id with typedefName := true } }

def linkhash (name : Name) (id : Nat) (state : State) : State :=
  let bucket := hash name (state.store id).ns
  setDeclared true id
    { state with chains := setChain state.chains bucket (id :: state.chains bucket) }

/-- The symbol is not installed yet and belongs to the current context. -/
def inPlace (state : State) (id : Nat) : Bool :=
  !(state.store id).declared && (state.store id).ctx = state.curctx

/-- `none` is the crash on a symbol without a name. -/
def install (ns : Namespace) (id : Nat) (state : State) : Option State :=
  (state.store id).name.bind fun name =>
    if inPlace state id then some (linkhash name id state)
    else if (state.store id).ctx = state.curctx ∧ ns = (state.store id).ns then some state
    else some (linkhash name state.count (newsym ns (some name) state))

/-- `none` is the failed assertion, or the crash on a symbol without a name. -/
def unlinkhash (id : Nat) (state : State) : Option State :=
  let sym := state.store id
  if sym.declared then
    sym.name.bind fun name =>
      let bucket := hash name sym.ns
      if sym.ns = .cpp ∨ (state.chains bucket).head? = some id then
        some { state with
          chains := setChain state.chains bucket ((state.chains bucket).erase id) }
      else none
  else some state

def killsyms : List Nat → State → Option State
  | [], state => some state
  | id :: rest, state => (unlinkhash id state).bind (killsyms rest)

/-- The symbols that the loop of `popctx()` kills, and the list it leaves. -/
def isCurrent (state : State) (id : Nat) : Bool := (state.store id).ctx = state.curctx

def popctx (state : State) : Option State :=
  if state.curctx = 0 then none
  else
    (killsyms (state.head.takeWhile (isCurrent state)) state).bind fun popped =>
      let outer := { popped with
        head := state.head.dropWhile (isCurrent state)
        curctx := state.curctx - 1 }
      if outer.curctx = 0 then
        (killsyms outer.labels outer).map fun next => { next with labels := [] }
      else some outer

def pushctx (state : State) : Option State :=
  if state.curctx + 1 = NR_BLOCK + 1 then none
  else some { state with curctx := state.curctx + 1 }

/-- What the parser does with the table. `declare` and `undeclare` are its
direct changes of `SDECLARED` in `directdcl()`, `identifier()`, `parameter()` and
`field()`; `markTypedef` is the `STYPEDEF` that `identifier()` sets. -/
inductive Op where
  | lookup (ns : Namespace) (name : Name) (alloc : Bool)
  | newsym (ns : Namespace) (name : Option Name)
  | install (ns : Namespace) (id : Nat)
  | declare (id : Nat)
  | undeclare (id : Nat)
  | markTypedef (id : Nat)
  | pushctx
  | popctx
deriving DecidableEq

def alive (state : State) (id : Nat) : Bool :=
  id ∈ state.head || id ∈ state.labels || (id < state.count && (state.store id).ns = .cpp)

/-- What the callers see to: labels appear only inside functions, and
`label()`, `Goto()` and `define()` install only what they did not find. -/
def permitted (state : State) : Op → Bool
  | .lookup ns _ alloc => !alloc || ns ≠ .label || state.curctx ≠ 0
  | .newsym ns _ => ns ≠ .label || state.curctx ≠ 0
  | .install ns id =>
    alive state id &&
      ((ns.table = .htab && (state.store id).ns.table = .htab) ||
        (ns = (state.store id).ns && (ns ≠ .label || state.curctx ≠ 0) &&
          (state.store id).name.all fun name => (find state ns name).isNone))
  | .declare id => alive state id
  | .undeclare id => alive state id
  | .markTypedef id => alive state id
  | .pushctx => true
  | .popctx => true

def perform (state : State) : Op → Option State
  | .lookup ns name alloc => some (lookup ns name alloc state)
  | .newsym ns name => some (newsym ns name state)
  | .install ns id => install ns id state
  | .declare id => some (setDeclared true id state)
  | .undeclare id => some (setDeclared false id state)
  | .markTypedef id => some (setTypedef id state)
  | .pushctx => pushctx state
  | .popctx => popctx state

def step (state : State) (op : Op) : Option State :=
  if permitted state op then perform state op else none

def start : State := ⟨fun _ => ⟨none, .dummy, 0, false, false⟩, 0, [], [], fun _ => [], 0⟩

end Scc.Cc1.SymbolTable
