import Scc.Cc2.Op

/-!
# Nodes of the second pass

A tree of nodes, each with the type and the operand that the parser gave it. What a
statement of a function does is a label, a jump, a branch, the assignment of a new
temporary or an expression.
-/

namespace Scc.Cc2

set_option autoImplicit false

abbrev TUINT := BitVec 64

/-- `struct type`, without what only declarations read. -/
structure Ty where
  size : Nat
  flags : Nat
deriving DecidableEq

/-- The union `u` of a node. -/
inductive U where
  | none
  | i (value : TUINT)
  | s (text : List Char)
  | sym (sym : Sym)
  | subop (op : Op)
deriving DecidableEq

inductive Node where
  | nil
  | node (op : Op) (type : Ty) (u : U) (left right : Node)
deriving DecidableEq

inductive Body where
  | ONOP
  | OJMP (sym : Sym)
  | OBRANCH (cond : Node) (sym : Sym)
  /-- `assignnode()` of a temporary and a constant. -/
  | set (tmp : Sym) (type : Ty) (one : Bool)
  /-- `assignnode()` of a temporary and a tree. -/
  | assign (tmp : Sym) (rhs : Node)
  | expr (np : Node)

structure Stmt where
  label : Option Sym
  body : Body

def tmpnode (type : Ty) (sym : Sym) : Node := .node .OTMP type (.sym sym) .nil .nil

def constnode (n : TUINT) (type : Ty) : Node := .node .OCONST type (.i n) .nil .nil

def labelstmt (sym : Sym) : Stmt := ⟨some sym, .ONOP⟩

end Scc.Cc2
