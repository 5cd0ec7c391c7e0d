import Scc.Cc2.Node

/-!
# Lowering of logical operators

`sethi()` takes the logical operators, the conditional operator and the comma out of a
tree. What it puts before the current statement is the list beside the tree; new labels
and temporaries are the next free numbers.

`assignnode()` calls `sethi()` once more on what it is given, which is lowered already,
and the numbers that `sethi()` computes for the code generator are left out.
-/

namespace Scc.Cc2

set_option autoImplicit false

/-- `bool()` on an operator, with `bool()` on its operands. -/
def boolOp (op : Op) (boolLeft boolRight : Sym → Sym → Sym → List Stmt × Sym)
    (true_ false_ fresh : Sym) : List Stmt × Sym :=
  match op with
  | .ONEG => boolLeft false_ true_ fresh
  | .OAND =>
    let label := fresh
    let left := boolLeft label false_ (fresh + 1)
    let right := boolRight true_ false_ left.2
    (left.1 ++ labelstmt label :: right.1, right.2)
  | _ =>
    let label := fresh
    let left := boolLeft true_ label (fresh + 1)
    let right := boolRight true_ false_ left.2
    (left.1 ++ labelstmt label :: right.1, right.2)

def logical (op : Op) : Bool := op = .ONEG || op = .OAND || op = .OOR

/-- The operators that `tsethi()` finds addressable. -/
def addressable (op : Op) : Bool := op = .OAUTO || op = .OREG || op = .OMEM || op = .OCONST

/-- `logicexpr()`, with `bool()` on its tree. -/
def logicexpr (type : Ty) (bool : Sym → Sym → Sym → List Stmt × Sym) (fresh : Sym) :
    Node × List Stmt × Sym :=
  let true_ := fresh
  let false_ := fresh + 1
  let phi := fresh + 2
  let cond := bool true_ false_ (fresh + 3)
  let tmp := cond.2
  (tmpnode type tmp, cond.1 ++ [
      ⟨some true_, .set tmp type true⟩, ⟨none, .OJMP phi⟩, ⟨some false_, .set tmp type false⟩, labelstmt phi],
    tmp + 1)

mutual

def bool (cond : Node) (true_ false_ fresh : Sym) : List Stmt × Sym :=
  match cond with
  | .nil => ([], fresh)
  | .node op type u left right =>
    if logical op then boolOp op (bool left) (bool right) true_ false_ fresh
    else
      let lowered := sethi (.node op type u left right) fresh
      (lowered.2.1 ++ [⟨none, .OBRANCH lowered.1 true_⟩, ⟨none, .OJMP false_⟩], lowered.2.2)
termination_by (sizeOf cond, 1)

def comma (np : Node) (fresh : Sym) : List Stmt × Sym :=
  match np with
  | .node .OCOMMA _ _ left right =>
    let first := comma left fresh
    let second := sethi right first.2
    (first.1 ++ second.2.1 ++ [⟨none, .expr second.1⟩], second.2.2)
  | np =>
    let lowered := sethi np fresh
    (lowered.2.1 ++ [⟨none, .expr lowered.1⟩], lowered.2.2)
termination_by (sizeOf np, 1)

def sethi (np : Node) (fresh : Sym) : Node × List Stmt × Sym :=
  match np with
  | .nil => (.nil, [], fresh)
  | .node op type u left right =>
    if logical op then logicexpr type (boolOp op (bool left) (bool right)) fresh
    else if op = .OCOMMA then
      let first := comma left fresh
      let second := sethi right first.2
      (second.1, first.1 ++ second.2.1, second.2.2)
    else if op = .OASK then
      match right with
      | .nil => (.nil, [], fresh)
      | .node _ _ _ yes no =>
        let true_ := fresh
        let false_ := fresh + 1
        let phi := fresh + 2
        let cond := bool left true_ false_ (fresh + 3)
        let tmp := cond.2
        let first := sethi yes (tmp + 1)
        let second := sethi no first.2.2
        (tmpnode type tmp, cond.1 ++ labelstmt true_ :: first.2.1 ++ [
            ⟨none, .assign tmp first.1⟩, ⟨none, .OJMP phi⟩, labelstmt false_] ++ second.2.1 ++ [
            ⟨none, .assign tmp second.1⟩, labelstmt phi], second.2.2)
    else if addressable op then (.node op type u left right, [], fresh)
    else if op = .OCPL then
      let first := sethi left fresh
      (.node .OBXOR type u first.1 (constnode (BitVec.allOnes 64) type), first.2.1, first.2.2)
    else
      let first := sethi left fresh
      let second := sethi right first.2.2
      (.node op type u first.1 second.1, first.2.1 ++ second.2.1, second.2.2)
termination_by (sizeOf np, 0)

end

def Node.op : Node → Op
  | .nil => .ONOP
  | .node op _ _ _ _ => op

/-- The operators in whose place `replace()` puts another node, which has no label. -/
def replaced (op : Op) : Bool := logical op || op = .OCOMMA || op = .OASK

/-- `sethi()` on an expression statement. -/
def sethiExpr (label : Option Sym) (np : Node) (fresh : Sym) : List Stmt × Sym :=
  let lowered := sethi np fresh
  (lowered.2.1 ++ [⟨if replaced np.op then none else label, .expr lowered.1⟩], lowered.2.2)

/-- `sethi()` on a branch when the next statement has a label. -/
def sethiBranch (label : Option Sym) (cond : Node) (sym next fresh : Sym) : List Stmt × Sym :=
  if logical cond.op then bool cond sym next fresh
  else
    let lowered := sethi cond fresh
    (lowered.2.1 ++ [⟨label, .OBRANCH lowered.1 sym⟩], lowered.2.2)

/-- `apply(sethi)` on the statements of a function, of which no branch is the last. -/
def genaddr (forest : List Stmt) (fresh : Sym) : List Stmt × Sym :=
  match forest with
  | [] => ([], fresh)
  | ⟨label, .OBRANCH cond sym⟩ :: ⟨some next, body⟩ :: rest =>
    let here := sethiBranch label cond sym next fresh
    let tail := genaddr (⟨some next, body⟩ :: rest) here.2
    (here.1 ++ tail.1, tail.2)
  | ⟨label, .OBRANCH cond sym⟩ :: ⟨none, body⟩ :: rest =>
    let here := sethiBranch label cond sym fresh (fresh + 1)
    let tail := genaddr (⟨some fresh, body⟩ :: rest) here.2
    (here.1 ++ tail.1, tail.2)
  | ⟨label, .expr np⟩ :: rest =>
    let here := sethiExpr label np fresh
    let tail := genaddr rest here.2
    (here.1 ++ tail.1, tail.2)
  | np :: rest =>
    let tail := genaddr rest fresh
    (np :: tail.1, tail.2)
termination_by forest.length

end Scc.Cc2
