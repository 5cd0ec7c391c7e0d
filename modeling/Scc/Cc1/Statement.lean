import Mathlib.Data.List.Infix
import Scc.Lib.Simulation
import Scc.Cc1.Condition

/-!
# Statements

`stmt()` writes labels, jumps, branches and switch records for the statements of a
function. What the records do is a machine that stands before the rest of them; what C
says of the statements is a machine that knows the statement and what comes after it.
Of both is seen what has been evaluated.
-/

namespace Scc.Cc1.Lowering

open Scc.Lib.Simulation

set_option autoImplicit false

structure Exp (arch : Arch) where
  type : Ty
  expr : Expr arch type

/-- What stands before the colon. The constant of a `case` is folded. -/
inductive Mark
  | label (name : String)
  | case (type : Ty) (value : Int) (fits : type.Fits value)
  | default

inductive Stmt (arch : Arch)
  /-- `;`, and the end of a compound statement. -/
  | null
  | exp (e : Exp arch)
  | mark (m : Mark) (s : Stmt arch)
  | compound (items : Stmt arch)
  /-- An item of a compound statement and those after it. -/
  | item (s rest : Stmt arch)
  | If (cond : Exp arch) (s : Stmt arch)
  | Ifelse (cond : Exp arch) (s lelse : Stmt arch)
  | While (cond : Exp arch) (s : Stmt arch)
  | Dowhile (s : Stmt arch) (cond : Exp arch)
  | For (init cond inc : Option (Exp arch)) (s : Stmt arch)
  | Break
  | Continue
  | Goto (name : String)
  | Return (e : Option (Exp arch))
  | Swtch (cond : Exp arch) (s : Stmt arch)

inductive Label
  | user (name : String)
  | fresh (id : Nat)
deriving DecidableEq

inductive Emit
  | OLABEL (sym : Label)
  | OJUMP (sym : Label)
  | OBRANCH (sym : Label)
  | OEXPR (np : Option Node)
  | OBLOOP
  | OELOOP
  | OBSWITCH
  | OESWITCH (sym : Label)
  | OCASE (sym : Label)
  | ODEFAULT (sym : Label)
  | ORET
deriving DecidableEq

structure Switch where
  nr : Nat
  hasdef : Bool

structure State where
  /-- Number of labels made by `newlabel()`. -/
  fresh : Nat
  /-- The labels of the function with the flag `SDEFINED`. -/
  defined : List String
  nested : Nat
  lswitch : Option Switch

def NR_SWITCH : Nat := 1023

def NR_BLOCK : Nat := 127

/-- The result of `newlabel()`, some labels later. -/
def State.label (st : State) (later : Nat) : Label := .fresh (st.fresh + later)

def State.newlabels (st : State) (n : Nat) : State := { st with fresh := st.fresh + n }

def branch (label : Label) : Option Node → List Emit
  | none => [.OJUMP label]
  | some (.const _ value) => if value ≠ 0 then [.OJUMP label] else []
  | some np => [.OBRANCH label, .OEXPR (some np)]

section Lower

variable {arch : Arch}

/-- A conversion to int that is not a cast. -/
def convert (np : Node) : Option Node :=
  if np.type arch = arch.inttype then some np
  else
    match (np.type arch).op with
    | .PTR | .AGGREG => none
    | _ => some (.cast np)

def expression (e : Exp arch) : Option Node := (expr e.expr).map (simplify arch)

def condition (e : Exp arch) (neg : Bool) : Option Node := condexpr e.expr neg

def constexpr (arch : Arch) (type : Ty) (value : Int) : Option Node :=
  if type.op = .INT then (@convert arch (.const type value)).map (simplify arch) else none

def optional (parse : Exp arch → Option Node) : Option (Exp arch) → Option (Option Node)
  | none => some none
  | some e => (parse e).map some

/-- The records before the statement with a label in front of it. -/
def mark (arch : Arch) (st : State) : Mark → Option (List Emit × State)
  | .label name =>
    if name ∈ st.defined then none
    else some ([.OLABEL (.user name)], { st with defined := name :: st.defined })
  | .case type value _ =>
    (constexpr arch type value).bind fun np =>
      st.lswitch.bind fun sw =>
        if sw.nr + 1 = NR_SWITCH then none
        else
          some ([.OCASE (st.label 0), .OEXPR (some np), .OLABEL (st.label 0)],
            { st.newlabels 1 with lswitch := some { sw with nr := sw.nr + 1 } })
  | .default =>
    st.lswitch.bind fun sw =>
      if sw.hasdef then none
      else
        some ([.ODEFAULT (st.label 0), .OLABEL (st.label 0)],
          { st.newlabels 1 with lswitch := some { sw with hasdef := true } })

/-- The records of a statement, unless there is an error in it. -/
def stmt : Stmt arch → Option Label → Option Label → State → Option (List Emit × State)
  | .null, _, _, st => some ([], st)
  | .exp e, _, _, st => (expression e).map fun np => ([.OEXPR (some np)], st)
  | .mark m s, lbreak, lcont, st =>
    (mark arch st m).bind fun before =>
      (stmt s lbreak lcont before.2).map fun code => (before.1 ++ code.1, code.2)
  | .compound items, lbreak, lcont, st =>
    if st.nested = NR_BLOCK then none
    else
      (stmt items lbreak lcont { st with nested := st.nested + 1 }).map fun code =>
        (code.1, { code.2 with nested := st.nested })
  | .item s rest, lbreak, lcont, st =>
    (stmt s lbreak lcont st).bind fun first =>
      (stmt rest lbreak lcont first.2).map fun code => (first.1 ++ code.1, code.2)
  | .If cond s, lbreak, lcont, st =>
    (condition cond true).bind fun np =>
      (stmt s lbreak lcont (st.newlabels 1)).map fun code =>
        (branch (st.label 0) (some np) ++ code.1 ++ [.OLABEL (st.label 0)], code.2)
  | .Ifelse cond s lelse, lbreak, lcont, st =>
    (condition cond true).bind fun np =>
      (stmt s lbreak lcont (st.newlabels 1)).bind fun first =>
        (stmt lelse lbreak lcont (first.2.newlabels 1)).map fun second =>
          (branch (st.label 0) (some np) ++ first.1 ++ .OJUMP (first.2.label 0) ::
            .OLABEL (st.label 0) :: second.1 ++ [.OLABEL (first.2.label 0)], second.2)
  | .While cond s, _, _, st =>
    (condition cond false).bind fun np =>
      (stmt s (some (st.label 2)) (some (st.label 1)) (st.newlabels 3)).map fun code =>
        (.OJUMP (st.label 1) :: .OLABEL (st.label 0) :: .OBLOOP :: code.1 ++
          .OLABEL (st.label 1) :: .OELOOP :: branch (st.label 0) (some np) ++
            [.OLABEL (st.label 2)], code.2)
  | .Dowhile s cond, _, _, st =>
    (stmt s (some (st.label 2)) (some (st.label 1)) (st.newlabels 3)).bind fun code =>
      (condition cond false).map fun np =>
        (.OLABEL (st.label 0) :: .OBLOOP :: code.1 ++
          .OLABEL (st.label 1) :: .OELOOP :: branch (st.label 0) (some np) ++
            [.OLABEL (st.label 2)], code.2)
  | .For init cond inc s, _, _, st =>
    (optional expression init).bind fun einit =>
      (optional (condition · false) cond).bind fun econd =>
        (optional expression inc).bind fun einc =>
          (stmt s (some (st.label 3)) (some (st.label 1)) (st.newlabels 4)).map fun code =>
            ((einit.toList.map fun np => .OEXPR (some np)) ++
              (if econd.isSome then [.OJUMP (st.label 2)] else []) ++
              .OLABEL (st.label 0) :: .OBLOOP :: code.1 ++
                .OLABEL (st.label 1) :: .OEXPR einc :: .OLABEL (st.label 2) :: .OELOOP ::
                  branch (st.label 0) econd ++ [.OLABEL (st.label 3)], code.2)
  | .Break, lbreak, _, st => lbreak.map fun sym => ([.OJUMP sym], st)
  | .Continue, _, lcont, st => lcont.map fun sym => ([.OJUMP sym], st)
  | .Goto name, _, _, st => some ([.OJUMP (.user name)], st)
  | .Return e, _, _, st => (optional expression e).map fun np => ([.ORET, .OEXPR np], st)
  | .Swtch cond s, _, lcont, st =>
    ((expr cond.expr).bind (@convert arch)).bind fun np =>
      (stmt s (some (st.label 0)) lcont { st.newlabels 1 with lswitch := some ⟨0, false⟩ }).map
        fun code =>
          (.OBSWITCH :: .OEXPR (some (simplify arch np)) :: code.1 ++
            [.OESWITCH (st.label 0), .OLABEL (st.label 0)], { code.2 with lswitch := st.lswitch })

def compound (body : Stmt arch) : Option (List Emit) :=
  (stmt (.compound body) none none ⟨0, [], 0, none⟩).map Prod.fst

end Lower

def target : List Emit → Label → Option (List Emit)
  | [], _ => none
  | record :: rest, sym => if record = .OLABEL sym then some rest else target rest sym

inductive Key
  | label (sym : Label)
  | case (value : Int)
  | default
  /-- The end of the switch. -/
  | exit
deriving DecidableEq

section Records

variable (arch : Arch)

/-- The constant of a record of a case, which stands in the record after it. -/
def constant : List Emit → Option Int
  | .OEXPR (some np) :: _ => some (np.eval arch (fun _ _ => 0) []).1
  | _ => none

def hit (key : Key) (record : Emit) (rest : List Emit) : Option Label :=
  match record, key with
  | .OLABEL sym, .label sym' => if sym = sym' then some sym else none
  | .OCASE sym, .case value => if constant arch rest = some value then some sym else none
  | .ODEFAULT sym, .default => some sym
  | .OESWITCH sym, .exit => some sym
  | _, _ => none

def nest (depth : Nat) : Emit → Nat
  | .OBSWITCH => depth + 1
  | .OESWITCH _ => depth - 1
  | _ => depth

def Key.everywhere : Key → Bool
  | .label _ => true
  | _ => false

def Emit.ends : Emit → Bool
  | .OESWITCH _ => true
  | _ => false

/-- A label is looked for everywhere, the records of a switch only up to its end and not
in the switches inside it. -/
def search (key : Key) (depth : Nat) : List Emit → Option Label
  | [] => none
  | record :: rest =>
    if depth = 0 || key.everywhere then
      match hit arch key record rest with
      | some sym => some sym
      | none =>
        if record.ends && !key.everywhere then none else search key (nest depth record) rest
    else search key (nest depth record) rest

def dispatch (value : Int) (rest : List Emit) : Option Label :=
  (search arch (.case value) 0 rest).or ((search arch .default 0 rest).or (search arch .exit 0 rest))

structure Config where
  rest : List Emit
  seen : History

/-- One step of the records of a function. -/
def exec (ν : Valuation) (program : List Emit) : Config → Option Config
  | ⟨.OLABEL _ :: rest, h⟩ => some ⟨rest, h⟩
  | ⟨.OJUMP sym :: _, h⟩ => (target program sym).map (⟨·, h⟩)
  | ⟨.OBRANCH sym :: .OEXPR (some np) :: rest, h⟩ =>
    let r := np.eval arch ν h
    if r.1 ≠ 0 then (target program sym).map (⟨·, r.2⟩) else some ⟨rest, r.2⟩
  | ⟨.OEXPR none :: rest, h⟩ => some ⟨rest, h⟩
  | ⟨.OEXPR (some np) :: rest, h⟩ => some ⟨rest, (np.eval arch ν h).2⟩
  | ⟨.OBLOOP :: rest, h⟩ => some ⟨rest, h⟩
  | ⟨.OELOOP :: rest, h⟩ => some ⟨rest, h⟩
  | ⟨.OBSWITCH :: .OEXPR (some np) :: rest, h⟩ =>
    let r := np.eval arch ν h
    (dispatch arch r.1 rest).bind fun sym => (target program sym).map (⟨·, r.2⟩)
  | ⟨.OESWITCH _ :: rest, h⟩ => some ⟨rest, h⟩
  | ⟨.OCASE _ :: .OEXPR _ :: rest, h⟩ => some ⟨rest, h⟩
  | ⟨.ODEFAULT _ :: rest, h⟩ => some ⟨rest, h⟩
  | ⟨.ORET :: .OEXPR none :: _, h⟩ => some ⟨[], h⟩
  | ⟨.ORET :: .OEXPR (some np) :: _, h⟩ => some ⟨[], (np.eval arch ν h).2⟩
  | _ => none

def recordMachine (ν : Valuation) (program : List Emit) : Machine Config History :=
  ⟨exec arch ν program, Config.seen⟩

end Records

section Statements

variable {arch : Arch}

inductive Cont (arch : Arch)
  | stop
  | item (rest : Stmt arch) (k : Cont arch)
  /-- The end of an if. -/
  | fi (k : Cont arch)
  /-- The condition of a while or a do. -/
  | loop (cond : Exp arch) (s : Stmt arch) (k : Cont arch)
  /-- The increment of a for, and its condition. -/
  | forinc (cond inc : Option (Exp arch)) (s : Stmt arch) (k : Cont arch)
  | forcond (cond inc : Option (Exp arch)) (s : Stmt arch) (k : Cont arch)
  | swtch (k : Cont arch)

def Cont.leave : Cont arch → Option (Cont arch)
  | .stop => none
  | .item _ k => k.leave
  | .fi k => k.leave
  | .loop _ _ k => some k
  | .forinc _ _ _ k => some k
  | .forcond _ _ _ k => some k
  | .swtch k => some k

def Cont.again : Cont arch → Option (Cont arch)
  | .stop => none
  | .item _ k => k.again
  | .fi k => k.again
  | .swtch k => k.again
  | k => some k

inductive Target
  | label (name : String)
  /-- A constant of the promoted type of the controlling expression. -/
  | case (type : Ty) (value : Int)
  | default

def Target.matches : Target → Mark → Bool
  | .label name, .label name' => name = name'
  | .case type value, .case _ value' _ => type.wrap value' = value
  | .default, .default => true
  | _, _ => false

/-- The statement that is marked, and what is left after it. -/
def find (goal : Target) : Stmt arch → Cont arch → Option (Stmt arch × Cont arch)
  | .mark m s, k => if goal.matches m then some (s, k) else find goal s k
  | .compound items, k => find goal items k
  | .item s rest, k => (find goal s (.item rest k)).or (find goal rest k)
  | .If _ s, k => find goal s (.fi k)
  | .Ifelse _ s lelse, k => (find goal s (.fi k)).or (find goal lelse (.fi k))
  | .While cond s, k => find goal s (.loop cond s k)
  | .Dowhile s cond, k => find goal s (.loop cond s k)
  | .For _ cond inc s, k => find goal s (.forinc cond inc s k)
  | .Swtch _ s, k =>
    match goal with
    | .label _ => find goal s (.swtch k)
    | _ => none
  | _, _ => none

/-- The type after the integer promotions. -/
def promoted (arch : Arch) (type : Ty) : Ty := if type.size < arch.intsize then arch.inttype else type

def select (type : Ty) (value : Int) (s : Stmt arch) (k : Cont arch) : Stmt arch × Cont arch :=
  ((find (.case (promoted arch type) value) s (.swtch k)).or (find .default s (.swtch k))).getD (.null, k)

structure Source (arch : Arch) where
  s : Stmt arch
  k : Cont arch
  seen : History

/-- What has been evaluated after an expression that may be missing. -/
def after (ν : Valuation) (e : Option (Exp arch)) (h : History) : History :=
  match e with
  | none => h
  | some e => (e.expr.eval ν h).2

/-- The body of the loop if the condition is met, and the end of it if not. -/
def test (ν : Valuation) (cond : Exp arch) (s : Stmt arch) (inside outside : Cont arch) (h : History) :
    Source arch :=
  let r := cond.expr.eval ν h
  if r.1 ≠ 0 then ⟨s, inside, r.2⟩ else ⟨.null, outside, r.2⟩

def resume (ν : Valuation) : Cont arch → History → Option (Source arch)
  | .stop, _ => none
  | .item rest k, h => some ⟨rest, k, h⟩
  | .fi k, h => some ⟨.null, k, h⟩
  | .loop cond s k, h => some (test ν cond s (.loop cond s k) k h)
  | .forinc cond inc s k, h => some ⟨.null, .forcond cond inc s k, after ν inc h⟩
  | .forcond none inc s k, h => some ⟨s, .forinc none inc s k, h⟩
  | .forcond (some cond) inc s k, h => some (test ν cond s (.forinc (some cond) inc s k) k h)
  | .swtch k, h => some ⟨.null, k, h⟩

/-- One step of the statements of a function. -/
def perform (ν : Valuation) (body : Stmt arch) : Source arch → Option (Source arch)
  | ⟨.null, k, h⟩ => resume ν k h
  | ⟨.exp e, k, h⟩ => some ⟨.null, k, (e.expr.eval ν h).2⟩
  | ⟨.mark _ s, k, h⟩ => some ⟨s, k, h⟩
  | ⟨.compound items, k, h⟩ => some ⟨items, k, h⟩
  | ⟨.item s rest, k, h⟩ => some ⟨s, .item rest k, h⟩
  | ⟨.If cond s, k, h⟩ => some (test ν cond s (.fi k) k h)
  | ⟨.Ifelse cond s lelse, k, h⟩ =>
    let r := cond.expr.eval ν h
    some ⟨if r.1 ≠ 0 then s else lelse, .fi k, r.2⟩
  | ⟨.While cond s, k, h⟩ => some ⟨.null, .loop cond s k, h⟩
  | ⟨.Dowhile s cond, k, h⟩ => some ⟨s, .loop cond s k, h⟩
  | ⟨.For init none inc s, k, h⟩ => some ⟨s, .forinc none inc s k, after ν init h⟩
  | ⟨.For init (some cond) inc s, k, h⟩ =>
    some ⟨.null, .forcond (some cond) inc s k, after ν init h⟩
  | ⟨.Break, k, h⟩ => k.leave.map (⟨.null, ·, h⟩)
  | ⟨.Continue, k, h⟩ => k.again.map (⟨.null, ·, h⟩)
  | ⟨.Goto name, _, h⟩ => (find (.label name) body .stop).map fun found => ⟨found.1, found.2, h⟩
  | ⟨.Return e, _, h⟩ => some ⟨.null, .stop, after ν e h⟩
  | ⟨.Swtch cond s, k, h⟩ =>
    let r := cond.expr.eval ν h
    let chosen := select cond.type r.1 s k
    some ⟨chosen.1, chosen.2, r.2⟩

def statementMachine (ν : Valuation) (body : Stmt arch) : Machine (Source arch) History :=
  ⟨perform ν body, Source.seen⟩

end Statements

end Scc.Cc1.Lowering
