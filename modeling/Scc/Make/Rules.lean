import Mathlib.Data.List.Basic
import Mathlib.Logic.Relation

/-!
# Rules

The table of targets that the rules of the makefiles fill. A target that nobody has
looked up is the one `lookup()` would create.
-/

namespace Scc.Make

set_option autoImplicit false

structure Target where
  target : String
  /-- The prerequisite that an inference rule has found. -/
  req : Option String
  stamp : Int
  defined : Bool
  deps : List String
  actions : List String
deriving DecidableEq

abbrev Table := String → Target

/-- What `lookup()` creates. -/
def newTarget (name : String) : Target := ⟨name, none, 0, false, [], []⟩

structure Rules where
  htab : Table
  deftarget : Option String
  sflag : Bool
  iflag : Bool
  /-- The dependencies that were dropped with a warning. -/
  dropped : List (String × String)

def Rules.init : Rules := ⟨newTarget, none, false, false, []⟩

def Rules.put (s : Rules) (name : String) (tp : Target) : Rules :=
  { s with htab := Function.update s.htab name tp }

/-- `error()` ends the program. -/
def addtarget (s : Rules) (target : String) (ndeps : Nat) : Option Rules :=
  let s := s.put target { s.htab target with defined := true }
  if s.deftarget = none ∧ target.toList.head? ≠ some '.' then
    some { s with deftarget := some target }
  else if target = ".SUFFIXES" ∧ ndeps = 0 then
    some (s.put target { s.htab target with deps := [] })
  else if target = ".DEFAULT" then
    if ndeps > 0 then none else some s
  else if target = ".SILENT" ∧ ndeps = 0 then
    some { s with sflag := true }
  else if target = ".IGNORE" ∧ ndeps = 0 then
    some { s with iflag := true }
  else some s

/-- The prerequisites of `target` are compared with `target`, and `dep` is not used. -/
def depends (s : Rules) (target _dep : String) : Bool :=
  (s.htab target).deps.any fun p => p = target

def adddep (s : Rules) (target dep : String) : Rules :=
  if depends s dep target then { s with dropped := s.dropped ++ [(target, dep)] }
  else if dep ∈ (s.htab target).deps then s
  else s.put target { s.htab target with deps := (s.htab target).deps ++ [dep] }

def addrule (s : Rules) (target : String) (acts : List String) : Rules :=
  s.put target { s.htab target with actions := acts }

inductive Call
  | addtarget (target : String) (ndeps : Nat)
  | adddep (target dep : String)
  | addrule (target : String) (acts : List String)
deriving DecidableEq

structure Rule where
  targets : List String
  deps : List String
  acts : List String

/-- What `rule()` calls when it has read the line and its actions. -/
def rule (r : Rule) : List Call :=
  r.targets.flatMap fun target =>
    Call.addtarget target r.deps.length :: r.deps.map (Call.adddep target) ++
      if r.acts.length > 0 then [Call.addrule target r.acts] else []

def call (s : Rules) : Call → Option Rules
  | .addtarget target ndeps => addtarget s target ndeps
  | .adddep target dep => some (adddep s target dep)
  | .addrule target acts => some (addrule s target acts)

/-- The calls of all the rules, unless one of them is an error. -/
def calls (s : Rules) (cs : List Call) : Option Rules := cs.foldlM call s

/-- Reading the makefiles; `-r` is a rule for `.SUFFIXES` with nothing else. -/
def parse (makefile : List Rule) : Option Rules := calls Rules.init (makefile.flatMap rule)

/-- `dep` is a prerequisite of `target`. -/
def Edge (htab : Table) (target dep : String) : Prop := dep ∈ (htab target).deps

instance (htab : Table) (target dep : String) : Decidable (Edge htab target dep) :=
  inferInstanceAs (Decidable (dep ∈ (htab target).deps))

/-- The target is already among the prerequisites of its prerequisite. -/
def Closes (htab : Table) (target dep : String) : Prop :=
  Relation.ReflTransGen (Edge htab) dep target

end Scc.Make
