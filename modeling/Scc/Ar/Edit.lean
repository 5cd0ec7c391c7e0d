import Mathlib.Data.List.DropRight
import Mathlib.Data.List.Nodup

/-!
# Editing an archive

scc-ar goes through the members of an archive and writes each of them into one of three
temporary files, which together are the new archive. What a member consists of besides its
name does not matter here.
-/

namespace Scc.Ar.Edit

set_option autoImplicit false

abbrev Name := List Char

/-- What follows the last slash, if something does. -/
def canonical (path : Name) : Name :=
  let base := path.rtakeWhile (· ≠ '/')
  if base = [] then path else base

structure Member (α : Type) where
  fname : Name
  /-- The header and the contents. -/
  body : α
deriving DecidableEq

inductive Tmp
  | BEFORE
  | INDOT
  | AFTER
deriving DecidableEq

structure Options where
  posname : Option Name
  bflag : Bool
  uflag : Bool

/-- The files that are named in the arguments. -/
structure Files (α : Type) where
  /-- A file that can be opened. -/
  file : Name → Option α
  /-- Is the member older than the file? -/
  older : α → Name → Option Bool

structure State (α : Type) where
  before : List (Member α)
  indot : List (Member α)
  after : List (Member α)
  cur : Tmp
  /-- The arguments, without those that have been used. -/
  argv : List (Option Name)

section Commands

variable {α : Type} (o : Options) (files : Files α)

def State.put (st : State α) (m : Member α) : Tmp → State α
  | .BEFORE => { st with before := st.before ++ [m] }
  | .INDOT => { st with indot := st.indot ++ [m] }
  | .AFTER => { st with after := st.after ++ [m] }

/-- The first argument with this name, and the arguments without it. -/
def inlist (fname : Name) : List (Option Name) → Option (Name × List (Option Name))
  | [] => none
  | none :: argv => (inlist fname argv).map fun r => (r.1, none :: r.2)
  | some arg :: argv =>
    if canonical arg = fname then some (arg, none :: argv)
    else (inlist fname argv).map fun r => (r.1, some arg :: r.2)

def archive (pname : Name) : Option (Member α) := (files.file pname).map (⟨canonical pname, ·⟩)

def stay (st : State α) (m : Member α) : State α :=
  if o.posname = some m.fname then
    { st.put m (if o.bflag then .AFTER else .BEFORE) with cur := .AFTER }
  else st.put m st.cur

def move (st : State α) (m : Member α) : Option (State α) :=
  match inlist m.fname st.argv with
  | some (_, argv) => some ({ st with argv := argv }.put m .INDOT)
  | none => some (stay o st m)

def update (st : State α) (m : Member α) : Option (State α) :=
  match inlist m.fname st.argv with
  | some (pname, argv) =>
    (if o.uflag then files.older m.body pname else some true).bind fun newer =>
      if newer then (archive files pname).map ({ st with argv := argv }.put · st.cur)
      else some (stay o { st with argv := argv } m)
  | none => some (stay o st m)

def del (st : State α) (m : Member α) : Option (State α) :=
  match inlist m.fname st.argv with
  | some (_, argv) => some { st with argv := argv }
  | none => some (st.put m .BEFORE)

/-- The arguments that have not been used. -/
def insert (st : State α) : Option (State α) :=
  st.argv.foldlM (fun st arg =>
    match arg with
    | some arg => (archive files arg).map (st.put · .INDOT)
    | none => some st) st

inductive Key
  | r
  | m
  | d
deriving DecidableEq

/-- Sixteen characters at most, and no blanks. -/
def checkfnames (argv : List Name) : Bool :=
  argv.all fun arg => (canonical arg).length ≤ 16 && ' ' ∉ canonical arg

def merge (st : State α) : List (Member α) := st.before ++ st.indot ++ st.after

/-- The members of the new archive, unless there is an error before it is written. -/
def ar (key : Key) (members : List (Member α)) (argv : List Name) : Option (List (Member α)) :=
  if ¬ checkfnames argv then none
  else if argv = [] then some members
  else
    let st : State α := ⟨[], [], [], .BEFORE, argv.map some⟩
    match key with
    | .r => ((members.foldlM (update o files) st).bind (insert files)).map merge
    | .m => (members.foldlM (move o) st).map merge
    | .d => (members.foldlM del st).map merge

end Commands

section Law

variable {α : Type} (o : Options) (files : Files α)

def Named (argv : List Name) (m : Member α) : Prop := ∃ arg ∈ argv, canonical arg = m.fname

instance (argv : List Name) (m : Member α) : Decidable (Named argv m) :=
  inferInstanceAs (Decidable (∃ arg ∈ argv, canonical arg = m.fname))

/-- The argument that a member is replaced with. -/
def replacement (argv : List Name) (m : Member α) : Option Name :=
  (argv.find? fun arg => canonical arg = m.fname).filter fun arg =>
    !o.uflag || files.older m.body arg = some true

/-- The member in its place, with new contents if it is replaced. -/
def current (argv : List Name) (m : Member α) : Member α :=
  match (replacement o files argv m).bind files.file with
  | some body => ⟨m.fname, body⟩
  | none => m

/-- The group stands immediately after the position member, or before it, and at the end when no
position is given. -/
def Placed (group base result : List (Member α)) : Prop :=
  match o.posname with
  | none => result = base ++ group
  | some p => ∃ pre m post, base = pre ++ m :: post ∧ m.fname = p ∧
      result = if o.bflag then pre ++ group ++ m :: post else pre ++ m :: (group ++ post)

/-- The arguments that are not members yet. -/
def fresh (members : List (Member α)) (argv : List Name) : List Name :=
  argv.filter fun arg => ∀ m ∈ members, m.fname ≠ canonical arg

def Law (key : Key) (members : List (Member α)) (argv : List Name) (result : List (Member α)) : Prop :=
  match key with
  | .d => result = members.filter fun m => ¬ Named argv m
  | .m => Placed o (members.filter fun m => Named argv m) (members.filter fun m => ¬ Named argv m) result
  | .r => (result.map Member.fname).Nodup ∧ ∃ new, (fresh members argv).mapM (archive files) = some new ∧
      Placed o new (members.map (current o files argv)) result

end Law

end Scc.Ar.Edit
