import Scc.Make.Rules

/-!
# Building a target

`rebuild()` goes over the prerequisites and then decides. The commands, the file system
and the expansion of the macros are whatever the system makes of them. What `error()`
ends is an outcome of its own, and a result is only there with enough fuel for the depth
of the recursion.
-/

namespace Scc.Make

set_option autoImplicit false

structure Os (W : Type) where
  FILENAME_MAX : Nat
  /-- The time of a file, or -1. -/
  stamp : W → String → Int
  launch : W → String → Bool → W × Int
  system : W → String → W × Int
  expandstring : W → Table → String → Target → String

structure Flags where
  nflag : Bool
  tflag : Bool
  qflag : Bool
  iflag : Bool
  kflag : Bool

/-- What is kept of a run of the actions of a target. -/
structure Ran where
  name : String
  result : Int
deriving DecidableEq

structure State (W : Type) where
  htab : Table
  world : W
  exitstatus : Bool
  /-- Whose actions have been run, the first one first. -/
  ran : List Ran

variable {W : Type}

def State.put (m : State W) (name : String) (tp : Target) : State W :=
  { m with htab := Function.update m.htab name tp }

/-- The characters in front of a command: `minus` and `plus`, and the command. -/
def flags : List Char → Bool × Bool × List Char
  | '@' :: rest => flags rest
  | '-' :: rest => (true, (flags rest).2)
  | '+' :: rest => ((flags rest).1, true, (flags rest).2.2)
  | rest => (false, false, rest)

/-- `$$` stands for `$`. -/
def unescape : List Char → List Char
  | '$' :: '$' :: rest => '$' :: unescape rest
  | c :: rest => c :: unescape rest
  | [] => []

section

variable (os : Os W) (f : Flags)

def execline (m : State W) (line : String) (ignore : Bool) : State W × Int :=
  let (minus, plus, s) := flags line.toList
  if f.tflag && !plus then (m, 0)
  else if (f.nflag || f.qflag) && !plus then
    ({ m with exitstatus := m.exitstatus || f.qflag }, 0)
  else
    let ignore := minus || f.iflag || ignore
    let (world, r) := os.launch m.world (String.ofList (unescape s)) ignore
    ({ m with world := world }, if ignore then 0 else r)

def touch (m : State W) (name : String) (ignore : Bool) : State W × Int :=
  let (world, r) := os.system m.world ("touch " ++ name)
  ({ m with world := world }, if ignore || f.iflag then 0 else r)

/-- The steps one after the other, up to the first one that fails. -/
def steps {α : Type} (step : State W → α → State W × Int) : State W → List α → State W × Int
  | m, [] => (m, 0)
  | m, x :: rest =>
    let (m, r) := step m x
    if r ≠ 0 then (m, r) else steps step m rest

/-- Here `touch()` gets `silent` where it takes `ignore`. -/
def touchdeps (m : State W) (tp : Target) (silent : Bool) : State W × Int :=
  steps (fun m name => touch os f m name silent) m (tp.req.toList ++ tp.deps)

/-- The target is a prerequisite of `.SILENT` or `.IGNORE`. -/
def listed (m : State W) (special name : String) : Bool := name ∈ (m.htab special).deps

/-- The actions of the target with this name, for itself or by an inference rule. -/
def run (m : State W) (name : String) : State W × Int :=
  let tp := m.htab name
  let silent := listed m ".SILENT" name
  let ignore := listed m ".IGNORE" name
  let (m, r) := if f.tflag then touchdeps os f m tp silent else (m, 0)
  if r ≠ 0 then (m, r)
  else
    let (m, r) := steps (fun m line =>
      execline os f m (os.expandstring m.world m.htab line tp) ignore) m tp.actions
    if r ≠ 0 then (m, r)
    else if f.tflag then touch os f m tp.target ignore
    else (m, 0)

/-- The name before its last dot, and the suffix from there. -/
def strrchr (name : String) : Option (String × String) :=
  match name.toList.reverse.span (fun c => c ≠ '.') with
  | (_, []) => none
  | (after, _ :: before) => some (String.ofList before.reverse, String.ofList ('.' :: after.reverse))

def enabled (m : State W) (suffix : String) : Bool := suffix ∈ (m.htab ".SUFFIXES").deps

inductive Inference
  | error
  | none
  | found (q fname : String)
deriving DecidableEq

def infer (m : State W) (tp : Target) (force : Bool) (stem suffix : String) :
    List String → Inference
  | [] => .none
  | from_ :: rest =>
    let q := from_ ++ suffix
    if q.utf8ByteSize ≥ os.FILENAME_MAX then .error
    else if (m.htab q).actions = [] then infer m tp force stem suffix rest
    else
      let fname := stem ++ from_
      if fname.utf8ByteSize ≥ os.FILENAME_MAX then .error
      else
        let t := os.stamp m.world fname
        if t = -1 then infer m tp force stem suffix rest
        else if !force && t ≤ tp.stamp then infer m tp force stem suffix rest
        else .found q fname

def search (m : State W) (name : String) (force : Bool) : Inference :=
  match strrchr name with
  | some (stem, suffix) =>
    if enabled m suffix then infer os m (m.htab name) force stem suffix (m.htab ".SUFFIXES").deps
    else .none
  | none => infer os m (m.htab name) force name "" (m.htab ".SUFFIXES").deps

/-- The rule takes over the prerequisites of the target. -/
def State.useRule (m : State W) (name q fname : String) : State W :=
  m.put q { m.htab q with
    req := some fname
    deps := (m.htab name).deps
    target := name
    stamp := (m.htab name).stamp }

inductive Outcome (W : Type)
  /-- `error()` has ended the program. -/
  | exit (m : State W)
  | done (m : State W) (r : Int) (build : Bool)

/-- Run the actions of `q` for the target. -/
def runFor (m : State W) (name q : String) : State W × Int :=
  let (m, r) := run os f m q
  ({ m with ran := m.ran ++ [⟨name, r⟩] }, r)

/-- Without a rule: `.DEFAULT`, nothing for a target that is defined, or `none` when nobody
knows how to make it. -/
def fallback (m : State W) (name : String) : Option (State W × Int) :=
  if (m.htab ".DEFAULT").defined then some (runFor os f m name ".DEFAULT")
  else if (m.htab name).defined then some (m, 0)
  else none

def update (m : State W) (name : String) : Option (State W × Int) :=
  if (m.htab name).actions ≠ [] then some (runFor os f m name name)
  else
    match search os m name true with
    | .error => none
    | .found q fname => some (runFor os f (m.useRule name q fname) name q)
    | .none => fallback os f m name

/-- What the loop over the prerequisites has found. -/
structure Checked where
  defn : Bool
  err : Bool
  need : Bool
deriving DecidableEq

inductive Visit (W : Type)
  | exit (m : State W)
  | done (m : State W) (c : Checked)

/-- Rebuild the prerequisites one after the other. -/
def checkDeps (rebuild : State W → String → Option (Outcome W)) (name : String) :
    List String → State W → Checked → Option (Visit W)
  | [], m, c => some (.done m c)
  | q :: rest, m, c =>
    let c := { c with defn := c.defn || (q = name && (m.htab q).actions ≠ []) }
    match rebuild m q with
    | none => none
    | some (.exit m) => some (.exit m)
    | some (.done m r build) =>
      if r ≠ 0 then checkDeps rebuild name rest m { c with err := true }
      else
        checkDeps rebuild name rest m
          { c with need := c.need || build || (m.htab name).stamp < (m.htab q).stamp }

/-- Whether the target has to be made, when the search for a rule does not fail. -/
def decision (m : State W) (name : String) (c : Checked) : Option (State W × Bool) :=
  if (m.htab name).stamp = -1 then some (m, true)
  else if c.defn then some (m, c.need)
  else
    match search os m name false with
    | .error => none
    | .found q fname => some (m.useRule name q fname, true)
    | .none => some (m, c.need)

def exitError (m : State W) : Outcome W := .exit { m with exitstatus := true }

/-- Make the target; without `-k` a failure ends the program. -/
def remake (m : State W) (name : String) : Outcome W :=
  match update os f m name with
  | none => exitError m
  | some (m, r) =>
    if r = 0 then .done m 0 true
    else if f.kflag then .done { m with exitstatus := true } r true
    else exitError m

/-- What is done with the target after its prerequisites. -/
def finish (m : State W) (name : String) (c : Checked) : Outcome W :=
  match decision os m name c with
  | none => exitError m
  | some (m, need) =>
    if c.err then .done m 1 false
    else if need then remake os f m name
    else .done m 0 false

/-- The time of the file is read again on every visit. -/
def restamp (m : State W) (name : String) : State W :=
  m.put name { m.htab name with stamp := os.stamp m.world name }

def rebuild : Nat → State W → String → Option (Outcome W)
  | 0, _, _ => none
  | fuel + 1, m, name =>
    match checkDeps (rebuild fuel) name (m.htab name).deps (restamp os m name)
        ⟨false, false, false⟩ with
    | none => none
    | some (.exit m) => some (.exit m)
    | some (.done m c) => some (finish os f m name c)

end

/-- The goals of the command line, or the first target; what `build()` returns is not
looked at. -/
def goals (os : Os W) (f : Flags) (fuel : Nat) : List String → State W → Option (Outcome W)
  | [], m => some (.done m 0 false)
  | name :: rest, m =>
    match rebuild os f fuel m name with
    | none => none
    | some (.exit m) => some (.exit m)
    | some (.done m _ _) => goals os f fuel rest m

end Scc.Make
