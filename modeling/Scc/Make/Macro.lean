import Mathlib.Logic.Function.Basic

/-!
# Macros

A macro is the last value that `setmacro()` let through and where it came from. The
environment is never stored: `macroinfo()` looks at it every time, and the command line
is put into it.
-/

namespace Scc.Make.Macros

set_option autoImplicit false

inductive Where
  | UNDEF
  | ENVIRON
  | CMDLINE
  | INTERNAL
  | MAKEFILE
  | MAKEFLAGS
deriving DecidableEq

structure Macro where
  value : String
  where_ : Where
deriving DecidableEq

structure State where
  htab : String → Macro
  /-- What `getenv()` finds. -/
  env : String → Option String
  eflag : Bool

/-- A macro that `lookup()` has to create. -/
def undefined : Macro := ⟨"", .UNDEF⟩

def State.init (env : String → Option String) : State := ⟨fun _ => undefined, env, false⟩

/-- The macros that are never read from the environment. -/
def hide (name : String) : Bool := name = "SHELL" || name = "MAKEFLAGS"

def macroinfo (s : State) (name : String) : String × Where :=
  let mp := s.htab name
  match s.env name with
  | some t =>
    if !hide name && (mp.where_ = .UNDEF || mp.where_ = .INTERNAL || s.eflag) then (t, .ENVIRON)
    else (mp.value, mp.where_)
  | none => (mp.value, mp.where_)

def getmacro (s : State) (name : String) : String := (macroinfo s name).1

/-- A definition from the second place is taken over one from the first. -/
def set (owhere where_ : Where) (eflag : Bool) : Bool :=
  match owhere with
  | .UNDEF | .INTERNAL | .MAKEFILE => true
  | .ENVIRON => where_ = .MAKEFLAGS || where_ = .CMDLINE || (where_ = .MAKEFILE && !eflag)
  | .MAKEFLAGS => where_ = .CMDLINE || where_ = .MAKEFLAGS
  | .CMDLINE => where_ = .CMDLINE

def setmacro (s : State) (name val : String) (where_ : Where) (exported : Bool) : State :=
  if set (macroinfo s name).2 where_ s.eflag then
    { s with
      htab := Function.update s.htab name ⟨val, where_⟩
      env := if exported && name ≠ "SHELL" then Function.update s.env name (some val) else s.env }
  else s

/-- The calls that there are: the command line is exported, MAKEFLAGS exports nothing but
itself, and the makefiles and the built-in rules nothing at all. -/
def called (name : String) (where_ : Where) (exported : Bool) : Bool :=
  match where_ with
  | .UNDEF | .ENVIRON => false
  | .CMDLINE => exported
  | .INTERNAL | .MAKEFILE => !exported
  | .MAKEFLAGS => !exported || name = "MAKEFLAGS"

structure Definition where
  name : String
  val : String
  where_ : Where
  exported : Bool
  isCalled : called name where_ exported = true

/-- What happens to the macros until the targets are built. -/
inductive Event
  | flag_e
  | define (d : Definition)

def define (s : State) (d : Definition) : State := setmacro s d.name d.val d.where_ d.exported

def step (s : State) : Event → State
  | .flag_e => { s with eflag := true }
  | .define d => define s d

def run (env : String → Option String) (events : List Event) : State :=
  events.foldl step (State.init env)

def rank (eflag : Bool) : Where → Nat
  | .UNDEF => 0
  | .INTERNAL => 1
  | .ENVIRON => if eflag then 5 else 2
  | .MAKEFILE => 3
  | .MAKEFLAGS => 4
  | .CMDLINE => 6

/-- The definitions of a name, the oldest first. -/
def definitions (name : String) (events : List Event) : List Macro :=
  events.filterMap fun event =>
    match event with
    | .flag_e => none
    | .define d => if d.name = name then some ⟨d.val, d.where_⟩ else none

def sources (environ : Option String) (defs : List Macro) : List Macro :=
  (environ.map fun t => ⟨t, .ENVIRON⟩).toList ++ defs

/-- SHELL and MAKEFLAGS are not taken from the environment. -/
def environ (env : String → Option String) (name : String) : Option String :=
  if hide name then none else env name

/-- The built-in rules are read before everything else. -/
def DefaultsFirst (events : List Event) : Prop :=
  ∀ name, (definitions name events).Pairwise fun first second =>
    first.where_ = .MAKEFILE → second.where_ ≠ .INTERNAL

end Scc.Make.Macros
