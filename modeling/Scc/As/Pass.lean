import Mathlib.Algebra.Ring.Nat
import Mathlib.Data.List.Basic

/-!
# Two passes over the files

A line defines a label, emits some bytes, which may depend on all the symbols, or goes to
another section. Every file is read by one call of `dopass()`, in both passes, and
`cleansecs()` prepares the sections for it. Names are the ones `lookup()` makes of them,
and the lines of an included file stand in its place.
-/

namespace Scc.As.Pass

set_option autoImplicit false

abbrev Values := String → Nat

inductive Op
  | none
  /-- What an instruction or a directive emits at an address, unless there is an error. -/
  | emit (bytes : Values → Nat → Option (List UInt8))
  | section_ (name : String) (alloc : Bool)
  | equ (name : String) (value : Values → Nat → Nat)
  | end_

structure Line where
  label : Option String
  op : Op

structure Symbol where
  value : Nat
  fdef : Bool
deriving DecidableEq

/-- `pc` and `curpc` go together. -/
structure Lsection where
  /-- The flag `SALLOC`. -/
  alloc : Bool
  curpc : Nat
  /-- The temporary file with the bytes. -/
  fp : Option (List UInt8)
deriving DecidableEq

/-- A label with its section and where it stands in the file. -/
structure Label where
  name : String
  sec : String
  offset : Nat
deriving DecidableEq

structure State where
  secs : String → Option Lsection
  cursec : String
  syms : String → Symbol
  /-- The lines that the inputs still have. -/
  rest : List Line
  /-- What this file has emitted, section by section. -/
  emitted : List (String × List UInt8)
  /-- The labels of this file. -/
  labels : List Label

def State.putSec (s : State) (name : String) (sec : Lsection) : State :=
  { s with secs := Function.update s.secs name (some sec) }

def State.putSym (s : State) (name : String) (sym : Symbol) : State :=
  { s with syms := Function.update s.syms name sym }

def State.values (s : State) : Values := fun name => (s.syms name).value

/-- `ibinfmt()` defines the three usual sections. -/
def State.init : State where
  secs name := if name = ".text" ∨ name = ".data" ∨ name = ".bss" then some ⟨true, 0, none⟩ else none
  cursec := ".bss"
  syms _ := ⟨0, false⟩
  rest := []
  emitted := []
  labels := []

section

variable (maxaddr pass : Nat)

/-- In the second pass a section with bytes gets a new file. -/
def Lsection.clean (sec : Lsection) : Lsection :=
  { sec with curpc := 0, fp := if pass = 1 ∨ sec.alloc = false then sec.fp else some [] }

def cleansecs (s : State) : State :=
  { s with
    secs := fun name => (s.secs name).map (Lsection.clean pass)
    cursec := ".text"
    emitted := []
    labels := [] }

/-- The size is only checked in the first pass. -/
def emit (s : State) (bytes : List UInt8) : Option State :=
  (s.secs s.cursec).bind fun sec =>
    if pass = 1 ∧ sec.curpc + bytes.length > maxaddr then none
    else
      some { s.putSec s.cursec { sec with
              curpc := sec.curpc + bytes.length
              fp := sec.fp.map (· ++ bytes) } with
        emitted := s.emitted ++ [(s.cursec, bytes)] }

def defsec (s : State) (name : String) (alloc : Bool) : State :=
  match s.secs name with
  | some _ => { s with cursec := name }
  | none => { s.putSec name ⟨alloc, 0, none⟩ with cursec := name }

/-- A value for a symbol that must not have one yet. -/
def assign (s : State) (name : String) (value : Nat) : Option State :=
  if pass = 1 ∧ (s.syms name).fdef then none
  else some (s.putSym name { s.syms name with value := value })

def deflabel (s : State) (name : String) : Option State :=
  (s.secs s.cursec).bind fun sec => assign pass s name sec.curpc

def define (s : State) (name : String) : State :=
  s.putSym name { s.syms name with fdef := true }

def getpc (s : State) : Nat :=
  match s.secs s.cursec with
  | some sec => sec.curpc
  | none => 0

def perform (s : State) : Op → Option State
  | .none => some s
  | .end_ => some s
  | .emit bytes => (bytes s.values (getpc s)).bind (emit maxaddr pass s)
  | .section_ name alloc => if (s.syms name).fdef then none else some (defsec s name alloc)
  | .equ name value => (assign pass s name (value s.values (getpc s))).map fun s => define s name

/-- The label that a line defines; before `.equ` it is only the name of the constant. -/
def Line.defines (line : Line) : Option String :=
  match line.label, line.op with
  | some label, .equ name _ => if name = label then none else some label
  | label, _ => label

def note (s : State) (line : Line) : State :=
  match line.defines with
  | some name => { s with labels := s.labels ++ [⟨name, s.cursec, getpc s⟩] }
  | none => s

def labelled (s : State) (line : Line) : Option State :=
  match line.label with
  | some name => deflabel pass s name
  | none => some s

def finishLine (s : State) (line : Line) : State :=
  match line.label with
  | some name => define s name
  | none => s

def step (s : State) (line : Line) : Option State :=
  (labelled pass (note s line) line).bind fun s =>
    (perform maxaddr pass s line.op).map fun s => finishLine s line

/-- `.end` leaves the other lines for the next file. -/
def readLines : List Line → State → Option State
  | [], s => some { s with rest := [] }
  | line :: rest, s =>
    (step maxaddr pass s line).bind fun s =>
      match line.op with
      | .end_ => some { s with rest := rest }
      | _ => readLines rest s

def dopass (s : State) (file : List Line) : Option State :=
  readLines maxaddr pass (file ++ s.rest) (cleansecs pass s)

end

/-- What one file emits and which labels it defines. -/
structure Log where
  emitted : List (String × List UInt8)
  labels : List Label

/-- The second pass, with what every file contributes to it. -/
def secondPass (maxaddr : Nat) : List (List Line) → State → Option (State × List Log)
  | [], s => some (s, [])
  | file :: rest, s =>
    (dopass maxaddr 2 s file).bind fun s =>
      (secondPass maxaddr rest s).map fun result =>
        (result.1, ⟨s.emitted, s.labels⟩ :: result.2)

def asm (maxaddr : Nat) (files : List (List Line)) : Option (State × List Log) :=
  (files.foldlM (dopass maxaddr 1) State.init).bind (secondPass maxaddr files)

/-- What `writeout()` writes of a section. -/
def dumpsec (sec : Lsection) : List UInt8 := sec.fp.getD []

def contribution (name : String) (log : Log) : List UInt8 :=
  (log.emitted.filter fun e => e.1 = name).flatMap fun e => e.2

/-- The files are laid out one after the other. -/
structure LaidOut (final : State) (logs : List Log) : Prop where
  bytes : ∀ name sec, final.secs name = some sec →
    dumpsec sec = (logs.map (contribution name)).flatten
  labels : ∀ k log, logs[k]? = some log → ∀ label ∈ log.labels,
    (final.syms label.name).value =
      ((logs.take k).map fun log => (contribution label.sec log).length).sum + label.offset

/-- Only the last file has bytes, and only for sections that get a file. -/
structure LastOnly (final : State) (logs : List Log) : Prop where
  bytes : ∀ name sec, final.secs name = some sec →
    (∀ log ∈ logs.dropLast, contribution name log = []) ∧
      (sec.alloc = false → ∀ log ∈ logs, contribution name log = [])
  labels : ∀ k log, logs[k]? = some log → ∀ label ∈ log.labels,
    ∀ earlier ∈ logs.take k, contribution label.sec earlier = []

/-- No line of a file follows `.end`. -/
def EndsLast (file : List Line) : Prop := ∀ line ∈ file.dropLast, line.op ≠ .end_

end Scc.As.Pass
