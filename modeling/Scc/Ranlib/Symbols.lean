import Scc.Ar.Walkers

/-!
# The symbols of a library

scc-ranlib reads the symbols of the members one by one, and remembers for each name where it
has found it. How a symbol is read from an object is left open.
-/

namespace Scc.Ranlib

open Scc.Lib Scc.Ar

set_option autoImplicit false

abbrev Name := List Char

structure Symbol where
  name : Name
  type : Char
deriving DecidableEq

/-- What is used of the library for objects. -/
structure Objects where
  /-- The format of the object that is at a place of the file. -/
  objprobe : Bytes → Nat → Option Nat
  /-- The symbols of an object, unless it cannot be read. -/
  readobj : Nat → Bytes → Nat → Option (List Symbol)

structure Symdef where
  name : Name
  type : Char
  offset : Int
deriving DecidableEq

def NR_SYMDEF : Nat := 32

structure Table where
  /-- All symbols, the last one first. -/
  head : List Symdef
  /-- The names in the messages about multiple definitions. -/
  multiple : List Name
deriving DecidableEq

section Hash

variable (genhash : Name → Nat)

/-- `htab[h]` is the last symbol with this hash, and `next` goes on to all that are older. -/
def lookup (name : Name) (head : List Symdef) : Option Symdef :=
  let htab := head.dropWhile fun dp => genhash dp.name % NR_SYMDEF ≠ genhash name % NR_SYMDEF
  htab.find? fun dp => dp.name = name

def counted (sym : Symbol) : Bool := sym.type.isUpper && sym.type ≠ 'N'

/-- The result tells whether the member is read on. -/
def newsymbol (offset : Int) (tab : Table) (sym : Symbol) : Table × Bool :=
  if ¬ counted sym then (tab, true)
  else
    let new : Symdef := ⟨sym.name, 'U', -1⟩
    let (head, np) :=
      match lookup genhash sym.name tab.head with
      | some np => (tab.head, np)
      | none => (new :: tab.head, new)
    let defined := head.map fun dp => if dp.name = np.name then { dp with type := sym.type, offset := offset } else dp
    if np.type = 'C' then
      if sym.type = 'C' then ({ tab with head := head }, true) else ({ tab with head := defined }, true)
    else if np.type = 'U' then ({ tab with head := defined }, true)
    else if sym.type ≠ 'C' then ({ tab with multiple := tab.multiple ++ [sym.name] }, false)
    else (tab, true)

/-- The loop over the symbols of a member. -/
def newsymbols (offset : Int) (tab : Table) : List Symbol → Table
  | [] => tab
  | sym :: syms =>
    match newsymbol genhash offset tab sym with
    | (tab, true) => newsymbols offset tab syms
    | (tab, false) => tab

structure State where
  tab : Table
  artype : Option Nat
  nolib : Bool
deriving DecidableEq

variable (objs : Objects) (file : Bytes)

/-- The symbols of a member are found where its header ends. -/
def newmember (st : State) (pos : Nat) : State :=
  let offset := pos + hdrsize
  match objs.objprobe file offset with
  | none => st
  | some t =>
    if st.artype ≠ none ∧ st.artype ≠ some t then { st with nolib := true }
    else
      match objs.readobj t file offset with
      | none => { st with artype := some t }
      | some syms => { st with artype := some t, tab := newsymbols genhash offset st.tab syms }

def isIndex (name : Bytes) : Bool := name = [47] || name = [95, 95, 46, 83, 89, 77, 68, 69, 70]

/-- Where the members begin: after an index, if the first member is one. -/
def start : Option Nat :=
  match Libmach.armember file SARMAG with
  | .eof => some SARMAG
  | .error => none
  | .member memb off =>
    if off < 0 then none
    else if isIndex memb then some (SARMAG + hdrsize + off.toNat)
    else some SARMAG

def State.init : State := ⟨⟨[], []⟩, none, false⟩

/-- The symbols of all members up to the end of the library, or up to where it is corrupted. -/
inductive Readsyms : State → Prop
  | refused (corrupted : start file = none) : Readsyms State.init
  | members {s : Nat} {visits : List Visit} {result : Bool} (starts : start file = some s)
      (walk : Walk (Libmach.turn file) s visits result) :
      Readsyms (visits.foldl (fun st v => newmember genhash objs file st v.pos) State.init)

end Hash

end Scc.Ranlib
