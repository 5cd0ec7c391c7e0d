import Mathlib.Algebra.Ring.Nat
import Mathlib.Data.List.Nodup

/-!
# The sections of the linker

`newsec()` gives every input section a place in the output section of its name, and
`mksecs()` goes through the sections once more. The output section keeps the alignment
zero that it is made with, and its first input section is counted before it is placed.
-/

namespace Scc.Ld

set_option autoImplicit false

def ULLONG_MAX : Nat := 2 ^ 64 - 1

/-- A section of an object. No object has the type of a section that is not seen yet. -/
structure Section where
  name : String
  type : Char
  flags : Nat
  align : Nat
  size : Nat
  seen : type ≠ 'U'
  power : ∃ k, align = 2 ^ k
  bounded : size ≤ ULLONG_MAX

structure OutSection where
  type : Char
  flags : Nat
  align : Nat
  size : Nat

/-- What `lookupsec()` makes for a new name. -/
def unseen : OutSection := ⟨'U', 0, 0, 0⟩

structure State where
  secs : String → OutSection
  /-- The input sections in order, with the offset that `rebase()` gets. -/
  placed : List (Section × Option Nat)

def mkfile (sec : OutSection) (size : Nat) : Option OutSection :=
  if sec.size > ULLONG_MAX - size then none else some { sec with size := sec.size + size }

def grow (sec : OutSection) (nbytes : Nat) : Option OutSection := mkfile sec nbytes

def copy (osec : Section) (sec : OutSection) : Option OutSection := mkfile sec osec.size

def State.rebase (st : State) (osec : Section) (sec : OutSection) : Option State :=
  (copy osec sec).map fun sec' =>
    ⟨Function.update st.secs osec.name sec', st.placed ++ [(osec, some sec.size)]⟩

def State.reject (st : State) (osec : Section) : State :=
  { st with placed := st.placed ++ [(osec, none)] }

def newsec (st : State) (osec : Section) : Option State :=
  let sec := st.secs osec.name
  if sec.type = 'U' then
    st.rebase osec { sec with type := osec.type, size := osec.size, flags := osec.flags }
  else if sec.type ≠ osec.type ∨ sec.flags ≠ osec.flags ∨ sec.align ≠ osec.align then
    some (st.reject osec)
  else (grow sec (osec.align - (sec.size &&& (osec.align - 1)))).bind (st.rebase osec)

/-- The first pass over the sections of all objects. -/
def pass1 (objs : List (List Section)) : Option State :=
  objs.flatten.foldlM newsec ⟨fun _ => unseen, []⟩

/-- The sum and the mask of the second pass, in sixty-four bits. -/
def mksec (secs : String → OutSection) (sec : Section) : String → OutSection :=
  let sp := secs sec.name
  let sp := if sp.type = '?' then { sp with type := sec.type, flags := sec.flags } else sp
  let mask := (sp.align + ULLONG_MAX) % 2 ^ 64
  let size := (sp.size + sp.align + ULLONG_MAX) % 2 ^ 64 &&& mask
  Function.update secs sec.name { sp with size := (size + sec.size) % 2 ^ 64 }

/-- The second pass. The list from `objhead` is the first object alone, as every object is
put before the ones read earlier. -/
def pass2 (secs : String → OutSection) (objs : List (List Section)) : String → OutSection :=
  (objs.headD []).foldl mksec secs

def link (objs : List (List Section)) : Option State :=
  (pass1 objs).map fun st => { st with secs := pass2 st.secs objs }

def State.places (st : State) (name : String) : List (Section × Option Nat) :=
  st.placed.filter fun place => place.1.name = name

/-- The second place is behind the first, with less than an alignment between them. -/
def Follows (first second : Section × Option Nat) : Prop :=
  ∀ offset offset', first.2 = some offset → second.2 = some offset' →
    offset + first.1.size ≤ offset' ∧ offset' < offset + first.1.size + second.1.align

/-- Every section has an aligned place behind the last one, and the output section ends
where the last one does. -/
structure LaidOut (st : State) : Prop where
  placed : ∀ place ∈ st.placed, ∃ offset, place.2 = some offset ∧ place.1.align ∣ offset
  stacked : ∀ name, (st.places name).IsChain Follows
  sized : ∀ name place, (st.places name).getLast? = some place →
    ∀ offset, place.2 = some offset → (st.secs name).size = offset + place.1.size

/-- The sections for which the two passes come to the right places. -/
structure Fortunate (objs : List (List Section)) : Prop where
  alone : (objs.flatten.map Section.name).Nodup
  first : ∀ sec ∈ objs.headD [], sec.size = 1 ∧ sec.align = 1
  later : ∀ sec ∈ objs.tail.flatten, sec.align ∣ sec.size ∧ 2 * sec.size ≤ ULLONG_MAX

end Scc.Ld
