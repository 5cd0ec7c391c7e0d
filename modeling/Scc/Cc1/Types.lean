import Scc.Lib.Chain

/-!
# Types

A `Type` object is known by the number of its allocation; the basic types of the
architecture come first. `mktype()` interns the derived types in `typetab`, whose
buckets are chosen by the address of the base type, and compares them with
`eqtype()`. The types made while a function is compiled are also threaded on
`localtypes` and leave the table in `flushtypes()`.

`eqtype()` follows pointers and has no bound of its own; the fuel of the model is
the number of objects, and no chain of base types is longer.
-/

namespace Scc.Cc1.Types

open Scc.Lib

set_option autoImplicit false

abbrev Name := List Char

/-- The operators of types; the first ones have the values of `enum typeop`. -/
inductive Op where
  | FTN
  | PTR
  | ARY
  | KRFTN
  | INT
  | FLOAT
  | VOID
  | ELLIPSIS
  | STRUCT
  | UNION
  | ENUM
deriving DecidableEq

def Op.code : Op → Nat
  | .FTN => 1
  | .PTR => 2
  | .ARY => 3
  | .KRFTN => 4
  | _ => 0

/-- The symbol of a tag; `id` tells symbols apart. -/
structure Tag where
  id : Nat
  name : Option Name
deriving DecidableEq

/-- The symbol of a member; `offset` is its `u.i`. -/
structure Field where
  name : Option Name
  type : Nat
  offset : UInt64
deriving DecidableEq

/-- A `Type`, with the properties that these functions read. -/
structure TypeRec where
  op : Op
  letter : Char
  tdefined : Bool
  tk_r : Bool
  tellipsis : Bool
  align : UInt64
  size : UInt64
  type : Nat
  tag : Tag
  pars : List Nat
  fields : List Field
  rank : Nat
  elem : Nat
deriving DecidableEq

/-- The record that an initializer without designators leaves. -/
def TypeRec.zero (op : Op) (letter : Char) : TypeRec where
  op := op
  letter := letter
  tdefined := false
  tk_r := false
  tellipsis := false
  align := 0
  size := 0
  type := 0
  tag := ⟨0, none⟩
  pars := []
  fields := []
  rank := 0
  elem := 0

/-- The objects that `eqtype()` visits from a type. -/
def TypeRec.parts (tp : TypeRec) : List Nat :=
  match tp.op with
  | .STRUCT | .UNION => if tp.tag.name.isSome then [] else tp.fields.map Field.type
  | .PTR | .ARY => [tp.type]
  | .FTN => if tp.tk_r then [tp.type] else tp.type :: tp.pars
  | _ => []

/-- The basic types of an architecture and the numbers of those that the code
knows by name. -/
structure Arch where
  basics : List TypeRec
  voidtype : Nat
  pvoidtype : Nat
  chartype : Nat
  uchartype : Nat
  schartype : Nat
  inttype : Nat
  floattype : Nat
  ellipsistype : Nat
  ordered : ∀ id < basics.length,
    ∀ part ∈ (basics.getD id (TypeRec.zero .VOID '0')).parts, part < id
  void : voidtype < basics.length ∧
    (basics.getD voidtype (TypeRec.zero .VOID '0')).op = .VOID
  pvoid : pvoidtype < basics.length ∧
    (basics.getD pvoidtype (TypeRec.zero .VOID '0')).op = .PTR ∧
      (basics.getD pvoidtype (TypeRec.zero .VOID '0')).type = voidtype

structure State where
  heap : Nat → TypeRec
  count : Nat
  typetab : Nat → List Nat
  localtypes : List Nat
  curfun : Bool

def setType (heap : Nat → TypeRec) (id : Nat) (tp : TypeRec) (other : Nat) : TypeRec :=
  if other = id then tp else heap other

/-- The loop of `typesize()` over the members: the members with their offsets,
the size and the alignment. -/
def fieldsize (heap : Nat → TypeRec) (isStruct : Bool) :
    List Field → UInt64 → UInt64 → UInt64 → List Field × UInt64 × UInt64
  | [], _, size, align => ([], size, align)
  | field :: rest, offset, size, align =>
    let type := heap field.type
    let align := if type.align > align then type.align else align
    if isStruct then
      let a := type.align - 1
      let offset := if a ≠ 0 then (offset + a) &&& ~~~a else offset
      let size := offset + type.size
      let result := fieldsize heap isStruct rest size size align
      ({ field with offset := offset } :: result.1, result.2)
    else
      let size := if type.size > size then type.size else size
      let result := fieldsize heap isStruct rest offset size align
      ({ field with offset := 0 } :: result.1, result.2)

/-- `typesize()`; the operators that make it abort are left as they are. -/
def typesize (arch : Arch) (heap : Nat → TypeRec) (tp : TypeRec) : TypeRec :=
  match tp.op with
  | .ARY =>
    { tp with
      size := UInt64.ofNat tp.elem * (heap tp.type).size
      align := (heap tp.type).align }
  | .PTR =>
    { tp with size := (heap arch.pvoidtype).size, align := (heap arch.pvoidtype).align }
  | .STRUCT =>
    let result := fieldsize heap true tp.fields 0 0 0
    let align := result.2.2
    let size := result.2.1
    { tp with
      fields := result.1
      align := align
      size := if align > 1 then (size + (align - 1)) &&& ~~~(align - 1) else size }
  | .UNION =>
    let result := fieldsize heap false tp.fields 0 0 0
    { tp with fields := result.1, align := result.2.2, size := result.2.1 }
  | .ENUM =>
    { tp with size := (heap arch.inttype).size, align := (heap arch.inttype).align }
  | _ => tp

def deftype (arch : Arch) (heap : Nat → TypeRec) (tp : TypeRec) : TypeRec :=
  typesize arch heap { tp with tdefined := true }

/-- `eqtype()` on the lists of parameters. -/
def eqpars (eqtype : Nat → Nat → Bool) : List Nat → List Nat → Bool
  | [], [] => true
  | p1 :: rest1, p2 :: rest2 => eqtype p1 p2 && eqpars eqtype rest1 rest2
  | _, _ => false

/-- `eqtype()` on the members of two structures without a tag. -/
def eqfields (eqtype : Nat → Nat → Bool) : List Field → List Field → Bool
  | [], [] => true
  | s1 :: rest1, s2 :: rest2 =>
    s1.name = s2.name && (eqtype s1.type s2.type && eqfields eqtype rest1 rest2)
  | _, _ => false

/-- A parameter that the default argument promotions leave alone. -/
def promotedPar (arch : Arch) (heap : Nat → TypeRec) (par : Nat) : Bool :=
  match (heap par).op with
  | .ELLIPSIS => false
  | .INT => (heap arch.inttype).rank ≤ (heap par).rank
  | .ENUM => (heap arch.inttype).rank ≤ (heap par).rank
  | .FLOAT => par ≠ arch.floattype
  | _ => true

def eqfuns (arch : Arch) (heap : Nat → TypeRec) (equiv : Bool) (eqtype : Nat → Nat → Bool)
    (tp1 tp2 : TypeRec) : Bool :=
  if !tp1.tk_r && !tp2.tk_r then
    eqpars eqtype tp1.pars tp2.pars && eqtype tp1.type tp2.type
  else if tp1.tk_r && tp2.tk_r then eqtype tp1.type tp2.type
  else if !equiv then false
  else
    (if tp1.tk_r then tp2.pars else tp1.pars).all (promotedPar arch heap) &&
      eqtype tp1.type tp2.type

/-- `eqtype()` on two different objects. -/
def eqrec (arch : Arch) (heap : Nat → TypeRec) (equiv : Bool) (eqtype : Nat → Nat → Bool)
    (tp1 tp2 : TypeRec) : Bool :=
  if tp1.op ≠ tp2.op then false
  else
    match tp1.op with
    | .UNION | .STRUCT =>
      if tp1.letter ≠ tp2.letter then false
      else if tp1.tag.name.isSome || tp2.tag.name.isSome then tp1.tag = tp2.tag
      else eqfields eqtype tp1.fields tp2.fields
    | .FTN => eqfuns arch heap equiv eqtype tp1 tp2
    | .ARY =>
      if equiv && (tp1.elem = 0 || tp2.elem = 0) then eqtype tp1.type tp2.type
      else tp1.elem = tp2.elem && eqtype tp1.type tp2.type
    | .PTR => eqtype tp1.type tp2.type
    | .INT | .FLOAT => tp1.letter = tp2.letter
    | _ => false

def eqtype (arch : Arch) (heap : Nat → TypeRec) (equiv : Bool) : Nat → Nat → Nat → Bool
  | 0, _, _ => false
  | fuel + 1, tp1, tp2 =>
    tp1 = tp2 ||
      eqrec arch heap equiv (eqtype arch heap equiv fuel) (heap tp1) (heap tp2)

/-- `HASH()`; `addr` is where an object lies in memory. -/
def HASH (addr : Nat → Nat) (tp : TypeRec) : Nat :=
  (tp.op.code ^^^ (addr tp.type >>> 3)) &&& 15

/-- The local `type` of `mktype()`. An array of `void` is diagnosed. -/
def describe (arch : Arch) (tp : Nat) (op : Op) (nelem : Nat) (pars : List Nat) :
    Option TypeRec :=
  match op with
  | .ARY =>
    if tp = arch.voidtype then none
    else some { TypeRec.zero .ARY 'V' with type := tp, elem := nelem, tdefined := nelem ≠ 0 }
  | .KRFTN =>
    some { TypeRec.zero .FTN 'F' with
      type := tp, pars := pars.take nelem, elem := nelem, tdefined := true, tk_r := true }
  | .FTN =>
    some { TypeRec.zero .FTN 'F' with
      type := tp, pars := pars.take nelem, elem := nelem, tdefined := true
      tellipsis := (pars.take nelem).getLast? = some arch.ellipsistype }
  | .PTR => some { TypeRec.zero .PTR 'P' with type := tp, elem := nelem, tdefined := true }
  | _ => none

def newtype (arch : Arch) (base : TypeRec) (state : State) : State :=
  let tp := if base.op = .ARY then { base with align := (state.heap base.type).align } else base
  let tp := if base.tdefined then deftype arch state.heap tp else tp
  { state with
    heap := setType state.heap state.count tp
    count := state.count + 1
    localtypes := if state.curfun then state.count :: state.localtypes else state.localtypes }

/-- The search of `mktype()` along a chain. -/
def search (arch : Arch) (state : State) (type : TypeRec) (chain : List Nat) : Option Nat :=
  chain.find? fun bp =>
    eqrec arch state.heap false (eqtype arch state.heap false state.count) (state.heap bp) type

def intern (arch : Arch) (addr : Nat → Nat) (type : TypeRec) (state : State) : Nat × State :=
  let bucket := HASH addr type
  match search arch state type (state.typetab bucket) with
  | some bp => (bp, state)
  | none =>
    let next := newtype arch type state
    (state.count, { next with
      typetab := Chain.set state.typetab bucket (state.count :: state.typetab bucket) })

/-- `mktype()` for arrays, pointers and functions. -/
def mktype (arch : Arch) (addr : Nat → Nat) (tp : Nat) (op : Op) (nelem : Nat)
    (pars : List Nat) (state : State) : Option (Nat × State) :=
  if op = .PTR ∧ tp = arch.voidtype then some (arch.pvoidtype, state)
  else (describe arch tp op nelem pars).map fun type => intern arch addr type state

/-- `mktype()` for the type of a new tag. -/
def mktag (arch : Arch) (op : Op) (tag : Tag) (state : State) : Option State :=
  match op with
  | .STRUCT => some (newtype arch { TypeRec.zero .STRUCT 'S' with tag := tag } state)
  | .UNION => some (newtype arch { TypeRec.zero .UNION 'U' with tag := tag } state)
  | .ENUM =>
    some (newtype arch
      { TypeRec.zero .ENUM (state.heap arch.inttype).letter with
        tag := tag, rank := (state.heap arch.inttype).rank } state)
  | _ => none

def setmembers (arch : Arch) (id : Nat) (fields : List Field) (state : State) : State :=
  let tp := { state.heap id with fields := fields, elem := fields.length }
  { state with heap := setType state.heap id (deftype arch state.heap tp) }

def unlisted (op : Op) : Bool := op = .STRUCT || op = .UNION || op = .ENUM

/-- `flushtypes()`; `none` is the failed assertion that a type is at the head of
its chain. -/
def flushtypes (addr : Nat → Nat) (state : State) : Option State :=
  (Chain.unlink
    (fun tp => if unlisted (state.heap tp).op then none else some (HASH addr (state.heap tp)))
    state.localtypes state.typetab).map fun typetab =>
      { state with typetab := typetab, localtypes := [] }

def start (arch : Arch) : State where
  heap := fun id => arch.basics.getD id (TypeRec.zero .VOID '0')
  count := arch.basics.length
  typetab := fun _ => []
  localtypes := []
  curfun := false

end Scc.Cc1.Types
