import Mathlib.Algebra.Ring.Nat

/-!
# Static initializers

The data that `emitinit()` writes for an object. It walks through the type and pads as
it goes, with an address of its own; the offsets of the members come from `typesize()`.

Alignments are powers of two, so that a mask is a remainder here.
-/

namespace Scc.Cc1.StaticInit

set_option autoImplicit false

mutual

/-- A complete object type. `elem` of a scalar is what `n.elem` reads there: the rank
of an integer, which shares its place, or zero in a pointer. -/
inductive ObjType where
  | scalar (size align elem : Nat)
  | ary (type : ObjType) (elem : Nat)
  | struct (fields : Fields)
  | union (fields : Fields)

inductive Fields where
  | nil
  | cons (type : ObjType) (rest : Fields)

end

/-- `(n + a) & ~a`, where `a` is the alignment less one. -/
def roundup (n align : Nat) : Nat := n + (align - 1) - (n + (align - 1)) % align

/-- The offset of a member behind `offset`. -/
def fieldoffset (offset align : Nat) : Nat := if align - 1 ≠ 0 then roundup offset align else offset

mutual

def typesize : ObjType → Nat × Nat
  | .scalar size align _ => (size, align)
  | .ary type elem => (elem * (typesize type).1, (typesize type).2)
  | .struct fields =>
    let result := structsize fields 0 0
    (if result.2 > 1 then roundup result.1 result.2 else result.1, result.2)
  | .union fields => unionsize fields 0 0

/-- The loop over the members of a structure, from the offset and the alignment. -/
def structsize : Fields → Nat → Nat → Nat × Nat
  | .nil, offset, align => (offset, align)
  | .cons type rest, offset, align =>
    structsize rest (fieldoffset offset (typesize type).2 + (typesize type).1)
      (if (typesize type).2 > align then (typesize type).2 else align)

def unionsize : Fields → Nat → Nat → Nat × Nat
  | .nil, size, align => (size, align)
  | .cons type rest, size, align =>
    unionsize rest (if (typesize type).1 > size then (typesize type).1 else size)
      (if (typesize type).2 > align then (typesize type).2 else align)

end

def ObjType.size (tp : ObjType) : Nat := (typesize tp).1

def ObjType.align (tp : ObjType) : Nat := (typesize tp).2

/-- The tree that `initialize()` returns. A missing designator is a null pointer. -/
inductive Init where
  /-- An expression. -/
  | expr
  /-- A string that initializes an array. -/
  | str
  /-- `u.init` of a braced list, as `mkcompound()` has filled it. -/
  | list (init : List (Option Init))
  /-- The same of a union: which member, and its initializer. -/
  | member (index : Nat) (init : Init)

def Fields.length : Fields → Nat
  | .nil => 0
  | .cons _ rest => rest.length + 1

/-- `n.elem` -/
def ObjType.elem : ObjType → Nat
  | .scalar _ _ elem => elem
  | .ary _ elem => elem
  | .struct fields => fields.length
  | .union fields => fields.length

/-- The designators of a list in the order in which they were read, of which there is
one at least. A later one replaces an earlier one at its position. -/
def mkcompound (tp : ObjType) (head : List (Nat × Init)) (last : Nat × Init) : Init :=
  match tp with
  | .union _ => .member last.1 last.2
  | tp =>
    .list ((head ++ [last]).foldl (fun v dp => v.set dp.1 (some dp.2)) (List.replicate tp.elem none))

inductive Item where
  /-- One zero byte of `emitpadding()`. -/
  | zero
  /-- A scalar or a string of so many bytes. -/
  | data (size : Nat)
deriving DecidableEq

/-- The items and the address behind them; nothing where the compiler crashes. -/
abbrev Emitted := Option (List Item × Nat)

def emitpadding (align addr : Nat) : List Item × Nat :=
  (List.replicate (addr % align) .zero, addr + addr % align)

def emitscalar (size addr : Nat) : Emitted := some ([.data size], addr + size)

def andThen (first : Emitted) (next : Nat → Emitted) : Emitted :=
  first.bind fun (items, addr) => (next addr).map fun (more, addr) => (items ++ more, addr)

/-- The loop over the elements of an array. -/
def emitarray (emit : Option Init → Nat → Emitted) : Nat → List (Option Init) → Nat → Emitted
  | 0, _, addr => some ([], addr)
  | elem + 1, init, addr => andThen (emit init.head?.join addr) (emitarray emit elem init.tail)

/-- The designators of a list; all are missing when the list is. -/
def designators : Option Init → List (Option Init)
  | some (.list init) => init
  | _ => []

mutual

def emitdesig : ObjType → Option Init → Nat → Emitted
  | .scalar size align _, np, addr =>
    andThen (some (emitpadding align addr)) fun addr =>
      match np with
      | some (.list init) =>
        match init.head?.join with
        | some _ => emitscalar size addr
        | none => none
      | _ => emitscalar size addr
  | .ary type elem, np, addr =>
    andThen (some (emitpadding (typesize type).2 addr)) fun addr =>
      match np with
      | some .str => emitscalar elem addr
      | some .expr => emitscalar (ObjType.ary type elem).size addr
      | np =>
        andThen (emitarray (emitdesig type) elem (designators np) addr) fun addr =>
          some (emitpadding (typesize type).2 addr)
  | .struct fields, np, addr =>
    andThen (some (emitpadding (ObjType.struct fields).align addr)) fun addr =>
      match np with
      | some .expr => emitscalar (ObjType.struct fields).size addr
      | np =>
        andThen (emitfields fields (designators np) addr) fun addr =>
          some (emitpadding (ObjType.struct fields).align addr)
  | .union fields, np, addr =>
    andThen (some (emitpadding (ObjType.union fields).align addr)) fun addr =>
      match np with
      | some .expr => emitscalar (ObjType.union fields).size addr
      | some (.member index init) =>
        andThen (emitmember fields index init addr) fun addr =>
          some (emitpadding (ObjType.union fields).align addr)
      -- `aux->type` is read through a null pointer.
      | _ => none

/-- The loop over the members of a structure. -/
def emitfields : Fields → List (Option Init) → Nat → Emitted
  | .nil, _, addr => some ([], addr)
  | .cons type rest, init, addr =>
    andThen (emitdesig type init.head?.join addr) (emitfields rest init.tail)

/-- The member of a union that has the type of its initializer. -/
def emitmember : Fields → Nat → Init → Nat → Emitted
  | .nil, _, _, _ => none
  | .cons type _, 0, init, addr => emitdesig type (some init) addr
  | .cons _ rest, index + 1, init, addr => emitmember rest index init addr

end

def emitinit (tp : ObjType) (np : Init) : Option (List Item) :=
  (emitdesig tp (some np) 0).map Prod.fst

end Scc.Cc1.StaticInit
