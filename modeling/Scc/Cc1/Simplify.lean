import Scc.Cc1.FoldRange

/-!
# Simplification

`simplify()` rewrites a tree from its leaves to its root. A constant is a node that points to a symbol,
and other nodes, other trees and the table of symbols may point to the same one: symbols are places in a
store that grows. The arithmetic of `foldint()`, `folduint()` and `foldfloat()` is a parameter, since
these write to a local symbol only.
-/

namespace Scc.Cc1.Simplify

open Scc.Cc1.FoldRange (ones)

set_option autoImplicit false

inductive TypeOp
  | FTN | PTR | ARY | KRFTN | VOID | FLOAT | INT | STRUCT | UNION | ENUM
deriving DecidableEq

/-- A type: `place` tells types apart that are the same in all else. -/
structure Ty where
  op : TypeOp
  size : Nat
  signed : Bool
  place : Nat
deriving DecidableEq

/-- A symbol with the flags `SCONSTANT` and `SFIELD`. -/
structure Symbol where
  type : Ty
  u : BitVec 64
  constant : Bool
  field : Bool
deriving DecidableEq

abbrev Store := List Symbol

/-- The symbol that a pointer points to. There is always one. -/
def symbol (store : Store) (i : Nat) : Symbol :=
  store.getD i ⟨⟨.VOID, 0, false, 0⟩, 0, false, false⟩

inductive Op
  | OADD | OMUL | OSUB | OINC | ODEC | ODIV | OMOD | OSHL | OSHR | OBAND | OBXOR | OBOR
  | OSNEG | ONEG | OCPL | OAND | OOR | OEQ | ONE | OLT | OGE | OLE | OGT
  | OASSIGN | OA_MUL | OA_DIV | OA_MOD | OA_ADD | OA_SUB | OA_SHL | OA_SHR | OA_AND | OA_XOR | OA_OR
  | OADDR | OCOMMA | OCAST | OPTR | OSYM | OASK | OCOLON | OFIELD | OPAR | OCALL | OCALLE | OBUILTIN
deriving DecidableEq

/-- A tree, with the flags `NCONST` and `NEFFECT` of its nodes. -/
inductive Node
  | null
  | node (op : Op) (type : Ty) (sym : Option Nat) (isConst effect : Bool) (left right : Node)
deriving DecidableEq

/-- What the functions for constants store in their result, `none` if they return 0, and the conversions
and the comparison of floating numbers. -/
structure Arith where
  foldint : Op → Ty → BitVec 64 → BitVec 64 → Option (BitVec 64)
  folduint : Op → Ty → BitVec 64 → BitVec 64 → Option (BitVec 64)
  foldfloat : Op → Ty → BitVec 64 → BitVec 64 → Option (BitVec 64)
  truncated : BitVec 64 → BitVec 64
  floating : Bool → BitVec 64 → BitVec 64
  equal : BitVec 64 → BitVec 64 → Bool

namespace Node

def isNull : Node → Bool
  | null => true
  | node .. => false

/-- The flags `NEFFECT` that a new node takes from a child. -/
def effects : Node → Bool
  | null => false
  | node _ _ _ _ effect _ _ => effect

def constSym : Node → Option Nat
  | node _ _ (some sym) true _ _ _ => some sym
  | _ => none

end Node

def mkNode (op : Op) (tp : Ty) (lp rp : Node) : Node :=
  .node op tp none false (lp.effects || rp.effects) lp rp

def constnode (tp : Ty) (sym : Nat) : Node := .node .OSYM tp (some sym) true false .null .null

/-- A new symbol and the constant that points to it. -/
def newconst (store : Store) (tp : Ty) (u : BitVec 64) : Store × Node :=
  (store ++ [⟨tp, u, true, false⟩], constnode tp store.length)

/-- The assertion is that the symbol is a field. -/
def offsetnode (store : Store) (field : Nat) (tp : Ty) : Option (Store × Node) :=
  if (symbol store field).field then some (newconst store tp (symbol store field).u) else none

section Code

variable (arith : Arith)

def cmpnode (store : Store) (np : Node) (val : BitVec 64) : Bool :=
  match np with
  | .node _ tp (some i) true _ _ _ =>
    let sym := symbol store i
    match sym.type.op with
    | .PTR | .INT =>
      let mask := if 1 < val then ones tp.size else -1
      sym.u &&& mask == val &&& mask
    | .FLOAT => arith.equal sym.u val
    | _ => false
  | _ => false

/-- The number of bits that are set in the lowest ones. -/
def bitsSet : Nat → Nat → Nat
  | 0, _ => 0
  | n + 1, u => u % 2 + bitsSet n (u / 2)

def power2node (store : Store) (np : Node) : Bool :=
  match np.constSym with
  | none => false
  | some i => (symbol store i).type.op == .INT && bitsSet 64 (symbol store i).u.toNat == 1

/-- `foldconst()` for the types of the left operand that `fold()` gives to it; it aborts for an ENUM with
a sign. -/
def foldconst (store : Store) (optype : Ty) (op : Op) (tp : Ty) (l r : BitVec 64) :
    Option (Option (Store × Node)) :=
  match optype.op, optype.signed with
  | .INT, true => some ((arith.foldint op tp l r).map (newconst store tp))
  | .INT, false | .ENUM, false | .PTR, _ => some ((arith.folduint op tp l r).map (newconst store tp))
  | .FLOAT, _ => some ((arith.foldfloat op tp l r).map (newconst store tp))
  | _, _ => none

/-- The number that a cast to an integer or a pointer stores. -/
def extended (newtp : Ty) (u : BitVec 64) : BitVec 64 :=
  let mask := ones newtp.size
  if newtp.signed then
    let negmask := ~~~mask
    if u &&& (negmask >>> 1) &&& mask ≠ 0 then u ||| negmask else u
  else u &&& mask

/-- A constant in place of a cast, or the cast. -/
def foldcast (store : Store) (np : Node) (newtp : Ty) (l : Node) : Store × Node :=
  match l with
  | .node _ oldtp (some i) true _ _ _ =>
    let osym := symbol store i
    match newtp.op with
    | .PTR | .INT | .ENUM =>
      match oldtp.op with
      | .PTR | .INT | .ENUM => newconst store newtp (extended newtp osym.u)
      | .FLOAT => newconst store newtp (extended newtp (arith.truncated osym.u))
      | _ => (store, np)
    | .FLOAT => newconst store newtp (arith.floating oldtp.signed osym.u)
    | _ => (store, np)
  | _ => (store, np)

def foldunary (store : Store) (np : Node) : Option (Store × Node) :=
  match np with
  | .null => none
  | .node op tp _ isConst _ l _ =>
    match l with
    | .null => none
    | .node lop _ _ _ _ ll lr =>
      match op with
      | .ONEG | .OSNEG | .OCPL => some (store, if lop = op then ll else np)
      | .OADD => some (store, l)
      | .OCAST => some (foldcast arith store np tp l)
      | .OPTR =>
        if lop = .OADDR then
          match ll with
          | .null => none
          | .node _ lltp .. => some (store, if tp = lltp then ll else np)
        else some (store, np)
      | .OADDR =>
        if lop = .OFIELD then
          match ll, lr with
          | .node llop _ _ _ _ lll _, .node _ _ (some field) _ _ _ _ =>
            (offsetnode store field tp).bind fun (store, offset) =>
              if llop = .OPTR then
                match lll with
                | .null => none
                | .node _ _ _ lllConst .. =>
                  some (store, .node .OADD tp none lllConst (lll.effects || offset.effects)
                    lll offset)
              else
                let addr := mkNode .OADDR tp ll .null
                some (store, .node .OADD tp none isConst (addr.effects || offset.effects) addr
                  offset)
          | _, _ => none
        else some (store, if lop = .OPTR then ll else np)
      | _ => some (store, np)

/-- What `fold()` makes of the operands of a node that it can fold. -/
def fold (store : Store) (np : Node) : Option (Store × Node) :=
  match np with
  | .null => none
  | .node op tp sym _ effect lp rp =>
    if lp.isNull && rp.isNull then some (store, np)
    else if (op = .ODIV ∨ op = .OMOD) ∧ cmpnode arith store rp 0 then some (store, np)
    else if !rp.isNull && rp.constSym.isNone then some (store, np)
    else
      match lp with
      | .null => none
      | .node _ optype (some ls) true _ _ _ =>
        let r := match rp.constSym with
          | none => 0
          | some rs => (symbol store rs).u
        folded op tp sym effect lp rp optype (symbol store ls).u r
      | _ => some (store, np)
where
  /-- The switch over the type of the left operand. -/
  folded (op : Op) (tp : Ty) (sym : Option Nat) (effect : Bool) (lp rp : Node) (optype : Ty)
      (l r : BitVec 64) : Option (Store × Node) :=
    match optype.op with
    | .ENUM | .INT | .PTR | .FLOAT =>
      (foldconst arith store optype op tp l r).map fun p =>
        p.getD (store, .node op tp sym false effect lp rp)
    | _ => some (store, np)

def negop : Op → Op
  | .OEQ => .ONE
  | .ONE => .OEQ
  | .OLT => .OGE
  | .OGE => .OLT
  | .OLE => .OGT
  | .OGT => .OLE
  | op => op

def commutative (np : Node) : Option Node :=
  match np with
  | .null => none
  | .node op tp sym isConst effect l r =>
    match l, r with
    | _, .null => some np
    | _, .node _ _ _ true _ _ _ => some np
    | .null, _ => none
    | .node _ _ _ false _ _ _, _ => some np
    | _, _ =>
      match op with
      | .OLT | .OGT | .OGE | .OLE => some (.node (negop op) tp sym isConst effect r l)
      | .OEQ | .ONE | .OADD | .OMUL | .OBAND | .OBXOR | .OBOR =>
        some (.node op tp sym isConst effect r l)
      | _ => some np

/-- The body of `associative()` behind its switch. -/
def regroup (store : Store) (op : Op) (tp : Ty) (sym : Option Nat) (isConst effect : Bool) (l r : Node) :
    Option (Store × Node) :=
  match l with
  | .null => none
  | .node lop ltp lsym lconst leffect ll lr =>
    if op ≠ lop then some (store, .node op tp sym isConst effect l r)
    else
      match lr with
      | .null => none
      | .node .OSYM _ (some i) _ _ _ _ =>
        if (symbol store i).constant then
          (fold arith store (.node lop ltp lsym lconst leffect r lr)).map fun (store, folded) =>
            (store, .node op tp sym isConst effect ll folded)
        else some (store, .node op tp sym isConst effect l r)
      | .node .OSYM _ none _ _ _ _ => none
      | _ => some (store, .node op tp sym isConst effect l r)

def associative (store : Store) (np : Node) : Option (Store × Node) :=
  match np with
  | .null => none
  | .node op tp sym isConst effect l r =>
    match op with
    | .OADD | .OMUL | .OBAND | .OBXOR | .OBOR => regroup arith store op tp sym isConst effect l r
    | _ => some (store, np)

def identity (store : Store) (np : Node) : Option Node :=
  match np with
  | .null => none
  | .node op tp sym isConst effect lp rp =>
    if rp.isNull then some np
    else
      let iszeror := cmpnode arith store rp 0
      let isoner := cmpnode arith store rp 1
      let iszerol := cmpnode arith store lp 0
      let isonel := cmpnode arith store lp 1
      let change_to_comma := Node.node .OCOMMA tp sym isConst effect lp rp
      match op with
      | .OOR =>
        if isonel || iszeror then some lp
        else if iszerol then some rp
        else if isoner then some change_to_comma
        else some np
      | .OAND =>
        if iszerol || isoner then some lp
        else if isonel then some rp
        else if iszeror then some change_to_comma
        else some np
      | .OSHL | .OSHR => if iszeror || iszerol then some lp else some np
      | .OBXOR | .OADD | .OBOR | .OSUB => if iszeror then some lp else some np
      | .OMUL => if iszeror then some change_to_comma else if isoner then some lp else some np
      | .ODIV => if isoner then some lp else some np
      | .OBAND => if cmpnode arith store rp (-1) then some lp else some np
      | .OMOD => if isoner then some change_to_comma else some np
      | _ => some np

def foldternary (store : Store) (np : Node) : Option Node :=
  match np with
  | .node _ _ _ _ _ cond body =>
    match cond with
    | .null => none
    | .node _ _ _ false _ _ _ => some np
    | .node _ _ _ true _ _ _ =>
      match body with
      | .null => none
      | .node _ _ _ _ _ yes no => some (if cmpnode arith store cond 0 then no else yes)
  | .null => none

/-- `rp->sym->u.u--`. -/
def decrement (store : Store) (i : Nat) : Store :=
  store.modify i fun sym => { sym with u := sym.u - 1 }

def reduce (store : Store) (np : Node) : Option (Store × Node) :=
  match np with
  | .null => none
  | .node .OMOD tp sym isConst effect lp rp =>
    if power2node store rp then
      rp.constSym.map fun i => (decrement store i, .node .OBAND tp sym isConst effect lp rp)
    else some (store, np)
  | _ => some (store, np)

/-- A call of `reduce()`: the symbols and the node that it finds. -/
abbrev Call := Store × Node

/-- What the simplification of a node leaves, and the calls of `reduce()` that it made. -/
structure Result where
  store : Store
  np : Node
  calls : List Call

/-- The branch of `xxsimplify()` for the operators with one operand. -/
def unaries (store : Store) (np right : Node) : Option Result :=
  if right.isNull then
    (foldunary arith store np).bind fun (store, np) =>
      (fold arith store np).map fun (store, np) => ⟨store, np, []⟩
  else none

def others (store : Store) (np : Node) : Option Result :=
  (commutative np).bind fun np =>
    (associative arith store np).bind fun (store, np) =>
      (fold arith store np).bind fun (store, np) =>
        (identity arith store np).bind fun np =>
          (reduce store np).map fun (store', np') => ⟨store', np', [(store, np)]⟩

/-- The switch of `xxsimplify()`. `INC` and `DEC` are tokens, and no operator has their value. -/
def switch (store : Store) (np : Node) : Option Result :=
  match np with
  | .null => none
  | .node op _ _ _ _ _ right =>
    match op with
    | .OASK => (foldternary arith store np).map fun np => ⟨store, np, []⟩
    | .OCALL | .OPAR | .OSYM | .OASSIGN | .OA_MUL | .OA_DIV | .OA_MOD | .OA_ADD | .OA_SUB | .OA_SHL
    | .OA_SHR | .OA_AND | .OA_XOR | .OA_OR => some ⟨store, np, []⟩
    | .OSNEG | .OCPL | .OADDR | .OPTR | .OCAST | .ONEG => unaries arith store np right
    | _ => others arith store np

def Node.op? : Node → Option Op
  | .null => none
  | .node op .. => some op

/-- The loop of `xxsimplify()`, at most so many times. -/
def repeated : Nat → Store → Node → Option Result
  | 0, _, _ => none
  | times + 1, store, np =>
    (switch arith store np).bind fun result =>
      match result.np.op? with
      | none => none
      | some op =>
        if np.op? ≠ some op then
          (repeated times result.store result.np).map fun last =>
            { last with calls := result.calls ++ last.calls }
        else some result

def simplify (times : Nat) (store : Store) : Node → Option Result
  | .null => some ⟨store, .null, []⟩
  | .node op tp sym isConst effect left right =>
    (simplify times store left).bind fun l =>
      (simplify times l.store right).bind fun r =>
        (repeated arith times r.store (.node op tp sym isConst effect l.np r.np)).map fun last =>
          { last with calls := l.calls ++ r.calls ++ last.calls }

end Code

/-- The first `n` symbols are the same. -/
def Same (n : Nat) (store store' : Store) : Prop := ∀ i < n, store'[i]? = store[i]?

/-- The call makes a mask of a remainder whose divisor is one of the first `n` symbols. -/
def clobbers (n : Nat) : Call → Bool
  | (store, .node .OMOD _ _ _ _ _ rp) => power2node store rp && rp.constSym.any (· < n)
  | _ => false

/-- What some calls of `reduce()` do to the first `n` symbols: no value grows, and all are the same if and
only if no call clobbers one. -/
structure Evolves (n : Nat) (store : Store) (calls : List Call) (store' : Store) : Prop where
  fits : n ≤ store.length
  longer : store.length ≤ store'.length
  below : ∀ i < n, ∀ sym, store[i]? = some sym → ∃ u ≤ sym.u, store'[i]? = some { sym with u := u }
  exact : Same n store store' ↔ ∀ call ∈ calls, clobbers n call = false

variable {n : Nat} {store store' : Store}

theorem Same.trans {store store' store'' : Store} (first : Same n store store')
    (second : Same n store' store'') : Same n store store'' :=
  fun i below => (second i below).trans (first i below)

theorem same_prefix (fits : n ≤ store.length) (grows : store <+: store') : Same n store store' := by
  intro i below
  rcases grows with ⟨new, rfl⟩
  exact List.getElem?_append_left (Nat.lt_of_lt_of_le below fits)

theorem same_below (same : Same n store store') :
    ∀ i < n, ∀ sym, store[i]? = some sym → ∃ u ≤ sym.u, store'[i]? = some { sym with u := u } := by
  intro i below sym known
  exact ⟨sym.u, BitVec.le_refl _, (same i below).trans known⟩

theorem Evolves.same {calls : List Call} (fits : n ≤ store.length)
    (grows : store <+: store') (spared : ∀ call ∈ calls, clobbers n call = false) :
    Evolves n store calls store' := by
  have same := same_prefix fits grows
  exact ⟨fits, grows.length_le, same_below same, iff_of_true same spared⟩

theorem Evolves.trans {store store' store'' : Store} {calls calls' : List Call}
    (first : Evolves n store calls store') (second : Evolves n store' calls' store'') :
    Evolves n store (calls ++ calls') store'' := by
  have falls : ∀ i < n, ∀ sym, store[i]? = some sym → ∃ u ≤ sym.u, ∃ u' ≤ u,
      store'[i]? = some { sym with u := u } ∧ store''[i]? = some { sym with u := u' } := by
    intro i below sym known
    have ⟨u, less, middle⟩ := first.below i below sym known
    have ⟨u', less', last⟩ := second.below i below _ middle
    exact ⟨u, less, u', less', middle, last⟩
  have parts : Same n store store'' ↔ Same n store store' ∧ Same n store' store'' := by
    constructor
    · intro same
      have middle : Same n store store' := by
        intro i below
        have ⟨sym, known⟩ : ∃ sym, store[i]? = some sym :=
          ⟨_, List.getElem?_eq_getElem (Nat.lt_of_lt_of_le below first.fits)⟩
        have ⟨u, less, u', less', middle, last⟩ := falls i below sym known
        have kept := congrArg (Option.map Symbol.u) (last.symm.trans ((same i below).trans known))
        have equal : u' = sym.u := Option.some.inj kept
        rw [middle, known, BitVec.le_antisymm less (equal ▸ less')]
      exact ⟨middle, fun i below => (same i below).trans (middle i below).symm⟩
    · rintro ⟨one, two⟩
      exact one.trans two
  refine ⟨first.fits, Nat.le_trans first.longer second.longer, ?_, ?_⟩
  · intro i below sym known
    have ⟨u, less, u', less', _, last⟩ := falls i below sym known
    exact ⟨u', BitVec.le_trans less' less, last⟩
  · rw [parts, first.exact, second.exact, List.forall_mem_append]

theorem newconst_grows (store : Store) (tp : Ty) (u : BitVec 64) : store <+: (newconst store tp u).1 :=
  List.prefix_append _ _

theorem offsetnode_grows {field : Nat} {tp : Ty} {p : Store × Node}
    (known : offsetnode store field tp = some p) : store <+: p.1 := by
  unfold offsetnode at known
  split_ifs at known
  cases known
  exact newconst_grows store tp _

section Grows

variable {arith : Arith} {store : Store} {np : Node} {p : Store × Node}

theorem foldcast_grows (newtp : Ty) (l : Node) : store <+: (foldcast arith store np newtp l).1 := by
  unfold foldcast
  split
  · split <;> (try split) <;> first | exact newconst_grows _ _ _ | exact List.prefix_rfl
  · exact List.prefix_rfl

theorem foldunary_grows (known : foldunary arith store np = some p) : store <+: p.1 := by
  revert known
  fun_cases foldunary arith store np with
  | case1 | case2 | case8 | case12 =>
    intro known
    cases known
  | case7 =>
    intro known
    cases known
    exact foldcast_grows _ _
  | case11 =>
    intro known
    have ⟨made, offset, rest⟩ := Option.bind_eq_some_iff.mp known
    have grows := offsetnode_grows offset
    dsimp only at rest
    split_ifs at rest
    · split at rest
      · cases rest
      · cases rest
        exact grows
    · cases rest
      exact grows
  | _ =>
    intro known
    cases known
    exact List.prefix_rfl

variable {op : Op}

theorem foldconst_grows {optype tp : Ty} {l r : BitVec 64} {made : Option (Store × Node)}
    (known : foldconst arith store optype op tp l r = some made) (other : Node) :
    store <+: (made.getD (store, other)).1 := by
  have grows (u : Option (BitVec 64)) :
      store <+: ((u.map (newconst store tp)).getD (store, other)).1 := by
    cases u with
    | none => exact List.prefix_rfl
    | some u => exact newconst_grows store tp u
  revert known
  fun_cases foldconst arith store optype op tp l r with
  | case1 | case2 | case3 | case4 | case5 =>
    intro known
    cases known
    exact grows _
  | case6 =>
    intro known
    cases known

theorem folded_grows {tp optype : Ty} {sym : Option Nat} {effect : Bool} {lp rp : Node}
    {l r : BitVec 64} (known : fold.folded arith store np op tp sym effect lp rp optype l r = some p) :
    store <+: p.1 := by
  revert known
  fun_cases fold.folded arith store np op tp sym effect lp rp optype l r with
  | case1 | case2 | case3 | case4 =>
    intro known
    have ⟨made, first, rest⟩ := Option.map_eq_some_iff.mp known
    subst rest
    exact foldconst_grows first _
  | case5 =>
    intro known
    cases known
    exact List.prefix_rfl

theorem fold_grows (known : fold arith store np = some p) : store <+: p.1 := by
  revert known
  fun_cases fold arith store np with
  | case1 | case5 =>
    intro known
    cases known
  | case6 => exact folded_grows
  | _ =>
    intro known
    cases known
    exact List.prefix_rfl

theorem regroup_grows {tp : Ty} {sym : Option Nat} {isConst effect : Bool} {l r : Node}
    (known : regroup arith store op tp sym isConst effect l r = some p) : store <+: p.1 := by
  revert known
  fun_cases regroup arith store op tp sym isConst effect l r with
  | case1 | case3 | case6 =>
    intro known
    cases known
  | case2 | case5 | case7 =>
    intro known
    cases known
    exact List.prefix_rfl
  | case4 =>
    intro known
    have ⟨made, folds, same⟩ := Option.map_eq_some_iff.mp known
    have grows := fold_grows folds
    subst same
    exact grows

theorem associative_grows (known : associative arith store np = some p) : store <+: p.1 := by
  revert known
  fun_cases associative arith store np with
  | case1 =>
    intro known
    cases known
  | case2 | case3 | case4 | case5 | case6 => exact regroup_grows
  | case7 =>
    intro known
    cases known
    exact List.prefix_rfl

end Grows

theorem power2node_positive {np : Node} (power : power2node store np = true) :
    ∃ i sym, np.constSym = some i ∧ store[i]? = some sym ∧ sym.u ≠ 0 := by
  unfold power2node at power
  cases const : np.constSym with
  | none =>
    rw [const] at power
    cases power
  | some i =>
    rw [const] at power
    dsimp only at power
    rw [Bool.and_eq_true] at power
    cases place : store[i]? with
    | none =>
      rw [symbol, List.getD_eq_getElem?_getD, place] at power
      exact absurd power.1 (by decide)
    | some sym =>
      refine ⟨i, sym, rfl, place, ?_⟩
      intro zero
      rw [symbol, List.getD_eq_getElem?_getD, place, Option.getD_some, zero] at power
      exact absurd power.2 (by decide)

theorem decrement_evolves {n i : Nat} {sym : Symbol} {call : Call}
    (fits : n ≤ store.length) (place : store[i]? = some sym) (nonzero : sym.u ≠ 0)
    (clobbered : clobbers n call = decide (i < n)) : Evolves n store [call] (decrement store i) := by
  have changed : (decrement store i)[i]? = some { sym with u := sym.u - 1 } := by
    rw [decrement, List.getElem?_modify_eq, place]
    rfl
  have kept {j : Nat} (other : i ≠ j) : (decrement store i)[j]? = store[j]? := by
    rw [decrement, List.getElem?_modify_ne _ _ other]
  have less : sym.u - 1 < sym.u := by
    have positive : sym.u.toNat ≠ 0 := fun zero => nonzero (BitVec.eq_of_toNat_eq zero)
    bv_omega
  refine ⟨fits, ?_, ?_, ?_⟩
  · rw [decrement, List.length_modify]
  · intro j below s known
    by_cases same : i = j
    · subst same
      rw [place] at known
      cases known
      exact ⟨sym.u - 1, BitVec.le_of_lt less, changed⟩
    · exact ⟨s.u, BitVec.le_refl _, (kept same).trans known⟩
  · rw [List.forall_mem_singleton, clobbered, decide_eq_false_iff_not]
    constructor
    · intro same below
      have equal := (same i below).symm.trans changed
      rw [place] at equal
      have values : sym.u = sym.u - 1 := congrArg Symbol.u (Option.some.inj equal)
      rw [← values] at less
      exact BitVec.lt_irrefl _ less
    · intro outside j below
      apply kept
      omega

theorem reduce_evolves {np : Node} {p : Store × Node}
    (fits : n ≤ store.length) (known : reduce store np = some p) : Evolves n store [(store, np)] p.1 := by
  revert known
  fun_cases reduce store np with
  | case1 =>
    intro known
    cases known
  | case2 tp sym isConst effect lp rp power =>
    intro known
    have ⟨i, const, same⟩ := Option.map_eq_some_iff.mp known
    subst same
    have ⟨j, s, const', place, nonzero⟩ := power2node_positive power
    rw [const] at const'
    cases const'
    apply decrement_evolves fits place nonzero
    rw [clobbers, power, const]
    rfl
  | case3 tp sym isConst effect lp rp power =>
    intro known
    cases known
    apply Evolves.same fits List.prefix_rfl
    rw [List.forall_mem_singleton, clobbers, eq_false_of_ne_true power]
    rfl
  | case4 np nonnull other =>
    intro known
    cases known
    apply Evolves.same fits List.prefix_rfl
    rw [List.forall_mem_singleton]
    unfold clobbers
    split
    · next same =>
      cases same
      exact absurd rfl (other _ _ _ _ _ _)
    · rfl

section Runs

variable {arith : Arith} {n : Nat} {store : Store} {np : Node} {result : Result}

theorem unaries_evolves {right : Node} (fits : n ≤ store.length)
    (known : unaries arith store np right = some result) : Evolves n store result.calls result.store := by
  unfold unaries at known
  split_ifs at known
  have ⟨p, unary, rest⟩ := Option.bind_eq_some_iff.mp known
  have ⟨q, folds, same⟩ := Option.map_eq_some_iff.mp rest
  subst same
  have grows := (foldunary_grows unary).trans (fold_grows folds)
  exact Evolves.same fits grows (List.forall_mem_nil _)

theorem others_evolves (fits : n ≤ store.length) (known : others arith store np = some result) :
    Evolves n store result.calls result.store := by
  have ⟨swapped, _, rest⟩ := Option.bind_eq_some_iff.mp known
  have ⟨p, grouped, rest⟩ := Option.bind_eq_some_iff.mp rest
  have ⟨q, folds, rest⟩ := Option.bind_eq_some_iff.mp rest
  have ⟨simple, _, rest⟩ := Option.bind_eq_some_iff.mp rest
  have ⟨r, reduced, same⟩ := Option.map_eq_some_iff.mp rest
  subst same
  have grows := (associative_grows grouped).trans (fold_grows folds)
  have first : Evolves n store [] q.1 := Evolves.same fits grows (List.forall_mem_nil _)
  exact first.trans (reduce_evolves (Nat.le_trans fits grows.length_le) reduced)

theorem switch_evolves (fits : n ≤ store.length) (known : switch arith store np = some result) :
    Evolves n store result.calls result.store := by
  have nothing (np : Node) (same : some (⟨store, np, []⟩ : Result) = some result) :
      Evolves n store result.calls result.store := by
    cases same
    exact Evolves.same fits List.prefix_rfl (List.forall_mem_nil _)
  unfold switch at known
  split at known
  · cases known
  · split at known
    · have ⟨chosen, _, same⟩ := Option.map_eq_some_iff.mp known
      exact nothing chosen (congrArg some same)
    all_goals first
      | exact nothing _ known
      | exact unaries_evolves fits known
      | exact others_evolves fits known

theorem repeated_evolves (times : Nat) (fits : n ≤ store.length)
    (known : repeated arith times store np = some result) : Evolves n store result.calls result.store := by
  induction times generalizing store np result with
  | zero => cases known
  | succ times ih =>
    have ⟨once, switched, rest⟩ := Option.bind_eq_some_iff.mp known
    have first := switch_evolves fits switched
    split at rest
    · cases rest
    · split_ifs at rest
      · have ⟨last, again, same⟩ := Option.map_eq_some_iff.mp rest
        subst same
        exact first.trans (ih (Nat.le_trans fits first.longer) again)
      · cases rest
        exact first

theorem simplify_evolves {times : Nat} (fits : n ≤ store.length)
    (known : simplify arith times store np = some result) : Evolves n store result.calls result.store := by
  induction np generalizing store result with
  | null =>
    cases known
    exact Evolves.same fits List.prefix_rfl (List.forall_mem_nil _)
  | node op tp sym isConst effect left right ihLeft ihRight =>
    have ⟨l, simplifiedLeft, rest⟩ := Option.bind_eq_some_iff.mp known
    have ⟨r, simplifiedRight, rest⟩ := Option.bind_eq_some_iff.mp rest
    have ⟨last, looped, same⟩ := Option.map_eq_some_iff.mp rest
    subst same
    have first := ihLeft fits simplifiedLeft
    have second := ihRight (Nat.le_trans fits first.longer) simplifiedRight
    have operands := first.trans second
    exact operands.trans (repeated_evolves times (Nat.le_trans fits operands.longer) looped)

/-- Simplification leaves the symbols that were there as they were if and only if no call of `reduce()`
clobbers one of them. -/
theorem simplify_frame (times : Nat) (known : simplify arith times store np = some result) :
    Same store.length store result.store ↔ ∀ call ∈ result.calls, clobbers store.length call = false :=
  (simplify_evolves (Nat.le_refl _) known).exact

end Runs

def unfolded : Arith := ⟨fun _ _ _ _ => none, fun _ _ _ _ => none, fun _ _ _ _ => none, id, fun _ u => u,
  fun u v => u == v⟩

def int : Ty := ⟨.INT, 4, true, 0⟩

/-- The enumerator 8, or what becomes of it, and a variable. -/
def symbols (u : BitVec 64) : Store := [⟨int, u, true, false⟩, ⟨int, 0, false, false⟩]

/-- The variable and the enumerator under an operator. -/
def operation (op : Op) : Node :=
  .node op int none false false (.node .OSYM int (some 1) false false .null .null) (constnode int 0)

/-- What is left of a remainder of the variable by the enumerator. -/
def masked : Result :=
  ⟨symbols 7, operation .OBAND, [(symbols 8, operation .OMOD), (symbols 7, operation .OBAND)]⟩

theorem enumerator_frame : Same 2 (symbols 8) masked.store ↔
    ∀ call ∈ masked.calls, clobbers 2 call = false := by
  have known : simplify unfolded 2 (symbols 8) (operation .OMOD) = some masked := rfl
  exact simplify_frame 2 known

/-- The enumerator 8 is 7 after a remainder by it. -/
theorem enumerator_clobbered :
    ¬ ∀ (arith : Arith) (times : Nat) (store : Store) (np : Node) (result : Result),
      simplify arith times store np = some result → Same store.length store result.store := by
  intro all
  have same := all unfolded 2 (symbols 8) (operation .OMOD) masked rfl
  have equal := same 0 (by decide)
  exact absurd equal (by decide)

end Scc.Cc1.Simplify
