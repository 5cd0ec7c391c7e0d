import Mathlib.Data.List.GetD
import Scc.Cc1.TypeTable

/-!
# Redeclarations

The declarations of one identifier at file scope, with anything that happens to the
types between them. `redcl()` keeps one of the types that it is given; that is the
composite type exactly when the declarations are all or none of them functions
without a prototype and the first type already says what the later ones say.
-/

namespace Scc.Cc1.Redeclaration

open Scc.Lib Scc.Lib.Run Scc.Cc1.Types

set_option autoImplicit false

inductive Sclass where
  | NOSCLASS
  | REGISTER
  | AUTO
  | EXTERN
  | STATIC
  | TYPEDEF
deriving DecidableEq

structure Flags where
  SDECLARED : Bool
  SEXTERN : Bool
  SGLOBAL : Bool
  SPRIVATE : Bool
  SEMITTED : Bool
  STYPEDEF : Bool
deriving DecidableEq

/-- A symbol; `typeiden` is the token `TYPEIDEN`. -/
structure Symbol where
  name : Name
  type : Nat
  typeiden : Bool
  flags : Flags
deriving DecidableEq

/-- `redcl()` at file scope; what is diagnosed is `none`. -/
def redcl (arch : Arch) (types : State) (sym : Symbol) (tp : Nat) (sclass : Sclass) :
    Option Symbol :=
  if !eqtype arch types.heap true types.count sym.type tp then none
  else
    let sym :=
      if !(types.heap sym.type).tk_r && (types.heap tp).tk_r then { sym with type := tp } else sym
    if sym.typeiden ≠ (sclass = .TYPEDEF) then none
    else
      let flags := sym.flags
      match sclass with
      | .REGISTER | .AUTO | .TYPEDEF => none
      | .NOSCLASS =>
        if flags.SPRIVATE then none
        else
          let flags :=
            if flags.SEXTERN then { flags with SEXTERN := false, SEMITTED := false } else flags
          some { sym with flags := { flags with SGLOBAL := true } }
      | .EXTERN => some sym
      | .STATIC =>
        if flags.SGLOBAL || flags.SEXTERN then none
        else some { sym with flags := { flags with SPRIVATE := true } }

/-- The first declaration of a symbol in `identifier()`. -/
def declared (types : State) (sym : Symbol) (tp : Nat) (sclass : Sclass) : Option Symbol :=
  let flags := { sym.flags with SDECLARED := true }
  let sym := { sym with type := tp }
  match sclass with
  | .REGISTER | .AUTO => none
  | .NOSCLASS =>
    if (types.heap tp).op = .FTN then some { sym with flags := { flags with SEXTERN := true } }
    else some { sym with flags := { flags with SGLOBAL := true } }
  | .EXTERN => some { sym with flags := { flags with SEXTERN := true } }
  | .STATIC => some { sym with flags := { flags with SPRIVATE := true } }
  | .TYPEDEF => some { sym with typeiden := true, flags := { flags with STYPEDEF := true } }

/-- `identifier()` at file scope; `initialized` says whether `=` comes next. -/
def identifier (arch : Arch) (types : State) (sym : Symbol) (tp : Nat) (sclass : Sclass)
    (initialized : Bool) : Option Symbol :=
  let type := types.heap tp
  let allowed := type.tdefined || sclass = .EXTERN || sclass = .TYPEDEF ||
    (type.op = .ARY && initialized)
  let sclass := if type.op = .FTN && sclass = .NOSCLASS then .EXTERN else sclass
  if !allowed then none
  else if type.op = .FTN && sym.name = "main".toList && type.type ≠ arch.inttype then none
  else if sym.name = "__func__".toList then none
  else if sym.flags.SDECLARED then redcl arch types sym tp sclass
  else declared types sym tp sclass

/-- An architecture; none of its basic types is a function. -/
structure Target extends Arch where
  plain : ∀ tp ∈ basics, tp.tk_r = false

def amd64 : Target where
  toArch := amd64_sysv
  plain := by decide

structure Scope where
  types : State
  sym : Symbol

inductive Item where
  /-- What other declarations and initializers do to the types. -/
  | types (event : Event)
  | declare (tp : Nat) (sclass : Sclass) (initialized : Bool)

def step (arch : Arch) (addr : Nat → Nat) (scope : Scope) : Item → Option Scope
  | .types event =>
    (Types.step arch addr scope.types event).map fun types => { scope with types := types }
  | .declare tp sclass initialized =>
    if tp < scope.types.count then
      (identifier arch scope.types scope.sym tp sclass initialized).map fun sym =>
        { scope with sym := sym }
    else none

def start (arch : Arch) (name : Name) : Scope where
  types := Types.start arch
  sym := ⟨name, 0, false, ⟨false, false, false, false, false, false⟩⟩

/-- The types that the symbol is declared with. -/
def given : List Item → List Nat
  | [] => []
  | .types _ :: rest => given rest
  | .declare tp _ _ :: rest => tp :: given rest

/-- A type says whatever a compatible type says: a size for a size, a prototype for a
prototype, at every depth. -/
inductive Absorbs : Sig → Sig → Prop where
  | same (s : Sig) : Absorbs s s
  | pointer {s t : Sig} (target : Absorbs s t) : Absorbs (.pointer s) (.pointer t)
  | array {s t : Sig} {elem elem' : Nat} (size : elem' = 0 ∨ elem' = elem) (element : Absorbs s t) :
      Absorbs (.array elem s) (.array elem' t)
  | function {s t : Sig} {pars pars' : List Sig} (parameters : List.Forall₂ Absorbs pars pars')
      (result : Absorbs s t) : Absorbs (.function pars s) (.function pars' t)
  | prototype {s t : Sig} {pars : List Sig} (result : Absorbs s t) :
      Absorbs (.function pars s) (.krfunction t)
  | krfunction {s t : Sig} (result : Absorbs s t) : Absorbs (.krfunction s) (.krfunction t)
  | members {op : Op} {letter : Char} {fields fields' : List (Option Name × Sig)}
      (names : fields.map Prod.fst = fields'.map Prod.fst)
      (types : List.Forall₂ Absorbs (fields.map Prod.snd) (fields'.map Prod.snd)) :
      Absorbs (.members op letter fields) (.members op letter fields')

/-- The type of the symbol is the composite type of its declarations. -/
def Composite (scope : Scope) (types : List Nat) : Prop :=
  ∀ tp ∈ types, Absorbs (sig scope.types.heap scope.sym.type) (sig scope.types.heap tp)

def isKr (scope : Scope) (tp : Nat) : Prop :=
  (scope.types.heap tp).op = .FTN ∧ (scope.types.heap tp).tk_r = true

/-- The first declaration says what the others say, and functions without a prototype
are not mixed with others. -/
def Complete (scope : Scope) : List Nat → Prop
  | [] => True
  | first :: rest =>
    ∀ tp ∈ rest, (isKr scope tp ↔ isKr scope first) ∧
      Absorbs (sig scope.types.heap first) (sig scope.types.heap tp)

/-- No type stops or begins to be a function with or without a prototype. -/
structure Kinds (types types' : State) : Prop where
  count : types.count ≤ types'.count
  op : ∀ id < types.count, (types'.heap id).op = (types.heap id).op
  kr : ∀ id < types.count, (types'.heap id).tk_r = (types.heap id).tk_r
  plain : (∀ id < types.count, (types.heap id).tk_r = true → (types.heap id).op = .FTN) →
    ∀ id < types'.count, (types'.heap id).tk_r = true → (types'.heap id).op = .FTN

theorem Kinds.same {types types' : State} (count : types'.count = types.count)
    (op : ∀ id, (types'.heap id).op = (types.heap id).op)
    (kr : ∀ id, (types'.heap id).tk_r = (types.heap id).tk_r) : Kinds types types' where
  count := Nat.le_of_eq count.symm
  op := fun id _ => op id
  kr := fun id _ => kr id
  plain := by
    intro plain id live isKr
    rw [kr id] at isKr
    rw [op id]
    exact plain id (by omega) isKr

theorem Kinds.trans {types types' types'' : State} (first : Kinds types types')
    (second : Kinds types' types'') : Kinds types types'' where
  count := Nat.le_trans first.count second.count
  op := fun id live => (second.op id (by have := first.count; omega)).trans (first.op id live)
  kr := fun id live => (second.kr id (by have := first.count; omega)).trans (first.kr id live)
  plain := fun plain => second.plain (first.plain plain)

theorem kinds_set {types : State} (id : Nat) {tp : TypeRec} (op : tp.op = (types.heap id).op)
    (kr : tp.tk_r = (types.heap id).tk_r) : Kinds types { types with heap := setType types.heap id tp } := by
  apply Kinds.same
  · rfl
  · intro other
    change (if other = id then tp else types.heap other).op = _
    split_ifs with here
    · rw [here, op]
    · rfl
  · intro other
    change (if other = id then tp else types.heap other).tk_r = _
    split_ifs with here
    · rw [here, kr]
    · rfl

theorem kinds_add {types : State} {tp : TypeRec} (plain : tp.tk_r = true → tp.op = .FTN) :
    Kinds types (addtype tp types) := by
  have old : ∀ id < types.count, (addtype tp types).heap id = types.heap id := by
    intro id live
    exact if_neg (Nat.ne_of_lt live)
  constructor
  · exact Nat.le_succ types.count
  · intro id live
    rw [old id live]
  · intro id live
    rw [old id live]
  · intro known id live isKr
    by_cases fresh : id = types.count
    · subst fresh
      rw [addtype_new] at isKr ⊢
      exact plain isKr
    · have before : id < types.count := by
        have bound : id < types.count + 1 := live
        omega
      rw [old id before] at isKr ⊢
      exact known id before isKr

theorem kinds_new (arch : Arch) (types : State) {base : TypeRec}
    (plain : base.tk_r = true → base.op = .FTN) : Kinds types (newtype arch base types) := by
  rcases newtype_eq arch base types with ⟨tp, shape, made⟩
  rw [made]
  apply kinds_add
  rw [shape.tk_r, shape.op]
  exact plain

theorem kinds_members (arch : Arch) (types : State) (id : Nat) (fields : List Field) :
    Kinds types (setmembers arch id fields types) := by
  have shape := deftype_shape arch types.heap
    { types.heap id with fields := fields, elem := fields.length }
  exact kinds_set id shape.op shape.tk_r

variable {arch : Arch} {tp : Nat} {addr : Nat → Nat} {scope : Scope} {sclass : Sclass}
  {sym sym' : Symbol}

theorem kinds_tag {op : Op} {tag : Tag} {types next : State}
    (made : mktag arch op tag types = some next) : Kinds types next := by
  unfold mktag at made
  split at made <;> cases made
  all_goals exact kinds_new arch _ (fun isKr => by cases isKr)

theorem described_plain {op : Op} {nelem : Nat} {pars : List Nat}
    {type : TypeRec} (described : describe arch tp op nelem pars = some type) :
    type.tk_r = true → type.op = .FTN := by
  unfold describe at described
  intro isKr
  split at described
  · split_ifs at described
    cases described
    cases isKr
  · cases described
    rfl
  · cases described
    rfl
  · cases described
    cases isKr
  · cases described

theorem kinds_intern (arch : Arch) (addr : Nat → Nat) {types : State} {type : TypeRec}
    (plain : type.tk_r = true → type.op = .FTN) : Kinds types (intern arch addr type types).2 := by
  have made := kinds_new arch types plain
  unfold intern
  simp only
  split
  · exact Kinds.same rfl (fun _ => rfl) fun _ => rfl
  · exact made.trans (Kinds.same rfl (fun _ => rfl) fun _ => rfl)

theorem kinds_step {types next : State} {event : Event}
    (stepped : Types.step arch addr types event = some next) : Kinds types next := by
  have unchanged : Kinds types types := Kinds.same rfl (fun _ => rfl) fun _ => rfl
  unfold Types.step at stepped
  cases event with
  | mktype call =>
    simp only at stepped
    split_ifs at stepped
    rcases Option.map_eq_some_iff.mp stepped with ⟨pair, performed, rfl⟩
    unfold Call.perform mktype at performed
    split_ifs at performed
    · cases performed
      exact unchanged
    · rcases Option.map_eq_some_iff.mp performed with ⟨type, described, rfl⟩
      exact kinds_intern arch addr (described_plain described)
  | tag op name => exact kinds_tag stepped
  | members id fields =>
    simp only at stepped
    split_ifs at stepped
    cases stepped
    exact kinds_members arch types id fields
  | anonymous op fields =>
    simp only at stepped
    split_ifs at stepped
    rcases Option.map_eq_some_iff.mp stepped with ⟨made, allocated, rfl⟩
    exact (kinds_tag allocated).trans (kinds_members arch made types.count fields)
  | complete id nelem =>
    simp only at stepped
    split_ifs at stepped
    cases stepped
    have shape := deftype_shape arch types.heap { types.heap id with elem := nelem }
    exact kinds_set id shape.op shape.tk_r
  | enter =>
    simp only at stepped
    split_ifs at stepped
    cases stepped
    exact Kinds.same rfl (fun _ => rfl) fun _ => rfl
  | flush =>
    simp only at stepped
    split_ifs at stepped
    rcases Option.map_eq_some_iff.mp stepped with ⟨flushed, done, rfl⟩
    unfold flushtypes at done
    rcases Option.map_eq_some_iff.mp done with ⟨typetab, _, rfl⟩
    exact Kinds.same rfl (fun _ => rfl) fun _ => rfl

/-- A symbol is declared with one of the types it was given, with the first one unless
a later one is the first function without a prototype. -/
structure Kept (scope : Scope) (first : Nat) (rest : List Nat) : Prop where
  seen : scope.sym.flags.SDECLARED = true
  live : ∀ tp ∈ first :: rest, tp < scope.types.count
  op : ∀ tp ∈ first :: rest, (scope.types.heap tp).op = (scope.types.heap first).op
  member : scope.sym.type ∈ first :: rest
  unmixed : (∀ tp ∈ rest, (scope.types.heap tp).tk_r = (scope.types.heap first).tk_r) →
    scope.sym.type = first
  kr : ∀ tp ∈ first :: rest, (scope.types.heap tp).tk_r = true →
    (scope.types.heap scope.sym.type).tk_r = true

/-- What holds of a symbol and the types that it was given. -/
structure Invariant (scope : Scope) (types : List Nat) : Prop where
  plain : ∀ id < scope.types.count,
    (scope.types.heap id).tk_r = true → (scope.types.heap id).op = .FTN
  unseen : types = [] → scope.sym.flags.SDECLARED = false
  kept : ∀ first rest, types = first :: rest → Kept scope first rest

theorem Kept.types {first : Nat} {rest : List Nat} (kept : Kept scope first rest)
    {types : State} (kinds : Kinds scope.types types) : Kept { scope with types := types } first rest := by
  have kr : ∀ tp ∈ first :: rest, (types.heap tp).tk_r = (scope.types.heap tp).tk_r :=
    fun tp member => kinds.kr tp (kept.live tp member)
  constructor
  · exact kept.seen
  · intro tp member
    exact Nat.lt_of_lt_of_le (kept.live tp member) kinds.count
  · intro tp member
    change (types.heap tp).op = (types.heap first).op
    rw [kinds.op tp (kept.live tp member), kinds.op first (kept.live first List.mem_cons_self)]
    exact kept.op tp member
  · exact kept.member
  · intro same
    apply kept.unmixed
    intro tp member
    rw [← kr tp (List.mem_cons_of_mem first member), ← kr first List.mem_cons_self]
    exact same tp member
  · intro tp member isKr
    change (types.heap scope.sym.type).tk_r = true
    change (types.heap tp).tk_r = true at isKr
    rw [kr _ kept.member]
    exact kept.kr tp member ((kr tp member).symm.trans isKr)

theorem redcl_spec {types : State} (accepted : redcl arch types sym tp sclass = some sym') :
    eqtype arch types.heap true types.count sym.type tp = true ∧ sym'.flags.SDECLARED = sym.flags.SDECLARED ∧
        sym'.type = if !(types.heap sym.type).tk_r && (types.heap tp).tk_r then tp else sym.type := by
  unfold redcl at accepted
  cases equal : eqtype arch types.heap true types.count sym.type tp with
  | false =>
    rw [equal] at accepted
    cases accepted
  | true =>
    rw [equal] at accepted
    simp only [Bool.not_true, Bool.false_eq_true, if_false] at accepted
    refine ⟨rfl, ?_⟩
    split_ifs at accepted ⊢ with mixed
    all_goals
      cases sclass <;> simp only [reduceCtorEq] at accepted
      all_goals
        try split_ifs at accepted
        all_goals
          cases accepted
          exact ⟨rfl, rfl⟩

theorem declared_spec {types : State} (accepted : declared types sym tp sclass = some sym') :
    sym'.flags.SDECLARED = true ∧ sym'.type = tp := by
  unfold declared at accepted
  cases sclass <;> simp only [reduceCtorEq] at accepted
  all_goals
    try split_ifs at accepted
    all_goals
      cases accepted
      exact ⟨rfl, rfl⟩

theorem identifier_spec {types : State} {initialized : Bool}
    (accepted : identifier arch types sym tp sclass initialized = some sym') : sym'.flags.SDECLARED = true ∧
      (sym.flags.SDECLARED = false → sym'.type = tp) ∧ (sym.flags.SDECLARED = true →
          eqtype arch types.heap true types.count sym.type tp = true ∧ sym'.type =
              if !(types.heap sym.type).tk_r && (types.heap tp).tk_r then tp else sym.type) := by
  unfold identifier at accepted
  simp only at accepted
  cases seen : sym.flags.SDECLARED with
  | true =>
    simp only [seen, if_true] at accepted
    split_ifs at accepted
    all_goals
      have spec := redcl_spec accepted
      refine ⟨spec.2.1.trans seen, ?_, fun _ => ⟨spec.1, spec.2.2⟩⟩
      intro unseen
      cases unseen
  | false =>
    simp only [seen, Bool.false_eq_true, if_false] at accepted
    split_ifs at accepted
    all_goals
      have spec := declared_spec accepted
      refine ⟨spec.1, fun _ => spec.2, ?_⟩
      intro isSeen
      cases isSeen

theorem eqtype_op {heap : Nat → TypeRec} {equiv : Bool} {fuel tp1 tp2 : Nat}
    (equal : eqtype arch heap equiv fuel tp1 tp2 = true) : (heap tp1).op = (heap tp2).op := by
  cases fuel with
  | zero => cases equal
  | succ fuel =>
    unfold eqtype at equal
    rw [Bool.or_eq_true, decide_eq_true_eq] at equal
    rcases equal with rfl | same
    · rfl
    · unfold eqrec at same
      by_contra different
      rw [if_pos different] at same
      cases same

theorem Kept.redeclare {first : Nat} {rest : List Nat} (kept : Kept scope first rest)
    (seen : sym.flags.SDECLARED = true) (live : tp < scope.types.count)
    (equal : eqtype arch scope.types.heap true scope.types.count scope.sym.type tp = true) (type : sym.type =
      if !(scope.types.heap scope.sym.type).tk_r && (scope.types.heap tp).tk_r then tp
      else scope.sym.type) : Kept { scope with sym := sym } first (rest ++ [tp]) := by
  have ofLast : ∀ other ∈ first :: (rest ++ [tp]), other ∈ first :: rest ∨ other = tp := by
    intro other member
    rw [← List.cons_append, List.mem_append, List.mem_singleton] at member
    exact member
  have last : tp ∈ first :: (rest ++ [tp]) := by simp
  have before : ∀ other ∈ first :: rest, other ∈ first :: (rest ++ [tp]) := by
    intro other member
    rw [← List.cons_append]
    exact List.mem_append_left [tp] member
  have sameOp : (scope.types.heap tp).op = (scope.types.heap first).op := by
    rw [← eqtype_op equal]
    exact kept.op _ kept.member
  constructor
  · exact seen
  · intro other member
    rcases ofLast other member with old | rfl
    · exact kept.live other old
    · exact live
  · intro other member
    rcases ofLast other member with old | rfl
    · exact kept.op other old
    · exact sameOp
  · change sym.type ∈ _
    rw [type]
    split_ifs
    · exact last
    · exact before _ kept.member
  · intro same
    change sym.type = first
    have old := kept.unmixed fun other member => same other (List.mem_append_left [tp] member)
    have equalKr := same tp (List.mem_append_right rest (List.mem_singleton_self tp))
    change (scope.types.heap tp).tk_r = (scope.types.heap first).tk_r at equalKr
    rw [type, old, equalKr, Bool.not_and_self]
    exact if_neg Bool.false_ne_true
  · intro other member isKr
    change (scope.types.heap sym.type).tk_r = true
    rw [type]
    split_ifs with takes
    · exact (Bool.and_eq_true_iff.mp takes).2
    · rcases ofLast other member with old | rfl
      · exact kept.kr other old isKr
      · change (scope.types.heap other).tk_r = true at isKr
        simpa [isKr] using takes

theorem step_invariant {scope next : Scope} {item : Item} {types : List Nat} (inv : Invariant scope types)
    (stepped : step arch addr scope item = some next) : Invariant next (types ++ given [item]) := by
  cases item with
  | types event =>
    rcases Option.map_eq_some_iff.mp stepped with ⟨made, happened, rfl⟩
    have kinds := kinds_step happened
    rw [given, given, List.append_nil]
    constructor
    · exact kinds.plain inv.plain
    · exact inv.unseen
    · intro first rest same
      exact (inv.kept first rest same).types kinds
  | declare tp sclass initialized =>
    simp only [step] at stepped
    split_ifs at stepped with live
    rcases Option.map_eq_some_iff.mp stepped with ⟨sym, accepted, rfl⟩
    have spec := identifier_spec accepted
    rw [given, given]
    refine ⟨inv.plain, fun none => by simp at none, ?_⟩
    intro first rest same
    cases types with
    | nil =>
      cases same
      have type := spec.2.1 (inv.unseen rfl)
      constructor
      · exact spec.1
      · intro other member
        rw [List.mem_singleton.mp member]
        exact live
      · intro other member
        rw [List.mem_singleton.mp member]
      · exact List.mem_singleton.mpr type
      · exact fun _ => type
      · intro other member isKr
        change (scope.types.heap sym.type).tk_r = true
        rw [List.mem_singleton.mp member] at isKr
        rw [type]
        exact isKr
    | cons first' rest' =>
      cases same
      have kept := inv.kept first rest' rfl
      have redeclared := spec.2.2 kept.seen
      exact kept.redeclare spec.1 live redeclared.1 redeclared.2

theorem run_given {scope final : Scope} {items : List Item} {types : List Nat} (inv : Invariant scope types)
    (done : run (step arch addr) scope items = some final) : Invariant final (types ++ given items) := by
  induction items generalizing scope types with
  | nil =>
    cases done
    rw [given, List.append_nil]
    exact inv
  | cons item rest ih =>
    rcases run_cons_some done with ⟨next, stepped, continued⟩
    have split : types ++ given (item :: rest) = (types ++ given [item]) ++ given rest := by
      cases item with
      | types event => simp [given]
      | declare tp sclass initialized => simp [given]
    rw [split]
    exact ih (step_invariant inv stepped) continued

theorem start_invariant (target : Target) (name : Name) : Invariant (start target.toArch name) [] where
  plain := by
    intro id live isKr
    change (target.basics.getD id _).tk_r = true at isKr
    rw [List.getD_eq_getElem _ _ live, target.plain _ (List.getElem_mem live)] at isKr
    cases isKr
  unseen := fun _ => rfl
  kept := fun _ _ same => by cases same

theorem absorbs_prototype {s t : Sig} {pars : List Sig} (absorbs : Absorbs s (.function pars t)) :
    ∃ pars' t', s = .function pars' t' := by
  cases absorbs with
  | same => exact ⟨_, _, rfl⟩
  | function parameters result => exact ⟨_, _, rfl⟩

theorem absorbs_size {s t : Sig} {elem : Nat} (absorbs : Absorbs s (.array elem t))
    (sized : elem ≠ 0) : ∃ t', s = .array elem t' := by
  cases absorbs with
  | same => exact ⟨_, rfl⟩
  | array size element =>
    rcases size with zero | rfl
    · exact absurd zero sized
    · exact ⟨_, rfl⟩

theorem Composite.says {types : List Nat} (composite : Composite scope types) (member : tp ∈ types) :
    (∀ pars t, sig scope.types.heap tp = .function pars t →
      ∃ pars' t', sig scope.types.heap scope.sym.type = .function pars' t') ∧
    (∀ elem t, elem ≠ 0 → sig scope.types.heap tp = .array elem t →
      ∃ t', sig scope.types.heap scope.sym.type = .array elem t') := by
  have absorbs := composite tp member
  constructor
  · intro pars t isFunction
    rw [isFunction] at absorbs
    exact absorbs_prototype absorbs
  · intro elem t sized isArray
    rw [isArray] at absorbs
    exact absorbs_size absorbs sized

theorem not_absorbs_kr {heap : Nat → TypeRec} {tp other : Nat} (op : (heap tp).op = .FTN)
    (isKr : (heap tp).tk_r = true) (op' : (heap other).op = .FTN) (notKr : (heap other).tk_r = false) :
    ¬ Absorbs (sig heap tp) (sig heap other) := by
  have kr : ∃ t, sig heap tp = .krfunction t := by
    exists sigFuel heap tp (heap tp).type
    change sigRec _ tp (heap tp) = _
    unfold sigRec
    rw [op]
    simp only [isKr, if_true]
  have prototype : ∃ pars t, sig heap other = .function pars t := by
    exists (heap other).pars.map (sigFuel heap other), sigFuel heap other (heap other).type
    change sigRec _ other (heap other) = _
    unfold sigRec
    rw [op']
    simp only [notKr, Bool.false_eq_true, if_false]
  rcases kr with ⟨t, isKr⟩
  rcases prototype with ⟨pars, t', isPrototype⟩
  rw [isKr, isPrototype]
  intro absorbs
  rcases absorbs_prototype absorbs with ⟨_, _, impossible⟩
  cases impossible

/-- After any declarations of an identifier at file scope that are not diagnosed, the
symbol has their composite type exactly when all or none of them are functions without
a prototype and the first one says what the others say. -/
theorem composite_iff (target : Target) (addr : Nat → Nat) (name : Name) {items : List Item}
    {scope : Scope} (done : run (step target.toArch addr) (start target.toArch name) items = some scope) :
    Composite scope (given items) ↔ Complete scope (given items) := by
  have inv := run_given (start_invariant target name) done
  rw [List.nil_append] at inv
  generalize given items = types at inv
  cases types with
  | nil => simp [Composite, Complete]
  | cons first rest =>
    have kept := inv.kept first rest rfl
    have krIff : ∀ tp ∈ first :: rest, ((scope.types.heap tp).tk_r = true ↔ isKr scope tp) := by
      intro tp member
      exact ⟨fun isKr => ⟨inv.plain tp (kept.live tp member) isKr, isKr⟩, fun isKr => isKr.2⟩
    have unmixed : (∀ tp ∈ rest, (isKr scope tp ↔ isKr scope first)) → scope.sym.type = first := by
      intro same
      apply kept.unmixed
      intro tp member
      rw [Bool.eq_iff_iff, krIff tp (List.mem_cons_of_mem first member), krIff first List.mem_cons_self]
      exact same tp member
    constructor
    · intro composite
      have allKr : ∀ tp ∈ first :: rest, isKr scope tp →
          ∀ other ∈ first :: rest, isKr scope other := by
        intro tp member kr other member'
        rw [← krIff other member']
        by_contra notKr
        have op : ∀ type ∈ first :: rest, (scope.types.heap type).op = .FTN := by
          intro type member''
          rw [kept.op type member'', ← kept.op tp member]
          exact kr.1
        exact not_absorbs_kr (op _ kept.member) (kept.kr tp member kr.2) (op other member')
          (by simpa using notKr) (composite other member')
      have same : ∀ tp ∈ rest, (isKr scope tp ↔ isKr scope first) := by
        intro tp member
        have inList := List.mem_cons_of_mem first member
        exact ⟨fun kr => allKr tp inList kr first List.mem_cons_self,
          fun kr => allKr first List.mem_cons_self kr tp inList⟩
      intro tp member
      have absorbs := composite tp (List.mem_cons_of_mem first member)
      rw [unmixed same] at absorbs
      exact ⟨same tp member, absorbs⟩
    · intro complete tp member
      rw [unmixed fun tp member => (complete tp member).1]
      rcases List.mem_cons.mp member with rfl | later
      · exact Absorbs.same _
      · exact (complete tp later).2

/-- Makes a type, declares the symbol with it, and once more. -/
def twice (first second : Call) (sclass : Sclass) : List Item := [
  .types (.mktype first), .declare 23 .EXTERN false, .types (.mktype second), .declare 24 sclass false]

/-- `extern int a[2]; extern int a[];`. -/
def sizeFirst : List Item :=
  twice ⟨inttype, .ARY, 2, []⟩ ⟨inttype, .ARY, 0, []⟩ .EXTERN

/-- `extern int a[]; int a[2];`. -/
def sizeLater : List Item :=
  twice ⟨inttype, .ARY, 0, []⟩ ⟨inttype, .ARY, 2, []⟩ .NOSCLASS

/-- `extern int f(int); extern int f();`. -/
def prototypeFirst : List Item :=
  twice ⟨inttype, .FTN, 1, [inttype]⟩ ⟨inttype, .KRFTN, 0, []⟩ .EXTERN

theorem size_first_composite :
    ∃ scope, run (step amd64.toArch staticAddr) (start amd64.toArch ['a']) sizeFirst = some scope ∧
      Composite scope (given sizeFirst) := by
  have sized : ∃ scope,
      run (step amd64.toArch staticAddr) (start amd64.toArch ['a']) sizeFirst = some scope ∧
        ((scope.types.heap 23).op = .ARY ∧ (scope.types.heap 24).op = .ARY) ∧
          sig scope.types.heap 23 = .array 2 (.arithmetic .INT 'W') ∧
            sig scope.types.heap 24 = .array 0 (.arithmetic .INT 'W') :=
    ⟨_, rfl, ⟨rfl, rfl⟩, rfl, rfl⟩
  rcases sized with ⟨scope, done, ⟨first, second⟩, two, sizeless⟩
  have notKr : ∀ tp, (scope.types.heap tp).op = .ARY → ¬ isKr scope tp := by
    intro tp isArray isFunction
    rw [isFunction.1] at isArray
    cases isArray
  have complete : Complete scope (given sizeFirst) := by
    intro tp member
    rw [List.mem_singleton.mp member]
    refine ⟨iff_of_false (notKr 24 second) (notKr 23 first), ?_⟩
    rw [two, sizeless]
    exact Absorbs.array (Or.inl rfl) (Absorbs.same _)
  exact ⟨scope, done, (composite_iff amd64 staticAddr ['a'] done).mpr complete⟩

/-- A prototype is given up for a later type without one, and a later size is lost. -/
theorem prototype_and_size_lost : (∃ scope,
      run (step amd64.toArch staticAddr) (start amd64.toArch ['f']) prototypeFirst = some scope ∧
        ¬ Composite scope (given prototypeFirst)) ∧
    ∃ scope, run (step amd64.toArch staticAddr) (start amd64.toArch ['a']) sizeLater = some scope ∧
      ¬ Composite scope (given sizeLater) := by
  have prototype : ∃ scope,
      run (step amd64.toArch staticAddr) (start amd64.toArch ['f']) prototypeFirst = some scope ∧
        (∃ t, sig scope.types.heap scope.sym.type = .krfunction t) ∧
          ∃ pars t, sig scope.types.heap 23 = .function pars t :=
    ⟨_, rfl, ⟨_, rfl⟩, ⟨_, _, rfl⟩⟩
  have size : ∃ scope,
      run (step amd64.toArch staticAddr) (start amd64.toArch ['a']) sizeLater = some scope ∧
        (∃ t, sig scope.types.heap scope.sym.type = .array 0 t) ∧
          ∃ t, sig scope.types.heap 24 = .array 2 t :=
    ⟨_, rfl, ⟨_, rfl⟩, ⟨_, rfl⟩⟩
  constructor
  · rcases prototype with ⟨scope, done, ⟨t, isKr⟩, pars, t', isPrototype⟩
    refine ⟨scope, done, ?_⟩
    intro composite
    have absorbs := composite 23 List.mem_cons_self
    rw [isKr, isPrototype] at absorbs
    cases absorbs
  · rcases size with ⟨scope, done, ⟨t, sizeless⟩, t', sized⟩
    refine ⟨scope, done, ?_⟩
    intro composite
    have absorbs := composite 24 (List.mem_cons_of_mem 23 List.mem_cons_self)
    rw [sizeless, sized] at absorbs
    rcases absorbs_size absorbs (by decide) with ⟨_, impossible⟩
    cases impossible

end Scc.Cc1.Redeclaration
