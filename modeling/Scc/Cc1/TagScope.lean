import Scc.Cc1.TypeTable
import Mathlib.Data.List.Pairwise
import Mathlib.Data.List.TakeWhile

/-!
# Tags and blocks

The symbols of tags and members are on the list `head`, newest first. `newtag()`
takes the tag that `lookup()` finds, in whichever context it was declared, and a
member list then goes to the type of that tag. A specifier with a member list
declares a new type exactly when its tag is not found in an enclosing context, and
a block whose member lists all do so leaves the types and the tags around it as
they were.
-/

namespace Scc.Cc1.TagScope

open Scc.Lib.Run Scc.Cc1.Types

set_option autoImplicit false

def NR_BLOCK : Nat := 127
def NR_FIELDS : Nat := 1023
def NR_STRUCT_LEVEL : Nat := 63
def NR_MAXSTRUCTS : Nat := 127

/-- What a symbol stands for: a tag, or a member in the namespace of a structure. -/
inductive Kind where
  | tag (type : Nat)
  | member (structp : Nat)
deriving DecidableEq

structure Symbol where
  kind : Kind
  name : Option Name
  ctx : Nat
deriving DecidableEq

structure State where
  types : Types.State
  head : List Symbol
  /-- The structures whose member lists are being read, the innermost first. -/
  opened : List Nat
  curctx : Nat
  nrtags : Nat

inductive Event where
  /-- Other types: derived types, arrays completed in place, function bodies. -/
  | types (event : Types.Event)
  /-- A specifier without a list. -/
  | tag (op : Op) (name : Option Name)
  /-- A structure or union specifier up to `{`. -/
  | structdcl (op : Op) (name : Option Name)
  | field (name : Option Name) (tp : Nat)
  /-- The end of a member list. -/
  | endstruct
  | enumdcl (name : Option Name)
  | pushctx
  | popctx

def tagNamed (name : Name) (sym : Symbol) : Option (Nat × Nat) :=
  match sym.kind with
  | .tag type => if sym.name = some name then some (type, sym.ctx) else none
  | .member _ => none

/-- `lookup()` in `NS_TAG`: the type of the tag and its context. -/
def findtag (state : State) (name : Name) : Option (Nat × Nat) :=
  state.head.findSome? (tagNamed name)

/-- `newtag()`: the type and the context of the tag. A tag of another kind and too
many tags are errors. -/
def newtag (arch : Arch) (op : Op) (name : Option Name) (state : State) :
    Option (Nat × Nat × State) :=
  match name.bind (findtag state) with
  | some (type, ctx) =>
    if (state.types.heap type).op = op ∨ (state.types.heap type).op = .INT then
      some (type, ctx, state)
    else none
  | none =>
    if state.nrtags = NR_MAXSTRUCTS then none
    else
      (mktag arch op ⟨state.types.count, name⟩ state.types).map fun types =>
        (state.types.count, state.curctx, { state with
            types := types
            head := ⟨.tag state.types.count, name, state.curctx⟩ :: state.head
            nrtags := state.nrtags + 1 })

def setRecord (id : Nat) (tp : TypeRec) (state : State) : State :=
  { state with types := { state.types with heap := setType state.types.heap id tp } }

def define (arch : Arch) (id : Nat) (state : State) : State :=
  setRecord id (deftype arch state.types.heap (state.types.heap id)) state

/-- The part of `structdcl()` before the members. -/
def structdcl (arch : Arch) (op : Op) (name : Option Name) (state : State) : Option State :=
  (newtag arch op name state).bind fun (type, ctx, tagged) =>
    if (tagged.types.heap type).tdefined = true ∧ ctx = tagged.curctx then none
    else if tagged.opened.length = NR_STRUCT_LEVEL then none
    else some { tagged with opened := type :: tagged.opened }

/-- `enumdcl()`; a redefinition is diagnosed and continues. -/
def enumdcl (arch : Arch) (name : Option Name) (state : State) : Option State :=
  (newtag arch .ENUM name state).map fun (type, _, tagged) => define arch type tagged

def memberNamed (structp : Nat) (name : Name) (sym : Symbol) : Bool :=
  sym.kind = .member structp && sym.name = some name

/-- The member has been declared in this context. -/
def duplicated (state : State) (structp : Nat) (name : Name) : Bool :=
  ((state.head.find? (memberNamed structp name)).map Symbol.ctx) = some state.curctx

/-- The type of a member; what cannot be one is diagnosed and taken as `int`. -/
def fieldType (arch : Arch) (heap : Nat → TypeRec) (tp : Nat) : Nat :=
  let tp :=
    if (heap tp).tdefined || ((heap tp).op = .ARY && (heap tp).elem = 0) then tp
    else arch.inttype
  if (heap tp).op = .FTN then arch.inttype else tp

/-- `field()`, without the width of bit-fields. -/
def field (arch : Arch) (structp : Nat) (name : Option Name) (tp : Nat) (state : State) : State :=
  if name.any (duplicated state structp) then state
  else
    let record := state.types.heap structp
    let declared :=
      { state with head := ⟨.member structp, name, state.curctx⟩ :: state.head }
    if record.elem = NR_FIELDS then declared
    else
      setRecord structp
        { record with
          fields := record.fields ++ [⟨name, fieldType arch state.types.heap tp, 0⟩]
          elem := record.elem + 1 } declared

/-- `killsym()` on the types. -/
def killsym (heap : Nat → TypeRec) (sym : Symbol) : Nat → TypeRec :=
  match sym.kind with
  | .tag type => setType heap type { heap type with tdefined := false }
  | .member _ => heap

def popctx (state : State) : State :=
  { state with
    types := { state.types with
      heap := (state.head.takeWhile fun sym => sym.ctx = state.curctx).foldl killsym
        state.types.heap }
    head := state.head.dropWhile fun sym => sym.ctx = state.curctx
    curctx := state.curctx - 1 }

/-- The events of `Types` that are not about tags. -/
def tagless : Types.Event → Bool
  | .mktype _ | .complete _ _ | .enter | .flush => true
  | _ => false

def step (arch : Arch) (addr : Nat → Nat) (state : State) : Event → Option State
  | .types event =>
    if tagless event then
      (Types.step arch addr state.types event).map fun types => { state with types := types }
    else none
  | .tag op name => (newtag arch op name state).map fun (_, _, tagged) => tagged
  | .structdcl op name => if isAggregate op then structdcl arch op name state else none
  | .field name tp => state.opened.head?.map fun structp => field arch structp name tp state
  | .endstruct =>
    match state.opened with
    | [] => none
    | structp :: rest => some { define arch structp state with opened := rest }
  | .enumdcl name => enumdcl arch name state
  | .pushctx =>
    if state.curctx = NR_BLOCK then none else some { state with curctx := state.curctx + 1 }
  | .popctx => if state.curctx = 0 then none else some (popctx state)

def start (arch : Arch) : State := ⟨Types.start arch, [], [], 0, 0⟩

/-- The tag of a member list, where there is one already, is of this context. -/
def Local (state : State) (name : Option Name) : Prop :=
  ∀ type ctx, name.bind (findtag state) = some (type, ctx) → ctx = state.curctx

/-- The opened type is none of the types that the tags of enclosing contexts have. -/
def Distinct (state next : State) : Prop :=
  ∀ sym ∈ state.head, sym.ctx < state.curctx →
    ∀ type, next.opened.head? = some type → sym.kind ≠ .tag type

/-- In a block every member list belongs to a tag of its own context. -/
def Orderly (state : State) : Event → Prop
  | .structdcl _ name => Local state name
  | _ => True

/-- The event stays in the block that began in a state. -/
def Within (base state : State) : Event → Prop
  | .popctx => base.curctx + 1 < state.curctx
  | .field _ _ | .endstruct => base.opened.length < state.opened.length
  | _ => True

/-- The structures that a state knows have in a later one what they had. -/
def SameStructs (base state : State) : Prop :=
  ∀ id < base.types.count, isAggregate (base.types.heap id).op = true →
    state.types.heap id = base.types.heap id

/-- In a block that begins here the structures stay what they are, and after the
block the tags denote what they denoted. -/
def BlockFramed (arch : Arch) (addr : Nat → Nat) (base : State) : Prop :=
  ∀ body state,
    Meets (step arch addr) (fun reached event => Orderly reached event ∧ Within base reached event)
      base (.pushctx :: body) →
    run (step arch addr) base (.pushctx :: body) = some state →
    SameStructs base state ∧
      (state.curctx = base.curctx + 1 → ∀ after, step arch addr state .popctx = some after →
        SameStructs base after ∧ after.curctx = base.curctx ∧
          ∀ name, findtag after name = findtag base name)

/-- The symbols are in the order of their contexts, and no two tags share a type. -/
structure Invariant (state : State) : Prop where
  ctxs : ∀ sym ∈ state.head, sym.ctx ≤ state.curctx
  sorted : state.head.Pairwise fun newer older => older.ctx ≤ newer.ctx
  live : ∀ sym ∈ state.head, ∀ type, sym.kind = .tag type → type < state.types.count
  distinct : state.head.Pairwise fun newer older =>
    ∀ type, newer.kind = .tag type → older.kind ≠ .tag type

variable {arch : Arch} {addr : Nat → Nat} {state next : State}

variable {ctx type : Nat} {name : Option Name} {op : Op} {tagged base : State}

theorem findtag_mem {name : Name} (found : findtag state name = some (type, ctx)) :
    ∃ sym ∈ state.head, sym.kind = .tag type ∧ sym.ctx = ctx := by
  obtain ⟨sym, member, named⟩ := List.exists_of_findSome?_eq_some found
  unfold tagNamed at named
  refine ⟨sym, member, ?_⟩
  cases kind : sym.kind with
  | tag other =>
    simp only [kind] at named
    split_ifs at named
    cases named
    exact ⟨rfl, rfl⟩
  | member structp =>
    simp only [kind] at named
    cases named

/-- The tag that is declared when none is found. -/
def addtag (name : Option Name) (tp : TypeRec) (state : State) : State :=
  { state with
    types := addtype tp state.types
    head := ⟨.tag state.types.count, name, state.curctx⟩ :: state.head
    nrtags := state.nrtags + 1 }

theorem newtag_cases (made : newtag arch op name state = some (type, ctx, tagged)) :
    (name.bind (findtag state) = some (type, ctx) ∧ tagged = state ∧
        ((state.types.heap type).op = op ∨ (state.types.heap type).op = .INT)) ∨
      (name.bind (findtag state) = none ∧ type = state.types.count ∧ ctx = state.curctx ∧
        ∃ tp, tagged = addtag name tp state) := by
  unfold newtag at made
  cases found : name.bind (findtag state) with
  | some pair =>
    obtain ⟨type', ctx'⟩ := pair
    simp only [found] at made
    split_ifs at made with kind
    cases made
    exact Or.inl ⟨rfl, rfl, kind⟩
  | none =>
    simp only [found] at made
    split_ifs at made
    obtain ⟨types, allocated, result⟩ := Option.map_eq_some_iff.mp made
    obtain ⟨tp, _, _, _, _, rfl⟩ := mktag_eq allocated
    cases result
    exact Or.inr ⟨rfl, rfl, rfl, tp, rfl⟩

theorem tagless_frame {types types' : Types.State} {event : Types.Event}
    (other : tagless event = true) (stepped : Types.step arch addr types event = some types') :
    types.count ≤ types'.count ∧ ∀ id < types.count, isAggregate (types.heap id).op = true →
      types'.heap id = types.heap id := by
  cases event with
  | mktype call =>
    simp only [Types.step] at stepped
    split_ifs at stepped
    obtain ⟨⟨id, result⟩, performed, rfl⟩ := Option.map_eq_some_iff.mp stepped
    unfold Call.perform mktype at performed
    split_ifs at performed
    · cases performed
      exact ⟨Nat.le_refl _, fun _ _ _ => rfl⟩
    · obtain ⟨type, _, made⟩ := Option.map_eq_some_iff.mp performed
      unfold intern at made
      cases found : search arch types type (types.typetab (HASH addr type)) with
      | some bp =>
        simp only [found] at made
        cases made
        exact ⟨Nat.le_refl _, fun _ _ _ => rfl⟩
      | none =>
        simp only [found] at made
        cases made
        refine ⟨Nat.le_succ _, ?_⟩
        intro id live _
        have old : id ≠ types.count := Nat.ne_of_lt live
        simp [newtype, setType, old]
  | complete id nelem =>
    simp only [Types.step] at stepped
    split_ifs at stepped with allowed
    cases stepped
    refine ⟨Nat.le_refl _, ?_⟩
    intro id' _ aggregate
    simp only [Bool.and_eq_true, decide_eq_true_eq] at allowed
    have different : id' ≠ id := by
      rintro rfl
      rw [allowed.1.2] at aggregate
      cases aggregate
    simp [setType, different]
  | enter =>
    simp only [Types.step] at stepped
    split_ifs at stepped
    cases stepped
    exact ⟨Nat.le_refl _, fun _ _ _ => rfl⟩
  | flush =>
    simp only [Types.step] at stepped
    split_ifs at stepped
    obtain ⟨flushed, done, rfl⟩ := Option.map_eq_some_iff.mp stepped
    unfold flushtypes at done
    obtain ⟨typetab, _, rfl⟩ := Option.map_eq_some_iff.mp done
    exact ⟨Nat.le_refl _, fun _ _ _ => rfl⟩
  | tag op name => cases other
  | members id fields => cases other
  | anonymous op fields => cases other

theorem Invariant.addtag (inv : Invariant state) (name : Option Name) (tp : TypeRec) :
    Invariant (addtag name tp state) where
  ctxs := by
    intro sym member
    rcases List.mem_cons.mp member with rfl | old
    · exact Nat.le_refl _
    · exact inv.ctxs sym old
  sorted := List.pairwise_cons.mpr ⟨inv.ctxs, inv.sorted⟩
  live := by
    intro sym member type kind
    rcases List.mem_cons.mp member with rfl | old
    · cases kind
      exact Nat.lt_succ_self _
    · exact Nat.lt_succ_of_lt (inv.live sym old type kind)
  distinct := by
    refine List.pairwise_cons.mpr ⟨?_, inv.distinct⟩
    intro sym member type kind same
    cases kind
    exact Nat.lt_irrefl _ (inv.live sym member _ same)

theorem Invariant.newtag (inv : Invariant state)
    (made : newtag arch op name state = some (type, ctx, tagged)) : Invariant tagged := by
  rcases newtag_cases made with ⟨_, rfl, _⟩ | ⟨_, _, _, tp, rfl⟩
  · exact inv
  · exact inv.addtag name tp

theorem Invariant.congr (inv : Invariant state) (head : next.head = state.head)
    (curctx : next.curctx = state.curctx) (count : state.types.count ≤ next.types.count) :
    Invariant next := by
  refine ⟨?_, ?_, ?_, ?_⟩
  · rw [head, curctx]
    exact inv.ctxs
  · rw [head]
    exact inv.sorted
  · intro sym member type kind
    rw [head] at member
    exact Nat.lt_of_lt_of_le (inv.live sym member type kind) count
  · rw [head]
    exact inv.distinct

theorem field_head (arch : Arch) (state : State) (structp : Nat) (name : Option Name) (tp : Nat) :
    (field arch structp name tp state).types.count = state.types.count ∧
      (field arch structp name tp state).curctx = state.curctx ∧
        ((field arch structp name tp state).head = state.head ∨ (field arch structp name tp state).head =
            ⟨.member structp, name, state.curctx⟩ :: state.head) := by
  unfold field
  by_cases twice : name.any (duplicated state structp) = true
  · rw [if_pos twice]
    exact ⟨rfl, rfl, Or.inl rfl⟩
  · rw [if_neg twice]
    by_cases full : (state.types.heap structp).elem = NR_FIELDS
    · simp only [full, if_true]
      exact ⟨trivial, trivial, Or.inr trivial⟩
    · simp only [full, if_false]
      exact ⟨rfl, rfl, Or.inr rfl⟩

theorem Invariant.field (inv : Invariant state) (structp : Nat) (name : Option Name) (tp : Nat) :
    Invariant (field arch structp name tp state) := by
  obtain ⟨count, curctx, same | added⟩ := field_head arch state structp name tp
  · exact inv.congr same curctx (Nat.le_of_eq count.symm)
  · refine ⟨?_, ?_, ?_, ?_⟩
    · intro sym member
      rw [added] at member
      rw [curctx]
      rcases List.mem_cons.mp member with rfl | old
      · exact Nat.le_refl _
      · exact inv.ctxs sym old
    · rw [added]
      exact List.pairwise_cons.mpr ⟨inv.ctxs, inv.sorted⟩
    · intro sym member type kind
      rw [added] at member
      rw [count]
      rcases List.mem_cons.mp member with rfl | old
      · cases kind
      · exact inv.live sym old type kind
    · rw [added]
      refine List.pairwise_cons.mpr ⟨?_, inv.distinct⟩
      intro sym member type kind
      cases kind

theorem dropWhile_outer {head : List Symbol} (sorted : head.Pairwise fun newer older => older.ctx ≤ newer.ctx)
    (ctxs : ∀ sym ∈ head, sym.ctx ≤ ctx) :
    ∀ sym ∈ head.dropWhile fun sym => sym.ctx = ctx, sym.ctx < ctx := by
  induction head with
  | nil => exact fun sym member => by cases member
  | cons top rest ih =>
    have order := List.pairwise_cons.mp sorted
    have topBound := ctxs top List.mem_cons_self
    by_cases here : top.ctx = ctx
    · rw [List.dropWhile_cons_of_pos (by simpa using here)]
      exact ih order.2 fun sym member => ctxs sym (List.mem_cons_of_mem top member)
    · rw [List.dropWhile_cons_of_neg (by simpa using here)]
      intro sym member
      rcases List.mem_cons.mp member with rfl | old
      · omega
      · have older := order.1 sym old
        omega

theorem Invariant.popctx (inv : Invariant state) : Invariant (popctx state) := by
  have sublist : (TagScope.popctx state).head.Sublist state.head := List.dropWhile_sublist _
  refine ⟨?_, inv.sorted.sublist sublist, ?_, inv.distinct.sublist sublist⟩
  · intro sym member
    have outer := dropWhile_outer inv.sorted inv.ctxs sym member
    change sym.ctx ≤ state.curctx - 1
    omega
  · intro sym member
    exact inv.live sym (sublist.subset member)

theorem structdcl_opened (stepped : structdcl arch op name state = some next) :
    ∃ type ctx tagged, newtag arch op name state = some (type, ctx, tagged) ∧
      next = { tagged with opened := type :: tagged.opened } := by
  unfold structdcl at stepped
  obtain ⟨⟨type, ctx, tagged⟩, made, opened⟩ := Option.bind_eq_some_iff.mp stepped
  simp only at opened
  split_ifs at opened
  cases opened
  exact ⟨type, ctx, tagged, made, rfl⟩

theorem step_invariant (inv : Invariant state) {event : Event}
    (stepped : step arch addr state event = some next) : Invariant next := by
  cases event with
  | types event =>
    simp only [step] at stepped
    split_ifs at stepped with other
    obtain ⟨types, done, rfl⟩ := Option.map_eq_some_iff.mp stepped
    exact inv.congr rfl rfl (tagless_frame other done).1
  | tag op name =>
    obtain ⟨⟨type, ctx, tagged⟩, made, rfl⟩ := Option.map_eq_some_iff.mp stepped
    exact inv.newtag made
  | structdcl op name =>
    simp only [step] at stepped
    split_ifs at stepped
    obtain ⟨type, ctx, tagged, made, rfl⟩ := structdcl_opened stepped
    exact (inv.newtag made).congr rfl rfl (Nat.le_refl _)
  | field name tp =>
    obtain ⟨structp, _, rfl⟩ := Option.map_eq_some_iff.mp stepped
    exact inv.field structp name tp
  | endstruct =>
    cases opened : state.opened with
    | nil => simp [step, opened] at stepped
    | cons structp rest =>
      simp only [step, opened, Option.some.injEq] at stepped
      rw [← stepped]
      exact inv.congr rfl rfl (Nat.le_refl _)
  | enumdcl name =>
    obtain ⟨⟨type, ctx, tagged⟩, made, rfl⟩ := Option.map_eq_some_iff.mp stepped
    exact (inv.newtag made).congr rfl rfl (Nat.le_refl _)
  | pushctx =>
    simp only [step] at stepped
    split_ifs at stepped
    cases stepped
    exact ⟨fun sym member => Nat.le_succ_of_le (inv.ctxs sym member), inv.sorted, inv.live,
      inv.distinct⟩
  | popctx =>
    simp only [step] at stepped
    split_ifs at stepped
    cases stepped
    exact inv.popctx

theorem reached_invariant {events : List Event}
    (reached : run (step arch addr) (start arch) events = some state) : Invariant state := by
  apply run_preserves Invariant _ _ reached
  · intro _ _ _ inv stepped
    exact step_invariant inv stepped
  · constructor
    · intro _ member
      cases member
    · exact List.Pairwise.nil
    · intro _ member
      cases member
    · exact List.Pairwise.nil

/-- A member list declares a new type unless its tag is found further out. -/
theorem distinct_iff_local (inv : Invariant state)
    (stepped : step arch addr state (.structdcl op name) = some next) :
    Distinct state next ↔ Local state name := by
  simp only [step] at stepped
  split_ifs at stepped
  obtain ⟨type, ctx, tagged, made, rfl⟩ := structdcl_opened stepped
  rcases newtag_cases made with ⟨found, rfl, _⟩ | ⟨missing, rfl, rfl, tp, rfl⟩
  · have bound : ∃ declared, findtag tagged declared = some (type, ctx) := by
      obtain ⟨declared, _, isFound⟩ := Option.bind_eq_some_iff.mp found
      exact ⟨declared, isFound⟩
    obtain ⟨declared, isFound⟩ := bound
    obtain ⟨sym, member, kind, symCtx⟩ := findtag_mem isFound
    constructor
    · intro distinct type' ctx' found'
      rw [found] at found'
      cases found'
      by_contra further
      have inner := inv.ctxs sym member
      exact distinct sym member (by omega) type rfl kind
    · intro isLocal other inHead outer type' opened sameKind
      cases opened
      have ctxHere := isLocal type ctx found
      have same : other = sym := by
        by_contra different
        have symmetric : Std.Symm fun newer older : Symbol =>
            ∀ type, newer.kind = .tag type → older.kind ≠ .tag type :=
          ⟨fun _ _ apart type older newer => apart type newer older⟩
        exact inv.distinct.forall inHead member different type sameKind kind
      rw [same] at outer
      omega
  · constructor
    · intro _ type' ctx' found
      rw [missing] at found
      cases found
    · intro _ sym member _ type' opened kind
      cases opened
      exact Nat.lt_irrefl _ (inv.live sym member _ kind)

/-- In a block the symbols of the block lie above those of its beginning, and the
structures opened in it are new. -/
structure Inside (base state : State) : Prop where
  above : base.curctx < state.curctx
  count : base.types.count ≤ state.types.count
  head : ∃ young, state.head = young ++ base.head ∧ ∀ sym ∈ young,
    base.curctx < sym.ctx ∧ ∀ type, sym.kind = .tag type → base.types.count ≤ type
  opened : ∃ young, state.opened = young ++ base.opened ∧ ∀ type ∈ young,
    base.types.count ≤ type
  structs : SameStructs base state

theorem inside_cons (inside : Inside base state) {sym : Symbol} (above : base.curctx < sym.ctx)
    (new : ∀ type, sym.kind = .tag type → base.types.count ≤ type) :
    ∃ young, sym :: state.head = young ++ base.head ∧ ∀ sym ∈ young,
      base.curctx < sym.ctx ∧ ∀ type, sym.kind = .tag type → base.types.count ≤ type := by
  obtain ⟨young, head, inner⟩ := inside.head
  refine ⟨sym :: young, by rw [head, List.cons_append], ?_⟩
  intro other member
  rcases List.mem_cons.mp member with rfl | old
  · exact ⟨above, new⟩
  · exact inner other old

theorem inside_addtag (inside : Inside base state) (name : Option Name)
    (tp : TypeRec) : Inside base (addtag name tp state) := by
  refine ⟨inside.above, Nat.le_succ_of_le inside.count, ?_, inside.opened, ?_⟩
  · apply inside_cons inside inside.above
    intro type kind
    cases kind
    exact inside.count
  · intro id live aggregate
    have bound := inside.count
    have old : id ≠ state.types.count := by omega
    rw [← inside.structs id live aggregate]
    simp [addtag, addtype, setType, old]

theorem inside_newtag (inside : Inside base state)
        (made : newtag arch op name state = some (type, ctx, tagged)) : Inside base tagged := by
  rcases newtag_cases made with ⟨_, rfl, _⟩ | ⟨_, _, _, tp, rfl⟩
  · exact inside
  · exact inside_addtag inside name tp

theorem local_type (baseInv : Invariant base) (inside : Inside base state) (isLocal : Local state name)
    (made : newtag arch op name state = some (type, ctx, tagged)) : base.types.count ≤ type := by
  rcases newtag_cases made with ⟨found, _, _⟩ | ⟨_, rfl, _⟩
  · obtain ⟨declared, _, isFound⟩ := Option.bind_eq_some_iff.mp found
    obtain ⟨sym, member, kind, symCtx⟩ := findtag_mem isFound
    have here := isLocal type ctx found
    obtain ⟨young, head, inner⟩ := inside.head
    rw [head] at member
    rcases List.mem_append.mp member with isYoung | old
    · exact (inner sym isYoung).2 type kind
    · have outer := baseInv.ctxs sym old
      have above := inside.above
      omega
  · exact inside.count

theorem inside_setRecord (inside : Inside base state) {id : Nat} (tp : TypeRec)
    (apart : id < base.types.count → isAggregate (base.types.heap id).op = true → False) :
    Inside base (setRecord id tp state) := by
  refine ⟨inside.above, inside.count, inside.head, inside.opened, ?_⟩
  intro other live aggregate
  have different : other ≠ id := by
    rintro rfl
    exact apart live aggregate
  rw [← inside.structs other live aggregate]
  simp [setRecord, setType, different]

theorem inside_field (inside : Inside base state) {structp : Nat}
    (new : base.types.count ≤ structp) (name : Option Name) (tp : Nat) :
    Inside base (field arch structp name tp state) := by
  have declared : Inside base
      { state with head := ⟨.member structp, name, state.curctx⟩ :: state.head } := by
    refine ⟨inside.above, inside.count, ?_, inside.opened, inside.structs⟩
    apply inside_cons inside inside.above
    intro type kind
    cases kind
  unfold field
  by_cases twice : name.any (duplicated state structp) = true
  · rw [if_pos twice]
    exact inside
  · rw [if_neg twice]
    by_cases full : (state.types.heap structp).elem = NR_FIELDS
    · simp only [full, if_true]
      exact declared
    · simp only [full, if_false]
      apply inside_setRecord declared
      intro old _
      omega

theorem inside_opened (inside : Inside base state)
    (within : base.opened.length < state.opened.length) {structp : Nat} {rest : List Nat}
    (opened : state.opened = structp :: rest) : base.types.count ≤ structp ∧
      ∃ young, rest = young ++ base.opened ∧ ∀ type ∈ young, base.types.count ≤ type := by
  obtain ⟨young, split, new⟩ := inside.opened
  cases young with
  | nil =>
    rw [split, List.nil_append] at within
    exact absurd within (Nat.lt_irrefl _)
  | cons top below =>
    rw [opened, List.cons_append] at split
    cases split
    exact ⟨new structp List.mem_cons_self, below, rfl,
      fun type member => new type (List.mem_cons_of_mem structp member)⟩

theorem killsym_other {killed : List Symbol} {id : Nat} {heap : Nat → TypeRec}
    (apart : ∀ sym ∈ killed, sym.kind ≠ .tag id) : killed.foldl killsym heap id = heap id := by
  induction killed generalizing heap with
  | nil => rfl
  | cons sym rest ih =>
    have later := fun other member => apart other (List.mem_cons_of_mem sym member)
    have first := apart sym List.mem_cons_self
    rw [List.foldl_cons, ih later]
    unfold killsym
    cases kind : sym.kind with
    | tag type =>
      have different : id ≠ type := by
        rintro rfl
        exact first kind
      simp [setType, different]
    | member structp => rfl

theorem popctx_structs (baseInv : Invariant base) (inside : Inside base state) :
    SameStructs base (popctx state) := by
  intro id live aggregate
  rw [← inside.structs id live aggregate]
  apply killsym_other
  intro sym member kind
  obtain ⟨young, head, inner⟩ := inside.head
  have inHead : sym ∈ state.head := (List.takeWhile_sublist _).subset member
  have here : sym.ctx = state.curctx := by simpa using List.mem_takeWhile_imp member
  rw [head] at inHead
  rcases List.mem_append.mp inHead with isYoung | old
  · have new := (inner sym isYoung).2 id kind
    omega
  · have outer := baseInv.ctxs sym old
    have above := inside.above
    omega

theorem popctx_head (baseInv : Invariant base) (inside : Inside base state)
    {young : List Symbol} (head : state.head = young ++ base.head) :
    (popctx state).head = (young.dropWhile fun sym => sym.ctx = state.curctx) ++ base.head := by
  have stops : (base.head.dropWhile fun sym => sym.ctx = state.curctx) = base.head := by
    cases outer : base.head with
    | nil => rfl
    | cons top rest =>
      have bound := baseInv.ctxs top (by rw [outer]; exact List.mem_cons_self)
      have above := inside.above
      apply List.dropWhile_cons_of_neg
      simp
      omega
  change (state.head.dropWhile fun sym => sym.ctx = state.curctx) = _
  rw [head, List.dropWhile_append, stops]
  split_ifs with empty
  · rw [List.isEmpty_iff.mp empty, List.nil_append]
  · rfl

theorem inside_step (baseInv : Invariant base) (inside : Inside base state)
    {event : Event} (orderly : Orderly state event) (within : Within base state event)
    (stepped : step arch addr state event = some next) : Inside base next := by
  cases event with
  | types event =>
    simp only [step] at stepped
    split_ifs at stepped with other
    obtain ⟨types, done, rfl⟩ := Option.map_eq_some_iff.mp stepped
    have frame := tagless_frame other done
    refine ⟨inside.above, Nat.le_trans inside.count frame.1, inside.head, inside.opened, ?_⟩
    intro id live aggregate
    have same := inside.structs id live aggregate
    change types.heap id = base.types.heap id
    rw [← same]
    apply frame.2 id (Nat.lt_of_lt_of_le live inside.count)
    rw [same]
    exact aggregate
  | tag op name =>
    obtain ⟨⟨type, ctx, tagged⟩, made, rfl⟩ := Option.map_eq_some_iff.mp stepped
    exact inside_newtag inside made
  | structdcl op name =>
    simp only [step] at stepped
    split_ifs at stepped
    obtain ⟨type, ctx, tagged, made, rfl⟩ := structdcl_opened stepped
    have new := local_type baseInv inside orderly made
    have tagInside := inside_newtag inside made
    refine ⟨tagInside.above, tagInside.count, tagInside.head, ?_, tagInside.structs⟩
    obtain ⟨young, split, isNew⟩ := tagInside.opened
    refine ⟨type :: young, by rw [split, List.cons_append], ?_⟩
    intro other member
    rcases List.mem_cons.mp member with rfl | old
    · exact new
    · exact isNew other old
  | field name tp =>
    obtain ⟨structp, top, rfl⟩ := Option.map_eq_some_iff.mp stepped
    obtain ⟨rest, opened⟩ := List.head?_eq_some_iff.mp top
    exact inside_field inside (inside_opened inside within opened).1 name tp
  | endstruct =>
    cases opened : state.opened with
    | nil => simp [step, opened] at stepped
    | cons structp rest =>
      simp only [step, opened, Option.some.injEq] at stepped
      obtain ⟨new, young⟩ := inside_opened inside within opened
      have defined := inside_setRecord inside
        (deftype arch state.types.heap (state.types.heap structp))
        fun old _ => Nat.not_lt.mpr new old
      rw [← stepped]
      exact ⟨defined.above, defined.count, defined.head, young, defined.structs⟩
  | enumdcl name =>
    obtain ⟨⟨type, ctx, tagged⟩, made, rfl⟩ := Option.map_eq_some_iff.mp stepped
    have tagInside := inside_newtag inside made
    apply inside_setRecord tagInside
    intro old aggregate
    rcases newtag_cases made with ⟨_, rfl, kind⟩ | ⟨_, rfl, _⟩
    · rw [inside.structs type old aggregate] at kind
      rcases kind with isEnum | isInt
      · rw [isEnum] at aggregate
        cases aggregate
      · rw [isInt] at aggregate
        cases aggregate
    · exact absurd inside.count (Nat.not_le.mpr old)
  | pushctx =>
    simp only [step] at stepped
    split_ifs at stepped
    cases stepped
    exact ⟨Nat.lt_succ_of_lt inside.above, inside.count, inside.head, inside.opened, inside.structs⟩
  | popctx =>
    simp only [step] at stepped
    split_ifs at stepped
    cases stepped
    have stays : base.curctx + 1 < state.curctx := within
    refine ⟨?_, inside.count, ?_, inside.opened, popctx_structs baseInv inside⟩
    · change base.curctx < state.curctx - 1
      omega
    · obtain ⟨young, head, inner⟩ := inside.head
      refine ⟨_, popctx_head baseInv inside head, ?_⟩
      intro sym member
      exact inner sym ((List.dropWhile_sublist _).subset member)

theorem popctx_restores (baseInv : Invariant base) (inside : Inside base state)
    (inv : Invariant state) (last : state.curctx = base.curctx + 1) : (popctx state).head = base.head := by
  obtain ⟨young, head, inner⟩ := inside.head
  have all : (young.dropWhile fun sym => sym.ctx = state.curctx) = [] := by
    apply List.dropWhile_eq_nil_iff.mpr
    intro sym member
    have below := inv.ctxs sym (by rw [head]; exact List.mem_append_left _ member)
    have above := (inner sym member).1
    simp
    omega
  rw [popctx_head baseInv inside head, all, List.nil_append]

theorem block_framed (baseInv : Invariant base) : BlockFramed arch addr base := by
  intro body state meets done
  obtain ⟨entered, stepped, continued⟩ := run_cons_some done
  have enteredInv := step_invariant baseInv stepped
  have meetsBody := meets.2 entered stepped
  simp only [step] at stepped
  split_ifs at stepped
  cases stepped
  have started : Inside base { base with curctx := base.curctx + 1 } := by
    refine ⟨Nat.lt_succ_self _, Nat.le_refl _, ⟨[], rfl, ?_⟩, ⟨[], rfl, ?_⟩, fun _ _ _ => rfl⟩
    · intro sym member
      cases member
    · intro type member
      cases member
  have reached : Inside base state ∧ Invariant state := by
    apply run_invariant (fun reached => Inside base reached ∧ Invariant reached) _
      ⟨started, enteredInv⟩ meetsBody continued
    intro reached event after both holds stepped
    exact ⟨inside_step baseInv both.1 holds.1 holds.2 stepped, step_invariant both.2 stepped⟩
  refine ⟨reached.1.structs, ?_⟩
  intro last after popped
  simp only [step] at popped
  split_ifs at popped
  cases popped
  refine ⟨popctx_structs baseInv reached.1, ?_, ?_⟩
  · change state.curctx - 1 = base.curctx
    omega
  · intro name
    unfold findtag
    rw [popctx_restores baseInv reached.1 reached.2 last]

/-- In every state a program reaches, a member list declares a new type exactly
when its tag is not found further out, and a block whose member lists are all of
that kind changes no structure around it and leaves every tag what it denotes. -/
theorem tags_scoped (arch : Arch) (addr : Nat → Nat) (events : List Event) (state : State)
    (reached : run (step arch addr) (start arch) events = some state) :
    (∀ op name next, step arch addr state (.structdcl op name) = some next →
      (Distinct state next ↔ Local state name)) ∧ BlockFramed arch addr state := by
  have inv := reached_invariant reached
  constructor
  · intro op name next stepped
    exact distinct_iff_local inv stepped
  · exact block_framed inv

/-- `struct S { int x; };` -/
def outerS : List Event := [
  .structdcl .STRUCT (some ['S']), .field (some ['x']) inttype, .endstruct]

theorem tags_scoped_after_outer :
    ∃ state, run (step amd64_sysv staticAddr) (start amd64_sysv) outerS = some state ∧
      (∀ op name next, step amd64_sysv staticAddr state (.structdcl op name) = some next →
        (Distinct state next ↔ Local state name)) ∧ BlockFramed amd64_sysv staticAddr state := by
  have size : (run (step amd64_sysv staticAddr) (start amd64_sysv) outerS).map
      (fun state => (state.types.heap 23).size) = some 4 := by decide
  obtain ⟨state, reached, _⟩ := Option.map_eq_some_iff.mp size
  exact ⟨state, reached, tags_scoped amd64_sysv staticAddr outerS state reached⟩

/-- In `{ struct S { char c; }; }` the member goes to the type of the outer `S`. -/
theorem inner_struct_grows_outer : ∃ outer entered opened inner,
      run (step amd64_sysv staticAddr) (start amd64_sysv) outerS = some outer ∧
        step amd64_sysv staticAddr outer .pushctx = some entered ∧
          step amd64_sysv staticAddr entered (.structdcl .STRUCT (some ['S'])) = some opened ∧
            ¬ Distinct entered opened ∧ run (step amd64_sysv staticAddr) opened
                  [.field (some ['c']) chartype, .endstruct] = some inner ∧
                (outer.types.heap 23).size = 4 ∧ (inner.types.heap 23).size = 8 ∧
                  (inner.types.heap 23).fields.length = 2 := by
  refine ⟨_, _, _, _, rfl, rfl, rfl, ?_, rfl, by decide, by decide, by decide⟩
  intro distinct
  exact distinct ⟨.tag 23, some ['S'], 0⟩ (by decide) (by decide) 23 rfl rfl

end Scc.Cc1.TagScope
