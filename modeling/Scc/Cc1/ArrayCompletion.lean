import Scc.Lib.Unrolling
import Scc.Cc1.TypeTable

/-!
# Arrays completed by their initializers

`initlist_helper()` and `str2ary()` complete an array type in place, and
`mktype()` shares one object among all the arrays without a size of one element
type. A declared symbol keeps its type in a completion exactly when its type does
not refer to a completed object.
-/

namespace Scc.Cc1.ArrayCompletion

open Scc.Lib Scc.Lib.Run Scc.Lib.Unrolling Scc.Cc1.Types

set_option autoImplicit false

inductive Designator where
  | none
  | index (npos : Int)
  | field (name : Name)

mutual

/-- An initializer, as `initialize()` takes it apart: an assignment expression, a
string literal with the number of its elements, or a list, with or without
braces. -/
inductive Initializer where
  | expr
  | string (elem : Nat)
  | list (items : Items)

inductive Items where
  | nil
  | cons (designator : Designator) (init : Initializer) (rest : Items)

end

/-- `in.pos` after a designator: an index out of bounds is taken as 0, and an
unknown member as -1. -/
def position (tp : TypeRec) (pos : UInt64) : Designator → UInt64
  | .none => pos
  | .index npos =>
    if npos < 0 ∨ (tp.tdefined = true ∧ tp.elem ≤ npos) then 0 else UInt64.ofInt npos
  | .field name =>
    match tp.fields.findIdx? fun field => field.name = some name with
    | some i => UInt64.ofNat i
    | none => UInt64.ofInt (-1)

/-- The local `curtp`. -/
def curtp (arch : Arch) (heap : Nat → TypeRec) (tp : Nat) (pos : UInt64) : Nat :=
  match (heap tp).op with
  | .ARY => (heap tp).type
  | .STRUCT | .UNION =>
    if pos < UInt64.ofNat (heap tp).elem then
      ((heap tp).fields[pos.toNat]?.map Field.type).getD arch.inttype
    else arch.inttype
  | _ => tp

def outbound (tp : TypeRec) (pos : UInt64) : Bool :=
  match tp.op with
  | .ARY => tp.tdefined && UInt64.ofNat tp.elem ≤ pos
  | .STRUCT | .UNION => UInt64.ofNat tp.elem ≤ pos
  | _ => pos ≠ 0

def incomplete (tp : TypeRec) : Bool := tp.op = .ARY && !tp.tdefined

/-- The two assignments that complete an array. -/
def complete (arch : Arch) (heap : Nat → TypeRec) (tp : Nat) (elem : Nat) : Nat → TypeRec :=
  setType heap tp (deftype arch heap { heap tp with elem := elem })

/-- An array of characters, which a string literal can initialize. -/
def stringable (arch : Arch) (tp : TypeRec) : Bool :=
  tp.op = .ARY &&
    (tp.type = arch.chartype || tp.type = arch.uchartype || tp.type = arch.schartype)

/-- What `str2ary()` does to the types. -/
def str2ary (arch : Arch) (heap : Nat → TypeRec) (tp : Nat) (elem : Nat) : Nat → TypeRec :=
  if stringable arch (heap tp) && incomplete (heap tp) then complete arch heap tp elem else heap

/-- The end of `initlist_helper()`. -/
def endlist (arch : Arch) (tp : Nat) (listed : (Nat → TypeRec) × UInt64) : Nat → TypeRec :=
  if incomplete (listed.1 tp) then complete arch listed.1 tp listed.2.toNat else listed.1

mutual

/-- `initialize()` on the heap of types. -/
def initializeType (arch : Arch) (heap : Nat → TypeRec) (tp : Nat) : Initializer → Nat → TypeRec
  | .expr => heap
  | .string elem => str2ary arch heap tp elem
  | .list items => endlist arch tp (initlist arch heap tp items 0 0)

/-- The loop of `initlist_helper()`: the heap and `in.max`. -/
def initlist (arch : Arch) (heap : Nat → TypeRec) (tp : Nat) :
    Items → UInt64 → UInt64 → (Nat → TypeRec) × UInt64
  | .nil, _, max => (heap, max)
  | .cons designator init rest, pos, max =>
    let pos := position (heap tp) pos designator
    let max := if !outbound (heap tp) pos && max < pos + 1 then pos + 1 else max
    initlist arch (initializeType arch heap (curtp arch heap tp pos) init) tp rest (pos + 1) max

end

/-- The types and, in the order of their declarations, the types of the symbols. -/
structure Program where
  types : State
  symbols : List Nat

inductive Declaration where
  | types (event : Event)
  | declare (tp : Nat)
  | redeclare (sym : Nat) (tp : Nat)
  /-- `= init` after the declarator of a symbol. -/
  | initializer (sym : Nat) (init : Initializer)
  /-- A compound literal. -/
  | compound (tp : Nat) (init : Initializer)
  /-- A scope ends, and only its first symbols are left. -/
  | popctx (left : Nat)

/-- `redcl()`; conflicting types are diagnosed. -/
def redcl (arch : Arch) (program : Program) (sym tp : Nat) : Option Program :=
  match program.symbols[sym]? with
  | none => none
  | some old =>
    if eqtype arch program.types.heap true program.types.count old tp then
      if !(program.types.heap old).tk_r && (program.types.heap tp).tk_r then
        some { program with symbols := program.symbols.set sym tp }
      else some program
    else none

/-- The type and the initializer of the object that a declaration initializes;
`initializer()` takes a function for an `int`. -/
def object (arch : Arch) (program : Program) : Declaration → Option (Nat × Initializer)
  | .initializer sym init =>
    program.symbols[sym]?.map fun tp =>
      (if (program.types.heap tp).op = .FTN then arch.inttype else tp, init)
  | .compound tp init => if tp < program.types.count then some (tp, init) else none
  | _ => none

def step (arch : Arch) (addr : Nat → Nat) (program : Program) : Declaration → Option Program
  | .types (.complete _ _) => none
  | .types event =>
    (Types.step arch addr program.types event).map fun types => { program with types := types }
  | .declare tp =>
    if tp < program.types.count then some { program with symbols := program.symbols ++ [tp] }
    else none
  | .redeclare sym tp => redcl arch program sym tp
  | .popctx left => some { program with symbols := program.symbols.take left }
  | declaration =>
    (object arch program declaration).map fun (tp, init) =>
      { program with
        types := { program.types with heap := initializeType arch program.types.heap tp init } }

def start (arch : Arch) : Program := ⟨Types.start arch, []⟩

/-- The types of the symbols other than the initialized one. -/
def others (program : Program) : Declaration → List Nat
  | .initializer sym _ => program.symbols.eraseIdx sym
  | _ => program.symbols

def refers (tp : TypeRec) : List Nat :=
  match tp.op with
  | .ARY | .PTR => [tp.type]
  | .FTN => tp.type :: tp.pars
  | .STRUCT | .UNION => tp.fields.map Field.type
  | _ => []

/-- A record without the numbers of the objects that it refers to. -/
def content (tp : TypeRec) : TypeRec :=
  { tp with type := 0, pars := [], fields := tp.fields.map fun field => { field with type := 0 } }

/-- A type as the program sees it, to a depth. -/
def seen (heap : Nat → TypeRec) : Nat → Nat → Unrolled TypeRec :=
  unroll (fun id => content (heap id)) fun id => refers (heap id)

/-- An initializer leaves the types of the other symbols what they were. -/
def Framed (arch : Arch) (addr : Nat → Nat) (program : Program) (declaration : Declaration) :
    Prop :=
  (object arch program declaration).isSome = true →
    ∀ after, step arch addr program declaration = some after →
      ∀ tp ∈ others program declaration,
        ∀ depth, seen after.types.heap depth tp = seen program.types.heap depth tp

mutual

/-- The array types without a size that an initializer runs into. -/
def sizeless (arch : Arch) (heap : Nat → TypeRec) (tp : Nat) : Initializer → List Nat
  | .expr => []
  | .string _ => if stringable arch (heap tp) && incomplete (heap tp) then [tp] else []
  | .list items =>
    sizelessItems arch heap tp items 0 ++ if incomplete (heap tp) then [tp] else []

def sizelessItems (arch : Arch) (heap : Nat → TypeRec) (tp : Nat) : Items → UInt64 → List Nat
  | .nil, _ => []
  | .cons designator init rest, pos =>
    let pos := position (heap tp) pos designator
    sizeless arch heap (curtp arch heap tp pos) init ++
      sizelessItems arch heap tp rest (pos + 1)

end

/-- No other symbol has a type that refers to a sizeless array of the
initializer. -/
def Alone (arch : Arch) (program : Program) (declaration : Declaration) : Prop :=
  ∀ tp init, object arch program declaration = some (tp, init) →
    ∀ other ∈ others program declaration, ∀ id ∈ sizeless arch program.types.heap tp init,
      ¬ Reaches (fun id => refers (program.types.heap id)) other id

/-- The heap is the base heap with some arrays of it completed. -/
structure Completed (base : Nat → TypeRec) (done : Nat → Prop) (heap : Nat → TypeRec) : Prop where
  same : ∀ id, ¬ done id → heap id = base id
  sizeless : ∀ id, done id → incomplete (base id) = true
  defined : ∀ id, done id → (heap id).tdefined = true
  op : ∀ id, (heap id).op = (base id).op
  type : ∀ id, (heap id).type = (base id).type

theorem completed_refl (heap : Nat → TypeRec) : Completed heap (fun _ => False) heap where
  same := fun _ _ => rfl
  sizeless := fun _ done => done.elim
  defined := fun _ done => done.elim
  op := fun _ => rfl
  type := fun _ => rfl

variable {base heap : Nat → TypeRec} {done : Nat → Prop} {tp : Nat}

theorem Completed.congr {done done' : Nat → Prop}
    (completed : Completed base done heap) (same : ∀ id, done' id ↔ done id) : Completed base done' heap where
  same := fun id notDone => completed.same id fun isDone => notDone ((same id).mpr isDone)
  sizeless := fun id isDone => completed.sizeless id ((same id).mp isDone)
  defined := fun id isDone => completed.defined id ((same id).mp isDone)
  op := completed.op
  type := completed.type

theorem incomplete_iff (tp : TypeRec) : incomplete tp = true ↔ tp.op = .ARY ∧ tp.tdefined = false := by
  simp [incomplete]

theorem deftype_array (arch : Arch) (heap : Nat → TypeRec) (tp : TypeRec) (array : tp.op = .ARY) :
    (deftype arch heap tp).op = .ARY ∧ (deftype arch heap tp).type = tp.type ∧
      (deftype arch heap tp).tdefined = true := by
  unfold deftype typesize
  simp only [array]
  exact ⟨trivial, trivial, trivial⟩

theorem Completed.complete (completed : Completed base done heap) (arch : Arch) (elem : Nat)
    (sizeless : incomplete (heap tp) = true) :
    Completed base (fun id => done id ∨ id = tp) (complete arch heap tp elem) := by
  have array := (incomplete_iff (heap tp)).mp sizeless
  have result := deftype_array arch heap { heap tp with elem := elem } array.1
  have notDone : ¬ done tp := by
    intro isDone
    rw [completed.defined tp isDone] at array
    cases array.2
  constructor
  · intro id neither
    have notHere : id ≠ tp := fun here => neither (Or.inr here)
    unfold ArrayCompletion.complete setType
    rw [if_neg notHere]
    exact completed.same id fun isDone => neither (Or.inl isDone)
  · rintro id (isDone | rfl)
    · exact completed.sizeless id isDone
    · rw [← completed.same id notDone]
      exact sizeless
  · intro id either
    unfold ArrayCompletion.complete setType
    by_cases here : id = tp
    · rw [if_pos here]
      exact result.2.2
    · rw [if_neg here]
      exact completed.defined id (either.resolve_right here)
  · intro id
    unfold ArrayCompletion.complete setType
    by_cases here : id = tp
    · rw [if_pos here, here, result.1, ← completed.op tp, array.1]
    · rw [if_neg here]
      exact completed.op id
  · intro id
    unfold ArrayCompletion.complete setType
    by_cases here : id = tp
    · rw [if_pos here, here, result.2.1]
      exact completed.type tp
    · rw [if_neg here]
      exact completed.type id

theorem Completed.other (completed : Completed base done heap) {id : Nat} (notArray : (base id).op ≠ .ARY) :
    heap id = base id := by
  apply completed.same
  intro isDone
  exact notArray ((incomplete_iff _).mp (completed.sizeless id isDone)).1

theorem Completed.curtp (completed : Completed base done heap) (arch : Arch) (tp : Nat) (pos : UInt64) :
    curtp arch heap tp pos = curtp arch base tp pos := by
  by_cases array : (base tp).op = .ARY
  · unfold ArrayCompletion.curtp
    rw [completed.op tp, completed.type tp, array]
  · unfold ArrayCompletion.curtp
    rw [completed.other array]

theorem sizelessItems_position {arch : Arch} (array : (heap tp).op = .ARY) :
    (items : Items) → (pos pos' : UInt64) →
      sizelessItems arch heap tp items pos = sizelessItems arch heap tp items pos'
  | .nil, _, _ => rfl
  | .cons designator init rest, pos, pos' => by
    have element : ∀ pos, curtp arch heap tp pos = (heap tp).type := by
      intro pos
      unfold curtp
      rw [array]
    simp only [sizelessItems, element]
    rw [sizelessItems_position array rest]

theorem Completed.incomplete (completed : Completed base done heap) (tp : Nat) :
    incomplete (heap tp) = true ↔ incomplete (base tp) = true ∧ ¬ done tp := by
  constructor
  · intro sizeless
    have notDone : ¬ done tp := by
      intro isDone
      have array := (incomplete_iff (heap tp)).mp sizeless
      rw [completed.defined tp isDone] at array
      cases array.2
    rw [← completed.same tp notDone]
    exact ⟨sizeless, notDone⟩
  · rintro ⟨sizeless, notDone⟩
    rw [completed.same tp notDone]
    exact sizeless

theorem Completed.completeIf
    (completed : Completed base done heap) (arch : Arch) (tp elem : Nat) (test : Bool) : Completed base
      (fun id => done id ∨ id ∈ if test && ArrayCompletion.incomplete (base tp) then [tp] else [])
      (if test && ArrayCompletion.incomplete (heap tp) then
        ArrayCompletion.complete arch heap tp elem else heap) := by
  by_cases sizeless : test = true ∧ ArrayCompletion.incomplete (heap tp) = true
  · have inBase := ((completed.incomplete tp).mp sizeless.2).1
    have test' : (test && ArrayCompletion.incomplete (heap tp)) = true := by simp [sizeless]
    simp only [test', if_true]
    apply (completed.complete arch elem sizeless.2).congr
    intro id
    simp [sizeless.1, inBase]
  · have test' : ¬ (test && ArrayCompletion.incomplete (heap tp)) = true := by simpa using sizeless
    simp only [test', Bool.false_eq_true, if_false]
    apply completed.congr
    intro id
    by_cases inBase : test = true ∧ ArrayCompletion.incomplete (base tp) = true
    · have isDone : done tp := by
        by_contra notDone
        exact sizeless ⟨inBase.1, (completed.incomplete tp).mpr ⟨inBase.2, notDone⟩⟩
      simp only [inBase.1, inBase.2, Bool.and_self, if_true, List.mem_singleton]
      constructor
      · rintro (already | rfl)
        · exact already
        · exact isDone
      · exact Or.inl
    · rw [if_neg (by simpa using inBase)]
      simp

mutual

theorem initializeType_completed {base heap : Nat → TypeRec} {done : Nat → Prop} (arch : Arch)
    (completed : Completed base done heap) (tp : Nat) :
    (init : Initializer) → Completed base (fun id => done id ∨ id ∈ sizeless arch base tp init)
      (initializeType arch heap tp init)
  | .expr => completed.congr fun id => by simp [sizeless]
  | .string elem => by
    have stringable : stringable arch (heap tp) = stringable arch (base tp) := by
      unfold stringable
      rw [completed.op tp, completed.type tp]
    unfold initializeType str2ary sizeless
    rw [stringable]
    exact completed.completeIf arch tp elem _
  | .list items => by
    have listed := initlist_completed arch completed tp items 0 0
    have ended := listed.completeIf arch tp (initlist arch heap tp items 0 0).2.toNat true
    unfold initializeType endlist sizeless
    simp only [Bool.true_and] at ended
    apply ended.congr
    intro id
    rw [List.mem_append, or_assoc]

theorem initlist_completed {base heap : Nat → TypeRec} {done : Nat → Prop} (arch : Arch)
    (completed : Completed base done heap) (tp : Nat) : (items : Items) → (pos max : UInt64) →
      Completed base (fun id => done id ∨ id ∈ sizelessItems arch base tp items pos)
        (initlist arch heap tp items pos max).1
  | .nil, _, _ => completed.congr fun id => by simp [sizelessItems]
  | .cons designator init rest, pos, max => by
    unfold initlist sizelessItems
    have first := initializeType_completed arch completed
      (curtp arch heap tp (position (heap tp) pos designator)) init
    have later := initlist_completed arch first tp rest (position (heap tp) pos designator + 1)
      (if !outbound (heap tp) (position (heap tp) pos designator) &&
          max < position (heap tp) pos designator + 1 then
        position (heap tp) pos designator + 1 else max)
    apply later.congr
    intro id
    by_cases array : (base tp).op = .ARY
    · have element : ∀ pos pos', curtp arch base tp pos = curtp arch base tp pos' := by
        intro pos pos'
        unfold curtp
        rw [array]
      rw [completed.curtp, element (position (heap tp) pos designator)
          (position (base tp) pos designator),
        sizelessItems_position array rest (position (heap tp) pos designator + 1)
          (position (base tp) pos designator + 1)]
      simp only [List.mem_append, or_assoc]
    · rw [completed.curtp, completed.other array]
      simp only [List.mem_append, or_assoc]

end

theorem Completed.refers
    (completed : Completed base done heap) (id : Nat) : refers (heap id) = refers (base id) := by
  by_cases array : (base id).op = .ARY
  · unfold ArrayCompletion.refers
    rw [completed.op id, completed.type id, array]
  · rw [completed.other array]

theorem Completed.content_iff (completed : Completed base done heap) (id : Nat) :
    content (heap id) = content (base id) ↔ ¬ done id := by
  constructor
  · intro same isDone
    have defined : (content (heap id)).tdefined = (content (base id)).tdefined := by rw [same]
    change (heap id).tdefined = (base id).tdefined at defined
    rw [completed.defined id isDone] at defined
    have sizeless := (incomplete_iff (base id)).mp (completed.sizeless id isDone)
    rw [← defined] at sizeless
    cases sizeless.2
  · intro notDone
    rw [completed.same id notDone]

theorem Completed.seen_iff (completed : Completed base done heap) (tp : Nat) :
    (∀ depth, seen heap depth tp = seen base depth tp) ↔
      ∀ id, done id → ¬ Reaches (fun id => ArrayCompletion.refers (base id)) tp id := by
  have sameRefers : (fun id => ArrayCompletion.refers (heap id)) =
      fun id => ArrayCompletion.refers (base id) := by
    funext id
    exact completed.refers id
  unfold seen
  rw [sameRefers, unroll_eq_iff]
  constructor
  · intro same id isDone reached
    exact (completed.content_iff id).mp (same id reached) isDone
  · intro apart id reached
    apply (completed.content_iff id).mpr
    exact fun isDone => apart id isDone reached

theorem step_object {arch : Arch} (addr : Nat → Nat) {program : Program} {declaration : Declaration}
    {init : Initializer} (initialized : object arch program declaration = some (tp, init)) :
    step arch addr program declaration = some { program with
        types := { program.types with heap := initializeType arch program.types.heap tp init } } := by
  unfold object at initialized
  cases declaration with
  | initializer sym init => simp only [step, object, initialized, Option.map_some]
  | compound tp init => simp only [step, object, initialized, Option.map_some]
  | types event => cases initialized
  | declare tp => cases initialized
  | redeclare sym tp => cases initialized
  | popctx left => cases initialized

theorem framed_iff_alone (arch : Arch) (addr : Nat → Nat) (program : Program) (declaration : Declaration) :
    Framed arch addr program declaration ↔ Alone arch program declaration := by
  cases initialized : object arch program declaration with
  | none => simp [Framed, Alone, initialized]
  | some pair =>
    obtain ⟨tp, init⟩ := pair
    have completed := initializeType_completed arch (completed_refl program.types.heap) tp init
    have stepped := step_object addr initialized
    unfold Framed Alone
    rw [initialized]
    constructor
    · intro framed tp' init' same other member id inList
      cases same
      have seenSame := framed rfl _ stepped other member
      exact (completed.seen_iff other).mp seenSame id (Or.inr inList)
    · intro alone _ after stepped' other member
      rw [stepped] at stepped'
      cases stepped'
      apply (completed.seen_iff other).mpr
      rintro id (impossible | inList)
      · exact impossible.elim
      · exact alone tp init rfl other member id inList

/-- In every sequence of declarations, no initializer changes the type of another
symbol exactly when each initializer finds the arrays that it completes in no type
of another symbol. -/
theorem completion_framed_iff (arch : Arch) (addr : Nat → Nat) (declarations : List Declaration) :
    Meets (step arch addr) (Framed arch addr) (start arch) declarations ↔
      Meets (step arch addr) (Alone arch) (start arch) declarations :=
  meets_congr (framed_iff_alone arch addr) (start arch) declarations

def threeItems : Items :=
  .cons .none .expr (.cons .none .expr (.cons .none .expr .nil))

/-- `extern int b[]; int a[] = {1, 2, 3};` gives `b` three elements. -/
theorem b_completed_with_a :
    ¬ ∀ declarations, Meets (step amd64_sysv staticAddr) (Framed amd64_sysv staticAddr)
      (start amd64_sysv) declarations := by
  intro always
  have meets := always [
    .types (.mktype ⟨inttype, .ARY, 0, []⟩), .declare 23, .types (.mktype ⟨inttype, .ARY, 0, []⟩),
    .declare 23, .initializer 1 (.list threeItems)]
  have framed := ((((meets.2 _ rfl).2 _ rfl).2 _ rfl).2 _ rfl).1
  have same := framed rfl _ rfl 23 List.mem_cons_self 1
  simp only [seen, unroll, Unrolled.node.injEq] at same
  exact absurd (congrArg TypeRec.elem same.1) (by decide)

end Scc.Cc1.ArrayCompletion
