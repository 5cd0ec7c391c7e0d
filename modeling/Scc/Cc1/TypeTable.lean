import Scc.Lib.Run
import Scc.Cc1.TypeSignature
import Scc.Cc1.Amd64Sysv

/-!
# The table of types

A run of the table is a sequence of calls of `mktype()`, of tags and member
lists, of arrays completed by their initializers and of function bodies. In one
bucket the interned types have different signatures, so a described type is found
again wherever its equals were put into the bucket it selects.
-/

namespace Scc.Cc1.Types

open Scc.Lib Scc.Lib.Run

set_option autoImplicit false

/-- The arguments of `mktype()`. -/
structure Call where
  tp : Nat
  op : Op
  nelem : Nat
  pars : List Nat
deriving DecidableEq

inductive Event where
  | mktype (call : Call)
  /-- `newtag()` for a tag that has no type yet. -/
  | tag (op : Op) (name : Option Name)
  /-- The end of the member list of a named tag. -/
  | members (id : Nat) (fields : List Field)
  /-- A structure without a tag; nothing can refer to it before its end. -/
  | anonymous (op : Op) (fields : List Field)
  /-- An initializer completes an array in place. -/
  | complete (id : Nat) (nelem : Nat)
  /-- The body of a function begins. -/
  | enter
  /-- It ends with `flushtypes()`. -/
  | flush
deriving DecidableEq

def Call.type (arch : Arch) (call : Call) : Option TypeRec :=
  describe arch call.tp call.op call.nelem call.pars

def Call.perform (arch : Arch) (addr : Nat → Nat) (call : Call) (state : State) :
    Option (Nat × State) :=
  mktype arch addr call.tp call.op call.nelem call.pars state

/-- The types that a call refers to exist. -/
def Call.live (state : State) (call : Call) : Bool :=
  call.tp < state.count && call.pars.all fun par => par < state.count

def liveFields (state : State) (fields : List Field) : Bool :=
  fields.all fun field => field.type < state.count

def isAggregate (op : Op) : Bool := op = .STRUCT || op = .UNION

def step (arch : Arch) (addr : Nat → Nat) (state : State) : Event → Option State
  | .mktype call =>
    if call.live state then (call.perform arch addr state).map Prod.snd else none
  | .tag op name => mktag arch op ⟨state.count, name⟩ state
  | .members id fields =>
    if id < state.count && isAggregate (state.heap id).op &&
        (state.heap id).tag.name.isSome && liveFields state fields then
      some (setmembers arch id fields state)
    else none
  | .anonymous op fields =>
    if isAggregate op && liveFields state fields then
      (mktag arch op ⟨state.count, none⟩ state).map (setmembers arch state.count fields)
    else none
  | .complete id nelem =>
    if id < state.count && (state.heap id).op = .ARY && !(state.heap id).tdefined then
      some { state with
        heap := setType state.heap id
          (deftype arch state.heap { state.heap id with elem := nelem }) }
    else none
  | .enter => if state.curfun then none else some { state with curfun := true }
  | .flush =>
    if state.curfun then
      (flushtypes addr state).map fun flushed => { flushed with curfun := false }
    else none

/-- `eqtype()` of an object and a record that is described. -/
def eqdescribed (arch : Arch) (state : State) (tp type : TypeRec) : Bool :=
  eqrec arch state.heap false (eqtype arch state.heap false state.count) tp type

/-- What the table asks of the events: the interned types that equal a described
one are in the bucket it selects, and no array is completed in place. -/
def Orderly (arch : Arch) (addr : Nat → Nat) (state : State) : Event → Prop
  | .mktype call =>
    ∀ type ∈ call.type arch, ∀ bucket < 16, ∀ id ∈ state.typetab bucket,
      eqdescribed arch state (state.heap id) type = true → bucket = HASH addr type
  | .complete _ _ => False
  | _ => True

instance (arch : Arch) (addr : Nat → Nat) (state : State) :
    (event : Event) → Decidable (Orderly arch addr state event)
  | .mktype _ => inferInstanceAs (Decidable (∀ _ ∈ _, ∀ _ < 16, ∀ _ ∈ _, _ = true → _ = _))
  | .complete _ _ => isFalse id
  | .tag _ _ => isTrue trivial
  | .members _ _ => isTrue trivial
  | .anonymous _ _ => isTrue trivial
  | .enter => isTrue trivial
  | .flush => isTrue trivial

/-- The same record up to sizes, alignments and properties. -/
structure SameShape (tp tp' : TypeRec) : Prop where
  op : tp'.op = tp.op
  letter : tp'.letter = tp.letter
  tk_r : tp'.tk_r = tp.tk_r
  type : tp'.type = tp.type
  tag : tp'.tag = tp.tag
  pars : tp'.pars = tp.pars
  elem : tp'.elem = tp.elem
  names : tp'.fields.map Field.name = tp.fields.map Field.name
  types : tp'.fields.map Field.type = tp.fields.map Field.type

theorem SameShape.refl (tp : TypeRec) : SameShape tp tp := ⟨rfl, rfl, rfl, rfl, rfl, rfl, rfl, rfl, rfl⟩

theorem SameShape.trans {tp tp' tp'' : TypeRec} (first : SameShape tp tp')
    (second : SameShape tp' tp'') : SameShape tp tp'' where
  op := second.op.trans first.op
  letter := second.letter.trans first.letter
  tk_r := second.tk_r.trans first.tk_r
  type := second.type.trans first.type
  tag := second.tag.trans first.tag
  pars := second.pars.trans first.pars
  elem := second.elem.trans first.elem
  names := second.names.trans first.names
  types := second.types.trans first.types

theorem fieldsize_shape (heap : Nat → TypeRec) (isStruct : Bool) (fields : List Field)
    (offset size align : UInt64) : (fieldsize heap isStruct fields offset size align).1.map Field.name =
        fields.map Field.name ∧ (fieldsize heap isStruct fields offset size align).1.map Field.type =
        fields.map Field.type := by
  induction fields generalizing offset size align with
  | nil => exact ⟨rfl, rfl⟩
  | cons field rest ih =>
    unfold fieldsize
    cases isStruct with
    | true =>
      simp only [if_true, List.map_cons]
      rw [(ih _ _ _).1, (ih _ _ _).2]
      exact ⟨rfl, rfl⟩
    | false =>
      simp only [Bool.false_eq_true, if_false, List.map_cons]
      rw [(ih _ _ _).1, (ih _ _ _).2]
      exact ⟨rfl, rfl⟩

theorem typesize_shape (arch : Arch) (heap : Nat → TypeRec) (tp : TypeRec) :
    SameShape tp (typesize arch heap tp) := by
  unfold typesize
  split
  · exact ⟨rfl, rfl, rfl, rfl, rfl, rfl, rfl, rfl, rfl⟩
  · exact ⟨rfl, rfl, rfl, rfl, rfl, rfl, rfl, rfl, rfl⟩
  · have fields := fieldsize_shape heap true tp.fields 0 0 0
    exact ⟨rfl, rfl, rfl, rfl, rfl, rfl, rfl, fields.1, fields.2⟩
  · have fields := fieldsize_shape heap false tp.fields 0 0 0
    exact ⟨rfl, rfl, rfl, rfl, rfl, rfl, rfl, fields.1, fields.2⟩
  · exact ⟨rfl, rfl, rfl, rfl, rfl, rfl, rfl, rfl, rfl⟩
  · exact .refl tp

theorem deftype_shape (arch : Arch) (heap : Nat → TypeRec) (tp : TypeRec) :
    SameShape tp (deftype arch heap tp) := by
  have defined : SameShape tp { tp with tdefined := true } :=
    ⟨rfl, rfl, rfl, rfl, rfl, rfl, rfl, rfl, rfl⟩
  exact defined.trans (typesize_shape arch heap _)

theorem members_eq_zip (part : Nat → Sig) (fields : List Field) :
    fields.map (fun field => (field.name, part field.type)) =
      (fields.map Field.name).zip ((fields.map Field.type).map part) := by
  induction fields with
  | nil => rfl
  | cons field rest ih => simp [ih]

variable {tp tp' : TypeRec} {call : Call} {id : Nat} {tag : Tag}

theorem SameShape.sig (shape : SameShape tp tp') (part : Nat → Sig) (id : Nat) :
    sigRec part id tp' = sigRec part id tp := by
  unfold sigRec
  rw [shape.op, shape.letter, shape.tk_r, shape.type, shape.tag, shape.pars, shape.elem,
    members_eq_zip, members_eq_zip, shape.names, shape.types]

theorem SameShape.parts (shape : SameShape tp tp') : tp'.parts = tp.parts := by
  unfold TypeRec.parts
  rw [shape.op, shape.tk_r, shape.type, shape.tag, shape.pars, shape.types]

theorem SameShape.hash (shape : SameShape tp tp') (addr : Nat → Nat) : HASH addr tp' = HASH addr tp := by
  unfold HASH
  rw [shape.op, shape.type]

theorem HASH_lt (addr : Nat → Nat) (tp : TypeRec) : HASH addr tp < 16 := by
  unfold HASH
  have bound : (tp.op.code ^^^ addr tp.type >>> 3) &&& 15 ≤ 15 := Nat.and_le_right
  omega

/-- The object is the one that a call describes. -/
def Describes (arch : Arch) (state : State) (call : Call) (id : Nat) : Prop :=
  call.live state = true ∧ ¬ (call.op = .PTR ∧ call.tp = arch.voidtype) ∧
    ∃ type, call.type arch = some type ∧ SameShape type (state.heap id)

structure Invariant (arch : Arch) (addr : Nat → Nat) (state : State) : Prop where
  ordered : Ordered state.heap state.count
  void : arch.voidtype < state.count ∧ (state.heap arch.voidtype).op = .VOID
  pvoid : arch.pvoidtype < state.count ∧ (state.heap arch.pvoidtype).op = .PTR ∧
    (state.heap arch.pvoidtype).type = arch.voidtype
  live : ∀ bucket, ∀ id ∈ state.typetab bucket, id < state.count
  placed : ∀ bucket, ∀ id ∈ state.typetab bucket, HASH addr (state.heap id) = bucket
  described : ∀ bucket, ∀ id ∈ state.typetab bucket, ∃ call, Describes arch state call id
  unique : ∀ bucket, (state.typetab bucket).Pairwise fun left right =>
    sig state.heap left ≠ sig state.heap right
  decreasing : ∀ bucket, (state.typetab bucket).Pairwise (· > ·)
  localsDecreasing : state.localtypes.Pairwise (· > ·)
  localsLive : ∀ id ∈ state.localtypes, id < state.count
  localsPlaced : ∀ id ∈ state.localtypes, unlisted (state.heap id).op = false →
    id ∈ state.typetab (HASH addr (state.heap id))
  localsYoung : ∀ bucket, ∀ id ∈ state.typetab bucket, id ∉ state.localtypes →
    ∀ made ∈ state.localtypes, id < made
  noLocals : state.curfun = false → state.localtypes = []

theorem describe_shape {arch : Arch} {type : TypeRec} (described : call.type arch = some type) :
    (type.op = .ARY ∨ type.op = .PTR ∨ type.op = .FTN) ∧ type.type = call.tp ∧
      (∀ par ∈ type.pars, par ∈ call.pars) := by
  unfold Call.type describe at described
  split at described
  · split_ifs at described
    cases described
    exact ⟨Or.inl rfl, rfl, fun _ member => by cases member⟩
  · cases described
    exact ⟨Or.inr (Or.inr rfl), rfl, fun _ member => List.mem_of_mem_take member⟩
  · cases described
    exact ⟨Or.inr (Or.inr rfl), rfl, fun _ member => List.mem_of_mem_take member⟩
  · cases described
    exact ⟨Or.inr (Or.inl rfl), rfl, fun _ member => by cases member⟩
  · cases described

theorem described_unlisted {arch : Arch} {type : TypeRec}
    (described : call.type arch = some type) : unlisted type.op = false := by
  rcases (describe_shape described).1 with ary | ptr | ftn
  · rw [ary]
    rfl
  · rw [ptr]
    rfl
  · rw [ftn]
    rfl

theorem described_parts {arch : Arch} {state : State} {type : TypeRec}
    (described : call.type arch = some type) (live : call.live state = true) :
    ∀ part ∈ type.parts, part < state.count := by
  obtain ⟨op, base, pars⟩ := describe_shape described
  simp only [Call.live, Bool.and_eq_true, decide_eq_true_eq, List.all_eq_true] at live
  have baseLive : type.type < state.count := by
    rw [base]
    exact live.1
  intro part member
  unfold TypeRec.parts at member
  rcases op with ary | ptr | ftn
  · rw [ary] at member
    simp only [List.mem_singleton] at member
    rw [member]
    exact baseLive
  · rw [ptr] at member
    simp only [List.mem_singleton] at member
    rw [member]
    exact baseLive
  · rw [ftn] at member
    simp only at member
    split_ifs at member
    · simp only [List.mem_singleton] at member
      rw [member]
      exact baseLive
    · rcases List.mem_cons.mp member with rfl | inPars
      · exact baseLive
      · exact live.2 part (pars part inPars)

theorem described_sig {arch : Arch} {type : TypeRec} (part : Nat → Sig)
    (described : call.type arch = some type) (id id' : Nat) : sigRec part id type = sigRec part id' type := by
  unfold sigRec
  rcases (describe_shape described).1 with ary | ptr | ftn
  · rw [ary]
  · rw [ptr]
  · rw [ftn]

theorem eqdescribed_iff {arch : Arch} {state : State} (ordered : Ordered state.heap state.count)
    {type : TypeRec} (described : call.type arch = some type)
    (live : call.live state = true) (old : id < state.count) :
    eqdescribed arch state (state.heap id) type = true ↔
      sig state.heap id = sigRec (sig state.heap) id type := by
  have parts := described_parts described live
  rw [sig_eq ordered old, described_sig _ described id state.count]
  apply eqrec_iff arch state.heap (Nat.ne_of_lt old)
  intro p1 in1 p2 in2
  have earlier := ordered id old p1 in1
  have live2 := parts p2 in2
  exact eqtype_iff ordered (by omega) live2 (by omega) live2

def isTagged (tp : TypeRec) : Bool := isAggregate tp.op && tp.tag.name.isSome

/-- Later the objects are the same, but for what a tagged structure contains. -/
structure Keeps (state state' : State) : Prop where
  count : state.count ≤ state'.count
  objects : ∀ id < state.count, state'.heap id = state.heap id ∨
    isTagged (state.heap id) = true ∧ (state'.heap id).op = (state.heap id).op ∧
      (state'.heap id).letter = (state.heap id).letter ∧
        (state'.heap id).tag = (state.heap id).tag

theorem Keeps.refl (state : State) : Keeps state state where
  count := Nat.le_refl state.count
  objects := fun _ _ => Or.inl rfl

theorem Keeps.trans {state state' state'' : State} (first : Keeps state state')
    (second : Keeps state' state'') : Keeps state state'' := by
  refine ⟨Nat.le_trans first.count second.count, ?_⟩
  intro id live
  rcases second.objects id (Nat.lt_of_lt_of_le live first.count) with same | ⟨tagged, op, letter, tag⟩
  · rw [same]
    exact first.objects id live
  · rcases first.objects id live with same | ⟨tagged', op', letter', tag'⟩
    · rw [same] at tagged op letter tag
      exact Or.inr ⟨tagged, op, letter, tag⟩
    · exact Or.inr ⟨tagged', op.trans op', letter.trans letter', tag.trans tag'⟩

theorem isTagged_congr (op : tp'.op = tp.op) (tag : tp'.tag = tp.tag) : isTagged tp' = isTagged tp := by
  unfold isTagged
  rw [op, tag]

theorem tagged_parts (tagged : isTagged tp = true) : tp.parts = [] := by
  unfold isTagged isAggregate at tagged
  simp only [Bool.and_eq_true, Bool.or_eq_true, decide_eq_true_eq] at tagged
  unfold TypeRec.parts
  rcases tagged.1 with struct | union
  · simp [struct, tagged.2]
  · simp [union, tagged.2]

theorem tagged_sig (tagged : isTagged tp = true) (part : Nat → Sig) (id : Nat) :
    sigRec part id tp = .tagged tp.op tp.letter tp.tag := by
  unfold isTagged isAggregate at tagged
  simp only [Bool.and_eq_true, Bool.or_eq_true, decide_eq_true_eq] at tagged
  unfold sigRec
  rcases tagged.1 with struct | union
  · simp [struct, tagged.2]
  · simp [union, tagged.2]

theorem tagged_unlisted (tagged : isTagged tp = true) : unlisted tp.op = true := by
  unfold isTagged isAggregate at tagged
  simp only [Bool.and_eq_true, Bool.or_eq_true, decide_eq_true_eq] at tagged
  rcases tagged.1 with struct | union
  · simp [struct, unlisted]
  · simp [union, unlisted]

theorem Keeps.op {state state' : State} (keeps : Keeps state state')
    (live : id < state.count) : (state'.heap id).op = (state.heap id).op := by
  rcases keeps.objects id live with same | ⟨_, op, _, _⟩
  · rw [same]
  · exact op

theorem Keeps.listed {state state' : State} (keeps : Keeps state state')
    (live : id < state.count) (listed : unlisted (state.heap id).op = false) :
    state'.heap id = state.heap id := by
  rcases keeps.objects id live with same | ⟨tagged, _⟩
  · exact same
  · rw [tagged_unlisted tagged] at listed
    cases listed

theorem Keeps.parts {state state' : State} (keeps : Keeps state state')
    (live : id < state.count) : (state'.heap id).parts = (state.heap id).parts := by
  rcases keeps.objects id live with same | ⟨tagged, op, _, tag⟩
  · rw [same]
  · rw [tagged_parts tagged, tagged_parts ((isTagged_congr op tag).trans tagged)]

theorem Keeps.ordered {state state' : State} (keeps : Keeps state state')
    (ordered : Ordered state.heap state.count) : Ordered state'.heap state.count := by
  intro id live part member
  rw [keeps.parts live] at member
  exact ordered id live part member

theorem Keeps.sig {state state' : State} (keeps : Keeps state state')
    (ordered : Ordered state.heap state.count) (live : id < state.count) :
    sig state'.heap id = sig state.heap id := by
  apply sig_heap_congr ordered _ (keeps.ordered ordered) live
  intro id live
  rcases keeps.objects id live with same | ⟨tagged, op, letter, tag⟩
  · rw [same]
  · rw [tagged_sig tagged, tagged_sig ((isTagged_congr op tag).trans tagged), op, letter, tag]

theorem Keeps.callLive {state state' : State} (keeps : Keeps state state')
    (live : call.live state = true) : call.live state' = true := by
  have count := keeps.count
  simp only [Call.live, Bool.and_eq_true, decide_eq_true_eq, List.all_eq_true] at live ⊢
  refine ⟨by omega, ?_⟩
  intro par member
  have parLive := live.2 par member
  omega

theorem Describes.unlisted {arch : Arch} {state : State}
    (describes : Describes arch state call id) : unlisted (state.heap id).op = false := by
  obtain ⟨_, _, type, described, shape⟩ := describes
  rw [shape.op]
  exact described_unlisted described

theorem Keeps.describes {arch : Arch} {state state' : State} (keeps : Keeps state state')
    (live : id < state.count) (describes : Describes arch state call id) : Describes arch state' call id := by
  have same := keeps.listed live describes.unlisted
  obtain ⟨callLive, notVoid, type, described, shape⟩ := describes
  refine ⟨keeps.callLive callLive, notVoid, type, described, ?_⟩
  rw [same]
  exact shape

/-- The allocation of `newtype()`. -/
def addtype (tp : TypeRec) (state : State) : State :=
  { state with
    heap := setType state.heap state.count tp
    count := state.count + 1
    localtypes := if state.curfun then state.count :: state.localtypes else state.localtypes }

theorem newtype_eq (arch : Arch) (base : TypeRec) (state : State) :
    ∃ tp, SameShape base tp ∧ newtype arch base state = addtype tp state := by
  refine ⟨_, ?_, rfl⟩
  have aligned : SameShape base
      (if base.op = .ARY then { base with align := (state.heap base.type).align } else base) := by
    split_ifs
    · exact ⟨rfl, rfl, rfl, rfl, rfl, rfl, rfl, rfl, rfl⟩
    · exact .refl base
  split_ifs at aligned ⊢ with ary defined
  all_goals first
    | exact aligned
    | exact aligned.trans (deftype_shape arch state.heap _)

theorem addtype_keeps (tp : TypeRec) (state : State) : Keeps state (addtype tp state) := by
  refine ⟨Nat.le_succ state.count, ?_⟩
  intro id live
  left
  have old : id ≠ state.count := Nat.ne_of_lt live
  simp [addtype, setType, old]

theorem addtype_new (tp : TypeRec) (state : State) : (addtype tp state).heap state.count = tp := by
  simp [addtype, setType]

theorem addtype_ordered {state : State} (ordered : Ordered state.heap state.count)
    (fits : ∀ part ∈ tp.parts, part < state.count) : Ordered (addtype tp state).heap (state.count + 1) := by
  intro id live part member
  by_cases new : id = state.count
  · rw [new, addtype_new] at member
    rw [new]
    exact fits part member
  · exact (addtype_keeps tp state).ordered ordered id (by omega) part member

theorem addtype_sig {state : State} (ordered : Ordered state.heap state.count)
    (fits : ∀ part ∈ tp.parts, part < state.count) :
    sig (addtype tp state).heap state.count = sigRec (sig state.heap) state.count tp := by
  rw [sig_eq (addtype_ordered ordered fits) (Nat.lt_succ_self state.count), addtype_new]
  apply sig_rec_congr
  intro child member
  exact (addtype_keeps tp state).sig ordered (fits child member)

variable {arch : Arch} {addr : Nat → Nat} {state next : State}

theorem Invariant.keep (inv : Invariant arch addr state) (keeps : Keeps state next)
    (ordered : Ordered next.heap next.count) (typetab : next.typetab = state.typetab)
    (locals : next.localtypes = state.localtypes) (noLocals : next.curfun = false →
      next.localtypes = []) : Invariant arch addr next := by
  have listedSame : ∀ bucket, ∀ id ∈ state.typetab bucket, next.heap id = state.heap id := by
    intro bucket id member
    obtain ⟨call, describes⟩ := inv.described bucket id member
    exact keeps.listed (inv.live bucket id member) describes.unlisted
  have count := keeps.count
  refine ⟨ordered, ⟨by have := inv.void.1; omega, ?_⟩, ?_, ?_, ?_, ?_, ?_, ?_, ?_, ?_, ?_, ?_,
    noLocals⟩
  · rw [keeps.op inv.void.1]
    exact inv.void.2
  · have same : next.heap arch.pvoidtype = state.heap arch.pvoidtype := by
      apply keeps.listed inv.pvoid.1
      rw [inv.pvoid.2.1]
      rfl
    rw [same]
    exact ⟨by have := inv.pvoid.1; omega, inv.pvoid.2⟩
  · intro bucket id member
    rw [typetab] at member
    have := inv.live bucket id member
    omega
  · intro bucket id member
    rw [typetab] at member
    rw [listedSame bucket id member]
    exact inv.placed bucket id member
  · intro bucket id member
    rw [typetab] at member
    obtain ⟨call, describes⟩ := inv.described bucket id member
    exact ⟨call, keeps.describes (inv.live bucket id member) describes⟩
  · intro bucket
    rw [typetab]
    refine (inv.unique bucket).imp_of_mem ?_
    intro left right inLeft inRight different
    rw [keeps.sig inv.ordered (inv.live bucket left inLeft),
      keeps.sig inv.ordered (inv.live bucket right inRight)]
    exact different
  · rw [typetab]
    exact inv.decreasing
  · rw [locals]
    exact inv.localsDecreasing
  · intro id member
    rw [locals] at member
    have := inv.localsLive id member
    omega
  · intro id member listed
    rw [locals] at member
    have live := inv.localsLive id member
    rw [keeps.op live] at listed
    rw [typetab, keeps.listed live listed]
    exact inv.localsPlaced id member listed
  · rw [typetab, locals]
    exact inv.localsYoung

theorem Invariant.unlistedType (inv : Invariant arch addr state)
    (fits : ∀ part ∈ tp.parts, part < state.count) (unlist : unlisted tp.op = true) :
    Invariant arch addr (addtype tp state) := by
  have base : Invariant arch addr { addtype tp state with localtypes := state.localtypes } :=
    inv.keep ⟨(addtype_keeps tp state).count, (addtype_keeps tp state).objects⟩
      (addtype_ordered inv.ordered fits) rfl rfl inv.noLocals
  cases curfun : state.curfun with
  | false =>
    have same : addtype tp state = { addtype tp state with localtypes := state.localtypes } := by
      simp [addtype, curfun]
    rw [same]
    exact base
  | true =>
    have locals : (addtype tp state).localtypes = state.count :: state.localtypes := by
      simp [addtype, curfun]
    refine { base with
      localsDecreasing := ?_, localsLive := ?_, localsPlaced := ?_, localsYoung := ?_,
      noLocals := ?_ }
    · rw [locals]
      exact List.pairwise_cons.mpr ⟨inv.localsLive, inv.localsDecreasing⟩
    · intro id member
      rw [locals] at member
      rcases List.mem_cons.mp member with rfl | old
      · exact Nat.lt_succ_self _
      · exact Nat.lt_succ_of_lt (inv.localsLive id old)
    · intro id member listed
      rw [locals] at member
      rcases List.mem_cons.mp member with rfl | old
      · rw [addtype_new, unlist] at listed
        cases listed
      · exact base.localsPlaced id old listed
    · intro bucket id member notLocal made inLocals
      rw [locals] at inLocals notLocal
      rcases List.mem_cons.mp inLocals with rfl | old
      · exact inv.live bucket id member
      · exact inv.localsYoung bucket id member
          (fun isLocal => notLocal (List.mem_cons_of_mem _ isLocal)) made old
    · intro outside
      change state.curfun = false at outside
      rw [curfun] at outside
      cases outside

/-- The link of a new object at the head of its chain. -/
def linktype (addr : Nat → Nat) (tp : TypeRec) (state : State) : State :=
  { addtype tp state with
    typetab := Chain.set state.typetab (HASH addr tp)
      (state.count :: state.typetab (HASH addr tp)) }

theorem linktype_keeps (tp : TypeRec) (state : State) : Keeps state (linktype addr tp state) :=
  ⟨(addtype_keeps tp state).count, (addtype_keeps tp state).objects⟩

theorem mem_linktype {bucket id : Nat} : id ∈ (linktype addr tp state).typetab bucket ↔
      id ∈ state.typetab bucket ∨ (id = state.count ∧ bucket = HASH addr tp) := by
  unfold linktype
  by_cases here : bucket = HASH addr tp
  · simp [here, or_comm]
  · simp [Chain.set_other here, here]

theorem Invariant.listedType {type tp : TypeRec} (inv : Invariant arch addr state)
    (live : call.live state = true) (notVoid : ¬ (call.op = .PTR ∧ call.tp = arch.voidtype))
    (described : call.type arch = some type) (shape : SameShape type tp)
    (new : ∀ id ∈ state.typetab (HASH addr type), sig state.heap id ≠ sigRec (sig state.heap) id type) :
    Invariant arch addr (linktype addr tp state) := by
  have fits : ∀ part ∈ tp.parts, part < state.count := by
    rw [shape.parts]
    exact described_parts described live
  have keeps : Keeps state (linktype addr tp state) := linktype_keeps tp state
  have ordered : Ordered (linktype addr tp state).heap (state.count + 1) :=
    addtype_ordered inv.ordered fits
  have newHeap : (linktype addr tp state).heap state.count = tp := addtype_new tp state
  have base : Invariant arch addr
      { linktype addr tp state with typetab := state.typetab, localtypes := state.localtypes } :=
    inv.keep ⟨keeps.count, keeps.objects⟩ ordered rfl rfl inv.noLocals
  have locals : (linktype addr tp state).localtypes =
      if state.curfun then state.count :: state.localtypes else state.localtypes := rfl
  have inLocals : ∀ id, id ∈ (linktype addr tp state).localtypes ↔
      id ∈ state.localtypes ∨ (id = state.count ∧ state.curfun = true) := by
    intro id
    rw [locals]
    cases state.curfun <;> simp [or_comm]
  refine ⟨ordered, base.void, base.pvoid, ?_, ?_, ?_, ?_, ?_, ?_, ?_, ?_, ?_, ?_⟩
  · intro bucket id member
    rcases mem_linktype.mp member with old | ⟨rfl, _⟩
    · exact base.live bucket id old
    · exact Nat.lt_succ_self _
  · intro bucket id member
    rcases mem_linktype.mp member with old | ⟨rfl, rfl⟩
    · exact base.placed bucket id old
    · rw [newHeap]
  · intro bucket id member
    rcases mem_linktype.mp member with old | ⟨rfl, rfl⟩
    · exact base.described bucket id old
    · refine ⟨call, keeps.callLive live, notVoid, type, described, ?_⟩
      rw [newHeap]
      exact shape
  · intro bucket
    by_cases here : bucket = HASH addr tp
    · subst here
      have chain : (linktype addr tp state).typetab (HASH addr tp) =
          state.count :: state.typetab (HASH addr tp) := by simp [linktype]
      rw [chain]
      refine List.pairwise_cons.mpr ⟨?_, base.unique _⟩
      intro id member
      have newSig := addtype_sig inv.ordered fits
      have oldSig := keeps.sig inv.ordered (inv.live _ id member)
      change sig (addtype tp state).heap state.count ≠ sig (linktype addr tp state).heap id
      rw [newSig, oldSig, shape.sig, described_sig _ described state.count id]
      rw [shape.hash] at member
      exact (new id member).symm
    · have chain : (linktype addr tp state).typetab bucket = state.typetab bucket := by
        simp [linktype, Chain.set_other here]
      rw [chain]
      exact base.unique bucket
  · intro bucket
    by_cases here : bucket = HASH addr tp
    · subst here
      have chain : (linktype addr tp state).typetab (HASH addr tp) =
          state.count :: state.typetab (HASH addr tp) := by simp [linktype]
      rw [chain]
      exact List.pairwise_cons.mpr ⟨inv.live _, inv.decreasing _⟩
    · have chain : (linktype addr tp state).typetab bucket = state.typetab bucket := by
        simp [linktype, Chain.set_other here]
      rw [chain]
      exact inv.decreasing bucket
  · rw [locals]
    split_ifs
    · exact List.pairwise_cons.mpr ⟨inv.localsLive, inv.localsDecreasing⟩
    · exact inv.localsDecreasing
  · intro id member
    rcases (inLocals id).mp member with old | ⟨rfl, _⟩
    · exact Nat.lt_succ_of_lt (inv.localsLive id old)
    · exact Nat.lt_succ_self _
  · intro id member listed
    rcases (inLocals id).mp member with old | ⟨rfl, _⟩
    · exact mem_linktype.mpr (Or.inl (base.localsPlaced id old listed))
    · rw [newHeap]
      exact mem_linktype.mpr (Or.inr ⟨rfl, rfl⟩)
  · intro bucket id member notLocal made inMade
    have notOld : id ∉ state.localtypes := fun old => notLocal ((inLocals id).mpr (Or.inl old))
    rcases (inLocals made).mp inMade with old | ⟨rfl, curfun⟩
    · rcases mem_linktype.mp member with oldId | ⟨rfl, _⟩
      · exact inv.localsYoung bucket id oldId notOld made old
      · cases curfun : state.curfun with
        | true => exact absurd ((inLocals state.count).mpr (Or.inr ⟨rfl, curfun⟩)) notLocal
        | false =>
          rw [inv.noLocals curfun] at old
          cases old
    · rcases mem_linktype.mp member with oldId | ⟨rfl, _⟩
      · exact inv.live bucket id oldId
      · exact absurd ((inLocals state.count).mpr (Or.inr ⟨rfl, curfun⟩)) notLocal
  · intro outside
    change state.curfun = false at outside
    rw [locals, outside]
    exact inv.noLocals outside

theorem liveFields_lt {fields : List Field} (live : liveFields state fields = true) :
    ∀ field ∈ fields, field.type < state.count := by
  simpa [liveFields] using live

theorem setmembers_shape (arch : Arch) (heap : Nat → TypeRec) (tp : TypeRec) (fields : List Field) :
    (deftype arch heap { tp with fields := fields, elem := fields.length }).op = tp.op ∧
      (deftype arch heap { tp with fields := fields, elem := fields.length }).letter = tp.letter ∧
        (deftype arch heap { tp with fields := fields, elem := fields.length }).tag = tp.tag :=
  let shape := deftype_shape arch heap { tp with fields := fields, elem := fields.length }
  ⟨shape.op, shape.letter, shape.tag⟩

theorem setmembers_keeps (tagged : isTagged (state.heap id) = true)
    (fields : List Field) : Keeps state (setmembers arch id fields state) := by
  refine ⟨Nat.le_refl _, ?_⟩
  intro other live
  by_cases here : other = id
  · subst here
    right
    have shape := setmembers_shape arch state.heap (state.heap other) fields
    have set : (setmembers arch other fields state).heap other =
        deftype arch state.heap
          { state.heap other with fields := fields, elem := fields.length } := by
      simp [setmembers, setType]
    rw [set]
    exact ⟨tagged, shape⟩
  · left
    simp [setmembers, setType, here]

theorem setmembers_invariant (inv : Invariant arch addr state)
    (tagged : isTagged (state.heap id) = true) (fields : List Field) :
    Invariant arch addr (setmembers arch id fields state) :=
  let keeps := setmembers_keeps tagged fields
  inv.keep keeps (keeps.ordered inv.ordered) rfl rfl inv.noLocals

theorem mktag_eq {op : Op} (made : mktag arch op tag state = some next) :
    ∃ tp, tp.op = op ∧ tp.tag = tag ∧ tp.parts = [] ∧ unlisted op = true ∧ next = addtype tp state := by
  unfold mktag at made
  split at made <;> cases made
  · obtain ⟨tp, shape, allocated⟩ :=
      newtype_eq arch { TypeRec.zero .STRUCT 'S' with tag := tag } state
    refine ⟨tp, shape.op, shape.tag, ?_, rfl, allocated⟩
    rw [shape.parts]
    simp [TypeRec.parts, TypeRec.zero]
  · obtain ⟨tp, shape, allocated⟩ :=
      newtype_eq arch { TypeRec.zero .UNION 'U' with tag := tag } state
    refine ⟨tp, shape.op, shape.tag, ?_, rfl, allocated⟩
    rw [shape.parts]
    simp [TypeRec.parts, TypeRec.zero]
  · obtain ⟨tp, shape, allocated⟩ :=
      newtype_eq arch
        { TypeRec.zero .ENUM (state.heap arch.inttype).letter with
          tag := tag, rank := (state.heap arch.inttype).rank } state
    refine ⟨tp, shape.op, shape.tag, ?_, rfl, allocated⟩
    rw [shape.parts]
    rfl

theorem mktag_invariant (inv : Invariant arch addr state) {op : Op}
    (made : mktag arch op tag state = some next) : Invariant arch addr next ∧ Keeps state next := by
  obtain ⟨tp, opEq, _, noParts, unlist, rfl⟩ := mktag_eq made
  refine ⟨inv.unlistedType ?_ (by rw [opEq]; exact unlist), addtype_keeps tp state⟩
  intro part member
  rw [noParts] at member
  cases member

theorem anonymous_eq (fields : List Field) {op : Op}
    (aggregate : isAggregate op = true) (made : mktag arch op tag state = some next) :
    ∃ tp, setmembers arch state.count fields next = addtype tp state ∧
      unlisted tp.op = true ∧ (∀ part ∈ tp.parts, part ∈ fields.map Field.type) := by
  obtain ⟨tp, opEq, _, _, unlist, rfl⟩ := mktag_eq made
  have shape := deftype_shape arch (addtype tp state).heap
    { tp with fields := fields, elem := fields.length }
  refine ⟨deftype arch (addtype tp state).heap { tp with fields := fields, elem := fields.length },
    ?_, ?_, ?_⟩
  · have heaps : setType (addtype tp state).heap state.count
        (deftype arch (addtype tp state).heap { tp with fields := fields, elem := fields.length }) =
        setType state.heap state.count
          (deftype arch (addtype tp state).heap
            { tp with fields := fields, elem := fields.length }) := by
      funext id
      by_cases here : id = state.count
      · simp [setType, here]
      · simp [setType, addtype, here]
    unfold setmembers
    rw [addtype_new]
    exact congrArg (fun heap => { addtype tp state with heap := heap }) heaps
  · rw [shape.op, opEq]
    exact unlist
  · intro part member
    rw [shape.parts] at member
    unfold TypeRec.parts at member
    simp only [isAggregate, Bool.or_eq_true, decide_eq_true_eq] at aggregate
    simp only [opEq] at member
    rcases aggregate with rfl | rfl
    · simp only at member
      split_ifs at member
      · cases member
      · exact member
    · simp only at member
      split_ifs at member
      · cases member
      · exact member

theorem intern_spec {type : TypeRec} (inv : Invariant arch addr state)
    (live : call.live state = true) (notVoid : ¬ (call.op = .PTR ∧ call.tp = arch.voidtype))
    (described : call.type arch = some type) : Invariant arch addr (intern arch addr type state).2 ∧
      Keeps state (intern arch addr type state).2 ∧ (intern arch addr type state).1 ∈
            (intern arch addr type state).2.typetab (HASH addr type) ∧
          sig (intern arch addr type state).2.heap (intern arch addr type state).1 =
            sigRec (sig state.heap) 0 type := by
  have decides : ∀ id ∈ state.typetab (HASH addr type),
      eqdescribed arch state (state.heap id) type = true ↔
        sig state.heap id = sigRec (sig state.heap) id type := by
    intro id member
    exact eqdescribed_iff inv.ordered described live (inv.live _ id member)
  cases found : search arch state type (state.typetab (HASH addr type)) with
  | some id =>
    have result : intern arch addr type state = (id, state) := by simp [intern, found]
    rw [result]
    have member : id ∈ state.typetab (HASH addr type) := List.mem_of_find?_eq_some found
    refine ⟨inv, .refl state, member, ?_⟩
    have equal := List.find?_some found
    rw [described_sig _ described 0 id]
    exact (decides id member).mp equal
  | none =>
    have missing := List.find?_eq_none.mp found
    obtain ⟨tp, shape, allocated⟩ := newtype_eq arch type state
    have result : intern arch addr type state = (state.count, linktype addr tp state) := by
      simp [intern, found, linktype, allocated, shape.hash]
    rw [result]
    refine ⟨?_, linktype_keeps tp state, ?_, ?_⟩
    · apply inv.listedType live notVoid described shape
      intro id member same
      rw [← described_sig _ described id id] at same
      exact missing id member ((decides id member).mpr same)
    · exact mem_linktype.mpr (Or.inr ⟨rfl, (shape.hash addr).symm⟩)
    · have fits : ∀ part ∈ tp.parts, part < state.count := by
        rw [shape.parts]
        exact described_parts described live
      change sig (addtype tp state).heap state.count = sigRec (sig state.heap) 0 type
      rw [addtype_sig inv.ordered fits, shape.sig, described_sig _ described 0 state.count]

theorem intern_found {type : TypeRec} (inv : Invariant arch addr state)
    (live : call.live state = true) (described : call.type arch = some type)
    (member : id ∈ state.typetab (HASH addr type))
    (same : sig state.heap id = sigRec (sig state.heap) 0 type) :
    intern arch addr type state = (id, state) := by
  have found : search arch state type (state.typetab (HASH addr type)) = some id := by
    apply Chain.find_unique (inv.unique _) _ member same
    intro other inChain
    rw [described_sig _ described 0 other]
    exact eqdescribed_iff inv.ordered described live (inv.live _ other inChain)
  simp [intern, found]

theorem locals_youngest (inv : Invariant arch addr state) : Chain.Youngest
      (fun tp => if unlisted (state.heap tp).op then none else some (HASH addr (state.heap tp)))
      state.typetab state.localtypes where
  decreasing := inv.localsDecreasing
  chainDecreasing := inv.decreasing
  linked := by
    intro id member bucket bucketed
    split_ifs at bucketed with unlist
    cases bucketed
    exact inv.localsPlaced id member (by simpa using unlist)
  placed := by
    intro id _ bucket inChain
    obtain ⟨call, describes⟩ := inv.described bucket id inChain
    rw [describes.unlisted, inv.placed bucket id inChain]
    rfl
  older := inv.localsYoung

theorem flushtypes_spec (inv : Invariant arch addr state) :
    ∃ flushed, flushtypes addr state = some flushed ∧ flushed.heap = state.heap ∧
      flushed.count = state.count ∧ flushed.localtypes = [] ∧ ∀ bucket, flushed.typetab bucket =
          (state.typetab bucket).filter fun id => id ∉ state.localtypes := by
  obtain ⟨typetab, unlinked, result⟩ := Chain.unlink_youngest (locals_youngest inv)
  refine ⟨{ state with typetab := typetab, localtypes := [] }, ?_, rfl, rfl, rfl, result⟩
  unfold flushtypes
  rw [unlinked]
  rfl

theorem flush_spec (inv : Invariant arch addr state) (inside : state.curfun = true) :
    ∃ flushed, step arch addr state .flush = some flushed ∧ Invariant arch addr flushed ∧
      Keeps state flushed ∧ flushed.curfun = false ∧ ∀ bucket, flushed.typetab bucket =
          (state.typetab bucket).filter fun id => id ∉ state.localtypes := by
  obtain ⟨flushed, done, heap, count, locals, chains⟩ := flushtypes_spec inv
  have keeps : Keeps state { flushed with curfun := false } := by
    refine ⟨Nat.le_of_eq count.symm, ?_⟩
    intro id _
    left
    change flushed.heap id = state.heap id
    rw [heap]
  refine ⟨{ flushed with curfun := false }, ?_, ?_, keeps, rfl, chains⟩
  · simp [step, inside, done]
  · have sub : ∀ bucket, ∀ id ∈ flushed.typetab bucket, id ∈ state.typetab bucket := by
      intro bucket id member
      rw [chains bucket] at member
      exact List.mem_of_mem_filter member
    have noLocal : ∀ id, id ∉ flushed.localtypes := by
      rw [locals]
      exact fun _ member => by cases member
    constructor
    · change Ordered flushed.heap flushed.count
      rw [heap, count]
      exact inv.ordered
    · change arch.voidtype < flushed.count ∧ (flushed.heap arch.voidtype).op = .VOID
      rw [heap, count]
      exact inv.void
    · change arch.pvoidtype < flushed.count ∧ (flushed.heap arch.pvoidtype).op = .PTR ∧
        (flushed.heap arch.pvoidtype).type = arch.voidtype
      rw [heap, count]
      exact inv.pvoid
    · intro bucket id member
      exact Nat.lt_of_lt_of_le (inv.live bucket id (sub bucket id member)) keeps.count
    · intro bucket id member
      change HASH addr (flushed.heap id) = bucket
      rw [heap]
      exact inv.placed bucket id (sub bucket id member)
    · intro bucket id member
      obtain ⟨call, describes⟩ := inv.described bucket id (sub bucket id member)
      exact ⟨call, keeps.describes (inv.live bucket id (sub bucket id member)) describes⟩
    · intro bucket
      change (flushed.typetab bucket).Pairwise fun left right =>
        sig flushed.heap left ≠ sig flushed.heap right
      rw [chains bucket, heap]
      exact (inv.unique bucket).filter _
    · intro bucket
      change (flushed.typetab bucket).Pairwise (· > ·)
      rw [chains bucket]
      exact (inv.decreasing bucket).filter _
    · change flushed.localtypes.Pairwise (· > ·)
      rw [locals]
      exact List.Pairwise.nil
    · exact fun id member => absurd member (noLocal id)
    · exact fun id member => absurd member (noLocal id)
    · exact fun _ _ _ _ made member => absurd member (noLocal made)
    · exact fun _ => locals

theorem step_spec (inv : Invariant arch addr state) {event : Event}
    (orderly : Orderly arch addr state event) (stepped : step arch addr state event = some next) :
    Invariant arch addr next ∧ Keeps state next := by
  cases event with
  | mktype call =>
    simp only [step] at stepped
    split_ifs at stepped with live
    obtain ⟨⟨id, result⟩, performed, rfl⟩ := Option.map_eq_some_iff.mp stepped
    unfold Call.perform mktype at performed
    split_ifs at performed with void
    · cases performed
      exact ⟨inv, .refl state⟩
    · obtain ⟨type, described, made⟩ := Option.map_eq_some_iff.mp performed
      have spec := intern_spec inv live void described
      rw [made] at spec
      exact ⟨spec.1, spec.2.1⟩
  | tag op name => exact mktag_invariant inv stepped
  | members id fields =>
    simp only [step] at stepped
    split_ifs at stepped with allowed
    cases stepped
    simp only [Bool.and_eq_true] at allowed
    have tagged : isTagged (state.heap id) = true := by
      simp only [isTagged, Bool.and_eq_true]
      exact ⟨allowed.1.1.2, allowed.1.2⟩
    exact ⟨setmembers_invariant inv tagged fields, setmembers_keeps tagged fields⟩
  | anonymous op fields =>
    simp only [step] at stepped
    split_ifs at stepped with allowed
    simp only [Bool.and_eq_true] at allowed
    obtain ⟨made, allocated, rfl⟩ := Option.map_eq_some_iff.mp stepped
    obtain ⟨tp, result, unlist, parts⟩ := anonymous_eq fields allowed.1 allocated
    rw [result]
    refine ⟨inv.unlistedType ?_ unlist, addtype_keeps tp state⟩
    intro part member
    obtain ⟨field, inFields, rfl⟩ := List.mem_map.mp (parts part member)
    exact liveFields_lt allowed.2 field inFields
  | complete id nelem => exact orderly.elim
  | enter =>
    simp only [step] at stepped
    split_ifs at stepped with curfun
    cases stepped
    have outside : state.curfun = false := by simpa using curfun
    have keeps : Keeps state { state with curfun := true } := ⟨Nat.le_refl _, fun _ _ => Or.inl rfl⟩
    exact ⟨inv.keep keeps inv.ordered rfl rfl fun _ => inv.noLocals outside, keeps⟩
  | flush =>
    have inside : state.curfun = true := by
      simp only [step] at stepped
      split_ifs at stepped with curfun
      exact curfun
    obtain ⟨flushed, done, flushedInv, keeps, _⟩ := flush_spec inv inside
    rw [stepped] at done
    cases done
    exact ⟨flushedInv, keeps⟩

theorem start_invariant (arch : Arch) (addr : Nat → Nat) : Invariant arch addr (start arch) where
  ordered := arch.ordered
  void := arch.void
  pvoid := arch.pvoid
  live := fun _ _ member => by cases member
  placed := fun _ _ member => by cases member
  described := fun _ _ member => by cases member
  unique := fun _ => List.Pairwise.nil
  decreasing := fun _ => List.Pairwise.nil
  localsDecreasing := List.Pairwise.nil
  localsLive := fun _ member => by cases member
  localsPlaced := fun _ member => by cases member
  localsYoung := fun _ _ member => by cases member
  noLocals := fun _ => rfl

theorem run_spec {events : List Event} (inv : Invariant arch addr state)
    (orderly : Meets (step arch addr) (Orderly arch addr) state events)
    (done : run (step arch addr) state events = some next) : Invariant arch addr next ∧ Keeps state next := by
  refine run_invariant (fun reached => Invariant arch addr reached ∧ Keeps state reached) ?_
    ⟨inv, .refl state⟩ orderly done
  rintro reached event after ⟨reachedInv, keeps⟩ holds stepped
  obtain ⟨afterInv, kept⟩ := step_spec reachedInv holds stepped
  exact ⟨afterInv, keeps.trans kept⟩

end Scc.Cc1.Types
