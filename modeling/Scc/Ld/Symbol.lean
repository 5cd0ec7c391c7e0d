import Mathlib.Logic.Function.Basic
import Mathlib.Tactic.SplitIfs

/-!
# The symbols of the linker

A symbol is on one of three lists. `define()` looks at the type of the symbol in the table
to see what is known of it, but nothing ever writes that type after `lookupsym()` has made
the symbol undefined. References from objects are not looked up at all.
-/

namespace Scc.Ld

set_option autoImplicit false

/-- A symbol of an object: the type is `U` for a reference, `C` for a common, and small for
a local symbol. -/
structure Symbol where
  name : String
  type : Char
  value : Nat
  size : Nat
deriving DecidableEq

inductive Lst
  | undef
  | common
  | defs
deriving DecidableEq

structure TabSymbol where
  type : Char
  value : Nat
  size : Nat
  lst : Lst
deriving DecidableEq

structure SymTab where
  symtab : String → Option TabSymbol
  /-- The names in the messages of `error()`. -/
  errors : List String

def SymTab.store (st : SymTab) (name : String) (sym : TabSymbol) : SymTab :=
  { st with symtab := Function.update st.symtab name (some sym) }

/-- The symbol of the name, made where there is none. -/
def lookupsym (st : SymTab) (name : String) : TabSymbol := (st.symtab name).getD ⟨'U', 0, 0, .undef⟩

def hasref (st : SymTab) (name : String) : Bool :=
  match st.symtab name with
  | some sym => sym.type = 'U'
  | none => false

/-- The last label of the switch is misspelt, so a symbol of another type is left alone. -/
def define (st : SymTab) (osym : Symbol) : TabSymbol :=
  let sym := lookupsym st osym.name
  if sym.type = 'U' then
    { sym with
      value := osym.value, size := osym.size, lst := if osym.type = 'C' then .common else .defs }
  else if sym.type = 'C' then
    if osym.type ≠ 'C' then { sym with size := osym.size, value := osym.size, lst := .defs }
    else if sym.size < osym.size then { sym with value := osym.value, size := osym.size }
    else sym
  else sym

/-- What is read: a name after `-u`, or a symbol of an object and the base of its section. -/
inductive Input
  | option (name : String)
  | symbol (sym : Symbol) (base : Nat)
deriving DecidableEq

def islower (c : Char) : Bool := 'a' ≤ c && c ≤ 'z'

def newsym (st : SymTab) (osym : Symbol) (base : Nat) : SymTab :=
  if osym.type = 'U' || islower osym.type then st
  else
    let sym := define st osym
    st.store osym.name { sym with value := sym.value + base }

def SymTab.read (st : SymTab) : Input → SymTab
  | .option name => st.store name (lookupsym st name)
  | .symbol sym base => newsym st sym base

inductive Status
  | absent
  | undefined
  | common (size : Nat)
  | defined (value size : Nat)
deriving DecidableEq

structure Resolution where
  status : String → Status
  reports : List String

def Status.refer : Status → Status
  | .absent => .undefined
  | status => status

/-- The largest common. A definition stays. -/
def Status.share (size : Nat) : Status → Status
  | .common size' => .common (max size' size)
  | .defined value size' => .defined value size'
  | _ => .common size

def Status.isDefined : Status → Bool
  | .defined _ _ => true
  | _ => false

def Resolution.define (res : Resolution) (name : String) (value size : Nat) : Resolution :=
  if (res.status name).isDefined then { res with reports := res.reports ++ [name] }
  else { res with status := Function.update res.status name (.defined value size) }

def Resolution.set (res : Resolution) (name : String) (status : Status) : Resolution :=
  { res with status := Function.update res.status name status }

def Resolution.read (res : Resolution) : Input → Resolution
  | .option name => res.set name (res.status name).refer
  | .symbol sym base =>
    if islower sym.type then res
    else if sym.type = 'U' then res.set sym.name (res.status sym.name).refer
    else if sym.type = 'C' then res.set sym.name ((res.status sym.name).share sym.size)
    else res.define sym.name (sym.value + base) sym.size

def TabSymbol.status (sym : TabSymbol) : Status :=
  match sym.lst with
  | .undef => .undefined
  | .common => .common sym.size
  | .defs => .defined sym.value sym.size

def status : Option TabSymbol → Status
  | none => .absent
  | some sym => sym.status

/-- The table and the messages are those of the resolution. -/
structure Resolves (st : SymTab) (res : Resolution) : Prop where
  status : ∀ name, status (st.symtab name) = res.status name
  errors : st.errors = res.reports

/-- The table is right before the input, and after every step of it. -/
def ResolvesAll : SymTab → Resolution → List Input → Prop
  | st, res, [] => Resolves st res
  | st, res, input :: rest => Resolves st res ∧ ResolvesAll (st.read input) (res.read input) rest

/-- A step that `newsym()` takes rightly: a reference only to a name that is known, no
common smaller than the one before it, and nothing but references after a definition. -/
def Ordered (res : Resolution) : Input → Prop
  | .option _ => True
  | .symbol sym _ =>
    if islower sym.type then True
    else if sym.type = 'U' then res.status sym.name ≠ .absent
    else
      match res.status sym.name with
      | .defined _ _ => False
      | .common size => sym.type = 'C' → size ≤ sym.size
      | _ => True

def OrderedAll : Resolution → List Input → Prop
  | _, [] => True
  | res, input :: rest => Ordered res input ∧ OrderedAll (res.read input) rest

@[simp] theorem store_same (st : SymTab) (name : String) (sym : TabSymbol) :
    (st.store name sym).symtab name = some sym := Function.update_self ..

theorem store_other (st : SymTab) {name other : String} (sym : TabSymbol) (differ : other ≠ name) :
    (st.store name sym).symtab other = st.symtab other := Function.update_of_ne differ _ _

@[simp] theorem set_same (res : Resolution) (name : String) (status : Status) :
    (res.set name status).status name = status := Function.update_self ..

theorem set_other (res : Resolution) {name other : String} (status : Status) (differ : other ≠ name) :
    (res.set name status).status other = res.status other := Function.update_of_ne differ _ _

/-- The type in the table stays that of a reference. -/
def Untyped (st : SymTab) : Prop := ∀ name sym, st.symtab name = some sym → sym.type = 'U'

variable {st : SymTab} {res : Resolution}

theorem Untyped.lookupsym (untyped : Untyped st) (name : String) : (lookupsym st name).type = 'U' := by
  rw [Ld.lookupsym]
  cases here : st.symtab name with
  | none => rfl
  | some sym => exact untyped name sym here

theorem Untyped.store (untyped : Untyped st) (name : String) {sym : TabSymbol}
    (isU : sym.type = 'U') : Untyped (st.store name sym) := by
  intro name' sym' here
  by_cases same : name' = name
  · rw [same, store_same] at here
    rw [← Option.some.inj here]
    exact isU
  · rw [store_other st sym same] at here
    exact untyped name' sym' here

theorem define_eq (untyped : Untyped st) (osym : Symbol) : define st osym =
      ⟨'U', osym.value, osym.size, if osym.type = 'C' then .common else .defs⟩ := by
  have isU := untyped.lookupsym osym.name
  rw [define, if_pos isU, isU]

theorem Untyped.read (untyped : Untyped st) (input : Input) : Untyped (st.read input) := by
  cases input with
  | option name => exact untyped.store name (untyped.lookupsym name)
  | symbol sym base =>
    rw [SymTab.read, newsym]
    split_ifs
    · exact untyped
    · apply untyped.store
      rw [define_eq untyped]

theorem resolves_store (resolves : Resolves st res) (name : String) (sym : TabSymbol) (status : Status) :
    Resolves (st.store name sym) (res.set name status) ↔ sym.status = status := by
  constructor
  · intro resolves'
    have here := resolves'.status name
    rw [store_same, set_same] at here
    exact here
  · intro same
    constructor
    · intro name'
      by_cases isName : name' = name
      · rw [isName, store_same, set_same]
        exact same
      · rw [store_other st sym isName, set_other res status isName]
        exact resolves.status name'
    · exact resolves.errors

theorem lookupsym_status (resolves : Resolves st res) (name : String) :
    (lookupsym st name).status = (res.status name).refer := by
  rw [← resolves.status name, lookupsym]
  cases here : st.symtab name with
  | none => rfl
  | some sym =>
    have listed : (status (some sym)).refer = sym.status := by
      rw [status, TabSymbol.status]
      cases sym.lst <;> rfl
    rw [listed]
    rfl

theorem define_resolves (resolves : Resolves st res) (name : String)
    {sym : TabSymbol} {value size : Nat} (isSym : sym.status = .defined value size) :
    Resolves (st.store name sym) (res.define name value size) ↔ (res.status name).isDefined = false := by
  rw [Resolution.define]
  cases isDefined : (res.status name).isDefined with
  | false =>
    have stored := resolves_store resolves name sym (.defined value size)
    exact ⟨fun _ => rfl, fun _ => stored.mpr isSym⟩
  | true =>
    constructor
    · intro resolves'
      have longer : st.errors = res.reports ++ [name] := resolves'.errors
      rw [resolves.errors] at longer
      exact absurd longer (by simp)
    · intro isFalse
      cases isFalse

theorem refer_resolves (resolves : Resolves st res) (name : String) :
    Resolves st (res.set name (res.status name).refer) ↔ res.status name ≠ .absent := by
  cases here : res.status name with
  | absent =>
    constructor
    · intro resolves'
      have same := (resolves'.status name).symm.trans (resolves.status name)
      rw [set_same, here] at same
      cases same
    · intro notAbsent
      exact absurd rfl notAbsent
  | _ =>
    constructor
    · intro _ isAbsent
      cases isAbsent
    · intro _
      constructor
      · intro name'
        by_cases isName : name' = name
        · rw [isName, set_same, resolves.status, here]
          rfl
        · rw [set_other res _ isName]
          exact resolves.status name'
      · exact resolves.errors

theorem read_resolves (resolves : Resolves st res) (untyped : Untyped st) (input : Input) :
    Resolves (st.read input) (res.read input) ↔ Ordered res input := by
  cases input with
  | option name =>
    have stored := resolves_store resolves name (lookupsym st name) ((res.status name).refer)
    exact ⟨fun _ => trivial, fun _ => stored.mpr (lookupsym_status resolves name)⟩
  | symbol sym base =>
    rw [SymTab.read, newsym, Resolution.read, Ordered]
    by_cases isLocal : islower sym.type = true
    · have skipped : (decide (sym.type = 'U') || islower sym.type) = true := by simp [isLocal]
      rw [if_pos skipped, if_pos isLocal, if_pos isLocal]
      exact ⟨fun _ => trivial, fun _ => resolves⟩
    by_cases isRef : sym.type = 'U'
    · have skipped : (decide (sym.type = 'U') || islower sym.type) = true := by simp [isRef]
      rw [if_pos skipped, if_neg isLocal, if_pos isRef, if_neg isLocal, if_pos isRef]
      exact refer_resolves resolves sym.name
    have kept : ¬ (decide (sym.type = 'U') || islower sym.type) = true := by simp [isLocal, isRef]
    rw [if_neg kept, if_neg isLocal, if_neg isRef, if_neg isLocal, if_neg isRef, define_eq untyped]
    by_cases isCommon : sym.type = 'C'
    · rw [if_pos isCommon, if_pos isCommon, resolves_store resolves]
      have listed : (TabSymbol.mk 'U' (sym.value + base) sym.size .common).status = .common sym.size := rfl
      rw [listed]
      cases res.status sym.name with
      | absent => simp [Status.share]
      | undefined => simp [Status.share]
      | common size =>
        simp only [Status.share, Status.common.injEq, isCommon, forall_const]
        omega
      | defined value size => simp [Status.share]
    · rw [if_neg isCommon, if_neg isCommon, define_resolves resolves sym.name rfl]
      cases res.status sym.name with
      | absent => simp [Status.isDefined]
      | undefined => simp [Status.isDefined]
      | common size => simp [Status.isDefined, isCommon]
      | defined value size => simp [Status.isDefined]

theorem resolves_all_iff (resolves : Resolves st res) (untyped : Untyped st) (inputs : List Input) :
    ResolvesAll st res inputs ↔ OrderedAll res inputs := by
  induction inputs generalizing st res with
  | nil => exact ⟨fun _ => trivial, fun _ => resolves⟩
  | cons input rest ih =>
    have one := read_resolves resolves untyped input
    constructor
    · rintro ⟨_, later⟩
      have next : Resolves (st.read input) (res.read input) := by
        cases rest with
        | nil => exact later
        | cons => exact later.1
      exact ⟨one.mp next, (ih next (untyped.read input)).mp later⟩
    · rintro ⟨ordered, later⟩
      have next := one.mpr ordered
      exact ⟨resolves, (ih next (untyped.read input)).mpr later⟩

def SymTab.empty : SymTab := ⟨fun _ => none, []⟩

def Resolution.empty : Resolution := ⟨fun _ => .absent, []⟩

/-- The table is right after every step exactly when every step is in order. -/
theorem symbols_resolved_iff (inputs : List Input) :
    ResolvesAll .empty .empty inputs ↔ OrderedAll .empty inputs := by
  apply resolves_all_iff
  · exact ⟨fun _ => rfl, rfl⟩
  · intro name sym here
    cases here

/-- A reference to a name that no object has defined yet. -/
theorem reference_not_recorded :
    ¬ ResolvesAll .empty .empty [.symbol ⟨"main", 'U', 0, 0⟩ 0] := by
  rintro ⟨_, after⟩
  have recorded := after.status "main"
  have absent : status ((SymTab.empty.read (.symbol ⟨"main", 'U', 0, 0⟩ 0)).symtab "main") = .absent := rfl
  have wanted : (Resolution.empty.read (.symbol ⟨"main", 'U', 0, 0⟩ 0)).status "main" = .undefined := rfl
  rw [absent, wanted] at recorded
  cases recorded

end Scc.Ld
