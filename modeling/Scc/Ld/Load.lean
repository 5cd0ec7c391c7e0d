import Scc.Ld.Section
import Scc.Ld.Symbol
import Scc.Lib.Walk

/-!
# Loading objects

`load()` puts every object that it links before the ones of earlier calls, and `objhead` stays at the first one.
The later passes go from `objhead` on, where the list ends at once.
-/

namespace Scc.Ld

open Scc.Lib

set_option autoImplicit false

/-- What `readobj()` reads. The base of a symbol is that of its section. -/
structure Contents where
  secs : List Section
  syms : List (Symbol × Nat)

/-- What the library finds in a file: the type, whether there is memory for an object, the object. -/
structure File where
  objprobe : Option Nat
  newobj : Bool
  readobj : Option Contents

inductive Message
  | badFormat
  | notCompatible
  /-- The text of `errno`. -/
  | strerror
deriving DecidableEq

structure Linker where
  bintype : Option Nat
  /-- The objects are numbered in the order in which they are made. -/
  objs : Nat
  next : Nat → Option Nat
  objhead : Option Nat
  last : Option Nat
  secs : State
  tab : SymTab
  /-- The list of the undefined symbols. -/
  undef : List String
  errors : List Message

def Linker.init : Linker where
  bintype := none
  objs := 0
  next _ := none
  objhead := none
  last := none
  secs := ⟨fun _ => unseen, []⟩
  tab := .empty
  undef := []
  errors := []

def Linker.error (l : Linker) (message : Message) : Linker := { l with errors := l.errors ++ [message] }

def Linker.lookupsym (l : Linker) (name : String) : Linker :=
  match l.tab.symtab name with
  | some _ => l
  | none => { l with tab := l.tab.read (.option name), undef := l.undef ++ [name] }

/-- A symbol that is defined goes from the list of the undefined ones. -/
def Linker.newsym (l : Linker) (osym : Symbol × Nat) : Linker :=
  if osym.1.type = 'U' || islower osym.1.type then l
  else
    let l := l.lookupsym osym.1.name
    { l with
      tab := l.tab.read (.symbol osym.1 osym.2)
      undef := if (Ld.lookupsym l.tab osym.1.name).type = 'U' then l.undef.erase osym.1.name else l.undef }

def is_needed (tab : SymTab) (contents : Contents) : Bool := contents.syms.any fun sym => hasref tab sym.1.name

def Linker.define (l : Linker) (contents : Contents) : Option Linker :=
  (contents.secs.foldlM newsec l.secs).map fun secs => contents.syms.foldl Linker.newsym { l with secs := secs }

def Linker.link (l : Linker) (obj : Nat) : Linker :=
  { l with
    next := Function.update l.next obj l.last
    last := some obj
    objhead := l.objhead.or (some obj) }

/-- There is nothing when the linker exits. -/
def load (l : Linker) (fp : File) (inlib : Bool) : Option Linker :=
  match fp.objprobe with
  | none => some (l.error .badFormat)
  | some t =>
    if l.bintype ≠ none ∧ l.bintype ≠ some t then some (l.error .notCompatible)
    else
      let l := { l with bintype := some t }
      if fp.newobj = false then some (l.error .strerror)
      else
        let obj := l.objs
        let l := { l with objs := obj + 1, next := Function.update l.next obj none }
        match fp.readobj with
        | none => some (l.error .strerror)
        | some contents =>
          if inlib = true ∧ is_needed l.tab contents = false then some l
          else (l.define contents).map fun l => l.link obj

def follow (next : Nat → Option Nat) : Option Nat → Step (Option Nat) Nat Unit
  | none => .stop ()
  | some obj => .visit obj (next obj)

/-- What `for (obj = objhead; obj; obj = obj->next)` goes over. -/
def Linker.Objects (l : Linker) (objs : List Nat) : Prop := Walk (follow l.next) l.objhead objs ()

/-- The object of a call that is loaded: it has the right type, it is read, and it is needed. -/
def Loads (l : Linker) (fp : File) (inlib : Bool) : Prop :=
  ∃ t contents, fp.objprobe = some t ∧ (l.bintype = none ∨ l.bintype = some t) ∧ fp.newobj = true ∧
    fp.readobj = some contents ∧ (inlib = true → is_needed l.tab contents = true)

/-- Calls one after the other, with the objects that they load. -/
inductive LoadAll : Linker → List (File × Bool) → Linker → List Nat → Prop
  | nil (l : Linker) : LoadAll l [] l []
  | loads {l l' l'' : Linker} {fp : File} {inlib : Bool} {rest : List (File × Bool)} {objs : List Nat}
      (succeeds : Loads l fp inlib) (first : load l fp inlib = some l') (later : LoadAll l' rest l'' objs) :
      LoadAll l ((fp, inlib) :: rest) l'' (l.objs :: objs)
  | fails {l l' l'' : Linker} {fp : File} {inlib : Bool} {rest : List (File × Bool)} {objs : List Nat}
      (failed : ¬ Loads l fp inlib) (first : load l fp inlib = some l') (later : LoadAll l' rest l'' objs) :
      LoadAll l ((fp, inlib) :: rest) l'' objs

structure SameObjects (l l' : Linker) : Prop where
  next : l'.next = l.next
  objhead : l'.objhead = l.objhead
  last : l'.last = l.last
  objs : l'.objs = l.objs

theorem lookupsym_same (l : Linker) (name : String) : SameObjects l (l.lookupsym name) := by
  unfold Linker.lookupsym
  cases l.tab.symtab name <;> exact ⟨rfl, rfl, rfl, rfl⟩

theorem newsym_same (l : Linker) (osym : Symbol × Nat) : SameObjects l (l.newsym osym) := by
  unfold Linker.newsym
  split_ifs
  · exact ⟨rfl, rfl, rfl, rfl⟩
  · have same := lookupsym_same l osym.1.name
    exact ⟨same.next, same.objhead, same.last, same.objs⟩

theorem SameObjects.trans {l l' l'' : Linker} (first : SameObjects l l') (second : SameObjects l' l'') :
    SameObjects l l'' :=
  ⟨second.next.trans first.next, second.objhead.trans first.objhead, second.last.trans first.last,
    second.objs.trans first.objs⟩

theorem newsyms_same (l : Linker) (syms : List (Symbol × Nat)) :
    SameObjects l (syms.foldl Linker.newsym l) := by
  induction syms generalizing l with
  | nil => exact ⟨rfl, rfl, rfl, rfl⟩
  | cons osym syms ih => exact (newsym_same l osym).trans (ih (l.newsym osym))

variable {l l' : Linker} {fp : File} {inlib : Bool} {objs : List Nat}

theorem define_same {contents : Contents} (defined : l.define contents = some l') : SameObjects l l' := by
  unfold Linker.define at defined
  rcases Option.map_eq_some_iff.mp defined with ⟨secs, _, rfl⟩
  have same := newsyms_same { l with secs := secs } contents.syms
  exact ⟨same.next, same.objhead, same.last, same.objs⟩

theorem load_links (succeeds : Loads l fp inlib) (first : load l fp inlib = some l') :
    l'.objs = l.objs + 1 ∧ l'.next = Function.update l.next l.objs l.last ∧ l'.last = some l.objs ∧
      l'.objhead = l.objhead.or (some l.objs) := by
  rcases succeeds with ⟨t, contents, probed, compatible, made, read, needed⟩
  have sameType : ¬ (l.bintype ≠ none ∧ l.bintype ≠ some t) := by
    intro differ
    rcases compatible with none_ | some_
    · exact differ.1 none_
    · exact differ.2 some_
  unfold load at first
  rw [probed] at first
  dsimp only at first
  rw [if_neg sameType, if_neg (by rw [made]; nofun), read] at first
  dsimp only at first
  rw [if_neg] at first
  · rcases Option.map_eq_some_iff.mp first with ⟨l1, defined, rfl⟩
    have same := define_same defined
    refine ⟨same.objs, ?_, rfl, ?_⟩
    · unfold Linker.link
      dsimp only
      rw [same.next, same.last, Function.update_idem]
    · unfold Linker.link
      dsimp only
      rw [same.objhead]
  · intro unneeded
    have is := needed unneeded.1
    rw [unneeded.2] at is
    cases is

theorem load_leaves (failed : ¬ Loads l fp inlib) (first : load l fp inlib = some l') :
    l.objs ≤ l'.objs ∧ (∀ obj < l.objs, l'.next obj = l.next obj) ∧ l'.last = l.last ∧
      l'.objhead = l.objhead := by
  unfold load at first
  cases probed : fp.objprobe with
  | none =>
    rw [probed] at first
    cases first
    exact ⟨le_refl _, fun _ _ => rfl, rfl, rfl⟩
  | some t =>
    rw [probed] at first
    dsimp only at first
    split_ifs at first with differ unmade
    · cases first
      exact ⟨le_refl _, fun _ _ => rfl, rfl, rfl⟩
    · cases first
      exact ⟨le_refl _, fun _ _ => rfl, rfl, rfl⟩
    · have older : ∀ obj < l.objs, Function.update l.next l.objs none obj = l.next obj :=
        fun obj before => Function.update_of_ne (Nat.ne_of_lt before) _ _
      cases read : fp.readobj with
      | none =>
        rw [read] at first
        cases first
        exact ⟨Nat.le_succ _, older, rfl, rfl⟩
      | some contents =>
        rw [read] at first
        dsimp only at first
        split_ifs at first with unneeded
        · cases first
          exact ⟨Nat.le_succ _, older, rfl, rfl⟩
        · refine absurd ⟨t, contents, probed, ?_, by simpa using unmade, read, ?_⟩ failed
          · by_contra neither
            rw [not_or] at neither
            exact differ neither
          · intro isLib
            by_contra no
            exact unneeded ⟨isLib, by simpa using no⟩

/-- From the last object the list goes back to the first one, and there is nothing after that. -/
structure Linked (l : Linker) (objs : List Nat) : Prop where
  made : ∀ obj ∈ objs, obj < l.objs
  objhead : l.objhead = objs.head?
  first : ∀ obj, objs.head? = some obj → l.next obj = none
  back : Walk (follow l.next) l.last objs.reverse ()

theorem walk_congr {next next' : Nat → Option Nat} {place : Option Nat}
    (walk : Walk (follow next) place objs ()) (same : ∀ obj ∈ objs, next' obj = next obj) :
    Walk (follow next') place objs () := by
  induction objs generalizing place with
  | nil =>
    cases walk with
    | stop stopped =>
      cases place with
      | none => exact .stop rfl
      | some obj => cases stopped
  | cons obj objs ih =>
    cases walk with
    | visit stepped rest =>
      cases place with
      | none => cases stepped
      | some obj' =>
        cases stepped
        have later := ih rest fun o member => same o (List.mem_cons_of_mem _ member)
        rw [← same obj List.mem_cons_self] at later
        exact .visit rfl later

theorem linked_loads (linked : Linked l objs)
    (succeeds : Loads l fp inlib) (first : load l fp inlib = some l') : Linked l' (objs ++ [l.objs]) := by
  rcases load_links succeeds first with ⟨count, next, last, objhead⟩
  have older : ∀ obj ∈ objs, l'.next obj = l.next obj := by
    intro obj member
    rw [next, Function.update_of_ne (Nat.ne_of_lt (linked.made obj member))]
  constructor
  · intro obj member
    rw [count]
    rcases List.mem_append.mp member with old | new
    · exact Nat.lt_succ_of_lt (linked.made obj old)
    · rw [List.mem_singleton.mp new]
      exact Nat.lt_succ_self _
  · rw [objhead, linked.objhead]
    cases objs <;> rfl
  · intro obj head
    cases objs with
    | nil =>
      cases head
      have noLast : l.last = none := by
        cases linked.back with
        | stop stopped =>
          cases here : l.last with
          | none => rfl
          | some obj =>
            rw [here] at stopped
            cases stopped
      rw [next, Function.update_self, noLast]
    | cons first objs =>
      cases head
      rw [older obj List.mem_cons_self, linked.first obj rfl]
  · rw [last, List.reverse_append]
    have newest : follow l'.next (some l.objs) = .visit l.objs l.last := by
      have here : l'.next l.objs = l.last := by
        rw [next, Function.update_self]
      rw [← here]
      rfl
    exact .visit newest <| walk_congr linked.back fun obj member => older obj (List.mem_reverse.mp member)

theorem linked_fails (linked : Linked l objs)
    (failed : ¬ Loads l fp inlib) (first : load l fp inlib = some l') : Linked l' objs := by
  rcases load_leaves failed first with ⟨count, older, last, objhead⟩
  constructor
  · intro obj member
    exact lt_of_lt_of_le (linked.made obj member) count
  · rw [objhead, linked.objhead]
  · intro obj head
    rw [older obj (linked.made obj (List.mem_of_head? head)), linked.first obj head]
  · rw [last]
    exact walk_congr linked.back fun obj member => older obj (linked.made obj (List.mem_reverse.mp member))

theorem linked_all {files : List (File × Bool)} {objs new : List Nat}
    (run : LoadAll l files l' new) (linked : Linked l objs) : Linked l' (objs ++ new) := by
  induction run generalizing objs with
  | nil =>
    rw [List.append_nil]
    exact linked
  | loads succeeds first _ ih =>
    have later := ih (linked_loads linked succeeds first)
    rwa [List.append_assoc] at later
  | fails failed first _ ih => exact ih (linked_fails linked failed first)

theorem linked_init : Linked .init [] where
  made := nofun
  objhead := rfl
  first := nofun
  back := .stop rfl

theorem objects_head (linked : Linked l objs) : l.Objects (objs.take 1) := by
  unfold Linker.Objects
  rw [linked.objhead]
  cases objs with
  | nil => exact .stop rfl
  | cons obj objs =>
    have alone := linked.first obj rfl
    exact .visit rfl (alone ▸ .stop rfl)

/-- The later passes go over all the objects if there is one at most. -/
theorem objects_complete_iff {files : List (File × Bool)} {l : Linker} {objs : List Nat}
    (run : LoadAll .init files l objs) : l.Objects objs ↔ objs.length ≤ 1 := by
  have head := objects_head (linked_all run linked_init)
  rw [List.nil_append] at head
  constructor
  · intro complete
    rw [← (head.unique complete).1]
    exact List.length_take_le 1 objs
  · intro short
    rwa [List.take_of_length_le short] at head

def emptyFile : File := ⟨some 0, true, some ⟨[], []⟩⟩

theorem emptyFile_loads (compatible : l.bintype = none ∨ l.bintype = some 0) : Loads l emptyFile false :=
  ⟨0, ⟨[], []⟩, rfl, compatible, rfl, rfl, nofun⟩

theorem one_complete : ∃ l, LoadAll .init [(emptyFile, false)] l [0] ∧ l.Objects [0] := by
  have run : LoadAll .init [(emptyFile, false)] _ [0] :=
    .loads (emptyFile_loads (.inl rfl)) rfl (.nil _)
  exact ⟨_, run, (objects_complete_iff run).mpr (by decide)⟩

/-- The second of two objects. -/
theorem second_missed : ¬ ∀ (files : List (File × Bool)) (l : Linker) (objs : List Nat),
    LoadAll .init files l objs → l.Objects objs := by
  intro all
  have run : LoadAll .init [(emptyFile, false), (emptyFile, false)] _ [0, 1] :=
    .loads (emptyFile_loads (.inl rfl)) rfl (.loads (emptyFile_loads (.inr rfl)) rfl (.nil _))
  have walk := all _ _ _ run
  cases walk with
  | visit stepped rest =>
    cases stepped
    cases rest with
    | visit stepped' _ => cases stepped'

end Scc.Ld
