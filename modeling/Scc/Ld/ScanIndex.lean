import Scc.Ld.Load

/-!
# The index of a library

`scanindex()` goes over the index again until nothing is undefined or nothing is loaded. A name in the table
always counts as undefined, so a member is loaded for every one of its names that comes after it, and again in the
next turn.
-/

namespace Scc.Ld

open Scc.Lib

set_option autoImplicit false

structure Entry where
  name : String
  off : Nat
deriving DecidableEq

/-- The calls of `load()`: the offset in the library, and the linker before it. -/
abbrev Log := List (Nat × Linker)

variable (lib : Nat → File)

/-- The loop over the index. There is nothing when the linker exits. -/
def scan : Linker → List Entry → Option (Linker × Log)
  | l, [] => some (l, [])
  | l, e :: index =>
    if hasref l.tab e.name = false then scan l index
    else
      (load l (lib e.off) false).bind fun l' =>
        (scan l' index).map fun r => (r.1, (e.off, l) :: r.2)

/-- So many turns of the outer loop at most. -/
def scanindex (index : List Entry) : Nat → Linker → Option (Linker × Log)
  | 0, _ => none
  | turns + 1, l =>
    if l.undef = [] then some (l, [])
    else
      (scan lib l index).bind fun r =>
        if r.2 = [] then some r
        else (scanindex index turns r.1).map fun r' => (r'.1, r.2 ++ r'.2)

/-- The states that options and calls of `load()` lead to. -/
inductive Reached : Linker → Prop
  | init : Reached .init
  | option {l : Linker} (name : String) (before : Reached l) : Reached (l.lookupsym name)
  | load {l l' : Linker} (fp : File) (inlib : Bool) (before : Reached l) (loaded : load l fp inlib = some l') :
      Reached l'

variable (t : Nat)

/-- The object in a file, if it has this type. -/
def File.object (fp : File) : Option Contents :=
  if fp.objprobe = some t ∧ fp.newobj = true then fp.readobj else none

/-- The symbols that are not local, and not references. -/
def Contents.names (contents : Contents) : List String :=
  (contents.syms.filter fun sym => !(sym.1.type = 'U' || islower sym.1.type)).map fun sym => sym.1.name

def File.names (fp : File) : List String := ((fp.object t).map Contents.names).getD []

def File.secs (fp : File) : List Section := ((fp.object t).map Contents.secs).getD []

def File.isObject (fp : File) : Bool := (fp.object t).isSome

def members (offs : List Nat) : List Nat := offs.filter fun off => (lib off).isObject t

/-- The search comes to its end, it loads the members that define what is undefined at some moment, none of them
twice, and then no symbol of the index is undefined. -/
def Complete (index : List Entry) (l : Linker) : Prop :=
  ∃ turns l' log, scanindex lib index turns l = some (l', log) ∧
    (∀ e ∈ index, e.off ∈ members lib t (log.map Prod.fst) ↔
      ∃ moment ∈ l :: (log.map Prod.snd ++ [l']), ∃ name ∈ moment.undef, name ∈ (lib e.off).names t) ∧
    (members lib t (log.map Prod.fst)).Nodup ∧
    ∀ e ∈ index, e.name ∉ l'.undef

/-- The offsets of the entries whose names are known, or are defined by a member before them. -/
def taken : (String → Bool) → List Entry → List Nat
  | _, [] => []
  | known, e :: index =>
    if known e.name = true then
      e.off :: taken (fun name => known name || ((lib e.off).names t).contains name) index
    else taken known index

/-- Nothing is undefined, or the members of one turn are those that define what is undefined, no one of them twice;
they define all of it, if there are any, and their sections are not too large. -/
def OneTurn (index : List Entry) (l : Linker) : Prop :=
  let offs := taken lib t (hasref l.tab) index
  l.undef = [] ∨
    (members lib t offs).Nodup ∧
    (∀ e ∈ index, e.off ∈ members lib t offs ↔ ∃ name ∈ l.undef, name ∈ (lib e.off).names t) ∧
    (offs = [] ∨ ∀ name ∈ l.undef, ∃ off ∈ offs, name ∈ (lib off).names t) ∧
    ((offs.flatMap fun off => (lib off).secs t).foldlM newsec l.secs).isSome

/-- What is undefined is in the table, once, and nothing in the table has another type. -/
structure Sane (l : Linker) : Prop where
  untyped : Untyped l.tab
  nodup : l.undef.Nodup
  known : ∀ name ∈ l.undef, hasref l.tab name = true

theorem hasref_eq {st : SymTab} (untyped : Untyped st) (name : String) :
    hasref st name = (st.symtab name).isSome := by
  unfold hasref
  cases found : st.symtab name with
  | none => rfl
  | some sym =>
    have isU := untyped name sym found
    simp [isU]

theorem hasref_store {st : SymTab} (untyped : Untyped st) (name : String) {sym : TabSymbol}
    (isU : sym.type = 'U') (other : String) :
    hasref (st.store name sym) other = (hasref st other || other = name) := by
  rw [hasref_eq untyped, hasref_eq (untyped.store name isU)]
  by_cases same : other = name
  · rw [same, store_same]
    simp
  · rw [store_other st sym same]
    simp [same]

/-- What is known and undefined after a step. -/
structure Spec (l l' : Linker) (names : List String) : Prop where
  sane : Sane l'
  bintype : l'.bintype = l.bintype
  known : ∀ name, hasref l'.tab name = (hasref l.tab name || names.contains name)
  undef : ∀ name, name ∈ l'.undef ↔ name ∈ l.undef ∧ name ∉ names

variable {l l' l1 : Linker} {fp : File} {index : List Entry} {log : Log}

theorem Spec.refl (sane : Sane l) : Spec l l [] where
  sane := sane
  bintype := rfl
  known name := by simp
  undef name := by simp

theorem Spec.trans {l l' l'' : Linker} {names names' : List String} (first : Spec l l' names)
    (second : Spec l' l'' names') : Spec l l'' (names ++ names') where
  sane := second.sane
  bintype := second.bintype.trans first.bintype
  known name := by
    rw [second.known, first.known, Bool.or_assoc, List.contains_append]
  undef name := by
    rw [second.undef, first.undef, List.mem_append, not_or, and_assoc]

theorem sane_lookupsym (sane : Sane l) (name : String) : Sane (l.lookupsym name) := by
  unfold Linker.lookupsym
  cases found : l.tab.symtab name with
  | some sym => exact sane
  | none =>
    have isU := sane.untyped.lookupsym name
    have fresh : name ∉ l.undef := by
      intro member
      have known := sane.known name member
      rw [hasref_eq sane.untyped, found] at known
      cases known
    constructor
    · exact sane.untyped.store name isU
    · exact List.nodup_append.mpr ⟨sane.nodup, List.nodup_singleton name, by
        intro other member other' single same
        rw [List.mem_singleton.mp single] at same
        exact fresh (same ▸ member)⟩
    · intro other member
      change hasref (l.tab.store name _) other = true
      rw [hasref_store sane.untyped name isU]
      rcases List.mem_append.mp member with old | new
      · rw [sane.known other old]
        rfl
      · rw [List.mem_singleton.mp new]
        simp

theorem spec_newsym (sane : Sane l) (osym : Symbol × Nat) :
    Spec l (l.newsym osym) (Contents.names ⟨[], [osym]⟩) := by
  unfold Linker.newsym
  by_cases skipped : (osym.1.type = 'U' || islower osym.1.type) = true
  · have none_ : Contents.names ⟨[], [osym]⟩ = [] := by
      simp only [Contents.names, List.filter_cons, List.filter_nil, skipped, Bool.not_true,
        Bool.false_eq_true, if_false, List.map_nil]
    rw [if_pos skipped, none_]
    exact .refl sane
  · have one : Contents.names ⟨[], [osym]⟩ = [osym.1.name] := by
      simp only [Contents.names, List.filter_cons, List.filter_nil, skipped, Bool.not_false, if_true,
        List.map_cons, List.map_nil]
    rw [if_neg skipped, one]
    have sane' := sane_lookupsym sane osym.1.name
    have isU := sane'.untyped.lookupsym osym.1.name
    have defined := define_eq sane'.untyped osym.1
    have stored : (l.lookupsym osym.1.name).tab.read (.symbol osym.1 osym.2) =
        (l.lookupsym osym.1.name).tab.store osym.1.name
          { define (l.lookupsym osym.1.name).tab osym.1 with
            value := (define (l.lookupsym osym.1.name).tab osym.1).value + osym.2 } := by
      rw [SymTab.read, Ld.newsym, if_neg skipped]
    have typed : ({ define (l.lookupsym osym.1.name).tab osym.1 with
        value := (define (l.lookupsym osym.1.name).tab osym.1).value + osym.2 } : TabSymbol).type = 'U' := by
      rw [defined]
    have lookedUp (name : String) :
        (hasref (l.lookupsym osym.1.name).tab name || decide (name = osym.1.name)) =
          (hasref l.tab name || decide (name = osym.1.name)) := by
      unfold Linker.lookupsym
      cases found : l.tab.symtab osym.1.name with
      | some sym => rfl
      | none =>
        change (hasref (l.tab.store osym.1.name _) name || _) = _
        rw [hasref_store sane.untyped osym.1.name (sane.untyped.lookupsym osym.1.name), Bool.or_assoc,
          Bool.or_self]
    have listed (name : String) : name ∈ (l.lookupsym osym.1.name).undef ∧ name ≠ osym.1.name ↔
        name ∈ l.undef ∧ name ≠ osym.1.name := by
      unfold Linker.lookupsym
      cases found : l.tab.symtab osym.1.name with
      | some sym => exact Iff.rfl
      | none =>
        change name ∈ l.undef ++ [osym.1.name] ∧ name ≠ osym.1.name ↔ _
        rw [List.mem_append, List.mem_singleton, and_congr_left_iff]
        intro other
        exact or_iff_left other
    dsimp only
    rw [stored, if_pos isU]
    have known (name : String) : hasref ((l.lookupsym osym.1.name).tab.store osym.1.name
        { define (l.lookupsym osym.1.name).tab osym.1 with
          value := (define (l.lookupsym osym.1.name).tab osym.1).value + osym.2 }) name =
        (hasref l.tab name || [osym.1.name].contains name) := by
      rw [hasref_store sane'.untyped osym.1.name typed, lookedUp]
      simp
    have undef (name : String) : name ∈ (l.lookupsym osym.1.name).undef.erase osym.1.name ↔
        name ∈ l.undef ∧ name ∉ [osym.1.name] := by
      rw [sane'.nodup.mem_erase_iff, and_comm, listed, List.mem_singleton]
    refine ⟨⟨?_, ?_, ?_⟩, ?_, known, undef⟩
    · exact sane'.untyped.store _ typed
    · exact sane'.nodup.erase _
    · intro name member
      rw [known, sane.known name ((undef name).mp member).1]
      rfl
    · unfold Linker.lookupsym
      cases l.tab.symtab osym.1.name <;> rfl

theorem names_cons (osym : Symbol × Nat) (syms : List (Symbol × Nat)) (secs secs' : List Section) :
    Contents.names ⟨secs, osym :: syms⟩ = Contents.names ⟨[], [osym]⟩ ++ Contents.names ⟨secs', syms⟩ := by
  unfold Contents.names
  rw [← List.map_append, ← List.filter_append]
  rfl

theorem spec_newsyms (sane : Sane l) (contents : Contents) :
    Spec l (contents.syms.foldl Linker.newsym l) contents.names := by
  rcases contents with ⟨secs, syms⟩
  induction syms generalizing l with
  | nil => exact .refl sane
  | cons osym syms ih =>
    have first := spec_newsym sane osym
    rw [names_cons osym syms secs secs]
    exact first.trans (ih first.sane)

variable {lib t}

/-- The linker is what it was for the search. -/
structure Still (l l' : Linker) : Prop where
  bintype : l'.bintype = l.bintype
  tab : l'.tab = l.tab
  undef : l'.undef = l.undef
  secs : l'.secs = l.secs

theorem load_nothing (ready : l.bintype = some t) (none_ : fp.object t = none) :
    ∃ l', load l fp false = some l' ∧ Still l l' := by
  unfold load
  cases probed : fp.objprobe with
  | none => exact ⟨_, rfl, rfl, rfl, rfl, rfl⟩
  | some t' =>
    dsimp only
    by_cases differ : l.bintype ≠ none ∧ l.bintype ≠ some t'
    · rw [if_pos differ]
      exact ⟨_, rfl, rfl, rfl, rfl, rfl⟩
    · have same : t' = t := by
        by_contra other
        refine differ ⟨by rw [ready]; nofun, ?_⟩
        rw [ready]
        intro equal
        exact other (Option.some.inj equal).symm
      subst same
      rw [if_neg differ]
      by_cases unmade : fp.newobj = false
      · rw [if_pos unmade]
        exact ⟨_, rfl, ready.symm, rfl, rfl, rfl⟩
      · rw [if_neg unmade]
        have unread : fp.readobj = none := by
          unfold File.object at none_
          rwa [if_pos ⟨probed, by simpa using unmade⟩] at none_
        rw [unread]
        exact ⟨_, rfl, ready.symm, rfl, rfl, rfl⟩

theorem load_object {contents : Contents} (ready : l.bintype = some t)
    (object : fp.object t = some contents) :
    ∃ l1, Still l l1 ∧ load l fp false = (l1.define contents).map fun l2 => l2.link l.objs := by
  unfold File.object at object
  split_ifs at object with found
  refine ⟨{ l with bintype := some t, objs := l.objs + 1, next := Function.update l.next l.objs none },
    ⟨ready.symm, rfl, rfl, rfl⟩, ?_⟩
  have compatible : ¬ (l.bintype ≠ none ∧ l.bintype ≠ some t) := fun differ => differ.2 ready
  unfold load
  rw [found.1]
  dsimp only
  rw [if_neg compatible, if_neg (by rw [found.2]; nofun), object]
  dsimp only
  rw [if_neg (fun unneeded => absurd unneeded.1 Bool.false_ne_true)]

theorem Sane.still (sane : Sane l) (still : Still l l') : Sane l' := by
  constructor
  · rw [still.tab]
    exact sane.untyped
  · rw [still.undef]
    exact sane.nodup
  · rw [still.tab, still.undef]
    exact sane.known

theorem define_secs (contents : Contents) :
    (l.define contents).map Linker.secs = contents.secs.foldlM newsec l.secs := by
  have kept (secs : State) (syms : List (Symbol × Nat)) (l : Linker) :
      (syms.foldl Linker.newsym { l with secs := secs }).secs = secs := by
    induction syms generalizing l with
    | nil => rfl
    | cons osym syms ih =>
      have one : Linker.newsym { l with secs := secs } osym =
          { Linker.newsym { l with secs := secs } osym with secs := secs } := by
        unfold Linker.newsym Linker.lookupsym
        split_ifs
        · rfl
        · dsimp only
          cases l.tab.symtab osym.1.name <;> rfl
      rw [List.foldl_cons, one]
      exact ih _
  unfold Linker.define
  rw [Option.map_map]
  cases contents.secs.foldlM newsec l.secs with
  | none => rfl
  | some secs => exact congrArg some (kept secs contents.syms l)

theorem load_secs (ready : l.bintype = some t) (fp : File) :
    (load l fp false).map Linker.secs = (fp.secs t).foldlM newsec l.secs := by
  unfold File.secs
  cases object : fp.object t with
  | none =>
    rcases load_nothing ready object with ⟨l', loaded, still⟩
    rw [loaded, Option.map_some, still.secs]
    rfl
  | some contents =>
    rcases load_object ready object with ⟨l1, still, loaded⟩
    rw [loaded, Option.map_map]
    change (l1.define contents).map Linker.secs = contents.secs.foldlM newsec l.secs
    rw [define_secs, still.secs]

theorem load_spec (sane : Sane l) (ready : l.bintype = some t)
    (loaded : load l fp false = some l') : Spec l l' (fp.names t) := by
  unfold File.names
  cases object : fp.object t with
  | none =>
    rcases load_nothing ready object with ⟨l1, loaded', still⟩
    rw [loaded] at loaded'
    cases loaded'
    refine ⟨sane.still still, still.bintype, ?_, ?_⟩
    · intro name
      rw [still.tab]
      simp
    · intro name
      rw [still.undef]
      simp
  | some contents =>
    rcases load_object ready object with ⟨l1, still, loaded'⟩
    rw [loaded] at loaded'
    rcases Option.map_eq_some_iff.mp loaded'.symm with ⟨l2, defined, rfl⟩
    unfold Linker.define at defined
    rcases Option.map_eq_some_iff.mp defined with ⟨secs, _, rfl⟩
    have before := sane.still still
    have sane1 : Sane { l1 with secs := secs } := ⟨before.untyped, before.nodup, before.known⟩
    have spec := spec_newsyms (l := { l1 with secs := secs }) sane1 contents
    refine ⟨⟨spec.sane.untyped, spec.sane.nodup, spec.sane.known⟩, spec.bintype.trans still.bintype, ?_, ?_⟩
    · intro name
      rw [← still.tab]
      exact spec.known name
    · intro name
      rw [← still.undef]
      exact spec.undef name

structure Turn (lib : Nat → File) (t : Nat) (l l' : Linker) (index : List Entry) (log : Log) : Prop where
  offs : log.map Prod.fst = taken lib t (hasref l.tab) index
  spec : Spec l l' ((log.map Prod.fst).flatMap fun off => (lib off).names t)
  moments : ∀ call ∈ log, ∀ name ∈ call.2.undef, name ∈ l.undef

theorem known_eq {names : List String} (spec : Spec l l' names) :
    (fun name => hasref l.tab name || names.contains name) = hasref l'.tab := by
  funext name
  exact (spec.known name).symm

theorem scan_turn (sane : Sane l) (ready : l.bintype = some t)
    (scanned : scan lib l index = some (l', log)) : Turn lib t l l' index log := by
  induction index generalizing l l' log with
  | nil =>
    cases scanned
    exact ⟨rfl, .refl sane, nofun⟩
  | cons e index ih =>
    rw [scan] at scanned
    split_ifs at scanned with unknown
    · have later := ih sane ready scanned
      refine ⟨?_, later.spec, later.moments⟩
      rw [taken, if_neg (by rw [unknown]; nofun)]
      exact later.offs
    · rcases Option.bind_eq_some_iff.mp scanned with ⟨l1, loaded, more⟩
      rcases Option.map_eq_some_iff.mp more with ⟨⟨l2, log'⟩, rest, same⟩
      cases same
      have first := load_spec sane ready loaded
      have later := ih first.sane (first.bintype.trans ready) rest
      refine ⟨?_, first.trans later.spec, ?_⟩
      · rw [taken, if_pos (by simpa using unknown), known_eq first, List.map_cons, later.offs]
      · intro call member name undefined
        rcases List.mem_cons.mp member with rfl | old
        · exact undefined
        · exact ((first.undef name).mp (later.moments call old name undefined)).1

theorem scan_secs (sane : Sane l) (ready : l.bintype = some t) : (scan lib l index).map (fun r => r.1.secs) =
      ((taken lib t (hasref l.tab) index).flatMap fun off => (lib off).secs t).foldlM newsec l.secs := by
  induction index generalizing l with
  | nil => rfl
  | cons e index ih =>
    rw [scan, taken]
    by_cases known : hasref l.tab e.name = true
    · rw [if_neg (by rw [known]; nofun), if_pos known, List.flatMap_cons, List.foldlM_append,
        ← load_secs ready (lib e.off)]
      cases loaded : load l (lib e.off) false with
      | none => rfl
      | some l1 =>
        have first := load_spec sane ready loaded
        rw [known_eq first, Option.bind_some, Option.map_map]
        exact ih first.sane (first.bintype.trans ready)
    · rw [if_pos (by simpa using known), if_neg known]
      exact ih sane ready

theorem taken_mono {known known' : String → Bool} (more : ∀ name, known name = true → known' name = true)
    (index : List Entry) : ∀ off ∈ taken lib t known index, off ∈ taken lib t known' index := by
  induction index generalizing known known' with
  | nil => exact fun _ member => member
  | cons e index ih =>
    intro off
    have wider (names : List String) : ∀ name, (known name || names.contains name) = true →
        (known' name || names.contains name) = true := by
      intro name
      rw [Bool.or_eq_true, Bool.or_eq_true]
      exact Or.imp_left (more name)
    rw [taken, taken]
    by_cases here : known e.name = true
    · rw [if_pos here, if_pos (more e.name here), List.mem_cons, List.mem_cons]
      exact Or.imp_right (ih (wider _) off)
    · rw [if_neg here]
      intro member
      by_cases new : known' e.name = true
      · rw [if_pos new]
        apply List.mem_cons_of_mem
        exact ih (fun name old => by rw [more name old]; rfl) off member
      · rw [if_neg new]
        exact ih more off member

theorem mem_taken {known : String → Bool} {index : List Entry} {e : Entry} (member : e ∈ index)
    (here : known e.name = true) : e.off ∈ taken lib t known index := by
  induction index generalizing known with
  | nil => cases member
  | cons e' index ih =>
    rw [taken]
    rcases List.mem_cons.mp member with rfl | later
    · rw [if_pos here]
      exact List.mem_cons_self
    · by_cases known' : known e'.name = true
      · rw [if_pos known']
        apply List.mem_cons_of_mem
        exact ih later (by rw [here]; rfl)
      · rw [if_neg known']
        exact ih later here

theorem isObject_of_name {off : Nat} {name : String} (defines : name ∈ (lib off).names t) :
    (lib off).isObject t = true := by
  unfold File.names at defines
  unfold File.isObject
  cases object : (lib off).object t with
  | none =>
    rw [object] at defines
    cases defines
  | some contents => rfl

theorem mem_members {offs : List Nat} {off : Nat} :
    off ∈ members lib t offs ↔ off ∈ offs ∧ (lib off).isObject t = true := List.mem_filter

theorem scanindex_never (turns : Nat) (sane : Sane l)
    (ready : l.bintype = some t) (left : l.undef ≠ []) (some_ : taken lib t (hasref l.tab) index ≠ [])
    (noObject : members lib t (taken lib t (hasref l.tab) index) = []) :
    scanindex lib index turns l = none := by
  induction turns generalizing l with
  | zero => rfl
  | succ turns ih =>
    rw [scanindex, if_neg left]
    cases scanned : scan lib l index with
    | none => rfl
    | some r =>
      rcases r with ⟨l1, log⟩
      have turn := scan_turn sane ready scanned
      have called : log ≠ [] := by
        intro none_
        rw [← turn.offs, none_] at some_
        exact some_ rfl
      have noNames : ((log.map Prod.fst).flatMap fun off => (lib off).names t) = [] := by
        rw [List.flatMap_eq_nil_iff]
        intro off member
        rw [List.eq_nil_iff_forall_not_mem]
        intro name defines
        have object : off ∈ members lib t (taken lib t (hasref l.tab) index) :=
          mem_members.mpr ⟨turn.offs ▸ member, isObject_of_name defines⟩
        rw [noObject] at object
        cases object
      have spec := turn.spec
      rw [noNames] at spec
      have known : hasref l1.tab = hasref l.tab := by
        funext name
        rw [spec.known name]
        simp
      have left1 : l1.undef ≠ [] := by
        rcases List.exists_mem_of_ne_nil _ left with ⟨name, undefined⟩
        exact List.ne_nil_of_mem ((spec.undef name).mpr ⟨undefined, List.not_mem_nil⟩)
      rw [Option.bind_some, if_neg called,
        ih spec.sane (spec.bintype.trans ready) left1 (by rw [known]; exact some_) (by rw [known]; exact noObject)]
      rfl

theorem again (turn : Turn lib t l l1 index log) :
    ∀ off ∈ taken lib t (hasref l.tab) index, off ∈ taken lib t (hasref l1.tab) index := by
  apply taken_mono
  intro name known
  rw [turn.spec.known name, known]
  rfl

theorem Turn.left {l l1 : Linker} {index : List Entry} {log : Log} (turn : Turn lib t l l1 index log) :
    l1.undef = [] ↔ ∀ name ∈ l.undef, ∃ off ∈ taken lib t (hasref l.tab) index, name ∈ (lib off).names t := by
  rw [List.eq_nil_iff_forall_not_mem, ← turn.offs]
  constructor
  · intro none_ name undefined
    by_contra no
    refine none_ name ((turn.spec.undef name).mpr ⟨undefined, ?_⟩)
    intro defined
    rcases List.mem_flatMap.mp defined with ⟨off, member, defines⟩
    exact no ⟨off, member, defines⟩
  · intro all name undefined
    rcases (turn.spec.undef name).mp undefined with ⟨before, undefined'⟩
    rcases all name before with ⟨off, member, defines⟩
    exact undefined' (List.mem_flatMap.mpr ⟨off, member, defines⟩)

theorem Turn.moment (turn : Turn lib t l l1 index log)
    {moment : Linker} (member : moment ∈ l :: (log.map Prod.snd ++ [l1])) :
    ∀ name ∈ moment.undef, name ∈ l.undef := by
  intro name undefined
  rcases List.mem_cons.mp member with rfl | later
  · exact undefined
  · rcases List.mem_append.mp later with called | last
    · rcases List.mem_map.mp called with ⟨call, logged, rfl⟩
      exact turn.moments call logged name undefined
    · rw [List.mem_singleton.mp last] at undefined
      exact ((turn.spec.undef name).mp undefined).1

theorem Turn.loads_iff (turn : Turn lib t l l1 index log) (off : Nat) :
    (∃ moment ∈ l :: (log.map Prod.snd ++ [l1]), ∃ name ∈ moment.undef, name ∈ (lib off).names t) ↔
      ∃ name ∈ l.undef, name ∈ (lib off).names t := by
  constructor
  · intro some_
    rcases some_ with ⟨moment, member, name, undefined, defines⟩
    exact ⟨name, turn.moment member name undefined, defines⟩
  · intro some_
    exact ⟨l, List.mem_cons_self, some_⟩

theorem complete_of_oneTurn (sane : Sane l) (ready : l.bintype = some t)
    (oneTurn : OneTurn lib t index l) : Complete lib t index l := by
  by_cases left : l.undef = []
  · refine ⟨1, l, [], ?_, ?_, List.nodup_nil, ?_⟩
    · rw [scanindex, if_pos left]
    · intro e _
      constructor
      · intro loaded
        cases loaded
      · intro some_
        rcases some_ with ⟨moment, member, name, undefined, _⟩
        have same : moment = l := by simpa using member
        rw [same, left] at undefined
        cases undefined
    · intro e _
      rw [left]
      exact List.not_mem_nil
  · rcases oneTurn with none_ | ⟨once, loads, all, fit⟩
    · exact absurd none_ left
    · rw [← scan_secs sane ready, Option.isSome_map] at fit
      rcases Option.isSome_iff_exists.mp fit with ⟨⟨l1, log⟩, scanned⟩
      have turn := scan_turn sane ready scanned
      rw [← turn.offs] at once loads
      have iff_ : ∀ e ∈ index, e.off ∈ members lib t (log.map Prod.fst) ↔
          ∃ moment ∈ l :: (log.map Prod.snd ++ [l1]), ∃ name ∈ moment.undef, name ∈ (lib e.off).names t := by
        intro e member
        rw [turn.loads_iff]
        exact loads e member
      by_cases called : log = []
      · refine ⟨1, l1, log, ?_, iff_, once, ?_⟩
        · rw [scanindex, if_neg left, scanned]
          rw [Option.bind_some, if_pos called]
        · intro e member undefined
          have before := ((turn.spec.undef e.name).mp undefined).1
          have taken_ := @mem_taken lib t _ _ _ member (sane.known e.name before)
          rw [← turn.offs, called] at taken_
          cases taken_
      · have done : l1.undef = [] := by
          rw [turn.left]
          rcases all with none_ | all
          · rw [← turn.offs] at none_
            exact absurd (List.map_eq_nil_iff.mp none_) called
          · exact all
        refine ⟨2, l1, log, ?_, iff_, once, ?_⟩
        · rw [scanindex, if_neg left, scanned]
          rw [Option.bind_some, if_neg called, scanindex, if_pos done, Option.map_some, List.append_nil]
        · intro e _
          rw [done]
          exact List.not_mem_nil

theorem done_of_once {l l1 l2 : Linker} {log1 log2 : Log} {turns : Nat}
    (ready : l.bintype = some t) (turn : Turn lib t l l1 index log1)
    (object : members lib t (taken lib t (hasref l.tab) index) ≠ [])
    (rest : scanindex lib index turns l1 = some (l2, log2))
    (once : (members lib t ((log1 ++ log2).map Prod.fst)).Nodup) : l1.undef = [] := by
  by_contra left1
  cases turns with
  | zero => cases rest
  | succ turns =>
    rcases List.exists_mem_of_ne_nil _ object with ⟨off, loaded⟩
    rcases mem_members.mp loaded with ⟨taken_, isObject⟩
    rw [scanindex, if_neg left1] at rest
    rcases Option.bind_eq_some_iff.mp rest with ⟨⟨l3, log3⟩, scanned', more'⟩
    have turn' := scan_turn turn.spec.sane (turn.spec.bintype.trans ready) scanned'
    have first : off ∈ members lib t (log1.map Prod.fst) := by
      rw [turn.offs]
      exact loaded
    have third : off ∈ members lib t (log3.map Prod.fst) := by
      rw [turn'.offs]
      exact mem_members.mpr ⟨again turn off taken_, isObject⟩
    have second : off ∈ members lib t (log2.map Prod.fst) := by
      split_ifs at more' with stopped
      · cases more'
        exact third
      · rcases Option.map_eq_some_iff.mp more' with ⟨⟨l4, log4⟩, _, same⟩
        cases same
        rw [List.map_append]
        unfold members at third ⊢
        rw [List.filter_append]
        exact List.mem_append_left _ third
    rw [List.map_append] at once
    unfold members at once first second
    rw [List.filter_append] at once
    exact List.disjoint_of_nodup_append once first second

theorem oneTurn_of_complete (sane : Sane l) (ready : l.bintype = some t)
    (complete : Complete lib t index l) : OneTurn lib t index l := by
  rcases complete with ⟨turns, l', log, search, loads, once, _⟩
  by_cases left : l.undef = []
  · exact .inl left
  · right
    cases turns with
    | zero => cases search
    | succ turns =>
      have search' := search
      rw [scanindex, if_neg left] at search
      rcases Option.bind_eq_some_iff.mp search with ⟨⟨l1, log1⟩, scanned, more⟩
      have turn := scan_turn sane ready scanned
      have fit : ((taken lib t (hasref l.tab) index).flatMap fun off => (lib off).secs t).foldlM newsec
          l.secs = some l1.secs := by
        rw [← scan_secs sane ready, scanned]
        rfl
      rw [fit]
      by_cases called : log1 = []
      · rw [if_pos called] at more
        cases more
        have noOffs := turn.offs
        rw [called] at noOffs
        rw [called] at once loads turn
        rw [← noOffs]
        refine ⟨once, ?_, .inl rfl, rfl⟩
        intro e member
        rw [← turn.loads_iff]
        exact loads e member
      · rw [if_neg called] at more
        rcases Option.map_eq_some_iff.mp more with ⟨⟨l2, log2⟩, rest, same⟩
        cases same
        have some_ : taken lib t (hasref l.tab) index ≠ [] := by
          rw [← turn.offs]
          exact fun none_ => called (List.map_eq_nil_iff.mp none_)
        have object : members lib t (taken lib t (hasref l.tab) index) ≠ [] := by
          intro noObject
          have never := scanindex_never (turns + 1) sane ready left some_ noObject
          rw [search'] at never
          cases never
        have done := done_of_once ready turn object rest once
        cases turns with
        | zero => cases rest
        | succ turns =>
          rw [scanindex, if_pos done] at rest
          cases rest
          rw [List.append_nil] at once loads
          rw [← turn.offs]
          refine ⟨once, ?_, .inr ?_, rfl⟩
          · intro e member
            rw [← turn.loads_iff]
            exact loads e member
          · rw [turn.offs]
            exact turn.left.mp done

theorem sane_load (sane : Sane l) {inlib : Bool} (loaded : load l fp inlib = some l') : Sane l' := by
  unfold load at loaded
  cases probed : fp.objprobe with
  | none =>
    rw [probed] at loaded
    cases loaded
    exact ⟨sane.untyped, sane.nodup, sane.known⟩
  | some t =>
    rw [probed] at loaded
    dsimp only at loaded
    split_ifs at loaded
    · cases loaded
      exact ⟨sane.untyped, sane.nodup, sane.known⟩
    · cases loaded
      exact ⟨sane.untyped, sane.nodup, sane.known⟩
    · cases read : fp.readobj with
      | none =>
        rw [read] at loaded
        cases loaded
        exact ⟨sane.untyped, sane.nodup, sane.known⟩
      | some contents =>
        rw [read] at loaded
        dsimp only at loaded
        split_ifs at loaded
        · cases loaded
          exact ⟨sane.untyped, sane.nodup, sane.known⟩
        · rcases Option.map_eq_some_iff.mp loaded with ⟨l1, defined, rfl⟩
          rcases Option.map_eq_some_iff.mp defined with ⟨secs, _, rfl⟩
          have sane' := (spec_newsyms (l := { l with
            bintype := some t, objs := l.objs + 1, next := Function.update l.next l.objs none, secs := secs })
            ⟨sane.untyped, sane.nodup, sane.known⟩ contents).sane
          exact ⟨sane'.untyped, sane'.nodup, sane'.known⟩

theorem sane_reached (reached : Reached l) : Sane l := by
  induction reached with
  | init => exact ⟨nofun, List.nodup_nil, nofun⟩
  | option name _ ih => exact sane_lookupsym ih name
  | load fp inlib _ loaded ih => exact sane_load ih loaded

def defining (names : List String) : File :=
  ⟨some 0, true, some ⟨[], names.map fun name => (⟨name, 'T', 0, 0⟩, 0)⟩⟩

/-- After an object without anything and the option `-u f`. -/
def wanting : Linker := Linker.lookupsym { Linker.init with
  bintype := some 0, objs := 1, next := Function.update (Function.update (fun _ => none) 0 none) 0 none
  last := some 0, objhead := some 0 } "f"

theorem reached_wanting : Reached wanting := .option "f" (.load emptyFile false .init rfl)

end Scc.Ld
