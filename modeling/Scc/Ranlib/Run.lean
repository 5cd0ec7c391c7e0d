import Scc.Ranlib.Merge

/-!
# A run of scc-ranlib

The whole run, from opening the library to renaming the new one, with everything that may go wrong
on the way. Memory is only short where the arrays for the index are allocated.
-/

namespace Scc.Ranlib

open Scc.Lib Scc.Ar

set_option autoImplicit false

/-- The causes: first those why reading the library fails. -/
inductive Trouble
  | unopened
  | unrecognized
  /-- A header that `armember()` refuses, or that cannot be read. -/
  | refused
  /-- The library ends within a header. -/
  | truncated
  /-- The size in a header is no number. -/
  | size
  /-- An object cannot be looked at, the first or the second time. -/
  | probe
  | probeAgain
  | unread
  | copying
  /-- A name is defined again. -/
  | multiple
  /-- A step after that fails. -/
  | other
deriving DecidableEq

/-- What fails in one turn of the loop over the members. -/
structure Fault where
  header : Bool
  probe : Bool
  probeAgain : Bool
  read : Bool

/-- What fails in the run, and what is put in the header of the index. -/
structure Env where
  fopen : Bool
  magic : Bool
  /-- Reading the first header, to see whether it is the one of an index. -/
  first : Bool
  turns : Nat → Fault
  tmpfile : Bool
  malloc : Bool
  fflush : Bool
  getstat : Bool
  tmpname : Bool
  create : Bool
  copying : Bool
  rename : Bool
  prop : Fprop

def Env.calm (prop : Fprop) : Env :=
  ⟨false, false, false, fun _ => ⟨false, false, false, false⟩, false, false, false, false, false, false, false, false,
    prop⟩

structure Scan where
  st : State
  errors : List Trouble
deriving DecidableEq

/-- A member and the number of the turn that meets it. -/
abbrev Turn := Nat × Visit

section Run

variable (genhash : Name → Nat) (objs : Objects) (env : Env) (file : Bytes)

/-- One turn of the loop of `readsyms()`. -/
def Env.turn (s : Nat × Nat) : Step (Nat × Nat) Turn Bool :=
  if (env.turns s.1).header then .stop false
  else
    match Libmach.turn file s.2 with
    | .visit v next => .visit (s.1, v) (s.1 + 1, next)
    | .stop result => .stop result

/-- The format of a member, if it is taken for an object. -/
def Env.format (x : Turn) : Option Nat :=
  if (env.turns x.1).probe then none else objs.objprobe file (x.2.pos + hdrsize)

def Env.readobj (t : Nat) (x : Turn) : Option (List Symbol) :=
  if (env.turns x.1).read then none else objs.readobj t file (x.2.pos + hdrsize)

/-- The body of the loop, with `newmember()`. -/
def Env.member (scan : Scan) (x : Turn) : Scan :=
  match env.format objs file x with
  | none => scan
  | some t =>
    if (env.turns x.1).probeAgain then { scan with st := { scan.st with nolib := true } }
    else if scan.st.artype ≠ none ∧ scan.st.artype ≠ some t then { scan with st := { scan.st with nolib := true } }
    else
      match env.readobj objs file t x with
      | none => ⟨{ scan.st with artype := some t }, scan.errors ++ [.unread]⟩
      | some syms =>
        let tab := newsymbols genhash (x.2.pos + hdrsize : Nat) scan.st.tab syms
        ⟨{ scan.st with artype := some t, tab := tab },
          if tab.multiple = scan.st.tab.multiple then scan.errors else scan.errors ++ [.multiple]⟩

def Env.scan (xs : List Turn) : Scan := xs.foldl (env.member genhash objs file) ⟨State.init, []⟩

/-- `archive()` -/
def Env.archive : Bool := ¬ env.magic ∧ file.take SARMAG = ARMAG

/-- The loop over the members starts here. -/
def Env.Begins (s : Nat) : Prop :=
  env.fopen = false ∧ env.archive file = true ∧ env.first = false ∧ start file = some s

/-- What `readsyms()` leaves, and whether its result is zero. -/
inductive Env.Readsyms : Scan → Bool → Prop
  | unrecognized (no : env.archive file = false) : Env.Readsyms ⟨State.init, [.unrecognized]⟩ true
  | refused (yes : env.archive file = true) (corrupted : env.first = true ∨ start file = none) :
      Env.Readsyms ⟨State.init, [.refused]⟩ true
  | corrupted {s : Nat} {xs : List Turn} (begins : env.Begins file s)
      (walk : Walk (env.turn file) (0, s) xs false) :
      Env.Readsyms ⟨(env.scan genhash objs file xs).st, (env.scan genhash objs file xs).errors ++ [.refused]⟩ true
  | ended {s : Nat} {xs : List Turn} (begins : env.Begins file s) (walk : Walk (env.turn file) (0, s) xs true) :
      Env.Readsyms (env.scan genhash objs file xs)
        (!((env.scan genhash objs file xs).st.nolib || (env.scan genhash objs file xs).st.tab.head.isEmpty))

def COFF32 : Nat := 0
def ELF : Nat := 1
def NFORMATS : Nat := 2

/-- `FORMAT()`, also of the -1 that stands for no format. -/
def FORMAT : Option Nat → Nat
  | none => 31
  | some t => t % 32

/-- The end of a run: what the file holds, the messages, and the index if it is written. -/
structure Result where
  file : Bytes
  errors : List Trouble
  index : Option Bytes
deriving DecidableEq

def Result.status (r : Result) : Bool := !r.errors.isEmpty

/-- The run after `readsyms()`. There is none for the format whose entry in the table of `setindex()` is
missing. -/
def Env.finish (scan : Scan) (zero : Bool) : Option Result :=
  let failed (trouble : Trouble) : Result := ⟨file, scan.errors ++ [trouble], none⟩
  if ¬ zero then some ⟨file, scan.errors, none⟩
  else if env.tmpfile ∨ env.malloc ∨ NFORMATS ≤ FORMAT scan.st.artype then some (failed .other)
  else if FORMAT scan.st.artype = ELF then none
  else if env.fflush ∨ env.getstat ∨ env.tmpname ∨ env.create then some (failed .other)
  else if env.copying then some (failed .copying)
  else if env.rename then some (failed .other)
  else
    let idx := setindex scan.st.tab.head
    some ⟨merge env.prop idx file, scan.errors, some idx⟩

/-- `ranlib()` -/
inductive Runs : Result → Prop
  | unopened (no : env.fopen = true) : Runs ⟨file, [.unopened], none⟩
  | run {scan : Scan} {zero : Bool} {r : Result} (opened : env.fopen = false)
      (read : env.Readsyms genhash objs file scan zero) (done : env.finish file scan zero = some r) : Runs r

end Run

section Contents

variable {genhash : Name → Nat} {objs : Objects} {env : Env} {file : Bytes}

/-- The format of the library is the one of its first object. -/
def Env.kind (objs : Objects) (env : Env) (file : Bytes) (xs : List Turn) : Option Nat :=
  (xs.filterMap (env.format objs file)).head?

/-- The objects that are read, those of one format. -/
def Env.objects (objs : Objects) (env : Env) (file : Bytes) (kind : Option Nat) (xs : List Turn) : List Object :=
  xs.filterMap fun x =>
    (env.format objs file x).bind fun t =>
      if kind = some t then (env.readobj objs file t x).map fun syms => ⟨(x.2.pos + hdrsize : Nat), syms⟩ else none

/-- An object of this format cannot be read. -/
def Env.Unread (objs : Objects) (env : Env) (file : Bytes) (kind : Option Nat) (xs : List Turn) : Prop :=
  ∃ x ∈ xs, ∃ t, kind = some t ∧ env.format objs file x = some t ∧ env.readobj objs file t x = none

def Env.Mixed (objs : Objects) (env : Env) (file : Bytes) (kind : Option Nat) (xs : List Turn) : Prop :=
  ∃ x ∈ xs, ∃ t, env.format objs file x = some t ∧ kind ≠ some t

variable {xs : List Turn} {x : Turn}

theorem kind_none : env.kind objs file xs = none ↔ ∀ x ∈ xs, env.format objs file x = none := by
  unfold Env.kind
  rw [List.head?_eq_none_iff, List.filterMap_eq_nil_iff]

theorem kind_append (xs : List Turn) (x : Turn) :
    env.kind objs file (xs ++ [x]) = (env.kind objs file xs).or (env.format objs file x) := by
  unfold Env.kind
  rw [List.filterMap_append, List.head?_append]
  cases format : env.format objs file x with
  | none => rw [List.filterMap_cons_none format]; rfl
  | some t => rw [List.filterMap_cons_some format]; rfl

theorem unread_formless (formless : env.kind objs file xs = none) (kind : Option Nat) :
    ¬ env.Unread objs file kind xs := by
  rintro ⟨x, member, t, _, found, _⟩
  rw [kind_none.mp formless x member] at found
  cases found

theorem mixed_formless (formless : env.kind objs file xs = none) (kind : Option Nat) :
    ¬ env.Mixed objs file kind xs := by
  rintro ⟨x, member, t, found, _⟩
  rw [kind_none.mp formless x member] at found
  cases found

theorem objects_formless (formless : env.kind objs file xs = none) (kind : Option Nat) :
    env.objects objs file kind xs = [] := by
  unfold Env.objects
  rw [List.filterMap_eq_nil_iff]
  intro x member
  rw [kind_none.mp formless x member]
  rfl

theorem unread_append {kind : Option Nat} :
    env.Unread objs file kind (xs ++ [x]) ↔ env.Unread objs file kind xs ∨ env.Unread objs file kind [x] := by
  unfold Env.Unread
  simp only [List.mem_append, or_and_right, exists_or]

theorem mixed_append {kind : Option Nat} :
    env.Mixed objs file kind (xs ++ [x]) ↔ env.Mixed objs file kind xs ∨ env.Mixed objs file kind [x] := by
  unfold Env.Mixed
  simp only [List.mem_append, or_and_right, exists_or]

theorem objects_append (kind : Option Nat) (xs : List Turn) (x : Turn) :
    env.objects objs file kind (xs ++ [x]) = env.objects objs file kind xs ++ env.objects objs file kind [x] := by
  unfold Env.objects
  exact List.filterMap_append

/-- What the loop knows after some members. -/
structure Scanned (genhash : Name → Nat) (objs : Objects) (env : Env) (file : Bytes) (xs : List Turn) (scan : Scan) :
    Prop where
  artype : scan.st.artype = env.kind objs file xs
  nolib : scan.st.nolib = true ↔ env.Mixed objs file (env.kind objs file xs) xs
  tab : scan.st.tab = readObjects genhash (env.objects objs file (env.kind objs file xs) xs)
  unread : .unread ∈ scan.errors ↔ env.Unread objs file (env.kind objs file xs) xs
  multiple : .multiple ∈ scan.errors ↔ scan.st.tab.multiple ≠ []

theorem newsymbol_messages (genhash : Name → Nat) (offset : Int) (tab : Table) (sym : Symbol) :
    ∃ more, (newsymbol genhash offset tab sym).1.multiple = tab.multiple ++ more := by
  cases yes : counted sym with
  | false =>
    rw [uncounted yes]
    exact ⟨[], (List.append_nil _).symm⟩
  | true => exact ⟨_, (newsymbol_spec yes offset tab).2.2⟩

theorem newsymbols_messages (genhash : Name → Nat) (offset : Int) (tab : Table) (syms : List Symbol) :
    ∃ more, (newsymbols genhash offset tab syms).multiple = tab.multiple ++ more := by
  induction syms generalizing tab with
  | nil => exact ⟨[], (List.append_nil _).symm⟩
  | cons sym syms ih =>
    rcases newsymbol_messages genhash offset tab sym with ⟨more, first⟩
    unfold newsymbols
    cases one : newsymbol genhash offset tab sym with
    | mk tab' goOn =>
      rw [one] at first
      cases goOn with
      | false => exact ⟨more, first⟩
      | true =>
        rcases ih tab' with ⟨more', rest⟩
        refine ⟨more ++ more', ?_⟩
        dsimp only at first ⊢
        rw [rest, first, List.append_assoc]

theorem member_read (genhash : Name → Nat) {scan : Scan} {t : Nat}
    (calm : (env.turns x.1).probeAgain = false) (format : env.format objs file x = some t)
    (same : scan.st.artype = none ∨ scan.st.artype = some t)
    (multiple : Trouble.multiple ∈ scan.errors ↔ scan.st.tab.multiple ≠ []) :
    ∃ scan', env.member genhash objs file scan x = scan' ∧ scan'.st.artype = some t ∧
      scan'.st.nolib = scan.st.nolib ∧ scan'.st.tab = (env.objects objs file (some t) [x]).foldl
        (fun tab ob => newsymbols genhash ob.offset tab ob.syms) scan.st.tab ∧
      (.unread ∈ scan'.errors ↔ .unread ∈ scan.errors ∨ env.readobj objs file t x = none) ∧
      (.multiple ∈ scan'.errors ↔ scan'.st.tab.multiple ≠ []) := by
  have known : ¬ (scan.st.artype ≠ none ∧ scan.st.artype ≠ some t) := by
    rintro ⟨some_, other⟩
    exact same.elim some_ other
  have objects : env.objects objs file (some t) [x] =
      ((env.readobj objs file t x).map fun syms => (⟨(x.2.pos + hdrsize : Nat), syms⟩ : Object)).toList := by
    unfold Env.objects
    rw [List.filterMap_cons, List.filterMap_nil, format, Option.bind_some, if_pos rfl]
    cases env.readobj objs file t x <;> rfl
  refine ⟨_, rfl, ?_⟩
  unfold Env.member
  rw [format, objects]
  dsimp only
  rw [calm, if_neg Bool.false_ne_true, if_neg known]
  cases read : env.readobj objs file t x with
  | none =>
    refine ⟨rfl, rfl, rfl, by simp, ?_⟩
    rw [List.mem_append]
    simpa using multiple
  | some syms =>
    dsimp only
    refine ⟨rfl, rfl, rfl, ?_, ?_⟩
    · split_ifs <;> simp
    · rcases newsymbols_messages genhash (x.2.pos + hdrsize : Nat) scan.st.tab syms with
        ⟨more, messages⟩
      split_ifs with silent
      · rw [silent]
        exact multiple
      · rw [messages]
        have some_ : more ≠ [] := by
          rintro rfl
          exact silent (messages.trans (List.append_nil _))
        simp [some_]

theorem scan_only (xs : List Turn) :
    ∀ e ∈ (env.scan genhash objs file xs).errors, e = .unread ∨ e = .multiple := by
  induction xs using List.reverseRecOn with
  | nil => simp [Env.scan]
  | append_singleton xs x ih =>
    unfold Env.scan at ih ⊢
    rw [List.foldl_append, List.foldl_cons, List.foldl_nil]
    intro e member
    unfold Env.member at member
    have added {last : Trouble} (told : last = .unread ∨ last = .multiple)
        (member : e ∈ (xs.foldl (env.member genhash objs file) ⟨State.init, []⟩).errors ++ [last]) :
        e = .unread ∨ e = .multiple := by
      rcases List.mem_append.mp member with before | here
      · exact ih e before
      · rw [List.mem_singleton.mp here]
        exact told
    split at member
    · exact ih e member
    · split_ifs at member
      · exact ih e member
      · exact ih e member
      · split at member
        · exact added (.inl rfl) member
        · dsimp only at member
          split_ifs at member
          · exact ih e member
          · exact added (.inr rfl) member

theorem scanned (genhash : Name → Nat)
    (calm : ∀ x ∈ xs, env.format objs file x ≠ none → (env.turns x.1).probeAgain = false) :
    Scanned genhash objs env file xs (env.scan genhash objs file xs) := by
  induction xs using List.reverseRecOn with
  | nil =>
    constructor
    case artype => rfl
    case tab => rfl
    case nolib => simp [Env.scan, State.init, Env.Mixed]
    case unread => simp [Env.scan, Env.Unread]
    case multiple => simp [Env.scan, State.init]
  | append_singleton xs x ih =>
    have before := ih fun y member => calm y (List.mem_append_left _ member)
    have step : env.scan genhash objs file (xs ++ [x]) =
        env.member genhash objs file (env.scan genhash objs file xs) x := by
      unfold Env.scan
      rw [List.foldl_append, List.foldl_cons, List.foldl_nil]
    rw [step]
    generalize env.scan genhash objs file xs = scan at before
    cases format : env.format objs file x with
    | none =>
      have kind : env.kind objs file (xs ++ [x]) = env.kind objs file xs := by
        rw [kind_append, format, Option.or_none]
      have same : env.member genhash objs file scan x = scan := by
        unfold Env.member
        rw [format]
      rw [same]
      constructor
      case artype => rw [kind, before.artype]
      case nolib => rw [kind, mixed_append, before.nolib]; simp [Env.Mixed, format]
      case tab => rw [kind, objects_append, before.tab]; simp [Env.objects, format]
      case unread => rw [kind, unread_append, before.unread]; simp [Env.Unread, format]
      case multiple => exact before.multiple
    | some t =>
      have here : (env.turns x.1).probeAgain = false :=
        calm x (List.mem_append_right _ List.mem_cons_self) (by rw [format]; exact Option.some_ne_none t)
      by_cases same : env.kind objs file xs = none ∨ env.kind objs file xs = some t
      · have kind : env.kind objs file (xs ++ [x]) = some t := by
          rw [kind_append, format]
          rcases same with none_ | some_
          · rw [none_]; rfl
          · rw [some_]; rfl
        -- either these are the members of the same format, or there was no object before
        have mixed : env.Mixed objs file (some t) xs ↔ env.Mixed objs file (env.kind objs file xs) xs := by
          rcases same with none_ | some_
          · exact iff_of_false (mixed_formless none_ _) (mixed_formless none_ _)
          · rw [some_]
        have unread : env.Unread objs file (some t) xs ↔ env.Unread objs file (env.kind objs file xs) xs := by
          rcases same with none_ | some_
          · exact iff_of_false (unread_formless none_ _) (unread_formless none_ _)
          · rw [some_]
        have objects : env.objects objs file (some t) xs = env.objects objs file (env.kind objs file xs) xs := by
          rcases same with none_ | some_
          · rw [objects_formless none_, objects_formless none_]
          · rw [some_]
        rcases member_read genhash here format (before.artype ▸ same) before.multiple with
          ⟨scan', done, artype, nolib, tab, unread', multiple⟩
        rw [done]
        constructor
        case artype => rw [kind, artype]
        case nolib => rw [kind, mixed_append, mixed, nolib, before.nolib]; simp [Env.Mixed, format]
        case tab =>
          rw [kind, tab, objects_append, objects, before.tab]
          unfold readObjects
          rw [List.foldl_append]
        case unread => rw [kind, unread_append, unread, unread', before.unread]; simp [Env.Unread, format]
        case multiple => exact multiple
      · rw [not_or] at same
        rcases Option.ne_none_iff_exists'.mp same.1 with ⟨u, found⟩
        have other : u ≠ t := fun equal => same.2 (equal ▸ found)
        have kind : env.kind objs file (xs ++ [x]) = env.kind objs file xs := by
          rw [kind_append, found]
          rfl
        have skipped : env.member genhash objs file scan x = { scan with st := { scan.st with nolib := true } } := by
          unfold Env.member
          rw [format]
          dsimp only
          rw [here, if_neg Bool.false_ne_true, if_pos (by rw [before.artype]; exact same)]
        rw [skipped]
        constructor
        case artype => rw [kind]; exact before.artype
        case nolib => rw [kind, mixed_append, found]; simp [Env.Mixed, format, other]
        case tab =>
          have old := before.tab
          rw [found] at old
          rw [kind, objects_append, found]
          simpa [Env.objects, format, other] using old
        case unread =>
          have old := before.unread
          rw [found] at old
          rw [kind, unread_append, found]
          simpa [Env.Unread, format, other, Ne.symm other] using old
        case multiple => exact before.multiple
  
theorem newsymbol_nil (genhash : Name → Nat) (offset : Int) (tab : Table) (sym : Symbol) :
    (newsymbol genhash offset tab sym).1.head = [] ↔ tab.head = [] ∧ counted sym = false := by
  cases yes : counted sym with
  | false =>
    rw [uncounted yes]
    simp
  | true =>
    have entry := (@newsymbol_spec genhash sym yes offset tab).1 sym.name
    constructor
    · intro empty
      exfalso
      unfold Table.entry at entry
      rw [empty, if_pos rfl] at entry
      unfold combine at entry
      split at entry
      · cases entry
      · split_ifs at entry <;> cases entry
    · intro both
      cases both.2

theorem newsymbols_nil {offset : Int} {tab : Table} {syms : List Symbol} :
    (newsymbols genhash offset tab syms).head = [] ↔ tab.head = [] ∧ ∀ sym ∈ syms, counted sym = false := by
  induction syms generalizing tab with
  | nil => simp [newsymbols]
  | cons sym syms ih =>
    have first := newsymbol_nil genhash offset tab sym
    rw [List.forall_mem_cons, ← and_assoc, ← first]
    unfold newsymbols
    cases one : newsymbol genhash offset tab sym with
    | mk tab' goOn =>
      cases goOn with
      | true => exact ih
      | false =>
        have message : (newsymbol genhash offset tab sym).2 = false := by rw [one]
        have yes := (newsymbol_quiet message).1
        rw [one] at first
        constructor
        · intro empty
          rw [(first.mp empty).2] at yes
          cases yes
        · exact And.left

theorem readObjects_nil (genhash : Name → Nat) {obs : List Object} :
    (readObjects genhash obs).head = [] ↔ ∀ ob ∈ obs, ∀ sym ∈ ob.syms, counted sym = false := by
  induction obs using List.reverseRecOn with
  | nil => simp [readObjects]
  | append_singleton obs ob ih =>
    unfold readObjects at ih ⊢
    rw [List.foldl_append, List.foldl_cons, List.foldl_nil, newsymbols_nil, ih]
    simp only [List.mem_append, List.mem_singleton, or_imp, forall_and, forall_eq]

theorem member_newmember {scan : Scan} (probe : (env.turns x.1).probe = false)
    (again : (env.turns x.1).probeAgain = false) (read : (env.turns x.1).read = false) :
    (env.member genhash objs file scan x).st = newmember genhash objs file scan.st x.2.pos := by
  unfold Env.member Env.format Env.readobj newmember
  rw [probe, again, read]
  simp only [Bool.false_eq_true, if_false]
  cases objs.objprobe file (x.2.pos + hdrsize) with
  | none => rfl
  | some t =>
    dsimp only
    split_ifs
    · rfl
    · cases objs.readobj t file (x.2.pos + hdrsize) <;> rfl

theorem calm_scan (prop : Fprop) (xs : List Turn) : ((Env.calm prop).scan genhash objs file xs).st =
    (xs.map Prod.snd).foldl (fun st v => newmember genhash objs file st v.pos) State.init := by
  induction xs using List.reverseRecOn with
  | nil => rfl
  | append_singleton xs x ih =>
    unfold Env.scan at ih ⊢
    rw [List.foldl_append, List.map_append, List.foldl_append, ← ih]
    exact member_newmember rfl rfl rfl

theorem calm_walk {prop : Fprop} {n pos : Nat} {result : Bool}
    (walk : Walk ((Env.calm prop).turn file) (n, pos) xs result) :
    Walk (Libmach.turn file) pos (xs.map Prod.snd) result := by
  induction xs generalizing n pos with
  | nil =>
    cases walk with
    | stop stopped =>
      unfold Env.turn Env.calm at stopped
      simp only [Bool.false_eq_true, if_false] at stopped
      split at stopped
      · cases stopped
      next same =>
        cases stopped
        exact .stop same
  | cons x xs ih =>
    cases walk with
    | visit stepped rest =>
      unfold Env.turn Env.calm at stepped
      simp only [Bool.false_eq_true, if_false] at stepped
      split at stepped
      next same =>
        cases stepped
        exact .visit same (ih rest)
      · cases stepped

theorem calm_readsyms {prop : Fprop} {scan : Scan} {zero : Bool}
    (read : (Env.calm prop).Readsyms genhash objs file scan zero) (archive : (Env.calm prop).archive file = true) :
    Readsyms genhash objs file scan.st := by
  have members {s : Nat} {xs : List Turn} {result : Bool} (begins : (Env.calm prop).Begins file s)
      (walk : Walk ((Env.calm prop).turn file) (0, s) xs result) :
      Readsyms genhash objs file ((Env.calm prop).scan genhash objs file xs).st := by
    rw [calm_scan]
    exact .members begins.2.2.2 (calm_walk walk)
  cases read with
  | unrecognized no =>
    rw [archive] at no
    cases no
  | refused _ corrupted =>
    rcases corrupted with fault | none_
    · cases fault
    · exact .refused none_
  | corrupted begins walk => exact members begins walk
  | ended begins walk => exact members begins walk

end Contents

end Scc.Ranlib
