import Mathlib.Data.List.Induction
import Scc.Lib.Ranked
import Scc.Make.Macro

/-!
# The precedence of the macros

What `setmacro()` keeps for a name is followed through a run with the definition that
should win, the last one of the highest rank. With `-e` the stored macro may lag behind,
since the environment hides it.
-/

namespace Scc.Make.Macros

set_option autoImplicit false

open Scc.Lib

variable {name : String} {env : String → Option String}

def macroRank (eflag : Bool) (mp : Macro) : Nat := rank eflag mp.where_

/-- The definition that should win, without the environment. -/
def winner (defs : List Macro) : Macro := lastHighest (macroRank false) undefined defs

variable {d : Definition} {s : State}

theorem called_where : d.where_ ≠ .UNDEF ∧ d.where_ ≠ .ENVIRON := by
  have isCalled := d.isCalled
  constructor
  · intro undef
    rw [undef] at isCalled
    cases isCalled
  · intro environ
    rw [environ] at isCalled
    cases isCalled

variable {events : List Event} {eflag : Bool}

theorem definitions_called {mp : Macro}
    (member : mp ∈ definitions name events) : mp.where_ ≠ .UNDEF ∧ mp.where_ ≠ .ENVIRON := by
  unfold definitions at member
  rw [List.mem_filterMap] at member
  rcases member with ⟨event, _, found⟩
  cases event with
  | flag_e => cases found
  | define d =>
    dsimp only at found
    split_ifs at found with same
    cases found
    exact called_where

theorem definitions_snoc_flag (events : List Event) :
    definitions name (events ++ [.flag_e]) = definitions name events := by
  simp [definitions]

theorem definitions_snoc_same (events : List Event) (same : d.name = name) :
    definitions name (events ++ [.define d]) = definitions name events ++ [⟨d.val, d.where_⟩] := by
  simp [definitions, same]

theorem definitions_snoc_other (events : List Event) (other : d.name ≠ name) :
    definitions name (events ++ [.define d]) = definitions name events := by
  simp [definitions, other]

theorem run_snoc (events : List Event) (event : Event) :
    run env (events ++ [event]) = step (run env events) event := by
  simp [run]

theorem define_other (other : d.name ≠ name) :
    (define s d).htab name = s.htab name ∧ (define s d).env name = s.env name := by
  unfold define setmacro
  split_ifs <;> simp [Function.update_of_ne other.symm]

theorem define_eflag (s : State) (d : Definition) : (define s d).eflag = s.eflag := by
  unfold define setmacro
  split_ifs <;> rfl

/-- What is exported when a definition is taken. -/
def exports (s : State) (d : Definition) : Option String :=
  if d.exported && d.name ≠ "SHELL" then some d.val else s.env d.name

theorem define_taken (taken : set (macroinfo s d.name).2 d.where_ s.eflag = true) :
    (define s d).htab d.name = ⟨d.val, d.where_⟩ ∧ (define s d).env d.name = exports s d := by
  unfold define setmacro exports
  rw [if_pos taken]
  constructor
  · exact Function.update_self ..
  · dsimp only
    split_ifs
    · exact Function.update_self ..
    · rfl

theorem define_hidden (hidden : set (macroinfo s d.name).2 d.where_ s.eflag = false) : define s d = s := by
  unfold define setmacro
  rw [if_neg (by simp [hidden])]

theorem macroinfo_stored (stored : hide name = true ∨ s.env name = none ∨
      ((s.htab name).where_ ≠ .UNDEF ∧ (s.htab name).where_ ≠ .INTERNAL ∧ s.eflag = false)) :
    macroinfo s name = ((s.htab name).value, (s.htab name).where_) := by
  unfold macroinfo
  cases found : s.env name with
  | none => rfl
  | some t =>
    dsimp only
    rw [if_neg]
    rcases stored with hidden | absent | ⟨notUndef, notInternal, noFlag⟩
    · simp [hidden]
    · rw [absent] at found
      cases found
    · simp [notUndef, notInternal, noFlag]

theorem macroinfo_environ {t : String} (visible : hide name = false) (found : s.env name = some t)
    (weak : (s.htab name).where_ = .UNDEF ∨ (s.htab name).where_ = .INTERNAL ∨ s.eflag = true) :
    macroinfo s name = (t, .ENVIRON) := by
  unfold macroinfo
  rw [found]
  dsimp only
  rw [if_pos]
  rcases weak with undef | internal | flag
  · simp [visible, undef]
  · simp [visible, internal]
  · simp [visible, flag]

/-- What is kept for a name after the definitions `defs`. -/
structure Kept (name : String) (env : String → Option String) (defs : List Macro) (s : State) :
    Prop where
  /-- The command line is always in the environment. -/
  exported : (winner defs).where_ = .CMDLINE → name ≠ "SHELL" →
    s.env name = some (winner defs).value
  cmdline : (winner defs).where_ = .CMDLINE →
    s.htab name = winner defs ∨ (s.eflag = true ∧ hide name = false)
  unchanged : (winner defs).where_ ≠ .CMDLINE → hide name = false → s.env name = env name
  stored : (winner defs).where_ ≠ .CMDLINE → hide name = true ∨ env name = none →
    s.htab name = winner defs
  environ : (winner defs).where_ ≠ .CMDLINE → hide name = false → env name ≠ none →
    s.eflag = false →
      ((winner defs).where_ = .UNDEF ∨ (winner defs).where_ = .INTERNAL) ∧
          (s.htab name).where_ = .UNDEF ∨
        ((winner defs).where_ = .MAKEFILE ∨ (winner defs).where_ = .MAKEFLAGS) ∧
          s.htab name = winner defs

theorem kept_init : Kept name env [] (State.init env) := by
  constructor
  · intro cmdline
    cases cmdline
  · intro cmdline
    cases cmdline
  · intro _ _
    rfl
  · intro _ _
    rfl
  · intro _ _ _ _
    exact Or.inl ⟨Or.inl rfl, rfl⟩

theorem Kept.flag_e {defs : List Macro} (kept : Kept name env defs s) :
    Kept name env defs (step s .flag_e) := by
  constructor
  · exact kept.exported
  · intro cmdline
    rcases kept.cmdline cmdline with same | ⟨_, visible⟩
    · exact Or.inl same
    · exact Or.inr ⟨rfl, visible⟩
  · exact kept.unchanged
  · exact kept.stored
  · intro _ _ _ noFlag
    cases noFlag

theorem Kept.other {defs : List Macro} (kept : Kept name env defs s) (other : d.name ≠ name) :
    Kept name env defs (define s d) := by
  rcases define_other (s := s) other with ⟨htab, envSame⟩
  constructor
  · rw [envSame]
    exact kept.exported
  · rw [htab, define_eflag]
    exact kept.cmdline
  · rw [envSame]
    exact kept.unchanged
  · rw [htab]
    exact kept.stored
  · rw [htab, define_eflag]
    exact kept.environ

/-- Without the environment a definition is taken unless its rank is lower. -/
theorem set_higher {owhere where_ : Where} (eflag : Bool) (stored : owhere ≠ .ENVIRON)
    (le : rank false owhere ≤ rank false where_) (called : where_ ≠ .ENVIRON) :
    set owhere where_ eflag = true := by
  cases owhere <;> cases where_ <;> simp_all [set, rank]

theorem set_lower {owhere where_ : Where} (eflag : Bool) (stored : owhere ≠ .ENVIRON)
    (lt : rank false where_ < rank false owhere) (called : where_ ≠ .UNDEF ∧ where_ ≠ .ENVIRON)
    (order : where_ = .INTERNAL → owhere ≠ .MAKEFILE) : set owhere where_ eflag = false := by
  cases owhere <;> cases where_ <;> simp_all [set, rank]

theorem set_environ_internal (eflag : Bool) : set .ENVIRON .INTERNAL eflag = false := rfl

theorem set_environ_lower {where_ strongest : Where}
    (called : where_ ≠ .UNDEF ∧ where_ ≠ .ENVIRON) (lower : strongest ≠ .CMDLINE)
    (lt : rank false where_ < rank false strongest)
    (weak : eflag = true ∨ strongest = .UNDEF ∨ strongest = .INTERNAL) :
    set .ENVIRON where_ eflag = false := by
  rcases weak with rfl | rfl | rfl
  · cases strongest <;> cases where_ <;> simp_all [set, rank]
  · cases where_ <;> simp_all [rank]
  · cases where_ <;> simp_all [rank]

theorem exports_visible (visible : hide d.name = false)
    (notCmdline : d.where_ ≠ .CMDLINE) : exports s d = s.env d.name := by
  have notExported : d.exported = false := by
    have isCalled := d.isCalled
    cases place : d.where_ <;> rw [place] at isCalled notCmdline <;>
      simp_all [called, hide]
  simp [exports, notExported]

theorem exports_cmdline (cmdline : d.where_ = .CMDLINE)
    (notShell : d.name ≠ "SHELL") : exports s d = some d.val := by
  have isCalled := d.isCalled
  rw [cmdline] at isCalled
  have exported : d.exported = true := isCalled
  simp [exports, exported, notShell]

section Step

variable {defs : List Macro} {s : State}

theorem visible_not_shell (visible : hide name = false) : name ≠ "SHELL" := by
  rintro rfl
  cases visible

theorem Kept.owhere_cmdline (kept : Kept name env defs s) (cmdline : (winner defs).where_ = .CMDLINE) :
    macroinfo s name = ((winner defs).value, .CMDLINE) ∨
      (macroinfo s name = ((winner defs).value, .ENVIRON) ∧ s.eflag = true ∧ hide name = false) := by
  by_cases hidden : s.eflag = true ∧ hide name = false
  · right
    have found := kept.exported cmdline (visible_not_shell hidden.2)
    exact ⟨macroinfo_environ hidden.2 found (Or.inr (Or.inr hidden.1)), hidden⟩
  · left
    have same := (kept.cmdline cmdline).resolve_right hidden
    rw [← cmdline, ← same]
    apply macroinfo_stored
    rw [same, cmdline]
    by_cases visible : hide name = true
    · exact Or.inl visible
    · right
      right
      refine ⟨by decide, by decide, ?_⟩
      simp only [Bool.not_eq_true] at visible
      simpa [visible] using hidden

theorem Kept.owhere_lower (kept : Kept name env defs s) (lower : (winner defs).where_ ≠ .CMDLINE) :
    macroinfo s name = ((winner defs).value, (winner defs).where_) ∧
        (hide name = true ∨ env name = none ∨ ((winner defs).where_ = .MAKEFILE ∨
          (winner defs).where_ = .MAKEFLAGS) ∧ s.eflag = false) ∨
      ∃ t, macroinfo s name = (t, .ENVIRON) ∧ hide name = false ∧ env name = some t ∧
        (s.eflag = true ∨ (winner defs).where_ = .UNDEF ∨ (winner defs).where_ = .INTERNAL) := by
  by_cases absent : hide name = true ∨ env name = none
  · left
    have same := kept.stored lower absent
    constructor
    · rw [← same]
      apply macroinfo_stored
      cases visible : hide name with
      | true => exact Or.inl rfl
      | false =>
        rw [kept.unchanged lower visible]
        exact Or.inr (Or.inl (absent.resolve_left (by simp [visible])))
    · rcases absent with hidden | none_
      · exact Or.inl hidden
      · exact Or.inr (Or.inl none_)
  · have visible : hide name = false := by
      simp only [not_or, Bool.not_eq_true] at absent
      exact absent.1
    have present : env name ≠ none := (not_or.mp absent).2
    rcases Option.ne_none_iff_exists'.mp present with ⟨t, found⟩
    have inEnv : s.env name = some t := (kept.unchanged lower visible).trans found
    cases flag : s.eflag with
    | true =>
      right
      exact ⟨t, macroinfo_environ visible inEnv (Or.inr (Or.inr flag)), visible, found, Or.inl rfl⟩
    | false =>
      rcases kept.environ lower visible present flag with ⟨weak, undef⟩ | ⟨strong, same⟩
      · right
        exact ⟨t, macroinfo_environ visible inEnv (Or.inl undef), visible, found, Or.inr weak⟩
      · left
        constructor
        · rw [← same]
          apply macroinfo_stored
          right
          right
          rw [same]
          rcases strong with makefile | makeflags
          · simp [makefile, flag]
          · simp [makeflags, flag]
        · exact Or.inr (Or.inr ⟨strong, rfl⟩)

variable {d : Definition}

theorem cmdline_of_le {where_ other : Where} (le : rank false where_ ≤ rank false other)
    (cmdline : where_ = .CMDLINE) : other = .CMDLINE := by
  rw [cmdline] at le
  cases other <;> first | rfl | exact absurd le (by decide)

theorem Kept.wins_taken (kept : Kept d.name env defs s)
    (wins : winner (defs ++ [⟨d.val, d.where_⟩]) = ⟨d.val, d.where_⟩)
    (le : rank false (winner defs).where_ ≤ rank false d.where_)
    (taken : set (macroinfo s d.name).2 d.where_ s.eflag = true) :
    Kept d.name env (defs ++ [⟨d.val, d.where_⟩]) (define s d) := by
  rcases define_taken taken with ⟨htab, envNew⟩
  have before := cmdline_of_le le
  constructor
  · intro cmdline notShell
    rw [wins] at cmdline ⊢
    rw [envNew]
    exact exports_cmdline cmdline notShell
  · intro _
    rw [wins]
    exact Or.inl htab
  · intro lower visible
    rw [wins] at lower
    rw [envNew, exports_visible visible lower]
    exact kept.unchanged (fun cmdline => lower (before cmdline)) visible
  · intro _ _
    rw [wins]
    exact htab
  · intro lower visible present noFlag
    rw [wins] at lower ⊢
    rw [define_eflag] at noFlag
    cases place : d.where_ with
    | UNDEF => exact absurd place called_where.1
    | ENVIRON => exact absurd place called_where.2
    | CMDLINE => exact absurd place lower
    | MAKEFILE => exact Or.inr ⟨Or.inl rfl, by rw [htab, place]⟩
    | MAKEFLAGS => exact Or.inr ⟨Or.inr rfl, by rw [htab, place]⟩
    | INTERNAL =>
      exfalso
      rw [place] at taken le
      rcases kept.owhere_lower (fun cmdline => lower (before cmdline)) with
        ⟨_, reason⟩ | ⟨t, owhere, _, _, _⟩
      · rcases reason with hidden | absent | ⟨makefile | makeflags, _⟩
        · rw [visible] at hidden
          cases hidden
        · exact present absent
        · rw [makefile] at le
          exact absurd le (by decide)
        · rw [makeflags] at le
          exact absurd le (by decide)
      · rw [owhere, set_environ_internal] at taken
        cases taken

theorem Kept.wins_hidden (kept : Kept d.name env defs s)
    (wins : winner (defs ++ [⟨d.val, d.where_⟩]) = ⟨d.val, d.where_⟩)
    (stored : (winner defs).where_ ≠ .ENVIRON) (le : rank false (winner defs).where_ ≤ rank false d.where_)
    (hidden : set (macroinfo s d.name).2 d.where_ s.eflag = false) :
    Kept d.name env (defs ++ [⟨d.val, d.where_⟩]) (define s d) := by
  rw [define_hidden hidden]
  have notCmdline : d.where_ ≠ .CMDLINE := by
    intro cmdline
    rw [cmdline] at hidden
    cases owhere : (macroinfo s d.name).2 <;> rw [owhere] at hidden <;> cases hidden
  have lower : (winner defs).where_ ≠ .CMDLINE := fun cmdline =>
    notCmdline (cmdline_of_le le cmdline)
  have higher := set_higher s.eflag stored le called_where.2
  rcases kept.owhere_lower lower with ⟨owhere, _⟩ | ⟨t, owhere, visible, found, weak⟩
  · rw [owhere, higher] at hidden
    cases hidden
  · rw [owhere] at hidden
    have present : env d.name ≠ none := by simp [found]
    constructor
    · intro cmdline
      rw [wins] at cmdline
      exact absurd cmdline notCmdline
    · intro cmdline
      rw [wins] at cmdline
      exact absurd cmdline notCmdline
    · intro _
      exact kept.unchanged lower
    · intro _ absent
      rcases absent with shown | absent
      · rw [visible] at shown
        cases shown
      · exact absurd absent present
    · intro _ _ _ noFlag
      left
      rw [wins]
      rw [noFlag] at hidden weak
      have internal : d.where_ = .INTERNAL := by
        cases place : d.where_ with
        | UNDEF => exact absurd place called_where.1
        | ENVIRON => exact absurd place called_where.2
        | INTERNAL => rfl
        | CMDLINE => exact absurd place notCmdline
        | MAKEFILE =>
          rw [place] at hidden
          cases hidden
        | MAKEFLAGS =>
          rw [place] at hidden
          cases hidden
      refine ⟨Or.inr internal, ?_⟩
      rcases kept.environ lower visible present noFlag with ⟨_, undef⟩ | ⟨strong, _⟩
      · exact undef
      · rw [internal] at le
        rcases strong with makefile | makeflags
        · rw [makefile] at le
          exact absurd le (by decide)
        · rw [makeflags] at le
          exact absurd le (by decide)

theorem Kept.loses (kept : Kept d.name env defs s)
    (loses : winner (defs ++ [⟨d.val, d.where_⟩]) = winner defs) (stored : (winner defs).where_ ≠ .ENVIRON)
    (lt : rank false d.where_ < rank false (winner defs).where_)
    (order : d.where_ = .INTERNAL → (winner defs).where_ ≠ .MAKEFILE) :
    Kept d.name env (defs ++ [⟨d.val, d.where_⟩]) (define s d) ∧ (define s d).env d.name = s.env d.name := by
  have keeps : Kept d.name env (defs ++ [⟨d.val, d.where_⟩]) s := by
    constructor
    · rw [loses]
      exact kept.exported
    · rw [loses]
      exact kept.cmdline
    · rw [loses]
      exact kept.unchanged
    · rw [loses]
      exact kept.stored
    · rw [loses]
      exact kept.environ
  have notTaken := set_lower s.eflag stored lt called_where order
  cases taken : set (macroinfo s d.name).2 d.where_ s.eflag with
  | false =>
    rw [define_hidden taken]
    exact ⟨keeps, rfl⟩
  | true =>
    by_cases cmdline : (winner defs).where_ = .CMDLINE
    · rcases kept.owhere_cmdline cmdline with owhere | ⟨owhere, flag, visible⟩
      · rw [owhere, ← cmdline, notTaken] at taken
        cases taken
      · rw [cmdline] at lt
        have notCmdline : d.where_ ≠ .CMDLINE := by
          intro same
          rw [same] at lt
          exact absurd lt (by decide)
        rcases define_taken taken with ⟨htab, envNew⟩
        rw [exports_visible visible notCmdline] at envNew
        refine ⟨?_, envNew⟩
        constructor
        · rw [envNew]
          exact keeps.exported
        · intro _
          rw [define_eflag]
          exact Or.inr ⟨flag, visible⟩
        · rw [envNew]
          exact keeps.unchanged
        · intro lower
          rw [loses] at lower
          exact absurd cmdline lower
        · intro lower
          rw [loses] at lower
          exact absurd cmdline lower
    · rcases kept.owhere_lower cmdline with ⟨owhere, _⟩ | ⟨t, owhere, visible, found, weak⟩
      · rw [owhere, notTaken] at taken
        cases taken
      · rw [owhere] at taken
        rw [set_environ_lower called_where cmdline lt weak] at taken
        cases taken

end Step

theorem winner_mem (defs : List Macro) : winner defs = undefined ∨ winner defs ∈ defs :=
  lastHighest_mem undefined defs

theorem winner_snoc (defs : List Macro) (mp : Macro) :
    winner (defs ++ [mp]) = later (macroRank false) (winner defs) mp :=
  lastHighest_snoc undefined defs mp

theorem winner_not_environ (name : String) (events : List Event) :
    (winner (definitions name events)).where_ ≠ .ENVIRON := by
  rcases winner_mem (definitions name events) with none_ | member
  · rw [none_]
    decide
  · exact (definitions_called member).2

theorem DefaultsFirst.prefix_ {event : Event}
    (first : DefaultsFirst (events ++ [event])) : DefaultsFirst events := by
  intro name
  have pairs := first name
  unfold definitions at pairs ⊢
  rw [List.filterMap_append, List.pairwise_append] at pairs
  exact pairs.1

theorem DefaultsFirst.winner
    (first : DefaultsFirst (events ++ [.define d])) (internal : d.where_ = .INTERNAL) :
    (winner (definitions d.name events)).where_ ≠ .MAKEFILE := by
  have pairs := first d.name
  rw [definitions_snoc_same events rfl, List.pairwise_append] at pairs
  rcases winner_mem (definitions d.name events) with none_ | member
  · rw [none_]
    decide
  · intro makefile
    exact pairs.2.2 _ member _ List.mem_cons_self makefile internal

theorem kept_define (first : DefaultsFirst (events ++ [.define d]))
    (kept : Kept d.name env (definitions d.name events) s) :
    Kept d.name env (definitions d.name (events ++ [.define d])) (define s d) := by
  rw [definitions_snoc_same events rfl]
  have stored := winner_not_environ d.name events
  by_cases le : rank false (winner (definitions d.name events)).where_ ≤ rank false d.where_
  · have wins : winner (definitions d.name events ++ [⟨d.val, d.where_⟩]) = ⟨d.val, d.where_⟩ := by
      rw [winner_snoc]
      exact later_of_le le
    cases taken : set (macroinfo s d.name).2 d.where_ s.eflag with
    | true => exact kept.wins_taken wins le taken
    | false => exact kept.wins_hidden wins stored le taken
  · have lt := Nat.not_le.mp le
    have loses : winner (definitions d.name events ++ [⟨d.val, d.where_⟩]) =
        winner (definitions d.name events) := by
      rw [winner_snoc]
      exact later_of_lt lt
    exact (kept.loses loses stored lt first.winner).1

theorem run_kept (name : String) (env : String → Option String) (events : List Event)
    (first : DefaultsFirst events) : Kept name env (definitions name events) (run env events) := by
  induction events using List.reverseRecOn with
  | nil => exact kept_init
  | append_singleton events event ih =>
    have kept := ih first.prefix_
    rw [run_snoc]
    cases event with
    | flag_e =>
      rw [definitions_snoc_flag]
      exact kept.flag_e
    | define d =>
      by_cases same : d.name = name
      · subst same
        exact kept_define first kept
      · rw [definitions_snoc_other events same]
        exact kept.other same

/-- The winner once the environment is counted. -/
def effective (eflag : Bool) (environ : Option String) (defs : List Macro) : Macro :=
  lastHighest (macroRank eflag) undefined (sources environ defs)

theorem rank_not_environ {where_ : Where} (eflag : Bool) (stored : where_ ≠ .ENVIRON) :
    rank eflag where_ = rank false where_ := by
  cases where_ <;> first | rfl | exact absurd rfl stored

theorem winner_eflag (eflag : Bool) (events : List Event) :
    lastHighest (macroRank eflag) undefined (definitions name events) = winner (definitions name events) := by
  apply lastHighest_congr
  · rfl
  · intro mp member
    exact rank_not_environ eflag (definitions_called member).2

theorem effective_none (eflag : Bool) (events : List Event) :
    effective eflag none (definitions name events) = winner (definitions name events) :=
  winner_eflag eflag events

theorem effective_some (eflag : Bool) (t : String) (events : List Event) :
    effective eflag (some t) (definitions name events) =
      later (macroRank eflag) ⟨t, .ENVIRON⟩ (winner (definitions name events)) := by
  have above : macroRank eflag undefined < macroRank eflag ⟨t, .ENVIRON⟩ := by
    unfold macroRank
    cases eflag <;> simp [rank, undefined]
  change lastHighest (macroRank eflag) (later (macroRank eflag) undefined ⟨t, .ENVIRON⟩)
    (definitions name events) = _
  rw [later_of_le (Nat.le_of_lt above), ← winner_eflag eflag, ← lastHighest_later, later_of_lt above]

theorem effective_strong {environ : Option String}
    (strong : environ = none ∨ (winner (definitions name events)).where_ = .CMDLINE ∨
      ((winner (definitions name events)).where_ = .MAKEFILE ∨
        (winner (definitions name events)).where_ = .MAKEFLAGS) ∧ eflag = false) :
    effective eflag environ (definitions name events) = winner (definitions name events) := by
  cases environ with
  | none => exact effective_none eflag events
  | some t =>
    rw [effective_some]
    apply later_of_le
    unfold macroRank
    dsimp only
    rcases strong with absent | cmdline | ⟨makefile | makeflags, rfl⟩
    · cases absent
    · rw [cmdline]
      cases eflag <;> decide
    · rw [makefile]
      decide
    · rw [makeflags]
      decide

theorem effective_weak {t : String} (lower : (winner (definitions name events)).where_ ≠ .CMDLINE)
    (weak : eflag = true ∨ (winner (definitions name events)).where_ = .UNDEF ∨
      (winner (definitions name events)).where_ = .INTERNAL) :
    effective eflag (some t) (definitions name events) = ⟨t, .ENVIRON⟩ := by
  rw [effective_some]
  apply later_of_lt
  unfold macroRank
  dsimp only
  have stored := winner_not_environ name events
  rcases weak with rfl | undef | internal
  · cases place : (winner (definitions name events)).where_ with
    | UNDEF => decide
    | INTERNAL => decide
    | MAKEFILE => decide
    | MAKEFLAGS => decide
    | ENVIRON => exact absurd place stored
    | CMDLINE => exact absurd place lower
  · rw [undef]
    cases eflag <;> decide
  · rw [internal]
    cases eflag <;> decide

theorem environ_hidden (hidden : hide name = true) : environ env name = none := by
  simp [environ, hidden]

theorem environ_visible (visible : hide name = false) : environ env name = env name := by
  simp [environ, visible]

theorem getmacro_run (name : String) (env : String → Option String) (events : List Event)
    (first : DefaultsFirst events) : getmacro (run env events) name =
      (effective (run env events).eflag (environ env name) (definitions name events)).value := by
  have kept := run_kept name env events first
  unfold getmacro
  by_cases cmdline : (winner (definitions name events)).where_ = .CMDLINE
  · rw [effective_strong (Or.inr (Or.inl cmdline))]
    rcases kept.owhere_cmdline cmdline with owhere | ⟨owhere, _⟩
    · rw [owhere]
    · rw [owhere]
  · rcases kept.owhere_lower cmdline with ⟨owhere, reason⟩ | ⟨t, owhere, visible, found, weak⟩
    · rw [owhere, effective_strong]
      rcases reason with hidden | absent | strong
      · exact Or.inl (environ_hidden hidden)
      · left
        unfold environ
        split_ifs
        · rfl
        · exact absent
      · exact Or.inr (Or.inr strong)
    · rw [owhere, environ_visible visible, found, effective_weak cmdline weak]

/-- The value of a macro is the one of the last definition from the highest source, and a
definition from a lower source neither changes it nor what is exported. -/
structure Precedence (environ : Option String) (name : String) (events : List Event) (s : State) :
    Prop where
  undefined : sources environ (definitions name events) = [] → getmacro s name = ""
  value : ∀ mp, IsLastHighest (macroRank s.eflag) (sources environ (definitions name events)) mp →
    getmacro s name = mp.value
  exported : ∀ mp, IsLastHighest (macroRank s.eflag) (sources environ (definitions name events)) mp →
    mp.where_ = .CMDLINE → name ≠ "SHELL" → s.env name = some mp.value
  lower : ∀ d : Definition, d.name = name → DefaultsFirst (events ++ [.define d]) →
    (∃ mp ∈ sources environ (definitions name events), rank s.eflag d.where_ < rank s.eflag mp.where_) →
    getmacro (define s d) name = getmacro s name ∧ (define s d).env name = s.env name

theorem effective_last {environ : Option String} {mp : Macro}
    (highest : IsLastHighest (macroRank eflag) (sources environ (definitions name events)) mp) :
    effective eflag environ (definitions name events) = mp :=
  highest.eq (Nat.zero_le _)

theorem effective_snoc (eflag : Bool) (environ : Option String) (events : List Event) (d : Definition) :
    effective eflag environ (definitions d.name (events ++ [.define d])) =
      later (macroRank eflag) (effective eflag environ (definitions d.name events)) ⟨d.val, d.where_⟩ := by
  unfold effective sources
  rw [definitions_snoc_same events rfl, ← List.append_assoc, lastHighest_snoc]

/-- What a lower source defines is not exported over a higher one. -/
theorem env_lower (first : DefaultsFirst (events ++ [.define d]))
    (lower : ∃ mp ∈ sources (environ env d.name) (definitions d.name events),
      rank (run env events).eflag d.where_ < rank (run env events).eflag mp.where_) :
    (define (run env events) d).env d.name = (run env events).env d.name := by
  have kept := run_kept d.name env events first.prefix_
  have stored := winner_not_environ d.name events
  by_cases le : rank false (winner (definitions d.name events)).where_ ≤ rank false d.where_
  · rcases lower with ⟨mp, member, lt⟩
    rw [rank_not_environ _ called_where.2] at lt
    rcases List.mem_append.mp member with fromEnv | fromDefs
    · cases found : environ env d.name with
      | none => simp [found] at fromEnv
      | some t =>
        simp only [found, Option.map_some, Option.toList_some, List.mem_singleton] at fromEnv
        subst fromEnv
        have visible : hide d.name = false := by
          cases shown : hide d.name with
          | false => rfl
          | true =>
            rw [environ_hidden shown] at found
            cases found
        have notCmdline : d.where_ ≠ .CMDLINE := by
          intro cmdline
          rw [cmdline] at lt
          dsimp only at lt
          cases flag : (run env events).eflag <;> rw [flag] at lt <;> exact absurd lt (by decide)
        cases taken : set (macroinfo (run env events) d.name).2 d.where_ (run env events).eflag with
        | true => exact (define_taken taken).2.trans (exports_visible visible notCmdline)
        | false => rw [define_hidden taken]
    · have bound : macroRank false mp ≤ macroRank false (winner (definitions d.name events)) :=
        rank_le_lastHighest fromDefs
      rw [rank_not_environ _ (definitions_called fromDefs).2] at lt
      exact absurd (Nat.lt_of_le_of_lt le lt) (Nat.not_lt.mpr bound)
  · have lt := Nat.not_le.mp le
    have loses : winner (definitions d.name events ++ [⟨d.val, d.where_⟩]) =
        winner (definitions d.name events) := by
      rw [winner_snoc]
      exact later_of_lt lt
    exact (kept.loses loses stored lt first.winner).2

theorem precedence (env : String → Option String) (events : List Event)
    (first : DefaultsFirst events) (name : String) :
    Precedence (environ env name) name events (run env events) := by
  have value := getmacro_run name env events first
  constructor
  · intro empty
    rw [value, effective, empty]
    rfl
  · intro mp highest
    rw [value, effective_last highest]
  · intro mp highest cmdline notShell
    have same := effective_last highest
    have fromDefs : mp = winner (definitions name events) := by
      cases found : environ env name with
      | none => rw [← same, found, effective_none]
      | some t =>
        rw [found, effective_some] at same
        unfold later at same
        split_ifs at same
        · exact same.symm
        · rw [← same] at cmdline
          cases cmdline
    rw [fromDefs] at cmdline ⊢
    exact (run_kept name env events first).exported cmdline notShell
  · rintro d rfl order lower
    constructor
    · have next := getmacro_run d.name env (events ++ [.define d]) order
      rw [run_snoc] at next
      change getmacro (define (run env events) d) d.name = _ at next
      have flag : (step (run env events) (.define d)).eflag = (run env events).eflag :=
        define_eflag _ d
      rw [next, value, flag, effective_snoc, later_of_lt]
      rcases lower with ⟨mp, member, lt⟩
      have bound : macroRank (run env events).eflag mp ≤ macroRank (run env events).eflag
          (effective (run env events).eflag (environ env d.name) (definitions d.name events)) :=
        rank_le_lastHighest member
      exact Nat.lt_of_lt_of_le lt bound
    · exact env_lower order lower

/-- With a makefile and the command line. -/
theorem precedence_cmdline :
    let events : List Event :=
      [.define ⟨"CC", "tcc", .CMDLINE, true, rfl⟩, .define ⟨"CC", "gcc", .MAKEFILE, false, rfl⟩]
    DefaultsFirst events ∧ Precedence none "CC" events (run (fun _ => none) events) := by
  have first : DefaultsFirst [.define ⟨"CC", "tcc", .CMDLINE, true, rfl⟩,
      .define ⟨"CC", "gcc", .MAKEFILE, false, rfl⟩] := by
    intro name
    unfold definitions
    by_cases same : "CC" = name <;> simp [same]
  exact ⟨first, precedence (fun _ => none) _ first "CC"⟩

/-- A built-in rule replaces what a makefile has defined, and SHELL in the environment is
not looked at. -/
theorem not_last_highest : (let events : List Event :=
      [.define ⟨"CC", "gcc", .MAKEFILE, false, rfl⟩, .define ⟨"CC", "c99", .INTERNAL, false, rfl⟩]
    ¬ Precedence none "CC" events (run (fun _ => none) events)) ∧
    ¬ Precedence (some "/bin/sh") "SHELL" [] (run (fun _ => some "/bin/sh") []) := by
  constructor
  · intro events law
    have value := law.value ⟨"gcc", .MAKEFILE⟩ ⟨[], [⟨"c99", .INTERNAL⟩], rfl, by simp, by decide⟩
    exact absurd value (by decide)
  · intro law
    have value := law.value ⟨"/bin/sh", .ENVIRON⟩ ⟨[], [], rfl, by simp, by simp⟩
    exact absurd value (by decide)

end Scc.Make.Macros
