import Scc.Make.Failure

/-!
# What a failure stops

What `-k` promises about the targets, the exit status, and what happens without `-k`.
-/

namespace Scc.Make

set_option autoImplicit false

open Scc.Lib Relation

variable {W : Type} {os : Os W} {f : Flags}

/-- The target can be made: no name is too long and somebody knows how to make it. -/
def Known (os : Os W) (f : Flags) : Condition W := fun m name c =>
  decision os m name c ≠ none ∧
    (FoundOld os m name c → update os f (decided os m name c.defn) name ≠ none)

/-- Nothing above a failure is run, and what is out of date elsewhere is. -/
def Contains (os : Os W) (f : Flags) (htab₀ : Table) : Condition W := fun m name c =>
  (FailedBelow htab₀ m name → (finish os f m name c).state.ran = m.ran) ∧
    (¬ FailedBelow htab₀ m name → FoundOld os m name { c with err := false } →
      HasActions os (decided os m name c.defn) name →
        RunsActions m (finish os f m name c) name)

variable {c : Checked} {m m' : State W} {name : String} {r : Int}

theorem contains_of_err {htab₀ : Table} (err : ErrBelow htab₀ m name c) : Contains os f htab₀ m name c := by
  constructor
  · intro failed
    exact finish_err (err.mpr failed)
  · intro none_ old has
    have noErr : c.err = false := by
      rw [Bool.eq_false_iff]
      exact fun isErr => none_ (err.mp isErr)
    have found : FoundOld os m name c := ⟨noErr, old.2⟩
    rcases finish_ran os f m name c with ⟨_, _, ran⟩ | ⟨not_, _⟩
    · exact ran
    · exact absurd ⟨found, has⟩ not_

theorem decision_ran {need : Bool}
    (taken : decision os m name c = some (m', need)) : m' = decided os m name c.defn := by
  by_cases absent : (m.htab name).stamp = -1
  · rw [decision_absent c absent] at taken
    cases taken
    rfl
  · rw [decision_present os c absent] at taken
    cases noforced : noforce os m name c.defn <;> rw [noforced] at taken <;> cases taken <;> rfl

theorem decision_found (noErr : c.err = false)
    (taken : decision os m name c = some (m', true)) : FoundOld os m name c := by
  refine ⟨noErr, ?_⟩
  by_cases absent : (m.htab name).stamp = -1
  · exact Or.inl absent
  · right
    rw [decision_present os c absent] at taken
    cases noforced : noforce os m name c.defn with
    | error =>
      rw [noforced] at taken
      cases taken
    | found q fname => trivial
    | none =>
      rw [noforced] at taken
      exact congrArg Prod.snd (Option.some.inj taken)

theorem finish_known (known : Known os f m name c) :
    (∃ r, finish os f m name c = .done (decided os m name c.defn) r false) ∨
      ∃ m' r, update os f (decided os m name c.defn) name = some (m', r) ∧ finish os f m name c =
          if r = 0 then .done m' 0 true else if f.kflag then .done { m' with exitstatus := true } r true
          else exitError m' := by
  unfold finish
  cases taken : decision os m name c with
  | none => exact absurd taken known.1
  | some result =>
    have same := decision_ran taken
    dsimp only
    cases isErr : c.err with
    | true =>
      left
      refine ⟨1, ?_⟩
      rw [if_pos rfl, same]
    | false =>
      rw [if_neg (by simp)]
      cases need : result.2 with
      | false =>
        left
        refine ⟨0, ?_⟩
        rw [if_neg (by simp), same]
      | true =>
        right
        rw [if_pos rfl, same]
        have old : FoundOld os m name c := by
          apply decision_found isErr
          rw [taken, ← need]
        unfold remake
        cases updated : update os f (decided os m name c.defn) name with
        | none => exact absurd updated (known.2 old)
        | some pair => exact ⟨pair.1, pair.2, rfl, rfl⟩

theorem keeps_going (keepGoing : f.kflag = true) (fuel : Nat) (names : List String) (m : State W)
    (known : MeetsGoals os f (Known os f) fuel names m) (o : Outcome W)
    (finished : goals os f fuel names m = some o) : ∃ m' r build, o = .done m' r build := by
  have step : ∀ (m : State W) name c, True → Known os f m name c →
      Known os f m name c ∧ (finish os f m name c).Sat (fun _ => True) fun _ => False := by
    intro m name c _ known
    refine ⟨known, ?_⟩
    rcases finish_known known with ⟨r, same⟩ | ⟨m', r, _, same⟩
    · rw [same]
      trivial
    · rw [same, keepGoing]
      split_ifs <;> trivial
  have sat := (goals_rule (fun _ _ _ => trivial) step fuel names m trivial known).2 o finished
  cases o with
  | exit m' => exact sat.elim
  | done m' r build => exact ⟨m', r, build, rfl⟩

theorem execline_exitstatus (noQuestion : f.qflag = false) (m : State W) (line : String)
    (ignore : Bool) : (execline os f m line ignore).1.exitstatus = m.exitstatus := by
  unfold execline
  dsimp only
  split_ifs <;> simp [noQuestion]

theorem steps_exitstatus {α : Type} {step : State W → α → State W × Int}
    (each : ∀ m x, (step m x).1.exitstatus = m.exitstatus) (xs : List α) (m : State W) :
    (steps step m xs).1.exitstatus = m.exitstatus := by
  induction xs generalizing m with
  | nil => rfl
  | cons x rest ih =>
    unfold steps
    dsimp only
    split_ifs
    · exact each m x
    · rw [ih]
      exact each m x

theorem touch_exitstatus (m : State W) (name : String) (ignore : Bool) :
    (touch os f m name ignore).1.exitstatus = m.exitstatus := rfl

theorem runFor_exitstatus (noQuestion : f.qflag = false) (m : State W) (name q : String) :
    (runFor os f m name q).1.exitstatus = m.exitstatus := by
  have ran : (run os f m q).1.exitstatus = m.exitstatus := by
    unfold run touchdeps
    dsimp only
    split_ifs <;>
      simp only [touch_exitstatus, steps_exitstatus (fun m line => execline_exitstatus noQuestion m _ _),
        steps_exitstatus (fun m name => touch_exitstatus m name _)]
  exact ran

theorem update_exitstatus (noQuestion : f.qflag = false)
    (updated : update os f m name = some (m', r)) : m'.exitstatus = m.exitstatus := by
  have ran : ∀ {m₁ : State W} {q : String}, some (runFor os f m₁ name q) = some (m', r) →
      m'.exitstatus = m₁.exitstatus := by
    intro m₁ q same
    have first : (runFor os f m₁ name q).1 = m' := congrArg Prod.fst (Option.some.inj same)
    rw [← first, runFor_exitstatus noQuestion]
  unfold update at updated
  split_ifs at updated with actions
  · exact ran updated
  · cases inferred : search os m name true with
    | error =>
      rw [inferred] at updated
      cases updated
    | found q fname =>
      rw [inferred] at updated
      have same := ran updated
      exact same
    | none =>
      rw [inferred] at updated
      dsimp only at updated
      unfold fallback at updated
      split_ifs at updated
      · exact ran updated
      · cases updated
        rfl

theorem decided_exitstatus (os : Os W) (m : State W) (name : String) (defn : Bool) :
    (decided os m name defn).exitstatus = m.exitstatus := by
  unfold decided
  split_ifs
  · rfl
  · cases noforce os m name defn <;> rfl

/-- The exit status tells whether something has failed. -/
def Status (m : State W) : Prop := m.exitstatus = true ↔ ∃ x, Failed m x

theorem status_same (status : Status m) (exitstatus : m'.exitstatus = m.exitstatus)
    (ran : m'.ran = m.ran) : Status m' := by
  unfold Status at *
  rw [exitstatus]
  simp only [failed_of_ran ran]
  exact status

theorem status_finish (noQuestion : f.qflag = false) (status : Status m) (known : Known os f m name c) :
    (finish os f m name c).Sat Status Status := by
  have same := decided_ran os m name c.defn
  have exitSame := decided_exitstatus os m name c.defn
  rcases finish_known known with ⟨r, finished⟩ | ⟨m', r, updated, finished⟩
  · rw [finished]
    exact status_same status exitSame same
  · have exit' := (update_exitstatus noQuestion updated).trans exitSame
    have ran := update_ran updated
    rw [same] at ran
    rw [finished]
    by_cases ok : r = 0
    · subst ok
      rw [if_pos rfl]
      change Status m'
      rcases ran with ran | ⟨ran, _⟩
      · unfold Status at *
        rw [exit', status]
        simp [failed_snoc ran]
      · exact status_same status exit' ran
    · have failed : ∃ x, Failed m' x := by
        rcases ran with ran | ⟨_, zero⟩
        · exact ⟨name, (failed_snoc ran name).mpr (Or.inr ⟨rfl, ok⟩)⟩
        · exact absurd zero ok
      have marked : Status { m' with exitstatus := true } := iff_of_true rfl failed
      rw [if_neg ok]
      split_ifs <;> exact marked

theorem status_goals (noQuestion : f.qflag = false) (fuel : Nat) (names : List String) (m : State W)
    (status : Status m) (known : MeetsGoals os f (Known os f) fuel names m) (o : Outcome W)
    (finished : goals os f fuel names m = some o) : Status o.state := by
  have step : ∀ (m : State W) name c, Status m → Known os f m name c →
      Known os f m name c ∧ (finish os f m name c).Sat Status Status := by
    intro m name c status known
    exact ⟨known, status_finish noQuestion status known⟩
  have sat := (goals_rule (fun _ _ status => status) step fuel names m status known).2 o finished
  cases o <;> exact sat

theorem remake_stopping (stopping : f.kflag = false)
    {build : Bool} (remade : remake os f m name = .done m' r build) : r = 0 := by
  unfold remake at remade
  cases updated : update os f m name with
  | none =>
    rw [updated] at remade
    cases remade
  | some result =>
    rw [updated] at remade
    simp only [stopping, Bool.false_eq_true, if_false] at remade
    split_ifs at remade with ok
    · cases remade
      rfl
    · cases remade

theorem finish_stopping (stopping : f.kflag = false) {build : Bool} (noErr : c.err = false)
    (finished : finish os f m name c = .done m' r build) : r = 0 := by
  unfold finish at finished
  cases taken : decision os m name c with
  | none =>
    rw [taken] at finished
    cases finished
  | some result =>
    rw [taken] at finished
    dsimp only at finished
    rw [if_neg (by simp [noErr])] at finished
    split_ifs at finished with need
    · exact remake_stopping stopping finished
    · cases finished
      rfl

theorem first_failure (stopping : f.kflag = false) (fuel : Nat) (names : List String) (m : State W)
    (clean : ∀ x, ¬ Failed m x) : MeetsGoals os f (fun m _ _ => ∀ x, ¬ Failed m x) fuel names m := by
  have step : ∀ (m : State W) (name : String) (c : Checked), (∀ x, ¬ Failed m x) → True →
      (∀ x, ¬ Failed m x) ∧
        (finish os f m name c).Sat (fun m => ∀ x, ¬ Failed m x) fun _ => True := by
    intro m name c clean _
    refine ⟨clean, ?_⟩
    cases finished : finish os f m name c with
    | exit m' => trivial
    | done m' r build =>
      intro x failed
      cases isErr : c.err with
      | true => exact clean x ((failed_of_ran (finish_done_err isErr finished).1 x).mp failed)
      | false =>
        rcases finish_done isErr finished with ran | ⟨ran, _⟩
        · rcases (failed_snoc ran x).mp failed with old | ⟨_, nonzero⟩
          · exact clean x old
          · exact nonzero (finish_stopping stopping isErr finished)
        · exact clean x ((failed_of_ran ran x).mp failed)
  have always : MeetsGoals os f (fun _ _ _ => True) fuel names m :=
    meetsGoals_of_all (fun _ _ _ => trivial) fuel names m
  exact (goals_rule (fun _ _ clean => clean) step fuel names m clean always).1

structure FailureLaw (os : Os W) (f : Flags) (fuel : Nat) (names : List String) (m : State W)
    (o : Outcome W) : Prop where
  contained : MeetsGoals os f (FailsAgain os f) fuel names m →
    MeetsGoals os f (Contains os f m.htab) fuel names m
  visited : f.kflag = true → MeetsGoals os f (Known os f) fuel names m →
    ∀ goal ∈ names, ∀ t, ReflTransGen (Edge m.htab) goal t →
      ¬ MeetsGoals os f (Elsewhere t) fuel names m
  status : f.qflag = false → MeetsGoals os f (Known os f) fuel names m →
    (o.state.exitstatus = true ↔ ∃ x, Failed o.state x)
  stops : f.kflag = false → MeetsGoals os f (fun m _ _ => ∀ x, ¬ Failed m x) fuel names m

/-- Two parents of `q`, whose action makes the file and then fails. -/
def halfMade : Table := fun name =>
  if name = "all" then { newTarget name with defined := true, deps := ["a", "b"] }
  else if name = "a" then { newTarget name with defined := true, deps := ["q"], actions := ["cat q"] }
  else if name = "b" then { newTarget name with defined := true, deps := ["q"], actions := ["cat q"] }
  else if name = "q" then { newTarget name with defined := true, actions := ["gen > q"] }
  else newTarget name

/-- The world is whether the file `q` exists. -/
def failingGen : Os Bool where
  FILENAME_MAX := 4096
  stamp w name := if w && name = "q" then 1 else -1
  launch w cmd _ := if cmd = "gen > q" then (true, 256) else (w, 0)
  system w _ := (w, 0)
  expandstring _ _ line _ := line

theorem halfMade_apart : Apart halfMade := by
  constructor
  · exact not_isRule (by decide) _
  · intro name _ dep member
    refine ⟨?_, not_isRule (by decide) dep⟩
    rintro rfl
    unfold halfMade at member
    split_ifs at member <;> simp [newTarget] at member

end Scc.Make
