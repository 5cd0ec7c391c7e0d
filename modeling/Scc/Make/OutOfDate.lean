import Scc.Make.Rebuild

/-!
# When a target is out of date

`rebuild()` visits the prerequisites first and merges what they return with the times of
the files. What it decides is compared with the law, for any state that the visits may
have left.
-/

namespace Scc.Make

set_option autoImplicit false

variable {W : Type} {os : Os W} {f : Flags}

structure Seen (W : Type) where
  dep : String
  before : State W
  after : State W
  r : Int
  build : Bool

/-- The prerequisites are rebuilt one after the other. -/
inductive Visited (rebuild : State W → String → Option (Outcome W)) :
    List String → State W → List (Seen W) → State W → Prop
  | nil (m : State W) : Visited rebuild [] m [] m
  | cons {m m' last : State W} {q : String} {rest : List String} {r : Int} {build : Bool}
      {seen : List (Seen W)} (called : rebuild m q = some (.done m' r build))
      (later : Visited rebuild rest m' seen last) :
      Visited rebuild (q :: rest) m (⟨q, m, m', r, build⟩ :: seen) last

/-- The prerequisite makes the target out of date. -/
def Seen.newer (name : String) (seen : Seen W) : Prop :=
  seen.r = 0 ∧
    (seen.build = true ∨ (seen.after.htab name).stamp < (seen.after.htab seen.dep).stamp)

/-- The prerequisite is the target itself, with actions. -/
def Seen.own (name : String) (seen : Seen W) : Prop :=
  seen.dep = name ∧ (seen.before.htab seen.dep).actions ≠ []

variable {name : String} {m : State W}

theorem checkDeps_visited {rec_ : State W → String → Option (Outcome W)}
    (deps : List String) : ∀ (m : State W) (c : Checked) (last : State W) (c' : Checked),
      checkDeps rec_ name deps m c = some (.done last c') → ∃ seen, Visited rec_ deps m seen last ∧
          (c'.err = true ↔ c.err = true ∨ ∃ s ∈ seen, s.r ≠ 0) ∧
          (c'.need = true ↔ c.need = true ∨ ∃ s ∈ seen, s.newer name) ∧
          (c'.defn = true ↔ c.defn = true ∨ ∃ s ∈ seen, s.own name) := by
  induction deps with
  | nil =>
    intro m c last c' visited
    cases visited
    exact ⟨[], .nil m, by simp, by simp, by simp⟩
  | cons q rest ih =>
    intro m c last c' visited
    unfold checkDeps at visited
    dsimp only at visited
    cases called : rec_ m q with
    | none =>
      rw [called] at visited
      cases visited
    | some o =>
      rw [called] at visited
      cases o with
      | exit m' => cases visited
      | done m' r build =>
        dsimp only at visited
        by_cases failed : r ≠ 0
        · rw [if_pos failed] at visited
          rcases ih _ _ _ _ visited with ⟨seen, later, err, need, defn⟩
          refine ⟨⟨q, m, m', r, build⟩ :: seen, .cons called later, ?_, ?_, ?_⟩
          · rw [err]
            simp [failed]
          · rw [need]
            simp [Seen.newer, failed]
          · rw [defn]
            simp [Seen.own, or_assoc]
        · rw [if_neg failed] at visited
          rcases ih _ _ _ _ visited with ⟨seen, later, err, need, defn⟩
          refine ⟨⟨q, m, m', r, build⟩ :: seen, .cons called later, ?_, ?_, ?_⟩
          · rw [err]
            simp [failed]
          · rw [need]
            simp only [Seen.newer, List.exists_mem_cons_iff, Bool.or_eq_true, decide_eq_true_eq,
              not_not.mp failed, true_and, or_assoc]
          · rw [defn]
            simp [Seen.own, or_assoc]

/-- The rule that would be used has a prerequisite that is newer than the target. -/
def Newer (os : Os W) (m : State W) (name : String) : Prop :=
  ∃ q fname, search os m name true = .found q fname ∧
    (m.htab name).stamp < os.stamp m.world fname

theorem infer_newer {tp : Target} {stem suffix q fname : String} (deps : List String)
    (found : infer os m tp true stem suffix deps = .found q fname)
    (newer : tp.stamp < os.stamp m.world fname) : infer os m tp false stem suffix deps = .found q fname := by
  induction deps with
  | nil => cases found
  | cons from_ rest ih =>
    unfold infer at found ⊢
    simp only [Bool.not_true, Bool.false_and, Bool.false_eq_true, if_false, Bool.not_false,
      Bool.true_and, decide_eq_true_eq] at found ⊢
    split_ifs at found ⊢ with long none_ longName missing older
    · exact ih found
    · exact ih found
    · cases found
      omega
    · exact found

theorem search_newer (newer : Newer os m name) : ∃ q fname, search os m name false = .found q fname := by
  rcases newer with ⟨q, fname, found, later⟩
  refine ⟨q, fname, ?_⟩
  unfold search at found ⊢
  cases split : strrchr name with
  | none =>
    rw [split] at found
    exact infer_newer _ found later
  | some parts =>
    rw [split] at found
    dsimp only at found ⊢
    split_ifs at found ⊢ with isEnabled
    exact infer_newer _ found later

/-- The search that `rebuild()` makes when the target exists. -/
def noforce (os : Os W) (m : State W) (name : String) (defn : Bool) : Inference :=
  if defn then .none else search os m name false

/-- The state in which the target is made, if it is. -/
def decided (os : Os W) (m : State W) (name : String) (defn : Bool) : State W :=
  if (m.htab name).stamp = -1 then m
  else
    match noforce os m name defn with
    | .found q fname => m.useRule name q fname
    | _ => m

/-- The actions of the target: its own, else those of a rule, else those of `.DEFAULT`. -/
def HasActions (os : Os W) (m : State W) (name : String) : Prop :=
  (m.htab name).actions ≠ [] ∨ (∃ q fname, search os m name true = .found q fname) ∨
    search os m name true = .none ∧ (m.htab ".DEFAULT").defined = true

def Outcome.state : Outcome W → State W
  | .exit m => m
  | .done m _ _ => m

/-- The law for a target whose prerequisites have been visited. -/
def OutOfDate (os : Os W) (m : State W) (name : String) (seen : List (Seen W)) : Prop :=
  (m.htab name).stamp = -1 ∨ (∃ s ∈ seen, s.newer name) ∨
    (m.htab name).actions = [] ∧ Newer os m name

def Decides (os : Os W) (m : State W) (name : String) (defn : Bool) (seen : List (Seen W)) : Prop :=
  (m.htab name).stamp = -1 ∨
    match noforce os m name defn with
    | .error => ¬ ∃ s ∈ seen, s.newer name
    | .found _ _ => (∃ s ∈ seen, s.newer name) ∨ (m.htab name).actions = [] ∧ Newer os m name
    | .none => defn = true → (m.htab name).actions = [] → Newer os m name → ∃ s ∈ seen, s.newer name

theorem steps_ran {α : Type} {step : State W → α → State W × Int}
    (each : ∀ m x, (step m x).1.ran = m.ran) (xs : List α) (m : State W) :
    (steps step m xs).1.ran = m.ran := by
  induction xs generalizing m with
  | nil => rfl
  | cons x rest ih =>
    unfold steps
    dsimp only
    split_ifs
    · exact each m x
    · rw [ih]
      exact each m x

theorem execline_ran (m : State W) (line : String) (ignore : Bool) :
    (execline os f m line ignore).1.ran = m.ran := by
  unfold execline
  dsimp only
  split_ifs <;> rfl

theorem touch_ran (m : State W) (name : String) (ignore : Bool) :
    (touch os f m name ignore).1.ran = m.ran := rfl

theorem touchdeps_ran (m : State W) (tp : Target) (silent : Bool) :
    (touchdeps os f m tp silent).1.ran = m.ran :=
  steps_ran (fun m name => touch_ran m name silent) _ m

theorem run_ran (m : State W) (name : String) : (run os f m name).1.ran = m.ran := by
  unfold run
  dsimp only
  split_ifs <;>
    simp only [touch_ran, steps_ran (fun m line => execline_ran m _ _), touchdeps_ran]

theorem runFor_ran (m : State W) (name q : String) :
    (runFor os f m name q).1.ran = m.ran ++ [⟨name, (runFor os f m name q).2⟩] := by
  unfold runFor
  dsimp only
  rw [run_ran]

theorem update_runs (has : HasActions os m name) :
    ∃ m' r, update os f m name = some (m', r) ∧ m'.ran = m.ran ++ [⟨name, r⟩] := by
  unfold update
  by_cases actions : (m.htab name).actions ≠ []
  · rw [if_pos actions]
    exact ⟨_, _, rfl, runFor_ran ..⟩
  · rw [if_neg actions]
    rcases has with own | ⟨q, fname, found⟩ | ⟨none_, default_⟩
    · exact absurd own actions
    · rw [found]
      exact ⟨_, _, rfl, runFor_ran ..⟩
    · rw [none_]
      dsimp only
      unfold fallback
      rw [if_pos default_]
      exact ⟨_, _, rfl, runFor_ran ..⟩

theorem remake_runs (has : HasActions os m name) :
    ∃ r, (remake os f m name).state.ran = m.ran ++ [⟨name, r⟩] := by
  rcases update_runs (f := f) has with ⟨m', r, updated, ran⟩
  refine ⟨r, ?_⟩
  unfold remake
  rw [updated]
  dsimp only
  split_ifs <;> exact ran

/-- The actions of the target are run in the last step. -/
def RunsActions (m : State W) (o : Outcome W) (name : String) : Prop :=
  ∃ r, o.state.ran = m.ran ++ [⟨name, r⟩]

theorem runs_or_not {o : Outcome W} (same : o.state.ran = m.ran) : ¬ RunsActions m o name := by
  rintro ⟨r, ran⟩
  rw [same] at ran
  simp at ran

theorem decided_ran (os : Os W) (m : State W) (name : String) (defn : Bool) :
    (decided os m name defn).ran = m.ran := by
  unfold decided
  split_ifs
  · rfl
  · cases noforce os m name defn <;> rfl

theorem decision_absent (c : Checked) (absent : (m.htab name).stamp = -1) :
    decision os m name c = some (decided os m name c.defn, true) := by
  unfold decision decided
  rw [if_pos absent, if_pos absent]

theorem decision_present (os : Os W) (c : Checked) (present : (m.htab name).stamp ≠ -1) :
    decision os m name c =
      match noforce os m name c.defn with
      | .error => none
      | .found _ _ => some (decided os m name c.defn, true)
      | .none => some (decided os m name c.defn, c.need) := by
  unfold decision decided
  rw [if_neg present, if_neg present]
  cases defn : c.defn with
  | true => rfl
  | false =>
    unfold noforce
    rw [if_neg (by simp), if_neg (by simp)]
    cases search os m name false <;> rfl

theorem finish_decided {m m' : State W} {c : Checked} {need : Bool}
    (noErr : c.err = false) (taken : decision os m name c = some (m', need))
    (same : m'.ran = m.ran) (has : HasActions os m' name) :
    RunsActions m (finish os f m name c) name ↔ need = true := by
  unfold finish
  rw [taken]
  dsimp only
  rw [if_neg (by simp [noErr])]
  cases need with
  | true =>
    rw [if_pos rfl]
    rcases remake_runs (f := f) has with ⟨r, ran⟩
    rw [same] at ran
    exact iff_of_true ⟨r, ran⟩ rfl
  | false =>
    rw [if_neg (by simp)]
    exact iff_of_false (runs_or_not same) (by simp)

theorem finish_runs {c : Checked} (noErr : c.err = false)
    (has : HasActions os (decided os m name c.defn) name) : RunsActions m (finish os f m name c) name ↔
      ((m.htab name).stamp = -1 ∨
        match noforce os m name c.defn with
        | .error => False
        | .found _ _ => True
        | .none => c.need = true) := by
  have same := decided_ran os m name c.defn
  by_cases absent : (m.htab name).stamp = -1
  · rw [finish_decided noErr (decision_absent c absent) same has]
    exact iff_of_true rfl (Or.inl absent)
  · have taken := decision_present os c absent
    rw [or_iff_right absent]
    cases noforced : noforce os m name c.defn with
    | error =>
      rw [noforced] at taken
      unfold finish
      rw [taken]
      exact iff_of_false (runs_or_not rfl) (by simp)
    | found q fname =>
      rw [noforced] at taken
      rw [finish_decided noErr taken same has]
      simp
    | none =>
      rw [noforced] at taken
      rw [finish_decided noErr taken same has]

theorem decides_iff {defn : Bool} {seen : List (Seen W)}
    {need : Bool} (needs : need = true ↔ ∃ s ∈ seen, s.newer name) : (((m.htab name).stamp = -1 ∨
        match noforce os m name defn with
        | .error => False
        | .found _ _ => True
        | .none => need = true) ↔ OutOfDate os m name seen) ↔ Decides os m name defn seen := by
  unfold OutOfDate Decides
  by_cases absent : (m.htab name).stamp = -1
  · simp [absent]
  · simp only [absent, false_or]
    cases noforced : noforce os m name defn with
    | error =>
      have notNewer : ¬ Newer os m name := by
        intro newer
        rcases search_newer newer with ⟨q, fname, found⟩
        unfold noforce at noforced
        split_ifs at noforced
        rw [found] at noforced
        cases noforced
      simp [notNewer]
    | found q fname => simp
    | none =>
      have found : defn = false → ¬ Newer os m name := by
        rintro rfl newer
        rcases search_newer newer with ⟨q, fname, found⟩
        unfold noforce at noforced
        rw [if_neg (by simp), found] at noforced
        cases noforced
      dsimp only
      rw [needs]
      cases defn with
      | false => simp [found rfl]
      | true =>
        constructor
        · intro same _ noActions newer
          exact same.mpr (Or.inr ⟨noActions, newer⟩)
        · intro implied
          constructor
          · exact Or.inl
          · rintro (newer | ⟨noActions, newer⟩)
            · exact newer
            · exact implied rfl noActions newer

/-- Either a prerequisite has ended the program, or all of them were rebuilt before the
decision; when they are up to date and the target has actions, these are run exactly when
the law says so, unless a rule stands in between. -/
def FollowsLaw (os : Os W) (f : Flags) (fuel : Nat) (m : State W) (name : String) (o : Outcome W) :
    Prop :=
  (∃ m', o = .exit m' ∧ checkDeps (rebuild os f fuel) name (m.htab name).deps (restamp os m name)
      ⟨false, false, false⟩ = some (.exit m')) ∨
    ∃ seen last defn,
      Visited (rebuild os f fuel) (m.htab name).deps (restamp os m name) seen last ∧
        (defn = true ↔ ∃ s ∈ seen, s.own name) ∧
        ((∀ s ∈ seen, s.r = 0) → HasActions os (decided os last name defn) name →
          ((RunsActions last o name ↔ OutOfDate os last name seen) ↔
            Decides os last name defn seen))

/-- `x.o` has its own actions, and there is a rule `.c.o`. -/
def ownActions : Table := fun name =>
  if name = "x.o" then { newTarget name with defined := true, actions := ["ld -r -o x.o y.o"] }
  else if name = ".c.o" then { newTarget name with defined := true, actions := ["cc -c x.c"] }
  else if name = ".SUFFIXES" then { newTarget name with defined := true, deps := [".o", ".c"] }
  else newTarget name

/-- The file `x.c` is newer than `x.o`. -/
def newerSource : Os Unit where
  FILENAME_MAX := 4096
  stamp _ name := if name = "x.o" then 1 else if name = "x.c" then 2 else -1
  launch _ _ _ := ((), 0)
  system _ _ := ((), 0)
  expandstring _ _ line _ := line

end Scc.Make
