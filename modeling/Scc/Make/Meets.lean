import Scc.Make.OutOfDate

/-!
# Conditions on a run

A condition may be asked at every decision that `rebuild()` takes. What a decision
preserves under its condition, and what it gives back, holds of the whole recursion.
-/

namespace Scc.Make

set_option autoImplicit false

variable {W : Type}

/-- The condition on the state after the prerequisites of a target. -/
abbrev Condition (W : Type) := State W → String → Checked → Prop

/-- Every visit of a prerequisite meets what it has to. -/
def MeetsDeps (meets : State W → String → Prop) (rebuild : State W → String → Option (Outcome W))
    (name : String) : List String → State W → Prop
  | [], _ => True
  | q :: rest, m =>
    meets m q ∧ ∀ m' r build, rebuild m q = some (.done m' r build) →
      MeetsDeps meets rebuild name rest m'

/-- Every decision of the recursion meets the condition. -/
def Meets (os : Os W) (f : Flags) (condition : Condition W) : Nat → State W → String → Prop
  | 0, _, _ => True
  | fuel + 1, m, name =>
    MeetsDeps (Meets os f condition fuel) (rebuild os f fuel) name (m.htab name).deps
        (restamp os m name) ∧
      ∀ last c, checkDeps (rebuild os f fuel) name (m.htab name).deps (restamp os m name)
          ⟨false, false, false⟩ = some (.done last c) → condition last name c

def MeetsGoals (os : Os W) (f : Flags) (condition : Condition W) (fuel : Nat) :
    List String → State W → Prop
  | [], _ => True
  | name :: rest, m =>
    Meets os f condition fuel m name ∧ ∀ m' r build,
      rebuild os f fuel m name = some (.done m' r build) →
        MeetsGoals os f condition fuel rest m'

def Visit.state : Visit W → State W
  | .exit m => m
  | .done m _ => m

variable (m : State W)

@[simp] theorem Visit.state_exit : (Visit.exit m).state = m := rfl

@[simp] theorem Visit.state_done (c : Checked) : (Visit.done m c).state = m := rfl

@[simp] theorem Outcome.state_exit : (Outcome.exit m).state = m := rfl

@[simp] theorem Outcome.state_done (r : Int) (build : Bool) :
    (Outcome.done m r build).state = m := rfl

section Rules

variable {os : Os W} {f : Flags} {condition : Condition W} {Inv : State W → Prop}

theorem checkDeps_iff {meets : State W → String → Prop}
    {rec_ : State W → String → Option (Outcome W)} {name : String}
    (each : ∀ m q o, rec_ m q = some o → (Inv o.state ↔ Inv m ∧ meets m q)) (deps : List String) :
    ∀ (m : State W) (c : Checked) (v : Visit W), checkDeps rec_ name deps m c = some v →
      (Inv v.state ↔ Inv m ∧ MeetsDeps meets rec_ name deps m) := by
  induction deps with
  | nil =>
    intro m c v visited
    cases visited
    simp [MeetsDeps]
  | cons q rest ih =>
    intro m c v visited
    unfold checkDeps at visited
    dsimp only at visited
    cases called : rec_ m q with
    | none =>
      rw [called] at visited
      cases visited
    | some o =>
      rw [called] at visited
      have first := each m q o called
      cases o with
      | exit m' =>
        cases visited
        simpa [MeetsDeps, called] using first
      | done m' r build =>
        have later : ∀ c', checkDeps rec_ name rest m' c' = some v →
            (Inv v.state ↔ Inv m ∧ MeetsDeps meets rec_ name (q :: rest) m) := by
          intro c' visited'
          rw [ih m' c' v visited']
          rw [Outcome.state_done] at first
          rw [first, and_assoc]
          simp [MeetsDeps, called]
        dsimp only at visited
        split_ifs at visited with failed
        · exact later _ visited
        · exact later _ visited

theorem rebuild_iff (stamps : ∀ m name, Inv (restamp os m name) ↔ Inv m)
    (decides : ∀ m name c, Inv (finish os f m name c).state ↔ Inv m ∧ condition m name c)
    (fuel : Nat) : ∀ (m : State W) (name : String) (o : Outcome W),
      rebuild os f fuel m name = some o → (Inv o.state ↔ Inv m ∧ Meets os f condition fuel m name) := by
  induction fuel with
  | zero =>
    intro m name o built
    cases built
  | succ fuel ih =>
    intro m name o built
    rw [rebuild] at built
    cases visited : checkDeps (rebuild os f fuel) name (m.htab name).deps (restamp os m name)
        ⟨false, false, false⟩ with
    | none =>
      rw [visited] at built
      cases built
    | some v =>
      rw [visited] at built
      have before := checkDeps_iff ih _ _ _ _ visited
      rw [stamps] at before
      cases v with
      | exit m' =>
        cases built
        simpa [Meets, visited] using before
      | done last c =>
        cases built
        rw [Visit.state_done] at before
        rw [decides, before, and_assoc]
        simp [Meets, visited]

theorem goals_iff (stamps : ∀ m name, Inv (restamp os m name) ↔ Inv m)
    (decides : ∀ m name c, Inv (finish os f m name c).state ↔ Inv m ∧ condition m name c)
    (fuel : Nat) (names : List String) : ∀ (m : State W) (o : Outcome W), goals os f fuel names m = some o →
        (Inv o.state ↔ Inv m ∧ MeetsGoals os f condition fuel names m) := by
  induction names with
  | nil =>
    intro m o finished
    cases finished
    simp [MeetsGoals]
  | cons name rest ih =>
    intro m o finished
    unfold goals at finished
    cases built : rebuild os f fuel m name with
    | none =>
      rw [built] at finished
      cases finished
    | some first =>
      rw [built] at finished
      have one := rebuild_iff stamps decides fuel m name first built
      cases first with
      | exit m' =>
        cases finished
        simpa [MeetsGoals, built] using one
      | done m' r build =>
        rw [ih m' o finished]
        rw [Outcome.state_done] at one
        rw [one, and_assoc]
        simp [MeetsGoals, built]

end Rules

/-- What holds of the state when the recursion goes on, and when it stops. -/
def Outcome.Sat (Inv Stop : State W → Prop) : Outcome W → Prop
  | .exit m => Stop m
  | .done m _ _ => Inv m

section Invariants

variable {os : Os W} {f : Flags} {condition conclusion : Condition W} {Inv Stop : State W → Prop}

theorem checkDeps_rule {meets gives : State W → String → Prop}
    {rec_ : State W → String → Option (Outcome W)} {name : String}
    (each : ∀ m q, Inv m → meets m q → gives m q ∧ ∀ o, rec_ m q = some o → o.Sat Inv Stop)
    (deps : List String) : ∀ m : State W, Inv m → MeetsDeps meets rec_ name deps m →
      MeetsDeps gives rec_ name deps m ∧ ∀ c v, checkDeps rec_ name deps m c = some v →
          match v with
          | .exit m' => Stop m'
          | .done m' _ => Inv m' := by
  induction deps with
  | nil =>
    intro m inv _
    refine ⟨trivial, ?_⟩
    intro c v visited
    cases visited
    exact inv
  | cons q rest ih =>
    rintro m inv ⟨first, later⟩
    rcases each m q inv first with ⟨given, after⟩
    constructor
    · refine ⟨given, ?_⟩
      intro m' r build called
      exact (ih m' (after _ called) (later m' r build called)).1
    · intro c v visited
      unfold checkDeps at visited
      dsimp only at visited
      cases called : rec_ m q with
      | none =>
        rw [called] at visited
        cases visited
      | some o =>
        rw [called] at visited
        cases o with
        | exit m' =>
          cases visited
          exact after _ called
        | done m' r build =>
          have tail := (ih m' (after _ called) (later m' r build called)).2
          dsimp only at visited
          split_ifs at visited with failed
          · exact tail _ v visited
          · exact tail _ v visited

theorem rebuild_rule (stamps : ∀ m name, Inv m → Inv (restamp os m name))
    (decides : ∀ m name c, Inv m → condition m name c →
      conclusion m name c ∧ (finish os f m name c).Sat Inv Stop) (fuel : Nat) :
    ∀ (m : State W) (name : String), Inv m → Meets os f condition fuel m name →
      Meets os f conclusion fuel m name ∧ ∀ o, rebuild os f fuel m name = some o → o.Sat Inv Stop := by
  induction fuel with
  | zero =>
    intro m name _ _
    refine ⟨trivial, ?_⟩
    intro o built
    cases built
  | succ fuel ih =>
    rintro m name inv ⟨deps, last⟩
    rcases checkDeps_rule ih _ _ (stamps m name inv) deps with ⟨given, after⟩
    constructor
    · refine ⟨given, ?_⟩
      intro m' c visited
      exact (decides m' name c (after _ _ visited) (last m' c visited)).1
    · intro o built
      rw [rebuild] at built
      cases visited : checkDeps (rebuild os f fuel) name (m.htab name).deps (restamp os m name)
          ⟨false, false, false⟩ with
      | none =>
        rw [visited] at built
        cases built
      | some v =>
        rw [visited] at built
        have inv' := after _ _ visited
        cases v with
        | exit m' =>
          cases built
          exact inv'
        | done m' c =>
          cases built
          exact (decides m' name c inv' (last m' c visited)).2

theorem goals_rule (stamps : ∀ m name, Inv m → Inv (restamp os m name))
    (decides : ∀ m name c, Inv m → condition m name c →
      conclusion m name c ∧ (finish os f m name c).Sat Inv Stop) (fuel : Nat)
    (names : List String) : ∀ m : State W, Inv m → MeetsGoals os f condition fuel names m →
      MeetsGoals os f conclusion fuel names m ∧ ∀ o, goals os f fuel names m = some o → o.Sat Inv Stop := by
  induction names with
  | nil =>
    intro m inv _
    refine ⟨trivial, ?_⟩
    intro o finished
    cases finished
    exact inv
  | cons name rest ih =>
    rintro m inv ⟨first, later⟩
    rcases rebuild_rule stamps decides fuel m name inv first with ⟨given, after⟩
    constructor
    · refine ⟨given, ?_⟩
      intro m' r build built
      exact (ih m' (after _ built) (later m' r build built)).1
    · intro o finished
      unfold goals at finished
      cases built : rebuild os f fuel m name with
      | none =>
        rw [built] at finished
        cases finished
      | some o' =>
        rw [built] at finished
        cases o' with
        | exit m' =>
          cases finished
          exact after _ built
        | done m' r build => exact (ih m' (after _ built) (later m' r build built)).2 o finished

theorem meetsDeps_of_all {meets : State W → String → Prop}
    {rec_ : State W → String → Option (Outcome W)} {name : String} (all : ∀ m q, meets m q)
    (deps : List String) : ∀ m : State W, MeetsDeps meets rec_ name deps m := by
  induction deps with
  | nil =>
    intro m
    trivial
  | cons q rest ih =>
    intro m
    exact ⟨all m q, fun m' _ _ _ => ih m'⟩

theorem meets_of_all (all : ∀ m name c, condition m name c) (fuel : Nat) :
    ∀ (m : State W) (name : String), Meets os f condition fuel m name := by
  induction fuel with
  | zero =>
    intro m name
    trivial
  | succ fuel ih =>
    intro m name
    exact ⟨meetsDeps_of_all ih _ _, fun last c _ => all last name c⟩

theorem meetsGoals_of_all (all : ∀ m name c, condition m name c) (fuel : Nat)
    (names : List String) : ∀ m : State W, MeetsGoals os f condition fuel names m := by
  induction names with
  | nil =>
    intro m
    trivial
  | cons name rest ih =>
    intro m
    exact ⟨meets_of_all all fuel m name, fun m' _ _ _ => ih m'⟩

end Invariants

end Scc.Make
