import Scc.Make.Termination
import Scc.Make.OneExecution

/-!
# Failures

With `-k` the result of `rebuild()` tells the parent that something below has failed. A
target is visited once for every parent, so this only contains a failure when a target
that has failed fails again.
-/

namespace Scc.Make

set_option autoImplicit false

open Scc.Lib Relation

variable {W : Type}

/-- The actions of the target have failed. -/
def Failed (m : State W) (name : String) : Prop := ∃ e ∈ m.ran, e.name = name ∧ e.result ≠ 0

/-- One of the prerequisites of the target, at any depth, has failed. -/
def FailedBelow (htab₀ : Table) (m : State W) (name : String) : Prop :=
  ∃ x, TransGen (Edge htab₀) name x ∧ Failed m x

/-- A target that has failed is found out of date again and its actions fail again. -/
def FailsAgain (os : Os W) (f : Flags) : Condition W := fun m name c =>
  Failed m name → c.err = false →
    FoundOld os m name c ∧
      ∀ m' r, update os f (decided os m name c.defn) name = some (m', r) → r ≠ 0

/-- The error of a prerequisite is one of a failure below. -/
def ErrBelow (htab₀ : Table) : Condition W := fun m name c =>
  c.err = true ↔ FailedBelow htab₀ m name

section Decision

variable {os : Os W} {f : Flags}

variable {m m' : State W} {name : String} {r : Int} {c : Checked} {build : Bool}

theorem update_ran (updated : update os f m name = some (m', r)) :
    m'.ran = m.ran ++ [⟨name, r⟩] ∨ (m'.ran = m.ran ∧ r = 0) := by
  by_cases has : HasActions os m name
  · left
    rcases update_runs (f := f) has with ⟨m₁, r₁, updated₁, ran⟩
    rw [updated] at updated₁
    cases updated₁
    exact ran
  · right
    refine ⟨update_keeps has updated, ?_⟩
    unfold HasActions at has
    unfold update at updated
    split_ifs at updated with actions
    · exact absurd (Or.inl actions) has
    · cases inferred : search os m name true with
      | error =>
        rw [inferred] at updated
        cases updated
      | found q fname => exact absurd (Or.inr (Or.inl ⟨q, fname, inferred⟩)) has
      | none =>
        rw [inferred] at updated
        dsimp only at updated
        unfold fallback at updated
        split_ifs at updated with default_ defined
        · exact absurd (Or.inr (Or.inr ⟨inferred, default_⟩)) has
        · cases updated
          rfl

theorem found_decision (old : FoundOld os m name c) :
    decision os m name c = some (decided os m name c.defn, true) := by
  by_cases absent : (m.htab name).stamp = -1
  · exact decision_absent c absent
  · have taken := decision_present os c absent
    have rule := old.2.resolve_left absent
    cases noforced : noforce os m name c.defn with
    | error =>
      rw [noforced] at rule
      cases rule
    | found q fname =>
      rw [noforced] at taken
      exact taken
    | none =>
      rw [noforced] at taken rule
      dsimp only at taken rule
      rw [rule] at taken
      exact taken

theorem finish_done (noErr : c.err = false) (finished : finish os f m name c = .done m' r build) :
    m'.ran = m.ran ++ [⟨name, r⟩] ∨ (m'.ran = m.ran ∧ r = 0) := by
  have same := decided_ran os m name c.defn
  have remade : ∀ {m₁ : State W}, m₁.ran = m.ran → remake os f m₁ name = .done m' r build →
      m'.ran = m.ran ++ [⟨name, r⟩] ∨ (m'.ran = m.ran ∧ r = 0) := by
    intro m₁ same₁ remade
    unfold remake at remade
    cases updated : update os f m₁ name with
    | none =>
      rw [updated] at remade
      cases remade
    | some result =>
      rw [updated] at remade
      have ran := update_ran updated
      rw [same₁] at ran
      dsimp only at remade
      split_ifs at remade with ok keepGoing
      · cases remade
        rw [ok] at ran
        exact ran
      · cases remade
        exact ran
      · cases remade
  unfold finish at finished
  cases taken : decision os m name c with
  | none =>
    rw [taken] at finished
    cases finished
  | some result =>
    have ran : result.1.ran = m.ran := by
      by_cases absent : (m.htab name).stamp = -1
      · rw [decision_absent c absent] at taken
        cases taken
        exact same
      · rw [decision_present os c absent] at taken
        cases noforced : noforce os m name c.defn <;> rw [noforced] at taken <;> cases taken <;>
          exact same
    rw [taken] at finished
    dsimp only at finished
    rw [if_neg (by simp [noErr])] at finished
    split_ifs at finished with need
    · exact remade ran finished
    · cases finished
      exact Or.inr ⟨ran, rfl⟩

theorem finish_done_err (err : c.err = true) (finished : finish os f m name c = .done m' r build) :
    m'.ran = m.ran ∧ r ≠ 0 := by
  have ran : (finish os f m name c).state.ran = m.ran := finish_err err
  rw [finished] at ran
  refine ⟨ran, ?_⟩
  unfold finish at finished
  cases taken : decision os m name c with
  | none =>
    rw [taken] at finished
    cases finished
  | some result =>
    rw [taken] at finished
    dsimp only at finished
    rw [if_pos err] at finished
    cases finished
    decide

theorem finish_again (again : FailsAgain os f m name c) (failed : Failed m name) (noErr : c.err = false)
    (finished : finish os f m name c = .done m' r build) : r ≠ 0 := by
  rcases again failed noErr with ⟨old, fails⟩
  rw [finish_remakes noErr (found_decision old)] at finished
  unfold remake at finished
  cases updated : update os f (decided os m name c.defn) name with
  | none =>
    rw [updated] at finished
    cases finished
  | some result =>
    have nonzero := fails result.1 result.2 updated
    rw [updated] at finished
    dsimp only at finished
    rw [if_neg nonzero] at finished
    split_ifs at finished
    · cases finished
      exact nonzero
    · cases finished

theorem failed_of_ran (same : m'.ran = m.ran) (x : String) : Failed m' x ↔ Failed m x := by
  unfold Failed
  rw [same]

theorem failed_snoc (ran : m'.ran = m.ran ++ [⟨name, r⟩]) (x : String) :
    Failed m' x ↔ Failed m x ∨ (x = name ∧ r ≠ 0) := by
  unfold Failed
  rw [ran]
  constructor
  · rintro ⟨e, member, named, failed⟩
    rcases List.mem_append.mp member with old | new
    · exact Or.inl ⟨e, old, named, failed⟩
    · right
      have same : e = ⟨name, r⟩ := List.mem_singleton.mp new
      subst same
      exact ⟨named.symm, failed⟩
  · rintro (⟨e, member, named, failed⟩ | ⟨rfl, failed⟩)
    · exact ⟨e, List.mem_append_left _ member, named, failed⟩
    · exact ⟨⟨x, r⟩, List.mem_append_right _ List.mem_cons_self, rfl, failed⟩

end Decision

section Containment

variable {os : Os W} {f : Flags} {htab₀ : Table}

/-- What a visit tells about the failures. -/
structure Contained (htab₀ : Table) (m : State W) (name : String) (o : Outcome W) : Prop where
  grows : ∀ x, Failed m x → Failed o.state x
  below : ∀ x, Failed o.state x → Failed m x ∨ ReflTransGen (Edge htab₀) name x
  result : ∀ m' r build, o = .done m' r build →
    (r ≠ 0 ↔ ∃ x, ReflTransGen (Edge htab₀) name x ∧ Failed m' x)
  keeps : ∀ m' r build, o = .done m' r build → Keeps htab₀ m'.htab

theorem Contained.err {m m' : State W} {q : String} {r : Int} {build : Bool}
    (one : Contained htab₀ m q (.done m' r build)) {seen : String → Prop} {err : Bool}
    (before : err = true ↔ ∃ x, seen x ∧ Failed m x) : (err = true ∨ r ≠ 0) ↔
      ∃ x, (seen x ∨ ReflTransGen (Edge htab₀) q x) ∧ Failed m' x := by
  have result := one.result m' r build rfl
  constructor
  · rintro (old | failed)
    · rcases before.mp old with ⟨x, inside, failed⟩
      exact ⟨x, Or.inl inside, one.grows x failed⟩
    · rcases result.mp failed with ⟨x, reach, failed⟩
      exact ⟨x, Or.inr reach, failed⟩
  · rintro ⟨x, inside | reach, failed⟩
    · rcases one.below x failed with old | reach
      · exact Or.inl (before.mpr ⟨x, inside, old⟩)
      · exact Or.inr (result.mpr ⟨x, reach, failed⟩)
    · exact Or.inr (result.mpr ⟨x, reach, failed⟩)

theorem checkDeps_contained {meets gives : State W → String → Prop}
    {rec_ : State W → String → Option (Outcome W)} {name : String}
    (each : ∀ m q, Plain htab₀ q → Keeps htab₀ m.htab → meets m q →
      gives m q ∧ ∀ o, rec_ m q = some o → Contained htab₀ m q o) (deps : List String) :
    ∀ (seen : String → Prop) (m : State W) (c : Checked), (∀ dep ∈ deps, Plain htab₀ dep) →
      Keeps htab₀ m.htab → MeetsDeps meets rec_ name deps m → (c.err = true ↔ ∃ x, seen x ∧ Failed m x) →
        MeetsDeps gives rec_ name deps m ∧ ∀ v, checkDeps rec_ name deps m c = some v →
          (∀ x, Failed m x → Failed v.state x) ∧
          (∀ x, Failed v.state x → Failed m x ∨ ∃ dep ∈ deps, ReflTransGen (Edge htab₀) dep x) ∧
          ∀ last c', v = .done last c' → Keeps htab₀ last.htab ∧ (c'.err = true ↔
            ∃ x, (seen x ∨ ∃ dep ∈ deps, ReflTransGen (Edge htab₀) dep x) ∧ Failed last x) := by
  induction deps with
  | nil =>
    intro seen m c _ keeps _ before
    refine ⟨trivial, ?_⟩
    intro v visited
    cases visited
    refine ⟨fun x failed => failed, fun x failed => Or.inl failed, ?_⟩
    rintro last c' same
    cases same
    exact ⟨keeps, by simpa using before⟩
  | cons q rest ih =>
    rintro seen m c plain keeps ⟨first, later⟩ before
    rcases each m q (plain q List.mem_cons_self) keeps first with ⟨given, after⟩
    have plainRest : ∀ dep ∈ rest, Plain htab₀ dep := fun dep member =>
      plain dep (List.mem_cons_of_mem _ member)
    constructor
    · refine ⟨given, ?_⟩
      intro m' r build called
      have one := after _ called
      exact (ih (fun x => seen x ∨ ReflTransGen (Edge htab₀) q x) m' ⟨false, c.err || r ≠ 0, false⟩
        plainRest (one.keeps m' r build rfl) (later m' r build called)
        (by simpa using one.err before)).1
    · intro v visited
      unfold checkDeps at visited
      dsimp only at visited
      cases called : rec_ m q with
      | none =>
        rw [called] at visited
        cases visited
      | some o =>
        rw [called] at visited
        have one := after o called
        cases o with
        | exit m' =>
          cases visited
          refine ⟨one.grows, ?_, ?_⟩
          · intro x failed
            rcases one.below x failed with old | reach
            · exact Or.inl old
            · exact Or.inr ⟨q, List.mem_cons_self, reach⟩
          · intro last c' same
            cases same
        | done m' r build =>
          have tail : ∀ c₁ : Checked, c₁.err = (c.err || r ≠ 0) →
              checkDeps rec_ name rest m' c₁ = some v →
              (∀ x, Failed m x → Failed v.state x) ∧
              (∀ x, Failed v.state x →
                Failed m x ∨ ∃ dep ∈ q :: rest, ReflTransGen (Edge htab₀) dep x) ∧
              ∀ last c', v = .done last c' → Keeps htab₀ last.htab ∧ (c'.err = true ↔
                ∃ x, (seen x ∨ ∃ dep ∈ q :: rest, ReflTransGen (Edge htab₀) dep x) ∧
                  Failed last x) := by
            intro c₁ err visited'
            have here : c₁.err = true ↔
                ∃ x, (seen x ∨ ReflTransGen (Edge htab₀) q x) ∧ Failed m' x := by
              rw [err]
              simpa using one.err before
            rcases (ih (fun x => seen x ∨ ReflTransGen (Edge htab₀) q x) m' c₁ plainRest
              (one.keeps m' r build rfl) (later m' r build called) here).2 v visited' with
              ⟨grows, below, final⟩
            refine ⟨fun x failed => grows x (one.grows x failed), ?_, ?_⟩
            · intro x failed
              rcases below x failed with old | ⟨dep, member, reach⟩
              · rcases one.below x old with older | reach
                · exact Or.inl older
                · exact Or.inr ⟨q, List.mem_cons_self, reach⟩
              · exact Or.inr ⟨dep, List.mem_cons_of_mem _ member, reach⟩
            · intro last c' same
              rcases final last c' same with ⟨kept, errs⟩
              refine ⟨kept, errs.trans ?_⟩
              simp only [List.exists_mem_cons_iff, or_assoc]
          dsimp only at visited
          by_cases failed : r ≠ 0
          · rw [if_pos failed] at visited
            exact tail _ (by simp [failed]) visited
          · rw [if_neg failed] at visited
            exact tail _ (by simp [failed]) visited

theorem rebuild_contained (apart : Apart htab₀)
    (noLoop : ".SUFFIXES" ∉ (htab₀ ".SUFFIXES").deps) (fuel : Nat) :
    ∀ (m : State W) (name : String), Plain htab₀ name → Keeps htab₀ m.htab →
      Meets os f (FailsAgain os f) fuel m name → Meets os f (ErrBelow htab₀) fuel m name ∧
          ∀ o, rebuild os f fuel m name = some o → Contained htab₀ m name o := by
  induction fuel with
  | zero =>
    intro m name _ _ _
    refine ⟨trivial, ?_⟩
    intro o built
    cases built
  | succ fuel ih =>
    rintro m name plain keeps ⟨deps, last⟩
    have graph : (m.htab name).deps = (htab₀ name).deps := keeps.unchanged name plain.2
    have plainDeps : ∀ dep ∈ (m.htab name).deps, Plain htab₀ dep := by
      rw [graph]
      exact apart.deps name plain.1
    have restamped : ∀ x, Failed (restamp os m name) x ↔ Failed m x := failed_of_ran rfl
    have loop := checkDeps_contained (fun m q plain keeps meets => ih m q plain keeps meets) _
      (fun _ => False) (restamp os m name) ⟨false, false, false⟩ plainDeps (keeps_restamp keeps name)
      deps (by simp)
    -- what the prerequisites reach is what is below the target
    have below_iff : ∀ x, (∃ dep ∈ (m.htab name).deps, ReflTransGen (Edge htab₀) dep x) ↔
        TransGen (Edge htab₀) name x := by
      intro x
      rw [graph, TransGen.head'_iff]
      rfl
    have errs : ∀ last c, checkDeps (rebuild os f fuel) name (m.htab name).deps (restamp os m name)
        ⟨false, false, false⟩ = some (.done last c) → ErrBelow htab₀ last name c := by
      intro last c visited
      have here := ((loop.2 _ visited).2.2 last c rfl).2
      unfold ErrBelow FailedBelow
      simpa only [false_or, below_iff] using here
    refine ⟨⟨loop.1, errs⟩, ?_⟩
    intro o built
    rw [rebuild] at built
    cases visited : checkDeps (rebuild os f fuel) name (m.htab name).deps (restamp os m name)
        ⟨false, false, false⟩ with
    | none =>
      rw [visited] at built
      cases built
    | some v =>
      rw [visited] at built
      rcases loop.2 v visited with ⟨grows, below, final⟩
      cases v with
      | exit m' =>
        cases built
        constructor
        · intro x failed
          exact grows x ((restamped x).mpr failed)
        · intro x failed
          rcases below x failed with old | under
          · exact Or.inl ((restamped x).mp old)
          · exact Or.inr ((below_iff x).mp under).to_reflTransGen
        · intro m₁ r build same
          cases same
        · intro m₁ r build same
          cases same
      | done m' c =>
        cases built
        have err := errs m' c visited
        have again := last m' c visited
        have old : ∀ x, Failed m' x → Failed m x ∨ ReflTransGen (Edge htab₀) name x := by
          intro x failed
          rcases below x failed with old | under
          · exact Or.inl ((restamped x).mp old)
          · exact Or.inr ((below_iff x).mp under).to_reflTransGen
        constructor
        · intro x failed
          have before := grows x ((restamped x).mpr failed)
          rcases finish_ran os f m' name c with ⟨_, _, r, ran⟩ | ⟨_, ran⟩
          · exact (failed_snoc ran x).mpr (Or.inl before)
          · exact (failed_of_ran ran x).mpr before
        · intro x failed
          rcases finish_ran os f m' name c with ⟨_, _, r, ran⟩ | ⟨_, ran⟩
          · rcases (failed_snoc ran x).mp failed with before | ⟨rfl, _⟩
            · exact old x before
            · exact Or.inr ReflTransGen.refl
          · exact old x ((failed_of_ran ran x).mp failed)
        · intro m₁ r build finished
          have known : ∀ x, ReflTransGen (Edge htab₀) name x → Failed m' x →
              c.err = true ∨ Failed m' name := by
            intro x reach failed
            rcases ReflTransGen.cases_head_iff.mp reach with rfl | ⟨dep, edge, rest⟩
            · exact Or.inr failed
            · exact Or.inl (err.mpr ⟨x, TransGen.head'_iff.mpr ⟨dep, edge, rest⟩, failed⟩)
          cases isErr : c.err with
          | true =>
            rcases finish_done_err isErr finished with ⟨ran, nonzero⟩
            rcases err.mp isErr with ⟨x, under, failed⟩
            exact iff_of_true nonzero ⟨x, under.to_reflTransGen, (failed_of_ran ran x).mpr failed⟩
          | false =>
            have nonzero : ∀ x, ReflTransGen (Edge htab₀) name x → Failed m' x → r ≠ 0 := by
              intro x reach failed
              rcases known x reach failed with isTrue | itself
              · rw [isErr] at isTrue
                cases isTrue
              · exact finish_again again itself isErr finished
            rcases finish_done isErr finished with ran | ⟨ran, zero⟩
            · constructor
              · intro failed
                exact ⟨name, ReflTransGen.refl, (failed_snoc ran name).mpr (Or.inr ⟨rfl, failed⟩)⟩
              · rintro ⟨x, reach, failed⟩
                rcases (failed_snoc ran x).mp failed with before | ⟨_, new⟩
                · exact nonzero x reach before
                · exact new
            · constructor
              · intro failed
                exact absurd zero failed
              · rintro ⟨x, reach, failed⟩
                exact nonzero x reach ((failed_of_ran ran x).mp failed)
        · intro m₁ r build finished
          exact keeps_finish apart noLoop (final m' c rfl).1 finished

theorem goals_contained (apart : Apart htab₀)
    (noLoop : ".SUFFIXES" ∉ (htab₀ ".SUFFIXES").deps) (fuel : Nat) (names : List String) :
    ∀ m : State W, (∀ name ∈ names, Plain htab₀ name) → Keeps htab₀ m.htab →
      MeetsGoals os f (FailsAgain os f) fuel names m → MeetsGoals os f (ErrBelow htab₀) fuel names m := by
  induction names with
  | nil =>
    intro m _ _ _
    trivial
  | cons name rest ih =>
    rintro m plain keeps ⟨first, later⟩
    have one := rebuild_contained apart noLoop fuel m name (plain name List.mem_cons_self) keeps first
    refine ⟨one.1, ?_⟩
    intro m' r build built
    exact ih m' (fun name member => plain name (List.mem_cons_of_mem _ member))
      ((one.2 _ built).keeps m' r build rfl) (later m' r build built)

end Containment

section Coverage

variable {os : Os W} {f : Flags} {htab₀ : Table}

def Elsewhere (t : String) : Condition W := fun _ name _ => name ≠ t

theorem checkDeps_elsewhere {meets : State W → String → Prop}
    {rec_ : State W → String → Option (Outcome W)} {name : String}
    (keeps : ∀ m q m' r build, Keeps htab₀ m.htab → rec_ m q = some (.done m' r build) →
      Keeps htab₀ m'.htab) (deps : List String) :
    ∀ (m : State W) (c : Checked) (last : State W) (c' : Checked), Keeps htab₀ m.htab →
      MeetsDeps meets rec_ name deps m → checkDeps rec_ name deps m c = some (.done last c') →
        ∀ dep ∈ deps, ∃ m₁ m₂ r build, Keeps htab₀ m₁.htab ∧ meets m₁ dep ∧
          rec_ m₁ dep = some (.done m₂ r build) := by
  induction deps with
  | nil =>
    intro m c last c' _ _ _ dep member
    cases member
  | cons q rest ih =>
    rintro m c last c' kept ⟨first, later⟩ visited dep member
    unfold checkDeps at visited
    dsimp only at visited
    cases called : rec_ m q with
    | none =>
      rw [called] at visited
      cases visited
    | some o =>
      rw [called] at visited
      cases o with
      | exit m' => cases visited
      | done m' r build =>
        rcases List.mem_cons.mp member with rfl | member
        · exact ⟨m, m', r, build, kept, first, called⟩
        · have kept' := keeps m q m' r build kept called
          dsimp only at visited
          split_ifs at visited with failed
          · exact ih m' _ last c' kept' (later m' r build called) visited dep member
          · exact ih m' _ last c' kept' (later m' r build called) visited dep member

theorem rebuild_visits (apart : Apart htab₀) (noLoop : ".SUFFIXES" ∉ (htab₀ ".SUFFIXES").deps)
    {t : String} (fuel : Nat) : ∀ (m : State W) (name : String) (m' : State W) (r : Int)
      (build : Bool), Plain htab₀ name → Keeps htab₀ m.htab →
        ReflTransGen (Edge htab₀) name t → rebuild os f fuel m name = some (.done m' r build) →
          ¬ Meets os f (Elsewhere t) fuel m name := by
  induction fuel with
  | zero =>
    intro m name m' r build _ _ _ built
    cases built
  | succ fuel ih =>
    rintro m name m' r build plain keeps reach built ⟨deps, last⟩
    rw [rebuild] at built
    cases visited : checkDeps (rebuild os f fuel) name (m.htab name).deps (restamp os m name)
        ⟨false, false, false⟩ with
    | none =>
      rw [visited] at built
      cases built
    | some v =>
      rw [visited] at built
      cases v with
      | exit m₁ => cases built
      | done m₁ c =>
        rcases ReflTransGen.cases_head_iff.mp reach with rfl | ⟨dep, edge, rest⟩
        · exact last m₁ c visited rfl
        · have member : dep ∈ (m.htab name).deps := by
            rw [keeps.unchanged name plain.2]
            exact edge
          rcases checkDeps_elsewhere (keeps_rebuild apart noLoop fuel) _ _ _ _ _
            (keeps_restamp keeps name) deps visited dep member with
            ⟨m₂, m₃, r', build', kept, meets, called⟩
          exact ih m₂ dep m₃ r' build' (apart.deps name plain.1 dep edge) kept rest called meets

theorem goals_visit (apart : Apart htab₀) (noLoop : ".SUFFIXES" ∉ (htab₀ ".SUFFIXES").deps)
    {t goal : String} (fuel : Nat) (names : List String) : ∀ (m m' : State W) (r : Int)
      (build : Bool), (∀ name ∈ names, Plain htab₀ name) → Keeps htab₀ m.htab → goal ∈ names →
        ReflTransGen (Edge htab₀) goal t → goals os f fuel names m = some (.done m' r build) →
          ¬ MeetsGoals os f (Elsewhere t) fuel names m := by
  induction names with
  | nil =>
    intro m m' r build _ _ member
    cases member
  | cons name rest ih =>
    rintro m m' r build plain keeps member reach finished ⟨first, later⟩
    unfold goals at finished
    cases built : rebuild os f fuel m name with
    | none =>
      rw [built] at finished
      cases finished
    | some o =>
      rw [built] at finished
      cases o with
      | exit m₁ => cases finished
      | done m₁ r₁ build₁ =>
        have plainName := plain name List.mem_cons_self
        rcases List.mem_cons.mp member with rfl | member
        · exact rebuild_visits apart noLoop fuel m goal m₁ r₁ build₁ plainName keeps reach built first
        · exact ih m₁ m' r build (fun name member => plain name (List.mem_cons_of_mem _ member))
            (keeps_rebuild apart noLoop fuel m name m₁ r₁ build₁ keeps built) member reach finished
            (later m₁ r₁ build₁ built)

end Coverage

end Scc.Make
