import Scc.Make.DependencyGraph
import Scc.Make.Rebuild

/-!
# Building ends

The recursion of `rebuild()` follows the prerequisites, and an inference rule takes over
those of the target it is used for. When no suffix rule is a prerequisite itself this adds
no cycle to the graph, and an acyclic graph is enough for the recursion to end.
-/

namespace Scc.Make

set_option autoImplicit false

open Scc.Lib

section Fuel

variable {W : Type}

theorem checkDeps_more {rec_ more : State W → String → Option (Outcome W)} {name : String}
    (agree : ∀ m q o, rec_ m q = some o → more m q = some o) (deps : List String) :
    ∀ (m : State W) (c : Checked) (v : Visit W),
      checkDeps rec_ name deps m c = some v → checkDeps more name deps m c = some v := by
  induction deps with
  | nil =>
    intro m c v visited
    exact visited
  | cons q rest ih =>
    intro m c v visited
    unfold checkDeps at visited ⊢
    dsimp only at visited ⊢
    cases called : rec_ m q with
    | none =>
      rw [called] at visited
      cases visited
    | some o =>
      rw [agree m q o called]
      rw [called] at visited
      cases o with
      | exit m' => exact visited
      | done m' r build =>
        dsimp only at visited ⊢
        split_ifs at visited ⊢ with failed
        · exact ih _ _ _ visited
        · exact ih _ _ _ visited

variable {os : Os W} {f : Flags}

theorem rebuild_succ (fuel : Nat) : ∀ (m : State W) (name : String) (o : Outcome W),
    rebuild os f fuel m name = some o → rebuild os f (fuel + 1) m name = some o := by
  induction fuel with
  | zero =>
    intro m name o built
    cases built
  | succ fuel ih =>
    intro m name o built
    rw [rebuild] at built ⊢
    cases visited : checkDeps (rebuild os f fuel) name (m.htab name).deps (restamp os m name)
        ⟨false, false, false⟩ with
    | none =>
      rw [visited] at built
      cases built
    | some v =>
      rw [checkDeps_more ih _ _ _ _ visited]
      rw [visited] at built
      exact built

theorem rebuild_more {fuel fuel' : Nat} (le : fuel ≤ fuel') {m : State W} {name : String}
    {o : Outcome W} (built : rebuild os f fuel m name = some o) : rebuild os f fuel' m name = some o := by
  induction le with
  | refl => exact built
  | step _ ih => exact rebuild_succ _ m name o ih

theorem goals_more {fuel fuel' : Nat} (le : fuel ≤ fuel') (names : List String) :
    ∀ (m : State W) (o : Outcome W),
      goals os f fuel names m = some o → goals os f fuel' names m = some o := by
  induction names with
  | nil =>
    intro m o finished
    exact finished
  | cons name rest ih =>
    intro m o finished
    unfold goals at finished ⊢
    cases built : rebuild os f fuel m name with
    | none =>
      rw [built] at finished
      cases finished
    | some first =>
      rw [rebuild_more le built]
      rw [built] at finished
      cases first with
      | exit m' => exact finished
      | done m' r build => exact ih m' o finished

end Fuel

section Frame

variable {W : Type} {os : Os W} {f : Flags}

theorem execline_htab (m : State W) (line : String) (ignore : Bool) :
    (execline os f m line ignore).1.htab = m.htab := by
  unfold execline
  dsimp only
  split_ifs <;> rfl

theorem steps_htab {α : Type} {step : State W → α → State W × Int}
    (each : ∀ m x, (step m x).1.htab = m.htab) (xs : List α) (m : State W) :
    (steps step m xs).1.htab = m.htab := by
  induction xs generalizing m with
  | nil => rfl
  | cons x rest ih =>
    unfold steps
    dsimp only
    split_ifs
    · exact each m x
    · rw [ih]
      exact each m x

theorem touch_htab (m : State W) (name : String) (ignore : Bool) :
    (touch os f m name ignore).1.htab = m.htab := rfl

theorem touchdeps_htab (m : State W) (tp : Target) (silent : Bool) :
    (touchdeps os f m tp silent).1.htab = m.htab :=
  steps_htab (fun m name => touch_htab m name silent) _ m

theorem run_htab (m : State W) (name : String) : (run os f m name).1.htab = m.htab := by
  unfold run
  dsimp only
  split_ifs <;>
    simp only [touch_htab, steps_htab (fun m line => execline_htab m _ _), touchdeps_htab]

theorem runFor_htab (m : State W) (name q : String) : (runFor os f m name q).1.htab = m.htab :=
  run_htab m q

end Frame

/-- `q` is a suffix rule for `name`. -/
def Infers (htab : Table) (name q : String) : Prop :=
  (htab q).actions ≠ [] ∧ ∃ from_ ∈ (htab ".SUFFIXES").deps,
    match strrchr name with
    | some (_, suffix) => suffix ∈ (htab ".SUFFIXES").deps ∧ q = from_ ++ suffix
    | none => q = from_ ++ ""

def IsRule (htab : Table) (q : String) : Prop := ∃ name, Infers htab name q

theorem not_isRule {htab : Table} (empty : (htab ".SUFFIXES").deps = []) (q : String) :
    ¬ IsRule htab q := by
  rintro ⟨name, _, from_, member, _⟩
  rw [empty] at member
  cases member

/-- A name that is neither a suffix rule nor the list of the suffixes. -/
def Plain (htab : Table) (name : String) : Prop := name ≠ ".SUFFIXES" ∧ ¬ IsRule htab name

structure Apart (htab : Table) : Prop where
  suffixes : ¬ IsRule htab ".SUFFIXES"
  deps : ∀ name, name ≠ ".SUFFIXES" → ∀ dep ∈ (htab name).deps, Plain htab dep

section Search

variable {W : Type} {os : Os W}

theorem infer_found {m : State W} {tp : Target} {force : Bool} {stem suffix q fname : String}
    (deps : List String) (found : infer os m tp force stem suffix deps = .found q fname) :
    (m.htab q).actions ≠ [] ∧ ∃ from_ ∈ deps, q = from_ ++ suffix := by
  induction deps with
  | nil => cases found
  | cons from_ rest ih =>
    have later : infer os m tp force stem suffix rest = .found q fname →
        (m.htab q).actions ≠ [] ∧ ∃ x ∈ from_ :: rest, q = x ++ suffix := by
      intro found
      rcases ih found with ⟨actions, x, member, same⟩
      exact ⟨actions, x, List.mem_cons_of_mem _ member, same⟩
    unfold infer at found
    dsimp only at found
    split_ifs at found with long none_ longName missing older
    · exact later found
    · exact later found
    · exact later found
    · cases found
      exact ⟨none_, from_, List.mem_cons_self, rfl⟩

theorem search_found {m : State W} {name : String} {force : Bool} {q fname : String}
    (found : search os m name force = .found q fname) : Infers m.htab name q := by
  unfold search at found
  unfold Infers
  cases split : strrchr name with
  | none =>
    rw [split] at found
    exact infer_found _ found
  | some parts =>
    rw [split] at found
    dsimp only at found ⊢
    split_ifs at found with isEnabled
    rcases infer_found _ found with ⟨actions, from_, member, same⟩
    have listed : parts.2 ∈ (m.htab ".SUFFIXES").deps := by simpa [enabled] using isEnabled
    exact ⟨actions, from_, member, listed, same⟩

end Search

/-- The graph of the makefiles, up to what the suffix rules have taken over. -/
structure Keeps (htab₀ htab : Table) : Prop where
  actions : ∀ name, (htab name).actions = (htab₀ name).actions
  unchanged : ∀ name, ¬ IsRule htab₀ name → (htab name).deps = (htab₀ name).deps
  rules : ∀ q, IsRule htab₀ q → ∀ dep ∈ (htab q).deps, Plain htab₀ dep

section Keeps

variable {htab₀ htab : Table}

theorem Apart.keeps (apart : Apart htab₀) : Keeps htab₀ htab₀ := by
  constructor
  · intro name
    rfl
  · intro name _
    rfl
  · intro q isRule
    apply apart.deps
    rintro rfl
    exact apart.suffixes isRule

theorem Keeps.infers (keeps : Keeps htab₀ htab) (apart : Apart htab₀) {name q : String}
    (infers : Infers htab name q) : Infers htab₀ name q := by
  unfold Infers at infers ⊢
  rw [keeps.actions, keeps.unchanged ".SUFFIXES" apart.suffixes] at infers
  exact infers

/-- `.SUFFIXES` has no suffix rule unless it is a suffix. -/
theorem not_infers_suffixes (noLoop : ".SUFFIXES" ∉ (htab₀ ".SUFFIXES").deps) (q : String) :
    ¬ Infers htab₀ ".SUFFIXES" q := by
  rintro ⟨_, from_, _, rule⟩
  have split : strrchr ".SUFFIXES" = some ("", ".SUFFIXES") := by decide
  rw [split] at rule
  exact noLoop rule.1

theorem Keeps.deps_plain (keeps : Keeps htab₀ htab) (apart : Apart htab₀) {name : String}
    (ne : name ≠ ".SUFFIXES") {dep : String} (member : dep ∈ (htab name).deps) :
    Plain htab₀ dep := by
  by_cases isRule : IsRule htab₀ name
  · exact keeps.rules name isRule dep member
  · rw [keeps.unchanged name isRule] at member
    exact apart.deps name ne dep member

theorem Keeps.update (keeps : Keeps htab₀ htab) {name : String} {tp : Target}
    (actions : tp.actions = (htab name).actions)
    (deps : tp.deps = (htab name).deps ∨ IsRule htab₀ name ∧ ∀ dep ∈ tp.deps, Plain htab₀ dep) :
    Keeps htab₀ (Function.update htab name tp) := by
  constructor
  · intro other
    by_cases same : other = name
    · subst same
      rw [Function.update_self, actions, keeps.actions]
    · rw [Function.update_of_ne same, keeps.actions]
  · intro other notRule
    by_cases same : other = name
    · subst same
      rw [Function.update_self]
      rcases deps with unchanged | ⟨isRule, _⟩
      · rw [unchanged, keeps.unchanged other notRule]
      · exact absurd isRule notRule
    · rw [Function.update_of_ne same, keeps.unchanged other notRule]
  · intro q isRule dep member
    by_cases same : q = name
    · subst same
      rw [Function.update_self] at member
      rcases deps with unchanged | ⟨_, plain⟩
      · rw [unchanged] at member
        exact keeps.rules q isRule dep member
      · exact plain dep member
    · rw [Function.update_of_ne same] at member
      exact keeps.rules q isRule dep member

end Keeps

section Preserve

variable {W : Type} {os : Os W} {f : Flags} {htab₀ : Table}

variable {m m' : State W} {r : Int} {name : String}

theorem keeps_useRule (apart : Apart htab₀) (noLoop : ".SUFFIXES" ∉ (htab₀ ".SUFFIXES").deps)
    (keeps : Keeps htab₀ m.htab) {name q fname : String}
    (infers : Infers m.htab name q) : Keeps htab₀ (m.useRule name q fname).htab := by
  have infers₀ := keeps.infers apart infers
  have ne : name ≠ ".SUFFIXES" := by
    rintro rfl
    exact not_infers_suffixes noLoop q infers₀
  apply keeps.update
  · rfl
  · right
    exact ⟨⟨name, infers₀⟩, fun dep member => keeps.deps_plain apart ne member⟩

theorem keeps_restamp (keeps : Keeps htab₀ m.htab) (name : String) : Keeps htab₀ (restamp os m name).htab :=
  keeps.update rfl (Or.inl rfl)

theorem runFor_some {name q : String}
    (ran : some (runFor os f m name q) = some (m', r)) : m'.htab = m.htab := by
  have first : (runFor os f m name q).1 = m' := congrArg Prod.fst (Option.some.inj ran)
  rw [← first, runFor_htab]

theorem fallback_htab (updated : fallback os f m name = some (m', r)) : m'.htab = m.htab := by
  unfold fallback at updated
  split_ifs at updated
  · exact runFor_some updated
  · cases updated
    rfl

theorem keeps_update (apart : Apart htab₀) (noLoop : ".SUFFIXES" ∉ (htab₀ ".SUFFIXES").deps)
    (keeps : Keeps htab₀ m.htab) (updated : update os f m name = some (m', r)) : Keeps htab₀ m'.htab := by
  unfold update at updated
  split_ifs at updated with actions
  · rw [runFor_some updated]
    exact keeps
  · cases inferred : search os m name true with
    | error =>
      rw [inferred] at updated
      cases updated
    | found q fname =>
      rw [inferred] at updated
      rw [runFor_some updated]
      exact keeps_useRule apart noLoop keeps (search_found inferred)
    | none =>
      rw [inferred] at updated
      rw [fallback_htab updated]
      exact keeps

theorem keeps_decision (apart : Apart htab₀) (noLoop : ".SUFFIXES" ∉ (htab₀ ".SUFFIXES").deps)
    (keeps : Keeps htab₀ m.htab) {c : Checked} {need : Bool}
    (decided : decision os m name c = some (m', need)) : Keeps htab₀ m'.htab := by
  unfold decision at decided
  split_ifs at decided with absent defn
  · cases decided
    exact keeps
  · cases decided
    exact keeps
  · cases inferred : search os m name false with
    | error =>
      rw [inferred] at decided
      cases decided
    | found q fname =>
      rw [inferred] at decided
      cases decided
      exact keeps_useRule apart noLoop keeps (search_found inferred)
    | none =>
      rw [inferred] at decided
      cases decided
      exact keeps

theorem keeps_remake (apart : Apart htab₀) (noLoop : ".SUFFIXES" ∉ (htab₀ ".SUFFIXES").deps)
    (keeps : Keeps htab₀ m.htab) {build : Bool}
    (remade : remake os f m name = .done m' r build) : Keeps htab₀ m'.htab := by
  unfold remake at remade
  cases updated : update os f m name with
  | none =>
    rw [updated] at remade
    cases remade
  | some result =>
    rw [updated] at remade
    dsimp only at remade
    have kept := keeps_update apart noLoop keeps updated
    split_ifs at remade with ok keepGoing
    · cases remade
      exact kept
    · cases remade
      exact kept
    · cases remade

theorem keeps_finish (apart : Apart htab₀) (noLoop : ".SUFFIXES" ∉ (htab₀ ".SUFFIXES").deps)
    (keeps : Keeps htab₀ m.htab) {c : Checked}
    {build : Bool} (finished : finish os f m name c = .done m' r build) : Keeps htab₀ m'.htab := by
  unfold finish at finished
  cases decided : decision os m name c with
  | none =>
    rw [decided] at finished
    cases finished
  | some result =>
    rw [decided] at finished
    dsimp only at finished
    have kept := keeps_decision apart noLoop keeps decided
    split_ifs at finished with err need
    · cases finished
      exact kept
    · exact keeps_remake apart noLoop kept finished
    · cases finished
      exact kept

theorem keeps_checkDeps {rec_ : State W → String → Option (Outcome W)}
    (each : ∀ m q m' r build, Keeps htab₀ m.htab → rec_ m q = some (.done m' r build) →
      Keeps htab₀ m'.htab) (deps : List String) :
    ∀ (m : State W) (c : Checked) (m' : State W) (c' : Checked), Keeps htab₀ m.htab →
      checkDeps rec_ name deps m c = some (.done m' c') → Keeps htab₀ m'.htab := by
  induction deps with
  | nil =>
    intro m c m' c' keeps visited
    cases visited
    exact keeps
  | cons q rest ih =>
    intro m c m' c' keeps visited
    unfold checkDeps at visited
    dsimp only at visited
    cases called : rec_ m q with
    | none =>
      rw [called] at visited
      cases visited
    | some o =>
      rw [called] at visited
      cases o with
      | exit m₁ => cases visited
      | done m₁ r build =>
        have kept := each m q m₁ r build keeps called
        dsimp only at visited
        split_ifs at visited with failed
        · exact ih _ _ _ _ kept visited
        · exact ih _ _ _ _ kept visited

theorem keeps_rebuild (apart : Apart htab₀) (noLoop : ".SUFFIXES" ∉ (htab₀ ".SUFFIXES").deps)
    (fuel : Nat) : ∀ (m : State W) (name : String) (m' : State W) (r : Int) (build : Bool),
      Keeps htab₀ m.htab → rebuild os f fuel m name = some (.done m' r build) → Keeps htab₀ m'.htab := by
  induction fuel with
  | zero =>
    intro m name m' r build keeps built
    cases built
  | succ fuel ih =>
    intro m name m' r build keeps built
    rw [rebuild] at built
    cases visited : checkDeps (rebuild os f fuel) name (m.htab name).deps (restamp os m name)
        ⟨false, false, false⟩ with
    | none =>
      rw [visited] at built
      cases built
    | some v =>
      rw [visited] at built
      cases v with
      | exit m₁ => cases built
      | done m₁ c =>
        have kept := keeps_checkDeps ih _ _ _ _ _ (keeps_restamp keeps name) visited
        exact keeps_finish apart noLoop kept (Option.some.inj built)

end Preserve

section Finish

variable {W : Type} (os : Os W) (f : Flags) {htab₀ : Table}

def Finishes (m : State W) (name : String) : Prop :=
  ∃ fuel o, rebuild os f fuel m name = some o

variable {os f}

theorem checkDeps_finishes (apart : Apart htab₀)
    (noLoop : ".SUFFIXES" ∉ (htab₀ ".SUFFIXES").deps) (name : String) (deps : List String)
    (each : ∀ dep ∈ deps, ∀ m : State W, Keeps htab₀ m.htab → Finishes os f m dep) :
    ∀ (m : State W) (c : Checked), Keeps htab₀ m.htab →
      ∃ fuel v, checkDeps (rebuild os f fuel) name deps m c = some v := by
  induction deps with
  | nil =>
    intro m c _
    exact ⟨0, .done m c, rfl⟩
  | cons q rest ih =>
    intro m c keeps
    have later := ih fun dep member => each dep (List.mem_cons_of_mem _ member)
    rcases each q List.mem_cons_self m keeps with ⟨fuel, o, built⟩
    cases o with
    | exit m' =>
      refine ⟨fuel, .exit m', ?_⟩
      simp [checkDeps, built]
    | done m' r build =>
      have kept := keeps_rebuild apart noLoop fuel m q m' r build keeps built
      -- the fuel for this prerequisite and for the others
      have both : ∀ c', ∃ fuel' v, rebuild os f fuel' m q = some (.done m' r build) ∧
          checkDeps (rebuild os f fuel') name rest m' c' = some v := by
        intro c'
        rcases later m' c' kept with ⟨fuel', v, visited⟩
        refine ⟨max fuel fuel', v, rebuild_more (Nat.le_max_left _ _) built, ?_⟩
        exact checkDeps_more (fun m q o => rebuild_more (Nat.le_max_right _ _)) rest m' c' v visited
      unfold checkDeps
      by_cases failed : r ≠ 0
      · rcases both ⟨c.defn || (q = name && (m.htab q).actions ≠ []), true, c.need⟩ with
          ⟨fuel', v, built', visited⟩
        refine ⟨fuel', v, ?_⟩
        rw [built']
        simpa [failed] using visited
      · rcases both ⟨c.defn || (q = name && (m.htab q).actions ≠ []), c.err,
          c.need || build || (m'.htab name).stamp < (m'.htab q).stamp⟩ with ⟨fuel', v, built', visited⟩
        refine ⟨fuel', v, ?_⟩
        rw [built']
        simpa [failed] using visited

theorem node_finishes (apart : Apart htab₀) (noLoop : ".SUFFIXES" ∉ (htab₀ ".SUFFIXES").deps)
    {m : State W} {name : String} (keeps : Keeps htab₀ m.htab)
    (each : ∀ dep ∈ (m.htab name).deps, ∀ m : State W, Keeps htab₀ m.htab → Finishes os f m dep) :
    Finishes os f m name := by
  rcases checkDeps_finishes apart noLoop name _ each (restamp os m name) ⟨false, false, false⟩
    (keeps_restamp keeps name) with ⟨fuel, v, visited⟩
  cases v with
  | exit m' => exact ⟨fuel + 1, .exit m', by rw [rebuild, visited]⟩
  | done m' c => exact ⟨fuel + 1, finish os f m' name c, by rw [rebuild, visited]⟩

theorem plain_finishes (apart : Apart htab₀) (ends : Ends (Edge htab₀)) (name : String) :
    Plain htab₀ name → ∀ m : State W, Keeps htab₀ m.htab → Finishes os f m name := by
  have noLoop : ".SUFFIXES" ∉ (htab₀ ".SUFFIXES").deps := fun loop =>
    ends.acyclic ".SUFFIXES" (Relation.TransGen.single loop)
  induction name using ends.induction with
  | h name ih =>
    intro plain m keeps
    apply node_finishes apart noLoop keeps
    intro dep member
    rw [keeps.unchanged name plain.2] at member
    exact ih dep member (apart.deps name plain.1 dep member)

theorem rebuild_finishes (apart : Apart htab₀) (ends : Ends (Edge htab₀)) (name : String)
    {m : State W} (keeps : Keeps htab₀ m.htab) : Finishes os f m name := by
  have noLoop : ".SUFFIXES" ∉ (htab₀ ".SUFFIXES").deps := fun loop =>
    ends.acyclic ".SUFFIXES" (Relation.TransGen.single loop)
  have others : ∀ name, name ≠ ".SUFFIXES" → ∀ m : State W, Keeps htab₀ m.htab →
      Finishes os f m name := by
    intro name ne m keeps
    apply node_finishes apart noLoop keeps
    intro dep member
    exact plain_finishes apart ends dep (keeps.deps_plain apart ne member)
  by_cases suffixes : name = ".SUFFIXES"
  · subst suffixes
    apply node_finishes apart noLoop keeps
    intro dep member
    apply others
    rintro rfl
    rw [keeps.unchanged ".SUFFIXES" apart.suffixes] at member
    exact noLoop member
  · exact others name suffixes m keeps

theorem goals_finish (apart : Apart htab₀) (ends : Ends (Edge htab₀)) (names : List String) :
    ∀ m : State W, Keeps htab₀ m.htab → ∃ fuel o, goals os f fuel names m = some o := by
  have noLoop : ".SUFFIXES" ∉ (htab₀ ".SUFFIXES").deps := fun loop =>
    ends.acyclic ".SUFFIXES" (Relation.TransGen.single loop)
  induction names with
  | nil =>
    intro m _
    exact ⟨0, .done m 0 false, rfl⟩
  | cons name rest ih =>
    intro m keeps
    have first : Finishes os f m name := rebuild_finishes apart ends name keeps
    rcases first with ⟨fuel, o, built⟩
    cases o with
    | exit m' =>
      refine ⟨fuel, .exit m', ?_⟩
      simp [goals, built]
    | done m' r build =>
      have kept := keeps_rebuild apart noLoop fuel m name m' r build keeps built
      rcases ih m' kept with ⟨fuel', o', finished⟩
      refine ⟨max fuel fuel', o', ?_⟩
      rw [goals, rebuild_more (Nat.le_max_left _ _) built]
      exact goals_more (Nat.le_max_right _ _) rest m' o' finished

end Finish

/-- Whatever the goals, the flags and the commands are, building them ends. -/
def BuildEnds (htab : Table) : Prop :=
  ∀ (W : Type) (os : Os W) (f : Flags) (world : W) (names : List String),
    ∃ fuel o, goals os f fuel names ⟨htab, world, false, []⟩ = some o

/-- The graph is acyclic with every cycle reported exactly when no rule closes a cycle, and
then building ends when no suffix rule is a prerequisite. -/
theorem acyclic_iff (makefile : List Rule) :
    ((Reports (makefile.flatMap rule) ∧ ∀ s, parse makefile = some s → Acyclic (Edge s.htab)) ↔
      NoneCloses (makefile.flatMap rule)) ∧
    (NoneCloses (makefile.flatMap rule) → ∀ s, parse makefile = some s → Apart s.htab →
      BuildEnds s.htab) := by
  constructor
  · constructor
    · rintro ⟨reports, _⟩
      exact (reports_iff _).mp reports
    · intro none_
      exact ⟨(reports_iff _).mpr none_, fun s parsed => (calls_ends parsed none_).acyclic⟩
  · intro none_ s parsed apart W os f world names
    exact goals_finish apart (calls_ends parsed none_) names _ apart.keeps

/-- With one rule. -/
theorem acyclic_one_rule :
    ∃ s, parse [⟨["a"], ["b"], []⟩] = some s ∧ BuildEnds s.htab := by
  have none_ : NoneCloses ([⟨["a"], ["b"], []⟩].flatMap rule) := by
    intro before after target dep s split called closes
    have calls_eq : [(⟨["a"], ["b"], []⟩ : Rule)].flatMap rule = [.addtarget "a" 1, .adddep "a" "b"] :=
      rfl
    rw [calls_eq] at split
    rcases before with _ | ⟨first, _ | ⟨second, rest⟩⟩
    · cases split
    · cases split
      cases called
      rcases Relation.ReflTransGen.cases_head closes with same | ⟨other, edge, _⟩
      · exact absurd same (by decide)
      · cases edge
    · have length := congrArg List.length split
      simp at length
  refine ⟨_, rfl, (acyclic_iff [⟨["a"], ["b"], []⟩]).2 none_ _ rfl ?_⟩
  constructor
  · exact not_isRule (by decide) _
  · intro name _ dep member
    refine ⟨?_, not_isRule (by decide) dep⟩
    rintro rfl
    by_cases same : name = "a"
    · subst same
      exact absurd member (by decide)
    · rcases (adddep_edge (by decide) name ".SUFFIXES").mp member with old | ⟨eq, _⟩
      · change ".SUFFIXES" ∈ ((Rules.init.put "a" _).htab name).deps at old
        rw [put_other _ _ same] at old
        cases old
      · exact same eq

theorem mutual_never {W : Type} (os : Os W) (f : Flags) (fuel : Nat) : ∀ m : State W,
    (m.htab "a").deps = ["b"] → (m.htab "b").deps = ["a"] →
      rebuild os f fuel m "a" = none ∧ rebuild os f fuel m "b" = none := by
  have same : ∀ (m : State W) (name other : String),
      ((restamp os m name).htab other).deps = (m.htab other).deps := by
    intro m name other
    unfold restamp State.put
    dsimp only
    by_cases eq : other = name
    · subst eq
      rw [Function.update_self]
    · rw [Function.update_of_ne eq]
  induction fuel with
  | zero =>
    intro m _ _
    exact ⟨rfl, rfl⟩
  | succ fuel ih =>
    intro m a b
    constructor
    · rw [rebuild, a]
      have deeper := (ih (restamp os m "a") ((same ..).trans a) ((same ..).trans b)).2
      simp [checkDeps, deeper]
    · rw [rebuild, b]
      have deeper := (ih (restamp os m "b") ((same ..).trans a) ((same ..).trans b)).1
      simp [checkDeps, deeper]

/-- Two targets that are prerequisites of each other: nothing is reported and building the
first one never ends. -/
theorem cycle_not_reported :
    ¬ Reports ([⟨["a"], ["b"], []⟩, ⟨["b"], ["a"], []⟩].flatMap rule) ∧
    ∃ s, parse [⟨["a"], ["b"], []⟩, ⟨["b"], ["a"], []⟩] = some s ∧ s.dropped = [] ∧
      ¬ Acyclic (Edge s.htab) ∧
      ∀ (os : Os Unit) (f : Flags) (fuel : Nat), goals os f fuel ["a"] ⟨s.htab, (), false, []⟩ = none := by
  constructor
  · intro reports
    have reported := reports [.addtarget "a" 1, .adddep "a" "b", .addtarget "b" 1] [] "b" "a" _ rfl rfl
      (Relation.ReflTransGen.single (by decide))
    exact absurd reported (by decide)
  · refine ⟨_, rfl, rfl, ?_, ?_⟩
    · intro acyclic
      apply acyclic "a"
      exact Relation.TransGen.tail (b := "b") (Relation.TransGen.single (by decide)) (by decide)
    · intro os f fuel
      rw [goals, (mutual_never os f fuel _ (by decide) (by decide)).1]

end Scc.Make
