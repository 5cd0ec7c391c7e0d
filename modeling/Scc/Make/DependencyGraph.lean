import Scc.Lib.Acyclic
import Scc.Make.Rules

/-!
# Cycles in the dependency graph

`depends()` only finds a target that is its own prerequisite, so a rule that closes a
cycle is reported when such a target is there already. The first rule that closes a cycle
never is.
-/

namespace Scc.Make

set_option autoImplicit false

open Scc.Lib

/-- Every call that would close a cycle is reported. -/
def Reports (cs : List Call) : Prop :=
  ∀ before after target dep s, cs = before ++ .adddep target dep :: after →
    calls Rules.init before = some s → Closes s.htab target dep → depends s dep target = true

/-- No rule names a target that is already among the prerequisites of its prerequisite. -/
def NoneCloses (cs : List Call) : Prop :=
  ∀ before after target dep s, cs = before ++ .adddep target dep :: after →
    calls Rules.init before = some s → ¬ Closes s.htab target dep

theorem put_same (s : Rules) (name : String) (tp : Target) : (s.put name tp).htab name = tp :=
  Function.update_self ..

theorem put_other (s : Rules) {name other : String} (tp : Target) (ne : other ≠ name) :
    (s.put name tp).htab other = s.htab other := Function.update_of_ne ne ..

theorem put_deps (s : Rules) {name other : String} {tp : Target}
    (same : tp.deps = (s.htab name).deps) : ((s.put name tp).htab other).deps = (s.htab other).deps := by
  by_cases eq : other = name
  · subst eq
    rw [put_same, same]
  · rw [put_other s tp eq]

variable {s s' : Rules} {c : Call} {cs : List Call}

theorem addtarget_deps {target : String} {ndeps : Nat}
    (added : addtarget s target ndeps = some s') (name : String) :
    (s'.htab name).deps = (s.htab name).deps ∨ (s'.htab name).deps = [] := by
  have defined : ((s.put target { s.htab target with defined := true }).htab name).deps =
      (s.htab name).deps := put_deps s rfl
  unfold addtarget at added
  dsimp only at added
  split_ifs at added with first suffixes default_ ndeps_pos silent ignore
  · cases added
    exact Or.inl defined
  · cases added
    by_cases same : name = target
    · subst same
      right
      rw [put_same]
    · left
      rw [put_other _ _ same, put_other _ _ same]
  · cases added
    exact Or.inl defined
  · cases added
    exact Or.inl defined
  · cases added
    exact Or.inl defined
  · cases added
    exact Or.inl defined

theorem addrule_deps (s : Rules) (target : String) (acts : List String) (name : String) :
    ((addrule s target acts).htab name).deps = (s.htab name).deps := put_deps s rfl

theorem adddep_edge {target dep : String} (notDropped : depends s dep target = false) (name other : String) :
    Edge (adddep s target dep).htab name other ↔ withEdge (Edge s.htab) target dep name other := by
  unfold adddep withEdge Edge
  rw [if_neg (by simp [notDropped])]
  split_ifs with known
  · constructor
    · exact Or.inl
    · rintro (old | ⟨rfl, rfl⟩)
      · exact old
      · exact known
  · by_cases same : name = target
    · subst same
      rw [put_same]
      simp
    · rw [put_other _ _ same]
      simp [same]

theorem ends_init : Ends (Edge Rules.init.htab) :=
  Ends.mono ends_empty fun _ _ edge => by cases edge

theorem call_ends (called : call s c = some s') (ends : Ends (Edge s.htab))
    (open_ : ∀ target dep, c = .adddep target dep → ¬ Closes s.htab target dep) : Ends (Edge s'.htab) := by
  cases c with
  | addtarget target ndeps =>
    apply ends.mono
    intro name other edge
    rcases addtarget_deps called name with same | none_
    · unfold Edge at edge ⊢
      rw [← same]
      exact edge
    · unfold Edge at edge
      rw [none_] at edge
      cases edge
  | addrule target acts =>
    cases called
    apply ends.mono
    intro name other edge
    unfold Edge at edge ⊢
    rw [addrule_deps] at edge
    exact edge
  | adddep target dep =>
    cases called
    have notClosed := open_ target dep rfl
    cases dropped : depends s dep target with
    | true =>
      unfold adddep
      rw [if_pos dropped]
      exact ends
    | false =>
      apply (ends.withEdge notClosed).mono
      intro name other edge
      exact (adddep_edge dropped name other).mp edge

theorem calls_snoc (s : Rules) (cs : List Call) (c : Call) :
    calls s (cs ++ [c]) = (calls s cs).bind fun middle => call middle c := by
  simp [calls, List.foldlM_append]

theorem NoneCloses.prefix_ (none_ : NoneCloses (cs ++ [c])) : NoneCloses cs := by
  intro before after target dep s split
  exact none_ before (after ++ [c]) target dep s (by simp [split])

theorem calls_ends (called : calls Rules.init cs = some s) (none_ : NoneCloses cs) : Ends (Edge s.htab) := by
  induction cs using List.reverseRecOn generalizing s with
  | nil =>
    cases called
    exact ends_init
  | append_singleton cs c ih =>
    rw [calls_snoc] at called
    rcases Option.bind_eq_some_iff.mp called with ⟨middle, first, last⟩
    apply call_ends last (ih first none_.prefix_)
    rintro target dep rfl
    exact none_ cs [] target dep middle rfl first

def NoLoop (s : Rules) : Prop := ∀ name, name ∉ (s.htab name).deps

theorem NoLoop.depends (noLoop : NoLoop s) (target dep : String) : depends s target dep = false := by
  unfold Make.depends
  rw [List.any_eq_false]
  intro p member
  have ne : p ≠ target := by
    rintro rfl
    exact noLoop p member
  simpa using ne

theorem call_noLoop (called : call s c = some s') (noLoop : NoLoop s)
    (different : ∀ target dep, c = .adddep target dep → target ≠ dep) : NoLoop s' := by
  intro name member
  cases c with
  | addtarget target ndeps =>
    rcases addtarget_deps called name with same | none_
    · rw [same] at member
      exact noLoop name member
    · rw [none_] at member
      cases member
  | addrule target acts =>
    cases called
    rw [addrule_deps] at member
    exact noLoop name member
  | adddep target dep =>
    cases called
    rcases (adddep_edge (noLoop.depends dep target) name name).mp member with old | ⟨rfl, same⟩
    · exact noLoop name old
    · exact different name dep rfl same

theorem Reports.prefix_ (reports : Reports (cs ++ [c])) : Reports cs := by
  intro before after target dep s split
  exact reports before (after ++ [c]) target dep s (by simp [split])

theorem Reports.noLoop (reports : Reports cs) (called : calls Rules.init cs = some s) : NoLoop s := by
  induction cs using List.reverseRecOn generalizing s with
  | nil =>
    cases called
    intro name member
    cases member
  | append_singleton cs c ih =>
    rw [calls_snoc] at called
    rcases Option.bind_eq_some_iff.mp called with ⟨middle, first, last⟩
    have noLoop := ih reports.prefix_ first
    apply call_noLoop last noLoop
    rintro target dep rfl rfl
    have reported := reports cs [] target target middle rfl first Relation.ReflTransGen.refl
    rw [noLoop.depends] at reported
    cases reported

theorem reports_iff (cs : List Call) : Reports cs ↔ NoneCloses cs := by
  constructor
  · intro reports before after target dep s split called closes
    have earlier : Reports before := by
      intro first rest target' dep' s' split'
      exact reports first (rest ++ .adddep target dep :: after) target' dep' s'
        (by simp [split, split'])
    have reported := reports before after target dep s split called closes
    rw [(earlier.noLoop called).depends] at reported
    cases reported
  · intro none_ before after target dep s split called closes
    exact absurd closes (none_ before after target dep s split called)

end Scc.Make
