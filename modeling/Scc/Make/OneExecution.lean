import Mathlib.Data.List.Nodup
import Scc.Make.Meets

/-!
# How often the actions of a target are run

Nothing remembers that a target has been made but the time of its file, which is read on
every visit. The actions are run once for every visit that finds the target out of date.
-/

namespace Scc.Make

set_option autoImplicit false

variable {W : Type}

/-- No target has had its actions run twice. -/
def Once (m : State W) : Prop := (m.ran.map Ran.name).Nodup

/-- The target is found out of date, from what the state says before the decision. -/
def FoundOld (os : Os W) (m : State W) (name : String) (c : Checked) : Prop :=
  c.err = false ∧
    ((m.htab name).stamp = -1 ∨
      match noforce os m name c.defn with
      | .error => False
      | .found _ _ => True
      | .none => c.need = true)

/-- A target whose actions have been run is not found out of date again, unless there are
no actions. -/
def NotAgain (os : Os W) : Condition W := fun m name c =>
  name ∈ m.ran.map Ran.name → FoundOld os m name c → ¬ HasActions os (decided os m name c.defn) name

section

variable {os : Os W} {f : Flags}

variable {m m' : State W} {name : String} {c : Checked}

theorem update_keeps {r : Int} (lacks : ¬ HasActions os m name)
    (updated : update os f m name = some (m', r)) : m'.ran = m.ran := by
  unfold HasActions at lacks
  unfold update at updated
  split_ifs at updated with actions
  · exact absurd (Or.inl actions) lacks
  · cases inferred : search os m name true with
    | error =>
      rw [inferred] at updated
      cases updated
    | found q fname => exact absurd (Or.inr (Or.inl ⟨q, fname, inferred⟩)) lacks
    | none =>
      rw [inferred] at updated
      dsimp only at updated
      unfold fallback at updated
      split_ifs at updated with default_ defined
      · exact absurd (Or.inr (Or.inr ⟨inferred, default_⟩)) lacks
      · cases updated
        rfl

theorem remake_keeps (lacks : ¬ HasActions os m name) : (remake os f m name).state.ran = m.ran := by
  unfold remake
  cases updated : update os f m name with
  | none => rfl
  | some result =>
    have same := update_keeps lacks updated
    dsimp only
    split_ifs <;> exact same

theorem finish_err (err : c.err = true) : (finish os f m name c).state.ran = m.ran := by
  have kept : ∀ m' need, decision os m name c = some (m', need) → m'.ran = m.ran := by
    intro m' need taken
    by_cases absent : (m.htab name).stamp = -1
    · rw [decision_absent c absent] at taken
      cases taken
      exact decided_ran ..
    · rw [decision_present os c absent] at taken
      cases noforced : noforce os m name c.defn <;> rw [noforced] at taken <;> cases taken <;>
        exact decided_ran ..
  unfold finish
  cases taken : decision os m name c with
  | none => rfl
  | some result =>
    dsimp only
    rw [if_pos err]
    exact kept result.1 result.2 taken

theorem finish_keeps (taken : decision os m name c = some (m', false)) :
    (finish os f m name c).state.ran = m'.ran := by
  unfold finish
  rw [taken]
  simp only [Bool.false_eq_true, if_false]
  split_ifs <;> rfl

theorem finish_remakes (noErr : c.err = false) (taken : decision os m name c = some (m', true)) :
    finish os f m name c = remake os f m' name := by
  unfold finish
  rw [taken]
  simp [noErr]

theorem finish_ran (os : Os W) (f : Flags) (m : State W) (name : String) (c : Checked) :
    (FoundOld os m name c ∧ HasActions os (decided os m name c.defn) name ∧
        ∃ r, (finish os f m name c).state.ran = m.ran ++ [⟨name, r⟩]) ∨
      (¬ (FoundOld os m name c ∧ HasActions os (decided os m name c.defn) name) ∧
        (finish os f m name c).state.ran = m.ran) := by
  have same := decided_ran os m name c.defn
  cases err : c.err with
  | true => exact Or.inr ⟨fun old => by simp [FoundOld, err] at old, finish_err err⟩
  | false =>
    have remade : FoundOld os m name c →
        decision os m name c = some (decided os m name c.defn, true) →
        (FoundOld os m name c ∧ HasActions os (decided os m name c.defn) name ∧
            ∃ r, (finish os f m name c).state.ran = m.ran ++ [⟨name, r⟩]) ∨
          (¬ (FoundOld os m name c ∧ HasActions os (decided os m name c.defn) name) ∧
            (finish os f m name c).state.ran = m.ran) := by
      intro old taken
      rw [finish_remakes err taken, ← same]
      by_cases has : HasActions os (decided os m name c.defn) name
      · exact Or.inl ⟨old, has, remake_runs has⟩
      · exact Or.inr ⟨fun both => has both.2, remake_keeps has⟩
    by_cases absent : (m.htab name).stamp = -1
    · exact remade ⟨err, Or.inl absent⟩ (decision_absent c absent)
    · have taken := decision_present os c absent
      cases noforced : noforce os m name c.defn with
      | error =>
        rw [noforced] at taken
        right
        constructor
        · rintro ⟨⟨_, old⟩, _⟩
          simp [absent, noforced] at old
        · unfold finish
          rw [taken]
          rfl
      | found q fname =>
        rw [noforced] at taken
        exact remade ⟨err, Or.inr (by rw [noforced]; trivial)⟩ taken
      | none =>
        rw [noforced] at taken
        cases need : c.need with
        | true =>
          rw [need] at taken
          exact remade ⟨err, Or.inr (by rw [noforced]; exact need)⟩ taken
        | false =>
          rw [need] at taken
          right
          constructor
          · rintro ⟨⟨_, old⟩, _⟩
            simp [absent, noforced, need] at old
          · rw [finish_keeps taken, same]

theorem once_finish (m : State W) (name : String) (c : Checked) :
    Once (finish os f m name c).state ↔ Once m ∧ NotAgain os m name c := by
  unfold Once NotAgain
  rcases finish_ran os f m name c with ⟨old, has, r, ran⟩ | ⟨not_, ran⟩
  · rw [ran, List.map_append, List.nodup_append]
    constructor
    · rintro ⟨nodup, _, apart⟩
      refine ⟨nodup, ?_⟩
      intro member
      exact absurd rfl (apart name member name List.mem_cons_self)
    · rintro ⟨nodup, fresh⟩
      refine ⟨nodup, List.nodup_singleton name, ?_⟩
      rintro other member last isLast rfl
      have same : other = name := List.mem_singleton.mp isLast
      subst same
      exact fresh member old has
  · rw [ran]
    constructor
    · intro nodup
      exact ⟨nodup, fun _ old has => not_ ⟨old, has⟩⟩
    · exact And.left

end

/-- One invocation runs the actions of no target twice exactly when no target is found out
of date again after its actions have been run. -/
theorem once_iff (os : Os W) (f : Flags) (fuel : Nat) (names : List String) (m : State W)
    (o : Outcome W) (fresh : m.ran = []) (finished : goals os f fuel names m = some o) :
    Once o.state ↔ MeetsGoals os f (NotAgain os) fuel names m := by
  have start : Once m := by
    unfold Once
    rw [fresh]
    exact List.nodup_nil
  rw [goals_iff (fun _ _ => Iff.rfl) once_finish fuel names m o finished]
  exact and_iff_right start

/-- `a` and `b` share the prerequisite `x`, whose actions make no file. -/
def shared : Table := fun name =>
  if name = "all" then { newTarget name with defined := true, deps := ["a", "b"] }
  else if name = "a" then { newTarget name with defined := true, deps := ["x"] }
  else if name = "b" then { newTarget name with defined := true, deps := ["x"] }
  else if name = "x" then { newTarget name with defined := true, actions := ["echo x"] }
  else newTarget name

def noFiles : Os Unit where
  FILENAME_MAX := 4096
  stamp _ _ := -1
  launch _ _ _ := ((), 0)
  system _ _ := ((), 0)
  expandstring _ _ line _ := line

theorem shared_runs_twice :
    ∃ o, goals noFiles ⟨false, false, false, false, false⟩ 3 ["all"] ⟨shared, (), false, []⟩ = some o ∧
      o.state.ran = [⟨"x", 0⟩, ⟨"x", 0⟩] ∧ ¬ Once o.state := by
  refine ⟨_, rfl, by decide, ?_⟩
  unfold Once
  decide

/-- With only one of the two. -/
theorem once_iff_shared :
    ∃ o, goals noFiles ⟨false, false, false, false, false⟩ 3 ["a"] ⟨shared, (), false, []⟩ = some o ∧
      (Once o.state ↔ MeetsGoals noFiles ⟨false, false, false, false, false⟩ (NotAgain noFiles) 3 ["a"]
        ⟨shared, (), false, []⟩) :=
  ⟨_, rfl, once_iff noFiles ⟨false, false, false, false, false⟩ 3 ["a"] ⟨shared, (), false, []⟩ _ rfl rfl⟩

end Scc.Make
