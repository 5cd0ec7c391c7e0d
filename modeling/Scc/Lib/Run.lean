import Mathlib.Data.Option.Basic
import Mathlib.Data.List.Basic

/-!
# Runs of partial steps

A step that may refuse an action, the run of a list of actions, and the two
rules every state machine of this development is verified with: a run splits at
any point, and what one step preserves a whole run preserves. A rule may ask
something of the state before each step; `Meets` says that a run answers it
everywhere.
-/

namespace Scc.Lib.Run

set_option autoImplicit false

variable {State Action : Type*}

/-- Perform the actions in order; the run is refused when one of them is. -/
def run (step : State → Action → Option State) : State → List Action → Option State
  | state, [] => some state
  | state, action :: rest => (step state action).bind fun next => run step next rest

/-- Every step of the run meets the condition on the state it starts from. -/
def Meets (step : State → Action → Option State) (condition : State → Action → Prop) :
    State → List Action → Prop
  | _, [] => True
  | state, action :: rest =>
    condition state action ∧ ∀ next, step state action = some next → Meets step condition next rest

instance decidableMeets (step : State → Action → Option State)
    (condition : State → Action → Prop) [∀ state action, Decidable (condition state action)] :
    (state : State) → (actions : List Action) → Decidable (Meets step condition state actions)
  | _, [] => isTrue trivial
  | state, action :: rest =>
    match stepped : step state action with
    | none =>
      decidable_of_iff (condition state action) (by simp [Meets, stepped])
    | some next =>
      have := decidableMeets step condition next rest
      decidable_of_iff (condition state action ∧ Meets step condition next rest)
        (by simp [Meets, stepped])

variable {step : State → Action → Option State} {condition : State → Action → Prop}

@[simp] theorem run_nil (state : State) : run step state [] = some state := rfl

theorem run_cons (state : State) (action : Action) (rest : List Action) : run step state (action :: rest) =
      (step state action).bind fun next => run step next rest := rfl

theorem run_append (state : State) (first second : List Action) : run step state (first ++ second) =
      (run step state first).bind fun middle => run step middle second := by
  induction first generalizing state with
  | nil => rfl
  | cons action rest ih =>
    simp only [List.cons_append, run_cons, Option.bind_assoc]
    congr 1
    funext next
    exact ih next

theorem run_cons_some {state final : State} {action : Action} {rest : List Action}
    (done : run step state (action :: rest) = some final) :
    ∃ next, step state action = some next ∧ run step next rest = some final := by
  rw [run_cons] at done
  exact Option.bind_eq_some_iff.mp done

/-- What one step preserves under the condition holds at the end of every run
that meets it. -/
theorem run_invariant (invariant : State → Prop)
    (preserved : ∀ state action next, invariant state → condition state action →
      step state action = some next → invariant next)
    {state final : State} {actions : List Action} (initial : invariant state)
    (meets : Meets step condition state actions)
    (done : run step state actions = some final) : invariant final := by
  induction actions generalizing state with
  | nil => exact Option.some.inj done ▸ initial
  | cons action rest ih =>
    obtain ⟨next, stepped, continued⟩ := run_cons_some done
    exact ih (preserved state action next initial meets.1 stepped)
      (meets.2 next stepped) continued

theorem run_preserves (invariant : State → Prop) (preserved : ∀ state action next, invariant state →
      step state action = some next → invariant next)
    {state final : State} {actions : List Action} (initial : invariant state)
    (done : run step state actions = some final) : invariant final := by
  induction actions generalizing state with
  | nil => exact Option.some.inj done ▸ initial
  | cons action rest ih =>
    obtain ⟨next, stepped, continued⟩ := run_cons_some done
    exact ih (preserved state action next initial stepped) continued

theorem run_progress (invariant : State → Prop)
    (progress : ∀ state action, invariant state → condition state action →
      ∃ next, step state action = some next ∧ invariant next)
    {state : State} {actions : List Action} (initial : invariant state)
    (meets : Meets step condition state actions) :
    ∃ final, run step state actions = some final ∧ invariant final := by
  induction actions generalizing state with
  | nil => exact ⟨state, rfl, initial⟩
  | cons action rest ih =>
    obtain ⟨next, stepped, kept⟩ := progress state action initial meets.1
    rw [run_cons, stepped]
    exact ih kept (meets.2 next stepped)

theorem meets_append {state : State} {first second : List Action} :
    Meets step condition state (first ++ second) ↔ Meets step condition state first ∧
        ∀ middle, run step state first = some middle → Meets step condition middle second := by
  induction first generalizing state with
  | nil => simp [Meets]
  | cons action rest ih =>
    simp only [List.cons_append, Meets, ih, run_cons, Option.bind_eq_some_iff]
    constructor
    · rintro ⟨holds, later⟩
      refine ⟨⟨holds, fun next stepped => (later next stepped).1⟩, ?_⟩
      rintro middle ⟨next, stepped, reached⟩
      exact (later next stepped).2 middle reached
    · rintro ⟨⟨holds, later⟩, tail⟩
      exact ⟨holds, fun next stepped =>
        ⟨later next stepped, fun middle reached => tail middle ⟨next, stepped, reached⟩⟩⟩

theorem meets_congr {condition' : State → Action → Prop}
    (agree : ∀ state action, condition state action ↔ condition' state action) (state : State)
    (actions : List Action) : Meets step condition state actions ↔ Meets step condition' state actions := by
  induction actions generalizing state with
  | nil => exact Iff.rfl
  | cons action rest ih =>
    unfold Meets
    rw [agree state action]
    apply and_congr_right
    intro _
    apply forall_congr'
    intro next
    rw [ih next]

end Scc.Lib.Run
