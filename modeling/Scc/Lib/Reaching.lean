/-!
# What must be reached

A step relation may leave a choice. A property must be reached when every run comes to
a state that has it, whatever is chosen, and does not get stuck before.
-/

namespace Scc.Lib.Reaching

set_option autoImplicit false

universe u

variable {α : Type u}

inductive Must (step : α → α → Prop) (goal : α → Prop) : α → Prop where
  | reached {a : α} (here : goal a) : Must step goal a
  | moves {a : α} (can : ∃ b, step a b) (all : ∀ b, step a b → Must step goal b) : Must step goal a

namespace Must

variable {step : α → α → Prop} {goal goal' : α → Prop} {a : α}

theorem bind (must : Must step goal a) (next : ∀ b, goal b → Must step goal' b) : Must step goal' a := by
  induction must with
  | reached here => exact next _ here
  | moves can all ih => exact Must.moves can ih

theorem mono (must : Must step goal a) (implies : ∀ b, goal b → goal' b) : Must step goal' a :=
  must.bind fun b here => Must.reached (implies b here)

theorem forced {b : α} (can : step a b) (only : ∀ c, step a c → c = b) (must : Must step goal b) :
    Must step goal a := by
  apply Must.moves ⟨b, can⟩
  intro c stepped
  rw [only c stepped]
  exact must

theorem of_stuck (must : Must step goal a) (stuck : ∀ b, ¬ step a b) : goal a := by
  cases must with
  | reached here => exact here
  | moves can all =>
    rcases can with ⟨b, stepped⟩
    exact absurd stepped (stuck b)

theorem after {b : α} (must : Must step goal a) (notYet : ¬ goal a) (stepped : step a b) :
    Must step goal b := by
  cases must with
  | reached here => exact absurd here notYet
  | moves can all => exact all b stepped

end Must

end Scc.Lib.Reaching
