import Mathlib.Data.List.Basic

/-!
# Lists threaded through memory

A cell for each node has the next one, and the last cell has none. A cell outside of the list can be assigned.
-/

namespace Scc.Lib

set_option autoImplicit false

variable {α : Type*} {next next' : α → Option α}

/-- The nodes from a pointer on, up to the last one. -/
def Threaded (next : α → Option α) : Option α → List α → Prop
  | start, [] => start = none
  | start, p :: ps => start = some p ∧ Threaded next (next p) ps

variable {ps : List α} {start : Option α}

theorem Threaded.none_iff : Threaded next none ps ↔ ps = [] := by
  cases ps with
  | nil => simp [Threaded]
  | cons p ps => simp [Threaded]

theorem Threaded.frame (threaded : Threaded next start ps)
    (same : ∀ p ∈ ps, next' p = next p) : Threaded next' start ps := by
  induction ps generalizing start with
  | nil => exact threaded
  | cons p ps ih =>
    refine ⟨threaded.1, ?_⟩
    rw [same p List.mem_cons_self]
    exact ih threaded.2 fun q member => same q (List.mem_cons_of_mem p member)

variable [DecidableEq α]

theorem Threaded.update (threaded : Threaded next start ps) {p : α}
    (outside : p ∉ ps) (v : Option α) : Threaded (Function.update next p v) start ps := by
  apply threaded.frame
  intro q member
  have other : q ≠ p := by
    intro same
    rw [same] at member
    exact outside member
  exact Function.update_of_ne other _ _

theorem Threaded.push (threaded : Threaded next start ps) {p : α}
    (outside : p ∉ ps) : Threaded (Function.update next p start) (some p) (p :: ps) := by
  refine ⟨rfl, ?_⟩
  rw [Function.update_self]
  exact threaded.update outside start

end Scc.Lib
