import Mathlib.Data.Nat.Basic

/-!
# Machines that show the same

A deterministic machine and what can be seen of its states. A simulation relates the
states of two machines: a step of the first is some steps of the second, in which only
what the step makes visible is seen, or none at all, and then the rank of the state
falls. So what is shown, and with what the machine halts, is the same for both.
-/

namespace Scc.Lib.Simulation

set_option autoImplicit false

universe u v w

structure Machine (σ : Type u) (α : Type w) where
  step : σ → Option σ
  seen : σ → α

section Runs

variable {σ : Type u} {α : Type w} (M : Machine σ α)

inductive Steps : Nat → σ → σ → Prop where
  | refl (s : σ) : Steps 0 s s
  | head {n : Nat} {s t r : σ} (stepped : M.step s = some t) (rest : Steps n t r) : Steps (n + 1) s r

/-- Some run comes to a state where this is seen. -/
def Shows (s : σ) (a : α) : Prop := ∃ n t, Steps M n s t ∧ M.seen t = a

def Halts (s : σ) (a : α) : Prop := ∃ n t, Steps M n s t ∧ M.step t = none ∧ M.seen t = a

/-- A run on which nothing is seen but what satisfies the predicate. -/
inductive Passes (may : α → Prop) : Nat → σ → σ → Prop where
  | refl {s : σ} (here : may (M.seen s)) : Passes may 0 s s
  | head {n : Nat} {s t r : σ} (here : may (M.seen s)) (stepped : M.step s = some t)
      (rest : Passes may n t r) : Passes may (n + 1) s r

variable {M}

variable {m n : Nat} {r s t : σ} {may : α → Prop}

theorem Steps.trans (first : Steps M n s t) (second : Steps M m t r) : Steps M (n + m) s r := by
  induction first with
  | refl s => rwa [Nat.zero_add]
  | head stepped rest ih =>
    rw [Nat.add_right_comm]
    exact Steps.head stepped (ih second)

theorem Passes.steps (passes : Passes M may n s t) : Steps M n s t := by
  induction passes with
  | refl here => exact Steps.refl _
  | head here stepped rest ih => exact Steps.head stepped ih

theorem Passes.last (passes : Passes M may n s t) : may (M.seen t) := by
  induction passes with
  | refl here => exact here
  | head here stepped rest ih => exact ih

theorem Passes.trans (first : Passes M may n s t)
    (second : Passes M may m t r) : Passes M may (n + m) s r := by
  induction first with
  | refl here => rwa [Nat.zero_add]
  | head here stepped rest ih =>
    rw [Nat.add_right_comm]
    exact Passes.head here stepped (ih second)

theorem Passes.follow (passes : Passes M may n s t) (run : Steps M m s r) :
    may (M.seen r) ∨ ∃ rest, m = n + rest ∧ Steps M rest t r := by
  induction passes generalizing m with
  | refl here => exact Or.inr ⟨m, (Nat.zero_add m).symm, run⟩
  | head here stepped rest ih =>
    cases run with
    | refl => exact Or.inl here
    | head stepped' run' =>
      rw [stepped] at stepped'
      cases stepped'
      rcases ih run' with seen | ⟨left, total, run''⟩
      · exact Or.inl seen
      · refine Or.inr ⟨left, ?_, run''⟩
        rw [total, Nat.add_right_comm]

theorem Passes.ended {may : α → Prop} {n m : Nat} {s t r : σ} (passes : Passes M may n s t)
    (run : Steps M m s r) (ends : M.step r = none) : ∃ rest, m = n + rest ∧ Steps M rest t r := by
  induction passes generalizing m with
  | refl here => exact ⟨m, (Nat.zero_add m).symm, run⟩
  | head here stepped rest ih =>
    cases run with
    | refl =>
      rw [stepped] at ends
      exact absurd ends (by simp)
    | head stepped' run' =>
      rw [stepped] at stepped'
      cases stepped'
      rcases ih run' with ⟨left, total, run''⟩
      refine ⟨left, ?_, run''⟩
      rw [total, Nat.add_right_comm]

theorem Steps.ended {n : Nat} {s t : σ} (run : Steps M n s t) (ends : M.step s = none) : t = s := by
  cases run with
  | refl => rfl
  | head stepped rest =>
    rw [ends] at stepped
    exact absurd stepped (by simp)

theorem shows_step {a : α} (stepped : M.step s = some t) : Shows M s a ↔ M.seen s = a ∨ Shows M t a := by
  constructor
  · rintro ⟨n, r, run, seen⟩
    cases run with
    | refl => exact Or.inl seen
    | head stepped' rest =>
      rw [stepped] at stepped'
      cases stepped'
      exact Or.inr ⟨_, r, rest, seen⟩
  · rintro (seen | ⟨n, r, run, seen⟩)
    · exact ⟨0, s, Steps.refl s, seen⟩
    · exact ⟨n + 1, r, Steps.head stepped run, seen⟩

theorem shows_last {a : α} (ends : M.step s = none) : Shows M s a ↔ M.seen s = a := by
  constructor
  · rintro ⟨n, r, run, seen⟩
    rwa [run.ended ends] at seen
  · exact fun seen => ⟨0, s, Steps.refl s, seen⟩

end Runs

section Related

variable {σ : Type u} {τ : Type v} {α : Type w}

/-- Every step of the first machine that meets the condition is followed by the second. -/
structure Simulates (A : Machine σ α) (B : Machine τ α) (condition : σ → Prop) (R : σ → τ → Prop)
    (rank : σ → Nat) : Prop where
  seen : ∀ {s t}, R s t → A.seen s = B.seen t
  moves : ∀ {s s' t}, R s t → condition s → A.step s = some s' →
    ∃ n t', Passes B (fun a => a = A.seen s ∨ a = A.seen s') n t t' ∧ R s' t' ∧
      (n = 0 → rank s' < rank s)
  halts : ∀ {s t}, R s t → condition s → A.step s = none →
    ∃ n t', Passes B (fun a => a = A.seen s) n t t' ∧ B.step t' = none

variable {A : Machine σ α} {B : Machine τ α} {condition : σ → Prop} {R : σ → τ → Prop} {rank : σ → Nat}

/-- The condition is met wherever the run comes. -/
def Throughout (A : Machine σ α) (condition : σ → Prop) (s : σ) : Prop :=
  ∀ n t, Steps A n s t → condition t

variable {s s' : σ} {n : Nat} {t : τ}

theorem Throughout.here (throughout : Throughout A condition s) : condition s :=
  throughout 0 s (Steps.refl s)

theorem Throughout.next (throughout : Throughout A condition s)
    (stepped : A.step s = some s') : Throughout A condition s' :=
  fun n t run => throughout (n + 1) t (Steps.head stepped run)

theorem Throughout.head (here : condition s) (stepped : A.step s = some s')
    (later : Throughout A condition s') : Throughout A condition s := by
  intro n t run
  cases run with
  | refl => exact here
  | head stepped' rest =>
    rw [stepped] at stepped'
    cases stepped'
    exact later _ t rest

theorem Throughout.last (here : condition s) (ends : A.step s = none) : Throughout A condition s := by
  intro n t run
  rw [run.ended ends]
  exact here

theorem Simulates.follow (sim : Simulates A B condition R rank)
    (run : Steps A n s s') (related : R s t) (throughout : Throughout A condition s) :
    ∃ m t', Steps B m t t' ∧ R s' t' := by
  induction run generalizing t with
  | refl s => exact ⟨0, t, Steps.refl t, related⟩
  | head stepped rest ih =>
    rcases sim.moves related throughout.here stepped with ⟨m, middle, passes, related', _⟩
    rcases ih related' (throughout.next stepped) with ⟨m', t', run', related''⟩
    exact ⟨m + m', t', passes.steps.trans run', related''⟩

theorem Simulates.shown (sim : Simulates A B condition R rank) {t r : τ}
    (related : R s t) (throughout : Throughout A condition s) (run : Steps B n t r) :
    Shows A s (B.seen r) := by
  induction n using Nat.strong_induction_on generalizing s t with
  | h n byLength =>
    induction below : rank s using Nat.strong_induction_on generalizing s t with
    | h bound byRank =>
      cases stepped : A.step s with
      | none =>
        rcases sim.halts related throughout.here stepped with ⟨m, t', passes, ends⟩
        rcases passes.follow run with seen | ⟨rest, _, run'⟩
        · exact ⟨0, s, Steps.refl s, seen.symm⟩
        · rw [run'.ended ends]
          exact ⟨0, s, Steps.refl s, passes.last.symm⟩
      | some s' =>
        rcases sim.moves related throughout.here stepped with ⟨m, t', passes, related', falls⟩
        have later : ∀ a, Shows A s' a → Shows A s a := by
          rintro a ⟨m', s'', run', seen⟩
          exact ⟨m' + 1, s'', Steps.head stepped run', seen⟩
        rcases passes.follow run with seen | ⟨rest, total, run'⟩
        · rcases seen with old | new
          · exact ⟨0, s, Steps.refl s, old.symm⟩
          · exact later _ ⟨0, s', Steps.refl s', new.symm⟩
        · apply later
          cases m with
          | zero =>
            rw [Nat.zero_add] at total
            cases total
            exact byRank (rank s') (below ▸ falls rfl) related' (throughout.next stepped) run' rfl
          | succ m => exact byLength rest (by omega) related' (throughout.next stepped) run'

theorem Simulates.halted (sim : Simulates A B condition R rank) {t r : τ}
    (related : R s t) (throughout : Throughout A condition s) (run : Steps B n t r)
    (ended : B.step r = none) : Halts A s (B.seen r) := by
  induction n using Nat.strong_induction_on generalizing s t with
  | h n byLength =>
    induction below : rank s using Nat.strong_induction_on generalizing s t with
    | h bound byRank =>
      cases stepped : A.step s with
      | none =>
        rcases sim.halts related throughout.here stepped with ⟨m, t', passes, ends⟩
        rcases passes.ended run ended with ⟨rest, _, run'⟩
        rw [run'.ended ends]
        exact ⟨0, s, Steps.refl s, stepped, passes.last.symm⟩
      | some s' =>
        rcases sim.moves related throughout.here stepped with ⟨m, t', passes, related', falls⟩
        rcases passes.ended run ended with ⟨rest, total, run'⟩
        have later : Halts A s' (B.seen r) := by
          cases m with
          | zero =>
            rw [Nat.zero_add] at total
            cases total
            exact byRank (rank s') (below ▸ falls rfl) related' (throughout.next stepped) run' rfl
          | succ m => exact byLength rest (by omega) related' (throughout.next stepped) run'
        rcases later with ⟨m', s'', run'', ends, seen⟩
        exact ⟨m' + 1, s'', Steps.head stepped run'', ends, seen⟩

theorem Simulates.shows_iff (sim : Simulates A B condition R rank) (related : R s t)
    (throughout : Throughout A condition s) (a : α) : Shows A s a ↔ Shows B t a := by
  constructor
  · rintro ⟨n, s', run, seen⟩
    rcases sim.follow run related throughout with ⟨m, t', run', related'⟩
    exact ⟨m, t', run', (sim.seen related').symm.trans seen⟩
  · rintro ⟨n, r, run, seen⟩
    rw [← seen]
    exact sim.shown related throughout run

theorem Simulates.halts_iff (sim : Simulates A B condition R rank) (related : R s t)
    (throughout : Throughout A condition s) (a : α) : Halts A s a ↔ Halts B t a := by
  constructor
  · rintro ⟨n, s', run, ends, seen⟩
    rcases sim.follow run related throughout with ⟨m, t', run', related'⟩
    have there : condition s' := throughout n s' run
    rcases sim.halts related' there ends with ⟨m', t'', passes, ends'⟩
    exact ⟨m + m', t'', run'.trans passes.steps, ends', passes.last.trans seen⟩
  · rintro ⟨n, r, run, ends, seen⟩
    rw [← seen]
    exact sim.halted related throughout run ends

end Related

end Scc.Lib.Simulation
