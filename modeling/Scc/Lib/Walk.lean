import Mathlib.Data.Nat.Basic

/-!
# Walks

A walk goes from place to place until it stops. Two walks are the same up to the end if
and only if their steps are the same at every place that the first one comes to.
-/

namespace Scc.Lib

set_option autoImplicit false

inductive Step (σ α β : Type)
  | visit (seen : α) (next : σ)
  | stop (result : β)

variable {σ α β : Type}

/-- A walk that stops: what is visited, and the result. -/
inductive Walk (step : σ → Step σ α β) : σ → List α → β → Prop
  | stop {s : σ} {result : β} (stopped : step s = .stop result) : Walk step s [] result
  | visit {s next : σ} {seen : α} {visits : List α} {result : β} (stepped : step s = .visit seen next)
      (rest : Walk step next visits result) : Walk step s (seen :: visits) result

inductive Reached (step : σ → Step σ α β) : σ → σ → Prop
  | here (s : σ) : Reached step s s
  | next {s next t : σ} {seen : α} (stepped : step s = .visit seen next) (rest : Reached step next t) :
      Reached step s t

/-- What a walk visits on its way to a place. -/
inductive Path (step : σ → Step σ α β) : σ → List α → σ → Prop
  | here (s : σ) : Path step s [] s
  | next {s next t : σ} {seen : α} {visits : List α} (stepped : step s = .visit seen next)
      (rest : Path step next visits t) : Path step s (seen :: visits) t

variable {step step' : σ → Step σ α β}

theorem walk_of_path (measure : σ → Nat) (s : σ)
    (falls : ∀ visits t seen next, Path step s visits t → step t = .visit seen next → measure next < measure t) :
    ∃ visits result, Walk step s visits result := by
  induction small : measure s using Nat.strong_induction_on generalizing s with
  | h n ih =>
    cases stepped : step s with
    | stop result => exact ⟨[], result, .stop stepped⟩
    | visit seen next =>
      have lower := falls [] s seen next (.here s) stepped
      rcases ih (measure next) (small ▸ lower) next
        (fun visits t seen' next' path => falls (seen :: visits) t seen' next' (.next stepped path)) rfl with
        ⟨visits, result, rest⟩
      exact ⟨seen :: visits, result, .visit stepped rest⟩

theorem walk_of_decreasing (measure : σ → Nat)
    (falls : ∀ s seen next, step s = .visit seen next → measure next < measure s) (s : σ) :
    ∃ visits result, Walk step s visits result :=
  walk_of_path measure s fun _ t seen next _ => falls t seen next

theorem Walk.unique {s : σ} {visits visits' : List α} {result result' : β} (walk : Walk step s visits result)
    (walk' : Walk step s visits' result') : visits = visits' ∧ result = result' := by
  induction walk generalizing visits' with
  | stop stopped =>
    cases walk' with
    | stop stopped' =>
      rw [stopped] at stopped'
      cases stopped'
      exact ⟨rfl, rfl⟩
    | visit stepped' _ =>
      rw [stopped] at stepped'
      cases stepped'
  | visit stepped _ ih =>
    cases walk' with
    | stop stopped' =>
      rw [stepped] at stopped'
      cases stopped'
    | visit stepped' rest' =>
      rw [stepped] at stepped'
      cases stepped'
      rcases ih rest' with ⟨rfl, same⟩
      exact ⟨rfl, same⟩

theorem Path.walk {s t : σ} {visits rest : List α} {result : β} (path : Path step s visits t)
    (walk : Walk step t rest result) : Walk step s (visits ++ rest) result := by
  induction path with
  | here s => exact walk
  | next stepped _ ih => exact .visit stepped (ih walk)

theorem Walk.after {s t : σ} {visits all : List α} {result : β} (walk : Walk step s all result)
    (path : Path step s visits t) : ∃ rest, all = visits ++ rest ∧ Walk step t rest result := by
  induction path generalizing all with
  | here s => exact ⟨all, rfl, walk⟩
  | next stepped _ ih =>
    cases walk with
    | stop stopped =>
      rw [stepped] at stopped
      cases stopped
    | visit stepped' rest' =>
      rw [stepped] at stepped'
      cases stepped'
      rcases ih rest' with ⟨rest, same, onward⟩
      exact ⟨rest, congrArg _ same, onward⟩

theorem Walk.last {s : σ} {visits : List α} {result : β} (walk : Walk step s visits result) :
    ∃ t, Path step s visits t ∧ step t = .stop result := by
  induction walk with
  | stop stopped => exact ⟨_, .here _, stopped⟩
  | visit stepped _ ih =>
    rcases ih with ⟨t, path, stopped⟩
    exact ⟨t, .next stepped path, stopped⟩

theorem Walk.follow {s : σ} {visits : List α} {result : β} (walk : Walk step s visits result)
    (same : ∀ t, Reached step s t → step' t = step t) : Walk step' s visits result := by
  induction walk with
  | stop stopped => exact .stop ((same _ (.here _)).trans stopped)
  | visit stepped _ ih =>
    exact .visit ((same _ (.here _)).trans stepped) (ih fun t reached => same t (.next stepped reached))

end Scc.Lib
