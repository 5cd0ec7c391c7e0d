import Scc.Lib.Fuel

/-!
# Programs that log their calls

A program with fuel that also notes the calls it makes. Some calls are harmful: no
run goes on behind one of them and comes to an end as it should. Runs with different
fuel that are equal as long as nothing harmful is called settle together, and the
calls of one run with enough fuel decide whether the program ends properly.
-/

namespace Scc.Lib.Logged

open Scc.Lib.Fuel

set_option autoImplicit false

variable {Call ε α β : Type*}

structure Run (Call ε α : Type*) where
  calls : List Call
  result : Result ε α

namespace Run

def ok (a : α) : Run Call ε α := ⟨[], .ok a⟩

def error (e : ε) : Run Call ε α := ⟨[], .error e⟩

def none : Run Call ε α := ⟨[], Option.none⟩

def log (call : Call) (run : Run Call ε α) : Run Call ε α := { run with calls := call :: run.calls }

def ofExcept (value : Except ε α) : Run Call ε α := ⟨[], some value⟩

def andThen (first : Run Call ε α) (next : α → Run Call ε β) : Run Call ε β :=
  match first.result with
  | Option.none => ⟨first.calls, Option.none⟩
  | some (.error e) => ⟨first.calls, .error e⟩
  | some (.ok a) => ⟨first.calls ++ (next a).calls, (next a).result⟩

theorem andThen_ok {first : Run Call ε α} {next : α → Run Call ε β} {b : β}
    (result : (first.andThen next).result = .ok b) : ∃ a, first.result = .ok a ∧ (next a).result = .ok b := by
  unfold andThen at result
  cases outcome : first.result with
  | none =>
    rw [outcome] at result
    cases result
  | some value =>
    rw [outcome] at result
    cases value with
    | error e => cases result
    | ok a => exact ⟨a, rfl, result⟩

theorem andThen_never {first : Run Call ε α} (next : α → Run Call ε β)
    (never : first.result = Option.none) : (first.andThen next).result = Option.none := by
  unfold andThen
  rw [never]

end Run

section Harm

variable (harmless : Call → Prop) (proper : ε → Prop)

/-- The end is a value or an error that may be. -/
def Ends (result : Result ε α) : Prop :=
  ∃ outcome, result = some outcome ∧ ∀ e, outcome = .error e → proper e

structure Clean (run : Run Call ε α) : Prop where
  calls : ∀ call ∈ run.calls, harmless call
  ends : Ends proper run.result

structure Harmed (run : Run Call ε α) : Prop where
  calls : ∃ call ∈ run.calls, ¬ harmless call
  ends : ¬ Ends proper run.result

def Alike (run run' : Run Call ε α) : Prop :=
  run = run' ∧ Clean harmless proper run ∨
    Harmed harmless proper run ∧ Harmed harmless proper run'

variable {harmless proper}

theorem Alike.ok (a : α) : Alike harmless proper (Run.ok a) (Run.ok a) := by
  refine Or.inl ⟨rfl, ?_, .ok a, rfl, ?_⟩
  · intro call member
    cases member
  · intro e same
    cases same

theorem Alike.error {e : ε} (may : proper e) :
    Alike harmless proper (Run.error e : Run Call ε α) (Run.error e) := by
  refine Or.inl ⟨rfl, ?_, .error e, rfl, ?_⟩
  · intro call member
    cases member
  · intro e' same
    cases same
    exact may

variable {run run' : Run Call ε α}

theorem Alike.log {call : Call} (harm : harmless call) (alike : Alike harmless proper run run') :
    Alike harmless proper (run.log call) (run'.log call) := by
  cases alike with
  | inl equal =>
    obtain ⟨same, clean⟩ := equal
    refine Or.inl ⟨by rw [same], ?_, clean.ends⟩
    intro other member
    cases List.mem_cons.mp member with
    | inl first => rw [first]; exact harm
    | inr later => exact clean.calls other later
  | inr harmed =>
    have logged {r : Run Call ε α} (bad : Harmed harmless proper r) :
        Harmed harmless proper (r.log call) := by
      obtain ⟨other, member, harmful⟩ := bad.calls
      exact ⟨⟨other, List.mem_cons_of_mem _ member, harmful⟩, bad.ends⟩
    exact Or.inr ⟨logged harmed.1, logged harmed.2⟩

theorem Harmed.log {call : Call} (harm : ¬ harmless call)
    (ends : ¬ Ends proper run.result) : Harmed harmless proper (run.log call) :=
  ⟨⟨call, List.mem_cons_self, harm⟩, ends⟩

theorem Alike.harmed (harmed : Harmed harmless proper run)
    (harmed' : Harmed harmless proper run') : Alike harmless proper run run' :=
  Or.inr ⟨harmed, harmed'⟩

theorem Harmed.andThen (harmed : Harmed harmless proper run)
    (next : α → Run Call ε β) (stops : ∀ a, run.result ≠ .ok a) :
    Harmed harmless proper (run.andThen next) := by
  obtain ⟨⟨call, member, harmful⟩, ends⟩ := harmed
  unfold Run.andThen
  cases result : run.result with
  | none =>
    refine ⟨⟨call, member, harmful⟩, ?_⟩
    rintro ⟨outcome, same, _⟩
    cases same
  | some outcome =>
    cases outcome with
    | ok a => exact absurd result (stops a)
    | error e =>
      refine ⟨⟨call, member, harmful⟩, ?_⟩
      rintro ⟨outcome, same, may⟩
      apply ends
      cases same
      refine ⟨.error e, result, ?_⟩
      intro e' same
      cases same
      exact may e rfl

theorem Harmed.stops (harmed : Harmed harmless proper run) (a : α) : run.result ≠ .ok a := by
  intro result
  apply harmed.ends
  refine ⟨.ok a, result, ?_⟩
  intro e same
  cases same

theorem Alike.andThen {next next' : α → Run Call ε β} (first : Alike harmless proper run run')
    (second : ∀ a, run.result = .ok a → Alike harmless proper (next a) (next' a)) :
    Alike harmless proper (run.andThen next) (run'.andThen next') := by
  cases first with
  | inr harmed =>
    exact Or.inr ⟨harmed.1.andThen next harmed.1.stops, harmed.2.andThen next' harmed.2.stops⟩
  | inl equal =>
    obtain ⟨same, clean⟩ := equal
    subst same
    obtain ⟨outcome, result, may⟩ := clean.ends
    cases outcome with
    | error e =>
      refine Or.inl ?_
      simp only [Run.andThen, result]
      refine ⟨trivial, clean.calls, .error e, rfl, ?_⟩
      intro e' same
      cases same
      exact may e rfl
    | ok a =>
      simp only [Run.andThen, result]
      cases second a result with
      | inl equal' =>
        obtain ⟨same, clean'⟩ := equal'
        rw [same] at clean' ⊢
        refine Or.inl ⟨rfl, ?_, clean'.ends⟩
        intro call member
        cases List.mem_append.mp member with
        | inl early => exact clean.calls call early
        | inr late => exact clean'.calls call late
      | inr harmed =>
        have behind {r : Run Call ε β} (bad : Harmed harmless proper r) :
            Harmed harmless proper (⟨run.calls ++ r.calls, r.result⟩ : Run Call ε β) := by
          obtain ⟨call, member, harmful⟩ := bad.calls
          exact ⟨⟨call, List.mem_append_right _ member, harmful⟩, bad.ends⟩
        exact Or.inr ⟨behind harmed.1, behind harmed.2⟩

theorem Alike.clean_iff (alike : Alike harmless proper run run') :
    (∀ call ∈ run.calls, harmless call) ↔ Ends proper run'.result := by
  cases alike with
  | inl equal =>
    obtain ⟨same, clean⟩ := equal
    subst same
    exact ⟨fun _ => clean.ends, fun _ => clean.calls⟩
  | inr harmed =>
    constructor
    · intro all
      obtain ⟨call, member, harmful⟩ := harmed.1.calls
      exact absurd (all call member) harmful
    · intro ends
      exact absurd ends harmed.2.ends

theorem settles_iff {program : Nat → Run Call ε α} {enough : Nat}
    (alike : ∀ fuel, enough ≤ fuel → Alike harmless proper (program enough) (program fuel)) :
    (∃ result, Ends proper result ∧ Settles (fun fuel => (program fuel).result) result) ↔
      ∀ call ∈ (program enough).calls, harmless call := by
  constructor
  · rintro ⟨result, ends, more, same⟩
    apply (alike (max enough more) (Nat.le_max_left _ _)).clean_iff.mpr
    have settled : (program (max enough more)).result = result := same _ (Nat.le_max_right _ _)
    rw [settled]
    exact ends
  · intro all
    refine ⟨(program enough).result, (alike enough (Nat.le_refl _)).clean_iff.mp all, enough, ?_⟩
    intro fuel le
    cases alike fuel le with
    | inl equal => exact congrArg Run.result equal.1.symm
    | inr harmed =>
      obtain ⟨call, member, harmful⟩ := harmed.1.calls
      exact absurd (all call member) harmful

end Harm

end Scc.Lib.Logged
