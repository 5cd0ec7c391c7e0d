import Mathlib.Tactic.Common

/-!
# Programs with fuel

A recursive program that may fail or run forever is a function of its fuel: no
result yet, a failure or a value. It settles on what it gives with any fuel from
some amount on, and nothing yet is what a program settles on that runs forever.
-/

namespace Scc.Lib.Fuel

set_option autoImplicit false

variable {ε α β : Type*}

abbrev Result (ε α : Type*) := Option (Except ε α)

namespace Result

def ok (a : α) : Result ε α := some (.ok a)

def error (e : ε) : Result ε α := some (.error e)

def andThen (first : Result ε α) (next : α → Result ε β) : Result ε β :=
  match first with
  | none => none
  | some (.error e) => some (.error e)
  | some (.ok a) => next a

@[simp] theorem andThen_ok (a : α) (next : α → Result ε β) : (ok a).andThen next = next a := rfl

@[simp] theorem andThen_error (e : ε) (next : α → Result ε β) :
    (error e : Result ε α).andThen next = error e := rfl

@[simp] theorem andThen_none (next : α → Result ε β) :
    andThen (none : Result ε α) next = none := rfl

theorem andThen_assoc {γ : Type*} (first : Result ε α) (next : α → Result ε β) (last : β → Result ε γ) :
    (first.andThen next).andThen last = first.andThen fun a => (next a).andThen last := by
  cases first with
  | none => rfl
  | some result => cases result <;> rfl

end Result

/-- From some fuel on the result stays the same. -/
def Settles (program : Nat → Result ε α) (result : Result ε α) : Prop :=
  ∃ enough, ∀ fuel, enough ≤ fuel → program fuel = result

namespace Settles

variable {program : Nat → Result ε α} {result : Result ε α}

theorem const (result : Result ε α) : Settles (fun _ => result) result := ⟨0, fun _ _ => rfl⟩

theorem unique {result' : Result ε α} (settles : Settles program result)
    (settles' : Settles program result') : result = result' := by
  rcases settles with ⟨enough, same⟩
  rcases settles' with ⟨enough', same'⟩
  rw [← same (max enough enough') (Nat.le_max_left _ _), same' (max enough enough') (Nat.le_max_right _ _)]

theorem congr {program' : Nat → Result ε α} (equal : ∀ fuel, program fuel = program' fuel)
    (settles : Settles program result) : Settles program' result := by
  rcases settles with ⟨enough, same⟩
  exact ⟨enough, fun fuel le => (equal fuel).symm.trans (same fuel le)⟩

theorem step {program' : Nat → Result ε α} (spends : ∀ fuel, program' (fuel + 1) = program fuel)
    (settles : Settles program result) : Settles program' result := by
  rcases settles with ⟨enough, same⟩
  exists enough + 1
  intro fuel le
  cases fuel with
  | zero => omega
  | succ fuel =>
    rw [spends]
    exact same fuel (by omega)

theorem bind {a : α} {next : Nat → α → Result ε β} {result : Result ε β}
    (first : Settles program (.ok a)) (second : Settles (fun fuel => next fuel a) result) :
    Settles (fun fuel => (program fuel).andThen (next fuel)) result := by
  rcases first with ⟨enough, same⟩
  rcases second with ⟨enough', same'⟩
  exists max enough enough'
  intro fuel le
  change (program fuel).andThen (next fuel) = result
  rw [same fuel (by omega), Result.andThen_ok]
  exact same' fuel (by omega)

theorem bind_error {e : ε} {next : Nat → α → Result ε β} (first : Settles program (.error e)) :
    Settles (fun fuel => (program fuel).andThen (next fuel)) (.error e) := by
  rcases first with ⟨enough, same⟩
  exists enough
  intro fuel le
  change (program fuel).andThen (next fuel) = .error e
  rw [same fuel le, Result.andThen_error]

theorem bind_none {next : Nat → α → Result ε β} (first : Settles program none) :
    Settles (fun fuel => (program fuel).andThen (next fuel)) none := by
  rcases first with ⟨enough, same⟩
  exists enough
  intro fuel le
  change (program fuel).andThen (next fuel) = none
  rw [same fuel le, Result.andThen_none]

end Settles

end Scc.Lib.Fuel
