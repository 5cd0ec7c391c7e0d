import Mathlib.Data.List.Basic

/-!
# Sequences of once, optional and repeated elements

A list is split over a pattern when every element of the pattern gets the part it allows.
-/

namespace Scc.Lib

set_option autoImplicit false

inductive Elem (α : Type)
  | once (a : α)
  | opt (a : α)
  | rep (a : α)
deriving DecidableEq

namespace Elem

variable {α β : Type}

def arg : Elem α → α
  | once a => a
  | opt a => a
  | rep a => a

def isOpt : Elem α → Bool
  | opt _ => true
  | _ => false

end Elem

variable {α β : Type}

/-- The list can be split over the elements. -/
inductive Splits (sat : α → β → Prop) : List (Elem α) → List β → Prop
  | nil : Splits sat [] []
  | once {a : α} {x : β} {es : List (Elem α)} {xs : List β} (head : sat a x)
      (tail : Splits sat es xs) : Splits sat (.once a :: es) (x :: xs)
  | skip {a : α} {es : List (Elem α)} {xs : List β} (tail : Splits sat es xs) :
      Splits sat (.opt a :: es) xs
  | take {a : α} {x : β} {es : List (Elem α)} {xs : List β} (head : sat a x)
      (tail : Splits sat es xs) : Splits sat (.opt a :: es) (x :: xs)
  | last {a : α} {x : β} {es : List (Elem α)} {xs : List β} (head : sat a x)
      (tail : Splits sat es xs) : Splits sat (.rep a :: es) (x :: xs)
  | more {a : α} {x : β} {es : List (Elem α)} {xs : List β} (head : sat a x)
      (tail : Splits sat (.rep a :: es) xs) : Splits sat (.rep a :: es) (x :: xs)

namespace Splits

variable {sat : α → β → Prop}

variable {xs : List β} {a : α} {es : List (Elem α)} {x : β}

theorem nil_iff : Splits sat [] xs ↔ xs = [] := by
  constructor
  · intro splits
    cases splits
    rfl
  · intro empty
    subst empty
    exact .nil

theorem cons_once_iff : Splits sat (.once a :: es) (x :: xs) ↔ sat a x ∧ Splits sat es xs := by
  constructor
  · intro splits
    cases splits with
    | once head tail => exact ⟨head, tail⟩
  · intro both
    exact .once both.1 both.2

theorem once_nil : ¬ Splits sat (.once a :: es) [] := by
  intro splits
  cases splits

theorem rep_head (splits : Splits sat (.rep a :: es) (x :: xs)) : sat a x := by
  cases splits with
  | last head tail => exact head
  | more head tail => exact head

theorem prefix_iff (as : List α) (es : List (Elem α)) (rest : List β) : ∀ xs : List β, xs.length = as.length →
      (Splits sat (as.map .once ++ es) (xs ++ rest) ↔ List.Forall₂ sat as xs ∧ Splits sat es rest) := by
  induction as with
  | nil =>
    intro xs length
    rw [List.length_eq_zero_iff.mp length]
    simp
  | cons a as ih =>
    intro xs length
    cases xs with
    | nil => cases length
    | cons x xs =>
      rw [List.map_cons, List.cons_append, List.cons_append, cons_once_iff,
        ih xs (Nat.succ.inj length), List.forall₂_cons, and_assoc]

theorem onces {as : List α} (splits : Splits sat (as.map .once) xs) : List.Forall₂ sat as xs := by
  induction as generalizing xs with
  | nil =>
    cases splits
    exact .nil
  | cons a as ih =>
    cases splits with
    | once head tail => exact .cons head (ih tail)

theorem one_each (each : List.Forall₂ (fun e x => sat e.arg x) es xs) : Splits sat es xs := by
  induction es generalizing xs with
  | nil =>
    cases each
    exact .nil
  | cons e es ih =>
    cases each with
    | cons head tail =>
      cases e with
      | once a => exact .once head (ih tail)
      | opt a => exact .take head (ih tail)
      | rep a => exact .last head (ih tail)

theorem required {e : Elem α} (member : e ∈ es)
    (notOpt : e.isOpt = false) (splits : Splits sat es [x]) : sat e.arg x := by
  induction es with
  | nil => cases member
  | cons first es ih =>
    have none_ : ∀ {es : List (Elem α)}, e ∈ es → ¬ Splits sat es [] := by
      intro es
      induction es with
      | nil =>
        intro member
        cases member
      | cons first es ih =>
        intro member splits
        cases splits with
        | skip tail =>
          rcases List.mem_cons.mp member with rfl | later
          · cases notOpt
          · exact ih later tail
    rcases List.mem_cons.mp member with rfl | later
    · cases splits with
      | once head tail => exact head
      | skip tail => cases notOpt
      | take head tail => cases notOpt
      | last head tail => exact head
      | more head tail => exact head
    · cases splits with
      | once head tail => exact absurd tail (none_ later)
      | skip tail => exact ih later tail
      | take head tail => exact absurd tail (none_ later)
      | last head tail => exact absurd tail (none_ later)
      | more head tail => cases tail

theorem length_le (opts : ∀ e ∈ es, e.isOpt = true) (splits : Splits sat es xs) : xs.length ≤ es.length := by
  induction splits with
  | nil => exact Nat.le_refl 0
  | once head tail ih => cases opts _ List.mem_cons_self
  | skip tail ih =>
    have rest := ih fun e member => opts e (List.mem_cons_of_mem _ member)
    rw [List.length_cons]
    omega
  | take head tail ih =>
    have rest := ih fun e member => opts e (List.mem_cons_of_mem _ member)
    rw [List.length_cons, List.length_cons]
    omega
  | last head tail ih => cases opts _ List.mem_cons_self
  | more head tail ih => cases opts _ List.mem_cons_self

theorem opt_head (opts : ∀ e ∈ es, e.isOpt = true) (length : xs.length = es.length)
    (splits : Splits sat (.opt a :: es) (x :: xs)) : sat a x := by
  cases splits with
  | skip tail =>
    have bound := tail.length_le opts
    rw [List.length_cons] at bound
    omega
  | take head tail => exact head

end Splits

end Scc.Lib
