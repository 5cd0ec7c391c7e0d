import Mathlib.Data.List.Nodup

/-!
# Lists linked in both directions

A node has the next one and the one before it. A part of a list is linked between a node before it and a node
after it, so that a list can be cut at any place, and a part of it be replaced by another one.
-/

namespace Scc.Lib

set_option autoImplicit false

variable {α : Type*} {next prev next' prev' : α → Option α}

/-- The nodes are linked in their order, the first one to what is before them and the last one to what is after
them. -/
def Linked (next prev : α → Option α) : Option α → List α → Option α → Prop
  | _, [], _ => True
  | before, p :: ps, after => prev p = before ∧ next p = ps.head?.or after ∧ Linked next prev (some p) ps after

theorem getLast_cons_or (p : α) (ps : List α) (before : Option α) :
    (p :: ps).getLast?.or before = ps.getLast?.or (some p) := by
  rw [List.getLast?_cons]
  cases ps.getLast? <;> rfl

variable {after before : Option α} {ps : List α}

theorem linked_append (ps qs : List α) : Linked next prev before (ps ++ qs) after ↔
      Linked next prev before ps (qs.head?.or after) ∧ Linked next prev (ps.getLast?.or before) qs after := by
  induction ps generalizing before with
  | nil => simp [Linked]
  | cons p ps ih =>
    rw [List.cons_append, Linked, Linked, ih, List.head?_append, Option.or_assoc, getLast_cons_or, and_assoc, and_assoc]

theorem Linked.frame (linked : Linked next prev before ps after)
    (sameNext : ∀ p ∈ ps, next' p = next p) (samePrev : ∀ p ∈ ps, prev' p = prev p) :
    Linked next' prev' before ps after := by
  induction ps generalizing before with
  | nil => exact linked
  | cons p ps ih =>
    rcases linked with ⟨first, second, rest⟩
    rw [List.forall_mem_cons] at sameNext samePrev
    refine ⟨samePrev.1.trans first, sameNext.1.trans second, ?_⟩
    exact ih rest sameNext.2 samePrev.2

theorem Linked.follow {before after after' : Option α} (linked : Linked next prev before ps after)
    (nodup : ps.Nodup) (samePrev : ∀ p ∈ ps, prev' p = prev p)
    (sameNext : ∀ p ∈ ps, ps.getLast? ≠ some p → next' p = next p)
    (last : ∀ p, ps.getLast? = some p → next' p = after') : Linked next' prev' before ps after' := by
  induction ps generalizing before with
  | nil => exact linked
  | cons p ps ih =>
    rcases linked with ⟨first, second, rest⟩
    rw [List.forall_mem_cons] at samePrev sameNext
    rw [List.nodup_cons] at nodup
    cases ps with
    | nil => exact ⟨samePrev.1.trans first, last p rfl, trivial⟩
    | cons q qs =>
      have end_ : (p :: q :: qs).getLast? = (q :: qs).getLast? := List.getLast?_cons_cons
      rw [end_] at sameNext last
      refine ⟨samePrev.1.trans first, ?_, ih rest nodup.2 samePrev.2 sameNext.2 last⟩
      rw [sameNext.1 (fun same => nodup.1 (List.mem_of_getLast? same)), second]
      rfl

theorem Linked.precede {before before' after : Option α} (linked : Linked next prev before ps after)
    (nodup : ps.Nodup) (sameNext : ∀ p ∈ ps, next' p = next p)
    (samePrev : ∀ p ∈ ps, ps.head? ≠ some p → prev' p = prev p)
    (first : ∀ p, ps.head? = some p → prev' p = before') : Linked next' prev' before' ps after := by
  cases ps with
  | nil => exact linked
  | cons p ps =>
    rcases linked with ⟨_, second, rest⟩
    rw [List.forall_mem_cons] at sameNext
    rw [List.nodup_cons] at nodup
    refine ⟨first p rfl, sameNext.1.trans second, rest.frame sameNext.2 ?_⟩
    intro q member
    apply samePrev q (List.mem_cons_of_mem p member)
    intro same
    rw [List.head?_cons, Option.some.injEq] at same
    rw [same] at nodup
    exact nodup.1 member

theorem Linked.splice {before after : Option α} {ps seg seg' qs : List α}
    (linked : Linked next prev before (ps ++ (seg ++ qs)) after) (nodup : (ps ++ qs).Nodup)
    (inner : Linked next' prev' (ps.getLast?.or before) seg' (qs.head?.or after))
    (sameNext : ∀ p ∈ ps ++ qs, ps.getLast? ≠ some p → next' p = next p)
    (samePrev : ∀ p ∈ ps ++ qs, qs.head? ≠ some p → prev' p = prev p)
    (last : ∀ p, ps.getLast? = some p → next' p = (seg' ++ qs).head?.or after)
    (first : ∀ p, qs.head? = some p → prev' p = (ps ++ seg').getLast?.or before) :
    Linked next' prev' before (ps ++ (seg' ++ qs)) after := by
  rw [linked_append, linked_append] at linked
  rw [List.nodup_append] at nodup
  rw [List.forall_mem_append] at sameNext samePrev
  rcases nodup with ⟨nodup, nodup', apart⟩
  rw [linked_append, linked_append]
  refine ⟨linked.1.follow nodup ?_ sameNext.1 last, inner, linked.2.2.precede nodup' ?_ samePrev.2 ?_⟩
  · intro p member
    apply samePrev.1 p member
    intro same
    exact apart p member p (List.mem_of_head? same) rfl
  · intro p member
    apply sameNext.2 p member
    intro same
    exact apart p (List.mem_of_getLast? same) p member rfl
  · intro p same
    rw [first p same, List.getLast?_append, Option.or_assoc]

theorem Linked.at_ {ps qs : List α} {p : α} (linked : Linked next prev before (ps ++ p :: qs) after) :
    prev p = ps.getLast?.or before ∧ next p = qs.head?.or after := by
  rw [linked_append] at linked
  exact ⟨linked.2.1, linked.2.2.1⟩

end Scc.Lib
