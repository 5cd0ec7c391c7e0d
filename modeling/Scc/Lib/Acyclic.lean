import Mathlib.Data.Set.Finite.List

/-!
# Graphs without cycles

A graph is a relation from a node to its successors. When every walk ends there is no
cycle, and one more edge keeps this as long as its end does not reach its start.
-/

namespace Scc.Lib

set_option autoImplicit false

variable {α : Type*} {edge edge' : α → α → Prop}

def Acyclic (edge : α → α → Prop) : Prop := ∀ x, ¬ Relation.TransGen edge x x

def Ends (edge : α → α → Prop) : Prop := WellFounded fun successor node => edge node successor

def withEdge (edge : α → α → Prop) (a b : α) : α → α → Prop :=
  fun x y => edge x y ∨ (x = a ∧ y = b)

theorem Ends.mono (ends : Ends edge) (fewer : ∀ x y, edge' x y → edge x y) : Ends edge' :=
  Subrelation.wf (fun step => fewer _ _ step) ends

theorem ends_empty : Ends fun _ _ : α => False :=
  ⟨fun _ => ⟨_, fun _ step => step.elim⟩⟩

theorem no_cycle_of_acc {x : α} (ends : Acc (fun successor node => edge node successor) x) :
    ¬Relation.TransGen edge x x := by
  induction ends with
  | intro x _ ih =>
    intro cycle
    rcases Relation.TransGen.head'_iff.mp cycle with ⟨y, first, rest⟩
    exact ih y first (Relation.TransGen.tail' rest first)

theorem Ends.acyclic (ends : Ends edge) : Acyclic edge := fun x => no_cycle_of_acc (ends.apply x)

theorem acc_iff_no_cycle {nodes : List α} (finite : ∀ x y, edge x y → x ∈ nodes) (x : α) :
    Acc (fun successor node => edge node successor) x ↔
      ∀ y, Relation.ReflTransGen edge x y → ¬Relation.TransGen edge y y := by
  constructor
  · intro ends y reaches
    apply no_cycle_of_acc
    induction reaches with
    | refl => exact ends
    | tail _ step ih => exact ih.inv step
  · intro noCycle
    let Reached := {y : α // y ∈ nodes ∧ Relation.ReflTransGen edge x y}
    have : Finite Reached := (nodes.finite_toSet.subset fun y both => both.1).to_subtype
    let later (z y : Reached) : Prop := Relation.TransGen edge y.1 z.1
    have trans : IsTrans Reached later := ⟨fun a b c ab bc => bc.trans ab⟩
    have irrefl : Std.Irrefl later := ⟨fun y => noCycle y.1 y.2.2⟩
    have ends : WellFounded later := Finite.wellFounded_of_trans_of_irrefl later
    have all (y : α) (reaches : Relation.ReflTransGen edge x y) :
        Acc (fun successor node => edge node successor) y := by
      by_cases inner : y ∈ nodes
      · generalize node : (⟨y, inner, reaches⟩ : Reached) = reached
        induction reached using ends.induction generalizing y with
        | h reached ih =>
          constructor
          intro z step
          have z_reaches := reaches.tail step
          by_cases z_inner : z ∈ nodes
          · have next : later ⟨z, z_inner, z_reaches⟩ reached := by
              rw [← node]
              exact Relation.TransGen.single step
            exact ih ⟨z, z_inner, z_reaches⟩ next z z_reaches z_inner rfl
          · exact ⟨_, fun w last => absurd (finite z w last) z_inner⟩
      · exact ⟨_, fun z step => absurd (finite y z step) inner⟩
    exact all x Relation.ReflTransGen.refl

theorem Ends.withEdge (ends : Ends edge) {a b : α} (open_ : ¬ Relation.ReflTransGen edge b a) :
    Ends (withEdge edge a b) := by
  have fromEnd : ∀ y, Relation.ReflTransGen edge b y →
      Acc (fun successor node => Lib.withEdge edge a b node successor) y := by
    intro y
    induction y using ends.induction with
    | h y ih =>
      intro reaches
      constructor
      intro z step
      rcases step with old | ⟨rfl, rfl⟩
      · exact ih z old (reaches.tail old)
      · exact absurd reaches open_
  constructor
  intro x
  induction x using ends.induction with
  | h x ih =>
    constructor
    intro z step
    rcases step with old | ⟨rfl, rfl⟩
    · exact ih z old
    · exact fromEnd z Relation.ReflTransGen.refl

end Scc.Lib
