import Mathlib.Logic.Relation
import Mathlib.Data.List.Basic

/-!
# Unrolled graphs

A graph of labelled nodes may have cycles; what can be seen of it from a node is
its unrolling to every depth. Two labellings look the same from a node exactly when
they agree on all the nodes that it reaches.
-/

namespace Scc.Lib.Unrolling

set_option autoImplicit false

variable {Node Label : Type*}

inductive Unrolled (Label : Type*) where
  | cut
  | node (label : Label) (children : List (Unrolled Label))

def unroll (label : Node → Label) (next : Node → List Node) : Nat → Node → Unrolled Label
  | 0, _ => .cut
  | depth + 1, node => .node (label node) ((next node).map (unroll label next depth))

def Reaches (next : Node → List Node) : Node → Node → Prop :=
  Relation.ReflTransGen fun node child => child ∈ next node

variable {label label' : Node → Label} {next : Node → List Node}

theorem unroll_child {node child : Node}
    (same : ∀ depth, unroll label next depth node = unroll label' next depth node)
    (member : child ∈ next node) (depth : Nat) :
    unroll label next depth child = unroll label' next depth child := by
  have above := same (depth + 1)
  simp only [unroll, Unrolled.node.injEq] at above
  exact List.map_inj_left.mp above.2 child member

theorem unroll_reaches {root node : Node}
    (same : ∀ depth, unroll label next depth root = unroll label' next depth root)
    (reached : Reaches next root node) (depth : Nat) :
    unroll label next depth node = unroll label' next depth node := by
  induction reached generalizing depth with
  | refl => exact same depth
  | tail _ member ih => exact unroll_child ih member depth

theorem unroll_eq_of_labels {root : Node}
    (same : ∀ node, Reaches next root node → label node = label' node) (depth : Nat) :
    unroll label next depth root = unroll label' next depth root := by
  induction depth generalizing root with
  | zero => rfl
  | succ depth ih =>
    have children : (next root).map (unroll label next depth) =
        (next root).map (unroll label' next depth) := by
      apply List.map_congr_left
      intro child member
      apply ih
      intro node reached
      exact same node (Relation.ReflTransGen.head member reached)
    simp only [unroll, same root Relation.ReflTransGen.refl, children]

theorem unroll_eq_iff {root : Node} :
    (∀ depth, unroll label next depth root = unroll label' next depth root) ↔
      ∀ node, Reaches next root node → label node = label' node := by
  constructor
  · intro same node reached
    have here := unroll_reaches same reached 1
    simp only [unroll, Unrolled.node.injEq] at here
    exact here.1
  · exact fun same depth => unroll_eq_of_labels same depth

end Scc.Lib.Unrolling
