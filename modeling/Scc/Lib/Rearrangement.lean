import Mathlib.Logic.Equiv.Basic

/-!
# Rearrangements of a part of a memory

A memory gives every place an element. One is a rearrangement of another within a range when a
permutation of the places that fixes the ones outside of the range leads from one to the other.
-/

namespace Scc.Lib

set_option autoImplicit false

universe u

variable {α : Type u} {lo hi lo' hi' : Nat} {f g h : Nat → α}

def Rearranges (lo hi : Nat) (f g : Nat → α) : Prop :=
  ∃ σ : Equiv.Perm Nat, (∀ k, k < lo ∨ hi ≤ k → σ k = k) ∧ ∀ k, g k = f (σ k)

/-- The elements at two places change places. -/
def exchange (f : Nat → α) (i j : Nat) : Nat → α := fun k => if k = i then f j else if k = j then f i else f k

theorem exchange_left (f : Nat → α) (i j : Nat) : exchange f i j i = f j := if_pos rfl

theorem exchange_right (f : Nat → α) (i j : Nat) : exchange f i j j = f i := by
  unfold exchange
  rw [if_pos rfl]
  split_ifs with same
  · rw [same]
  · rfl

theorem exchange_other (f : Nat → α) {i j k : Nat} (left : k ≠ i) (right : k ≠ j) : exchange f i j k = f k := by
  unfold exchange
  rw [if_neg left, if_neg right]

namespace Rearranges

theorem refl (lo hi : Nat) (f : Nat → α) : Rearranges lo hi f f := ⟨Equiv.refl Nat, fun _ _ => rfl, fun _ => rfl⟩

theorem trans (first : Rearranges lo hi f g) (second : Rearranges lo hi g h) : Rearranges lo hi f h := by
  rcases first with ⟨σ, fixed, same⟩
  rcases second with ⟨τ, fixed', same'⟩
  refine ⟨τ.trans σ, fun k outside => ?_, fun k => ?_⟩
  · rw [Equiv.trans_apply, fixed' k outside, fixed k outside]
  · rw [same' k, same (τ k), Equiv.trans_apply]

theorem mono (small : Rearranges lo hi f g) (below : lo' ≤ lo) (above : hi ≤ hi') : Rearranges lo' hi' f g := by
  rcases small with ⟨σ, fixed, same⟩
  exact ⟨σ, fun k outside => fixed k (by omega), same⟩

theorem exchange {i j : Nat} (first : lo ≤ i ∧ i < hi) (second : lo ≤ j ∧ j < hi) (f : Nat → α) :
    Rearranges lo hi f (exchange f i j) := by
  refine ⟨Equiv.swap i j, fun k outside => ?_, fun k => ?_⟩
  · exact Equiv.swap_apply_of_ne_of_ne (by omega) (by omega)
  · unfold Lib.exchange
    rw [Equiv.swap_apply_def]
    split_ifs <;> rfl

theorem outside (part : Rearranges lo hi f g) {k : Nat} (out : k < lo ∨ hi ≤ k) : g k = f k := by
  rcases part with ⟨σ, fixed, same⟩
  rw [same k, fixed k out]

theorem inside (part : Rearranges lo hi f g) {p : α → Prop} (all : ∀ k, lo ≤ k → k < hi → p (f k)) :
    ∀ k, lo ≤ k → k < hi → p (g k) := by
  rcases part with ⟨σ, fixed, same⟩
  intro k low high
  rw [same k]
  by_cases out : σ k < lo ∨ hi ≤ σ k
  · -- a place inside does not go to one that is fixed
    have back : σ k = k := σ.injective (fixed (σ k) out)
    rw [back]
    exact all k low high
  · exact all (σ k) (by omega) (by omega)

end Rearranges

end Scc.Lib
