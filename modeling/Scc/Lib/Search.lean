import Mathlib.Data.Finset.Card

/-!
# Search in depth

What has been seen is not visited again. The depth of the recursion is at most the number of nodes that
have not been seen, and what is seen in the end is what can be reached.
-/

namespace Scc.Lib

set_option autoImplicit false

universe u

variable {α : Type u}

/-- The nodes that have been seen, the last one first. -/
def search [DecidableEq α] (succs : α → List α) : Nat → List α → α → List α
  | 0, seen, _ => seen
  | depth + 1, seen, node =>
    if node ∈ seen then seen else (succs node).foldl (search succs depth) (node :: seen)

def Edge (succs : α → List α) (a b : α) : Prop := b ∈ succs a

/-- What a search adds to what has been seen when it begins with some nodes. -/
structure Searched (succs : α → List α) (seen nodes result : List α) : Prop where
  keeps : ∀ x ∈ seen, x ∈ result
  visits : ∀ x ∈ nodes, x ∈ result
  closed : ∀ x ∈ result, x ∉ seen → ∀ y ∈ succs x, y ∈ result
  reached : ∀ x ∈ result, x ∉ seen → ∃ node ∈ nodes, Relation.ReflTransGen (Edge succs) node x

section

variable {succs : α → List α} {seen middle nodes result : List α} {node : α}

theorem Searched.nil : Searched succs seen [] seen where
  keeps := fun _ mem => mem
  visits := by simp
  closed := fun _ mem notMem => absurd mem notMem
  reached := fun _ mem notMem => absurd mem notMem

theorem Searched.known (mem : node ∈ seen) : Searched succs seen [node] seen where
  keeps := fun _ mem => mem
  visits := by simp [mem]
  closed := fun _ mem notMem => absurd mem notMem
  reached := fun _ mem notMem => absurd mem notMem

theorem Searched.cons (first : Searched succs seen [node] middle)
    (rest : Searched succs middle nodes result) : Searched succs seen (node :: nodes) result where
  keeps := fun x mem => rest.keeps x (first.keeps x mem)
  visits := by
    intro x mem
    cases List.mem_cons.mp mem with
    | inl same => exact rest.keeps x (first.visits x (by simp [same]))
    | inr later => exact rest.visits x later
  closed := by
    intro x mem notMem y edge
    by_cases early : x ∈ middle
    · exact rest.keeps y (first.closed x early notMem y edge)
    · exact rest.closed x mem early y edge
  reached := by
    intro x mem notMem
    by_cases early : x ∈ middle
    · rcases first.reached x early notMem with ⟨start, isNode, path⟩
      rw [List.mem_singleton] at isNode
      exact ⟨start, by simp [isNode], path⟩
    · rcases rest.reached x mem early with ⟨start, isNode, path⟩
      exact ⟨start, List.mem_cons_of_mem _ isNode, path⟩

theorem Searched.after (below : Searched succs (node :: seen) (succs node) result) :
    Searched succs seen [node] result where
  keeps := fun x mem => below.keeps x (List.mem_cons_of_mem _ mem)
  visits := by
    intro x mem
    rw [List.mem_singleton] at mem
    exact below.keeps x (by simp [mem])
  closed := by
    intro x mem notMem y edge
    by_cases same : x = node
    · rw [same] at edge
      exact below.visits y edge
    · exact below.closed x mem (by simp [same, notMem]) y edge
  reached := by
    intro x mem notMem
    refine ⟨node, List.mem_singleton_self node, ?_⟩
    by_cases same : x = node
    · rw [same]
    · rcases below.reached x mem (by simp [same, notMem]) with ⟨next, edge, path⟩
      exact path.head edge

end

section

variable [DecidableEq α] {succs : α → List α} {all : Finset α}

/-- The nodes that a search has still to see. -/
def unseen (all : Finset α) (seen : List α) : Nat := (all \ seen.toFinset).card

theorem unseen_mono {seen result : List α} (keeps : ∀ x ∈ seen, x ∈ result) :
    unseen all result ≤ unseen all seen := by
  apply Finset.card_le_card
  apply Finset.sdiff_subset_sdiff (Finset.Subset.refl all)
  intro x mem
  rw [List.mem_toFinset] at mem ⊢
  exact keeps x mem

theorem unseen_cons {seen : List α} {node : α} (inside : node ∈ all) (notMem : node ∉ seen) :
    unseen all (node :: seen) < unseen all seen := by
  apply Finset.card_lt_card
  rw [Finset.ssubset_iff_of_subset]
  · exact ⟨node, by simp [inside, notMem], by simp⟩
  · intro x mem
    simp only [Finset.mem_sdiff, List.mem_toFinset, List.mem_cons, not_or] at mem ⊢
    exact ⟨mem.1, mem.2.2⟩

theorem searched_foldl {depth : Nat}
    (one : ∀ (seen : List α) (node : α), node ∈ all → unseen all seen ≤ depth →
      Searched succs seen [node] (search succs depth seen node))
    (nodes seen : List α) (inside : ∀ node ∈ nodes, node ∈ all) (enough : unseen all seen ≤ depth) :
    Searched succs seen nodes (nodes.foldl (search succs depth) seen) := by
  induction nodes generalizing seen with
  | nil => exact Searched.nil
  | cons node nodes ih =>
    have first := one seen node (inside node (by simp)) enough
    have left : unseen all (search succs depth seen node) ≤ depth := (unseen_mono first.keeps).trans enough
    exact first.cons (ih _ (fun next mem => inside next (List.mem_cons_of_mem _ mem)) left)

theorem searched (closed : ∀ node ∈ all, ∀ next ∈ succs node, next ∈ all) (depth : Nat) (seen : List α)
    (node : α) (inside : node ∈ all) (enough : unseen all seen ≤ depth) :
    Searched succs seen [node] (search succs depth seen node) := by
  induction depth generalizing seen node with
  | zero =>
    have known : node ∈ seen := by
      by_contra notMem
      have fewer := unseen_cons inside notMem
      omega
    exact Searched.known known
  | succ depth ih =>
    unfold search
    split_ifs with known
    · exact Searched.known known
    · have fewer := unseen_cons inside known
      exact Searched.after
        (searched_foldl ih (succs node) (node :: seen) (closed node inside) (by omega))

theorem mem_search (all : Finset α) (closed : ∀ node ∈ all, ∀ next ∈ succs node, next ∈ all) {depth : Nat}
    (enough : all.card ≤ depth) {node : α} (inside : node ∈ all) (x : α) :
    x ∈ search succs depth [] node ↔ Relation.ReflTransGen (Edge succs) node x := by
  have spec := searched closed depth [] node inside (by simpa [unseen] using enough)
  constructor
  · intro mem
    rcases spec.reached x mem (by simp) with ⟨start, same, path⟩
    rw [List.mem_singleton.mp same] at path
    exact path
  · intro path
    induction path with
    | refl => exact spec.visits node (by simp)
    | tail _ edge ih => exact spec.closed _ ih (by simp) _ edge

end

end Scc.Lib
