import Mathlib.Data.List.Nodup

/-!
# Hash chains in order of creation

Objects are numbered by their creation and linked at the head of the chain of
their bucket, so a chain runs from the youngest to the oldest. Taking out the
youngest objects one by one, starting with the last, finds each of them at the
head of its chain and leaves the chains without them. A chain whose members have
different keys is searched by key.
-/

namespace Scc.Lib.Chain

set_option autoImplicit false

variable {Bucket : Type*} [DecidableEq Bucket]

def set (chains : Bucket → List Nat) (bucket : Bucket) (chain : List Nat) (other : Bucket) :
    List Nat :=
  if other = bucket then chain else chains other

@[simp] theorem set_same (chains : Bucket → List Nat) (bucket : Bucket) (chain : List Nat) :
    set chains bucket chain bucket = chain := by
  simp [set]

variable {chain : List Nat} {chains : Bucket → List Nat} {id : Nat} {bucketOf : Nat → Option Bucket}

theorem set_other {bucket other : Bucket}
    (different : other ≠ bucket) : set chains bucket chain other = chains other := by
  simp [set, different]

/-- Take the objects out in the order of the list. An object without a bucket is
in no chain; an object that is not at the head of its chain is an error. -/
def unlink (bucketOf : Nat → Option Bucket) :
    List Nat → (Bucket → List Nat) → Option (Bucket → List Nat)
  | [], chains => some chains
  | id :: rest, chains =>
    match bucketOf id with
    | none => unlink bucketOf rest chains
    | some bucket =>
      if (chains bucket).head? = some id then
        unlink bucketOf rest (set chains bucket (chains bucket).tail)
      else none

/-- The objects are the youngest ones of all chains, the last created first. -/
structure Youngest (bucketOf : Nat → Option Bucket) (chains : Bucket → List Nat)
    (ids : List Nat) : Prop where
  decreasing : ids.Pairwise (· > ·)
  chainDecreasing : ∀ bucket, (chains bucket).Pairwise (· > ·)
  linked : ∀ id ∈ ids, ∀ bucket, bucketOf id = some bucket → id ∈ chains bucket
  placed : ∀ id ∈ ids, ∀ bucket, id ∈ chains bucket → bucketOf id = some bucket
  older : ∀ bucket, ∀ other ∈ chains bucket, other ∉ ids → ∀ id ∈ ids, other < id

theorem head_of_decreasing (decreasing : chain.Pairwise (· > ·))
    (member : id ∈ chain) (largest : ∀ other ∈ chain, other ≤ id) : chain.head? = some id := by
  cases chain with
  | nil => cases member
  | cons top below =>
    have topBound : top ≤ id := largest top List.mem_cons_self
    rcases List.mem_cons.mp member with same | later
    · rw [same]
      rfl
    · have below : top > id := (List.pairwise_cons.mp decreasing).1 id later
      omega

theorem tail_eq_filter (decreasing : chain.Pairwise (· > ·))
    (head : chain.head? = some id) : chain.tail = chain.filter fun other => other ≠ id := by
  cases chain with
  | nil => cases head
  | cons top below =>
    have same : top = id := by simpa using head
    subst same
    have lower := (List.pairwise_cons.mp decreasing).1
    rw [List.filter_cons_of_neg (by simp)]
    refine (List.filter_eq_self.mpr ?_).symm
    intro other member
    have less : top > other := lower other member
    simpa using Nat.ne_of_lt less

theorem filter_absent (absent : id ∉ chain) : chain.filter (fun other => other ≠ id) = chain := by
  refine List.filter_eq_self.mpr ?_
  intro other member
  have different : other ≠ id := by
    rintro rfl
    exact absent member
  simpa using different

omit [DecidableEq Bucket] in
theorem Youngest.head {rest : List Nat} (youngest : Youngest bucketOf chains (id :: rest)) {bucket : Bucket}
    (placed : bucketOf id = some bucket) : (chains bucket).head? = some id := by
  apply head_of_decreasing (youngest.chainDecreasing bucket)
  · exact youngest.linked id List.mem_cons_self bucket placed
  · intro other member
    by_cases inIds : other ∈ id :: rest
    · rcases List.mem_cons.mp inIds with rfl | later
      · exact Nat.le_refl other
      · exact Nat.le_of_lt ((List.pairwise_cons.mp youngest.decreasing).1 other later)
    · exact Nat.le_of_lt (youngest.older bucket other member inIds id List.mem_cons_self)

omit [DecidableEq Bucket] in
theorem Youngest.rest {chains next : Bucket → List Nat}
    {rest : List Nat} (youngest : Youngest bucketOf chains (id :: rest))
    (without : ∀ bucket, next bucket = (chains bucket).filter fun other => other ≠ id) :
    Youngest bucketOf next rest := by
  have decreasing := List.pairwise_cons.mp youngest.decreasing
  have different : ∀ other ∈ rest, other ≠ id := by
    intro other member
    exact Nat.ne_of_lt (decreasing.1 other member)
  refine ⟨decreasing.2, ?_, ?_, ?_, ?_⟩
  · intro bucket
    rw [without bucket]
    exact (youngest.chainDecreasing bucket).filter _
  · intro other member bucket placed
    rw [without bucket, List.mem_filter]
    refine ⟨youngest.linked other (List.mem_cons_of_mem id member) bucket placed, ?_⟩
    simpa using different other member
  · intro other member bucket inChain
    rw [without bucket, List.mem_filter] at inChain
    exact youngest.placed other (List.mem_cons_of_mem id member) bucket inChain.1
  · intro bucket other inChain notIn other' member
    rw [without bucket, List.mem_filter] at inChain
    refine youngest.older bucket other inChain.1 ?_ other' (List.mem_cons_of_mem id member)
    intro inIds
    rcases List.mem_cons.mp inIds with rfl | later
    · simp at inChain
    · exact notIn later

theorem unlink_youngest {ids : List Nat} (youngest : Youngest bucketOf chains ids) :
    ∃ next, unlink bucketOf ids chains = some next ∧
      ∀ bucket, next bucket = (chains bucket).filter fun other => other ∉ ids := by
  induction ids generalizing chains with
  | nil =>
    refine ⟨chains, rfl, ?_⟩
    intro bucket
    simp
  | cons id rest ih =>
    have joined : ∀ chain : List Nat,
        (chain.filter fun other => other ≠ id).filter (fun other => other ∉ rest) =
          chain.filter fun other => other ∉ id :: rest := by
      intro chain
      rw [List.filter_filter]
      congr 1
      funext other
      simp [Bool.and_comm]
    cases placed : bucketOf id with
    | none =>
      have without : ∀ bucket, chains bucket =
          (chains bucket).filter fun other => other ≠ id := by
        intro bucket
        rw [filter_absent]
        intro inChain
        have bucketed := youngest.placed id List.mem_cons_self bucket inChain
        rw [placed] at bucketed
        cases bucketed
      obtain ⟨next, done, result⟩ := ih (youngest.rest without)
      refine ⟨next, by simp [unlink, placed, done], ?_⟩
      intro bucket
      rw [result bucket, ← joined, ← without bucket]
    | some bucket =>
      have atHead := youngest.head placed
      have without : ∀ other, set chains bucket (chains bucket).tail other =
          (chains other).filter fun other => other ≠ id := by
        intro other
        by_cases here : other = bucket
        · subst here
          rw [set_same]
          exact tail_eq_filter (youngest.chainDecreasing other) atHead
        · rw [set_other here, filter_absent]
          intro inChain
          have bucketed := youngest.placed id List.mem_cons_self other inChain
          rw [placed] at bucketed
          exact here (Option.some.inj bucketed).symm
      obtain ⟨next, done, result⟩ := ih (youngest.rest without)
      refine ⟨next, by simp [unlink, placed, atHead, done], ?_⟩
      intro other
      rw [result other, without other, joined]

theorem find_unique {Key : Type*} {key : Nat → Key} {test : Nat → Bool} {wanted : Key}
    (unique : chain.Pairwise fun left right => key left ≠ key right)
    (decides : ∀ other ∈ chain, test other = true ↔ key other = wanted) (member : id ∈ chain)
    (has : key id = wanted) : chain.find? test = some id := by
  induction chain with
  | nil => cases member
  | cons top below ih =>
    have first := decides top List.mem_cons_self
    rcases List.mem_cons.mp member with rfl | later
    · rw [List.find?_cons_of_pos (first.mpr has)]
    · have different : key top ≠ key id := (List.pairwise_cons.mp unique).1 id later
      have failed : ¬ test top = true := by
        rw [first, ← has]
        exact different
      rw [List.find?_cons_of_neg failed]
      exact ih (List.pairwise_cons.mp unique).2
        (fun other inBelow => decides other (List.mem_cons_of_mem top inBelow)) later

end Scc.Lib.Chain
