import Mathlib.Data.List.Perm.Basic
import Mathlib.Data.List.Nodup

/-!
# Rings

A segment of a list is threaded from one node up to another one. A ring is a segment that comes back to
where it begins, and it is one from each of its nodes. A loop that goes around a ring comes to every node.
-/

namespace Scc.Lib

set_option autoImplicit false

variable {α : Type*} {next next' : α → α}

/-- The nodes from one node on, up to another one that ends them. -/
def Segment (next : α → α) : α → List α → α → Prop
  | p, [], q => p = q
  | p, x :: xs, q => p = x ∧ Segment next (next x) xs q

variable {p q r : α} {xs ys : List α}

theorem segment_append (xs ys : List α) :
    Segment next p (xs ++ ys) q ↔ ∃ m, Segment next p xs m ∧ Segment next m ys q := by
  induction xs generalizing p with
  | nil => simp [Segment]
  | cons x xs ih => simp [Segment, ih, and_assoc]

/-- A node in the middle of a segment. -/
theorem segment_middle (xs ys : List α) (x : α) :
    Segment next p (xs ++ x :: ys) q ↔ Segment next p xs x ∧ Segment next (next x) ys q := by
  rw [segment_append]
  constructor
  · rintro ⟨m, first, rfl, last⟩
    exact ⟨first, last⟩
  · rintro ⟨first, last⟩
    exact ⟨x, first, rfl, last⟩

theorem Segment.frame (segment : Segment next p xs q) (same : ∀ x ∈ xs, next' x = next x) :
    Segment next' p xs q := by
  induction xs generalizing p with
  | nil => exact segment
  | cons x xs ih =>
    rw [List.forall_mem_cons] at same
    refine ⟨segment.1, ?_⟩
    rw [same.1]
    exact ih segment.2 same.2

theorem Segment.start (segment : Segment next p xs q) : p = xs.head?.getD q := by
  cases xs with
  | nil => exact segment
  | cons x xs => exact segment.1

/-- What follows a node is behind it, or the node that ends the segment. -/
theorem Segment.follows {x : α} (segment : Segment next p (xs ++ x :: ys) q) : next x ∈ ys ++ [q] := by
  rw [segment_middle] at segment
  rw [segment.2.start]
  cases ys <;> simp

/-- A ring begins at each of its nodes. -/
theorem Segment.rotate (ring : Segment next p xs p) (member : q ∈ xs) :
    ∃ ys, (q :: ys).Perm xs ∧ Segment next q (q :: ys) q := by
  rcases List.append_of_mem member with ⟨before, after, rfl⟩
  rw [segment_middle] at ring
  refine ⟨after ++ before, ?_, rfl, ?_⟩
  · exact @List.perm_append_comm _ (q :: after) before
  · rw [segment_append]
    exact ⟨p, ring.2, ring.1⟩

theorem Segment.map_next (segment : Segment next p xs q) : p :: xs.map next = xs ++ [q] := by
  induction xs generalizing p with
  | nil =>
    have same : p = q := segment
    rw [same]
    rfl
  | cons x xs ih =>
    rw [segment.1, List.map_cons, ih segment.2, List.cons_append]

/-- No two nodes of a ring are followed by the same one. -/
theorem Segment.injective (ring : Segment next p (p :: xs) p) (nodup : (p :: xs).Nodup)
    (first : q ∈ p :: xs) (second : r ∈ p :: xs) (same : next q = next r) : q = r := by
  have around : (p :: xs).map next = xs ++ [p] := List.cons.inj ring.map_next |>.2
  have distinct : ((p :: xs).map next).Nodup := by
    rw [around]
    exact (List.perm_append_singleton p xs).nodup_iff.mpr nodup
  exact List.inj_on_of_nodup_map distinct first second same

/-- Go from node to node up to one at which the loop stops. -/
def seek (next : α → α) (stop : α → Bool) : Nat → α → Option α
  | 0, _ => none
  | fuel + 1, p => if stop p then some p else seek next stop fuel (next p)

variable {stop : α → Bool}

theorem Segment.seek (segment : Segment next p xs q) (goesOn : ∀ x ∈ xs, stop x = false) (fuel : Nat) :
    seek next stop (xs.length + fuel) p = Lib.seek next stop fuel q := by
  induction xs generalizing p with
  | nil =>
    have same : p = q := segment
    rw [same, List.length_nil, Nat.zero_add]
  | cons x xs ih =>
    rw [List.forall_mem_cons] at goesOn
    rw [List.length_cons, Nat.add_right_comm, Lib.seek, segment.1, goesOn.1]
    exact ih segment.2 goesOn.2

/-- A loop around a ring finds the one node at which it stops, from wherever it begins. -/
theorem seek_ring (ring : Segment next p xs p) (start : q ∈ xs) (target : r ∈ xs) (stops : stop r = true)
    (only : ∀ x ∈ xs, stop x = true → x = r) {fuel : Nat} (enough : xs.length ≤ fuel) :
    seek next stop fuel q = some r := by
  rcases ring.rotate start with ⟨ys, perm, around⟩
  rw [← perm.mem_iff] at target
  rcases List.eq_append_cons_of_mem target with ⟨before, after, split, absent⟩
  rw [split, segment_middle] at around
  have goesOn : ∀ x ∈ before, stop x = false := by
    intro x member
    by_contra stopped
    have same := only x (by rw [← perm.mem_iff, split]; simp [member]) (by simpa using stopped)
    exact absent (same ▸ member)
  have length := perm.length_eq
  rw [split, List.length_append, List.length_cons] at length
  rw [show fuel = before.length + ((fuel - before.length - 1) + 1) by omega,
    around.1.seek goesOn, Lib.seek, if_pos stops]

end Scc.Lib
