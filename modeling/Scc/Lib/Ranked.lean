import Mathlib.Data.List.Basic

/-!
# The last of the highest rank

Entries come one after the other and each has a rank. An entry replaces the current one
unless its rank is lower, so what remains at the end is the last entry of the highest
rank.
-/

namespace Scc.Lib

set_option autoImplicit false

variable {α : Type} (rank : α → Nat)

/-- The second entry replaces the first one unless it ranks lower. -/
def later (current next : α) : α := if rank current ≤ rank next then next else current

def lastHighest (start : α) (entries : List α) : α := entries.foldl (later rank) start

/-- `entry` is the last one of those with the highest rank. -/
def IsLastHighest (entries : List α) (entry : α) : Prop :=
  ∃ before after, entries = before ++ entry :: after ∧
    (∀ x ∈ before, rank x ≤ rank entry) ∧ ∀ x ∈ after, rank x < rank entry

variable {rank}

theorem later_of_le {a b : α} (le : rank a ≤ rank b) : later rank a b = b := if_pos le

theorem later_of_lt {a b : α} (lt : rank b < rank a) : later rank a b = a :=
  if_neg (Nat.not_le.mpr lt)

theorem later_assoc (a b c : α) : later rank (later rank a b) c = later rank a (later rank b c) := by
  unfold later
  split_ifs <;> first | rfl | omega

theorem rank_le_later_left (a b : α) : rank a ≤ rank (later rank a b) := by
  unfold later
  split_ifs <;> omega

theorem rank_le_later_right (a b : α) : rank b ≤ rank (later rank a b) := by
  unfold later
  split_ifs <;> omega

theorem lastHighest_append (start : α) (entries more : List α) : lastHighest rank start (entries ++ more) =
      lastHighest rank (lastHighest rank start entries) more := by
  simp only [lastHighest, List.foldl_append]

theorem lastHighest_snoc (start : α) (entries : List α) (entry : α) :
    lastHighest rank start (entries ++ [entry]) = later rank (lastHighest rank start entries) entry := by
  simp only [lastHighest, List.foldl_append, List.foldl_cons, List.foldl_nil]

theorem lastHighest_later (first start : α) (entries : List α) :
    lastHighest rank (later rank first start) entries =
      later rank first (lastHighest rank start entries) := by
  induction entries generalizing start with
  | nil => rfl
  | cons entry rest ih =>
    change lastHighest rank (later rank (later rank first start) entry) rest = _
    rw [later_assoc, ih]
    rfl

theorem rank_start_le (start : α) (entries : List α) :
    rank start ≤ rank (lastHighest rank start entries) := by
  induction entries generalizing start with
  | nil => exact Nat.le_refl _
  | cons entry rest ih => exact Nat.le_trans (rank_le_later_left start entry) (ih _)

theorem rank_le_lastHighest {start entry : α} {entries : List α} (member : entry ∈ entries) :
    rank entry ≤ rank (lastHighest rank start entries) := by
  induction entries generalizing start with
  | nil => simp at member
  | cons first rest ih =>
    rcases List.mem_cons.mp member with rfl | later
    · exact Nat.le_trans (rank_le_later_right start entry) (rank_start_le _ rest)
    · exact ih later

theorem lastHighest_mem (start : α) (entries : List α) :
    lastHighest rank start entries = start ∨ lastHighest rank start entries ∈ entries := by
  induction entries generalizing start with
  | nil => exact Or.inl rfl
  | cons entry rest ih =>
    have choice : later rank start entry = start ∨ later rank start entry = entry := by
      unfold later
      split_ifs <;> simp
    rcases ih (later rank start entry) with same | member
    · rcases choice with old | new
      · exact Or.inl (same.trans old)
      · exact Or.inr (List.mem_cons.mpr (Or.inl (same.trans new)))
    · exact Or.inr (List.mem_cons_of_mem _ member)

theorem lastHighest_of_lower {start : α} {entries : List α}
    (lower : ∀ x ∈ entries, rank x < rank start) : lastHighest rank start entries = start := by
  induction entries with
  | nil => rfl
  | cons entry rest ih =>
    change lastHighest rank (later rank start entry) rest = start
    rw [later_of_lt (lower entry List.mem_cons_self)]
    exact ih fun x member => lower x (List.mem_cons_of_mem _ member)

theorem IsLastHighest.eq {start entry : α} {entries : List α}
    (highest : IsLastHighest rank entries entry) (bottom : rank start ≤ rank entry) :
    lastHighest rank start entries = entry := by
  rcases highest with ⟨before, after, rfl, notHigher, lower⟩
  rw [lastHighest_append]
  have before_le : rank (lastHighest rank start before) ≤ rank entry := by
    have choice : lastHighest rank start before = start ∨ lastHighest rank start before ∈ before :=
      lastHighest_mem start before
    rcases choice with same | member
    · rw [same]
      exact bottom
    · exact notHigher _ member
  change lastHighest rank (later rank (lastHighest rank start before) entry) after = entry
  rw [later_of_le before_le]
  exact lastHighest_of_lower lower

theorem lastHighest_congr {other : α → Nat} {start : α} {entries : List α}
    (start_same : rank start = other start) (same : ∀ x ∈ entries, rank x = other x) :
    lastHighest rank start entries = lastHighest other start entries := by
  induction entries generalizing start with
  | nil => rfl
  | cons entry rest ih =>
    have entry_same := same entry List.mem_cons_self
    have step : later rank start entry = later other start entry := by
      unfold later
      rw [start_same, entry_same]
    change lastHighest rank (later rank start entry) rest =
      lastHighest other (later other start entry) rest
    rw [step]
    apply ih
    · unfold later
      split_ifs
      · exact entry_same
      · exact start_same
    · exact fun x member => same x (List.mem_cons_of_mem _ member)

end Scc.Lib
