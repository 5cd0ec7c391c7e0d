import Mathlib.Algebra.Ring.Nat
import Mathlib.Data.List.Induction

/-!
# A buffer whose room is counted apart

A program writes a text into a buffer and counts the room that is left on its own. Each write asks whether
the counted room is enough, writes its text and takes its cost from the room, and a step back removes the
blanks at the end of the text and gives their room back. What is written and not paid for makes the
counted room larger than the real one. The cursor leaves the buffer exactly where a text passes the end,
or a step back the start, and nothing up to it was refused.
-/

namespace Scc.Lib.Budget

set_option autoImplicit false

universe u

/-- A write asks for `need` characters and takes `cost`. -/
inductive Op (α : Type u)
  | write (need : Nat) (text : List α) (cost : Nat)
  | back
  | fail

/-- What is written, backwards, and the room that is counted. -/
structure Cursor (α : Type u) where
  written : List α
  room : Nat

inductive Stop
  | full
  | outside
  | failed
deriving DecidableEq

section Run

variable {α : Type u} (blank : α → Bool) (size : Nat) (ahead : α)

/-- One step; `ahead` stands in front of the buffer. -/
def perform (cur : Cursor α) : Op α → Except Stop (Cursor α)
  | .write need text cost =>
    if cur.room < need then .error .full
    else if size < cur.written.length + text.length then .error .outside
    else .ok ⟨text.reverse ++ cur.written, cur.room - cost⟩
  | .back =>
    if blank ahead && cur.written.all blank then .error .outside
    else .ok ⟨cur.written.dropWhile blank, cur.room + (cur.written.takeWhile blank).length⟩
  | .fail => .error .failed

def run : List (Op α) → Cursor α → Except Stop (Cursor α)
  | [], cur => .ok cur
  | op :: ops, cur =>
    match perform blank size ahead cur op with
    | .ok next => run ops next
    | .error stop => .error stop

variable {blank size ahead}

theorem perform_write {need cost room : Nat} {text written : List α} (enough : need ≤ room)
    (fits : written.length + text.length ≤ size) :
    perform blank size ahead ⟨written, room⟩ (.write need text cost) =
      .ok ⟨text.reverse ++ written, room - cost⟩ := by
  rw [perform, if_neg (Nat.not_lt_of_le enough), if_neg (Nat.not_lt_of_le fits)]

theorem perform_outside {need cost room : Nat} {text written : List α} (enough : need ≤ room)
    (passes : size < written.length + text.length) :
    perform blank size ahead ⟨written, room⟩ (.write need text cost) = .error .outside := by
  rw [perform, if_neg (Nat.not_lt_of_le enough), if_pos passes]

variable (blank size ahead)

/-- The text of some steps in a buffer without an end, backwards. -/
def plain : List (Op α) → List α → List α
  | [], written => written
  | .write _ text _ :: ops, written => plain ops (text.reverse ++ written)
  | .back :: ops, written => plain ops (written.dropWhile blank)
  | .fail :: ops, written => plain ops written

def Op.unpaid : Op α → Nat
  | .write _ text cost => text.length - cost
  | _ => 0

/-- The characters that are written and not paid for. -/
def unpaid (ops : List (Op α)) : Nat := (ops.map Op.unpaid).sum

/-- A write pays for no more than it has asked for and writes. -/
def Op.Sound : Op α → Prop
  | .write need text cost => cost ≤ need ∧ cost ≤ text.length
  | _ => True

def Op.Paid : Op α → Prop
  | .write need text cost => cost = text.length ∧ text.length ≤ need
  | _ => True

/-- The step is refused behind these ones: it asks for more than what is left of the size and of the
characters that are not paid for. -/
def Refused (before : List (Op α)) : Op α → Prop
  | .write need _ _ => size + unpaid before < (plain blank before []).length + need
  | .back => False
  | .fail => True

/-- The step behind these ones leaves the buffer. -/
def Leaves (before : List (Op α)) : Op α → Prop
  | .write _ text _ => size < (plain blank before []).length + text.length
  | .back => blank ahead = true ∧ (plain blank before []).all blank = true
  | .fail => False

/-- Where a step leaves the buffer, it or one in front of it is refused. -/
def Guarded (ops : List (Op α)) : Prop :=
  ∀ before op after, ops = before ++ op :: after → Leaves blank size ahead before op →
    ∃ before' op' after', before ++ [op] = before' ++ op' :: after' ∧
      Refused blank size before' op'

theorem plain_append (ops ops' : List (Op α)) (written : List α) :
    plain blank (ops ++ ops') written = plain blank ops' (plain blank ops written) := by
  induction ops generalizing written with
  | nil => rfl
  | cons op ops ih =>
    cases op with
    | write need text cost => exact ih _
    | back => exact ih _
    | fail => exact ih _

theorem unpaid_append (ops ops' : List (Op α)) : unpaid (ops ++ ops') = unpaid ops + unpaid ops' := by
  unfold unpaid
  rw [List.map_append, List.sum_append]

theorem unpaid_single (op : Op α) : unpaid [op] = op.unpaid := by
  unfold unpaid
  rw [List.map_singleton, List.sum_singleton]

theorem run_append (ops ops' : List (Op α)) (cur : Cursor α) : run blank size ahead (ops ++ ops') cur =
      match run blank size ahead ops cur with
      | .ok next => run blank size ahead ops' next
      | .error stop => .error stop := by
  induction ops generalizing cur with
  | nil => rfl
  | cons op ops ih =>
    rw [List.cons_append, run, run]
    cases perform blank size ahead cur op with
    | ok next => exact ih next
    | error stop => rfl

theorem run_single (op : Op α) (cur : Cursor α) :
    run blank size ahead [op] cur = perform blank size ahead cur op := by
  rw [run]
  cases perform blank size ahead cur op <;> rfl

/-- A cursor behind some steps: its text is theirs, and the counted room is what is left of the size
and of the characters that are not paid for. -/
def Behind (ops : List (Op α)) (cur : Cursor α) : Prop :=
  cur.written = plain blank ops [] ∧ cur.room + cur.written.length = size + unpaid ops

variable {blank size ahead}

theorem perform_behind {before : List (Op α)} {op : Op α} {cur next : Cursor α} (sound : op.Sound)
    (behind : Behind blank size before cur) (done : perform blank size ahead cur op = .ok next) :
    Behind blank size (before ++ [op]) next := by
  have ⟨text, room⟩ := behind
  unfold Behind
  rw [plain_append, unpaid_append, unpaid_single, ← text]
  cases op with
  | write need text' cost =>
    have ⟨le, le'⟩ := sound
    unfold perform at done
    dsimp only at done
    split_ifs at done
    cases done
    refine ⟨rfl, ?_⟩
    change cur.room - cost + (text'.reverse ++ cur.written).length =
      size + (unpaid before + (text'.length - cost))
    rw [List.length_append, List.length_reverse]
    omega
  | back =>
    unfold perform at done
    dsimp only at done
    split_ifs at done
    cases done
    refine ⟨rfl, ?_⟩
    have whole := congrArg List.length (@List.takeWhile_append_dropWhile _ blank cur.written)
    rw [List.length_append] at whole
    change cur.room + (cur.written.takeWhile blank).length + (cur.written.dropWhile blank).length =
      size + (unpaid before + 0)
    omega
  | fail => cases done

theorem run_behind {ops : List (Op α)} {cur : Cursor α} (sound : ∀ op ∈ ops, op.Sound)
    (done : run blank size ahead ops ⟨[], size⟩ = .ok cur) : Behind blank size ops cur := by
  induction ops using List.reverseRecOn generalizing cur with
  | nil =>
    cases done
    exact ⟨rfl, rfl⟩
  | append_singleton ops op ih =>
    rw [run_append] at done
    split at done
    · rename_i middle reached
      rw [run_single] at done
      exact perform_behind (sound op (List.mem_append_right _ List.mem_cons_self))
        (ih (fun op member => sound op (List.mem_append_left _ member)) reached) done
    · cases done

theorem perform_cases {before : List (Op α)} {op : Op α} {cur : Cursor α}
    (behind : Behind blank size before cur) : (∃ stop, stop ≠ .outside ∧ Refused blank size before op ∧
      perform blank size ahead cur op = .error stop) ∨
    (¬ Refused blank size before op ∧ Leaves blank size ahead before op ∧
      perform blank size ahead cur op = .error .outside) ∨
    ¬ Refused blank size before op ∧ ¬ Leaves blank size ahead before op ∧
      ∃ next, perform blank size ahead cur op = .ok next := by
  have ⟨text, room⟩ := behind
  cases op with
  | write need text' cost =>
    unfold Refused Leaves perform
    rw [← text]
    dsimp only
    by_cases short : cur.room < need
    · rw [if_pos short]
      exact Or.inl ⟨.full, nofun, by omega, rfl⟩
    · rw [if_neg short]
      by_cases passes : size < cur.written.length + text'.length
      · rw [if_pos passes]
        exact Or.inr (Or.inl ⟨by omega, passes, rfl⟩)
      · rw [if_neg passes]
        exact Or.inr (Or.inr ⟨by omega, passes, _, rfl⟩)
  | back =>
    unfold Refused Leaves perform
    rw [← text]
    dsimp only
    rw [← Bool.and_eq_true]
    by_cases passes : (blank ahead && cur.written.all blank) = true
    · rw [if_pos passes]
      exact Or.inr (Or.inl ⟨id, passes, rfl⟩)
    · rw [if_neg passes]
      exact Or.inr (Or.inr ⟨id, passes, _, rfl⟩)
  | fail => exact Or.inl ⟨.failed, nofun, trivial, rfl⟩

theorem run_reaches {ops before after : List (Op α)} (sound : ∀ op ∈ ops, op.Sound)
    (inside : run blank size ahead ops ⟨[], size⟩ ≠ .error .outside) (split : ops = before ++ after)
    (free : ∀ before' op' after', before = before' ++ op' :: after' → ¬ Refused blank size before' op') :
    ∃ cur, run blank size ahead before ⟨[], size⟩ = .ok cur := by
  induction before using List.reverseRecOn generalizing after with
  | nil => exact ⟨_, rfl⟩
  | append_singleton before op ih =>
    rw [List.append_assoc] at split
    have ⟨cur, reached⟩ := ih split (by
      intro before' op' after' same
      apply free before' op' (after' ++ [op])
      rw [same, List.append_assoc, List.cons_append])
    have behind := run_behind (fun op member => sound op (by
      rw [split]
      exact List.mem_append_left _ member)) reached
    have here := free before op [] rfl
    rw [run_append, reached]
    dsimp only
    rw [run_single]
    rcases @perform_cases α blank size ahead before op cur behind with
      ⟨_, _, refused, _⟩ | ⟨_, _, left⟩ | ⟨_, _, goes⟩
    · exact absurd refused here
    · apply absurd _ inside
      rw [split, run_append, reached]
      dsimp only
      rw [List.singleton_append, run, left]
    · exact goes

theorem run_outside {ops : List (Op α)} {cur : Cursor α}
    (outside : run blank size ahead ops cur = .error .outside) :
    ∃ before op after middle, ops = before ++ op :: after ∧ run blank size ahead before cur = .ok middle ∧
      perform blank size ahead middle op = .error .outside := by
  induction ops generalizing cur with
  | nil => cases outside
  | cons op ops ih =>
    rw [run] at outside
    cases stepped : perform blank size ahead cur op with
    | error stop =>
      rw [stepped] at outside
      cases outside
      exact ⟨[], op, ops, cur, rfl, rfl, stepped⟩
    | ok next =>
      rw [stepped] at outside
      have ⟨before, op', after, middle, split, reached, left⟩ := ih outside
      refine ⟨op :: before, op', after, middle, ?_, ?_, left⟩
      · rw [split, List.cons_append]
      · rw [run, stepped]
        exact reached

theorem inside_iff_guarded {ops : List (Op α)} (sound : ∀ op ∈ ops, op.Sound) :
    run blank size ahead ops ⟨[], size⟩ ≠ .error .outside ↔ Guarded blank size ahead ops := by
  constructor
  · intro inside before op after split leaves
    by_contra free
    have free' : ∀ before' op' after', before ++ [op] = before' ++ op' :: after' →
        ¬ Refused blank size before' op' :=
      fun before' op' after' same refused => free ⟨before', op', after', same, refused⟩
    have whole : ops = (before ++ [op]) ++ after := by
      rw [split, List.append_assoc, List.singleton_append]
    have ⟨last, reached⟩ := run_reaches sound inside whole free'
    rw [run_append] at reached
    split at reached
    · rename_i cur early
      have behind := run_behind (fun op member => sound op (by
        rw [split]
        exact List.mem_append_left _ member)) early
      rw [run_single] at reached
      rcases @perform_cases α blank size ahead before op cur behind with
        ⟨_, _, _, stopped⟩ | ⟨_, _, stopped⟩ | ⟨_, stays, _⟩
      · rw [stopped] at reached
        cases reached
      · rw [stopped] at reached
        cases reached
      · exact stays leaves
    · cases reached
  · intro guarded outside
    have ⟨before, op, after, middle, split, reached, left⟩ := run_outside outside
    have all : ∀ op ∈ before, op.Sound := fun op member => sound op (by
      rw [split]
      exact List.mem_append_left _ member)
    rcases @perform_cases α blank size ahead before op middle (run_behind all reached) with
      ⟨stop, other, _, stopped⟩ | ⟨here, leaves, _⟩ | ⟨_, _, next, goes⟩
    · rw [stopped] at left
      cases left
      exact other rfl
    · have ⟨before', op', after', same, refused⟩ := guarded before op after split leaves
      cases after' using List.reverseRecOn with
      | nil =>
        have ⟨first, second⟩ := List.append_inj' same rfl
        cases second
        rw [first] at here
        exact here refused
      | append_singleton after' last _ =>
        have parts : before ++ [op] = (before' ++ op' :: after') ++ [last] := by
          rw [same, List.append_assoc, List.cons_append]
        have ⟨first, _⟩ := List.append_inj' parts rfl
        rw [first, run_append] at reached
        split at reached
        · rename_i cur early
          have sound' := run_behind (fun op member => all op (by
            rw [first]
            exact List.mem_append_left _ member)) early
          rw [run] at reached
          rcases @perform_cases α blank size ahead before' op' cur sound' with
            ⟨_, _, _, stopped⟩ | ⟨free, _⟩ | ⟨free, _⟩
          · rw [stopped] at reached
            cases reached
          · exact free refused
          · exact free refused
        · cases reached
    · rw [goes] at left
      cases left

theorem run_length {ops : List (Op α)} {cur last : Cursor α} (fits : cur.written.length ≤ size)
    (done : run blank size ahead ops cur = .ok last) : last.written.length ≤ size := by
  induction ops generalizing cur with
  | nil =>
    cases done
    exact fits
  | cons op ops ih =>
    rw [run] at done
    cases stepped : perform blank size ahead cur op with
    | error stop =>
      rw [stepped] at done
      cases done
    | ok next =>
      rw [stepped] at done
      apply ih _ done
      cases op with
      | write need text cost =>
        unfold perform at stepped
        dsimp only at stepped
        split_ifs at stepped with _ passes
        cases stepped
        dsimp only
        rw [List.length_append, List.length_reverse]
        omega
      | back =>
        unfold perform at stepped
        dsimp only at stepped
        split_ifs at stepped
        cases stepped
        exact Nat.le_trans (List.dropWhile_suffix blank).length_le fits
      | fail => cases stepped

theorem inside_of_paid {ops : List (Op α)} (start : blank ahead = false) (paid : ∀ op ∈ ops, op.Paid) :
    run blank size ahead ops ⟨[], size⟩ ≠ .error .outside := by
  have sound : ∀ op ∈ ops, op.Sound := by
    intro op member
    cases op with
    | write need text cost =>
      have ⟨same, le⟩ := paid _ member
      exact ⟨by omega, by omega⟩
    | back => exact trivial
    | fail => exact trivial
  have free : ∀ before : List (Op α), (∀ op ∈ before, op ∈ ops) → unpaid before = 0 := by
    intro before inside
    induction before with
    | nil => rfl
    | cons op before ih =>
      have first := inside op List.mem_cons_self
      have later := ih fun op member => inside op (List.mem_cons_of_mem _ member)
      rw [← List.singleton_append, unpaid_append, later, unpaid_single]
      cases op with
      | write need text cost =>
        have ⟨same, _⟩ := paid _ first
        rw [Op.unpaid, same, Nat.sub_self]
      | back => rfl
      | fail => rfl
  rw [inside_iff_guarded sound]
  intro before op after split leaves
  have none_ := free before fun op member => by
    rw [split]
    exact List.mem_append_left _ member
  refine ⟨before, op, [], rfl, ?_⟩
  cases op with
  | write need text cost =>
    have ⟨_, le⟩ := paid (.write need text cost) (by
      rw [split]
      exact List.mem_append_right _ List.mem_cons_self)
    unfold Leaves at leaves
    unfold Refused
    dsimp only at leaves ⊢
    omega
  | back =>
    have hit := leaves.1
    rw [start] at hit
    cases hit
  | fail => exact trivial

end Run

end Scc.Lib.Budget
