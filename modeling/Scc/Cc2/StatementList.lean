import Scc.Lib.Linked
import Mathlib.Data.List.Perm.Basic

/-!
# The statements of a function

The list of statements is changed by the functions that `apply()` calls with its statements one after the other.
`curstmt` is the statement of the call, or the last one that `addstmt()` has put into the list since. A step is
`none` when a field of no node or of a deleted one is accessed.
-/

namespace Scc.Cc2.StatementList

open Scc.Lib

set_option autoImplicit false

structure State where
  next : Nat → Option Nat
  prev : Nat → Option Nat
  /-- The nodes that are not deleted. -/
  nodes : List Nat
  /-- `curfun->u.stmt` -/
  stmt : Nat
  curstmt : Option Nat
  /-- The statement that `apply()` has passed to the function, until it returns. -/
  ocurstmt : Option Nat

def deref (s : State) (p : Option Nat) : Option Nat :=
  p.bind fun p => if p ∈ s.nodes then some p else none

def setNext (s : State) (p : Nat) (v : Option Nat) : Option State :=
  if p ∈ s.nodes then some { s with next := Function.update s.next p v } else none

def setPrev (s : State) (p : Nat) (v : Option Nat) : Option State :=
  if p ∈ s.nodes then some { s with prev := Function.update s.prev p v } else none

/-- An assignment unless the pointer is `NULL`. -/
def unlessNull (s : State) (p : Option Nat) (assign : State → Nat → Option State) : Option State :=
  match p with
  | some p => assign s p
  | none => some s

def insstmt (s : State) (np : Nat) (at_ : Option Nat) : Option State := do
  let at_ ← deref s at_
  let next := s.next at_
  let s ← unlessNull s next fun s next => setPrev s next (some np)
  let s ← setNext s at_ (some np)
  let s ← setNext s np next
  setPrev s np (some at_)

def unlinkstmt (s : State) (np : Nat) : Option State := do
  let np ← deref s (some np)
  let next := s.next np
  let prev := s.prev np
  let s ← unlessNull s next fun s next => setPrev s next prev
  let s ← unlessNull s prev fun s prev => setNext s prev next
  let s ← setNext s np none
  setPrev s np none

def prestmt (s : State) (np : Nat) : Option State := do
  let curstmt ← deref s s.curstmt
  insstmt s np (s.prev curstmt)

def addstmt (s : State) (np : Nat) : Option State := do
  let s ← insstmt s np s.curstmt
  some { s with curstmt := some np }

def delnode (s : State) (np : Nat) : Option State :=
  if np ∈ s.nodes then some { s with nodes := s.nodes.erase np } else none

def delstmt (s : State) (np : Nat) : Option (State × Option Nat) := do
  let np ← deref s (some np)
  let next := s.next np
  let s ← unlinkstmt s np
  let s ← delnode s np
  some (s, next)

/-- The loop of `delrange()`. -/
def deltrees (rnext : Option Nat) (s : State) (np : Option Nat) : Option State :=
  if np = rnext then some s
  else
    np.bind fun np =>
      if _ : np ∈ s.nodes then deltrees rnext { s with nodes := s.nodes.erase np } (s.next np) else none
termination_by s.nodes.length
decreasing_by
  rename_i member
  have := List.length_erase_of_mem member
  have := List.length_pos_of_mem member
  omega

def delrange (s : State) (begin_ end_ : Nat) : Option State := do
  let begin_ ← deref s (some begin_)
  let lprev := s.prev begin_
  let end_ ← deref s (some end_)
  let rnext := s.next end_
  let s ← unlessNull s lprev fun s lprev => setNext s lprev rnext
  let s ← unlessNull s rnext fun s rnext => setPrev s rnext lprev
  deltrees rnext s (some begin_)

/-- What happens while `apply()` runs: a new node, the calls of its function, and the return of the function with
the statement or with `NULL`. -/
inductive Event
  | node (np : Nat)
  | insstmt (np at_ : Nat)
  | prestmt (np : Nat)
  | addstmt (np : Nat)
  | unlinkstmt (np : Nat)
  | delstmt (np : Nat)
  | delrange (begin_ end_ : Nat)
  | kept
  | deleted

/-- `apply()` calls its function with the first statement. -/
def enter (s : State) : State := { s with curstmt := some s.stmt, ocurstmt := some s.stmt }

/-- `apply()` calls its function again, unless the list has ended. -/
def goOn (s : State) (np : Option Nat) : State := { s with curstmt := np, ocurstmt := np }

def step (s : State) : Event → Option State
  | .node np => if np ∈ s.nodes then none else some { s with nodes := np :: s.nodes }
  | .insstmt np at_ => insstmt s np (some at_)
  | .prestmt np => prestmt s np
  | .addstmt np => addstmt s np
  | .unlinkstmt np => unlinkstmt s np
  | .delstmt np => (delstmt s np).map Prod.fst
  | .delrange begin_ end_ => delrange s begin_ end_
  | .kept => do
    let np ← deref s s.ocurstmt
    some (goOn s (s.next np))
  | .deleted => do
    let ocurstmt ← s.ocurstmt
    let (s, np) ← delstmt s ocurstmt
    some (goOn s np)

def run (s : State) : List Event → Option State
  | [] => some s
  | event :: events => (step s event).bind fun s => run s events

/-- A statement of the list, with the calls of the function since it came into the list. -/
structure Entry where
  node : Nat
  /-- It came into the list before the statement of the call. -/
  early : Bool
  calls : Nat

/-- The statements that were put into the list and not removed, in their order. -/
structure Spec where
  entries : List Entry
  nodes : List Nat
  mark : Option Nat
  current : Option Nat

def list (entries : List Entry) : List Nat := entries.map Entry.node

def entered (np current : Nat) (later : List Entry) : Entry := ⟨np, decide (current ∈ list later), 0⟩

/-- The function is called with the first of the statements. -/
def called : List Entry → List Entry
  | [] => []
  | e :: entries => { e with calls := e.calls + 1 } :: entries

/-- The steps of a function that keeps to its part: it inserts nodes that are not in the list, and removes other
statements than the first one and its own. -/
inductive Step : Spec → Event → Spec → Prop
  | node {a : Spec} {np : Nat} (new : np ∉ a.nodes) : Step a (.node np) { a with nodes := np :: a.nodes }
  | insstmt {a : Spec} {xs ys : List Entry} {e : Entry} {np current : Nat} (during : a.current = some current)
      (place : a.entries = xs ++ e :: ys) (exists_ : np ∈ a.nodes) (outside : np ∉ list a.entries) :
      Step a (.insstmt np e.node) { a with entries := xs ++ e :: entered np current ys :: ys }
  | prestmt {a : Spec} {xs ys : List Entry} {e : Entry} {np current : Nat} (during : a.current = some current)
      (place : a.entries = xs ++ e :: ys) (marked : a.mark = some e.node) (exists_ : np ∈ a.nodes)
      (outside : np ∉ list a.entries) :
      Step a (.prestmt np) { a with entries := xs ++ entered np current (e :: ys) :: e :: ys }
  | addstmt {a : Spec} {xs ys : List Entry} {e : Entry} {np current : Nat} (during : a.current = some current)
      (place : a.entries = xs ++ e :: ys) (marked : a.mark = some e.node) (exists_ : np ∈ a.nodes)
      (outside : np ∉ list a.entries) :
      Step a (.addstmt np) { a with entries := xs ++ e :: entered np current ys :: ys, mark := some np }
  | unlinkstmt {a : Spec} {xs ys : List Entry} {e : Entry} {current : Nat} (during : a.current = some current)
      (place : a.entries = xs ++ e :: ys) (later : xs ≠ []) (other : e.node ≠ current) :
      Step a (.unlinkstmt e.node) { a with entries := xs ++ ys }
  | delstmt {a : Spec} {xs ys : List Entry} {e : Entry} {current : Nat} (during : a.current = some current)
      (place : a.entries = xs ++ e :: ys) (later : xs ≠ []) (other : e.node ≠ current) :
      Step a (.delstmt e.node) { a with entries := xs ++ ys, nodes := a.nodes.erase e.node }
  | delrange {a : Spec} {xs seg ys : List Entry} {begin_ end_ current : Nat} (during : a.current = some current)
      (place : a.entries = xs ++ (seg ++ ys)) (later : xs ≠ []) (other : current ∉ list seg)
      (first : (list seg).head? = some begin_) (last : (list seg).getLast? = some end_) :
      Step a (.delrange begin_ end_) { a with entries := xs ++ ys, nodes := a.nodes.diff (list seg) }
  | kept {a : Spec} {xs ys : List Entry} {e : Entry} (during : a.current = some e.node)
      (place : a.entries = xs ++ e :: ys) :
      Step a .kept { a with entries := xs ++ e :: called ys, mark := (list ys).head?, current := (list ys).head? }
  | deleted {a : Spec} {xs ys : List Entry} {e : Entry} (during : a.current = some e.node)
      (place : a.entries = xs ++ e :: ys) (later : xs ≠ []) :
      Step a .deleted
        { a with
          entries := xs ++ called ys, nodes := a.nodes.erase e.node, mark := (list ys).head?,
          current := (list ys).head? }

/-- Nothing is put in front of the first statement. -/
def Behind (a : Spec) : Event → Prop
  | .prestmt _ => a.mark ≠ (list a.entries).head?
  | _ => True

/-- The steps from the first call on, and the condition for each of them. -/
inductive Runs (condition : Spec → Event → Prop) : Spec → List Event → Spec → Prop
  | nil {a : Spec} : Runs condition a [] a
  | cons {a b c : Spec} {event : Event} {events : List Event} (first : Step a event b) (meets : condition a event)
      (rest : Runs condition b events c) : Runs condition a (event :: events) c

/-- The function has been called with the first of some statements. -/
def begun (nodes stmts : List Nat) : Spec :=
  ⟨called (stmts.map fun np => ⟨np, false, 0⟩), nodes, stmts.head?, stmts.head?⟩

structure Listed (s : State) (l : List Nat) : Prop where
  linked : Linked s.next s.prev none l none
  nodup : l.Nodup
  exist : ∀ p ∈ l, p ∈ s.nodes
  distinct : s.nodes.Nodup
  first : l.head? = some s.stmt

/-- It was called once with the statement, unless that came too early. -/
def Entry.Passed (e : Entry) : Prop := e.calls = if e.early then 0 else 1

/-- What comes before the statement of the call is passed, and it has its call, but nothing after it. -/
def Turns (current : Nat) : List Entry → Prop
  | [] => True
  | e :: entries =>
    (if current ∈ list entries then e.Passed else e.early = false ∧ e.calls = if e.node = current then 1 else 0) ∧
      Turns current entries

/-- The function is called once with every statement that is in the list when it is its turn. -/
def Counted (a : Spec) : Prop :=
  match a.current with
  | none => ∀ e ∈ a.entries, e.Passed
  | some current => current ∈ list a.entries ∧ Turns current a.entries

variable {s : State} {e np current : Nat} {xs ys : List Entry} {a b : Spec}

theorem deref_some {p : Nat} (exist : p ∈ s.nodes) : deref s (some p) = some p := by
  unfold deref
  rw [Option.bind_some, if_pos exist]

/-- What `next->prev = np` does to a list, whose end has no next node. -/
def prevs (prev : Nat → Option Nat) (p : Option Nat) (v : Option Nat) : Nat → Option Nat :=
  match p with
  | some p => Function.update prev p v
  | none => prev

theorem unlessNull_prev {s : State} {p : Option Nat} (exist : ∀ q, p = some q → q ∈ s.nodes) (v : Option Nat) :
    (unlessNull s p fun s p => setPrev s p v) = some { s with prev := prevs s.prev p v } := by
  cases p with
  | none => rfl
  | some p => exact if_pos (exist p rfl)

theorem unlessNull_next {s : State} {p : Option Nat} (exist : ∀ q, p = some q → q ∈ s.nodes) (v : Option Nat) :
    (unlessNull s p fun s p => setNext s p v) = some { s with next := prevs s.next p v } := by
  cases p with
  | none => rfl
  | some p => exact if_pos (exist p rfl)

@[simp] theorem prevs_self (prev : Nat → Option Nat) (p : Nat) (v : Option Nat) : prevs prev (some p) v p = v :=
  Function.update_self _ _ _

theorem prevs_other {prev : Nat → Option Nat} {p : Option Nat} {q : Nat} (other : p ≠ some q) (v : Option Nat) :
    prevs prev p v q = prev q := by
  cases p with
  | none => rfl
  | some p => exact Function.update_of_ne (fun same => other (by rw [same])) _ _

theorem insstmt_listed {xs ys : List Nat} (listed : Listed s (xs ++ e :: ys))
    (exists_ : np ∈ s.nodes) (outside : np ∉ xs ++ e :: ys) :
    ∃ next prev, insstmt s np (some e) = some { s with next := next, prev := prev } ∧
      Listed { s with next := next, prev := prev } (xs ++ e :: np :: ys) := by
  have place := listed.linked.at_
  have here : e ∈ s.nodes := listed.exist e (by simp)
  have after_ : ∀ q, s.next e = some q → q ∈ s.nodes := by
    intro q same
    rw [place.2, Option.or_none] at same
    exact listed.exist q (by simp [List.mem_of_head? same])
  unfold insstmt
  rw [deref_some here]
  dsimp only [Option.bind_eq_bind, Option.bind_some]
  rw [unlessNull_prev after_]
  simp only [setNext, setPrev, here, exists_, if_true, Option.bind_some]
  refine ⟨_, _, rfl, ?_⟩
  have whole : xs ++ e :: np :: ys = (xs ++ [e]) ++ ([np] ++ ys) := by simp
  have before : xs ++ e :: ys = (xs ++ [e]) ++ ([] ++ ys) := by simp
  have nodup : ((xs ++ [e]) ++ ys).Nodup := by simpa using listed.nodup
  have outside' : np ∉ (xs ++ [e]) ++ ys := by simpa using outside
  have other : ∀ p ∈ (xs ++ [e]) ++ ys, p ≠ np := fun p member same => outside' (same ▸ member)
  have end_ : (xs ++ [e]).getLast? = some e := by simp
  have last : np ≠ e := fun same => outside (by simp [same])
  rw [Option.or_none] at place
  have linked := listed.linked
  rw [before] at linked
  have inserted : (xs ++ e :: np :: ys).Perm (np :: (xs ++ e :: ys)) := by
    have middle := @List.perm_middle _ np (xs ++ [e]) ys
    simpa using middle
  refine ⟨?_, ?_, ?_, listed.distinct, ?_⟩
  · rw [whole]
    dsimp only
    apply linked.splice nodup
    · rw [end_]
      refine ⟨Function.update_self _ _ _, ?_, trivial⟩
      rw [Function.update_self]
      exact place.2
    · intro p member tail
      rw [end_] at tail
      rw [Function.update_of_ne (other p member), Function.update_of_ne (fun same => tail (by rw [same]))]
    · intro p member head
      rw [Function.update_of_ne (other p member)]
      apply prevs_other
      rw [place.2, Option.or_none]
      exact head
    · intro p same
      rw [end_, Option.some.injEq] at same
      rw [← same, Function.update_of_ne last.symm, Function.update_self]
      rfl
    · intro p same
      have member : p ∈ (xs ++ [e]) ++ ys := List.mem_append_right _ (List.mem_of_head? same)
      rw [Function.update_of_ne (other p member), place.2, Option.or_none, same, prevs_self]
      simp
  · rw [inserted.nodup_iff, List.nodup_cons]
    exact ⟨outside, listed.nodup⟩
  · intro p member
    rcases List.mem_cons.1 (inserted.mem_iff.1 member) with same | older
    · rw [same]
      exact exists_
    · exact listed.exist p older
  · rw [← listed.first]
    cases xs <;> rfl

theorem Listed.cut {xs seg ys : List Nat} (listed : Listed s (xs ++ (seg ++ ys))) (later : xs ≠ [])
    {next prev : Nat → Option Nat} (sameNext : ∀ p ∈ xs ++ ys, xs.getLast? ≠ some p → next p = s.next p)
    (samePrev : ∀ p ∈ xs ++ ys, ys.head? ≠ some p → prev p = s.prev p)
    (last : ∀ p, xs.getLast? = some p → next p = ys.head?) (first : ∀ p, ys.head? = some p → prev p = xs.getLast?) :
    Listed { s with next := next, prev := prev } (xs ++ ys) := by
  have inside : (xs ++ ys).Sublist (xs ++ (seg ++ ys)) := (List.sublist_append_right seg ys).append_left xs
  have nodup := listed.nodup.sublist inside
  refine ⟨?_, nodup, fun p member => listed.exist p (inside.subset member), listed.distinct, ?_⟩
  · apply @Linked.splice _ _ _ _ _ _ _ _ _ [] _ listed.linked nodup trivial sameNext samePrev
    · intro p same
      rw [List.nil_append, Option.or_none]
      exact last p same
    · intro p same
      rw [List.append_nil, Option.or_none]
      exact first p same
  · rw [← listed.first]
    cases xs with
    | nil => exact absurd rfl later
    | cons x xs => rfl

theorem unlinkstmt_listed {xs ys : List Nat} (listed : Listed s (xs ++ e :: ys)) (later : xs ≠ []) :
    ∃ next prev, unlinkstmt s e = some { s with next := next, prev := prev } ∧
      Listed { s with next := next, prev := prev } (xs ++ ys) := by
  have place := listed.linked.at_
  rw [Option.or_none, Option.or_none] at place
  have here : e ∈ s.nodes := listed.exist e (by simp)
  have after_ : ∀ q, s.next e = some q → q ∈ s.nodes := by
    intro q same
    rw [place.2] at same
    exact listed.exist q (by simp [List.mem_of_head? same])
  have before : ∀ q, s.prev e = some q → q ∈ s.nodes := by
    intro q same
    rw [place.1] at same
    exact listed.exist q (by simp [List.mem_of_getLast? same])
  unfold unlinkstmt
  rw [deref_some here]
  dsimp only [Option.bind_eq_bind, Option.bind_some]
  rw [unlessNull_prev after_]
  dsimp only [Option.bind_some]
  have assigned := @unlessNull_next { s with prev := prevs s.prev (s.next e) (s.prev e) } _ before (s.next e)
  rw [assigned]
  simp only [setNext, setPrev, here, if_true, Option.bind_some]
  refine ⟨_, _, rfl, ?_⟩
  have nodup := listed.nodup
  have whole : xs ++ e :: ys = xs ++ ([e] ++ ys) := rfl
  rw [List.nodup_middle, List.nodup_cons] at nodup
  have other : ∀ p ∈ xs ++ ys, p ≠ e := fun p member same => nodup.1 (same ▸ member)
  rw [whole] at listed
  apply listed.cut later
  · intro p member tail
    rw [Function.update_of_ne (other p member)]
    apply prevs_other
    rw [place.1]
    exact tail
  · intro p member head
    rw [Function.update_of_ne (other p member)]
    apply prevs_other
    rw [place.2]
    exact head
  · intro p same
    rw [Function.update_of_ne (other p (List.mem_append_left _ (List.mem_of_getLast? same))), place.1, same,
      prevs_self]
    exact place.2
  · intro p same
    rw [Function.update_of_ne (other p (List.mem_append_right _ (List.mem_of_head? same))), place.2, same, prevs_self]
    exact place.1

theorem Listed.without {l nodes : List Nat} (listed : Listed s l) (exist : ∀ p ∈ l, p ∈ nodes)
    (distinct : nodes.Nodup) : Listed { s with nodes := nodes } l :=
  ⟨listed.linked, listed.nodup, exist, distinct, listed.first⟩

theorem Listed.place {l : List Nat} (listed : Listed s l) (curstmt ocurstmt : Option Nat) :
    Listed { s with curstmt, ocurstmt } l :=
  ⟨listed.linked, listed.nodup, listed.exist, listed.distinct, listed.first⟩

theorem delstmt_listed {xs ys : List Nat} (listed : Listed s (xs ++ e :: ys)) (later : xs ≠ []) :
    ∃ next prev, delstmt s e =
        some ({ s with next := next, prev := prev, nodes := s.nodes.erase e }, ys.head?) ∧
      Listed { s with next := next, prev := prev, nodes := s.nodes.erase e } (xs ++ ys) := by
  have place := listed.linked.at_
  rw [Option.or_none, Option.or_none] at place
  have here : e ∈ s.nodes := listed.exist e (by simp)
  have nodup := listed.nodup
  rw [List.nodup_middle, List.nodup_cons] at nodup
  rcases unlinkstmt_listed listed later with ⟨next, prev, unlinked, listed'⟩
  refine ⟨next, prev, ?_, ?_⟩
  · unfold delstmt delnode
    rw [deref_some here]
    dsimp only [Option.bind_eq_bind, Option.bind_some]
    rw [unlinked, Option.bind_some, if_pos here, Option.bind_some, place.2]
  · apply listed'.without
    · intro p member
      rw [listed.distinct.mem_erase_iff]
      exact ⟨fun same => nodup.1 (same ▸ member), listed'.exist p member⟩
    · exact listed.distinct.erase e

theorem deltrees_some {s : State} {before stop : Option Nat} {seg : List Nat} (linked : Linked s.next s.prev before seg stop)
    (nodup : seg.Nodup) (outside : ∀ p ∈ seg, stop ≠ some p) (exist : ∀ p ∈ seg, p ∈ s.nodes)
    (distinct : s.nodes.Nodup) :
    deltrees stop s (seg.head?.or stop) = some { s with nodes := s.nodes.diff seg } := by
  induction seg generalizing s before with
  | nil =>
    rw [deltrees]
    exact if_pos rfl
  | cons p seg ih =>
    rcases linked with ⟨first, second, rest⟩
    rw [List.forall_mem_cons] at outside exist
    rw [List.nodup_cons] at nodup
    rw [deltrees, if_neg (fun same => outside.1 same.symm)]
    rw [List.head?_cons, Option.some_or, Option.bind_some, dif_pos exist.1, second]
    have smaller : ∀ q ∈ seg, q ∈ s.nodes.erase p := by
      intro q member
      rw [distinct.mem_erase_iff]
      exact ⟨fun same => nodup.1 (same ▸ member), exist.2 q member⟩
    rw [List.diff_cons]
    exact @ih { s with nodes := s.nodes.erase p } _ rest nodup.2 outside.2 smaller (distinct.erase p)

theorem delrange_listed {xs seg ys : List Nat} {begin_ end_ : Nat}
    (listed : Listed s (xs ++ (seg ++ ys))) (later : xs ≠ []) (first : seg.head? = some begin_)
    (last : seg.getLast? = some end_) : ∃ next prev, delrange s begin_ end_ =
        some { s with next := next, prev := prev, nodes := s.nodes.diff seg } ∧
      Listed { s with next := next, prev := prev, nodes := s.nodes.diff seg } (xs ++ ys) := by
  have linked := listed.linked
  have nodup := listed.nodup
  rw [List.nodup_append, List.nodup_append] at nodup
  rcases nodup with ⟨nodupX, ⟨nodupSeg, nodupY, apartY⟩, apartX⟩
  have inside : ∀ p ∈ seg, p ∈ s.nodes := fun p member => listed.exist p (by simp [member])
  have beginHere := inside begin_ (List.mem_of_head? first)
  have endHere := inside end_ (List.mem_of_getLast? last)
  have lprev : s.prev begin_ = xs.getLast? := by
    cases seg with
    | nil => cases first
    | cons p seg =>
      rw [List.head?_cons, Option.some.injEq] at first
      rw [List.cons_append] at linked
      rw [← first, linked.at_.1, Option.or_none]
  have rnext : s.next end_ = ys.head? := by
    rcases List.getLast?_eq_some_iff.1 last with ⟨front, whole⟩
    have place : xs ++ (seg ++ ys) = (xs ++ front) ++ end_ :: ys := by simp [whole]
    rw [place] at linked
    rw [linked.at_.2, Option.or_none]
  have lprevHere : ∀ q, xs.getLast? = some q → q ∈ s.nodes :=
    fun q same => listed.exist q (by simp [List.mem_of_getLast? same])
  have rnextHere : ∀ q, ys.head? = some q → q ∈ s.nodes :=
    fun q same => listed.exist q (by simp [List.mem_of_head? same])
  unfold delrange
  rw [deref_some beginHere, deref_some endHere]
  dsimp only [Option.bind_eq_bind, Option.bind_some]
  rw [lprev, rnext, unlessNull_next lprevHere]
  dsimp only [Option.bind_some]
  have assigned := @unlessNull_prev { s with next := prevs s.next xs.getLast? ys.head? } _ rnextHere xs.getLast?
  rw [assigned, Option.bind_some]
  have cut : Listed { s with next := prevs s.next xs.getLast? ys.head?, prev := prevs s.prev ys.head? xs.getLast? }
      (xs ++ ys) := by
    apply listed.cut later
    · intro p member tail
      exact prevs_other tail _
    · intro p member head
      exact prevs_other head _
    · intro p same
      rw [same, prevs_self]
    · intro p same
      rw [same, prevs_self]
  refine ⟨_, _, ?_, cut.without ?_ (listed.distinct.diff)⟩
  · rw [linked_append, linked_append] at linked
    have part : Linked (prevs s.next xs.getLast? ys.head?) (prevs s.prev ys.head? xs.getLast?) xs.getLast? seg
        ys.head? := by
      have inner := linked.2.1
      rw [Option.or_none, Option.or_none] at inner
      apply inner.frame
      · intro p member
        apply prevs_other
        intro same
        exact apartX p (List.mem_of_getLast? same) p (List.mem_append_left _ member) rfl
      · intro p member
        apply prevs_other
        intro same
        exact apartY p member p (List.mem_of_head? same) rfl
    have loop := @deltrees_some
      { s with next := prevs s.next xs.getLast? ys.head?, prev := prevs s.prev ys.head? xs.getLast? } _ _ _ part
      nodupSeg (fun p member same => apartY p member p (List.mem_of_head? same) rfl) inside listed.distinct
    rw [first] at loop
    exact loop
  · intro p member
    rw [listed.distinct.mem_sdiff_iff]
    refine ⟨cut.exist p member, ?_⟩
    intro deleted
    rcases List.mem_append.1 member with left | right
    · exact apartX p left p (List.mem_append_left _ deleted) rfl
    · exact apartY p deleted p right rfl

theorem list_append (xs ys : List Entry) : list (xs ++ ys) = list xs ++ list ys := List.map_append

theorem list_called (entries : List Entry) : list (called entries) = list entries := by
  cases entries <;> rfl

theorem list_ne_nil (later : xs ≠ []) : list xs ≠ [] := fun none_ => later (List.map_eq_nil_iff.1 none_)

theorem mem_list {p : Nat} {e : Entry} :
    p ∈ list (xs ++ e :: ys) ↔ p ∈ list xs ∨ p = e.node ∨ p ∈ list ys := by
  rw [list_append, List.mem_append]
  exact or_congr_right List.mem_cons

theorem Turns.tail {current : Nat} {xs ys : List Entry} (turns : Turns current (xs ++ ys)) : Turns current ys := by
  induction xs with
  | nil => exact turns
  | cons x xs ih => exact ih turns.2

theorem Turns.replace {xs ys ys' : List Entry} (turns : Turns current (xs ++ ys))
    (same : current ∈ list ys' ↔ current ∈ list ys) (turns' : Turns current ys') : Turns current (xs ++ ys') := by
  induction xs with
  | nil => exact turns'
  | cons x xs ih =>
    rw [List.cons_append] at turns ⊢
    rcases turns with ⟨first, rest⟩
    refine ⟨?_, ih rest⟩
    have both : current ∈ list (xs ++ ys') ↔ current ∈ list (xs ++ ys) := by
      rw [list_append, list_append, List.mem_append, List.mem_append, same]
    simp only [both]
    exact first

theorem turns_after (outside : current ∉ list ys) :
    Turns current ys ↔ ∀ d ∈ ys, d.early = false ∧ d.calls = 0 := by
  induction ys with
  | nil => simp [Turns]
  | cons y ys ih =>
    have parts : current ≠ y.node ∧ current ∉ list ys := by
      unfold list at outside
      rw [List.map_cons, List.mem_cons, not_or] at outside
      exact outside
    rw [Turns, if_neg parts.2, if_neg parts.1.symm, ih parts.2, List.forall_mem_cons]

theorem turns_iff {xs ys : List Entry} {e : Entry} (nodup : (list (xs ++ e :: ys)).Nodup) :
    Turns e.node (xs ++ e :: ys) ↔
      (∀ d ∈ xs, d.Passed) ∧ (e.early = false ∧ e.calls = 1) ∧ ∀ d ∈ ys, d.early = false ∧ d.calls = 0 := by
  induction xs with
  | nil =>
    have outside : e.node ∉ list ys := (List.nodup_cons.1 nodup).1
    rw [List.nil_append, Turns, if_neg outside, if_pos rfl, turns_after outside]
    simp
  | cons x xs ih =>
    have later : e.node ∈ list (xs ++ e :: ys) := mem_list.2 (.inr (.inl rfl))
    rw [List.cons_append, Turns, if_pos later, ih (List.nodup_cons.1 nodup).2, List.forall_mem_cons]
    exact and_assoc.symm

theorem Turns.prepend (turns : Turns current (xs ++ ys))
    (other : np ≠ current) : Turns current (xs ++ entered np current ys :: ys) := by
  apply turns.replace
  · unfold list
    rw [List.map_cons, List.mem_cons]
    exact or_iff_right other.symm
  · refine ⟨?_, turns.tail⟩
    unfold entered Entry.Passed
    dsimp only
    by_cases later : current ∈ list ys
    · rw [if_pos later, decide_eq_true later]
      rfl
    · rw [if_neg later, decide_eq_false later, if_neg other]
      exact ⟨rfl, rfl⟩

theorem Turns.insert {e : Entry} (turns : Turns current (xs ++ e :: ys))
    (other : np ≠ current) : Turns current (xs ++ e :: entered np current ys :: ys) := by
  have whole : xs ++ e :: ys = (xs ++ [e]) ++ ys := by simp
  rw [whole] at turns
  have inserted := turns.prepend other
  rw [List.append_assoc] at inserted
  exact inserted

theorem Turns.cut {xs seg ys : List Entry} (turns : Turns current (xs ++ (seg ++ ys)))
    (outside : current ∉ list seg) : Turns current (xs ++ ys) := by
  apply turns.replace
  · rw [list_append, List.mem_append]
    exact (or_iff_right outside).symm
  · exact turns.tail.tail

theorem counted_cut {e : Entry} (other : e.node ≠ current)
    (counted : current ∈ list (xs ++ e :: ys) ∧ Turns current (xs ++ e :: ys)) :
    current ∈ list (xs ++ ys) ∧ Turns current (xs ++ ys) := by
  rcases counted with ⟨member, turns⟩
  constructor
  · rw [mem_list] at member
    rw [list_append, List.mem_append]
    rcases member with before | same | after_
    · exact .inl before
    · exact absurd same.symm other
    · exact .inr after_
  · apply turns.replace
    · exact (or_iff_right other.symm).symm.trans List.mem_cons.symm
    · exact turns.tail.2

theorem turns_called {xs ys : List Entry} (nodup : (list (xs ++ ys)).Nodup) (passed : ∀ d ∈ xs, d.Passed)
    (waiting : ∀ d ∈ ys, d.early = false ∧ d.calls = 0) (a : Spec) (entries : a.entries = xs ++ called ys)
    (current : a.current = (list ys).head?) : Counted a := by
  unfold Counted
  cases ys with
  | nil =>
    rw [current, entries]
    change ∀ e ∈ xs ++ [], e.Passed
    rw [List.append_nil]
    exact passed
  | cons y ys =>
    rw [List.forall_mem_cons] at waiting
    rw [current, entries]
    change y.node ∈ list (xs ++ called (y :: ys)) ∧ Turns y.node (xs ++ called (y :: ys))
    have same : list (xs ++ called (y :: ys)) = list (xs ++ y :: ys) := by
      rw [list_append, list_append, list_called]
    constructor
    · rw [same]
      exact mem_list.2 (.inr (.inl rfl))
    · have turns := @turns_iff xs ys { y with calls := y.calls + 1 } (by rw [← same] at nodup; exact nodup)
      apply turns.2
      refine ⟨passed, ⟨waiting.1.1, ?_⟩, waiting.2⟩
      dsimp only
      rw [waiting.1.2]

theorem counted_some (during : a.current = some current) :
    Counted a ↔ current ∈ list a.entries ∧ Turns current a.entries := by
  unfold Counted
  rw [during]

theorem counted_of (placed : current ∈ list a.entries ∧ Turns current a.entries)
    (during : a.current = some current) : Counted a :=
  (counted_some during).2 placed

theorem list_insert {p : Nat} {xs ys : List Entry} (e : Entry) (member : p ∈ list (xs ++ ys)) :
    p ∈ list (xs ++ e :: ys) := by
  rw [mem_list]
  rw [list_append, List.mem_append] at member
  exact member.imp_right .inr

theorem Step.counted {event : Event} (first : Step a event b) (nodup : (list a.entries).Nodup)
    (counted : Counted a) : Counted b := by
  cases first with
  | node new => exact counted
  | @insstmt xs ys e np current during place exists_ outside =>
    rw [counted_some during, place] at counted
    rw [place] at outside
    have other : np ≠ current := fun same => outside (same ▸ counted.1)
    refine counted_of ⟨?_, counted.2.insert other⟩ during
    have member := @list_insert current (xs ++ [e]) ys (entered np current ys) (by simpa using counted.1)
    simpa using member
  | @prestmt xs ys e np current during place marked exists_ outside =>
    rw [counted_some during, place] at counted
    rw [place] at outside
    have other : np ≠ current := fun same => outside (same ▸ counted.1)
    exact counted_of ⟨list_insert _ counted.1, counted.2.prepend other⟩ during
  | @addstmt xs ys e np current during place marked exists_ outside =>
    rw [counted_some during, place] at counted
    rw [place] at outside
    have other : np ≠ current := fun same => outside (same ▸ counted.1)
    refine counted_of ⟨?_, counted.2.insert other⟩ during
    have member := @list_insert current (xs ++ [e]) ys (entered np current ys) (by simpa using counted.1)
    simpa using member
  | @unlinkstmt xs ys e current during place later other =>
    rw [counted_some during, place] at counted
    exact counted_of (counted_cut other counted) during
  | @delstmt xs ys e current during place later other =>
    rw [counted_some during, place] at counted
    exact counted_of (counted_cut other counted) during
  | @delrange xs seg ys begin_ end_ current during place later other first last =>
    rw [counted_some during, place] at counted
    refine counted_of ⟨?_, counted.2.cut other⟩ during
    have member := counted.1
    rw [list_append, list_append, List.mem_append, List.mem_append] at member
    change current ∈ list (xs ++ ys)
    rw [list_append, List.mem_append]
    tauto
  | @kept xs ys e during place =>
    rw [counted_some during, place, turns_iff (place ▸ nodup)] at counted
    rcases counted with ⟨_, passed, turn, waiting⟩
    have whole : xs ++ e :: ys = (xs ++ [e]) ++ ys := by simp
    rw [place, whole] at nodup
    apply turns_called nodup ?_ waiting
    · simp
    · rfl
    · intro d member
      rcases List.mem_append.1 member with before | last
      · exact passed d before
      · rw [List.mem_singleton.1 last]
        unfold Entry.Passed
        rw [turn.1, turn.2]
        rfl
  | @deleted xs ys e during place later =>
    rw [counted_some during, place, turns_iff (place ▸ nodup)] at counted
    rcases counted with ⟨_, passed, turn, waiting⟩
    rw [place, list_append] at nodup
    apply turns_called ?_ passed waiting
    · rfl
    · rfl
    · rw [list_append]
      exact nodup.sublist ((List.sublist_cons_self e.node (list ys)).append_left (list xs))

/-- The links are those of the list, and `apply()` is at its place. -/
structure Rep (s : State) (a : Spec) : Prop where
  listed : Listed s (list a.entries)
  nodes : s.nodes = a.nodes
  mark : s.curstmt = a.mark
  current : s.ocurstmt = a.current

theorem split_last (later : xs ≠ []) : ∃ front d, xs = front ++ [d] :=
  ⟨xs.dropLast, xs.getLast later, (List.dropLast_append_getLast later).symm⟩

theorem step_rep {event : Event} (first : Step a event b) (behind : Behind a event)
    (rep : Rep s a) : ∃ s', step s event = some s' ∧ Rep s' b := by
  have listed := rep.listed
  have nodes := rep.nodes
  cases first with
  | @node np new =>
    rw [← nodes] at new
    refine ⟨_, if_neg new, listed.without ?_ (List.nodup_cons.2 ⟨new, listed.distinct⟩), ?_, rep.mark, rep.current⟩
    · exact fun p member => List.mem_cons_of_mem np (listed.exist p member)
    · exact congrArg (np :: ·) nodes
  | @insstmt xs ys e np current during place exists_ outside =>
    rw [place] at listed outside
    rw [← nodes] at exists_
    rw [list_append] at listed outside
    rcases insstmt_listed listed exists_ outside with ⟨next, prev, done, listed'⟩
    refine ⟨_, done, ?_, nodes, rep.mark, rep.current⟩
    dsimp only
    rw [list_append]
    exact listed'
  | @prestmt xs ys e np current during place marked exists_ outside =>
    have later : xs ≠ [] := by
      intro none_
      apply behind
      rw [place, marked, none_]
      rfl
    rcases split_last later with ⟨front, d, whole⟩
    subst whole
    rw [place, list_append] at listed
    rw [place, list_append] at outside
    rw [← nodes] at exists_
    have here : e.node ∈ s.nodes := listed.exist e.node (by simp [list])
    have before : s.prev e.node = some d.node := by
      have linked := listed.linked
      change Linked s.next s.prev none (list (front ++ [d]) ++ e.node :: list ys) none at linked
      rw [linked.at_.1, Option.or_none, list_append]
      simp [list]
    have around : list (front ++ [d]) ++ list (e :: ys) = list front ++ d.node :: list (e :: ys) := by
      simp [list]
    rw [around] at listed outside
    rcases insstmt_listed listed exists_ outside with ⟨next, prev, done, listed'⟩
    refine ⟨{ s with next := next, prev := prev }, ?_, ?_, nodes, rep.mark, rep.current⟩
    · change prestmt s np = _
      have start : deref s s.curstmt = some e.node := by
        rw [rep.mark, marked]
        exact deref_some here
      unfold prestmt
      rw [start]
      dsimp only [Option.bind_eq_bind, Option.bind_some]
      rw [before]
      exact done
    · have target : list ((front ++ [d]) ++ entered np current (e :: ys) :: e :: ys) =
          list front ++ d.node :: np :: list (e :: ys) := by
        simp [list, entered]
      dsimp only
      rw [target]
      exact listed'
  | @addstmt xs ys e np current during place marked exists_ outside =>
    rw [place] at listed outside
    rw [← nodes] at exists_
    rw [list_append] at listed outside
    rcases insstmt_listed listed exists_ outside with ⟨next, prev, done, listed'⟩
    refine ⟨{ s with next := next, prev := prev, curstmt := some np }, ?_, ?_, nodes, rfl, rep.current⟩
    · change addstmt s np = _
      unfold addstmt
      rw [rep.mark, marked, done]
      rfl
    · dsimp only
      rw [list_append]
      exact listed'.place _ _
  | @unlinkstmt xs ys e current during place later other =>
    rw [place, list_append] at listed
    rcases unlinkstmt_listed listed (list_ne_nil later) with ⟨next, prev, done, listed'⟩
    refine ⟨_, done, ?_, nodes, rep.mark, rep.current⟩
    dsimp only
    rw [list_append]
    exact listed'
  | @delstmt xs ys e current during place later other =>
    rw [place, list_append] at listed
    rcases delstmt_listed listed (list_ne_nil later) with ⟨next, prev, done, listed'⟩
    refine ⟨{ s with next := next, prev := prev, nodes := s.nodes.erase e.node }, ?_, ?_, ?_, rep.mark, rep.current⟩
    · change (delstmt s e.node).map Prod.fst = _
      rw [done]
      rfl
    · dsimp only
      rw [list_append]
      exact listed'
    · exact congrArg (List.erase · e.node) nodes
  | @delrange xs seg ys begin_ end_ current during place later other first last =>
    rw [place, list_append, list_append] at listed
    rcases delrange_listed listed (list_ne_nil later) first last with ⟨next, prev, done, listed'⟩
    refine ⟨_, done, ?_, congrArg (List.diff · (list seg)) nodes, rep.mark, rep.current⟩
    dsimp only
    rw [list_append]
    exact listed'
  | @kept xs ys e during place =>
    rw [place] at listed
    have here : e.node ∈ s.nodes := listed.exist e.node (mem_list.2 (.inr (.inl rfl)))
    have next : s.next e.node = (list ys).head? := by
      have linked := listed.linked
      rw [list_append] at linked
      change Linked s.next s.prev none (list xs ++ e.node :: list ys) none at linked
      rw [linked.at_.2, Option.or_none]
    refine ⟨goOn s (list ys).head?, ?_, ?_, nodes, rfl, rfl⟩
    · change ((deref s s.ocurstmt).bind fun np => some (goOn s (s.next np))) = _
      rw [rep.current, during, deref_some here, Option.bind_some, next]
    · have same : list (xs ++ e :: called ys) = list (xs ++ e :: ys) := by
        rw [list_append, list_append]
        change list xs ++ e.node :: list (called ys) = _
        rw [list_called]
        rfl
      dsimp only
      rw [same]
      exact listed.place _ _
  | @deleted xs ys e during place later =>
    rw [place, list_append] at listed
    rcases delstmt_listed listed (list_ne_nil later) with ⟨next, prev, done, listed'⟩
    refine ⟨goOn { s with next := next, prev := prev, nodes := s.nodes.erase e.node } (list ys).head?, ?_, ?_,
      congrArg (List.erase · e.node) nodes, rfl, rfl⟩
    · change (s.ocurstmt.bind fun ocurstmt => (delstmt s ocurstmt).bind fun (s, np) => some (goOn s np)) = _
      rw [rep.current, during, Option.bind_some, done]
      rfl
    · dsimp only
      rw [list_append, list_called]
      exact listed'.place _ _

theorem begun_list (nodes stmts : List Nat) : list (begun nodes stmts).entries = stmts := by
  unfold begun
  dsimp only
  rw [list_called]
  unfold list
  rw [List.map_map]
  exact List.map_id stmts

theorem begun_counted {nodes stmts : List Nat} (nodup : stmts.Nodup) : Counted (begun nodes stmts) := by
  have same : list (stmts.map fun np => (⟨np, false, 0⟩ : Entry)) = stmts := by
    unfold list
    rw [List.map_map]
    exact List.map_id stmts
  apply @turns_called [] (stmts.map fun np => ⟨np, false, 0⟩)
  · rw [List.nil_append, same]
    exact nodup
  · exact List.forall_mem_nil _
  · intro d member
    rcases List.mem_map.1 member with ⟨np, _, made⟩
    rw [← made]
    exact ⟨rfl, rfl⟩
  · rfl
  · rw [same]
    rfl

theorem runs_rep {events : List Event} (runs : Runs Behind a events b) (rep : Rep s a)
    (counted : Counted a) : ∃ s', run s events = some s' ∧ Rep s' b ∧ Counted b := by
  induction runs generalizing s with
  | nil => exact ⟨s, rfl, rep, counted⟩
  | cons first meets rest ih =>
    rcases step_rep first meets rep with ⟨s', done, rep'⟩
    rcases ih rep' (first.counted rep.listed.nodup counted) with ⟨s'', done', rep'', counted'⟩
    refine ⟨s'', ?_, rep'', counted'⟩
    rw [run, done]
    exact done'

/-- From the first call on, whatever the function does to the list behind its first statement, the links are those of
the statements that were put into it and not removed, and every one of them has its call when it is its turn. -/
theorem apply_runs {s : State} {stmts : List Nat} (listed : Listed s stmts) {events : List Event} {a : Spec}
    (runs : Runs Behind (begun s.nodes stmts) events a) :
    ∃ s', run (enter s) events = some s' ∧ Rep s' a ∧ Counted a := by
  apply runs_rep runs ?_ (begun_counted listed.nodup)
  refine ⟨?_, rfl, ?_, ?_⟩
  · rw [begun_list]
    exact listed.place _ _
  · exact listed.first.symm
  · exact listed.first.symm

def two : State where
  next p := if p = 1 then some 2 else none
  prev p := if p = 2 then some 1 else none
  nodes := [1, 2]
  stmt := 1
  curstmt := none
  ocurstmt := none

theorem two_listed : Listed two [1, 2] :=
  ⟨⟨rfl, rfl, rfl, rfl, trivial⟩, by decide, by decide, by decide, rfl⟩

/-- A node is put in front of the second statement, which is deleted. -/
theorem apply_two : ∃ s' a, run (enter two) [.kept, .node 3, .prestmt 3, .deleted] = some s' ∧ Rep s' a ∧ Counted a ∧
    list a.entries = [1, 3] := by
  have first : Step (begun [1, 2] [1, 2]) .kept ⟨[⟨1, false, 1⟩, ⟨2, false, 1⟩], [1, 2], some 2, some 2⟩ :=
    @Step.kept _ [] [⟨2, false, 0⟩] ⟨1, false, 1⟩ rfl rfl
  have second := @Step.node ⟨[⟨1, false, 1⟩, ⟨2, false, 1⟩], [1, 2], some 2, some 2⟩ 3 (by decide)
  have third := @Step.prestmt ⟨[⟨1, false, 1⟩, ⟨2, false, 1⟩], [3, 1, 2], some 2, some 2⟩ [⟨1, false, 1⟩] []
    ⟨2, false, 1⟩ 3 2 rfl rfl rfl (by decide) (by decide)
  have fourth := @Step.deleted ⟨[⟨1, false, 1⟩, ⟨3, true, 0⟩, ⟨2, false, 1⟩], [3, 1, 2], some 2, some 2⟩
    [⟨1, false, 1⟩, ⟨3, true, 0⟩] [] ⟨2, false, 1⟩ rfl rfl (by simp)
  have runs : Runs Behind (begun two.nodes [1, 2]) [.kept, .node 3, .prestmt 3, .deleted] _ :=
    .cons first trivial (.cons second trivial (.cons third (by unfold Behind; decide) (.cons fourth trivial .nil)))
  rcases apply_runs two_listed runs with ⟨s', done, rep, counted⟩
  exact ⟨s', _, done, rep, counted, rfl⟩

/-- There is no place in front of the first statement. -/
theorem first_lost : ¬ ∀ (s : State) (stmts : List Nat) (events : List Event) (a : Spec), Listed s stmts →
    Runs (fun _ _ => True) (begun s.nodes stmts) events a → ∃ s', run (enter s) events = some s' ∧ Rep s' a ∧ Counted a := by
  intro every
  have first := @Step.node (begun [1, 2] [1, 2]) 3 (by decide)
  have second := @Step.prestmt ⟨[⟨1, false, 1⟩, ⟨2, false, 0⟩], [3, 1, 2], some 1, some 1⟩ [] [⟨2, false, 0⟩]
    ⟨1, false, 1⟩ 3 1 rfl rfl rfl (by decide) (by decide)
  have runs : Runs (fun _ _ => True) (begun two.nodes [1, 2]) [.node 3, .prestmt 3] _ :=
    .cons first trivial (.cons second trivial .nil)
  rcases every two [1, 2] _ _ two_listed runs with ⟨s', done, rest⟩
  have crash : run (enter two) [.node 3, .prestmt 3] = none := rfl
  rw [crash] at done
  cases done

end Scc.Cc2.StatementList
