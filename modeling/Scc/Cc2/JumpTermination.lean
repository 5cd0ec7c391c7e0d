import Mathlib.Data.List.Forall2
import Scc.Cc2.Cfg

/-!
# The end of the jump optimisation

`optjmps()` rewrites the list until a pass changes nothing. A statement that is deleted makes the list
shorter, and a jump that is led on stays where it was led: behind two passes that delete nothing the list
does not change. What can go on for ever is the leading on of one jump, which follows the jumps from its
label without a look back. It stops at the jump itself and at a statement that is no jump, so that it
runs in every circle of jumps that the jump is not in. That is the only way not to come to an end.
-/

namespace Scc.Cc2.Cfg

open Scc.Lib.Run

set_option autoImplicit false

/-- Steps of `optjmps()`, without a state where it stops: at its end, at `abort()`, and where it follows
a pointer to a statement that is deleted. -/
def steps : Nat → State → Option State
  | 0, state => some state
  | n + 1, state => (rewrite state).bind (steps n)

def Terminates (state : State) : Prop := ∃ n, steps n state = none

/-- The statement behind a label and its `ONOP`s. -/
def landing (state : State) (sym : Sym) : Option Stmt :=
  skipnop none (listAt (state.stmt sym) state.stmts)

/-- A statement at which another one is led on. -/
def leadsOn (np p : Stmt) : Bool := p.addr ≠ np.addr && p.op = .OJMP

/-- At most so many jumps lead from a label to the statement itself, to a statement that is no jump, or
to one that is deleted. -/
def leaves (state : State) (np : Stmt) : Nat → Sym → Bool
  | 0, _ => false
  | k + 1, sym =>
    match landing state sym with
    | none => true
    | some p => if leadsOn np p then leaves state np k p.sym else true

/-- A statement that is about to be led on does not lead into a circle of jumps that it is not in. -/
def Leads (state : State) : Prop :=
  state.point = .chain_jumps → ∀ np ∈ state.rest.head?, ∃ k, leaves state np k np.sym = true

theorem steps_step {state next : State} (stepped : rewrite state = some next) (n : Nat) :
    steps (n + 1) state = steps n next := by
  rw [steps, stepped, Option.bind_some]

theorem Terminates.step {state next : State} (stepped : rewrite state = some next)
    (terminates : Terminates next) : Terminates state := by
  have ⟨n, done⟩ := terminates
  exact ⟨n + 1, (steps_step stepped n).trans done⟩

theorem Terminates.next {state next : State} (stepped : rewrite state = some next)
    (terminates : Terminates state) : Terminates next := by
  have ⟨n, done⟩ := terminates
  cases n with
  | zero => cases done
  | succ n => exact ⟨n, (steps_step stepped n).symm.trans done⟩

theorem Terminates.stuck {state : State} (stuck : rewrite state = none) : Terminates state := by
  refine ⟨1, ?_⟩
  rw [steps, stuck]
  rfl

def Reaches (state next : State) : Prop := ∃ n, steps n state = some next

theorem Reaches.step {state next last : State} (stepped : rewrite state = some next)
    (reaches : Reaches next last) : Reaches state last := by
  have ⟨n, done⟩ := reaches
  exact ⟨n + 1, (steps_step stepped n).trans done⟩

theorem Terminates.reached {state next : State} (terminates : Terminates state)
    (reaches : Reaches state next) : Terminates next := by
  have ⟨n, done⟩ := reaches
  induction n generalizing state with
  | zero =>
    cases done
    exact terminates
  | succ n ih =>
    cases stepped : rewrite state with
    | none =>
      rw [steps, stepped] at done
      cases done
    | some middle =>
      rw [steps_step stepped] at done
      exact ih (terminates.next stepped) ⟨n, done⟩ done

/-- The list with the statement led on, and any number for the count of its label. -/
def ledOn (np : Stmt) (rest : List Stmt) (sym : Sym) (state : State) : State :=
  { state with
    rest := { np with sym } :: rest
    refcnt := add state.refcnt np.sym (-1)
    modjmp := true }

theorem rewrite_chain {state : State} {np : Stmt} {rest : List Stmt} (here : state.rest = np :: rest)
    (chain : state.point = .chain_jumps) : rewrite state =
      match landing state np.sym with
      | none => none
      | some p =>
        if leadsOn np p then some (ledOn np rest p.sym state) else some (advance np rest state) := by
  rcases state with ⟨done, _, swtch, refcnt, stmt, rewriting, _, modjmp⟩
  cases here
  cases chain
  unfold rewrite landing
  dsimp only
  cases skipnop none (listAt (stmt np.sym) (State.stmts _)) with
  | none => rfl
  | some p =>
    unfold leadsOn
    simp only [Bool.and_eq_true, decide_eq_true_eq]
    rfl

/-- Statements that differ in the label of one jump at most. -/
def Like (np a b : Stmt) : Prop := a.addr = b.addr ∧ a.op = b.op ∧ (a.addr ≠ np.addr → a = b)

theorem like_refl (np : Stmt) : ∀ stmts : List Stmt, List.Forall₂ (Like np) stmts stmts := by
  intro stmts
  induction stmts with
  | nil => exact .nil
  | cons a stmts ih => exact .cons ⟨rfl, rfl, fun _ => rfl⟩ ih

theorem skipnop_like {np : Stmt} {xs ys : List Stmt} (like : List.Forall₂ (Like np) xs ys) :
    Option.Rel (Like np) (skipnop none xs) (skipnop none ys) := by
  induction like with
  | nil => exact .none
  | cons same _ ih =>
    rename_i a b as bs _
    have ⟨_, op, _⟩ := same
    simp only [skipnop, op, ne_eq, reduceCtorEq, not_false_eq_true, and_true]
    split_ifs
    · exact ih
    · exact .some same

theorem listAt_like {np : Stmt} (addr : Option Nat) {xs ys : List Stmt}
    (like : List.Forall₂ (Like np) xs ys) : List.Forall₂ (Like np) (listAt addr xs) (listAt addr ys) := by
  induction like with
  | nil => exact .nil
  | cons same more ih =>
    rename_i a b as bs
    have ⟨at_, _, _⟩ := same
    unfold listAt at ih ⊢
    rw [List.dropWhile_cons, List.dropWhile_cons, at_]
    split_ifs
    · exact ih
    · exact .cons same more

variable {state : State} {np : Stmt} {rest : List Stmt} (here : state.rest = np :: rest) (new : Sym)

include here in
theorem ledOn_like : List.Forall₂ (Like np) state.stmts (ledOn np rest new state).stmts := by
  unfold State.stmts ledOn
  dsimp only
  rw [here]
  apply List.rel_append (like_refl np state.done.reverse)
  exact .cons ⟨rfl, rfl, fun other => absurd rfl other⟩ (like_refl np rest)

include here in
theorem landing_ledOn (sym : Sym) :
    (landing state sym = none ∧ landing (ledOn np rest new state) sym = none) ∨
      ∃ a b, landing state sym = some a ∧ landing (ledOn np rest new state) sym = some b ∧ Like np a b := by
  have related := skipnop_like (listAt_like (state.stmt sym) (ledOn_like here new))
  change Option.Rel (Like np) (landing state sym) (landing (ledOn np rest new state) sym) at related
  generalize landing state sym = first at related ⊢
  generalize landing (ledOn np rest new state) sym = second at related ⊢
  cases related with
  | none => exact Or.inl ⟨rfl, rfl⟩
  | some same => exact Or.inr ⟨_, _, rfl, rfl, same⟩

theorem leadsOn_like {np q q' a b : Stmt} (addr : q'.addr = q.addr) (like : Like np a b) :
    leadsOn q' b = leadsOn q a := by
  have ⟨at_, op, _⟩ := like
  unfold leadsOn
  rw [addr, at_, op]

include here in
theorem leaves_ledOn (k : Nat) (sym : Sym) :
    leaves (ledOn np rest new state) { np with sym := new } k sym = leaves state np k sym := by
  induction k generalizing sym with
  | zero => rfl
  | succ k ih =>
    rw [leaves, leaves]
    cases landing_ledOn here new sym with
    | inl none_ => rw [none_.1, none_.2]
    | inr related =>
      have ⟨a, b, first, second, like⟩ := related
      have test : leadsOn { np with sym := new } b = leadsOn np a := leadsOn_like rfl like
      rw [first, second]
      dsimp only
      rw [test]
      split_ifs with on
      · have other : a.addr ≠ np.addr := by
          unfold leadsOn at on
          rw [Bool.and_eq_true, decide_eq_true_eq] at on
          exact on.1
        rw [← like.2.2 other]
        exact ih a.sym
      · rfl

theorem circle_steps (circle : ¬ Leads state) : ∃ next, rewrite state = some next ∧ ¬ Leads next := by
  unfold Leads at circle
  rw [Classical.not_imp] at circle
  have ⟨chain, all⟩ := circle
  cases here : state.rest with
  | nil =>
    rw [here] at all
    exact absurd (fun np member => by cases member) all
  | cons np rest =>
    have never : ∀ k, leaves state np k np.sym = false := by
      intro k
      rw [here] at all
      rw [← Bool.not_eq_true]
      intro ends
      apply all
      intro q member
      cases member
      exact ⟨k, ends⟩
    have first := never 1
    rw [leaves] at first
    rw [rewrite_chain here chain]
    cases lands : landing state np.sym with
    | none =>
      rw [lands] at first
      cases first
    | some p =>
      rw [lands] at first
      dsimp only at first ⊢
      split_ifs at first ⊢ with on
      · refine ⟨_, rfl, ?_⟩
        intro leads
        have ⟨k, ends⟩ := leads chain { np with sym := p.sym } rfl
        rw [leaves_ledOn here] at ends
        have again := never (k + 1)
        rw [leaves, lands] at again
        dsimp only at again
        rw [if_pos on] at again
        rw [ends] at again
        cases again

theorem circle_never (circle : ¬ Leads state) : ¬ Terminates state := by
  have goes : ∀ n state, ¬ Leads state → steps n state ≠ none := by
    intro n
    induction n with
    | zero =>
      intro state _ done
      cases done
    | succ n ih =>
      intro state circle
      have ⟨next, stepped, again⟩ := circle_steps circle
      rw [steps_step stepped]
      exact ih next again
  intro terminates
  have ⟨n, done⟩ := terminates
  exact goes n state circle done

def rank : Point → Nat
  | .enter => 2
  | .branch => 1
  | .chain_jumps => 0

/-- What is left of a pass, and of the pass behind it. -/
def weight (state : State) : Nat :=
  (if state.modjmp then 3 * (state.stmts.length + 1) else 0) + 3 * state.rest.length +
    rank state.point

/-- A step deletes a statement, goes on in the same list, or leads the current statement on. -/
inductive Moves (state next : State) : Prop
  | deletes (less : next.stmts.length < state.stmts.length)
  | keeps (stmts : next.stmts = state.stmts) (stmt : next.stmt = state.stmt)
      (less : weight next < weight state)
  | leads {np p : Stmt} {rest : List Stmt} (here : state.rest = np :: rest)
      (chain : state.point = .chain_jumps) (lands : landing state np.sym = some p)
      (on : leadsOn np p = true) (same : next = ledOn np rest p.sym state)

theorem advance_stmts (here : state.rest = np :: rest) : (advance np rest state).stmts = state.stmts := by
  unfold State.stmts advance
  rw [here]
  dsimp only
  rw [List.reverse_cons, List.append_assoc, List.singleton_append]

theorem advance_moves (here : state.rest = np :: rest) : Moves state (advance np rest state) := by
  apply Moves.keeps (advance_stmts here) rfl
  unfold weight
  rw [advance_stmts here, here, List.length_cons]
  change _ + 3 * rest.length + 2 < _
  change (if state.modjmp = true then _ else _) + 3 * rest.length + 2 < _
  omega

theorem goto_moves {point : Point} (here : state.rest = np :: rest) (less : rank point < rank state.point) :
    Moves state { state with rest := np :: rest, point } := by
  rw [← here]
  refine Moves.keeps ?_ ?_ ?_
  · rfl
  · rfl
  · exact Nat.add_lt_add_left less _

theorem delstmt_moves (here : state.rest = np :: rest)
    (refcnt : Sym → Int) : Moves state (delstmt rest { state with refcnt }) := by
  apply Moves.deletes
  unfold State.stmts delstmt
  rw [here, List.length_append, List.length_append, List.length_cons]
  exact Nat.lt_succ_self _

theorem restart_moves (done : state.rest = []) (modjmp : state.modjmp = true) :
    Moves state { state with done := [], rest := state.done.reverse, modjmp := false } := by
  apply Moves.keeps
  · unfold State.stmts
    rw [done, List.append_nil]
    rfl
  · rfl
  · unfold weight State.stmts
    rw [modjmp, done, List.append_nil, if_pos rfl]
    dsimp only
    rw [if_neg (by decide), List.length_nil]
    omega

theorem enter_moves {state next : State} (here : state.rest = np :: rest) (enter : state.point = .enter)
    (stepped : rewrite state = some next) : Moves state next := by
  unfold rewrite at stepped
  rw [here] at stepped
  dsimp only at stepped
  rw [enter] at stepped
  dsimp only at stepped
  split at stepped
  · split at stepped
    · cases stepped
    · split_ifs at stepped
      · cases stepped
        exact delstmt_moves here state.refcnt
      · cases stepped
        exact advance_moves here
  · have less : rank .branch < rank state.point := by
      rw [enter]
      decide
    cases stepped
    exact goto_moves here less
  · split at stepped
    · cases stepped
    · split_ifs at stepped
      · cases stepped
        exact delstmt_moves here _
      · have less : rank .chain_jumps < rank state.point := by
          rw [enter]
          decide
        cases stepped
        exact goto_moves here less
  · cases stepped
    exact advance_moves here

theorem branch_moves {state next : State} (here : state.rest = np :: rest) (branch : state.point = .branch)
    (stepped : rewrite state = some next) : Moves state next := by
  unfold rewrite at stepped
  rw [here] at stepped
  dsimp only at stepped
  rw [branch] at stepped
  dsimp only at stepped
  split_ifs at stepped
  split at stepped
  · rename_i jump after found
    have ⟨left, _, same⟩ := Option.map_eq_some_iff.mp stepped
    have length : rest.length = after.length + 1 := by
      unfold overJump at found
      split at found
      · split_ifs at found
        cases found
        rfl
      · cases found
    subst same
    apply Moves.deletes
    unfold State.stmts
    rw [here, List.length_append, List.length_append, List.length_cons, List.length_cons, length]
    exact Nat.lt_succ_self _
  · have less : rank .chain_jumps < rank state.point := by
      rw [branch]
      decide
    cases stepped
    exact goto_moves here less

theorem chain_moves {state next : State} (here : state.rest = np :: rest) (chain : state.point = .chain_jumps)
    (stepped : rewrite state = some next) : Moves state next := by
  rw [rewrite_chain here chain] at stepped
  split at stepped
  · cases stepped
  · rename_i p lands
    split_ifs at stepped with on
    · cases stepped
      exact .leads here chain lands on rfl
    · cases stepped
      exact advance_moves here

theorem rewrite_moves {state next : State} (stepped : rewrite state = some next) : Moves state next := by
  cases here : state.rest with
  | nil =>
    unfold rewrite at stepped
    rw [here] at stepped
    dsimp only at stepped
    split_ifs at stepped with modjmp
    cases stepped
    exact restart_moves here modjmp
  | cons np rest =>
    cases point : state.point with
    | enter => exact enter_moves here point stepped
    | branch => exact branch_moves here point stepped
    | chain_jumps => exact chain_moves here point stepped

def led (state : State) (q : Stmt) : Bool := (landing state q.sym).any (leadsOn q)

def unsettled (state : State) : Nat := state.stmts.countP (led state)

/-- Those of the statements that are not the current one. -/
def others (state : State) : Nat :=
  state.done.countP (led state) + state.rest.tail.countP (led state)

theorem unsettled_cons (here : state.rest = np :: rest) :
    unsettled state = others state + if led state np then 1 else 0 := by
  unfold unsettled others State.stmts
  rw [here, List.countP_append, List.countP_reverse, List.countP_cons, List.tail_cons]
  omega

theorem unsettled_keeps {state next : State} (stmts : next.stmts = state.stmts)
    (stmt : next.stmt = state.stmt) : unsettled next = unsettled state := by
  unfold unsettled led landing
  rw [stmts, stmt]

theorem led_ledOn (here : state.rest = np :: rest)
    (new : Sym) : led (ledOn np rest new state) = led state := by
  funext q
  unfold led
  cases landing_ledOn here new q.sym with
  | inl none_ => rw [none_.1, none_.2]
  | inr related =>
    have ⟨a, b, first, second, like⟩ := related
    rw [first, second]
    exact leadsOn_like rfl like

theorem others_ledOn (here : state.rest = np :: rest)
    (new : Sym) : others (ledOn np rest new state) = others state := by
  unfold others
  rw [led_ledOn here, here]
  rfl

/-- Every statement of a run that is about to be led on comes to an end. -/
def LeadsOut (state : State) : Prop := ∀ next, Reaches state next → Leads next

theorem LeadsOut.step {state next : State} (out : LeadsOut state)
    (stepped : rewrite state = some next) : LeadsOut next :=
  fun last reaches => out last (reaches.step stepped)

theorem chain_terminates {total settled : Nat}
    (later : ∀ next : State, next.stmts.length = total → unsettled next = settled →
      LeadsOut next → Terminates next) (k : Nat) :
    ∀ (state : State) (np : Stmt) (rest : List Stmt), state.rest = np :: rest →
      state.point = .chain_jumps → state.stmts.length = total → others state = settled →
      leaves state np k np.sym = true → LeadsOut state → Terminates state := by
  induction k with
  | zero =>
    intro state np rest _ _ _ _ ends
    cases ends
  | succ k ih =>
    intro state np rest here chain length count ends out
    have stepped := rewrite_chain here chain
    rw [leaves] at ends
    cases lands : landing state np.sym with
    | none =>
      rw [lands] at stepped
      exact Terminates.stuck stepped
    | some p =>
      rw [lands] at stepped ends
      dsimp only at stepped ends
      split_ifs at stepped ends with on
      · apply Terminates.step stepped
        apply ih (ledOn np rest p.sym state) { np with sym := p.sym } rest rfl chain
        · rw [← length]
          exact (ledOn_like here p.sym).length_eq.symm
        · rw [others_ledOn here, count]
        · rw [leaves_ledOn here]
          exact ends
        · exact out.step stepped
      · apply Terminates.step stepped
        apply later
        · rw [advance_stmts here, length]
        · have idle : ¬ led state np = true := by
            unfold led
            rw [lands]
            exact on
          rw [unsettled_keeps (advance_stmts here) rfl, unsettled_cons here, if_neg idle, count, Nat.add_zero]
        · exact out.step stepped

theorem leads_terminates (state : State) (out : LeadsOut state) : Terminates state := by
  induction total : state.stmts.length using Nat.strongRecOn generalizing state with
  | ind total shorter =>
    induction count : unsettled state using Nat.strongRecOn generalizing state with
    | ind count settles =>
      induction left : weight state using Nat.strongRecOn generalizing state with
      | ind left nearer =>
        cases stepped : rewrite state with
        | none => exact Terminates.stuck stepped
        | some next =>
          cases rewrite_moves stepped with
          | deletes less =>
            exact Terminates.step stepped (shorter _ (total ▸ less) next (out.step stepped) rfl)
          | keeps stmts stmt less =>
            apply Terminates.step stepped
            apply nearer _ (left ▸ less) next (out.step stepped)
            · rw [stmts, total]
            · rw [unsettled_keeps stmts stmt, count]
            · rfl
          | leads here chain lands on same =>
            rename_i q p rest
            have goes : led state q = true := by
              unfold led
              rw [lands]
              exact on
            have more := unsettled_cons here
            rw [if_pos goes] at more
            have ⟨k, ends⟩ := out state ⟨0, rfl⟩ chain q (by rw [here]; rfl)
            apply @chain_terminates _ (others state) _ k state q rest here chain total rfl ends out
            intro next length fewer leads
            exact settles (unsettled next) (by omega) next leads length rfl

/-- `optjmps()` comes to an end if and only if no statement that it is about to lead on leads into a
circle of jumps that the statement is not in. -/
theorem terminates_iff_leadsOut (state : State) : Terminates state ↔ LeadsOut state := by
  constructor
  · intro terminates next reaches
    exact not_not.mp fun circle => circle_never circle (terminates.reached reaches)
  · exact leads_terminates state

/-- `if (c) goto 1; x; 1: goto 1;` -/
def emptyLoop : List Event := [
  .jump 0 1 .OBRANCH 2 .OEQ, .jump 1 2 .OJMP 1 .ONOP, .insert 2 3 .ONOP, .labelstmt 2 2, .insert 3 4 .OASSIG,
  .insert 4 5 .ONOP, .labelstmt 4 1, .jump 5 6 .OJMP 1 .ONOP, .insert 6 7 .OEFUN]

/-- A statement is led on to its own label, where another jump stands. -/
def circles (state : State) : Bool :=
  match state.rest with
  | [] => false
  | np :: _ =>
    state.point = .chain_jumps &&
      (landing state np.sym).any fun p => leadsOn np p && p.sym = np.sym

theorem circles_leads (circle : circles state = true) : ¬ Leads state := by
  unfold circles at circle
  split at circle
  · cases circle
  · rename_i np rest here
    rw [Bool.and_eq_true, decide_eq_true_eq, Option.any_eq_true] at circle
    have ⟨chain, p, lands, both⟩ := circle
    rw [Bool.and_eq_true, decide_eq_true_eq] at both
    intro leads
    have ⟨k, ends⟩ := leads chain np (by rw [here]; rfl)
    induction k with
    | zero => cases ends
    | succ k ih =>
      rw [leaves, lands] at ends
      dsimp only at ends
      rw [if_pos both.1, both.2] at ends
      exact ih ends

/-- The branch is turned into one to the first label and led on to its own jump again and again. -/
theorem empty_loop_never :
    ¬ ∀ events state, run step start (events ++ [.optjmps]) = some state → Terminates state := by
  intro always
  have computed : ((run step start (emptyLoop ++ [.optjmps])).bind (steps 3)).any circles = true := by
    decide +kernel
  rw [Option.any_eq_true] at computed
  have ⟨next, both, circle⟩ := computed
  have ⟨state, built, reached⟩ := Option.bind_eq_some_iff.mp both
  exact circle_never (circles_leads circle) ((always emptyLoop state built).reached ⟨3, reached⟩)

end Scc.Cc2.Cfg
