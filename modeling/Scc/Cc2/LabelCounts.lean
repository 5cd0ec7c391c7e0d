import Mathlib.Data.List.Perm.Basic
import Scc.Cc2.Cfg

/-!
# Reference counts of labels

Every step that builds the list keeps the counts of the labels right, and so does every
rewrite but one: a jump to a jump is led on to another label whose count stays behind.
Where no jump is led on, and no jump that bears a label still in use is deleted, every
jump finds its label.
-/

namespace Scc.Cc2.Cfg

open Scc.Lib.Run

set_option autoImplicit false

/-- The number of statements and kept nodes that refer to a label. -/
def references (state : State) (sym : Sym) : Nat :=
  state.stmts.countP (fun np => np.target = some sym) + state.swtch.count sym

def Refers (state : State) (sym : Sym) : Prop :=
  (∃ np ∈ state.stmts, np.target = some sym) ∨ sym ∈ state.swtch

/-- The label is in the list, where it points at. -/
def Present (state : State) (sym : Sym) : Prop :=
  ∃ np ∈ state.stmts, np.label = some sym ∧ state.stmt sym = some np.addr

/-- The counts are right, and while the list is rewritten every label in use is there. -/
structure Consistent (state : State) : Prop where
  counted : ∀ sym, state.refcnt sym = references state sym
  present : state.rewriting = true → ∀ sym, Refers state sym → Present state sym

def redirects (state : State) : Bool :=
  match state.rest with
  | np :: _ =>
    state.point = .chain_jumps &&
      match skipnop none (listAt (state.stmt np.sym) state.stmts) with
      | some p => p.addr ≠ np.addr && p.op = .OJMP
      | none => false
  | [] => false

/-- A jump that bears a label in use is deleted. -/
def losesLabel (state : State) : Bool :=
  match state.rest with
  | np :: rest =>
    state.point = .enter && np.op = .OJMP &&
      np.label.any (fun label => state.refcnt label ≠ 0) &&
        match skipnop (state.stmt np.sym) rest with
        | some p => some p.addr = state.stmt np.sym
        | none => false
  | [] => false

def targets (state : State) : List Sym := state.stmts.filterMap Stmt.target ++ state.swtch

/-- What the counts ask of a step: the list that `optjmps()` is given has the labels
that it refers to, and the two rewrites that go wrong are not made. -/
def Sound (state : State) : Event → Prop
  | .optjmps => ∀ sym ∈ targets state, Present state sym
  | .rewrite => redirects state = false ∧ losesLabel state = false
  | _ => True

instance (state : State) (sym : Sym) : Decidable (Present state sym) :=
  inferInstanceAs (Decidable (∃ np ∈ state.stmts, _ ∧ _))

instance (state : State) : (event : Event) → Decidable (Sound state event)
  | .optjmps => inferInstanceAs (Decidable (∀ sym ∈ targets state, Present state sym))
  | .rewrite => inferInstanceAs (Decidable (_ ∧ _))
  | .insert _ _ _ => isTrue trivial
  | .jump _ _ _ _ _ => isTrue trivial
  | .labelstmt _ _ => isTrue trivial
  | .keep _ => isTrue trivial
  | .place _ _ _ _ _ => isTrue trivial
  | .branched _ => isTrue trivial

theorem references_zipper (state : State) (sym : Sym) : references state sym =
      state.done.countP (fun np => np.target = some sym) +
        state.rest.countP (fun np => np.target = some sym) + state.swtch.count sym := by
  unfold references State.stmts
  rw [List.countP_append, List.countP_reverse]

theorem refers_iff (state : State) (sym : Sym) : Refers state sym ↔ 0 < references state sym := by
  unfold Refers references
  rw [Nat.add_pos_iff_pos_or_pos, List.countP_pos_iff, List.count_pos_iff]
  simp

theorem refers_targets (state : State) (sym : Sym) : Refers state sym ↔ sym ∈ targets state := by
  unfold Refers targets
  rw [List.mem_append, List.mem_filterMap]

variable {state next : State} {np : Stmt} {event : Event} {rest : List Stmt}

theorem not_refers (counted : ∀ sym, state.refcnt sym = references state sym)
    {label : Sym} (zero : state.refcnt label = 0) : ¬ Refers state label := by
  rw [refers_iff]
  have same := counted label
  omega

def uses (np : Stmt) (sym : Sym) : Nat := if np.target = some sym then 1 else 0

theorem countP_uses (np : Stmt) (stmts : List Stmt) (sym : Sym) :
    (np :: stmts).countP (fun np => np.target = some sym) =
      stmts.countP (fun np => np.target = some sym) + uses np sym := by
  rw [List.countP_cons]
  simp [uses]

theorem insertStmt_counted {index : Nat} (made : insertStmt index np state = some next) (sym : Sym) :
    next.refcnt sym = state.refcnt sym ∧ references next sym = references state sym + uses np sym := by
  unfold insertStmt at made
  split_ifs at made with refused
  rw [not_or, Nat.not_lt] at refused
  cases made
  refine ⟨rfl, ?_⟩
  simp only [references_zipper]
  rw [(List.perm_insertIdx np state.rest refused.2).countP_eq, countP_uses]
  omega

theorem uses_jump (jump : isJump np.op = true) (sym : Sym) : uses np sym = if np.sym = sym then 1 else 0 := by
  simp only [isJump, Bool.or_eq_true, decide_eq_true_eq] at jump
  simp only [uses, Stmt.target, if_pos jump, Option.some.injEq]

theorem uses_other (other : isJump np.op = false) (sym : Sym) : uses np sym = 0 := by
  simp only [isJump, Bool.or_eq_false_iff, decide_eq_false_iff_not] at other
  simp [uses, Stmt.target, other]

theorem eraseIdx_uses {stmts : List Stmt} {index : Nat} (here : stmts[index]? = some np)
    (sym : Sym) : (stmts.eraseIdx index).countP (fun np => np.target = some sym) + uses np sym =
      stmts.countP (fun np => np.target = some sym) := by
  rcases List.getElem?_eq_some_iff.mp here with ⟨inside, rfl⟩
  rw [← countP_uses, (List.getElem_cons_eraseIdx_perm inside).countP_eq]

theorem add_eq (count : Sym → Int) (sym : Sym) (n : Int) (other : Sym) :
    add count sym n other = count other + if sym = other then n else 0 := by
  unfold add
  split_ifs
  · rfl
  · exact (Int.add_zero _).symm

theorem build_counted (counted : ∀ sym, state.refcnt sym = references state sym)
    (built : build state event = some next) : ∀ sym, next.refcnt sym = references next sym := by
  intro sym
  have before := counted sym
  cases event with
  | insert index addr op =>
    simp only [build] at built
    split_ifs at built with jump
    have made := insertStmt_counted built sym
    rw [uses_other (by simpa using jump)] at made
    omega
  | jump index addr op label left =>
    simp only [build] at built
    split_ifs at built with jump
    have made := insertStmt_counted built sym
    rw [uses_jump jump] at made
    change next.refcnt sym = add state.refcnt label 1 sym ∧
      references next sym = references state sym + (if label = sym then 1 else 0) at made
    have added := add_eq state.refcnt label 1 sym
    split_ifs at made added <;> omega
  | labelstmt index label =>
    simp only [build] at built
    split at built
    · cases built
    · rename_i np here
      cases built
      rcases List.getElem?_eq_some_iff.mp here with ⟨inside, rfl⟩
      have relabelled : (state.rest.set index { state.rest[index] with label := some label }).countP
          (fun np => np.target = some sym) =
            state.rest.countP (fun np => np.target = some sym) := by
        rw [(List.set_perm_cons_eraseIdx inside _).countP_eq, countP_uses]
        exact eraseIdx_uses here sym
      rw [references_zipper] at before ⊢
      simp only
      rw [before, relabelled]
  | keep label =>
    cases built
    have added := add_eq state.refcnt label 1 sym
    rw [references_zipper] at before ⊢
    simp only [List.count_cons, beq_iff_eq]
    split_ifs at added ⊢ <;> omega
  | place kept index addr op left =>
    simp only [build] at built
    split at built
    · cases built
    · rename_i label here
      split_ifs at built with jump
      have made := insertStmt_counted built sym
      rw [uses_jump jump] at made
      rcases List.getElem?_eq_some_iff.mp here with ⟨inside, rfl⟩
      have erased := (List.getElem_cons_eraseIdx_perm inside).count_eq sym
      rw [List.count_cons] at erased
      have zipper : references { state with swtch := state.swtch.eraseIdx kept } sym +
          (if state.swtch[kept] = sym then 1 else 0) = references state sym := by
        unfold references State.stmts
        simp only [beq_iff_eq] at erased
        simp only
        omega
      change next.refcnt sym = state.refcnt sym ∧
        references next sym = _ + (if state.swtch[kept] = sym then 1 else 0) at made
      omega
  | branched index =>
    simp only [build] at built
    split at built
    · cases built
    · rename_i np here
      split_ifs at built with isBranch
      cases built
      have erased := eraseIdx_uses here sym
      have jump : isJump np.op = true := by
        rw [isBranch]
        rfl
      rw [uses_jump jump] at erased
      have removed := add_eq state.refcnt np.sym (-1) sym
      rw [references_zipper] at before ⊢
      simp only
      split_ifs at erased removed <;> omega
  | optjmps =>
    cases built
    exact before
  | rewrite => cases built

/-- What a rewrite that goes right does: it moves on, deletes a statement whose label
is not in use, or leads a branch over a jump to the target of the jump. -/
inductive Rewrites (state next : State) : Prop where
  | moved (stmts : next.stmts = state.stmts) (refcnt : next.refcnt = state.refcnt)
  | deleted (before after : List Stmt) (np : Stmt) (old : state.stmts = before ++ np :: after)
      (new : next.stmts = before ++ after)
      (refcnt : ∀ sym, next.refcnt sym = state.refcnt sym - uses np sym)
      (unused : ∀ label ∈ np.label, state.refcnt label = 0)
  | inverted (before after : List Stmt) (np np' jump : Stmt)
      (old : state.stmts = before ++ np :: jump :: after) (new : next.stmts = before ++ np' :: after)
      (same : np'.label = np.label ∧ np'.addr = np.addr) (target : np'.target = jump.target)
      (refcnt : ∀ sym, next.refcnt sym = state.refcnt sym - uses np sym)
      (unused : ∀ label ∈ jump.label, state.refcnt label = 0)

def Frame (state next : State) : Prop :=
  next.swtch = state.swtch ∧ next.stmt = state.stmt ∧ next.rewriting = state.rewriting

theorem advance_rewrites (here : state.rest = np :: rest) :
    Rewrites state (advance np rest state) ∧ Frame state (advance np rest state) := by
  refine ⟨Rewrites.moved ?_ rfl, rfl, rfl, rfl⟩
  simp [State.stmts, advance, here]

theorem goto_rewrites (here : state.rest = np :: rest)
    (point : Point) : Rewrites state { state with rest := np :: rest, point } ∧
      Frame state { state with rest := np :: rest, point } := by
  refine ⟨Rewrites.moved ?_ rfl, rfl, rfl, rfl⟩
  simp [State.stmts, here]

theorem uses_nop (nop : np.op = .ONOP) (sym : Sym) : uses np sym = 0 :=
  uses_other (by rw [nop]; rfl) sym

theorem add_uses (jump : isJump np.op = true) (refcnt : Sym → Int) (sym : Sym) :
    add refcnt np.sym (-1) sym = refcnt sym - uses np sym := by
  rw [add_eq, uses_jump jump]
  split_ifs <;> omega

theorem enter_rewrites (here : state.rest = np :: rest) (point : state.point = .enter)
    (keeps : losesLabel state = false) (rewritten : rewrite state = some next) :
    Rewrites state next ∧ Frame state next := by
  unfold rewrite at rewritten
  simp only [here, point] at rewritten
  split at rewritten
  · rename_i nop
    split at rewritten
    · cases rewritten
    · rename_i label isLabel
      split_ifs at rewritten with zero
      · cases rewritten
        refine ⟨Rewrites.deleted state.done.reverse rest np ?_ rfl ?_ ?_, rfl, rfl, rfl⟩
        · rw [State.stmts, here]
        · intro sym
          rw [uses_nop nop]
          exact (Int.sub_zero _).symm
        · intro label' member
          rw [isLabel] at member
          cases member
          exact zero
      · cases rewritten
        exact advance_rewrites here
  · cases rewritten
    exact goto_rewrites here _
  · rename_i isJmp
    have jump : isJump np.op = true := by
      rw [isJmp]
      rfl
    split at rewritten
    · cases rewritten
    · rename_i p found
      split_ifs at rewritten with reached
      · cases rewritten
        refine ⟨Rewrites.deleted state.done.reverse rest np ?_ rfl (add_uses jump state.refcnt) ?_,
          rfl, rfl, rfl⟩
        · rw [State.stmts, here]
        · intro label member
          by_contra used
          have isSome : np.label = some label := member
          simp [losesLabel, here, point, isJmp, isSome, used, found, reached] at keeps
      · cases rewritten
        exact goto_rewrites here _
  · cases rewritten
    exact advance_rewrites here

theorem branch_rewrites
    (here : state.rest = np :: rest) (point : state.point = .branch) (isBranch : np.op = .OBRANCH)
    (rewritten : rewrite state = some next) : Rewrites state next ∧ Frame state next := by
  unfold rewrite at rewritten
  simp only [here, point] at rewritten
  split_ifs at rewritten
  split at rewritten
  · rename_i jump after skips
    rcases Option.map_eq_some_iff.mp rewritten with ⟨left, _, rfl⟩
    unfold overJump at skips
    split at skips
    · rename_i jump' after'
      split_ifs at skips with isOver
      cases skips
      have isJump : Cfg.isJump np.op = true := by
        rw [isBranch]
        rfl
      refine ⟨Rewrites.inverted state.done.reverse after np { np with sym := jump.sym, left } jump
        ?_ rfl ⟨rfl, rfl⟩ ?_ (add_uses isJump state.refcnt) isOver.2.2, rfl, rfl, rfl⟩
      · rw [State.stmts, here]
      · simp [Stmt.target, isBranch, isOver.1]
    · cases skips
  · cases rewritten
    exact goto_rewrites here _

theorem chain_rewrites (here : state.rest = np :: rest) (point : state.point = .chain_jumps)
    (stays : redirects state = false) (rewritten : rewrite state = some next) :
    Rewrites state next ∧ Frame state next := by
  unfold rewrite at rewritten
  simp only [here, point] at rewritten
  split at rewritten
  · cases rewritten
  · rename_i p found
    split_ifs at rewritten with led
    · simp [redirects, here, point, found, led] at stays
    · cases rewritten
      exact advance_rewrites here

/-- The current statement is a branch while branches over jumps are looked for. -/
def Placed (state : State) : Prop :=
  state.point = .branch → ∃ np rest, state.rest = np :: rest ∧ np.op = .OBRANCH

theorem rewrite_rewrites (placed : Placed state) (sound : Sound state .rewrite)
    (rewritten : rewrite state = some next) : Rewrites state next ∧ Frame state next := by
  cases here : state.rest with
  | nil =>
    unfold rewrite at rewritten
    simp only [here] at rewritten
    split_ifs at rewritten
    cases rewritten
    refine ⟨Rewrites.moved ?_ rfl, rfl, rfl, rfl⟩
    simp [State.stmts, here]
  | cons np rest =>
    cases point : state.point with
    | enter => exact enter_rewrites here point sound.2 rewritten
    | branch =>
      rcases placed point with ⟨np', rest', here', isBranch⟩
      rw [here] at here'
      cases here'
      exact branch_rewrites here point isBranch rewritten
    | chain_jumps => exact chain_rewrites here point sound.1 rewritten

theorem placed_enter (enter : state.point = .enter) : Placed state := by
  intro branch
  rw [enter] at branch
  cases branch

theorem placed_chain (chain : state.point = .chain_jumps) : Placed state := by
  intro branch
  rw [chain] at branch
  cases branch

theorem placed_branch (here : state.rest = np :: rest)
    (isBranch : np.op = .OBRANCH) : Placed state := fun _ => ⟨np, rest, here, isBranch⟩

theorem rewrite_placed (placed : Placed state) (rewritten : rewrite state = some next) : Placed next := by
  cases here : state.rest with
  | nil =>
    simp only [rewrite, here] at rewritten
    split_ifs at rewritten
    cases rewritten
    intro branch
    rcases placed branch with ⟨np, rest, here', _⟩
    rw [here] at here'
    cases here'
  | cons np rest =>
    cases point : state.point with
    | enter =>
      simp only [rewrite, here, point] at rewritten
      split at rewritten
      · split at rewritten
        · cases rewritten
        · split_ifs at rewritten <;> cases rewritten <;> exact placed_enter rfl
      · rename_i isBranch
        cases rewritten
        exact placed_branch rfl isBranch
      · split at rewritten
        · cases rewritten
        · split_ifs at rewritten <;> cases rewritten
          · exact placed_enter rfl
          · exact placed_chain rfl
      · cases rewritten
        exact placed_enter rfl
    | branch =>
      rcases placed point with ⟨np', rest', here', isBranch⟩
      rw [here] at here'
      cases here'
      simp only [rewrite, here, point] at rewritten
      split_ifs at rewritten
      split at rewritten
      · rcases Option.map_eq_some_iff.mp rewritten with ⟨left, _, rfl⟩
        exact placed_branch rfl isBranch
      · cases rewritten
        exact placed_chain rfl
    | chain_jumps =>
      simp only [rewrite, here, point] at rewritten
      split at rewritten
      · cases rewritten
      · split_ifs at rewritten <;> cases rewritten
        · exact placed_chain rfl
        · exact placed_enter rfl

theorem references_stmts (swtch : next.swtch = state.swtch) {sym : Sym} {n : Nat}
    (stmts : next.stmts.countP (fun np => np.target = some sym) + n =
      state.stmts.countP (fun np => np.target = some sym)) :
    references next sym + n = references state sym := by
  unfold references
  rw [swtch]
  omega

theorem Rewrites.counted (rewrites : Rewrites state next)
    (frame : Frame state next) (counted : ∀ sym, state.refcnt sym = references state sym) :
    ∀ sym, next.refcnt sym = references next sym := by
  intro sym
  have before := counted sym
  cases rewrites with
  | moved stmts refcnt =>
    rw [refcnt, before]
    unfold references
    rw [stmts, frame.1]
  | deleted front after np old new refcnt unused =>
    have count : references next sym + uses np sym = references state sym := by
      apply references_stmts frame.1
      rw [old, new, List.countP_append, List.countP_append, countP_uses]
      omega
    rw [refcnt, before]
    omega
  | inverted front after np np' jump old new same target refcnt unused =>
    have moved : uses np' sym = uses jump sym := by
      unfold uses
      rw [target]
    have count : references next sym + uses np sym = references state sym := by
      apply references_stmts frame.1
      rw [old, new, List.countP_append, List.countP_append, countP_uses, countP_uses, countP_uses, moved]
      omega
    rw [refcnt, before]
    omega

theorem present_keeps (stmt : next.stmt = state.stmt) (refers : ∀ sym, Refers next sym → Refers state sym)
    (bears : ∀ np ∈ state.stmts, ∀ label ∈ np.label, Refers state label →
      ∃ np' ∈ next.stmts, np'.label = np.label ∧ np'.addr = np.addr)
    (present : ∀ sym, Refers state sym → Present state sym) : ∀ sym, Refers next sym → Present next sym := by
  intro sym used
  have before := refers sym used
  rcases present sym before with ⟨np, member, label, points⟩
  rcases bears np member sym label before with ⟨np', member', sameLabel, sameAddr⟩
  refine ⟨np', member', sameLabel.trans label, ?_⟩
  rw [stmt, sameAddr]
  exact points

theorem Rewrites.present (rewrites : Rewrites state next)
    (frame : Frame state next) (counted : ∀ sym, state.refcnt sym = references state sym)
    (present : ∀ sym, Refers state sym → Present state sym) : ∀ sym, Refers next sym → Present next sym := by
  have refers_of : (∀ np ∈ next.stmts, ∀ sym, np.target = some sym → Refers state sym) →
      ∀ sym, Refers next sym → Refers state sym := by
    intro targets sym used
    rcases used with ⟨np, member, target⟩ | kept
    · exact targets np member sym target
    · rw [frame.1] at kept
      exact Or.inr kept
  apply present_keeps frame.2.1 _ _ present
  · apply refers_of
    intro np member sym target
    cases rewrites with
    | moved stmts refcnt =>
      rw [stmts] at member
      exact Or.inl ⟨np, member, target⟩
    | deleted front after gone old new refcnt unused =>
      rw [new] at member
      refine Or.inl ⟨np, ?_, target⟩
      rw [old]
      rcases List.mem_append.mp member with inFront | inAfter
      · exact List.mem_append_left _ inFront
      · exact List.mem_append_right _ (List.mem_cons_of_mem gone inAfter)
    | inverted front after branch branch' jump old new same targets refcnt unused =>
      rw [new] at member
      rcases List.mem_append.mp member with inFront | here
      · refine Or.inl ⟨np, ?_, target⟩
        rw [old]
        exact List.mem_append_left _ inFront
      · rcases List.mem_cons.mp here with rfl | inAfter
        · refine Or.inl ⟨jump, ?_, targets.symm.trans target⟩
          rw [old]
          simp
        · refine Or.inl ⟨np, ?_, target⟩
          rw [old]
          simp [inAfter]
  · intro np member label isLabel used
    cases rewrites with
    | moved stmts refcnt =>
      rw [stmts]
      exact ⟨np, member, rfl, rfl⟩
    | deleted front after gone old new refcnt unused =>
      rw [old] at member
      rw [new]
      rcases List.mem_append.mp member with inFront | here
      · exact ⟨np, List.mem_append_left _ inFront, rfl, rfl⟩
      · rcases List.mem_cons.mp here with rfl | inAfter
        · exact absurd used (not_refers counted (unused label isLabel))
        · exact ⟨np, List.mem_append_right _ inAfter, rfl, rfl⟩
    | inverted front after branch branch' jump old new same targets refcnt unused =>
      rw [old] at member
      rw [new]
      rcases List.mem_append.mp member with inFront | here
      · exact ⟨np, List.mem_append_left _ inFront, rfl, rfl⟩
      · rcases List.mem_cons.mp here with rfl | later
        · exact ⟨branch', by simp, same⟩
        · rcases List.mem_cons.mp later with rfl | inAfter
          · exact absurd used (not_refers counted (unused label isLabel))
          · exact ⟨np, by simp [inAfter], rfl, rfl⟩

structure Invariant (state : State) : Prop where
  consistent : Consistent state
  placed : Placed state
  building : state.rewriting = false → state.point = .enter

theorem build_phase (built : build state event = some next) : next.point = state.point ∧
      (next.rewriting = state.rewriting ∨ event = .optjmps ∧ next = { state with rewriting := true }) := by
  have inserted : ∀ {index : Nat} {np : Stmt} {before after : State},
      insertStmt index np before = some after →
        after.point = before.point ∧ after.rewriting = before.rewriting := by
    intro index np before after made
    unfold insertStmt at made
    split_ifs at made
    cases made
    exact ⟨rfl, rfl⟩
  unfold build at built
  split at built
  · split_ifs at built
    have made := inserted built
    exact ⟨made.1, Or.inl made.2⟩
  · split_ifs at built
    have made := inserted built
    exact ⟨made.1, Or.inl made.2⟩
  · split at built
    · cases built
    · cases built
      exact ⟨rfl, Or.inl rfl⟩
  · cases built
    exact ⟨rfl, Or.inl rfl⟩
  · split at built
    · cases built
    · split_ifs at built
      have made := inserted built
      exact ⟨made.1, Or.inl made.2⟩
  · split at built
    · cases built
    · split_ifs at built
      cases built
      exact ⟨rfl, Or.inl rfl⟩
  · cases built
    exact ⟨rfl, Or.inr ⟨rfl, rfl⟩⟩
  · cases built

theorem step_invariant (inv : Invariant state)
    (sound : Sound state event) (stepped : step state event = some next) : Invariant next := by
  unfold step at stepped
  cases phase : state.rewriting with
  | true =>
    rw [if_pos phase] at stepped
    cases event with
    | rewrite =>
      have rewrites := rewrite_rewrites inv.placed sound stepped
      have present := rewrites.1.present rewrites.2 inv.consistent.counted
        (inv.consistent.present phase)
      constructor
      · exact ⟨rewrites.1.counted rewrites.2 inv.consistent.counted, fun _ => present⟩
      · exact rewrite_placed inv.placed stepped
      · intro building
        rw [rewrites.2.2.2, phase] at building
        cases building
    | _ => cases stepped
  | false =>
    rw [if_neg (by simp [phase])] at stepped
    have built := build_phase stepped
    have enter := built.1.trans (inv.building phase)
    refine ⟨⟨build_counted inv.consistent.counted stepped, ?_⟩, placed_enter enter, fun _ => enter⟩
    intro inside
    rcases built.2 with same | ⟨rfl, rfl⟩
    · rw [same, phase] at inside
      cases inside
    · intro sym refers
      exact sound sym ((refers_targets state sym).mp refers)

theorem start_invariant : Invariant start where
  consistent := ⟨fun _ => rfl, fun rewriting => by cases rewriting⟩
  placed := placed_enter rfl
  building := fun _ => rfl

/-- In every state that is reached without the two rewrites that go wrong, each count is
the number of references, and every jump finds its label. -/
theorem label_counts (events : List Event) (state : State)
    (sound : Meets step Sound start events) (reached : run step start events = some state) :
    Consistent state :=
  (run_invariant Invariant (fun _ _ _ inv sound stepped => step_invariant inv sound stepped)
    start_invariant sound reached).consistent

/-- `if (c) goto 1; goto 2; 1: ; x; 2: ;` -/
def branchOverJump : List Event := [
  .jump 0 1 .OBRANCH 1 .OEQ, .jump 1 2 .OJMP 2 .ONOP, .insert 2 3 .ONOP, .labelstmt 2 1, .insert 3 4 .OASSIG,
  .insert 4 5 .ONOP, .labelstmt 4 2, .insert 5 6 .OEFUN, .optjmps,
  .rewrite, .rewrite, .rewrite, .rewrite, .rewrite]

theorem branch_over_jump_consistent : ∃ state, run step start branchOverJump = some state ∧
    Consistent state := by
  have reached : ∃ state, run step start branchOverJump = some state := ⟨_, rfl⟩
  rcases reached with ⟨state, reached⟩
  exact ⟨state, reached, label_counts branchOverJump state (by decide) reached⟩

/-- `if (c) goto 1; x; 1: goto 2; 2: ;` -/
def jumpToJump : List Event := [
  .jump 0 1 .OBRANCH 1 .OEQ, .insert 1 2 .OASSIG, .insert 2 3 .ONOP, .labelstmt 2 1, .jump 3 4 .OJMP 2 .ONOP,
  .insert 4 5 .ONOP, .labelstmt 4 2, .insert 5 6 .OEFUN, .optjmps,
  .rewrite, .rewrite, .rewrite, .rewrite, .rewrite, .rewrite, .rewrite, .rewrite]

/-- The branch is led on to the second label, which is deleted with the jump. -/
theorem jump_to_jump_loses_label :
    ¬ ∀ events state, run step start events = some state → Consistent state := by
  intro always
  have reached : ∃ state, run step start jumpToJump = some state ∧ state.refcnt 2 = 0 ∧
      references state 2 = 1 := ⟨_, rfl, rfl, rfl⟩
  rcases reached with ⟨state, reached, zero, one⟩
  have counted := (always jumpToJump state reached).counted 2
  rw [zero, one] at counted
  cases counted

end Scc.Cc2.Cfg
