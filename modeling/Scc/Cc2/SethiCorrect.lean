import Scc.Cc2.SethiCounting

/-!
# The lowering of a statement

An expression statement, perhaps after a branch. The branch must lead to its label or
to the statement, and from where it leads to the tree of the statement must be
evaluated. A branch on a logical operator leads to the label that `sethi()` has given
to the next statement before that one is lowered itself.
-/

namespace Scc.Cc2

open Relation Scc.Lib.Reaching

set_option autoImplicit false

/-- The statements that the parser has made. -/
def forest (before : Option (Node × Sym)) (np : Node) : List Stmt :=
  match before with
  | none => [⟨none, .expr np⟩]
  | some (cond, sym) => [⟨none, .OBRANCH cond sym⟩, ⟨none, .expr np⟩]

/-- The rest of the function has older labels, among them that of the branch. -/
structure Surrounded (before : Option (Node × Sym)) (front rest : List Stmt) (fresh : Nat) : Prop where
  below : ∀ sym : Nat, sym ∈ labels front ∨ sym ∈ labels rest → sym < fresh
  jump : ∀ cond sym, before = some (cond, sym) → sym ∈ labels front ∨ sym ∈ labels rest

def program (before : Option (Node × Sym)) (np : Node) (front rest : List Stmt) (fresh : Nat) :
    List Stmt :=
  front ++ ((genaddr (forest before np) fresh).1 ++ rest)

/-- Where the program is when the branch is not taken: at the label that `bool()` jumps
to, or behind the branch. -/
def entry (before : Option (Node × Sym)) (np : Node) (front rest : List Stmt) (fresh : Nat) :
    Option (List Stmt) :=
  match before with
  | none => some ((genaddr (forest none np) fresh).1 ++ rest)
  | some (cond, sym) =>
    if logical cond.op then target (program before np front rest fresh) fresh
    else some ((sethiExpr (some fresh) np (sethiBranch none cond sym fresh (fresh + 1)).2).1 ++ rest)

/-- Whatever the operators do, the branch and the tree of the statement are evaluated
as C says. -/
structure Correct (before : Option (Node × Sym)) (np : Node) : Prop where
  branches : ∀ {V S : Type} (I : Interp V S) (front rest : List Stmt) (fresh : Nat) (tmps : Sym → V)
    (s : S) (last : Option V) (cond : Node) (sym : Sym) (into start : List Stmt),
    Surrounded before front rest fresh → before = some (cond, sym) →
      target (program before np front rest fresh) sym = some into →
      entry before np front rest fresh = some start →
        Reaches I (program before np front rest fresh)
          (fun c => ∃ v, Evals I (load tmps cond) s v c.state ∧
            c.rest = if I.truthy v then into else start)
          ⟨(genaddr (forest before np) fresh).1 ++ rest, tmps, s, last⟩
  evaluates : ∀ {V S : Type} (I : Interp V S) (front rest : List Stmt) (fresh : Nat) (tmps : Sym → V)
    (s : S) (last : Option V), Surrounded before front rest fresh →
      ∃ start, entry before np front rest fresh = some start ∧
        Reaches I (program before np front rest fresh)
          (fun c => c.rest = rest ∧ ∃ v, Evals I (load tmps np) s v c.state ∧ c.last = some v)
          ⟨start, tmps, s, last⟩

theorem genaddr_expr (label : Option Sym) (np : Node) (fresh : Nat) :
    genaddr [⟨label, .expr np⟩] fresh = sethiExpr label np fresh := by
  rw [genaddr, genaddr]
  simp

theorem genaddr_branch (cond : Node) (sym : Sym) (np : Node) (fresh : Nat) :
    (genaddr (forest (some (cond, sym)) np) fresh).1 = (sethiBranch none cond sym fresh (fresh + 1)).1 ++
        (sethiExpr (some fresh) np (sethiBranch none cond sym fresh (fresh + 1)).2).1 := by
  rw [forest, genaddr, genaddr_expr]

variable {np cond : Node}

theorem unordered_alone (isParsed : np.parsed = true) (unordered : np.ordered = false)
    (fresh : Nat) : (sethi np fresh).2.1 = [] := by
  induction np generalizing fresh with
  | nil => rw [sethi_nil]
  | node op type u left right ihLeft ihRight =>
    rcases parsed_node isParsed with ⟨isExpression, operands_, leftParsed, rightParsed⟩
    simp only [Node.ordered, Bool.or_eq_false_iff] at unordered
    rcases op_cases left operands_ with isLogical | isComma | ⟨isAsk, isColon⟩ | isAddressable |
      isComplement | ⟨isPlain, notAddressable⟩
    · cases op <;> first | exact absurd isLogical (by decide) | exact absurd unordered.1.1 (by decide)
    · rw [isComma] at unordered
      exact absurd unordered.1.1 (by decide)
    · rw [isAsk] at unordered
      exact absurd unordered.1.1 (by decide)
    · rw [sethi_addressable isAddressable]
    · cases isComplement
      rw [sethi_complement]
      exact ihLeft leftParsed unordered.1.2 fresh
    · rw [sethi_plain isPlain notAddressable]
      dsimp only
      rw [ihLeft leftParsed unordered.1.2 fresh, ihRight rightParsed unordered.2]
      rfl

theorem unordered_kept (unordered : np.ordered = false) : replaced np.op = false := by
  cases np with
  | nil => rfl
  | node op type u left right =>
    simp only [Node.ordered, Bool.or_eq_false_iff] at unordered
    have notControl := unordered.1.1
    cases op <;> first | rfl | exact absurd notControl (by decide)

theorem branch_numbered (isParsed : cond.parsed = true) (sym next fresh : Nat) :
    Numbered (sethiBranch none cond sym next fresh).1 fresh (sethiBranch none cond sym next fresh).2 := by
  have shaped := shape isParsed
  rw [sethiBranch]
  split_ifs
  · exact shaped.bool sym next fresh
  · exact (shaped.sethi fresh).append (Numbered.unlabelled rfl _)

section Pieces

variable {V S : Type} {I : Interp V S} {np cond : Node} {program_ front rest : List Stmt}

theorem statement_evaluates (isParsed : np.parsed = true) (notNil : np ≠ .nil) (label : Option Sym)
    {fresh : Nat} (tmps : Sym → V) (s : S) (last : Option V)
    (placed : Placed program_ front (sethiExpr label np fresh).1 rest fresh) : Reaches I program_
      (fun c => c.rest = rest ∧ ∃ v, Evals I (load tmps np) s v c.state ∧ c.last = some v)
      ⟨(sethiExpr label np fresh).1 ++ rest, tmps, s, last⟩ := by
  simp only [sethiExpr] at placed ⊢
  rw [List.append_assoc]
  apply Must.mono (expr_after (lowered isParsed).sethi (shape isParsed) notNil _ tmps s last placed.first)
  rintro c ⟨restEq, _, v, evals, lastEq⟩
  exact ⟨restEq, v, evals, lastEq⟩

theorem branch_evaluates (isParsed : cond.parsed = true) (notNil : cond ≠ .nil) {sym next fresh : Nat}
    {into start : List Stmt} (tmps : Sym → V) (s : S) (last : Option V)
    (placed : Placed program_ front (sethiBranch none cond sym next fresh).1 rest fresh)
    (atSym : target program_ sym = some into)
    (atStart : if logical cond.op then target program_ next = some start else rest = start) :
    Reaches I program_
      (fun c => ∃ v, Evals I (load tmps cond) s v c.state ∧ c.rest = if I.truthy v then into else start)
      ⟨(sethiBranch none cond sym next fresh).1 ++ rest, tmps, s, last⟩ := by
  cases isLogical : logical cond.op with
  | true =>
    rw [isLogical, if_pos rfl] at atStart
    rw [sethiBranch, if_pos isLogical] at placed ⊢
    apply Must.mono ((lowered isParsed).bool notNil tmps s last placed atSym atStart)
    rintro c ⟨_, v, b, truth, evals, restEq⟩
    rw [← truth] at restEq
    exact ⟨v, evals, restEq⟩
  | false =>
    rw [isLogical, if_neg Bool.false_ne_true] at atStart
    rw [sethiBranch, isLogical, if_neg Bool.false_ne_true] at placed ⊢
    dsimp only at placed ⊢
    rw [List.append_assoc]
    apply Must.bind ((lowered isParsed).sethi tmps s last placed.first)
    rintro ⟨rest', tmps', s', last'⟩ ⟨restEq, _, steps⟩
    dsimp only at restEq steps
    rw [restEq]
    have shaped := shape isParsed
    apply reaches_branch (shaped.lowered fresh) (shaped.notNil notNil fresh) atSym
    intro v s'' evals
    apply Must.reached
    rw [atStart]
    exact ⟨v, steps.trans evals, rfl⟩

end Pieces

theorem placed_branch (np : Node) {sym : Sym} {front rest : List Stmt} {fresh : Nat}
    (surrounded : Surrounded (some (cond, sym)) front rest fresh) :
    Placed (program (some (cond, sym)) np front rest fresh) front
      ((sethiBranch none cond sym fresh (fresh + 1)).1 ++
        (sethiExpr (some fresh) np (sethiBranch none cond sym fresh (fresh + 1)).2).1) rest fresh := by
  constructor
  · rw [program, genaddr_branch]
  · exact fun other isIn => surrounded.below other (Or.inl isIn)

theorem entry_label {sym : Sym} {front rest : List Stmt} {fresh : Nat}
    (condParsed : cond.parsed = true) (isLogical : logical cond.op = true)
    (surrounded : Surrounded (some (cond, sym)) front rest fresh) :
    entry (some (cond, sym)) np front rest fresh =
      target ((sethiExpr (some fresh) np (sethiBranch none cond sym fresh (fresh + 1)).2).1 ++ rest) fresh := by
  have placed := placed_branch np surrounded
  have numbered := branch_numbered condParsed sym fresh (fresh + 1)
  have notBranch : fresh ∉ labels (sethiBranch none cond sym fresh (fresh + 1)).1 := by
    intro inBranch
    have bounds := numbered.bounds fresh inBranch
    omega
  rw [entry, if_pos isLogical, placed.target (Nat.le_refl fresh), List.append_assoc, target_behind notBranch]

theorem correct_alone (isParsed : np.parsed = true) (notNil : np ≠ .nil) : Correct none np := by
  constructor
  · intro V S I front rest fresh tmps s last cond sym into start _ isSome
    exact absurd isSome (by simp)
  · intro V S I front rest fresh tmps s last surrounded
    exists (genaddr (forest none np) fresh).1 ++ rest
    constructor
    · rfl
    · rw [program, forest, genaddr_expr]
      apply statement_evaluates isParsed notNil none tmps s last
      exact ⟨rfl, fun sym isIn => surrounded.below sym (Or.inl isIn)⟩

theorem correct_after (sym : Sym) (condParsed : cond.parsed = true)
    (condNotNil : cond ≠ .nil) (isParsed : np.parsed = true) (notNil : np ≠ .nil)
    (safe : logical cond.op = true → np.ordered = false) : Correct (some (cond, sym)) np := by
  constructor
  · intro V S I front rest fresh tmps s last cond' sym' into start surrounded isSome atSym atStart
    cases isSome
    have placed := placed_branch np surrounded
    rw [genaddr_branch, List.append_assoc]
    apply branch_evaluates condParsed condNotNil tmps s last (placed.first.later (Nat.le_succ fresh)) atSym
    rw [entry] at atStart
    split_ifs at atStart ⊢ with isLogical
    · exact atStart
    · exact Option.some.inj atStart
  · intro V S I front rest fresh tmps s last surrounded
    have placed := placed_branch np surrounded
    have numbered := branch_numbered condParsed sym fresh (fresh + 1)
    have placedStatement := placed.second (numbered.widen (Nat.le_succ fresh) (Nat.le_refl _))
      (Nat.le_trans (Nat.le_succ fresh) numbered.range)
    exists (sethiExpr (some fresh) np (sethiBranch none cond sym fresh (fresh + 1)).2).1 ++ rest
    constructor
    · cases isLogical : logical cond.op with
      | true =>
        have unordered := safe isLogical
        have kept := unordered_kept unordered
        rw [entry_label condParsed isLogical surrounded, sethiExpr]
        dsimp only
        rw [unordered_alone isParsed unordered, kept]
        exact target_here fresh _ rest
      | false => rw [entry, isLogical, if_neg Bool.false_ne_true]
    · exact statement_evaluates isParsed notNil (some fresh) tmps s last placedStatement

theorem reaches_last {V S : Type} {I : Interp V S} {program_ : List Stmt} {goal : Config V S → Prop}
    {label : Option Sym} {tmps : Sym → V} {s s' : S} {last : Option V} {v : V}
    (reaches : Reaches I program_ goal ⟨[⟨label, .expr np⟩], tmps, s, last⟩)
    (notYet : ¬ goal ⟨[⟨label, .expr np⟩], tmps, s, last⟩) (evals : Evals I (load tmps np) s v s') :
    goal ⟨[], tmps, s', some v⟩ := by
  have next := reaches.after notYet (Exec.expr evals)
  apply next.of_stuck
  intro c step
  cases step

theorem not_correct (sym : Nat) (condParsed : cond.parsed = true)
    (isLogical : logical cond.op = true) (isParsed : np.parsed = true) (notNil : np ≠ .nil)
    (isOrdered : np.ordered = true) : ¬ Correct (some (cond, sym)) np := by
  intro correct
  have surrounded : Surrounded (some (cond, sym)) [labelstmt sym] [] (sym + 1) := by
    constructor
    · intro other isIn
      cases isIn with
      | inl isHere =>
        rw [labelstmt, mem_labels_cons, Option.some.injEq] at isHere
        cases isHere with
        | inl same =>
          cases same
          exact Nat.lt_succ_self sym
        | inr inNil => exact absurd inNil List.not_mem_nil
      | inr inNil => exact absurd inNil List.not_mem_nil
    · intro cond' sym' same
      cases same
      exact Or.inl (mem_labels_cons.mpr (Or.inl rfl))
  let tmps : Sym → Bool := fun _ => false
  rcases correct.evaluates counting [labelstmt sym] [] (sym + 1) tmps 0 none surrounded with
    ⟨start, atStart, reaches⟩
  rw [entry_label condParsed isLogical surrounded, List.append_nil] at atStart
  generalize freshEq : (sethiBranch none cond sym (sym + 1) (sym + 1 + 1)).2 = fresh at atStart
  have range : sym + 1 + 1 ≤ fresh := by
    rw [← freshEq]
    exact (branch_numbered condParsed sym (sym + 1) (sym + 1 + 1)).range
  have shaped := shape isParsed
  have notBefore : sym + 1 ∉ labels (sethi np fresh).2.1 := by
    intro isIn
    have bounds := (shaped.sethi fresh).bounds (sym + 1) isIn
    omega
  rw [sethiExpr] at atStart
  dsimp only at atStart
  rw [target_behind notBefore] at atStart
  cases isReplaced : replaced np.op with
  | true =>
    rw [isReplaced, if_pos rfl, target_cons (by simp)] at atStart
    exact absurd atStart (by simp [target])
  | false =>
    rw [isReplaced, if_neg Bool.false_ne_true, target_here] at atStart
    rw [← Option.some.inj atStart] at reaches
    rcases lowered_value (I := counting) (shaped.lowered fresh) (shaped.notNil notNil fresh) tmps 0
      with ⟨v, n, evals⟩
    -- What has been put before the statement is not done.
    rcases reaches_last reaches (fun goal => absurd goal.1 (by simp)) evals with ⟨_, v', evals', _⟩
    have done := evals_counts evals
    have needed := evals_counts evals'
    have less := lowered_most isParsed tmps tmps fresh
    rw [isOrdered] at less
    dsimp only at needed
    have one : true.toNat = 1 := rfl
    omega

def auto (sym : Sym) : Node := .node .OAUTO ⟨4, 5⟩ (.sym sym) .nil .nil

def land (left right : Node) : Node := .node .OAND ⟨4, 5⟩ .none left right

end Scc.Cc2
