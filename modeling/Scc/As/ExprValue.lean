import Scc.As.ExprOutcome

/-!
# The value of a constant expression

The parser has a value exactly when nothing stands in the expression but numbers,
single unary operators and the operators whose folded node is kept, and it is the
value of the expression read with `>` for `<`. A division by zero is reported
exactly when nothing goes wrong before it.
-/

namespace Scc.As

set_option autoImplicit false

open Scc.Lib.Fuel

/-- The parser has the value of the expression and stops behind it, or it reports
the division by zero. -/
def Computes (lookup : Text → Symbol) (e : Expr) (input : Text) : Prop :=
  match e.eval with
  | some v =>
    ∃ p : Parser, (p.yytoken = .EOS ∨ p.yytoken = .char ',') ∧
      Settles (operandExpr lookup input) (.ok (.NUMBER v, p))
  | none => Settles (operandExpr lookup input) (.error .divisionByZero)

def Stops (rest : Text) : Prop :=
  Blank rest ∨ ∃ blank after, Blank blank ∧ rest = blank ++ ',' :: after

/-- Neither a node nor a division by zero. -/
def Broken (outcome : Result Failure Node) : Prop :=
  (∀ np, outcome ≠ .ok np) ∧ outcome ≠ .error .divisionByZero

theorem Broken.andThen {outcome : Result Failure Node} (broken : Broken outcome)
    (next : Node → Result Failure Node) : Broken (outcome.andThen next) := by
  match outcome, broken with
  | none, broken => exact broken
  | some (.error e), broken => exact broken
  | some (.ok np), broken => exact absurd rfl (broken.1 np)

theorem broken_none : Broken none := by
  constructor
  · intro np
    simp [Result.ok]
  · simp [Result.error]

theorem broken_error {e : Failure} (other : e ≠ .divisionByZero) : Broken (.error e) := by
  constructor
  · intro np
    simp [Result.ok, Result.error]
  · simpa [Result.error] using other

/-- What the outcome of an expression is, by what it is made of. -/
inductive Kind (e : Expr) : Prop where
  | right (v w : TUINT) (supported : e.supported = true) (free : e.trapped = false)
      (value : e.eval = some v) (read : e.read.eval = some w) (outcome : e.outcome = .ok (.NUMBER w))
  | freed (unsupported : e.supported = false) (dropped : e.dropped = true)
      (free : e.trapped = false) (outcome : e.outcome = .ok .freed)
  | divides (unsupported : e.supported = false) (kept : e.dropped = false)
      (trapped : e.trapped = true) (value : e.eval = none)
      (outcome : e.outcome = .error .divisionByZero)
  | wrong (unsupported : e.supported = false) (kept : e.dropped = false)
      (free : e.trapped = false) (broken : Broken e.outcome)

variable {text : Text} {e : Expr}

theorem digits_error {base n : Nat} {e : Failure}
    (failed : digits base n text = .error e) : e ≠ .divisionByZero := by
  induction text generalizing n with
  | nil => cases failed
  | cons c text ih =>
    rw [digits] at failed
    split at failed
    · cases failed
    · split_ifs at failed
      · cases failed
        decide
      · cases failed
        decide
      · exact ih failed

theorem number_error {e : Failure} (failed : number text = .error e) : e ≠ .divisionByZero := by
  unfold number at failed
  split at failed
  · cases failed
    exact digits_error ‹_›
  · split_ifs at failed
    cases failed
    decide

theorem kind_number (text : Text) : Kind (.number text) := by
  cases read : number text with
  | ok pair =>
    apply Kind.right (BitVec.ofNat 64 (Expr.numeral text)) (BitVec.ofNat 64 (Expr.numeral text))
    · simp [Expr.supported, read, Except.isOk, Except.toBool]
    · rfl
    · rfl
    · rfl
    · simp [Expr.outcome, read]
  | error e =>
    apply Kind.wrong
    · simp [Expr.supported, read, Except.isOk, Except.toBool]
    · rfl
    · rfl
    · simp only [Expr.outcome, read]
      exact broken_error (number_error read)

theorem kind_unary {op : Unary} (binds : 6 ≤ e.level) (kind : Kind e) : Kind (.unary op e) := by
  cases e with
  | number text =>
    cases kind with
    | right v w supported free value read outcome =>
      apply Kind.right (op.value v) (op.value w)
      · simpa [Expr.supported, Expr.isNumber] using supported
      · rfl
      · simp [Expr.eval] at value ⊢
        rw [value]
      · simp [Expr.read, Expr.eval] at read ⊢
        rw [read]
      · simp only [Expr.outcome, Expr.primaryOutcome] at outcome ⊢
        rw [outcome]
        cases op <;> rfl
    | freed unsupported dropped free outcome => cases dropped
    | divides unsupported kept trapped value outcome => cases trapped
    | wrong unsupported kept free broken =>
      apply Kind.wrong
      · simpa [Expr.supported, Expr.isNumber] using unsupported
      · rfl
      · rfl
      · exact broken.andThen _
  | paren e =>
    apply Kind.wrong
    · rfl
    · rfl
    · rfl
    · exact broken_none
  | unary op' e =>
    apply Kind.wrong
    · rfl
    · rfl
    · rfl
    · exact broken_error (by simp)
  | binary op' l r =>
    have low := (level_bounds op').2
    change 6 ≤ op'.level at binds
    omega

theorem op_cases (op : Binary) :
    (∃ c more, op.left = c :: more ∧ op.kept = false ∧ op.drops = false ∧ op ≠ .band ∧
      op ≠ .div ∧ op ≠ .mod) ∨
    (op.left = [] ∧ op.level = 5 ∧ op.kept = false ∧ op.drops = true ∧ op ≠ .band) ∨
    (op.left = [] ∧ op.level ≠ 5 ∧ op.kept = true ∧ op.drops = false ∧ op ≠ .div ∧ op ≠ .mod) ∨
    op = .band := by
  cases op <;> simp [Binary.left, Binary.mark, Binary.kept, Binary.drops, Binary.level]

theorem value_kept {op : Binary} (kept : op.kept = true) (l r : TUINT) : ∃ v, op.value l r = some v := by
  cases op <;> cases kept <;> exact ⟨_, rfl⟩

theorem foldOutcome_kept {op : Binary} (kept : op.kept = true) (l r : TUINT) :
    ∃ w, op.read.value l r = some w ∧ Expr.foldOutcome op (.NUMBER l) (.NUMBER r) = .ok (.NUMBER w) := by
  cases op <;> cases kept <;> exact ⟨_, rfl, rfl⟩

theorem foldOutcome_dropped {op : Binary} (drops : op.drops = true) (l r : TUINT) :
    Expr.foldOutcome op (.NUMBER l) (.NUMBER r) =
      if op = .mul ∨ r ≠ 0 then .ok .freed else .error .divisionByZero := by
  cases op with
  | mul => rfl
  | div =>
    by_cases zero : r = 0
    · subst zero
      rfl
    · have keeps : r ≠ 0 := zero
      simp only [Expr.foldOutcome, binary, constant, foldValue, Binary.token, zero, if_false]
      rw [if_pos (Or.inr keeps)]
      rfl
  | mod =>
    by_cases zero : r = 0
    · subst zero
      rfl
    · have keeps : r ≠ 0 := zero
      simp only [Expr.foldOutcome, binary, constant, foldValue, Binary.token, zero, if_false]
      rw [if_pos (Or.inr keeps)]
      rfl
  | _ => cases drops

theorem foldOutcome_freed {op : Binary} (r : Node) : Broken (Expr.foldOutcome op .freed r) :=
  broken_error (by decide)

theorem foldOutcome_freed_right {op : Binary} (l : TUINT) : Broken (Expr.foldOutcome op (.NUMBER l) .freed) :=
  broken_error (by decide)

theorem primaryOutcome_cases (binds : 6 ≤ e.level) (kind : Kind e) :
    (∃ v, e.isNumber = true ∧ e.supported = true ∧ e.eval = some v ∧
      Expr.primaryOutcome e.outcome e = .ok (.NUMBER v)) ∨
    ((e.isNumber && e.supported) = false ∧ Broken (Expr.primaryOutcome e.outcome e)) := by
  cases e with
  | number text =>
    cases kind with
    | right v w supported free value read outcome =>
      cases value.symm.trans read
      exact Or.inl ⟨v, rfl, supported, value, outcome⟩
    | freed unsupported dropped free outcome => cases dropped
    | divides unsupported kept trapped value outcome => cases trapped
    | wrong unsupported kept free broken =>
      apply Or.inr
      rw [unsupported]
      exact ⟨rfl, broken⟩
  | paren e => exact Or.inr ⟨rfl, broken_none⟩
  | unary op e => exact Or.inr ⟨rfl, broken_error (by simp)⟩
  | binary op l r =>
    have low := (level_bounds op).2
    change 6 ≤ op.level at binds
    omega

section Operator

variable {op : Binary} {l r : Expr}

theorem outcome_binary : (Expr.binary op l r).outcome = l.outcome.andThen fun lnode =>
    match op.left with
    | c :: _ => .error (.unexpected (operator c []))
    | [] => (if op.level = 5 then Expr.primaryOutcome r.outcome r else r.outcome).andThen fun rnode =>
        Expr.foldOutcome op lnode rnode := rfl

theorem kind_right_divides {lnode : Node} (unsupported : r.supported = false)
    (trapped : r.trapped = true) (value : r.eval = none)
    (outcome : r.outcome = .error .divisionByZero) (left : op.left = []) (low : op.level ≠ 5)
    (folds : (op.kept || op = .band) = true) (reads : (l.supported || l.dropped) = true)
    (node : l.outcome = .ok lnode) : Kind (.binary op l r) := by
  apply Kind.divides
  · simp [Expr.supported, unsupported]
  · simp [Expr.dropped, unsupported]
  · simp only [Expr.trapped, reads, folds, trapped]
    simp
  · change l.eval.bind _ = none
    rw [value]
    cases l.eval <;> rfl
  · rw [outcome_binary, node, Result.andThen_ok, left]
    simp only [low, if_false]
    rw [outcome]
    rfl

theorem kind_left_freed (binds : op.level < r.level) (unsupported : l.supported = false)
    (dropped : l.dropped = true) (free : l.trapped = false) (outcome : l.outcome = .ok .freed)
    (kindRight : Kind r) : Kind (.binary op l r) := by
  have wrong : r.trapped = false ∨ (op.kept || op = .band) = false →
      Broken (Expr.binary op l r).outcome → Kind (.binary op l r) := by
    intro noTrap broken
    apply Kind.wrong
    · simp [Expr.supported, unsupported]
    · simp [Expr.dropped, unsupported]
    · rcases noTrap with noTrap | noFold
      · simp [Expr.trapped, unsupported, free, noTrap]
      · simp only [Expr.trapped, unsupported, free, noFold]
        simp
    · exact broken
  have broken : Broken (if op.level = 5 then Expr.primaryOutcome r.outcome r else r.outcome) ∨
      (∃ rnode, (if op.level = 5 then Expr.primaryOutcome r.outcome r else r.outcome) = .ok rnode) ∨
        op.left ≠ [] → Broken (Expr.binary op l r).outcome := by
    intro kinds
    rw [outcome_binary, outcome, Result.andThen_ok]
    split
    · exact broken_error (by simp)
    · rename_i single
      rcases kinds with broken | ⟨rnode, node⟩ | double
      · exact broken.andThen _
      · rw [node, Result.andThen_ok]
        exact foldOutcome_freed rnode
      · exact absurd single double
  have low : op.left = [] → op.level ≠ 5 → (op.kept || op = .band) = true → Kind (.binary op l r) := by
    intro left low folds
    simp only [low, if_false] at broken
    cases kindRight with
    | right v w supported free' value read outcome' =>
      exact wrong (Or.inl free') (broken (Or.inr (Or.inl ⟨_, outcome'⟩)))
    | freed unsupported' dropped' free' outcome' =>
      exact wrong (Or.inl free') (broken (Or.inr (Or.inl ⟨_, outcome'⟩)))
    | divides unsupported' kept' trapped' value' outcome' =>
      exact kind_right_divides unsupported' trapped' value' outcome' left low folds
        (by simp [dropped]) outcome
    | wrong unsupported' kept' free' broken' =>
      exact wrong (Or.inl free') (broken (Or.inl broken'))
  rcases op_cases op with ⟨c, more, left, kept, drops, notBand, _⟩ | ⟨left, five, kept, drops, notBand⟩ |
    ⟨left, notFive, kept, drops, _⟩ | band
  · apply wrong
    · simp [kept, notBand]
    · apply broken
      simp [left]
  · simp only [five, if_true] at broken
    apply wrong
    · simp [kept, notBand]
    · rcases primaryOutcome_cases (by omega) kindRight with ⟨v, _, _, _, node⟩ | ⟨_, broken'⟩
      · exact broken (Or.inr (Or.inl ⟨_, node⟩))
      · exact broken (Or.inl broken')
  · exact low left notFive (by simp [kept])
  · subst band
    exact low rfl (by decide) (by decide)

theorem kind_left_right (binds : op.level < r.level) {lv lw : TUINT} (supported : l.supported = true)
    (free : l.trapped = false) (value : l.eval = some lv) (read : l.read.eval = some lw)
    (outcome : l.outcome = .ok (.NUMBER lw)) (kindRight : Kind r) : Kind (.binary op l r) := by
  rcases op_cases op with ⟨c, more, left, kept, drops, notBand, notDiv, notMod⟩ |
    ⟨left, five, kept, drops, notBand⟩ | ⟨left, notFive, kept, drops, notDiv, notMod⟩ | band
  · apply Kind.wrong
    · simp [Expr.supported, kept]
    · simp [Expr.dropped, drops]
    · simp [Expr.trapped, free, kept, notBand, notDiv, notMod]
    · rw [outcome_binary, outcome, Result.andThen_ok, left]
      exact broken_error (by simp)
  · have outcomes : (Expr.binary op l r).outcome =
        (Expr.primaryOutcome r.outcome r).andThen fun rnode =>
          Expr.foldOutcome op (.NUMBER lw) rnode := by
      rw [outcome_binary, outcome, Result.andThen_ok, left]
      simp only [five, if_true]
    rcases primaryOutcome_cases (by omega) kindRight with
      ⟨rv, isNumber, supported', value', node⟩ | ⟨notNumber, broken⟩
    · rw [node, Result.andThen_ok, foldOutcome_dropped drops] at outcomes
      by_cases keeps : op = .mul ∨ rv ≠ 0
      · rw [if_pos keeps] at outcomes
        have notZero : op = .mul ∨ r.eval ≠ some 0 := by
          rw [value']
          simpa using keeps
        apply Kind.freed
        · simp [Expr.supported, kept]
        · simpa [Expr.dropped, drops, supported, isNumber, supported'] using notZero
        · have notDivision : ¬ ((op = .div ∨ op = .mod) ∧ r.eval = some 0) := by
            rintro ⟨isDivision, zero⟩
            rcases notZero with isMul | notZero
            · rw [isMul] at isDivision
              simp at isDivision
            · exact notZero zero
          simp only [Expr.trapped, free, kept, notBand, isNumber, supported, supported']
          simpa using notDivision
        · exact outcomes
      · rw [if_neg keeps] at outcomes
        rw [not_or, not_not] at keeps
        have zero : r.eval = some 0 := by rw [value', keeps.2]
        have isDivision : op = .div ∨ op = .mod := by
          have notMul := keeps.1
          cases op <;> simp_all [Binary.drops]
        apply Kind.divides
        · simp [Expr.supported, kept]
        · simp [Expr.dropped, zero, keeps.1]
        · simp [Expr.trapped, supported, isNumber, supported', zero, isDivision]
        · change l.eval.bind _ = none
          rw [value, zero]
          rcases isDivision with rfl | rfl <;> rfl
        · exact outcomes
    · apply Kind.wrong
      · simp [Expr.supported, kept]
      · rcases Bool.and_eq_false_iff.mp notNumber with no | no <;> simp [Expr.dropped, no]
      · rcases Bool.and_eq_false_iff.mp notNumber with no | no <;>
          simp [Expr.trapped, free, kept, notBand, no]
      · rw [outcomes]
        exact broken.andThen _
  · have outcomes : (Expr.binary op l r).outcome =
        r.outcome.andThen fun rnode => Expr.foldOutcome op (.NUMBER lw) rnode := by
      rw [outcome_binary, outcome, Result.andThen_ok, left]
      simp only [notFive, if_false]
    cases kindRight with
    | right rv rw' supported' free' value' read' outcome' =>
      rcases value_kept kept lv rv with ⟨v, isValue⟩
      rcases foldOutcome_kept kept lw rw' with ⟨w, isRead, folded⟩
      rw [outcome', Result.andThen_ok, folded] at outcomes
      apply Kind.right v w
      · simp [Expr.supported, kept, supported, supported']
      · simp [Expr.trapped, free, free', notDiv, notMod]
      · change l.eval.bind _ = some v
        rw [value, value']
        exact isValue
      · change l.read.eval.bind _ = some w
        rw [read, read']
        exact isRead
      · exact outcomes
    | freed unsupported' dropped' free' outcome' =>
      rw [outcome', Result.andThen_ok] at outcomes
      apply Kind.wrong
      · simp [Expr.supported, unsupported']
      · simp [Expr.dropped, drops]
      · simp [Expr.trapped, free, free', notDiv, notMod]
      · rw [outcomes]
        exact foldOutcome_freed_right lw
    | divides unsupported' kept' trapped' value' outcome' =>
      exact kind_right_divides unsupported' trapped' value' outcome' left notFive (by simp [kept])
        (by simp [supported]) outcome
    | wrong unsupported' kept' free' broken' =>
      apply Kind.wrong
      · simp [Expr.supported, unsupported']
      · simp [Expr.dropped, drops]
      · simp [Expr.trapped, free, free', notDiv, notMod]
      · rw [outcomes]
        exact broken'.andThen _
  · subst band
    have outcomes : (Expr.binary .band l r).outcome =
        r.outcome.andThen fun rnode => Expr.foldOutcome .band (.NUMBER lw) rnode := by
      rw [outcome_binary, outcome, Result.andThen_ok]
      rfl
    have wrong : r.trapped = false → Broken (Expr.binary .band l r).outcome → Kind (.binary .band l r) := by
      intro free' broken
      apply Kind.wrong
      · rfl
      · rfl
      · simp [Expr.trapped, free, free']
      · exact broken
    cases kindRight with
    | right rv rw' supported' free' value' read' outcome' =>
      apply wrong free'
      rw [outcomes, outcome', Result.andThen_ok]
      exact broken_error (by decide)
    | freed unsupported' dropped' free' outcome' =>
      apply wrong free'
      rw [outcomes, outcome', Result.andThen_ok]
      exact foldOutcome_freed_right lw
    | divides unsupported' kept' trapped' value' outcome' =>
      exact kind_right_divides unsupported' trapped' value' outcome' rfl (by decide) (by decide)
        (by simp [supported]) outcome
    | wrong unsupported' kept' free' broken' =>
      apply wrong free'
      rw [outcomes]
      exact broken'.andThen _

theorem kind_binary (binds : op.level < r.level) (kindLeft : Kind l) (kindRight : Kind r) :
    Kind (.binary op l r) := by
  cases kindLeft with
  | right lv lw supported free value read outcome =>
    exact kind_left_right binds supported free value read outcome kindRight
  | freed unsupported dropped free outcome =>
    exact kind_left_freed binds unsupported dropped free outcome kindRight
  | divides unsupported kept trapped value outcome =>
    apply Kind.divides
    · simp [Expr.supported, unsupported]
    · simp [Expr.dropped, unsupported]
    · simp [Expr.trapped, trapped]
    · change l.eval.bind _ = none
      rw [value]
      rfl
    · rw [outcome_binary, outcome]
      rfl
  | wrong unsupported kept free broken =>
    apply Kind.wrong
    · simp [Expr.supported, unsupported]
    · simp [Expr.dropped, unsupported]
    · simp [Expr.trapped, unsupported, kept, free]
    · rw [outcome_binary]
      exact broken.andThen _

end Operator

theorem spells_kind (spells : Spells e text) : Kind e := by
  induction spells with
  | @number text wellFormed small => exact kind_number text
  | paren inner spaces spaces' ih =>
    apply Kind.wrong
    · rfl
    · rfl
    · rfl
    · exact broken_none
  | unary binds inner spaces ih => exact kind_unary binds ih
  | binary bindsLeft bindsRight innerLeft innerRight spaces spaces' ihLeft ihRight =>
    exact kind_binary bindsRight ihLeft ihRight

variable {lookup : Text → Symbol}

theorem next_nil (lookup : Text → Symbol) {blank : Text} (spaces : Blank blank) (t : Token) (mode : Bool) :
    next lookup ⟨t, blank, mode⟩ = .ok ⟨.EOS, [], mode⟩ := by
  have skipped := next_skip lookup spaces t [] mode
  rw [List.append_nil] at skipped
  rw [skipped]
  rfl

theorem stops_follows (lookup : Text → Symbol) {rest : Text} (stops : Stops rest) :
    ∃ p : Parser, (p.yytoken = .EOS ∨ p.yytoken = .char ',') ∧ Follows lookup 0 rest p := by
  have boundary : Boundary rest := by
    intro c head
    have isEnd : isspace c = true ∨ c = ',' := by
      rcases stops with blank | ⟨blank, after, spaces, rfl⟩
      · exact Or.inl (blank c (List.mem_of_mem_head? head))
      · rcases head_append head with isBlank | isComma
        · exact Or.inl (spaces c isBlank)
        · cases isComma
          exact Or.inr rfl
    rcases isEnd with space | rfl
    · exact space_alphanum space
    · decide
  have noOps : ∀ p : Parser, (p.yytoken = .EOS ∨ p.yytoken = .char ',') →
      ∀ level, 0 < level → p.yytoken ∉ ops level := by
    rintro p ends level _
    rcases level with _ | _ | _ | _ | _ | _ | level
    all_goals rcases ends with same | same <;> rw [same] <;> simp [ops]
  rcases stops with blank | ⟨blank, after, spaces, rfl⟩
  · refine ⟨⟨.EOS, [], false⟩, Or.inl rfl, boundary, ?_, noOps _ (Or.inl rfl)⟩
    intro t
    exact next_nil lookup blank t false
  · refine ⟨⟨.char ',', after, false⟩, Or.inr rfl, boundary, ?_, noOps _ (Or.inr rfl)⟩
    intro t
    rw [next_skip lookup spaces, next_operator lookup after t (by decide) (by decide) (by decide)
      (by decide)]
    rfl

theorem next_mode (spells : Spells e text) (rest : Text) (t : Token) :
    (next lookup ⟨t, text ++ rest, true⟩).map (fun p => { p with regmode := false }) =
      next lookup ⟨t, text ++ rest, false⟩ := by
  rcases spells_head spells with ⟨c, more, rfl, starts⟩
  have notPercent : c ≠ '%' := by
    rintro rfl
    simp at starts
  have notSpace : isspace c = false := by
    rcases starts with digit | rfl | rfl | rfl | rfl
    · exact digit_space digit
    · decide
    · decide
    · decide
    · decide
  have here : (c :: more ++ rest).dropWhile isspace = c :: (more ++ rest) :=
    List.dropWhile_cons_of_neg (by simp [notSpace])
  unfold next
  simp only [here, if_neg notPercent]
  generalize (if c = '"' ∨ c = '\'' then _ else _ : Except Failure (Token × Text)) = read
  cases read <;> rfl

theorem level_pos (e : Expr) : 1 ≤ e.level := by
  cases e with
  | number text => exact Nat.le_add_left 1 6
  | paren e => exact Nat.le_add_left 1 6
  | unary op e => exact Nat.le_add_left 1 5
  | binary op l r => exact (level_bounds op).1

theorem operand_outcome (lookup : Text → Symbol) {text blank rest : Text} (spells : Spells e text)
    (spaces : Blank blank) (stops : Stops rest) : ∃ p : Parser, (p.yytoken = .EOS ∨ p.yytoken = .char ',') ∧
      Settles (operandExpr lookup (blank ++ text ++ rest)) (e.outcome.andThen fun np => .ok (np, p)) := by
  rcases stops_follows lookup stops with ⟨p, ends, follows⟩
  exists { p with regmode := true }
  refine ⟨ends, ?_⟩
  have runs : Runs lookup e.outcome 1 text :=
    (reads_spelled spells).level 1 (Nat.le_refl 1) (level_pos e) (by omega)
  have read : ∀ fuel, ((advance lookup ⟨.EOS, text ++ rest, false⟩).andThen
      (parse lookup 1 fuel)).andThen (fun read => .ok (read.1, { read.2 with regmode := true })) =
        operandExpr lookup (blank ++ text ++ rest) (fuel + 1) := by
    intro fuel
    unfold operandExpr advance
    rw [List.append_assoc, next_skip lookup spaces, ← next_mode spells]
    cases next lookup ⟨.EOS, text ++ rest, true⟩ with
    | error e => rfl
    | ok p => exact (expr_level lookup fuel p).symm
  apply Settles.step (fun fuel => (read fuel).symm)
  match outcome : e.outcome with
  | none =>
    rw [outcome] at runs
    exact Settles.bind_none (runs .EOS rest p none (follows.mono lookup (by omega)) rfl)
  | some (.error failure) =>
    rw [outcome] at runs
    exact Settles.bind_error (runs .EOS rest p (.error failure) (follows.mono lookup (by omega)) rfl)
  | some (.ok np) =>
    rw [outcome] at runs
    have stay := loopFn_stop lookup (follows.low 1 (by omega)) np
    exact Settles.bind (runs .EOS rest p _ (follows.mono lookup (by omega)) stay) (Settles.const _)

theorem failed_ok {outcome : Result Failure Node} {np : Node} {p p' : Parser}
    (same : (outcome.andThen fun np => .ok (np, p)) = Result.ok (np, p')) : outcome = .ok np := by
  match outcome with
  | none => cases same
  | some (.error e) => cases same
  | some (.ok np') =>
    cases same
    rfl

/-- The value of a constant expression is computed exactly when only numbers that fit,
single unary operators and the operators `+ - < > = | ^` stand in it and reading `<`
as `>` keeps its value; its division by zero is reported exactly when it is met before
anything else. -/
theorem expression_value_iff (lookup : Text → Symbol) {e : Expr} {text blank rest : Text}
    (spells : Spells e text) (spaces : Blank blank) (stops : Stops rest) :
    Computes lookup e (blank ++ text ++ rest) ↔
      (e.supported = true ∧ e.read.eval = e.eval) ∨ e.trapped = true := by
  rcases operand_outcome lookup spells spaces stops with ⟨p, ends, settles⟩
  unfold Computes
  cases spells_kind spells with
  | right v w supported free value read outcome =>
    rw [outcome] at settles
    simp only [value, read, supported, free]
    constructor
    · rintro ⟨p', _, settles'⟩
      cases settles.unique settles'
      exact Or.inl ⟨trivial, rfl⟩
    · rintro (⟨_, same⟩ | trapped)
      · cases same
        exact ⟨p, ends, settles⟩
      · cases trapped
  | divides unsupported kept trapped value outcome =>
    rw [outcome] at settles
    rw [value]
    exact iff_of_true settles (Or.inr trapped)
  | freed unsupported dropped free outcome =>
    rw [outcome] at settles
    apply iff_of_false
    · cases e.eval with
      | some v =>
        rintro ⟨p', _, settles'⟩
        cases settles.unique settles'
      | none =>
        intro settles'
        cases settles.unique settles'
    · simp [unsupported, free]
  | wrong unsupported kept free broken =>
    apply iff_of_false
    · cases e.eval with
      | some v =>
        rintro ⟨p', _, settles'⟩
        exact broken.1 _ (failed_ok (settles.unique settles'))
      | none =>
        intro settles'
        have failed := settles.unique settles'
        match outcome : e.outcome, failed with
        | none, failed => cases failed
        | some (.error failure), failed =>
          cases failed
          exact broken.2 outcome
        | some (.ok np), failed => cases failed
    · simp [unsupported, free]

def noSymbols (_ : Text) : Symbol := ⟨0, false, false⟩

theorem sum_computed :
    Computes noSymbols (.binary .add (.number ['1']) (.number ['2'])) [' ', '1', ' ', '+', '2'] := by
  have left : Spells (.number ['1']) ['1'] := .number (by decide) (by decide)
  have right : Spells (.number ['2']) ['2'] := .number (by decide) (by decide)
  have space : Blank [' '] := by
    intro c member
    cases List.mem_singleton.mp member
    rfl
  have none : Blank [] := by
    intro c member
    cases member
  have sum : Spells (.binary .add (.number ['1']) (.number ['2'])) ['1', ' ', '+', '2'] :=
    .binary (by decide) (by decide) left right space none
  exact (expression_value_iff noSymbols sum space (Or.inl none)).mpr
    (Or.inl ⟨by decide, by decide⟩)

/-- A parenthesis is never left, a product is dropped, and `<` is read as `>`. -/
theorem parenthesis_product_order_not_computed : (Spells (.paren (.number ['1'])) ['(', '1', ')'] ∧
      ¬ Computes noSymbols (.paren (.number ['1'])) ['(', '1', ')']) ∧
    (Spells (.binary .mul (.number ['2']) (.number ['3'])) ['2', '*', '3'] ∧
      ¬ Computes noSymbols (.binary .mul (.number ['2']) (.number ['3'])) ['2', '*', '3']) ∧
    (Spells (.binary .lt (.number ['2']) (.number ['3'])) ['2', '<', '3'] ∧
      ¬ Computes noSymbols (.binary .lt (.number ['2']) (.number ['3'])) ['2', '<', '3']) := by
  have number : ∀ c : Char, isNumeral [c] = true → Expr.numeral [c] < 2 ^ 64 →
      Spells (.number [c]) [c] := fun c wellFormed small => .number wellFormed small
  have none : Blank [] := by
    intro c member
    cases member
  have paren : Spells (.paren (.number ['1'])) ['(', '1', ')'] :=
    .paren (number '1' (by decide) (by decide)) none none
  have product : Spells (.binary .mul (.number ['2']) (.number ['3'])) ['2', '*', '3'] :=
    .binary (by decide) (by decide) (number '2' (by decide) (by decide))
      (number '3' (by decide) (by decide)) none none
  have order : Spells (.binary .lt (.number ['2']) (.number ['3'])) ['2', '<', '3'] :=
    .binary (by decide) (by decide) (number '2' (by decide) (by decide))
      (number '3' (by decide) (by decide)) none none
  refine ⟨⟨paren, ?_⟩, ⟨product, ?_⟩, order, ?_⟩
  · rintro ⟨p, _, settles⟩
    rcases operand_outcome noSymbols paren none (Or.inl none) with ⟨p', _, settles'⟩
    cases settles.unique settles'
  · rintro ⟨p, _, settles⟩
    rcases operand_outcome noSymbols product none (Or.inl none) with ⟨p', _, settles'⟩
    cases settles.unique settles'
  · rintro ⟨p, _, settles⟩
    rcases operand_outcome noSymbols order none (Or.inl none) with ⟨p', _, settles'⟩
    cases settles.unique settles'

end Scc.As
