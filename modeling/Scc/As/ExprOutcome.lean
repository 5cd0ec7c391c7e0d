import Scc.As.ExprRun

/-!
# What the parser makes of an expression

The outcome of an expression is a node, a failure, or nothing when the parser runs
forever. The grammar function of a level that the expression has reaches it and
goes on with its loop behind the expression.
-/

namespace Scc.As

set_option autoImplicit false

open Scc.Lib.Fuel

/-- The token that an operator is read as. -/
def Binary.token : Binary → Token
  | .mul => .char '*'
  | .div => .char '/'
  | .mod => .char '%'
  | .shl => .SHR
  | .shr => .SHL
  | .add => .char '+'
  | .sub => .char '-'
  | .lt => .char '>'
  | .gt => .char '>'
  | .eq => .char '='
  | .ge => .LE
  | .le => .GE
  | .band => .char '&'
  | .bor => .char '|'
  | .bxor => .char '^'

/-- What is left of an operator behind its first character. -/
def Binary.left (op : Binary) : Text := op.mark.tail

namespace Expr

/-- `primary()` takes no unary operator. -/
def primaryOutcome (outcome : Result Failure Node) : Expr → Result Failure Node
  | .unary op _ => .error (.unexpected (.char op.mark))
  | _ => outcome

def foldOutcome (op : Binary) (l r : Node) : Result Failure Node :=
  match As.binary op.token l r with
  | .ok np => .ok (if op.level = 5 then .freed else np)
  | .error e => .error e

def outcome : Expr → Result Failure Node
  | .number text =>
    match As.number text with
    | .ok _ => .ok (.NUMBER (BitVec.ofNat 64 (numeral text)))
    | .error e => .error e
  | .paren _ => none
  | .unary op e =>
    (primaryOutcome e.outcome e).andThen fun np => some (unaryop op.mark np)
  | .binary op l r =>
    l.outcome.andThen fun lnode =>
      match op.left with
      | c :: _ => .error (.unexpected (operator c []))
      | [] =>
        (if op.level = 5 then primaryOutcome r.outcome r else r.outcome).andThen fun rnode =>
          foldOutcome op lnode rnode

end Expr

variable (lookup : Text → Symbol)

def ops : Nat → List Token
  | 1 => [.char '|', .char '^']
  | 2 => [.char '&']
  | 3 => [.char '<', .char '>', .char '=', .GE, .LE]
  | 4 => [.char '+', .char '-']
  | 5 => [.char '*', .char '/', .char '%', .SHL, .SHR]
  | _ => []

def loopFn (level : Nat) : Nat → Node → Parser → Parsed :=
  match level with
  | 1 => binaryLoop lookup (ops 1) (and lookup fun _ => none)
  | 2 => binaryLoop lookup (ops 2) (relational lookup fun _ => none)
  | 3 => binaryLoop lookup (ops 3) (add lookup fun _ => none)
  | 4 => binaryLoop lookup (ops 4) (mul lookup fun _ => none)
  | 5 => mulLoop lookup fun _ => none
  | _ => fun _ np p => .ok (np, p)

/-- The function of a level without parentheses. -/
abbrev parse (level fuel : Nat) : Parser → Parsed := levelFn lookup (fun _ => none) level fuel

variable {level : Nat} {p : Parser} {rest text blank : Text} {op : Binary} {e : Expr}

theorem parse_loop (low : 1 ≤ level) (high : level ≤ 5) (fuel : Nat) (p : Parser) :
    parse lookup level fuel p =
      (parse lookup (level + 1) fuel p).andThen fun (np, p) => loopFn lookup level fuel np p := by
  rcases level with _ | _ | _ | _ | _ | _ | level
  · omega
  · rfl
  · rfl
  · rfl
  · rfl
  · rfl
  · omega

theorem loopFn_step (low : 1 ≤ level) (high : level ≤ 4)
    (isOp : p.yytoken ∈ ops level) (fuel : Nat) (np : Node) : loopFn lookup level (fuel + 1) np p =
      (advance lookup p).andThen fun p' => (parse lookup (level + 1) fuel p').andThen fun (r, p') =>
          match binary p.yytoken np r with
          | .ok np => loopFn lookup level fuel np p'
          | .error e => .error e := by
  rcases level with _ | _ | _ | _ | _ | level
  · omega
  · exact if_pos isOp
  · exact if_pos isOp
  · exact if_pos isOp
  · exact if_pos isOp
  · omega

theorem loopFn_mul (isOp : p.yytoken ∈ ops 5) (fuel : Nat) (np : Node) : loopFn lookup 5 (fuel + 1) np p =
      (advance lookup p).andThen fun p' => (parse lookup 7 fuel p').andThen fun (r, p') =>
          match binary p.yytoken np r with
          | .ok _ => loopFn lookup 5 fuel .freed p'
          | .error e => .error e := if_pos isOp

theorem loopFn_stop (notOp : p.yytoken ∉ ops level) (np : Node) :
    Settles (fun fuel => loopFn lookup level fuel np p) (.ok (np, p)) := by
  have stops : ∀ fuel, loopFn lookup level (fuel + 1) np p = .ok (np, p) := by
    intro fuel
    rcases level with _ | _ | _ | _ | _ | _ | level
    · rfl
    · exact if_neg notOp
    · exact if_neg notOp
    · exact if_neg notOp
    · exact if_neg notOp
    · exact if_neg notOp
    · rfl
  exact Settles.step stops (Settles.const _)

/-- What stands behind an expression of a level: no number goes on, and the next
token is no operator of a higher level. -/
structure Follows (level : Nat) (rest : Text) (p : Parser) : Prop where
  boundary : Boundary rest
  read : ∀ t, next lookup ⟨t, rest, false⟩ = .ok p
  low : ∀ higher, level < higher → p.yytoken ∉ ops higher

theorem Follows.mono {level level' : Nat}
    (follows : Follows lookup level rest p) (le : level ≤ level') : Follows lookup level' rest p :=
  ⟨follows.boundary, follows.read, fun higher above => follows.low higher (by omega)⟩

/-- A node is passed on, a failure and a run without end are passed through. -/
def Ends (outcome : Result Failure Node) (more : Node → Result Failure (Node × Parser) → Prop)
    (result : Result Failure (Node × Parser)) : Prop :=
  match outcome with
  | none => result = none
  | some (.error e) => result = .error e
  | some (.ok np) => more np result

/-- The function of the level has the outcome on the text. -/
def Runs (outcome : Result Failure Node) (level : Nat) (text : Text) : Prop :=
  ∀ t rest p result, Follows lookup level rest p →
    Ends outcome (fun np => Settles fun fuel => loopFn lookup level fuel np p) result →
      Settles (fun fuel => (advance lookup ⟨t, text ++ rest, false⟩).andThen (parse lookup level fuel))
        result

variable {lookup}

theorem Runs.lower {outcome : Result Failure Node} (low : 1 ≤ level)
    (high : level ≤ 5) (runs : Runs lookup outcome (level + 1) text) : Runs lookup outcome level text := by
  intro t rest p result follows ends
  have above := follows.mono lookup (Nat.le_succ level)
  have split : ∀ fuel, ((advance lookup ⟨t, text ++ rest, false⟩).andThen
      (parse lookup (level + 1) fuel)).andThen (fun (np, p) => loopFn lookup level fuel np p) =
        (advance lookup ⟨t, text ++ rest, false⟩).andThen (parse lookup level fuel) := by
    intro fuel
    rw [Result.andThen_assoc]
    congr 1
    funext p
    exact (parse_loop lookup low high fuel p).symm
  apply Settles.congr split
  match outcome, runs, ends with
  | none, runs, ends =>
    rw [ends]
    exact Settles.bind_none (runs t rest p none above rfl)
  | some (.error e), runs, ends =>
    rw [ends]
    exact Settles.bind_error (runs t rest p (.error e) above rfl)
  | some (.ok np), runs, ends =>
    have stops := loopFn_stop lookup (follows.low (level + 1) (Nat.lt_succ_self level)) np
    exact Settles.bind (runs t rest p _ above stops) ends

theorem Runs.le {outcome : Result Failure Node} {level level' : Nat} (low : 1 ≤ level)
    (le : level ≤ level') (high : level' ≤ 6) (runs : Runs lookup outcome level' text) :
    Runs lookup outcome level text := by
  induction level', le using Nat.le_induction with
  | base => exact runs
  | succ level' le ih => exact ih (by omega) (runs.lower (by omega) (by omega))

theorem token_level (isOp : op.token ∈ ops level) : level = op.level := by
  rcases level with _ | _ | _ | _ | _ | _ | level
  all_goals cases op <;> simp [ops, Binary.token, Binary.level] at isOp ⊢

theorem token_mem (op : Binary) : op.token ∈ ops op.level := by
  cases op <;> decide

theorem level_bounds (op : Binary) : 1 ≤ op.level ∧ op.level ≤ 5 := by
  cases op <;> decide

/-- The text behind an operator does not continue it. -/
def Ahead (text : Text) : Prop := ∀ c, text.head? = some c → c ≠ '=' ∧ c ≠ '<' ∧ c ≠ '>'

theorem operator_ahead (ahead : Ahead text) (c : Char) : operator c text = operator c [] := by
  have first : ∀ d, d = '=' ∨ d = '<' ∨ d = '>' → text.head? ≠ some d := by
    intro d isMark head
    have parts := ahead d head
    rcases isMark with rfl | rfl | rfl
    · exact parts.1 rfl
    · exact parts.2.1 rfl
    · exact parts.2.2 rfl
  unfold operator follow
  simp only [first '=' (Or.inl rfl), first '<' (Or.inr (Or.inl rfl)), first '>' (Or.inr (Or.inr rfl)),
    List.head?_nil, reduceCtorEq]

theorem spells_head (spells : Spells e text) :
    ∃ c more, text = c :: more ∧ (c.isDigit = true ∨ c = '(' ∨ c = '!' ∨ c = '-' ∨ c = '+') := by
  induction spells with
  | number wellFormed small =>
    rcases numeral_head wellFormed with ⟨c, more, same, digit⟩
    exact ⟨c, more, same, Or.inl digit⟩
  | paren inner spaces spaces' ih => exact ⟨_, _, rfl, Or.inr (Or.inl rfl)⟩
  | @unary op e text blank binds inner spaces ih =>
    refine ⟨_, _, rfl, Or.inr (Or.inr ?_)⟩
    cases op
    · exact Or.inl rfl
    · exact Or.inr (Or.inl rfl)
    · exact Or.inr (Or.inr rfl)
  | binary bindsLeft bindsRight innerLeft innerRight spaces spaces' ihLeft ihRight =>
    rcases ihLeft with ⟨c, more, rfl, starts⟩
    exact ⟨c, _, rfl, starts⟩

theorem head_append {c : Char} (head : (blank ++ text).head? = some c) : c ∈ blank ∨ text.head? = some c := by
  cases blank with
  | nil => exact Or.inr head
  | cons d blank =>
    cases head
    exact Or.inl List.mem_cons_self

theorem ahead_spells (spaces : Blank blank) (spells : Spells e text) : Ahead (blank ++ text ++ rest) := by
  intro c head
  rw [List.append_assoc] at head
  rcases spells_head spells with ⟨d, more, rfl, starts⟩
  have notMark : isspace c = true ∨ c = d := by
    rcases head_append head with inBlank | here
    · exact Or.inl (spaces c inBlank)
    · cases here
      exact Or.inr rfl
  refine ⟨?_, ?_, ?_⟩
  all_goals
    rintro rfl
    rcases notMark with space | same
    · cases space
    · rw [← same] at starts
      revert starts
      decide

theorem boundary_mark (spaces : Blank blank) (op : Binary) : Boundary (blank ++ op.mark ++ rest) := by
  intro c head
  rw [List.append_assoc] at head
  rcases head_append head with inBlank | here
  · exact space_alphanum (spaces c inBlank)
  · cases op <;> cases here <;> decide

theorem next_mark (ahead : Ahead rest) (op : Binary) (t : Token) :
    next lookup ⟨t, op.mark ++ rest, false⟩ = .ok ⟨op.token, op.left ++ rest, false⟩ := by
  have single : ∀ {c : Char} {text : Text}, isspace c = false → c ≠ '"' ∧ c ≠ '\'' →
      c.isAlphanum = false ∧ c ≠ '.' ∧ c ≠ '_' →
        next lookup ⟨t, c :: text, false⟩ = .ok ⟨operator c text, text, false⟩ :=
    fun notSpace notQuote notName => next_operator lookup _ t notSpace notQuote (fun _ => rfl) notName
  have plain := operator_ahead ahead
  cases op
  all_goals
    simp only [Binary.mark, Binary.left, Binary.token, List.cons_append, List.nil_append, List.tail_cons]
    rw [single (by decide) (by decide) (by decide)]
    first
      | rw [plain]
        rfl
      | rfl

/-- The level at which the right operand of an operator is read. -/
def Binary.operand (op : Binary) : Nat := if op.level = 5 then 7 else op.level + 1

theorem loopFn_op (op : Binary) (fuel : Nat) (np : Node) (text : Text) :
    loopFn lookup op.level (fuel + 1) np ⟨op.token, text, false⟩ =
      ((advance lookup ⟨op.token, text, false⟩).andThen (parse lookup op.operand fuel)).andThen fun (r, p') =>
          match binary op.token np r with
          | .ok np => loopFn lookup op.level fuel (if op.level = 5 then .freed else np) p'
          | .error e => .error e := by
  rw [Result.andThen_assoc]
  have bounds := level_bounds op
  have isOp : (⟨op.token, text, false⟩ : Parser).yytoken ∈ ops op.level := token_mem op
  unfold Binary.operand
  by_cases five : op.level = 5
  · simp only [five, if_true]
    rw [five] at isOp
    rw [loopFn_mul lookup isOp]
  · simp only [five, if_false]
    rw [loopFn_step lookup bounds.1 (by omega) isOp]

theorem loopFn_left {c : Char} {more rest : Text} (left : op.left = c :: more)
    (ahead : Ahead rest) (np : Node) :
    Settles (fun fuel => loopFn lookup op.level fuel np ⟨op.token, op.left ++ rest, false⟩)
      (.error (.unexpected (operator c []))) := by
  have single : more = [] ∧ (c = '<' ∨ c = '>' ∨ c = '=') := by
    cases op <;> cases left <;> simp
  rcases single with ⟨rfl, isMark⟩
  have read : advance lookup ⟨op.token, op.left ++ rest, false⟩ = .ok ⟨operator c [], rest, false⟩ := by
    unfold advance
    rw [left, List.cons_append, List.nil_append, next_operator]
    · rw [operator_ahead ahead]
      rfl
    · rcases isMark with rfl | rfl | rfl <;> decide
    · rcases isMark with rfl | rfl | rfl <;> decide
    · intro _
      rfl
    · rcases isMark with rfl | rfl | rfl <;> decide
  have stuck : ∀ fuel, parse lookup op.operand fuel ⟨operator c [], rest, false⟩ =
      .error (.unexpected (operator c [])) := by
    intro fuel
    rcases isMark with rfl | rfl | rfl
    all_goals exact levelFn_unexpected lookup _ _ rfl (by decide) (by decide)
  apply Settles.step _ (Settles.const _)
  intro fuel
  rw [loopFn_op, read, Result.andThen_ok, stuck, Result.andThen_error]

/-- What both readers of operands do on an expression. -/
structure Read (lookup : Text → Symbol) (e : Expr) (text : Text) : Prop where
  level : ∀ level, 1 ≤ level → level ≤ e.level → level ≤ 6 → Runs lookup e.outcome level text
  primary : 6 ≤ e.level → Runs lookup (Expr.primaryOutcome e.outcome e) 7 text

theorem loop_binary {r : Expr} {right blank rest : Text} {np : Node}
    {result : Parsed} (binds : op.level < r.level) (spells : Spells r right)
    (reads : Read lookup r right) (spaces : Blank blank) (follows : Follows lookup op.level rest p)
    (ends : Ends (match op.left with
        | c :: _ => .error (.unexpected (operator c []))
        | [] => (if op.level = 5 then Expr.primaryOutcome r.outcome r else r.outcome).andThen fun rnode =>
            Expr.foldOutcome op np rnode)
      (fun np => Settles fun fuel => loopFn lookup op.level fuel np p) result) : Settles (fun fuel =>
      loopFn lookup op.level fuel np ⟨op.token, op.left ++ (blank ++ right ++ rest), false⟩) result := by
  cases left : op.left with
  | cons c more =>
    rw [left] at ends
    have isError : result = .error (.unexpected (operator c [])) := ends
    have ahead : Ahead (blank ++ right ++ rest) := ahead_spells spaces spells
    have stops : Settles (fun fuel =>
        loopFn lookup op.level fuel np ⟨op.token, op.left ++ (blank ++ right ++ rest), false⟩)
          (.error (.unexpected (operator c []))) := loopFn_left left ahead np
    rw [left] at stops
    rw [isError]
    exact stops
  | nil =>
    rw [left] at ends
    simp only at ends
    rw [List.nil_append]
    have above := follows.mono lookup
      (show op.level ≤ op.operand by unfold Binary.operand; split_ifs <;> omega)
    have operand : Runs lookup
        (if op.level = 5 then Expr.primaryOutcome r.outcome r else r.outcome) op.operand right := by
      have bounds := level_bounds op
      unfold Binary.operand
      split_ifs with five
      · exact reads.primary (by omega)
      · exact reads.level (op.level + 1) (by omega) (by omega) (by omega)
    have skipped : ∀ fuel,
        (advance lookup ⟨op.token, right ++ rest, false⟩).andThen (parse lookup op.operand fuel) =
          (advance lookup ⟨op.token, blank ++ right ++ rest, false⟩).andThen
            (parse lookup op.operand fuel) := by
      intro fuel
      unfold advance
      rw [List.append_assoc, next_skip lookup spaces]
    apply Settles.step fun fuel => loopFn_op op fuel np _
    generalize (if op.level = 5 then Expr.primaryOutcome r.outcome r else r.outcome) = outcome
      at ends operand
    match outcome, operand, ends with
    | none, operand, ends =>
      have isNone : result = none := ends
      rw [isNone]
      exact Settles.bind_none (Settles.congr skipped (operand _ rest p none above rfl))
    | some (.error e), operand, ends =>
      have isError : result = .error e := ends
      rw [isError]
      exact Settles.bind_error (Settles.congr skipped (operand _ rest p (.error e) above rfl))
    | some (.ok rnode), operand, ends =>
      have notOp : p.yytoken ∉ ops op.operand := by
        apply follows.low
        unfold Binary.operand
        have bounds := level_bounds op
        split_ifs <;> omega
      have node := operand op.token rest p _ above (loopFn_stop lookup notOp rnode)
      apply Settles.bind (Settles.congr skipped node)
      change Ends (Expr.foldOutcome op np rnode) _ result at ends
      unfold Expr.foldOutcome at ends
      cases folded : binary op.token np rnode with
      | ok np' =>
        rw [folded] at ends
        simp only [folded]
        exact ends
      | error e =>
        rw [folded] at ends
        have isError : result = .error e := ends
        rw [isError]
        simp only [folded]
        exact Settles.const _

theorem reads_atom (atom : e.level = 7)
    (runs : ∀ level, 6 ≤ level → level ≤ 7 → Runs lookup e.outcome level text) : Read lookup e text where
  level := by
    intro level low _ high
    exact (runs 6 (by omega) (by omega)).le low high (by omega)
  primary := by
    intro _
    have same : Expr.primaryOutcome e.outcome e = e.outcome := by
      cases e with
      | unary op e => cases atom
      | _ => rfl
    rw [same]
    exact runs 7 (by omega) (by omega)

theorem reads_number (wellFormed : isNumeral text = true) : Read lookup (.number text) text := by
  apply reads_atom rfl
  intro level low high t rest p result follows ends
  have isAtom : level = 6 ∨ level = 7 := by omega
  have read : advance lookup ⟨t, text ++ rest, false⟩ =
      some ((number text).map fun found => ⟨found.1, rest, false⟩) := by
    unfold advance
    rw [next_number lookup wellFormed follows.boundary]
  rw [read]
  unfold Expr.outcome at ends
  cases isNumber : number text with
  | error e =>
    rw [isNumber] at ends
    have isError : result = .error e := ends
    rw [isError]
    exact Settles.const _
  | ok pair =>
    rw [isNumber] at ends
    have token := number_value wellFormed isNumber
    have parsed : ∀ fuel, parse lookup level fuel ⟨pair.1, rest, false⟩ =
        .ok (.NUMBER (BitVec.ofNat 64 (Expr.numeral text)), p) := by
      intro fuel
      have number : primary lookup (fun _ => none) ⟨pair.1, rest, false⟩ =
          .ok (.NUMBER (BitVec.ofNat 64 (Expr.numeral text)), p) := by
        unfold primary advance
        simp only [token, follows.read]
        rfl
      rcases isAtom with rfl | rfl
      · change unary lookup (fun _ => none) _ = _
        unfold unary
        simp only [token, unaryMark, reduceCtorEq, if_false]
        rw [← token]
        exact number
      · exact number
    have loops : ∀ fuel, loopFn lookup level fuel (.NUMBER (BitVec.ofNat 64 (Expr.numeral text))) p =
        .ok (.NUMBER (BitVec.ofNat 64 (Expr.numeral text)), p) := by
      intro fuel
      rcases isAtom with rfl | rfl <;> rfl
    have settled : Settles (fun fuel =>
        loopFn lookup level fuel (.NUMBER (BitVec.ofNat 64 (Expr.numeral text))) p) result := ends
    apply Settles.congr _ settled
    intro fuel
    rw [loops]
    exact (parsed fuel).symm

theorem reads_paren (e : Expr) (text : Text) : Read lookup (.paren e) ('(' :: text) := by
  apply reads_atom rfl
  intro level low high t rest p result follows ends
  have isNone : result = none := ends
  have read : advance lookup ⟨t, '(' :: text ++ rest, false⟩ =
      .ok ⟨.char '(', text ++ rest, false⟩ := by
    unfold advance
    rw [List.cons_append, next_operator lookup _ _ (by decide) (by decide) (by decide) (by decide)]
    rfl
  have stuck : ∀ fuel, parse lookup level fuel ⟨.char '(', text ++ rest, false⟩ = none :=
    fun fuel => levelFn_paren lookup level fuel rfl
  rw [isNone, read]
  apply Settles.congr _ (Settles.const none)
  intro fuel
  rw [Result.andThen_ok, stuck]

theorem reads_unary {op : Unary} (binds : 6 ≤ e.level) (reads : Read lookup e text) (spaces : Blank blank) :
    Read lookup (.unary op e) (op.mark :: blank ++ text) := by
  have mark : unaryMark (.char op.mark) = some op.mark := by cases op <;> rfl
  have read : ∀ t rest, advance lookup ⟨t, op.mark :: blank ++ text ++ rest, false⟩ =
      .ok ⟨.char op.mark, blank ++ (text ++ rest), false⟩ := by
    intro t rest
    unfold advance
    rw [List.cons_append, List.cons_append, next_operator lookup _ _ (by cases op <;> decide)
      (by cases op <;> decide) (by cases op <;> decide) (by cases op <;> decide), List.append_assoc]
    cases op <;> rfl
  constructor
  · intro level low high _
    have six : Runs lookup (Expr.outcome (.unary op e)) 6 (op.mark :: blank ++ text) := by
      intro t rest p result follows ends
      have above := follows.mono lookup (show 6 ≤ 7 by omega)
      have operand := reads.primary binds (.char op.mark) rest p
      unfold advance at operand
      rw [← next_skip lookup spaces] at operand
      have unfolds : ∀ fuel, ((advance lookup ⟨.char op.mark, blank ++ (text ++ rest), false⟩).andThen
          (parse lookup 7 fuel)).andThen (fun read =>
            some ((unaryop op.mark read.1).map fun np => (np, read.2))) =
          (advance lookup ⟨t, op.mark :: blank ++ text ++ rest, false⟩).andThen
            (parse lookup 6 fuel) := by
        intro fuel
        rw [read, Result.andThen_ok, Result.andThen_assoc]
        change _ = unary lookup (fun _ => none) _
        unfold unary
        simp only [mark]
        congr 1
        funext p'
        change (primary lookup (fun _ => none) p').andThen _ = _
        congr 1
        funext operand
        cases unaryop op.mark operand.1 <;> rfl
      apply Settles.congr unfolds
      unfold Expr.outcome at ends
      generalize Expr.primaryOutcome e.outcome e = outcome at ends operand
      match outcome, operand, ends with
      | none, operand, ends =>
        have isNone : result = none := ends
        rw [isNone]
        exact Settles.bind_none (operand none above rfl)
      | some (.error e), operand, ends =>
        have isError : result = .error e := ends
        rw [isError]
        exact Settles.bind_error (operand (.error e) above rfl)
      | some (.ok np), operand, ends =>
        apply Settles.bind (operand (.ok (np, p)) above (Settles.const _))
        change Ends (some (unaryop op.mark np)) _ result at ends
        cases folded : unaryop op.mark np with
        | ok np' =>
          rw [folded] at ends
          exact ends
        | error e =>
          rw [folded] at ends
          have isError : result = .error e := ends
          rw [isError]
          exact Settles.const _
    exact six.le low (show level ≤ 6 from high) (Nat.le_refl 6)
  · intro _ t rest p result follows ends
    have isError : result = .error (.unexpected (.char op.mark)) := ends
    rw [isError, read]
    apply Settles.congr _ (Settles.const _)
    intro fuel
    rw [Result.andThen_ok]
    cases op <;> rfl

theorem reads_spelled (spells : Spells e text) : Read lookup e text := by
  induction spells with
  | number wellFormed small => exact reads_number wellFormed
  | @paren e text blank blank' inner spaces spaces' ih =>
    exact reads_paren e (blank ++ text ++ blank' ++ [')'])
  | unary binds inner spaces ih => exact reads_unary binds ih spaces
  | @binary op l r left right blank blank' bindsLeft bindsRight innerLeft innerRight spaces spaces'
      ihLeft ihRight =>
      have bounds := level_bounds op
      have here : Runs lookup (Expr.outcome (.binary op l r)) op.level
          (left ++ blank ++ op.mark ++ blank' ++ right) := by
        intro t rest p result follows ends
        have ahead : Ahead (blank' ++ right ++ rest) := ahead_spells spaces' innerRight
        have followsLeft : Follows lookup op.level (blank ++ (op.mark ++ (blank' ++ right ++ rest)))
            ⟨op.token, op.left ++ (blank' ++ right ++ rest), false⟩ := by
          refine ⟨?_, ?_, ?_⟩
          · rw [← List.append_assoc]
            exact boundary_mark spaces op
          · intro t
            rw [next_skip lookup spaces, next_mark ahead]
          · intro higher above isOp
            have same := token_level isOp
            omega
        have text : left ++ blank ++ op.mark ++ blank' ++ right ++ rest =
            left ++ (blank ++ (op.mark ++ (blank' ++ right ++ rest))) := by
          simp only [List.append_assoc]
        rw [text]
        apply ihLeft.level op.level bounds.1 bindsLeft (by omega) t _ _ result followsLeft
        unfold Expr.outcome at ends
        generalize l.outcome = outcome at ends
        match outcome, ends with
        | none, ends => exact ends
        | some (.error e), ends => exact ends
        | some (.ok np), ends => exact loop_binary bindsRight innerRight ihRight spaces' follows ends
      constructor
      · intro level low high _
        exact here.le low (show level ≤ op.level from high) (by omega)
      · intro high
        change 6 ≤ op.level at high
        omega

end Scc.As
