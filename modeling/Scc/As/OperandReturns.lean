import Mathlib.Data.List.TakeWhile
import Scc.As.OperandParse

/-!
# When operands are parsed to an end

Every token but the first of an operand is read from a text that is no longer than
the one before it, and behind an operator the text is shorter: the loops of the
grammar functions come to an end with a fuel beyond the length of the text. The runs
with two such amounts of fuel are equal as long as no call does harm.
-/

namespace Scc.As.OperandParse

set_option autoImplicit false

open Scc.Lib.Logged

def binaryOps : List Token := .char '&' :: foldOps

def AtOperator (p : Parser) : Prop := ∃ op ∈ binaryOps, p.yytoken = .plain op

/-- The text is no longer than so many characters, and shorter behind an operator. -/
def Advances (n : Nat) (p : Parser) : Prop :=
  p.textp.length ≤ n ∧ (AtOperator p → p.textp.length < n)

theorem Advances.mono {n m : Nat} {p : Parser} (advances : Advances n p) (le : n ≤ m) : Advances m p :=
  ⟨le_trans advances.1 le, fun operator => lt_of_lt_of_le (advances.2 operator) le⟩

variable {rest text : Text}

theorem digits_length {base n v : Nat}
    (read : digits base n text = .ok (v, rest)) : rest.length ≤ text.length := by
  induction text generalizing n with
  | nil =>
    cases read
    exact Nat.le_refl _
  | cons c text ih =>
    rw [digits] at read
    split at read
    · cases read
      exact Nat.le_refl _
    · split_ifs at read
      have := ih read
      simp only [List.length_cons]
      omega

theorem numberBase_length (text : Text) : (numberBase text).2.length ≤ text.length := by
  unfold numberBase
  split
  · simp only [List.length_cons]
    omega
  · simp only [List.length_cons]
    omega
  · exact Nat.le_refl _

theorem number_length {t : Token} (read : number text = .ok (t, rest)) :
    rest.length ≤ text.length ∧ t ∉ binaryOps := by
  unfold number at read
  split at read
  · cases read
  · next n rest' found =>
      split_ifs at read
      cases read
      exact ⟨le_trans (digits_length found) (numberBase_length text), by simp [binaryOps, foldOps]⟩

theorem iden_length {lookup : Text → Symbol} {t : Token} (read : iden lookup text = .ok (t, rest)) :
    rest.length ≤ text.length ∧ t ∉ binaryOps := by
  unfold iden at read
  simp only at read
  split_ifs at read
  · cases read
    exact ⟨(List.dropWhile_suffix _).length_le, by simp [binaryOps, foldOps]⟩
  · cases read
    exact ⟨(List.dropWhile_suffix _).length_le, by simp [binaryOps, foldOps]⟩

/-- What reads a token as `next()` does. -/
def Reads (length : Nat) (read : Except Failure (Token × Text)) : Prop :=
  ∀ t text, read = .ok (t, text) →
    text.length ≤ length + 1 ∧ (t ∈ binaryOps → text.length < length + 1)

theorem scan_length {lookup : Text → Symbol} {c : Char} {mode : Bool}
    {q : As.Parser} (notSpace : isspace c = false) (read : As.next lookup ⟨.EOS, c :: rest, mode⟩ = .ok q) :
    q.textp.length ≤ rest.length + 1 ∧ (q.yytoken ∈ binaryOps → q.textp.length < rest.length + 1) := by
  have name : Reads rest.length (iden lookup (c :: rest)) := by
    intro t text found
    exact ⟨(iden_length found).1, fun operator => absurd operator (iden_length found).2⟩
  have numeral : Reads rest.length (number (c :: rest)) := by
    intro t text found
    exact ⟨(number_length found).1, fun operator => absurd operator (number_length found).2⟩
  have sign : Reads rest.length (.ok (operator c rest, rest)) := by
    intro t text found
    cases found
    omega
  have refused : Reads rest.length (.error .leftOut) := by
    intro t text found
    cases found
  have here : (c :: rest).dropWhile isspace = c :: rest :=
    List.dropWhile_cons_of_neg (by simp [notSpace])
  have finished {scanned : Except Failure (Token × Text)} (reads : Reads rest.length scanned)
      (mapped : (scanned.map fun found =>
        ({ yytoken := found.1, textp := found.2, regmode := mode } : As.Parser)) = .ok q) :
      q.textp.length ≤ rest.length + 1 ∧
        (q.yytoken ∈ binaryOps → q.textp.length < rest.length + 1) := by
    cases scanned with
    | error e => cases mapped
    | ok found =>
      cases mapped
      exact reads _ _ rfl
  unfold As.next at read
  simp only [here] at read
  split_ifs at read
  · exact finished refused read
  · exact finished name read
  · exact finished sign read
  · exact finished name read
  · exact finished numeral read
  · exact finished name read
  · exact finished sign read

section Agreement

variable (target : Target)

/-- The two runs are equal or harmed, and the parser in what they return has advanced
from a text of so many characters. -/
def Agrees {α : Type} (n : Nat) (out : α → Parser) (run run' : Parsed α) : Prop :=
  Alike (Harmless target) Reported run run' ∧ ∀ a, run.result = .ok a → Advances n (out a)

variable {target}

variable {α : Type} {n : Nat} {call : Call}

variable {out : α → Parser} {run run' : Parsed α}

theorem Agrees.mono {n m : Nat}
    (agrees : Agrees target n out run run') (le : n ≤ m) : Agrees target m out run run' :=
  ⟨agrees.1, fun a result => (agrees.2 a result).mono le⟩

theorem Agrees.ok {a : α} (advances : Advances n (out a)) : Agrees target n out (.ok a) (.ok a) := by
  refine ⟨Alike.ok a, ?_⟩
  intro b same
  cases same
  exact advances

theorem Agrees.report (e : Report) : Agrees target n out (report e) (report e) := by
  refine ⟨Alike.error trivial, ?_⟩
  intro b same
  cases same

theorem Agrees.log (harmless : Harmless target call) (agrees : Agrees target n out run run') :
    Agrees target n out (run.log call) (run'.log call) :=
  ⟨agrees.1.log harmless, agrees.2⟩

theorem Agrees.harmed (harm : ¬ Harmless target call) (ends : ¬ Scc.Lib.Logged.Ends Reported run.result)
    (ends' : ¬ Scc.Lib.Logged.Ends Reported run'.result) :
    Agrees target n out (run.log call) (run'.log call) := by
  have harmed : Harmed (Harmless target) Reported (run.log call) := .log harm ends
  refine ⟨.harmed harmed (.log harm ends'), ?_⟩
  intro a result
  exact absurd result (harmed.stops a)

theorem Agrees.andThen {α β : Type} {out : α → Parser} {out' : β → Parser}
    {run run' : Parsed α} {next next' : α → Parsed β} (first : Agrees target n out run run')
    (second : ∀ a, Advances n (out a) → Agrees target n out' (next a) (next' a)) :
    Agrees target n out' (run.andThen next) (run'.andThen next') := by
  constructor
  · exact first.1.andThen fun a result => (second a (first.2 a result)).1
  · intro b result
    obtain ⟨a, early, late⟩ := Run.andThen_ok result
    exact (second a (first.2 a early)).2 b late

theorem stop_ends {e : Stop} (unreported : ¬ Reported e) :
    ¬ Scc.Lib.Logged.Ends Reported (Run.error e : Parsed α).result := by
  rintro ⟨outcome, same, may⟩
  cases same
  exact unreported (may e rfl)

theorem never_ends (never : run.result = none) : ¬ Scc.Lib.Logged.Ends Reported run.result := by
  rintro ⟨outcome, same, _⟩
  rw [never] at same
  cases same

theorem agrees_checked {α β : Type} {out : β → Parser} {value : Except Stop α} {next next' : α → Parsed β}
    (safe : Harmless target call ↔ ∀ e, value = .error e → Reported e)
    (second : ∀ a, value = .ok a → Agrees target n out (next a) (next' a)) :
    Agrees target n out (Run.log call ((Run.ofExcept value).andThen next))
      (Run.log call ((Run.ofExcept value).andThen next')) := by
  cases value with
  | ok a =>
    have harmless : Harmless target call := safe.mpr nofun
    have goes_on := second a rfl
    exact goes_on.log harmless
  | error e =>
    by_cases reported : Reported e
    · have harmless : Harmless target call := by
        apply safe.mpr
        intro e' same
        cases same
        exact reported
      refine Agrees.log harmless ⟨Alike.error reported, ?_⟩
      intro b same
      cases same
    · have harm : ¬ Harmless target call := by
        intro harmless
        exact reported (safe.mp harmless e rfl)
      exact .harmed harm (stop_ends reported) (stop_ends reported)

end Agreement

section Grammar

variable (lookup : Text → Symbol) {target : Target}

theorem string_safe (text : Text) :
    Harmless target (.string text) ↔ ∀ e, string text = .error e → Reported e := by
  unfold string Harmless
  constructor
  · intro closed e stopped
    rw [if_pos closed] at stopped
    split_ifs at stopped
    cases stopped
    trivial
  · intro reported
    by_contra unclosed
    exact reported .overrun (if_neg unclosed)

theorem string_length (read : string text = .ok rest) : rest.length ≤ text.length := by
  unfold string at read
  split_ifs at read
  cases read
  rw [List.length_tail]
  exact le_trans (Nat.sub_le _ _) (List.dropWhile_suffix _).length_le

theorem character_quote (rest : Text) : character ('\'' :: rest) = .ok ('\'' :: rest) := by
  simp [character]

theorem next_agrees (p : Parser) : Agrees target p.textp.length id (next lookup p) (next lookup p) := by
  have shorter : (p.textp.dropWhile isspace).length ≤ p.textp.length :=
    (List.dropWhile_suffix _).length_le
  unfold next
  split
  · refine Agrees.ok ⟨Nat.zero_le _, ?_⟩
    rintro ⟨op, member, same⟩
    cases same
    simp [binaryOps, foldOps] at member
  · next c rest text =>
      rw [text, List.length_cons] at shorter
      have notSpace : isspace c = false := by
        have first := List.head?_dropWhile_not isspace p.textp
        rw [text] at first
        simpa using first
      split_ifs with quote tick
      · refine agrees_checked (string_safe rest) ?_
        intro textp read
        have := string_length read
        refine Agrees.ok ⟨?_, ?_⟩
        · simp only [id]
          omega
        · rintro ⟨op, _, same⟩
          cases same
      · subst tick
        rw [character_quote]
        refine Agrees.ok ⟨shorter, ?_⟩
        rintro ⟨op, _, same⟩
        cases same
      · cases read : As.next lookup ⟨.EOS, c :: rest, p.regmode⟩ with
        | error e => exact .report _
        | ok q =>
          have advance := scan_length notSpace read
          refine Agrees.ok ⟨?_, ?_⟩
          · simp only [id]
            omega
          · rintro ⟨op, member, same⟩
            cases same
            have := advance.2 member
            simp only [id]
            omega

variable {n fuel m fuel' : Nat} {p : Parser} {op : Char} {ops : List Token}

theorem next_after (le : p.textp.length ≤ n) : Agrees target n id (next lookup p) (next lookup p) :=
  (next_agrees lookup p).mono le

theorem expect_agrees (t : Token) (le : p.textp.length ≤ n) :
    Agrees target n id (expect lookup t p) (expect lookup t p) := by
  unfold expect
  split_ifs
  · exact next_after lookup le
  · exact .report _

theorem getreg_agrees (le : p.textp.length ≤ n) :
    Agrees target n Prod.snd (getreg lookup p) (getreg lookup p) := by
  unfold getreg
  split
  · exact (next_after lookup le).andThen fun q advances => .ok advances
  · exact .report _

/-- An `expr()` that never ends on an opening parenthesis. -/
def Stuck (expr : Parser → Parsed (Node × Parser)) : Prop :=
  ∀ p : Parser, p.yytoken = .plain (.char '(') → (expr p).result = none

variable {expr expr' : Parser → Parsed (Node × Parser)}

/-- A grammar function and the same one with other fuel. -/
def Matches (target : Target) (m : Nat) (run run' : Parser → Parsed (Node × Parser)) : Prop :=
  ∀ n ≤ m, ∀ p : Parser, p.textp.length ≤ n → Agrees target n Prod.snd (run p) (run' p)

theorem primary_matches (m : Nat) (stuck : Stuck expr) (stuck' : Stuck expr') :
    Matches target m (primary lookup expr) (primary lookup expr') := by
  intro n _ p le
  unfold primary
  by_cases opening : p.yytoken = .plain (.char '(')
  · have harm : ¬ Harmless target (.primary (.plain (.char '('))) := fun safe => safe rfl
    have none : atom p = none := by
      unfold atom
      rw [opening]
    simp only [none, opening, if_true]
    exact .harmed harm (never_ends (Run.andThen_never _ (stuck p opening)))
      (never_ends (Run.andThen_never _ (stuck' p opening)))
  · refine Agrees.log opening ?_
    split
    · exact (next_after lookup le).andThen fun q advances => .ok advances
    · rw [if_neg opening, if_neg opening]
      exact .report _

theorem unaryop_number (mark : op = '!' ∨ op = '-' ∨ op = '+') (val : TUINT) :
    ∃ np, unaryop op (.NUMBER (some val)) = .ok np := by
  unfold unaryop
  rcases mark with rfl | rfl | rfl
  all_goals simp

theorem unaryop_safe (mark : op = '!' ∨ op = '-' ∨ op = '+') (np : Node) :
    Harmless target (.unaryop op np) ↔ ∀ e, unaryop op np = .error e → Reported e := by
  unfold Harmless
  cases np with
  | NUMBER val =>
    cases val with
    | none =>
      unfold unaryop
      simp only [ne_eq, not_true_eq_false, false_and, Except.error.injEq, Reported, forall_eq']
    | some val =>
      obtain ⟨np, computed⟩ := unaryop_number mark val
      simp only [ne_eq, Node.NUMBER.injEq, reduceCtorEq, not_false_eq_true, and_self, computed,
        IsEmpty.forall_iff, implies_true]
  | freed =>
    unfold unaryop
    simp only [ne_eq, not_true_eq_false, and_false, Except.error.injEq, Reported, forall_eq']
  | _ =>
    unfold unaryop
    simp only [ne_eq, reduceCtorEq, not_false_eq_true, and_self, Node.isNumber, Bool.false_eq_true,
      if_true, if_false, Except.error.injEq, Reported, forall_eq', IsEmpty.forall_iff, implies_true]

theorem unaryMark_some {t : Lexeme} (mark : unaryMark t = some op) : op = '!' ∨ op = '-' ∨ op = '+' := by
  unfold unaryMark at mark
  split_ifs at mark
  all_goals
    simp only [Option.some.injEq] at mark
    simp [← mark]

theorem unary_matches (m : Nat) (stuck : Stuck expr) (stuck' : Stuck expr') :
    Matches target m (unary lookup expr) (unary lookup expr') := by
  intro n within p le
  unfold unary
  split
  · next op mark =>
      refine (next_after lookup le).andThen fun q advances => ?_
      refine (primary_matches lookup m stuck stuck' n within q advances.1).andThen fun a after => ?_
      refine agrees_checked (unaryop_safe (unaryMark_some mark) a.1) ?_
      intro np _
      exact .ok after
  · exact primary_matches lookup m stuck stuck' n within p le

theorem foldValue_safe (op : Token) (lv rv : TUINT) :
    op ∈ foldOps ↔ foldValue op lv rv ≠ .error .aborted := by
  unfold foldValue
  split
  all_goals try split_ifs
  all_goals simp_all [foldOps]

theorem foldValue_error {op : Token} {lv rv : TUINT} {e : Failure}
    (failed : foldValue op lv rv = .error e) : e = .divisionByZero ∨ e = .aborted := by
  unfold foldValue at failed
  split at failed
  all_goals try split_ifs at failed
  all_goals cases failed
  all_goals simp

theorem fold_safe (op : Token) (lv rv : TUINT) :
    op ∈ foldOps ↔ ∀ e, fold op (some lv) (some rv) = .error e → Reported e := by
  rw [foldValue_safe op lv rv]
  unfold fold
  cases computed : foldValue op lv rv with
  | ok val => simp [computed]
  | error e =>
    cases foldValue_error computed with
    | inl division => simp [computed, division, Reported]
    | inr aborted => simp [computed, aborted, Reported]

theorem binary_safe (op : Token) (l r : Node) :
    Harmless target (.binary op l r) ↔ ∀ e, binary op l r = .error e → Reported e := by
  change (op ∈ foldOps ∧ ∃ lv rv, constant l = some (some lv) ∧ constant r = some (some rv)) ↔ _
  unfold binary
  split_ifs with freed
  · constructor
    · rintro ⟨_, lv, rv, left, right⟩
      rcases freed with rfl | rfl
      · cases left
      · cases right
    · intro reported
      exact (reported _ rfl).elim
  · cases left : constant l with
    | none => simp [Reported]
    | some lv =>
      cases right : constant r with
      | none => simp [Reported]
      | some rv =>
        cases lv with
        | none => simp [fold, Reported]
        | some lv =>
          cases rv with
          | none => simp [fold, Reported]
          | some rv => simp [fold_safe op lv rv]

theorem operatorOf_some {t : Lexeme} {op : Token}
    (found : operatorOf ops t = some op) : op ∈ ops ∧ t = .plain op := by
  unfold operatorOf at found
  split at found
  · split_ifs at found with member
    cases found
    exact ⟨member, rfl⟩
  · cases found

def Fuelled (fuel : Nat) (p : Parser) : Prop :=
  1 ≤ fuel ∧ (AtOperator p → p.textp.length + 2 ≤ fuel)

theorem Advances.fuelled (advances : Advances n p) (much : n + 1 ≤ fuel) : Fuelled fuel p := by
  constructor
  · omega
  · intro operator
    have := advances.2 operator
    omega

theorem loop_agrees (known : ∀ op ∈ ops, op ∈ binaryOps) (keep : Bool)
    {operand operand' : Parser → Parsed (Node × Parser)} (alike : Matches target m operand operand')
    (within : n ≤ m) (fuel fuel' : Nat) (np : Node) (p : Parser) (fuelled : Fuelled fuel p)
    (fuelled' : Fuelled fuel' p) (advances : Advances n p) :
    Agrees target n Prod.snd (loop lookup ops keep operand fuel np p)
      (loop lookup ops keep operand' fuel' np p) := by
  induction fuel generalizing n fuel' np p with
  | zero => exact absurd fuelled.1 (by omega)
  | succ fuel ih =>
    cases fuel' with
    | zero => exact absurd fuelled'.1 (by omega)
    | succ fuel' =>
      unfold loop
      cases found : operatorOf ops p.yytoken with
      | none => exact .ok advances
      | some op =>
        have ⟨member, token⟩ := operatorOf_some found
        have room : p.textp.length + 2 ≤ fuel + 1 := fuelled.2 ⟨op, known op member, token⟩
        have room' : p.textp.length + 2 ≤ fuel' + 1 := fuelled'.2 ⟨op, known op member, token⟩
        have shorter : p.textp.length ≤ n := advances.1
        have small : p.textp.length ≤ m := le_trans shorter within
        refine Agrees.mono ?_ shorter
        refine (next_agrees lookup p).andThen fun q read => ?_
        refine (alike _ small q read.1).andThen fun a after => ?_
        refine agrees_checked (binary_safe op np a.1) ?_
        intro folded _
        exact ih small fuel' _ a.2 (after.fuelled (by omega)) (after.fuelled (by omega)) after

theorem Matches.level {below below' operand operand' : Parser → Parsed (Node × Parser)}
    (first : Matches target m below below') (known : ∀ op ∈ ops, op ∈ binaryOps) (keep : Bool)
    (second : Matches target m operand operand') (much : m + 1 ≤ fuel) (much' : m + 1 ≤ fuel') :
    Matches target m (fun p => (below p).andThen fun (np, p) => loop lookup ops keep operand fuel np p)
      (fun p => (below' p).andThen fun (np, p) => loop lookup ops keep operand' fuel' np p) := by
  intro n within p le
  refine (first n within p le).andThen fun a advances => ?_
  exact loop_agrees lookup known keep second within fuel fuel' a.1 a.2
    (advances.fuelled (by omega)) (advances.fuelled (by omega)) advances

theorem and_matches (stuck : Stuck expr) (stuck' : Stuck expr')
    (much : m + 1 ≤ fuel) (much' : m + 1 ≤ fuel') :
    Matches target m (and lookup expr fuel) (and lookup expr' fuel') := by
  have primaries : Matches target m (primary lookup expr) (primary lookup expr') :=
    primary_matches lookup m stuck stuck'
  have unaries : Matches target m (unary lookup expr) (unary lookup expr') :=
    unary_matches lookup m stuck stuck'
  have muls : Matches target m (mul lookup expr fuel) (mul lookup expr' fuel') :=
    unaries.level lookup (by simp [binaryOps, foldOps]) false primaries much much'
  have adds : Matches target m (add lookup expr fuel) (add lookup expr' fuel') :=
    muls.level lookup (by simp [binaryOps, foldOps]) true muls much much'
  have relationals : Matches target m (relational lookup expr fuel) (relational lookup expr' fuel') :=
    adds.level lookup (by simp [binaryOps, foldOps]) true adds much much'
  exact relationals.level lookup (by simp [binaryOps]) true relationals much much'

theorem exprBody_matches (stuck : Stuck expr) (stuck' : Stuck expr')
    (much : m + 1 ≤ fuel) (much' : m + 1 ≤ fuel') :
    Matches target m (exprBody lookup expr fuel) (exprBody lookup expr' fuel') := by
  have ands : Matches target m (and lookup expr fuel) (and lookup expr' fuel') :=
    and_matches lookup stuck stuck' much much'
  intro n within p le
  unfold exprBody
  refine (ands n within { p with regmode := false } le).andThen fun a advances => ?_
  refine Agrees.andThen ?_ fun b after => .ok after
  exact loop_agrees lookup (by simp [binaryOps, foldOps]) true ands within fuel fuel' a.1 a.2
    (advances.fuelled (by omega)) (advances.fuelled (by omega)) advances

theorem exprBody_stuck (fuel : Nat) (stuck : Stuck expr) : Stuck (exprBody lookup expr fuel) := by
  intro p opening
  have none : atom { p with regmode := false } = none := by
    unfold atom
    simp only [opening]
  have noMark : unaryMark p.yytoken = Option.none := by
    rw [opening]
    decide
  have primaries : (primary lookup expr { p with regmode := false }).result = Option.none := by
    unfold primary
    rw [none]
    simp only [opening, if_true]
    exact Run.andThen_never _ (stuck _ rfl)
  have unaries : (unary lookup expr { p with regmode := false }).result = Option.none := by
    unfold unary
    simp only [noMark]
    exact primaries
  have ands : (and lookup expr fuel { p with regmode := false }).result = Option.none :=
    Run.andThen_never _ (Run.andThen_never _ (Run.andThen_never _ (Run.andThen_never _ unaries)))
  exact Run.andThen_never _ ands

theorem expr_stuck (fuel : Nat) : Stuck (OperandParse.expr lookup fuel) := by
  induction fuel with
  | zero =>
    intro p _
    rfl
  | succ fuel ih => exact exprBody_stuck lookup (fuel + 1) ih

theorem expr_matches (much : m + 1 ≤ fuel) (much' : m + 1 ≤ fuel') :
    Matches target m (OperandParse.expr lookup fuel) (OperandParse.expr lookup fuel') := by
  cases fuel with
  | zero => omega
  | succ fuel =>
    cases fuel' with
    | zero => omega
    | succ fuel' =>
      exact exprBody_matches lookup (expr_stuck lookup fuel) (expr_stuck lookup fuel') much much'

theorem inParentheses_matches (much : m + 1 ≤ fuel) (much' : m + 1 ≤ fuel') :
    Matches target m (inParentheses lookup fuel) (inParentheses lookup fuel') := by
  have exprs : Matches target m (OperandParse.expr lookup fuel) (OperandParse.expr lookup fuel') :=
    expr_matches lookup much much'
  intro n within p le
  unfold inParentheses
  split_ifs
  · refine (getreg_agrees lookup le).andThen fun a advances => ?_
    obtain ⟨reg, q⟩ := a
    simp only
    split_ifs
    · exact (exprs n within q advances.1).andThen fun b after => .ok after
    · exact .ok advances
    · exact .report _
  · exact (exprs n within p le).andThen fun b after => .ok after

theorem address_matches (much : m + 1 ≤ fuel) (much' : m + 1 ≤ fuel') :
    Matches target m (address lookup fuel) (address lookup fuel') := by
  have exprs : Matches target m (OperandParse.expr lookup fuel) (OperandParse.expr lookup fuel') :=
    expr_matches lookup much much'
  intro n within p le
  unfold address
  split_ifs
  · refine (next_after lookup le).andThen fun q advances => ?_
    exact inParentheses_matches lookup much much' n within q advances.1
  · refine (exprs n within p le).andThen fun a advances => ?_
    refine (expect_agrees lookup _ advances.1).andThen fun q after => ?_
    exact (getreg_agrees lookup after.1).andThen fun b last => .ok last

theorem moperand_matches (much : m + 1 ≤ fuel) (much' : m + 1 ≤ fuel') :
    Matches target m (moperand lookup target fuel) (moperand lookup target fuel') := by
  intro n within p le
  unfold moperand
  cases target with
  | x86 => exact .harmed nofun (stop_ends nofun) (stop_ends nofun)
  | ppc => exact .harmed nofun (stop_ends nofun) (stop_ends nofun)
  | x80 =>
    refine Agrees.log rfl ?_
    refine (address_matches lookup much much' n within p le).andThen fun a advances => ?_
    exact (expect_agrees lookup _ advances.1).andThen fun q after => .ok after

theorem expression_agrees (much : m + 1 ≤ fuel) (much' : m + 1 ≤ fuel')
    (within : n ≤ m) (le : p.textp.length ≤ n) : Agrees target n Prod.snd (expression lookup target fuel p)
      (expression lookup target fuel' p) :=
  (moperand_matches lookup much much' n within p le).andThen fun _ advances => .ok advances

theorem immediate_agrees (much : m + 1 ≤ fuel) (much' : m + 1 ≤ fuel')
    (within : n ≤ m) (le : p.textp.length ≤ n) :
    Agrees target n Prod.snd (immediate lookup fuel p) (immediate lookup fuel' p) := by
  refine (next_after lookup le).andThen fun q advances => ?_
  exact (expr_matches lookup much much' n within q advances.1).andThen fun a after => .ok after

theorem byToken_agrees (much : m + 1 ≤ fuel) (much' : m + 1 ≤ fuel')
    (within : n ≤ m) (advances : Advances n p) :
    Agrees target n Prod.snd (byToken lookup target fuel p) (byToken lookup target fuel' p) := by
  have le := advances.1
  unfold byToken
  split
  · exact (next_after lookup le).andThen fun q after => .ok after
  · exact expression_agrees lookup much much' within le
  · split
    · exact .ok advances
    · exact (getreg_agrees lookup le).andThen fun a after => .ok after
    · split_ifs
      · exact (next_after lookup le).andThen fun q after => .ok after
      · exact expression_agrees lookup much much' within le
    · split_ifs
      · exact immediate_agrees lookup much much' within le
      · exact expression_agrees lookup much much' within le

theorem operand_agrees (much : m + 1 ≤ fuel) (much' : m + 1 ≤ fuel')
    (within : n ≤ m) (le : p.textp.length ≤ n) :
    Agrees target n Prod.snd (operand lookup target fuel p) (operand lookup target fuel' p) := by
  unfold operand
  have first : Agrees target n id (next lookup { p with regmode := true })
      (next lookup { p with regmode := true }) := next_after lookup le
  refine first.andThen fun q advances => ?_
  refine (byToken_agrees lookup much much' within advances).andThen fun a after => ?_
  unfold finish
  split_ifs
  · exact .ok after
  · exact .report _

theorem operands_alike (much : m + 1 ≤ fuel) (much' : m + 1 ≤ fuel')
    (left : Nat) (p : Parser) (le : p.textp.length ≤ m) :
    Alike (Harmless target) Reported (operands lookup target fuel left p)
      (operands lookup target fuel' left p) := by
  induction left generalizing p with
  | zero => exact .error trivial
  | succ left ih =>
    have ⟨alike, advances⟩ : Agrees target m Prod.snd (operand lookup target fuel p)
        (operand lookup target fuel' p) := operand_agrees lookup much much' (le_refl m) le
    refine alike.andThen fun a result => ?_
    obtain ⟨np, q⟩ := a
    cases np with
    | none => exact .ok _
    | some np => exact (ih q (advances _ result).1).andThen fun more _ => .ok _

theorem getargs_alike {yylval : Option TUINT} (s : Option Text)
    (much : enough s ≤ fuel) (much' : enough s ≤ fuel') :
    Alike (Harmless target) Reported (getargs lookup target yylval s fuel)
      (getargs lookup target yylval s fuel') := by
  cases s with
  | none => exact .ok _
  | some text => exact (operands_alike lookup much much' _ _ (le_refl _)).andThen fun args _ => .ok _

end Grammar

/-- The arguments of an instruction are parsed to an end, with a result or a reported
error and without a look behind the NUL, if and only if no call does harm. -/
theorem returns_iff_harmless (lookup : Text → Symbol) (target : Target) (yylval : Option TUINT)
    (s : Option Text) : Returns lookup target yylval s ↔
      ∀ call ∈ (getargs lookup target yylval s (enough s)).calls, Harmless target call :=
  settles_iff fun _ much => getargs_alike lookup s (Nat.le_refl _) much

/-- The immediate operand in parentheses: `expr()` never returns. -/
theorem parentheses_never_return : ¬ ∀ lookup target yylval s, Returns lookup target yylval s := by
  intro all
  have returns := all (fun _ => ⟨0, false, false⟩) .x80 none (some ['$', '(', '1', ')'])
  have harmless := (@settles_iff _ _ _ (Harmless .x80) Reported _ _ fun _ much =>
    getargs_alike _ _ (Nat.le_refl _) much).mp returns
  have opened := harmless (.primary (.plain (.char '('))) (by decide)
  exact opened rfl

end Scc.As.OperandParse
