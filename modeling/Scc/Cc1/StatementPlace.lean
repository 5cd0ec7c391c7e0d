import Scc.Cc1.StatementShape

/-!
# Places

A statement stands where its records begin, and what is left after it is what the records
behind them do. When what is left has its turn, the records go on to the same place.
-/

namespace Scc.Cc1.Lowering

open Scc.Lib.Simulation

set_option autoImplicit false

variable {arch : Arch} {ν : Valuation} {program : List Emit}

variable {np : Node} {h h' : History} {k : Cont arch} {rest : List Emit}

theorem expression_eval {e : Exp arch} (direct : e.expr.direct = true)
    (made : expression e = some np) (h : History) : np.eval arch ν h = e.expr.eval ν h := by
  rcases Option.map_eq_some_iff.mp made with ⟨tree, built, rfl⟩
  have value := expr_keeps built
  rw [Expr.direct, built] at direct
  rw [(simplify_keeps value.1 direct).2, value.2]

theorem condition_eval {e : Exp arch} {neg : Bool} (direct : e.expr.direct = true)
    (made : condition e neg = some np) : np.Formed arch ∧ ∀ h, np.eval arch ν h =
      (bit (decide ((e.expr.eval ν h).1 ≠ 0) ^^ neg), (e.expr.eval ν h).2) :=
  ⟨(condexpr_eval direct made).1, (condexpr_eval direct made).2 ν⟩

/-- From one place in the records to another, with these histories on the way. -/
def Moves (arch : Arch) (ν : Valuation) (program : List Emit) (h h' : History) (n : Nat)
    (rest rest' : List Emit) : Prop :=
  Passes (recordMachine arch ν program) (fun a => a = h ∨ a = h') n ⟨rest, h⟩ ⟨rest', h'⟩

theorem Moves.stay (rest : List Emit) (h : History) : Moves arch ν program h h 0 rest rest :=
  Passes.refl (Or.inl rfl)

theorem Moves.silent {n : Nat} {rest middle rest' : List Emit}
    (stepped : exec arch ν program ⟨rest, h⟩ = some ⟨middle, h⟩)
    (later : Moves arch ν program h h' n middle rest') : Moves arch ν program h h' (n + 1) rest rest' :=
  Passes.head (Or.inl rfl) stepped later

theorem Moves.evaluate {rest rest' : List Emit} (stepped : exec arch ν program ⟨rest, h⟩ = some ⟨rest', h'⟩) :
    Moves arch ν program h h' 1 rest rest' :=
  Passes.head (Or.inl rfl) stepped (Passes.refl (Or.inr rfl))

theorem Moves.after {h h' : History} {n : Nat} {rest middle rest' : List Emit}
    (before : Moves arch ν program h h' n rest middle)
    (stepped : exec arch ν program ⟨middle, h'⟩ = some ⟨rest', h'⟩) :
    Moves arch ν program h h' (n + 1) rest rest' :=
  Passes.trans before (Passes.head (Or.inr rfl) stepped (Passes.refl (Or.inr rfl)))

theorem branch_moves (formed : np.Formed arch) {b : Bool}
    (value : np.eval arch ν h = (bit b, h')) {sym : Label} {more to_ : List Emit}
    (found : target program sym = some to_) :
    ∃ n, Moves arch ν program h h' n (branch sym (some np) ++ more) (if b then to_ else more) := by
  have general : branch sym (some np) = [.OBRANCH sym, .OEXPR (some np)] →
      ∃ n, Moves arch ν program h h' n (branch sym (some np) ++ more) (if b then to_ else more) := by
    intro shape
    refine ⟨1, Moves.evaluate ?_⟩
    rw [shape]
    change (if (np.eval arch ν h).1 ≠ 0 then (target program sym).map (Config.mk · (np.eval arch ν h).2)
      else some ⟨more, (np.eval arch ν h).2⟩) = _
    rw [value, found]
    cases b <;> rfl
  cases np with
  | const type constant =>
    have kept : type.wrap constant = constant := formed
    rw [Node.eval, kept] at value
    have same : constant = bit b := congrArg Prod.fst value
    have unchanged : h = h' := congrArg Prod.snd value
    subst same unchanged
    cases b with
    | false => exact ⟨0, Moves.stay _ _⟩
    | true =>
      refine ⟨1, Moves.evaluate ?_⟩
      change (target program sym).map (Config.mk · h) = _
      rw [found]
      rfl
  | _ => exact general rfl

/-- A loop of `while` or `do` from its test on. -/
def loopTail (again lbreak : Label) (econd : Option Node) (more : List Emit) : List Emit :=
  .OELOOP :: (branch again econd ++ .OLABEL lbreak :: more)

/-- A loop of `for` from its increment on. -/
def forTail (again lcond lbreak : Label) (econd einc : Option Node) (more : List Emit) : List Emit :=
  .OEXPR einc :: .OLABEL lcond :: loopTail again lbreak econd more

/-- The labels of a loop whose body is followed by these records. -/
structure Loop (program : List Emit) (s : Stmt arch) (again lcont lbreak : Label)
    (tail more : List Emit) : Prop where
  body : ∃ st code st', stmt s (some lbreak) (some lcont) st = some (code, st') ∧
    target program again = some (.OBLOOP :: (code ++ .OLABEL lcont :: tail))
  continues : target program lcont = some tail
  leaves : target program lbreak = some more

/-- What is left after a statement is done from here on; the labels are those of `break` and
`continue` in the statement. -/
inductive Resumes (program : List Emit) :
    Option Label → Option Label → Cont arch → List Emit → Prop
  | stop : Resumes program none none .stop []
  | label {lbreak lcont : Option Label} {k : Cont arch} {more : List Emit} (sym : Label)
      (later : Resumes program lbreak lcont k more) :
      Resumes program lbreak lcont k (.OLABEL sym :: more)
  | jump {lbreak lcont : Option Label} {k : Cont arch} {more : List Emit} {sym : Label}
      (other : List Emit) (found : target program sym = some more)
      (later : Resumes program lbreak lcont k more) :
      Resumes program lbreak lcont k (.OJUMP sym :: other)
  | eswitch {lbreak lcont : Option Label} {k : Cont arch} {more : List Emit} (sym : Label)
      (later : Resumes program lbreak lcont k more) :
      Resumes program lbreak lcont k (.OESWITCH sym :: more)
  | fi {lbreak lcont : Option Label} {k : Cont arch} {more : List Emit}
      (later : Resumes program lbreak lcont k more) : Resumes program lbreak lcont (.fi k) more
  | item {lbreak lcont : Option Label} {k : Cont arch} {more code : List Emit} {rest : Stmt arch}
      {st st' : State} (made : stmt rest lbreak lcont st = some (code, st'))
      (later : Resumes program lbreak lcont k more) :
      Resumes program lbreak lcont (.item rest k) (code ++ more)
  | swtch {obreak lcont : Option Label} {k : Cont arch} {more : List Emit} {sym : Label}
      (leaves : target program sym = some more) (later : Resumes program obreak lcont k more) :
      Resumes program (some sym) lcont (.swtch k) more
  | loop {obreak ocont : Option Label} {k : Cont arch} {more : List Emit} {cond : Exp arch}
      {s : Stmt arch} {again lcont lbreak : Label} {np : Node}
      (tested : condition cond false = some np)
      (loop : Loop program s again lcont lbreak (loopTail again lbreak (some np) more) more)
      (later : Resumes program obreak ocont k more) :
      Resumes program (some lbreak) (some lcont) (.loop cond s k) (loopTail again lbreak (some np) more)
  | forinc {obreak ocont : Option Label} {k : Cont arch} {more : List Emit}
      {cond inc : Option (Exp arch)} {s : Stmt arch} {again lcond lcont lbreak : Label}
      {econd einc : Option Node} (tested : optional (condition · false) cond = some econd)
      (increased : optional expression inc = some einc)
      (loop : Loop program s again lcont lbreak (forTail again lcond lbreak econd einc more) more)
      (later : Resumes program obreak ocont k more) :
      Resumes program (some lbreak) (some lcont) (.forinc cond inc s k)
        (forTail again lcond lbreak econd einc more)
  | forcond {obreak ocont : Option Label} {k : Cont arch} {more : List Emit}
      {cond inc : Option (Exp arch)} {s : Stmt arch} {again lcond lcont lbreak : Label}
      {econd einc : Option Node} (tested : optional (condition · false) cond = some econd)
      (increased : optional expression inc = some einc)
      (loop : Loop program s again lcont lbreak (forTail again lcond lbreak econd einc more) more)
      (later : Resumes program obreak ocont k more) :
      Resumes program none none (.forcond cond inc s k) (loopTail again lbreak econd more)

/-- The records of a statement begin here, and behind them those of what is left. -/
def Placed (program : List Emit) (s : Stmt arch) (k : Cont arch) (rest : List Emit) : Prop :=
  rest <:+ program ∧ ∃ lbreak lcont st code st' more,
    stmt s lbreak lcont st = some (code, st') ∧ rest = code ++ more ∧
      Resumes program lbreak lcont k more

variable {lbreak lcont : Option Label}

theorem Placed.null (suffix : rest <:+ program) (later : Resumes program lbreak lcont k rest) :
    Placed program .null k rest :=
  ⟨suffix, lbreak, lcont, ⟨0, [], 0, none⟩, [], _, rest, rfl, rfl, later⟩

theorem Resumes.leave (resumes : Resumes program lbreak lcont k rest) :
    ∀ sym, lbreak = some sym → ∃ k' more, k.leave = some k' ∧ target program sym = some more ∧
      ∃ ob oc, Resumes program ob oc k' more := by
  induction resumes with
  | stop =>
    intro sym none_
    cases none_
  | label _ _ ih => exact ih
  | jump _ _ _ ih => exact ih
  | eswitch _ _ ih => exact ih
  | fi _ ih => exact ih
  | item _ _ ih => exact ih
  | swtch leaves later _ =>
    intro sym same
    cases same
    exact ⟨_, _, rfl, leaves, _, _, later⟩
  | loop _ loop later _ =>
    intro sym same
    cases same
    exact ⟨_, _, rfl, loop.leaves, _, _, later⟩
  | forinc _ _ loop later _ =>
    intro sym same
    cases same
    exact ⟨_, _, rfl, loop.leaves, _, _, later⟩
  | forcond _ _ _ _ _ =>
    intro sym none_
    cases none_

theorem Resumes.again (resumes : Resumes program lbreak lcont k rest) :
    ∀ sym, lcont = some sym → ∃ k' more, k.again = some k' ∧ target program sym = some more ∧
      ∃ ob oc, Resumes program ob oc k' more := by
  induction resumes with
  | stop =>
    intro sym none_
    cases none_
  | label _ _ ih => exact ih
  | jump _ _ _ ih => exact ih
  | eswitch _ _ ih => exact ih
  | fi _ ih => exact ih
  | item _ _ ih => exact ih
  | swtch _ _ ih => exact ih
  | loop tested loop later _ =>
    intro sym same
    cases same
    exact ⟨_, _, rfl, loop.continues, _, _, .loop tested loop later⟩
  | forinc tested increased loop later _ =>
    intro sym same
    cases same
    exact ⟨_, _, rfl, loop.continues, _, _, .forinc tested increased loop later⟩
  | forcond _ _ _ _ _ =>
    intro sym none_
    cases none_

section Shapes

variable {lbreak lcont : Option Label} {st st' : State} {code : List Emit}

variable {s : Stmt arch} {cond : Exp arch}

theorem stmt_mark {m : Mark} (made : stmt (.mark m s) lbreak lcont st = some (code, st')) :
    ∃ before inner, mark arch st m = some before ∧
      stmt s lbreak lcont before.2 = some (inner, st') ∧ code = before.1 ++ inner := by
  rcases Option.bind_eq_some_iff.mp made with ⟨before, marked, made⟩
  rcases Option.map_eq_some_iff.mp made with ⟨⟨inner, last⟩, body, built⟩
  cases built
  exact ⟨before, inner, marked, body, rfl⟩

theorem stmt_compound {items : Stmt arch} (made : stmt (.compound items) lbreak lcont st = some (code, st')) :
    ∃ st₁ st₂, stmt items lbreak lcont st₁ = some (code, st₂) := by
  unfold stmt at made
  split_ifs at made
  rcases Option.map_eq_some_iff.mp made with ⟨⟨inner, last⟩, body, built⟩
  cases built
  exact ⟨_, _, body⟩

theorem stmt_item {s rest : Stmt arch} (made : stmt (.item s rest) lbreak lcont st = some (code, st')) :
    ∃ first second middle, stmt s lbreak lcont st = some (first, middle) ∧
      stmt rest lbreak lcont middle = some (second, st') ∧ code = first ++ second := by
  rcases Option.bind_eq_some_iff.mp made with ⟨⟨first, middle⟩, head, made⟩
  rcases Option.map_eq_some_iff.mp made with ⟨⟨second, last⟩, tail, built⟩
  cases built
  exact ⟨first, second, middle, head, tail, rfl⟩

theorem stmt_if (made : stmt (.If cond s) lbreak lcont st = some (code, st')) :
    ∃ np lelse inner st₁ st₂, condition cond true = some np ∧ stmt s lbreak lcont st₁ = some (inner, st₂) ∧
      code = branch (.fresh lelse) (some np) ++ (inner ++ [.OLABEL (.fresh lelse)]) := by
  rcases Option.bind_eq_some_iff.mp made with ⟨np, tested, made⟩
  rcases Option.map_eq_some_iff.mp made with ⟨⟨inner, last⟩, body, built⟩
  cases built
  exact ⟨np, _, inner, _, _, tested, body, List.append_assoc _ _ _⟩

theorem stmt_ifelse {s lelse : Stmt arch}
    (made : stmt (.Ifelse cond s lelse) lbreak lcont st = some (code, st')) :
    ∃ np no last first second st₁ st₂ st₃ st₄, condition cond true = some np ∧
      stmt s lbreak lcont st₁ = some (first, st₂) ∧ stmt lelse lbreak lcont st₃ = some (second, st₄) ∧
      code = branch (.fresh no) (some np) ++ (first ++ (.OJUMP (.fresh last) ::
        .OLABEL (.fresh no) :: (second ++ [.OLABEL (.fresh last)]))) := by
  rcases Option.bind_eq_some_iff.mp made with ⟨np, tested, made⟩
  rcases Option.bind_eq_some_iff.mp made with ⟨⟨first, middle⟩, yes, made⟩
  rcases Option.map_eq_some_iff.mp made with ⟨⟨second, last⟩, no, built⟩
  cases built
  refine ⟨np, st.fresh + 0, middle.fresh + 0, first, second, _, _, _, _, tested, yes, no, ?_⟩
  simp only [State.label, List.append_assoc, List.cons_append]

theorem stmt_while (made : stmt (.While cond s) lbreak lcont st = some (code, st')) :
    ∃ np again test last inner st₁ st₂, condition cond false = some np ∧
      stmt s (some (.fresh last)) (some (.fresh test)) st₁ = some (inner, st₂) ∧
      code = .OJUMP (.fresh test) :: .OLABEL (.fresh again) :: .OBLOOP ::
        (inner ++ .OLABEL (.fresh test) :: loopTail (.fresh again) (.fresh last) (some np) []) := by
  rcases Option.bind_eq_some_iff.mp made with ⟨np, tested, made⟩
  rcases Option.map_eq_some_iff.mp made with ⟨⟨inner, last⟩, body, built⟩
  cases built
  refine ⟨np, st.fresh + 0, _, _, inner, _, _, tested, body, ?_⟩
  simp only [State.label, loopTail, List.append_assoc, List.cons_append]

theorem stmt_dowhile (made : stmt (.Dowhile s cond) lbreak lcont st = some (code, st')) :
    ∃ np again test last inner st₁ st₂, condition cond false = some np ∧
      stmt s (some (.fresh last)) (some (.fresh test)) st₁ = some (inner, st₂) ∧
      code = .OLABEL (.fresh again) :: .OBLOOP ::
        (inner ++ .OLABEL (.fresh test) :: loopTail (.fresh again) (.fresh last) (some np) []) := by
  rcases Option.bind_eq_some_iff.mp made with ⟨⟨inner, last⟩, body, made⟩
  rcases Option.map_eq_some_iff.mp made with ⟨np, tested, built⟩
  cases built
  refine ⟨np, st.fresh + 0, _, _, inner, _, _, tested, body, ?_⟩
  simp only [State.label, loopTail, List.append_assoc, List.cons_append]

/-- What a `for` does before its loop. -/
def forHead (test : Label) (einit econd : Option Node) : List Emit :=
  (einit.toList.map fun np => .OEXPR (some np)) ++ if econd.isSome then [.OJUMP test] else []

theorem stmt_for {init cond inc : Option (Exp arch)}
    (made : stmt (.For init cond inc s) lbreak lcont st = some (code, st')) :
    ∃ einit econd einc again next test last inner st₁ st₂,
      optional expression init = some einit ∧ optional (condition · false) cond = some econd ∧
      optional expression inc = some einc ∧
      stmt s (some (.fresh last)) (some (.fresh next)) st₁ = some (inner, st₂) ∧
      code = forHead (.fresh test) einit econd ++ (.OLABEL (.fresh again) :: .OBLOOP ::
        (inner ++ .OLABEL (.fresh next) ::
          forTail (.fresh again) (.fresh test) (.fresh last) econd einc [])) := by
  rcases Option.bind_eq_some_iff.mp made with ⟨einit, started, made⟩
  rcases Option.bind_eq_some_iff.mp made with ⟨econd, tested, made⟩
  rcases Option.bind_eq_some_iff.mp made with ⟨einc, increased, made⟩
  rcases Option.map_eq_some_iff.mp made with ⟨⟨inner, last⟩, body, built⟩
  cases built
  refine ⟨einit, econd, einc, st.fresh + 0, _, st.fresh + 2, _, inner, _, _, started, tested, increased,
    body, ?_⟩
  simp only [State.label, forHead, forTail, loopTail, List.append_assoc, List.cons_append]

theorem stmt_swtch (made : stmt (.Swtch cond s) lbreak lcont st = some (code, st')) :
    ∃ np last inner st₁ st₂, ((expr cond.expr).bind (@convert arch)) = some np ∧
      stmt s (some (.fresh last)) lcont st₁ = some (inner, st₂) ∧
      code = .OBSWITCH :: .OEXPR (some (simplify arch np)) ::
        (inner ++ [.OESWITCH (.fresh last), .OLABEL (.fresh last)]) := by
  rcases Option.bind_eq_some_iff.mp made with ⟨np, tested, made⟩
  rcases Option.map_eq_some_iff.mp made with ⟨⟨inner, last⟩, body, built⟩
  cases built
  exact ⟨np, _, inner, _, _, tested, body, rfl⟩

end Shapes

theorem loopTail_append (again lbreak : Label) (econd : Option Node) (more : List Emit) :
    loopTail again lbreak econd [] ++ more = loopTail again lbreak econd more := by
  simp only [loopTail, List.append_assoc, List.cons_append, List.nil_append]

theorem forTail_append (again lcond lbreak : Label) (econd einc : Option Node) (more : List Emit) :
    forTail again lcond lbreak econd einc [] ++ more = forTail again lcond lbreak econd einc more := by
  simp only [forTail, loopTail_append, List.cons_append]

theorem loopTail_last (again lbreak : Label) (econd : Option Node) (more : List Emit) :
    .OLABEL lbreak :: more <:+ loopTail again lbreak econd more :=
  (List.suffix_append _ _).trans (List.suffix_cons _ _)

theorem forTail_last (again lcond lbreak : Label) (econd einc : Option Node) (more : List Emit) :
    .OLABEL lbreak :: more <:+ forTail again lcond lbreak econd einc more :=
  (loopTail_last again lbreak econd more).trans
    ((List.suffix_cons _ _).trans (List.suffix_cons _ _))

theorem Loop.of_suffix {s : Stmt arch} {again lcont lbreak : Label} {tail more inner : List Emit}
    {st st' : State} (once : (labels program).Nodup)
    (made : stmt s (some lbreak) (some lcont) st = some (inner, st'))
    (suffix : .OLABEL again :: .OBLOOP :: (inner ++ .OLABEL lcont :: tail) <:+ program)
    (last : .OLABEL lbreak :: more <:+ tail) : Loop program s again lcont lbreak tail more := by
  have test : .OLABEL lcont :: tail <:+ program :=
    (((List.suffix_append _ _).trans (List.suffix_cons _ _)).trans (List.suffix_cons _ _)).trans suffix
  constructor
  · exact ⟨st, inner, st', made, target_suffix once suffix⟩
  · exact target_suffix once test
  · exact target_suffix once ((last.trans (List.suffix_cons _ _)).trans test)

def Exp.Direct (e : Exp arch) : Prop := e.expr.direct = true

/-- An integer that a conversion to int does not make shorter. -/
def Exp.Narrow (e : Exp arch) : Prop :=
  (e.type.op = .INT ∨ e.type.op = .ENUM) ∧ e.type.size ≤ arch.intsize

/-- No ordering with a constant on its left only is evaluated next, and no switch on something
that is wider than an int. -/
def Sound : Source arch → Prop
  | ⟨.exp e, _, _⟩ => e.Direct
  | ⟨.If cond _, _, _⟩ => cond.Direct
  | ⟨.Ifelse cond _ _, _, _⟩ => cond.Direct
  | ⟨.For init _ _ _, _, _⟩ => ∀ x ∈ init, Exp.Direct x
  | ⟨.Return e, _, _⟩ => ∀ x ∈ e, Exp.Direct x
  | ⟨.Swtch cond _, _, _⟩ => cond.Direct ∧ cond.Narrow
  | ⟨.null, .loop cond _ _, _⟩ => cond.Direct
  | ⟨.null, .forinc _ inc _ _, _⟩ => ∀ x ∈ inc, Exp.Direct x
  | ⟨.null, .forcond cond _ _ _, _⟩ => ∀ x ∈ cond, Exp.Direct x
  | _ => True

def Stmt.nodes : Stmt arch → Nat
  | .mark _ s => s.nodes + 1
  | .compound items => items.nodes + 1
  | .item s rest => s.nodes + rest.nodes + 2
  | .If _ s => s.nodes + 2
  | .Ifelse _ s lelse => s.nodes + lelse.nodes + 2
  | .Swtch _ s => s.nodes
  | .While _ s => s.nodes
  | .Dowhile s _ => s.nodes
  | .For _ _ _ s => s.nodes
  | _ => 0

def Cont.nodes : Cont arch → Nat
  | .item rest k => rest.nodes + 1 + k.nodes
  | .fi k => k.nodes + 1
  | .swtch k => k.nodes + 1
  | _ => 0

/-- The steps that no record stands for come to an end. -/
def rank (src : Source arch) : Nat := src.s.nodes + src.k.nodes

theorem optional_after {e : Option (Exp arch)} {np : Option Node} (direct : ∀ x ∈ e, Exp.Direct x)
    (made : optional expression e = some np) (h : History) (rest : List Emit) :
    exec arch ν program ⟨.OEXPR np :: rest, h⟩ = some ⟨rest, after ν e h⟩ := by
  cases e with
  | none =>
    cases made
    rfl
  | some e =>
    rcases Option.map_eq_some_iff.mp made with ⟨tree, built, rfl⟩
    change some (Config.mk rest (tree.eval arch ν h).2) = _
    rw [expression_eval (direct e rfl) built]
    rfl

theorem loop_moves {cond : Exp arch} {s : Stmt arch} {again lcont lbreak : Label}
    {tail more : List Emit} {inside k : Cont arch} {ob oc : Option Label} (h : History)
    (direct : cond.Direct) (tested : condition cond false = some np)
    (loop : Loop program s again lcont lbreak tail more)
    (suffix : loopTail again lbreak (some np) more <:+ program)
    (inner : Resumes program (some lbreak) (some lcont) inside tail) (later : Resumes program ob oc k more) :
    ∃ n rest', Moves arch ν program h (test ν cond s inside k h).seen (n + 1)
        (loopTail again lbreak (some np) more) rest' ∧
      Placed program (test ν cond s inside k h).s (test ν cond s inside k h).k rest' := by
  rcases loop.body with ⟨st, code, st', made, found⟩
  have value := condition_eval (ν := ν) direct tested
  simp only [Bool.xor_false] at value
  rcases branch_moves value.1 (value.2 h) found with ⟨n, moves⟩
  have start : exec arch ν program ⟨loopTail again lbreak (some np) more, h⟩ =
      some ⟨branch again (some np) ++ .OLABEL lbreak :: more, h⟩ := rfl
  unfold test
  by_cases met : (cond.expr.eval ν h).1 ≠ 0
  · rw [decide_eq_true met] at moves
    dsimp only
    rw [if_pos met]
    refine ⟨n + 1, code ++ .OLABEL lcont :: tail, (Moves.silent start moves).after rfl, ?_, ?_⟩
    · exact (List.suffix_cons _ _).trans (suffix_of_target found)
    · exact ⟨_, _, st, code, st', _, made, rfl, .label lcont inner⟩
  · rw [decide_eq_false met] at moves
    dsimp only
    rw [if_neg met]
    refine ⟨n, _, Moves.silent start moves, Placed.null ?_ (.label lbreak later)⟩
    exact ((List.suffix_append _ _).trans (List.suffix_cons _ _)).trans suffix

theorem resume_moves (resumes : Resumes program lbreak lcont k rest) (h : History) :
    ∀ src', rest <:+ program → Sound ⟨.null, k, h⟩ → resume ν k h = some src' →
      ∃ n rest', Moves arch ν program h src'.seen n rest rest' ∧
        Placed program src'.s src'.k rest' ∧ (n = 0 → rank src' < rank ⟨.null, k, h⟩) := by
  induction resumes with
  | stop =>
    intro src' _ _ resumed
    cases resumed
  | label sym _ ih =>
    intro src' suffix sound resumed
    rcases ih src' ((List.suffix_cons _ _).trans suffix) sound resumed with ⟨n, rest', moves, placed, _⟩
    exact ⟨n + 1, rest', Moves.silent rfl moves, placed, by simp⟩
  | jump other found _ ih =>
    intro src' suffix sound resumed
    rcases ih src' (suffix_of_target found) sound resumed with ⟨n, rest', moves, placed, _⟩
    refine ⟨n + 1, rest', Moves.silent ?_ moves, placed, by simp⟩
    change (target program _).map (Config.mk · h) = _
    rw [found]
    rfl
  | eswitch sym _ ih =>
    intro src' suffix sound resumed
    rcases ih src' ((List.suffix_cons _ _).trans suffix) sound resumed with ⟨n, rest', moves, placed, _⟩
    exact ⟨n + 1, rest', Moves.silent rfl moves, placed, by simp⟩
  | fi later _ =>
    intro src' suffix _ resumed
    cases resumed
    exact ⟨0, _, Moves.stay _ _, Placed.null suffix later, fun _ => by simp [rank, Cont.nodes]⟩
  | swtch _ later _ =>
    intro src' suffix _ resumed
    cases resumed
    exact ⟨0, _, Moves.stay _ _, Placed.null suffix later, fun _ => by simp [rank, Cont.nodes]⟩
  | item made later _ =>
    intro src' suffix _ resumed
    cases resumed
    refine ⟨0, _, Moves.stay _ _, ⟨suffix, _, _, _, _, _, _, made, rfl, later⟩, fun _ => ?_⟩
    simp only [rank, Cont.nodes, Stmt.nodes]
    omega
  | loop tested loop later _ =>
    intro src' suffix sound resumed
    cases resumed
    rcases loop_moves h sound tested loop suffix (.loop tested loop later) later with
      ⟨n, rest', moves, placed⟩
    exact ⟨n + 1, rest', moves, placed, by simp⟩
  | forinc tested increased loop later _ =>
    intro src' suffix sound resumed
    cases resumed
    refine ⟨1, _, Moves.evaluate (optional_after sound increased h _), Placed.null ?_
      (.label _ (.forcond tested increased loop later)), by simp⟩
    exact (List.suffix_cons _ _).trans suffix
  | @forcond _ _ k more cond inc s again lcond lcont lbreak econd einc tested increased loop later _ =>
    intro src' suffix sound resumed
    cases cond with
    | none =>
      cases resumed
      cases tested
      rcases loop.body with ⟨st, code, st', made, found⟩
      have jumped : exec arch ν program ⟨branch again none ++ .OLABEL lbreak :: more, h⟩ =
          some ⟨.OBLOOP :: (code ++ .OLABEL lcont :: forTail again lcond lbreak none einc more), h⟩ := by
        change (target program again).map (Config.mk · h) = _
        rw [found]
        rfl
      refine ⟨3, _, Moves.silent rfl (Moves.silent jumped (Moves.silent rfl (Moves.stay _ h))), ?_, by simp⟩
      refine ⟨(List.suffix_cons _ _).trans (suffix_of_target found), ?_⟩
      exact ⟨_, _, st, code, st', _, made, rfl, .label lcont (.forinc rfl increased loop later)⟩
    | some cond =>
      rcases Option.map_eq_some_iff.mp tested with ⟨np, built, rfl⟩
      cases resumed
      rcases loop_moves h (sound cond rfl) built loop suffix
        (.forinc tested increased loop later) later with ⟨n, rest', moves, placed⟩
      exact ⟨n + 1, rest', moves, placed, by simp⟩

theorem resume_halts (resumes : Resumes program lbreak lcont k rest) (h : History) :
    resume ν k h = none → ∃ n cfg, Passes (recordMachine arch ν program) (fun a => a = h) n ⟨rest, h⟩ cfg ∧
      exec arch ν program cfg = none := by
  induction resumes with
  | stop =>
    intro _
    exact ⟨0, _, Passes.refl rfl, rfl⟩
  | label sym _ ih =>
    intro ended
    rcases ih ended with ⟨n, cfg, passes, done⟩
    exact ⟨n + 1, cfg, Passes.head rfl rfl passes, done⟩
  | jump other found _ ih =>
    intro ended
    rcases ih ended with ⟨n, cfg, passes, done⟩
    refine ⟨n + 1, cfg, Passes.head rfl ?_ passes, done⟩
    change (target program _).map (Config.mk · h) = _
    rw [found]
    rfl
  | eswitch sym _ ih =>
    intro ended
    rcases ih ended with ⟨n, cfg, passes, done⟩
    exact ⟨n + 1, cfg, Passes.head rfl rfl passes, done⟩
  | fi _ _ =>
    intro ended
    cases ended
  | swtch _ _ _ =>
    intro ended
    cases ended
  | item _ _ _ =>
    intro ended
    cases ended
  | loop _ _ _ _ =>
    intro ended
    cases ended
  | forinc _ _ _ _ _ =>
    intro ended
    cases ended
  | @forcond _ _ _ _ cond _ _ _ _ _ _ _ _ _ _ _ _ _ =>
    intro ended
    cases cond <;> cases ended

end Scc.Cc1.Lowering
