import Scc.Cc2.SethiShape

/-!
# The code of a tree

From the beginning of the code of a tree every run comes to its end, or to one of the
two labels of a condition, and has done some of the steps of the tree. What is left to
do is the tree that the lowering has made of it.
-/

namespace Scc.Cc2

open Relation Scc.Lib.Reaching

set_option autoImplicit false

universe u v

variable {V : Type u} {S : Type v}

/-- A piece of a program, with the numbers that are new to it. -/
structure Placed (program front code rest : List Stmt) (fresh : Nat) : Prop where
  eq : program = front ++ (code ++ rest)
  before : ∀ sym : Nat, sym ∈ labels front → sym < fresh

section Pieces

variable {program front code back rest : List Stmt} {fresh a b : Nat}

theorem Placed.first (placed : Placed program front (code ++ back) rest fresh) :
    Placed program front code (back ++ rest) fresh := by
  constructor
  · rw [placed.eq, List.append_assoc]
  · exact placed.before

theorem Placed.second (placed : Placed program front (code ++ back) rest fresh)
    (numbered : Numbered code a b) (above : fresh ≤ b) : Placed program (front ++ code) back rest b := by
  constructor
  · rw [placed.eq, List.append_assoc, List.append_assoc]
  · intro sym isIn
    rw [mem_labels_append] at isIn
    cases isIn with
    | inl inFront =>
      have below := placed.before sym inFront
      omega
    | inr inCode => exact (numbered.bounds sym inCode).2

theorem Placed.later (placed : Placed program front code rest fresh) {fresh' : Nat}
    (above : fresh ≤ fresh') : Placed program front code rest fresh' := by
  constructor
  · exact placed.eq
  · intro sym isIn
    have below := placed.before sym isIn
    omega

theorem Placed.target {sym : Nat} (placed : Placed program front code rest fresh)
    (above : fresh ≤ sym) : target program sym = target (code ++ rest) sym := by
  have notFront : sym ∉ labels front := by
    intro inFront
    have below := placed.before sym inFront
    omega
  rw [placed.eq, target_behind notFront]

theorem Placed.label {sym : Nat} {body : Body}
    (placed : Placed program front (code ++ ⟨some sym, body⟩ :: back) rest fresh)
    (above : fresh ≤ sym) (notCode : sym ∉ labels code) :
    Cc2.target program sym = some (⟨some sym, body⟩ :: (back ++ rest)) := by
  rw [placed.target above, List.append_assoc, target_behind notCode]
  exact target_here sym body (back ++ rest)

end Pieces

/-- The temporaries below a bound are the same. -/
def Agree (bound : Nat) (tmps tmps' : Sym → V) : Prop := ∀ tmp : Nat, tmp < bound → tmps tmp = tmps' tmp

theorem Agree.refl (bound : Nat) (tmps : Sym → V) : Agree bound tmps tmps := fun _ _ => rfl

theorem Agree.trans {bound bound' : Nat} {tmps tmps' tmps'' : Sym → V} (le : bound ≤ bound')
    (later : Agree bound' tmps'' tmps') (earlier : Agree bound tmps' tmps) : Agree bound tmps'' tmps := by
  intro tmp below
  rw [later tmp (Nat.lt_of_lt_of_le below le), earlier tmp below]

theorem Agree.write {bound tmp : Nat} {tmps tmps' : Sym → V} (agree : Agree bound tmps' tmps)
    (above : bound ≤ tmp) (v : V) : Agree bound (write tmps' tmp v) tmps := by
  intro other below
  have differ : other ≠ tmp := by omega
  rw [Cc2.write, if_neg differ, agree other below]

section Specs

variable (I : Interp V S)

/-- The steps before the tree that is left. -/
def SethiSpec (np : Node) : Prop :=
  ∀ {program front rest : List Stmt} {fresh : Nat} (tmps : Sym → V) (s : S) (last : Option V),
    Placed program front (sethi np fresh).2.1 rest fresh →
      Reaches I program
        (fun c => c.rest = rest ∧ Agree fresh c.tmps tmps ∧
          Steps I (load tmps np, s) (load c.tmps (sethi np fresh).1, c.state))
        ⟨(sethi np fresh).2.1 ++ rest, tmps, s, last⟩

/-- A condition is evaluated and decides the label. -/
def BoolSpec (code : Sym → Sym → Sym → List Stmt × Sym) (np : Node) (decides : V → Bool → Prop) :
    Prop :=
  ∀ {program front rest yes no : List Stmt} {true_ false_ fresh : Nat} (tmps : Sym → V) (s : S)
    (last : Option V), Placed program front (code true_ false_ fresh).1 rest fresh →
      target program true_ = some yes → target program false_ = some no →
        Reaches I program
          (fun c => Agree fresh c.tmps tmps ∧
            ∃ v b, decides v b ∧ Evals I (load tmps np) s v c.state ∧ c.rest = if b then yes else no)
          ⟨(code true_ false_ fresh).1 ++ rest, tmps, s, last⟩

def CommaSpec (np : Node) : Prop :=
  ∀ {program front rest : List Stmt} {fresh : Nat} (tmps : Sym → V) (s : S) (last : Option V),
    Placed program front (comma np fresh).1 rest fresh →
      Reaches I program
        (fun c => c.rest = rest ∧ Agree fresh c.tmps tmps ∧ ∃ v, Evals I (load tmps np) s v c.state)
        ⟨(comma np fresh).1 ++ rest, tmps, s, last⟩

def Truth (v : V) (b : Bool) : Prop := I.truthy v = b

variable {I}

variable {op : Op} {type : Ty} {u : U} {left right : Node}

theorem bool_neg (leftSpec : BoolSpec I (bool left) left (Truth I)) :
    BoolSpec I (boolOp .ONEG (bool left) (bool right)) (.node .ONEG type u left right)
      (fun v b => v = I.const type b) := by
  intro program front rest yes no true_ false_ fresh tmps s last placed atTrue atFalse
  apply Must.mono (leftSpec tmps s last placed atFalse atTrue)
  intro c reached
  rcases reached with ⟨agree, v, b, truth, evals, restEq⟩
  rw [load_node (by decide)]
  have value : Evals I (.node .ONEG type u (load tmps left) (load tmps right)) s
      (I.const type (!b)) c.state := by
    rw [← truth]
    exact evals_neg evals
  exact ⟨agree, I.const type (!b), !b, rfl, value, by rw [restEq]; cases b <;> rfl⟩

theorem bool_both (stop : Bool) (leftSpec : BoolSpec I (bool left) left (Truth I))
    (rightSpec : BoolSpec I (bool right) right (Truth I)) (left_ : Shape left)
    (rightParsed : right.parsed = true) {program front rest yes no : List Stmt}
    {true_ false_ fresh : Nat} (tmps : Sym → V) (s : S) (last : Option V) {first : List Stmt × Sym}
    (firstEq : first = bool left (if stop then true_ else fresh) (if stop then fresh else false_) (fresh + 1))
    (placed : Placed program front
      (first.1 ++ labelstmt fresh :: (bool right true_ false_ first.2).1) rest fresh)
    (atTrue : target program true_ = some yes) (atFalse : target program false_ = some no) : Reaches I program
      (fun c => Agree fresh c.tmps tmps ∧ ∃ v b s', Truth I v b ∧ Evals I (load tmps left) s v s' ∧
        if b = stop then c.state = s' ∧ c.rest = if b then yes else no
        else ∃ w b', Truth I w b' ∧ Evals I (load tmps right) s' w c.state ∧ c.rest = if b' then yes else no)
      ⟨first.1 ++ labelstmt fresh :: ((bool right true_ false_ first.2).1 ++ rest), tmps, s, last⟩ := by
  have numbered : Numbered first.1 (fresh + 1) first.2 := by
    rw [firstEq]
    exact left_.bool _ _ (fresh + 1)
  have range := numbered.range
  have notFirst : fresh ∉ labels first.1 := by
    intro inFirst
    have bounds := numbered.bounds fresh inFirst
    omega
  have atLabel := placed.label (Nat.le_refl fresh) notFirst
  have placedLeft := placed.first.later (Nat.le_succ fresh)
  have placedRight : Placed program (front ++ first.1 ++ [labelstmt fresh])
      (bool right true_ false_ first.2).1 rest first.2 :=
    Placed.second (placed.second numbered (by omega))
      (Numbered.labelled fresh .ONOP (Nat.le_refl fresh) range : Numbered [labelstmt fresh] _ _)
      (Nat.le_refl first.2)
  have afterLeft : Reaches I program
      (fun c => Agree (fresh + 1) c.tmps tmps ∧ ∃ v b, Truth I v b ∧
        Evals I (load tmps left) s v c.state ∧ c.rest = if b = stop then (if b then yes else no)
          else labelstmt fresh :: ((bool right true_ false_ first.2).1 ++ rest))
      ⟨first.1 ++ labelstmt fresh :: ((bool right true_ false_ first.2).1 ++ rest), tmps, s, last⟩ := by
    rw [firstEq] at placedLeft atLabel ⊢
    cases stop with
    | true =>
      apply Must.mono (leftSpec tmps s last placedLeft atTrue atLabel)
      rintro c ⟨agree, v, b, truth, evals, restEq⟩
      exact ⟨agree, v, b, truth, evals, by rw [restEq]; cases b <;> rfl⟩
    | false =>
      apply Must.mono (leftSpec tmps s last placedLeft atLabel atFalse)
      rintro c ⟨agree, v, b, truth, evals, restEq⟩
      exact ⟨agree, v, b, truth, evals, by rw [restEq]; cases b <;> rfl⟩
  apply Must.bind afterLeft
  rintro ⟨rest', tmps', s', last'⟩ ⟨agree, v, b, truth, evals, restEq⟩
  dsimp only at agree evals restEq
  have agree_ : Agree fresh tmps' tmps := fun tmp below => agree tmp (Nat.lt_succ_of_lt below)
  by_cases decided : b = stop
  · rw [if_pos decided] at restEq
    apply Must.reached
    exact ⟨agree_, v, b, s', truth, evals, by rw [if_pos decided]; exact ⟨rfl, restEq⟩⟩
  · rw [if_neg decided] at restEq
    rw [restEq]
    apply reaches_nop
    apply Must.mono (rightSpec tmps' s' last' placedRight atTrue atFalse)
    rintro c ⟨agree', w, b', truth', evals', restEq'⟩
    rw [parsed_load rightParsed tmps tmps'] at evals'
    have agreed := Agree.trans (by omega) agree' agree_
    exact ⟨agreed, v, b, s', truth, evals, by rw [if_neg decided]; exact ⟨w, b', truth', evals', restEq'⟩⟩

theorem bool_and (leftSpec : BoolSpec I (bool left) left (Truth I))
    (rightSpec : BoolSpec I (bool right) right (Truth I)) (left_ : Shape left)
    (rightParsed : right.parsed = true) :
    BoolSpec I (boolOp .OAND (bool left) (bool right)) (.node .OAND type u left right)
      (fun v b => v = I.const type b) := by
  intro program front rest yes no true_ false_ fresh tmps s last placed atTrue atFalse
  have both := bool_both false leftSpec rightSpec left_ rightParsed tmps s last rfl placed atTrue atFalse
  rw [boolOp, List.append_assoc]
  apply Must.mono both
  rintro c ⟨agree, v, b, s', truth, evals, outcome⟩
  rw [load_node (by decide)]
  cases b with
  | false =>
    rcases outcome with ⟨stateEq, restEq⟩
    rw [← stateEq] at evals
    exact ⟨agree, I.const type false, false, rfl, evals_and_false evals truth, restEq⟩
  | true =>
    rcases outcome with ⟨w, b', truth', evals', restEq⟩
    have value : Evals I (.node .OAND type u (load tmps left) (load tmps right)) s
        (I.const type (I.truthy w)) c.state := evals_and_true evals truth evals'
    rw [truth'] at value
    exact ⟨agree, I.const type b', b', rfl, value, restEq⟩

theorem bool_or (leftSpec : BoolSpec I (bool left) left (Truth I))
    (rightSpec : BoolSpec I (bool right) right (Truth I)) (left_ : Shape left)
    (rightParsed : right.parsed = true) :
    BoolSpec I (boolOp .OOR (bool left) (bool right)) (.node .OOR type u left right)
      (fun v b => v = I.const type b) := by
  intro program front rest yes no true_ false_ fresh tmps s last placed atTrue atFalse
  have both := bool_both true leftSpec rightSpec left_ rightParsed tmps s last rfl placed atTrue atFalse
  simp only [boolOp, List.append_assoc]
  apply Must.mono both
  rintro c ⟨agree, v, b, s', truth, evals, outcome⟩
  rw [load_node (by decide)]
  cases b with
  | true =>
    rcases outcome with ⟨stateEq, restEq⟩
    rw [← stateEq] at evals
    exact ⟨agree, I.const type true, true, rfl, evals_or_true evals truth, restEq⟩
  | false =>
    rcases outcome with ⟨w, b', truth', evals', restEq⟩
    have value : Evals I (.node .OOR type u (load tmps left) (load tmps right)) s
        (I.const type (I.truthy w)) c.state := evals_or_false evals truth evals'
    rw [truth'] at value
    exact ⟨agree, I.const type b', b', rfl, value, restEq⟩

theorem bool_of_logical (isLogical : logical op = true)
    (spec : BoolSpec I (boolOp op (bool left) (bool right)) (.node op type u left right)
      (fun v b => v = I.const type b)) :
    BoolSpec I (bool (.node op type u left right)) (.node op type u left right) (Truth I) := by
  intro program front rest yes no true_ false_ fresh tmps s last placed atTrue atFalse
  rw [bool_logical isLogical] at placed ⊢
  apply Must.mono (spec tmps s last placed atTrue atFalse)
  rintro c ⟨agree, v, b, value, evals, restEq⟩
  have truth : Truth I v b := by
    rw [Truth, value]
    exact I.truthy_const type b
  exact ⟨agree, v, b, truth, evals, restEq⟩

theorem bool_of_sethi (notLogical : logical op = false)
    (spec : SethiSpec I (.node op type u left right)) (shape : Shape (.node op type u left right)) :
    BoolSpec I (bool (.node op type u left right)) (.node op type u left right) (Truth I) := by
  intro program front rest yes no true_ false_ fresh tmps s last placed atTrue atFalse
  rw [bool_default notLogical] at placed ⊢
  rw [List.append_assoc]
  apply Must.bind (spec tmps s last placed.first)
  rintro ⟨rest', tmps', s', last'⟩ ⟨restEq, agree, steps⟩
  dsimp only at restEq agree steps
  rw [restEq]
  apply reaches_branch (shape.lowered fresh) (shape.notNil (by simp) fresh) atTrue
  intro v s'' evals
  have value : Evals I (load tmps (.node op type u left right)) s v s'' := steps.trans evals
  cases truth : I.truthy v with
  | true =>
    rw [if_pos rfl]
    apply Must.reached
    exact ⟨agree, v, true, truth, value, rfl⟩
  | false =>
    rw [if_neg Bool.false_ne_true]
    apply reaches_jmp atFalse
    apply Must.reached
    exact ⟨agree, v, false, truth, value, rfl⟩

theorem expr_after {np : Node} (spec : SethiSpec I np) (shape : Shape np) (notNil : np ≠ .nil)
    (label : Option Sym) {program front rest : List Stmt} {fresh : Nat} (tmps : Sym → V) (s : S)
    (last : Option V) (placed : Placed program front (sethi np fresh).2.1
      (⟨label, .expr (sethi np fresh).1⟩ :: rest) fresh) : Reaches I program
      (fun c => c.rest = rest ∧ Agree fresh c.tmps tmps ∧
        ∃ v, Evals I (load tmps np) s v c.state ∧ c.last = some v)
      ⟨(sethi np fresh).2.1 ++ ⟨label, .expr (sethi np fresh).1⟩ :: rest, tmps, s, last⟩ := by
  apply Must.bind (spec tmps s last placed)
  rintro ⟨rest', tmps', s', last'⟩ ⟨restEq, agree, steps⟩
  dsimp only at restEq agree steps
  rw [restEq]
  apply reaches_expr (shape.lowered fresh) (shape.notNil notNil fresh)
  intro v s'' evals
  apply Must.reached
  exact ⟨rfl, agree, v, steps.trans evals, rfl⟩

theorem comma_of_sethi (notComma : op ≠ .OCOMMA) (spec : SethiSpec I (.node op type u left right))
    (shape : Shape (.node op type u left right)) : CommaSpec I (.node op type u left right) := by
  intro program front rest fresh tmps s last placed
  rw [comma_default notComma] at placed ⊢
  rw [List.append_assoc]
  apply Must.mono (expr_after spec shape (by simp) none tmps s last placed.first)
  rintro c ⟨restEq, agree, v, evals, _⟩
  exact ⟨restEq, agree, v, evals⟩

theorem comma_of_comma (leftSpec : CommaSpec I left) (rightSpec : SethiSpec I right)
    (left_ : Shape left) (right_ : Shape right) (rightParsed : right.parsed = true)
    (notNil : right ≠ .nil) : CommaSpec I (.node .OCOMMA type u left right) := by
  intro program front rest fresh tmps s last placed
  have numbered := left_.comma fresh
  rw [comma_comma] at placed ⊢
  rw [List.append_assoc] at placed
  rw [List.append_assoc, List.append_assoc]
  have placed' := (placed.second numbered numbered.range).first
  have placedLeft := placed.first
  rw [List.append_assoc] at placedLeft
  apply Must.bind (leftSpec tmps s last placedLeft)
  rintro ⟨rest', tmps', s', last'⟩ ⟨restEq, agree, v, evals⟩
  dsimp only at restEq agree evals
  rw [restEq]
  apply Must.mono (expr_after rightSpec right_ notNil none tmps' s' last' placed')
  rintro c ⟨restEq', agree', w, evals', _⟩
  rw [parsed_load rightParsed tmps tmps'] at evals'
  rw [load_node (by decide)]
  exact ⟨restEq', Agree.trans numbered.range agree' agree, w, (steps_comma evals).trans evals'⟩

theorem sethi_of_comma (leftSpec : CommaSpec I left) (rightSpec : SethiSpec I right)
    (left_ : Shape left) (rightParsed : right.parsed = true) :
    SethiSpec I (.node .OCOMMA type u left right) := by
  intro program front rest fresh tmps s last placed
  have numbered := left_.comma fresh
  rw [sethi_comma] at placed ⊢
  rw [List.append_assoc]
  have placed' := placed.second numbered numbered.range
  apply Must.bind (leftSpec tmps s last placed.first)
  rintro ⟨rest', tmps', s', last'⟩ ⟨restEq, agree, v, evals⟩
  dsimp only at restEq agree evals
  rw [restEq]
  apply Must.mono (rightSpec tmps' s' last' placed')
  rintro c ⟨restEq', agree', steps⟩
  rw [parsed_load rightParsed tmps tmps'] at steps
  rw [load_node (by decide)]
  exact ⟨restEq', Agree.trans numbered.range agree' agree, (steps_comma evals).trans steps⟩

theorem load_tmpnode (tmps : Sym → V) (type : Ty) (tmp : Sym) (v : V) :
    load (write tmps tmp v) (tmpnode type tmp) = .val v := by
  rw [tmpnode, load, if_pos rfl]
  exact congrArg Run.val (if_pos rfl)

theorem sethi_of_logical (isLogical : logical op = true)
    (spec : BoolSpec I (boolOp op (bool left) (bool right)) (.node op type u left right)
      (fun v b => v = I.const type b)) (left_ : Shape left) (right_ : Shape right) :
    SethiSpec I (.node op type u left right) := by
  intro program front rest fresh tmps s last placed
  have numbered := boolOp_numbered op left_.bool right_.bool fresh (fresh + 1) (fresh + 3)
  have range := numbered.range
  rw [sethi_logical isLogical] at placed ⊢
  simp only [logicexpr] at placed ⊢
  have absent : ∀ sym : Nat, sym < fresh + 3 →
      sym ∉ labels (boolOp op (bool left) (bool right) fresh (fresh + 1) (fresh + 3)).1 := by
    intro sym below inCond
    have bounds := numbered.bounds sym inCond
    omega
  have atTrue := placed.target (Nat.le_refl fresh)
  have atFalse := placed.target (Nat.le_succ fresh)
  have atPhi := placed.target (Nat.le_add_right fresh 2)
  rw [List.append_assoc, target_behind (absent fresh (by omega))] at atTrue
  rw [List.append_assoc, target_behind (absent (fresh + 1) (by omega))] at atFalse
  rw [List.append_assoc, target_behind (absent (fresh + 2) (by omega))] at atPhi
  have trueFalse : fresh ≠ fresh + 1 := by omega
  have truePhi : fresh ≠ fresh + 2 := by omega
  have falsePhi : fresh + 1 ≠ fresh + 2 := by omega
  simp only [List.cons_append, List.nil_append, Cc2.target, labelstmt, Option.some.injEq,
    reduceCtorEq, if_false, if_true, trueFalse, truePhi, falsePhi] at atTrue atFalse atPhi
  rw [List.append_assoc]
  have placedCond := placed.first.later (Nat.le_add_right fresh 3)
  apply Must.bind (spec tmps s last placedCond atTrue atFalse)
  rintro ⟨rest', tmps', s', last'⟩ ⟨agree, v, b, value, evals, restEq⟩
  dsimp only at agree evals restEq
  rw [value] at evals
  have agree_ : Agree fresh tmps' tmps := fun tmp below => agree tmp (by omega)
  have written : ∀ one : Bool, Agree fresh
      (write tmps' (boolOp op (bool left) (bool right) fresh (fresh + 1) (fresh + 3)).2
        (I.const type one)) tmps := fun one => agree_.write (by omega) _
  rw [restEq]
  cases b with
  | true =>
    apply reaches_set
    apply reaches_jmp atPhi
    apply reaches_nop
    apply Must.reached
    refine ⟨rfl, written true, ?_⟩
    rw [load_tmpnode]
    exact evals
  | false =>
    apply reaches_set
    apply reaches_nop
    apply Must.reached
    refine ⟨rfl, written false, ?_⟩
    rw [load_tmpnode]
    exact evals

theorem arm_assigned {np : Node} (spec : SethiSpec I np) (shape : Shape np) (notNil : np ≠ .nil)
    {program front rest : List Stmt} {bound tmp fresh : Nat} (tmps : Sym → V) (s : S)
    (last : Option V) (above : bound ≤ tmp) (below : tmp ≤ fresh)
    (placed : Placed program front (sethi np fresh).2.1
      (⟨none, .assign tmp (sethi np fresh).1⟩ :: rest) fresh) : Reaches I program
      (fun c => c.rest = rest ∧ Agree bound c.tmps tmps ∧ Evals I (load tmps np) s (c.tmps tmp) c.state)
      ⟨(sethi np fresh).2.1 ++ ⟨none, .assign tmp (sethi np fresh).1⟩ :: rest, tmps, s, last⟩ := by
  apply Must.bind (spec tmps s last placed)
  rintro ⟨rest', tmps', s', last'⟩ ⟨restEq, agree, steps⟩
  dsimp only at restEq agree steps
  rw [restEq]
  apply reaches_assign (shape.lowered fresh) (shape.notNil notNil fresh)
  intro v s'' evals
  apply Must.reached
  have agree_ : Agree bound tmps' tmps := fun other less => agree other (by omega)
  have assigned : write tmps' tmp v tmp = v := if_pos rfl
  refine ⟨rfl, agree_.write above v, ?_⟩
  dsimp only
  rw [assigned]
  exact steps.trans evals

theorem sethi_of_ask {op' : Op} {type' : Ty} {u' : U} {yes no : Node} (notTmp : op' ≠ .OTMP)
    (condSpec : BoolSpec I (bool left) left (Truth I)) (yesSpec : SethiSpec I yes)
    (noSpec : SethiSpec I no) (left_ : Shape left) (yes_ : Shape yes) (no_ : Shape no)
    (yesNotNil : yes ≠ .nil) (noNotNil : no ≠ .nil) (yesParsed : yes.parsed = true)
    (noParsed : no.parsed = true) : SethiSpec I (.node .OASK type u left (.node op' type' u' yes no)) := by
  intro program front rest fresh tmps s last placed
  rw [sethi_ask rfl rfl rfl] at placed ⊢
  have condNumbered := left_.bool fresh (fresh + 1) (fresh + 3)
  generalize condEq : bool left fresh (fresh + 1) (fresh + 3) = cond at *
  have firstNumbered := yes_.sethi (cond.2 + 1)
  generalize firstEq : sethi yes (cond.2 + 1) = first at *
  have secondNumbered := no_.sethi first.2.2
  generalize secondEq : sethi no first.2.2 = second at *
  have condRange := condNumbered.range
  have reserved : fresh ≤ cond.2 := by omega
  have firstRange := firstNumbered.range
  have secondRange := secondNumbered.range
  dsimp only at placed ⊢
  have absentCond : ∀ sym : Nat, sym < fresh + 3 → sym ∉ labels cond.1 := by
    intro sym below inCond
    have bounds := condNumbered.bounds sym inCond
    omega
  have absentFirst : ∀ sym : Nat, sym < fresh + 3 → sym ∉ labels first.2.1 := by
    intro sym below inFirst
    have bounds := firstNumbered.bounds sym inFirst
    omega
  have absentSecond : ∀ sym : Nat, sym < fresh + 3 → sym ∉ labels second.2.1 := by
    intro sym below inSecond
    have bounds := secondNumbered.bounds sym inSecond
    omega
  have atTrue := placed.target (Nat.le_refl fresh)
  have atFalse := placed.target (Nat.le_succ fresh)
  have atPhi := placed.target (Nat.le_add_right fresh 2)
  simp only [List.append_assoc, List.cons_append, List.nil_append] at atTrue atFalse atPhi ⊢
  rw [target_behind (absentCond fresh (by omega)), labelstmt, target_here] at atTrue
  rw [target_behind (absentCond (fresh + 1) (by omega)), target_cons (by simp [labelstmt]),
    target_behind (absentFirst (fresh + 1) (by omega)), target_cons (by simp), target_cons (by simp),
    labelstmt, target_here] at atFalse
  rw [target_behind (absentCond (fresh + 2) (by omega)), target_cons (by simp [labelstmt]),
    target_behind (absentFirst (fresh + 2) (by omega)), target_cons (by simp), target_cons (by simp),
    target_cons (by simp [labelstmt]),
    target_behind (absentSecond (fresh + 2) (by omega)), target_cons (by simp),
    labelstmt, target_here] at atPhi
  have trueNumbered : Numbered [labelstmt fresh] fresh (cond.2 + 1) :=
    Numbered.labelled fresh .ONOP (Nat.le_refl fresh) (by omega)
  have falseNumbered : Numbered
      [⟨none, .assign cond.2 first.1⟩, ⟨none, .OJMP (fresh + 2)⟩, labelstmt (fresh + 1)]
      fresh first.2.2 :=
    ((Numbered.labelled (fresh + 1) .ONOP (Nat.le_succ fresh) (by omega)).cons (by simp)).cons (by simp)
  have placedTrue := (placed.second condNumbered (by omega)).second trueNumbered (by omega)
  have placedFalse :=
    (placedTrue.second firstNumbered firstRange).second falseNumbered (Nat.le_refl first.2.2)
  have placedCond := placed.first.later (Nat.le_add_right fresh 3)
  rw [← condEq] at placedCond
  have decided := condSpec tmps s last placedCond atTrue atFalse
  have placedYes := placedTrue.first
  rw [← firstEq] at placedYes
  have placedNo := placedFalse.first
  rw [← secondEq] at placedNo
  simp only [List.append_assoc, List.cons_append, List.nil_append] at decided placedYes placedNo
  rw [condEq] at decided
  apply Must.bind decided
  rintro ⟨rest', tmps', s', last'⟩ ⟨agree, v, b, truth, evals, restEq⟩
  dsimp only at agree evals restEq
  have agree_ : Agree fresh tmps' tmps := fun tmp below => agree tmp (by omega)
  have chosen : Steps I (.node .OASK type u (load tmps left)
      (.node op' type' u' (load tmps yes) (load tmps no)), s)
      (if I.truthy v then load tmps yes else load tmps no, s') := steps_ask evals
  rw [truth] at chosen
  rw [restEq, load_node (by decide), load_node notTmp]
  cases b with
  | true =>
    apply reaches_nop
    have arm := arm_assigned yesSpec yes_ yesNotNil tmps' s' last' reserved
      (Nat.le_succ cond.2) placedYes
    rw [firstEq] at arm
    apply Must.bind arm
    rintro ⟨rest'', tmps'', s'', last''⟩ ⟨restEq', agree', evals'⟩
    dsimp only at restEq' agree' evals'
    rw [restEq']
    apply reaches_jmp atPhi
    apply reaches_nop
    apply Must.reached
    rw [parsed_load yesParsed tmps tmps'] at evals'
    refine ⟨rfl, Agree.trans (Nat.le_refl fresh) agree' agree_, ?_⟩
    exact chosen.trans evals'
  | false =>
    apply reaches_nop
    have arm := arm_assigned noSpec no_ noNotNil tmps' s' last' reserved
      (by omega) placedNo
    rw [secondEq] at arm
    apply Must.bind arm
    rintro ⟨rest'', tmps'', s'', last''⟩ ⟨restEq', agree', evals'⟩
    dsimp only at restEq' agree' evals'
    rw [restEq']
    apply reaches_nop
    apply Must.reached
    rw [parsed_load noParsed tmps tmps'] at evals'
    refine ⟨rfl, Agree.trans (Nat.le_refl fresh) agree' agree_, ?_⟩
    exact chosen.trans evals'

theorem sethi_of_addressable (isAddressable : addressable op = true) :
    SethiSpec I (.node op type u left right) := by
  intro program front rest fresh tmps s last placed
  rw [sethi_addressable isAddressable]
  apply Must.reached
  exact ⟨rfl, Agree.refl fresh tmps, ReflTransGen.refl⟩

theorem sethi_of_complement (leftSpec : SethiSpec I left) : SethiSpec I (.node .OCPL type u left right) := by
  intro program front rest fresh tmps s last placed
  rw [sethi_complement] at placed ⊢
  apply Must.mono (leftSpec tmps s last placed)
  rintro c ⟨restEq, agree, steps⟩
  rw [load_node (by decide), load_node (by decide)]
  have same : load c.tmps (constnode (BitVec.allOnes 64) type) =
      .node .OCONST type (.i (BitVec.allOnes 64)) .nil .nil := rfl
  rw [same]
  exact ⟨restEq, agree, ReflTransGen.head Step.complement (steps.left .OBXOR type u _)⟩

theorem sethi_of_plain (isPlain : plain op = true) (notAddressable : addressable op = false)
    (notTmp : op ≠ .OTMP) (leftSpec : SethiSpec I left) (rightSpec : SethiSpec I right)
    (left_ : Shape left) (rightParsed : right.parsed = true) : SethiSpec I (.node op type u left right) := by
  intro program front rest fresh tmps s last placed
  have numbered := left_.sethi fresh
  rw [sethi_plain isPlain notAddressable] at placed ⊢
  rw [List.append_assoc]
  have placed' := placed.second numbered numbered.range
  apply Must.bind (leftSpec tmps s last placed.first)
  rintro ⟨rest', tmps', s', last'⟩ ⟨restEq, agree, steps⟩
  dsimp only at restEq agree steps
  rw [restEq]
  apply Must.mono (rightSpec tmps' s' last' placed')
  rintro c ⟨restEq', agree', steps'⟩
  rw [parsed_load rightParsed tmps tmps'] at steps'
  -- The temporaries of the left tree are not written any more.
  have sameLeft := load_congr (left_.within fresh) agree'
  rw [load_node notTmp, load_node notTmp, sameLeft]
  exact ⟨restEq', Agree.trans numbered.range agree' agree,
    (steps.left op type u (load tmps right)).trans (steps'.right isPlain type u _)⟩

variable (I)

structure Lowered (np : Node) : Prop where
  sethi : SethiSpec I np
  bool : np ≠ .nil → BoolSpec I (Cc2.bool np) np (Truth I)
  comma : np ≠ .nil → CommaSpec I np

variable {I}

theorem sethi_of_nil : SethiSpec I .nil := by
  intro program front rest fresh tmps s last placed
  rw [sethi_nil]
  apply Must.reached
  exact ⟨rfl, Agree.refl fresh tmps, ReflTransGen.refl⟩

theorem expression_notTmp (isExpression : expression op = true) : op ≠ .OTMP := by
  intro isTmp
  rw [isTmp] at isExpression
  exact absurd isExpression (by decide)

theorem Lowered.of_sethi (notLogical : logical op = false) (notComma : op ≠ .OCOMMA)
    (isParsed : (Node.node op type u left right).parsed = true)
    (spec : SethiSpec I (.node op type u left right)) : Lowered I (.node op type u left right) where
  sethi := spec
  bool _ := bool_of_sethi notLogical spec (shape isParsed)
  comma _ := comma_of_sethi notComma spec (shape isParsed)

theorem logical_spec (isLogical : logical op = true) (ordered : operands op left right = true)
    (ihLeft : Lowered I left) (ihRight : Lowered I right) (left_ : Shape left)
    (rightParsed : right.parsed = true) :
    BoolSpec I (boolOp op (bool left) (bool right)) (.node op type u left right)
      (fun v b => v = I.const type b) := by
  cases op with
  | ONEG =>
    simp only [operands, bne_iff_ne] at ordered
    exact bool_neg (ihLeft.bool ordered)
  | OAND =>
    simp only [operands, Bool.and_eq_true, bne_iff_ne] at ordered
    exact bool_and (ihLeft.bool ordered.1) (ihRight.bool ordered.2) left_ rightParsed
  | OOR =>
    simp only [operands, Bool.and_eq_true, bne_iff_ne] at ordered
    exact bool_or (ihLeft.bool ordered.1) (ihRight.bool ordered.2) left_ rightParsed
  | _ => exact absurd isLogical (by decide)

theorem lowered {np : Node} (isParsed : np.parsed = true) : Lowered I np := by
  induction np using Node.nested_induction with
  | nil => exact ⟨sethi_of_nil, fun notNil => absurd rfl notNil, fun notNil => absurd rfl notNil⟩
  | node op type u left right ihLeft ihRight ihColon =>
    rcases parsed_node isParsed with ⟨isExpression, ordered, leftParsed, rightParsed⟩
    have left_ := shape leftParsed
    have right_ := shape rightParsed
    have leftSpec := ihLeft leftParsed
    have rightSpec := ihRight rightParsed
    rcases op_cases left ordered with isLogical | isComma | ⟨isAsk, isColon⟩ | isAddressable |
      isComplement | ⟨isPlain, notAddressable⟩
    · have spec : BoolSpec I (boolOp op (bool left) (bool right)) (.node op type u left right)
          (fun v b => v = I.const type b) :=
        logical_spec isLogical ordered leftSpec rightSpec left_ rightParsed
      have notComma : op ≠ .OCOMMA := by
        intro isComma
        rw [isComma] at isLogical
        exact absurd isLogical (by decide)
      have lowering : SethiSpec I (.node op type u left right) :=
        sethi_of_logical isLogical spec left_ right_
      exact ⟨lowering, fun _ => bool_of_logical isLogical spec,
        fun _ => comma_of_sethi notComma lowering (shape isParsed)⟩
    · cases isComma
      simp only [operands, Bool.and_eq_true, bne_iff_ne] at ordered
      have lowering : SethiSpec I (.node .OCOMMA type u left right) :=
        sethi_of_comma (leftSpec.comma ordered.1) rightSpec.sethi left_ rightParsed
      exact ⟨lowering, fun _ => bool_of_sethi rfl lowering (shape isParsed),
        fun _ => comma_of_comma (leftSpec.comma ordered.1) rightSpec.sethi left_ right_ rightParsed
          ordered.2⟩
    · cases isAsk
      rcases isColon with ⟨type', u', yes, no, rightEq⟩
      have inner := ihColon _ _ _ _ _ rightEq
      cases rightEq
      rcases parsed_node rightParsed with ⟨_, _, yesParsed, noParsed⟩
      simp only [operands, Bool.and_eq_true, bne_iff_ne] at ordered
      exact Lowered.of_sethi rfl (by decide) isParsed
        (sethi_of_ask (by decide) (leftSpec.bool ordered.1.1) (inner.1 yesParsed).sethi
          (inner.2 noParsed).sethi left_ (shape yesParsed) (shape noParsed) ordered.1.2 ordered.2
          yesParsed noParsed)
    · have notLogical : logical op = false := by
        cases op <;> first | rfl | exact absurd isAddressable (by decide)
      have notComma : op ≠ .OCOMMA := by
        intro isComma
        rw [isComma] at isAddressable
        exact absurd isAddressable (by decide)
      exact Lowered.of_sethi notLogical notComma isParsed (sethi_of_addressable isAddressable)
    · cases isComplement
      exact Lowered.of_sethi rfl (by decide) isParsed (sethi_of_complement leftSpec.sethi)
    · have notLogical : logical op = false := by
        cases op <;> first | rfl | exact absurd isPlain (by decide)
      have notComma : op ≠ .OCOMMA := by
        intro isComma
        rw [isComma] at isPlain
        exact absurd isPlain (by decide)
      exact Lowered.of_sethi notLogical notComma isParsed
        (sethi_of_plain isPlain notAddressable (expression_notTmp isExpression) leftSpec.sethi
          rightSpec.sethi left_ rightParsed)

end Specs

end Scc.Cc2
