import Mathlib.Tactic.SplitIfs
import Scc.Cc2.Sethi
import Scc.Cc2.Machine

/-!
# The statements that the lowering puts in

The labels of a piece are new ones and what is left of a tree leaves the order of its
operands open; it refers to temporaries that are new as well.
-/

namespace Scc.Cc2

set_option autoImplicit false

def expression (op : Op) : Bool :=
  op != .OTMP && op != .OBRANCH && op != .OBSWITCH && op != .OEFUN

def operands (op : Op) (left right : Node) : Bool :=
  match op, right with
  | .ONEG, _ => left != .nil
  | .OAND, _ => left != .nil && right != .nil
  | .OOR, _ => left != .nil && right != .nil
  | .OCOMMA, _ => left != .nil && right != .nil
  | .OASK, .node .OCOLON _ _ yes no => left != .nil && yes != .nil && no != .nil
  | .OASK, _ => false
  | .OCPL, _ => right = .nil
  | op, _ => !addressable op || (left = .nil && right = .nil)

def Node.parsed : Node → Bool
  | .nil => true
  | .node op _ _ left right => expression op && operands op left right && left.parsed && right.parsed

theorem Node.nested_induction {motive : Node → Prop} (nil : motive .nil)
    (node : ∀ op type u left right, motive left → motive right →
      (∀ op' type' u' yes no, right = .node op' type' u' yes no → motive yes ∧ motive no) →
      motive (.node op type u left right)) (np : Node) : motive np := by
  have both : motive np ∧
      ∀ op type u left right, np = .node op type u left right → motive left ∧ motive right := by
    induction np with
    | nil => exact ⟨nil, fun _ _ _ _ _ eq => absurd eq (by simp)⟩
    | node op type u left right ihLeft ihRight =>
      constructor
      · exact node op type u left right ihLeft.1 ihRight.1 ihRight.2
      · intro op' type' u' left' right' eq
        injection eq with _ _ _ leftEq rightEq
        rw [← leftEq, ← rightEq]
        exact ⟨ihLeft.1, ihRight.1⟩
  exact both.1

section Equations

variable {op : Op} {type : Ty} {u : U} {left right : Node} {fresh : Sym}

theorem sethi_nil : sethi .nil fresh = (.nil, [], fresh) := by rw [sethi]

theorem sethi_logical (isLogical : logical op = true) : sethi (.node op type u left right) fresh =
      logicexpr type (boolOp op (bool left) (bool right)) fresh := by
  rw [sethi.eq_def]
  exact if_pos isLogical

theorem sethi_comma : sethi (.node .OCOMMA type u left right) fresh = ((sethi right (comma left fresh).2).1,
        (comma left fresh).1 ++ (sethi right (comma left fresh).2).2.1,
        (sethi right (comma left fresh).2).2.2) := by
  rw [sethi.eq_def]
  rfl

theorem sethi_ask {op' : Op} {type' : Ty} {u' : U} {yes no : Node} {cond : List Stmt × Sym}
    {first second : Node × List Stmt × Sym} (condEq : cond = bool left fresh (fresh + 1) (fresh + 3))
    (firstEq : first = sethi yes (cond.2 + 1)) (secondEq : second = sethi no first.2.2) :
    sethi (.node .OASK type u left (.node op' type' u' yes no)) fresh = (tmpnode type cond.2,
        cond.1 ++ (labelstmt fresh :: (first.2.1 ++ (⟨none, .assign cond.2 first.1⟩ ::
          ⟨none, .OJMP (fresh + 2)⟩ :: labelstmt (fresh + 1) :: (second.2.1 ++
            [⟨none, .assign cond.2 second.1⟩, labelstmt (fresh + 2)])))), second.2.2) := by
  rw [secondEq, firstEq, condEq, sethi.eq_def]
  simp [logical]

theorem sethi_addressable (isAddressable : addressable op = true) :
    sethi (.node op type u left right) fresh = (.node op type u left right, [], fresh) := by
  rw [sethi.eq_def]
  cases op <;> first | rfl | exact absurd isAddressable (by decide)

theorem sethi_complement : sethi (.node .OCPL type u left right) fresh =
      (.node .OBXOR type u (sethi left fresh).1 (constnode (BitVec.allOnes 64) type),
        (sethi left fresh).2.1, (sethi left fresh).2.2) := by
  rw [sethi.eq_def]
  rfl

theorem sethi_plain (isPlain : plain op = true) (notAddressable : addressable op = false) :
    sethi (.node op type u left right) fresh =
      (.node op type u (sethi left fresh).1 (sethi right (sethi left fresh).2.2).1,
        (sethi left fresh).2.1 ++ (sethi right (sethi left fresh).2.2).2.1,
        (sethi right (sethi left fresh).2.2).2.2) := by
  rw [sethi.eq_def]
  cases op <;> first | rfl | exact absurd isPlain (by decide) | exact absurd notAddressable (by decide)

theorem bool_logical (isLogical : logical op = true) (true_ false_ : Sym) :
    bool (.node op type u left right) true_ false_ fresh =
      boolOp op (bool left) (bool right) true_ false_ fresh := by
  rw [bool, if_pos isLogical]

theorem bool_default (notLogical : logical op = false) (true_ false_ : Sym) :
    bool (.node op type u left right) true_ false_ fresh = ((sethi (.node op type u left right) fresh).2.1 ++
          [⟨none, .OBRANCH (sethi (.node op type u left right) fresh).1 true_⟩, ⟨none, .OJMP false_⟩],
        (sethi (.node op type u left right) fresh).2.2) := by
  rw [bool, if_neg (by rw [notLogical]; exact Bool.false_ne_true)]

theorem comma_comma : comma (.node .OCOMMA type u left right) fresh =
      ((comma left fresh).1 ++ (sethi right (comma left fresh).2).2.1 ++
          [⟨none, .expr (sethi right (comma left fresh).2).1⟩], (sethi right (comma left fresh).2).2.2) := by
  rw [comma]

theorem comma_default (notComma : op ≠ .OCOMMA) : comma (.node op type u left right) fresh =
      ((sethi (.node op type u left right) fresh).2.1 ++
          [⟨none, .expr (sethi (.node op type u left right) fresh).1⟩],
        (sethi (.node op type u left right) fresh).2.2) := by
  rw [comma]
  exact fun _ _ _ _ eq => notComma (by injection eq)

end Equations

/-- The labels of a piece are numbers of a range. -/
structure Numbered (code : List Stmt) (from_ into : Nat) : Prop where
  range : from_ ≤ into
  bounds : ∀ sym : Nat, sym ∈ labels code → from_ ≤ sym ∧ sym < into

theorem Numbered.nil (from_ : Nat) : Numbered [] from_ from_ :=
  ⟨Nat.le_refl from_, fun _ isIn => absurd isIn List.not_mem_nil⟩

theorem Numbered.append {front back : List Stmt} {a b c : Nat} (first : Numbered front a b)
    (second : Numbered back b c) : Numbered (front ++ back) a c := by
  constructor
  · exact Nat.le_trans first.range second.range
  · intro sym isIn
    rw [mem_labels_append] at isIn
    have range := first.range
    have range' := second.range
    cases isIn with
    | inl inFront =>
      have bounds := first.bounds sym inFront
      omega
    | inr inBack =>
      have bounds := second.bounds sym inBack
      omega

theorem Numbered.widen {code : List Stmt} {a b c d : Nat} (numbered : Numbered code b c)
    (below : a ≤ b) (above : c ≤ d) : Numbered code a d := by
  have range := numbered.range
  constructor
  · omega
  · intro sym isIn
    have bounds := numbered.bounds sym isIn
    omega

theorem Numbered.unlabelled {code : List Stmt} (none : labels code = []) (from_ : Nat) :
    Numbered code from_ from_ := by
  constructor
  · exact Nat.le_refl from_
  · intro sym isIn
    rw [none] at isIn
    exact absurd isIn List.not_mem_nil

theorem Numbered.cons {stmt : Stmt} {code : List Stmt} {a b : Nat} (numbered : Numbered code a b)
    (label : ∀ sym : Nat, stmt.label = some sym → a ≤ sym ∧ sym < b) : Numbered (stmt :: code) a b := by
  constructor
  · exact numbered.range
  · intro sym isIn
    rcases stmt with ⟨stmtLabel, body⟩
    rw [mem_labels_cons] at isIn
    cases isIn with
    | inl here => exact label sym here
    | inr later => exact numbered.bounds sym later

theorem Numbered.labelled {a b : Nat} (sym : Nat) (body : Body) (above : a ≤ sym) (below : sym < b) :
    Numbered [⟨some sym, body⟩] a b := by
  constructor
  · omega
  · intro other isIn
    rw [mem_labels_cons, Option.some.injEq] at isIn
    cases isIn with
    | inl here =>
      cases here
      exact ⟨above, below⟩
    | inr inNil => exact absurd inNil List.not_mem_nil

/-- The temporaries of a tree are below a bound. -/
def Node.within (bound : Nat) : Node → Prop
  | .nil => True
  | .node op _ u left right => (op = .OTMP → tmpOf u < bound) ∧ left.within bound ∧ right.within bound

variable {np left right : Node} {op : Op} {type : Ty} {u : U}

theorem Node.within_mono {bound bound' : Nat} (le : bound ≤ bound')
    (below : np.within bound) : np.within bound' := by
  induction np with
  | nil => trivial
  | node op type u left right ihLeft ihRight =>
    rcases below with ⟨here, leftBelow, rightBelow⟩
    exact ⟨fun isTmp => Nat.lt_of_lt_of_le (here isTmp) le, ihLeft leftBelow, ihRight rightBelow⟩

theorem load_congr {V : Type*} {bound : Nat} {tmps tmps' : Sym → V}
    (below : np.within bound) (agree : ∀ tmp : Nat, tmp < bound → tmps' tmp = tmps tmp) :
    load tmps' np = load tmps np := by
  induction np with
  | nil => rfl
  | node op type u left right ihLeft ihRight =>
    rcases below with ⟨here, leftBelow, rightBelow⟩
    rw [load, load]
    by_cases isTmp : op = .OTMP
    · rw [if_pos isTmp, if_pos isTmp, agree (tmpOf u) (here isTmp)]
    · rw [if_neg isTmp, if_neg isTmp, ihLeft leftBelow, ihRight rightBelow]

theorem parsed_node (isParsed : (Node.node op type u left right).parsed = true) :
    expression op = true ∧ operands op left right = true ∧ left.parsed = true ∧ right.parsed = true := by
  simp only [Node.parsed, Bool.and_eq_true] at isParsed
  exact ⟨isParsed.1.1.1, isParsed.1.1.2, isParsed.1.2, isParsed.2⟩

theorem parsed_within (isParsed : np.parsed = true) (bound : Nat) : np.within bound := by
  induction np with
  | nil => trivial
  | node op type u left right ihLeft ihRight =>
    rcases parsed_node isParsed with ⟨isExpression, _, leftParsed, rightParsed⟩
    have notTmp : op ≠ .OTMP := by
      intro isTmp
      rw [isTmp] at isExpression
      exact absurd isExpression (by decide)
    exact ⟨fun isTmp => absurd isTmp notTmp, ihLeft leftParsed, ihRight rightParsed⟩

theorem parsed_load {V : Type*} (isParsed : np.parsed = true) (tmps tmps' : Sym → V) :
    load tmps' np = load tmps np :=
  load_congr (parsed_within isParsed 0) fun tmp below => absurd below (Nat.not_lt_zero tmp)

structure Shape (np : Node) : Prop where
  sethi : ∀ fresh : Nat, Numbered (sethi np fresh).2.1 fresh (sethi np fresh).2.2
  lowered : ∀ fresh : Nat, (Cc2.sethi np fresh).1.lowered = true
  within : ∀ fresh : Nat, (Cc2.sethi np fresh).1.within (Cc2.sethi np fresh).2.2
  notNil : np ≠ .nil → ∀ fresh : Nat, (Cc2.sethi np fresh).1 ≠ .nil
  bool : ∀ true_ false_ fresh : Nat,
    Numbered (bool np true_ false_ fresh).1 fresh (bool np true_ false_ fresh).2
  comma : ∀ fresh : Nat, Numbered (comma np fresh).1 fresh (comma np fresh).2

theorem shape_nil : Shape .nil where
  sethi fresh := by
    rw [sethi_nil]
    exact Numbered.nil fresh
  lowered fresh := by
    rw [sethi_nil]
    rfl
  within fresh := by
    rw [sethi_nil]
    trivial
  notNil notNil := absurd rfl notNil
  bool true_ false_ fresh := by
    rw [Cc2.bool]
    exact Numbered.nil fresh
  comma fresh := by
    rw [Cc2.comma, sethi_nil]
    · exact Numbered.unlabelled rfl fresh
    · exact fun _ _ _ _ eq => absurd eq (by simp)

theorem boolOp_numbered (op : Op) {boolLeft boolRight : Sym → Sym → Sym → List Stmt × Sym}
    (left : ∀ true_ false_ fresh : Nat,
      Numbered (boolLeft true_ false_ fresh).1 fresh (boolLeft true_ false_ fresh).2)
    (right : ∀ true_ false_ fresh : Nat,
      Numbered (boolRight true_ false_ fresh).1 fresh (boolRight true_ false_ fresh).2)
    (true_ false_ fresh : Nat) : Numbered (boolOp op boolLeft boolRight true_ false_ fresh).1 fresh
      (boolOp op boolLeft boolRight true_ false_ fresh).2 := by
  -- A label stands between the code of the operands.
  have between : ∀ t f t' f' : Nat,
      Numbered ((boolLeft t f (fresh + 1)).1 ++
          labelstmt fresh :: (boolRight t' f' (boolLeft t f (fresh + 1)).2).1)
        fresh (boolRight t' f' (boolLeft t f (fresh + 1)).2).2 := by
    intro t f t' f'
    have first := left t f (fresh + 1)
    have second := right t' f' (boolLeft t f (fresh + 1)).2
    have below := first.range
    have below' := second.range
    constructor
    · omega
    · intro sym isIn
      rw [mem_labels_append, labelstmt, mem_labels_cons, Option.some.injEq] at isIn
      rcases isIn with inFirst | here | inSecond
      · have bounds := first.bounds sym inFirst
        omega
      · cases here
        omega
      · have bounds := second.bounds sym inSecond
        omega
  cases op with
  | ONEG => exact left false_ true_ fresh
  | OAND => exact between fresh false_ true_ false_
  | _ => exact between true_ fresh true_ false_

theorem logicexpr_numbered (type : Ty) {code : Sym → Sym → Sym → List Stmt × Sym}
    (numbered : ∀ true_ false_ fresh : Nat,
      Numbered (code true_ false_ fresh).1 fresh (code true_ false_ fresh).2) (fresh : Nat) :
    Numbered (logicexpr type code fresh).2.1 fresh (logicexpr type code fresh).2.2 := by
  have cond := numbered fresh (fresh + 1) (fresh + 3)
  have range := cond.range
  simp only [logicexpr]
  constructor
  · omega
  · intro sym isIn
    simp only [mem_labels_append, mem_labels_cons, labelstmt, Option.some.injEq, reduceCtorEq,
      false_or] at isIn
    rcases isIn with inCond | here | here | here | inNil
    · have bounds := cond.bounds sym inCond
      omega
    · cases here
      omega
    · cases here
      omega
    · cases here
      omega
    · exact absurd inNil List.not_mem_nil

/-- The code of `bool()` and `comma()` where a tree is lowered first. -/
theorem shape_of_sethi (sethi : ∀ fresh : Nat, Numbered (sethi (.node op type u left right) fresh).2.1 fresh
      (sethi (.node op type u left right) fresh).2.2)
    (lowered : ∀ fresh : Nat, (Cc2.sethi (.node op type u left right) fresh).1.lowered = true)
    (within : ∀ fresh : Nat, (Cc2.sethi (.node op type u left right) fresh).1.within
      (Cc2.sethi (.node op type u left right) fresh).2.2)
    (notNil : ∀ fresh : Nat, (Cc2.sethi (.node op type u left right) fresh).1 ≠ .nil)
    (left_ : Shape left) (right_ : Shape right) : Shape (.node op type u left right) where
  sethi := sethi
  lowered := lowered
  within := within
  notNil _ := notNil
  bool true_ false_ fresh := by
    cases isLogical : logical op with
    | true =>
      rw [bool_logical isLogical]
      exact boolOp_numbered op left_.bool right_.bool true_ false_ fresh
    | false =>
      rw [bool_default isLogical]
      exact (sethi fresh).append (Numbered.unlabelled rfl _)
  comma fresh := by
    by_cases isComma : op = .OCOMMA
    · cases isComma
      rw [comma_comma]
      exact ((left_.comma fresh).append (right_.sethi _)).append (Numbered.unlabelled rfl _)
    · rw [comma_default isComma]
      exact (sethi fresh).append (Numbered.unlabelled rfl _)

theorem tmpnode_within (type : Ty) {tmp bound : Nat} (below : tmp < bound) :
    (tmpnode type tmp).within bound :=
  ⟨fun _ => below, trivial, trivial⟩

theorem shape_logical (isLogical : logical op = true) (left_ : Shape left) (right_ : Shape right) :
    Shape (.node op type u left right) := by
  apply shape_of_sethi ?_ ?_ ?_ ?_ left_ right_
  · intro fresh
    rw [sethi_logical isLogical]
    exact logicexpr_numbered type (boolOp_numbered op left_.bool right_.bool) fresh
  · intro fresh
    rw [sethi_logical isLogical]
    rfl
  · intro fresh
    rw [sethi_logical isLogical]
    exact tmpnode_within type (Nat.lt_succ_self _)
  · intro fresh
    rw [sethi_logical isLogical]
    exact fun eq => absurd eq (by simp [logicexpr, tmpnode])

theorem shape_comma (notNil : right ≠ .nil)
    (left_ : Shape left) (right_ : Shape right) : Shape (.node .OCOMMA type u left right) := by
  apply shape_of_sethi ?_ ?_ ?_ ?_ left_ right_
  · intro fresh
    rw [sethi_comma]
    exact (left_.comma fresh).append (right_.sethi _)
  · intro fresh
    rw [sethi_comma]
    exact right_.lowered _
  · intro fresh
    rw [sethi_comma]
    exact right_.within _
  · intro fresh
    rw [sethi_comma]
    exact right_.notNil notNil _

theorem shape_ask {op' : Op} {type type' : Ty} {u u' : U} {left yes no : Node}
    (left_ : Shape left) (right_ : Shape (.node op' type' u' yes no)) (yes_ : Shape yes)
    (no_ : Shape no) : Shape (.node .OASK type u left (.node op' type' u' yes no)) := by
  apply shape_of_sethi ?_ ?_ ?_ ?_ left_ right_
  · intro fresh
    rw [sethi_ask rfl rfl rfl]
    dsimp only
    have cond := left_.bool fresh (fresh + 1) (fresh + 3)
    have first := yes_.sethi ((bool left fresh (fresh + 1) (fresh + 3)).2 + 1)
    have second := no_.sethi (sethi yes ((bool left fresh (fresh + 1) (fresh + 3)).2 + 1)).2.2
    have condRange := cond.range
    have firstRange := first.range
    have secondRange := second.range
    constructor
    · omega
    · intro sym isIn
      simp only [mem_labels_append, mem_labels_cons, labelstmt, Option.some.injEq, reduceCtorEq,
        false_or] at isIn
      rcases isIn with inCond | here | inFirst | here | inSecond | here | inNil
      · have bounds := cond.bounds sym inCond
        omega
      · cases here
        omega
      · have bounds := first.bounds sym inFirst
        omega
      · cases here
        omega
      · have bounds := second.bounds sym inSecond
        omega
      · cases here
        omega
      · exact absurd inNil List.not_mem_nil
  · intro fresh
    rw [sethi_ask rfl rfl rfl]
    rfl
  · intro fresh
    rw [sethi_ask rfl rfl rfl]
    have firstRange := (yes_.sethi ((bool left fresh (fresh + 1) (fresh + 3)).2 + 1)).range
    have secondRange :=
      (no_.sethi (sethi yes ((bool left fresh (fresh + 1) (fresh + 3)).2 + 1)).2.2).range
    dsimp only
    apply tmpnode_within type
    omega
  · intro fresh
    rw [sethi_ask rfl rfl rfl]
    exact fun eq => absurd eq (by simp [tmpnode])

theorem addressable_leaves (isAddressable : addressable op = true)
    (ordered : operands op left right = true) : left = .nil ∧ right = .nil := by
  cases op <;> first | exact absurd isAddressable (by decide) | simpa [operands, addressable] using ordered

theorem shape_addressable
    (isAddressable : addressable op = true) (isParsed : (Node.node op type u left right).parsed = true)
    (left_ : Shape left) (right_ : Shape right) : Shape (.node op type u left right) := by
  have leaves := addressable_leaves isAddressable (parsed_node isParsed).2.1
  apply shape_of_sethi ?_ ?_ ?_ ?_ left_ right_
  · intro fresh
    rw [sethi_addressable isAddressable]
    exact Numbered.nil fresh
  · intro fresh
    rw [sethi_addressable isAddressable, leaves.1, leaves.2]
    cases op <;> first | rfl | exact absurd isAddressable (by decide)
  · intro fresh
    rw [sethi_addressable isAddressable]
    exact parsed_within isParsed fresh
  · intro fresh
    rw [sethi_addressable isAddressable]
    exact fun eq => absurd eq (by simp)

theorem shape_complement (left_ : Shape left)
    (right_ : Shape right) : Shape (.node .OCPL type u left right) := by
  apply shape_of_sethi ?_ ?_ ?_ ?_ left_ right_
  · intro fresh
    rw [sethi_complement]
    exact left_.sethi fresh
  · intro fresh
    rw [sethi_complement]
    have lowered := left_.lowered fresh
    simp [Node.lowered, constnode, lowered, plain, control]
  · intro fresh
    rw [sethi_complement]
    exact ⟨fun isTmp => absurd isTmp (by decide), left_.within fresh,
      fun isTmp => absurd isTmp (by decide), trivial, trivial⟩
  · intro fresh
    rw [sethi_complement]
    exact fun eq => absurd eq (by simp)

theorem shape_plain (isPlain : plain op = true)
    (notAddressable : addressable op = false) (isExpression : expression op = true)
    (left_ : Shape left) (right_ : Shape right) : Shape (.node op type u left right) := by
  apply shape_of_sethi ?_ ?_ ?_ ?_ left_ right_
  · intro fresh
    rw [sethi_plain isPlain notAddressable]
    exact (left_.sethi fresh).append (right_.sethi _)
  · intro fresh
    rw [sethi_plain isPlain notAddressable]
    simp [Node.lowered, isPlain, left_.lowered fresh, right_.lowered (sethi left fresh).2.2]
  · intro fresh
    rw [sethi_plain isPlain notAddressable]
    have notTmp : op ≠ .OTMP := by
      intro isTmp
      rw [isTmp] at isExpression
      exact absurd isExpression (by decide)
    exact ⟨fun isTmp => absurd isTmp notTmp,
      Node.within_mono (right_.sethi _).range (left_.within fresh), right_.within _⟩
  · intro fresh
    rw [sethi_plain isPlain notAddressable]
    exact fun eq => absurd eq (by simp)

theorem op_cases (left : Node) (ordered : operands op left right = true) : logical op = true ∨ op = .OCOMMA ∨
      (op = .OASK ∧ ∃ type u yes no, right = .node .OCOLON type u yes no) ∨
      addressable op = true ∨ op = .OCPL ∨ (plain op = true ∧ addressable op = false) := by
  by_cases isAsk : op = .OASK
  · cases isAsk
    cases right with
    | nil => exact absurd ordered (by simp [operands])
    | node op' type u yes no =>
      have isColon : op' = .OCOLON := by
        apply Decidable.byContradiction
        intro notColon
        cases op' <;> first | exact notColon rfl | exact absurd ordered (by simp [operands])
      rw [isColon]
      exact Or.inr (Or.inr (Or.inl ⟨rfl, type, u, yes, no, rfl⟩))
  · cases op <;> first | exact absurd rfl isAsk | simp [logical, addressable, plain, control]

theorem shape (isParsed : np.parsed = true) : Shape np := by
  induction np using Node.nested_induction with
  | nil => exact shape_nil
  | node op type u left right ihLeft ihRight ihColon =>
    rcases parsed_node isParsed with ⟨isExpression, ordered, leftParsed, rightParsed⟩
    have left_ := ihLeft leftParsed
    have right_ := ihRight rightParsed
    rcases op_cases left ordered with isLogical | isComma | ⟨isAsk, isColon⟩ | isAddressable |
      isComplement | ⟨isPlain, notAddressable⟩
    · exact shape_logical isLogical left_ right_
    · cases isComma
      have notNil : right ≠ .nil := by
        simp only [operands, Bool.and_eq_true, bne_iff_ne] at ordered
        exact ordered.2
      exact shape_comma notNil left_ right_
    · cases isAsk
      rcases isColon with ⟨type', u', yes, no, rightEq⟩
      rw [rightEq] at right_ rightParsed ⊢
      rcases parsed_node rightParsed with ⟨_, _, yesParsed, noParsed⟩
      have inner := ihColon _ _ _ _ _ rightEq
      exact shape_ask left_ right_ (inner.1 yesParsed) (inner.2 noParsed)
    · exact shape_addressable isAddressable isParsed left_ right_
    · cases isComplement
      exact shape_complement left_ right_
    · exact shape_plain isPlain notAddressable isExpression left_ right_

end Scc.Cc2
