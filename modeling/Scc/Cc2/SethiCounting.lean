import Scc.Cc2.SethiPieces

/-!
# How much of a tree is evaluated

In one meaning of the operators each of them adds one to a number. A tree that is
evaluated adds at least as much as its operators that cannot be left out, and what the
lowering leaves of a tree with an ordering operator adds less.
-/

namespace Scc.Cc2

open Relation

set_option autoImplicit false

universe u

def counting : Interp Bool Nat where
  apply := fun _ _ _ _ _ n => (false, n + 1)
  const := fun _ b => b
  truthy := fun b => b
  truthy_const := fun _ _ => rfl

section Counts

variable {V : Type u}

def Run.least : Run V → Nat
  | .nil => 0
  | .val _ => 0
  | .test _ right => right.least
  | .node op _ _ left right =>
    if op = .OCOMMA then left.least + right.least
    else if control op then left.least
    else if op = .OCPL then left.least + 2
    else left.least + right.least + 1

def Run.most : Run V → Nat
  | .nil => 0
  | .val _ => 0
  | .test _ right => right.most
  | .node op _ _ left right =>
    left.most + right.most + if control op then 0 else if op = .OCPL then 2 else 1

theorem plain_cases {op : Op} (isPlain : plain op = true) :
    op ≠ .OCOMMA ∧ control op = false ∧ op ≠ .OCPL := by
  cases op <;> first | exact absurd isPlain (by decide) | exact ⟨by decide, rfl, by decide⟩

theorem least_plain {op : Op} (isPlain : plain op = true) (type : Ty) (u : U) (left right : Run V) :
    (Run.node op type u left right).least = left.least + right.least + 1 := by
  rcases plain_cases isPlain with ⟨notComma, notControl, notComplement⟩
  rw [Run.least, if_neg notComma, if_neg (by rw [notControl]; exact Bool.false_ne_true),
    if_neg notComplement]

theorem most_plain {op : Op} (isPlain : plain op = true) (type : Ty) (u : U) (left right : Run V) :
    (Run.node op type u left right).most = left.most + right.most + 1 := by
  rcases plain_cases isPlain with ⟨_, notControl, notComplement⟩
  rw [Run.most, if_neg (by rw [notControl]; exact Bool.false_ne_true), if_neg notComplement]

theorem operand_counts {t : Run V} {operand : Option V} (done : t.operand = some operand) :
    t.least = 0 ∧ t.most = 0 := by
  cases t with
  | nil => exact ⟨rfl, rfl⟩
  | val v => exact ⟨rfl, rfl⟩
  | node op type u left right => exact absurd done (by simp [Run.operand])
  | test type right => exact absurd done (by simp [Run.operand])

end Counts

theorem step_counts {p q : Run Bool × Nat} (step : Step counting p q) :
    p.2 + p.1.least ≤ q.2 + q.1.least ∧ q.2 + q.1.most ≤ p.2 + p.1.most := by
  induction step with
  | @left op type u l l' r s s' inner ih =>
    dsimp only at ih ⊢
    constructor
    · rw [Run.least, Run.least]
      split_ifs <;> omega
    · rw [Run.most, Run.most]
      omega
  | @right op type u l r r' s s' isPlain inner ih =>
    dsimp only at ih ⊢
    rw [least_plain isPlain, least_plain isPlain, most_plain isPlain, most_plain isPlain]
    omega
  | @apply op type u l r lv rv s isPlain left right =>
    dsimp only
    rw [least_plain isPlain, most_plain isPlain, (operand_counts left).1, (operand_counts left).2,
      (operand_counts right).1, (operand_counts right).2]
    exact ⟨by simp [counting, Run.least], by simp [counting, Run.most]⟩
  | complement => simp [Run.least, Run.most, control]
  | neg => simp [Run.least, Run.most, control]
  | @and type u v r s => cases v <;> simp [Run.least, Run.most, control, counting]
  | @or type u v r s => cases v <;> simp [Run.least, Run.most, control, counting]
  | testing inner ih => exact ih
  | tested => simp [Run.least, Run.most]
  | comma => simp [Run.least, Run.most, control]
  | @ask type type' u u' op v yes no s =>
    cases v <;> simp only [Run.least, Run.most, control, counting] <;> simp <;> omega

theorem evals_counts {t : Run Bool} {n n' : Nat} {v : Bool} (evals : Evals counting t n v n') :
    n + t.least ≤ n' ∧ n' ≤ n + t.most := by
  have counts : ∀ p q : Run Bool × Nat, Steps counting p q →
      p.2 + p.1.least ≤ q.2 + q.1.least ∧ q.2 + q.1.most ≤ p.2 + p.1.most := by
    intro p q steps
    induction steps with
    | refl => exact ⟨Nat.le_refl _, Nat.le_refl _⟩
    | tail _ step ih =>
      have next := step_counts step
      omega
  exact counts (t, n) (.val v, n') evals

/-- A tree in which the order of evaluation matters. -/
def Node.ordered : Node → Bool
  | .nil => false
  | .node op _ _ left right => control op || left.ordered || right.ordered

theorem left_notNil {op : Op} {left right : Node} (isControl : control op = true)
    (operands_ : operands op left right = true) : left ≠ .nil := by
  rcases op_cases left operands_ with isLogical | isComma | ⟨isAsk, isColon⟩ | isAddressable |
    isComplement | ⟨isPlain, _⟩
  · cases op with
    | ONEG => exact bne_iff_ne.mp operands_
    | OAND => exact bne_iff_ne.mp (Bool.and_eq_true_iff.mp operands_).1
    | OOR => exact bne_iff_ne.mp (Bool.and_eq_true_iff.mp operands_).1
    | _ => exact absurd isLogical (by decide)
  · cases isComma
    simp only [operands, Bool.and_eq_true, bne_iff_ne] at operands_
    exact operands_.1
  · cases isAsk
    rcases isColon with ⟨type, u, yes, no, rightEq⟩
    cases rightEq
    simp only [operands, Bool.and_eq_true, bne_iff_ne] at operands_
    exact operands_.1.1
  · cases op <;> first | exact absurd isControl (by decide) | exact absurd isAddressable (by decide)
  · cases isComplement
    exact absurd isControl (by decide)
  · rw [(plain_cases isPlain).2.1] at isControl
    exact absurd isControl Bool.false_ne_true

theorem left_counts {V : Type u} {op : Op} (isControl : control op = true) (type : Ty) (u : U)
    (left right : Run V) : left.least ≤ (Run.node op type u left right).least := by
  rw [Run.least, if_pos isControl]
  split_ifs
  · exact Nat.le_add_right _ _
  · exact Nat.le_refl _

theorem least_pos {V : Type u} {np : Node} (isParsed : np.parsed = true) (notNil : np ≠ .nil)
    (tmps : Sym → V) : 0 < (load tmps np).least := by
  induction np with
  | nil => exact absurd rfl notNil
  | node op type u left right ihLeft ihRight =>
    rcases parsed_node isParsed with ⟨isExpression, operands_, leftParsed, rightParsed⟩
    rw [load_node (expression_notTmp isExpression)]
    cases isControl : control op with
    | true =>
      exact Nat.lt_of_lt_of_le (ihLeft leftParsed (left_notNil isControl operands_))
        (left_counts isControl type u _ _)
    | false =>
      rw [Run.least, if_neg (c := control op = true) (by rw [isControl]; exact Bool.false_ne_true)]
      split_ifs with isComma
      · rw [isComma] at isControl
        exact absurd isControl (by decide)
      · omega
      · omega

theorem lowered_most {V : Type u} {np : Node} (isParsed : np.parsed = true) (tmps tmps' : Sym → V)
    (fresh : Nat) : (load tmps' (sethi np fresh).1).most + np.ordered.toNat ≤ (load tmps np).least := by
  induction np generalizing fresh with
  | nil =>
    rw [sethi_nil]
    exact Nat.le_refl 0
  | node op type u left right ihLeft ihRight =>
    rcases parsed_node isParsed with ⟨isExpression, operands_, leftParsed, rightParsed⟩
    have notTmp := expression_notTmp isExpression
    -- A temporary is left of the others; their left operand is evaluated in any case.
    have taken : ∀ tmp : Sym, control op = true →
        (load tmps' (tmpnode type tmp)).most + (Node.node op type u left right).ordered.toNat ≤
          (load tmps (.node op type u left right)).least := by
      intro tmp isControl
      have pos := least_pos leftParsed (left_notNil isControl operands_) tmps
      have counts := left_counts isControl type u (load tmps left) (load tmps right)
      have one : (Node.node op type u left right).ordered.toNat ≤ 1 := Bool.toNat_le _
      have none : (load tmps' (tmpnode type tmp)).most = 0 := rfl
      rw [load_node notTmp]
      omega
    rcases op_cases left operands_ with isLogical | isComma | ⟨isAsk, isColon⟩ | isAddressable |
      isComplement | ⟨isPlain, notAddressable⟩
    · rw [sethi_logical isLogical]
      apply taken
      cases op <;> first | rfl | exact absurd isLogical (by decide)
    · cases isComma
      rw [sethi_comma, load_node notTmp]
      have pos := least_pos leftParsed (left_notNil rfl operands_) tmps
      have rightCounts := ihRight rightParsed (comma left fresh).2
      have one : (Node.node .OCOMMA type u left right).ordered.toNat ≤ 1 := Bool.toNat_le _
      rw [Run.least, if_pos rfl]
      dsimp only
      omega
    · cases isAsk
      rcases isColon with ⟨type', u', yes, no, rightEq⟩
      cases rightEq
      rw [sethi_ask rfl rfl rfl]
      exact taken _ rfl
    · have leaves := addressable_leaves isAddressable operands_
      have isPlain : plain op = true := by
        cases op <;> first | rfl | exact absurd isAddressable (by decide)
      rw [sethi_addressable isAddressable, leaves.1, leaves.2, load_node notTmp, load_node notTmp,
        least_plain isPlain, most_plain isPlain, Node.ordered, (plain_cases isPlain).2.1]
      exact Nat.le_refl _
    · cases isComplement
      have rightNil : right = .nil := of_decide_eq_true operands_
      rw [sethi_complement, load_node (by decide), load_node notTmp, most_plain rfl, rightNil]
      have leftCounts := ihLeft leftParsed fresh
      have const : (load tmps' (constnode (BitVec.allOnes 64) type)).most = 1 := rfl
      have least : (Run.node .OCPL type u (load tmps left) (load tmps .nil)).least =
          (load tmps left).least + 2 := rfl
      have same : (Node.node .OCPL type u left .nil).ordered = left.ordered := Bool.or_false _
      rw [const, least, same]
      omega
    · rw [sethi_plain isPlain notAddressable, load_node notTmp, load_node notTmp,
        least_plain isPlain, most_plain isPlain]
      have leftCounts := ihLeft leftParsed fresh
      have rightCounts := ihRight rightParsed (sethi left fresh).2.2
      have either : (left.ordered || right.ordered).toNat ≤ left.ordered.toNat + right.ordered.toNat := by
        cases left.ordered <;> cases right.ordered <;> decide
      rw [Node.ordered, (plain_cases isPlain).2.1, Bool.false_or]
      omega

end Scc.Cc2
