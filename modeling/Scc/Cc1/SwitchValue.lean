import Scc.Cc1.StatementShape

/-!
# Values of a switch

A switch converts its controlling expression and the constants of its cases to int. Two
integers that are no wider than an int are the same if and only if the ints are.
-/

namespace Scc.Cc1.Lowering

set_option autoImplicit false

variable {arch : Arch}

def Ty.integer (type : Ty) : Prop := type.op = .INT ∨ type.op = .ENUM

variable {type : Ty} {value : Int} {np : Node}

theorem Ty.wrap_integer (integer : type.integer) (value : Int) :
    type.wrap value = if type.signed then Int.bmod value (2 ^ (8 * type.size))
      else value % 2 ^ (8 * type.size) := if_pos integer

theorem Ty.wrap_emod (integer : type.integer) (value : Int) :
    type.wrap value % 2 ^ (8 * type.size) = value % 2 ^ (8 * type.size) := by
  rw [Ty.wrap_integer integer]
  split_ifs
  · have kept := @Int.bmod_emod value (2 ^ (8 * type.size))
    rwa [Nat.cast_pow] at kept
  · exact Int.emod_emod _ _

theorem Ty.wrap_eq_iff (integer : type.integer) (value value' : Int) : type.wrap value = type.wrap value' ↔
      value % 2 ^ (8 * type.size) = value' % 2 ^ (8 * type.size) := by
  constructor
  · intro same
    rw [← Ty.wrap_emod integer, same, Ty.wrap_emod integer]
  · intro same
    rw [Ty.wrap_integer integer, Ty.wrap_integer integer]
    split_ifs
    · have low : value % ((2 ^ (8 * type.size) : Nat) : Int) =
          value' % ((2 ^ (8 * type.size) : Nat) : Int) := by
        rwa [Nat.cast_pow]
      rw [← Int.emod_bmod value, low, Int.emod_bmod]
    · exact same

theorem Ty.wrap_wrap (type : Ty) (value : Int) : type.wrap (type.wrap value) = type.wrap value := by
  by_cases integer : type.integer
  · rw [Ty.wrap_eq_iff integer, Ty.wrap_emod integer]
  · have same : ∀ v, type.wrap v = v := fun v => if_neg integer
    rw [same, same]

theorem Arch.int_integer (arch : Arch) : arch.inttype.integer := Or.inl rfl

theorem foldcast_emod (value : Int) :
    foldcast arch value % 2 ^ (8 * arch.intsize) = value % 2 ^ (8 * arch.intsize) := by
  unfold foldcast
  split_ifs
  · rw [Int.sub_emod_right, Int.emod_emod]
  · have long : (2 : Int) ^ (8 * arch.intsize) ∣ ((2 ^ 64 : Nat) : Int) := by
      rw [Nat.cast_pow]
      have le := arch.le
      exact pow_dvd_pow 2 (by omega)
    rw [← Int.emod_emod_of_dvd _ long, Int.bmod_emod, Int.emod_emod_of_dvd _ long]

theorem wrap_foldcast (value : Int) : arch.inttype.wrap (foldcast arch value) = arch.inttype.wrap value :=
  (Ty.wrap_eq_iff arch.int_integer _ _).mpr (foldcast_emod value)

theorem wrap_short (integer : type.integer) (short : type.size < arch.intsize)
    (fits : type.wrap value = value) : arch.inttype.wrap value = value := by
  have longer : 2 * 2 ^ (8 * type.size) ≤ 2 ^ (8 * arch.intsize) := by
    rw [← Nat.pow_succ']
    exact Nat.pow_le_pow_right (by decide) (by omega)
  have some_ : 0 < 2 ^ (8 * type.size) := Nat.two_pow_pos _
  have wrapped : arch.inttype.wrap value = Int.bmod value (2 ^ (8 * arch.intsize)) := rfl
  rw [wrapped]
  rw [Ty.wrap_integer integer] at fits
  split_ifs at fits
  · have low := @Int.le_bmod value _ some_
    have high := @Int.bmod_lt value _ some_
    rw [fits] at low high
    generalize 2 ^ (8 * type.size) = narrow at longer low high some_
    generalize 2 ^ (8 * arch.intsize) = wide at longer
    exact Int.bmod_eq_of_le (by omega) (by omega)
  · have positive : (0 : Int) < 2 ^ (8 * type.size) := Int.pow_pos (by decide)
    have low := Int.emod_nonneg value (Int.ne_of_gt positive)
    have high := Int.emod_lt_of_pos value positive
    rw [fits] at low high
    have cast : (2 : Int) ^ (8 * type.size) = ((2 ^ (8 * type.size) : Nat) : Int) := by
      rw [Nat.cast_pow]
      rfl
    rw [cast] at high
    generalize 2 ^ (8 * type.size) = narrow at longer high some_
    generalize 2 ^ (8 * arch.intsize) = wide at longer
    exact Int.bmod_eq_of_le (by omega) (by omega)

theorem Expr.eval_fits {ν : Valuation} (e : Expr arch type) (h : History) :
    type.wrap (e.eval ν h).1 = (e.eval ν h).1 := by
  cases e with
  | constant type value fits => exact fits.2
  | other type id => exact Ty.wrap_wrap type _
  | not operand => exact wrap_bit _
  | logic or left right =>
    rw [Expr.eval]
    dsimp only
    split_ifs
    · exact wrap_bit _
    · exact wrap_bit _
  | compare op left right => exact wrap_bit _

theorem exp2cond_type {np c : Node} {neg : Bool} (made : exp2cond arch np neg = some c) :
    c.type arch = arch.inttype := by
  unfold exp2cond at made
  by_cases aggregate : (np.type arch).op = .AGGREG
  · rw [if_pos aggregate] at made
    cases made
  · rw [if_neg aggregate] at made
    cases np <;> cases neg <;> cases made <;> rfl

theorem expr_type {e : Expr arch type} (made : expr e = some np) : np.type arch = type := by
  cases e with
  | constant type value fits =>
    cases made
    rfl
  | other type id =>
    cases made
    rfl
  | not operand =>
    rcases Option.bind_eq_some_iff.mp made with ⟨inner, _, negated⟩
    exact exp2cond_type negated
  | logic or left right =>
    rcases Option.bind_eq_some_iff.mp made with ⟨lp, _, made⟩
    rcases Option.bind_eq_some_iff.mp made with ⟨rp, _, made⟩
    rcases Option.bind_eq_some_iff.mp made with ⟨l, _, made⟩
    rcases Option.map_eq_some_iff.mp made with ⟨r, _, made⟩
    cases made
    rfl
  | compare op left right =>
    rcases Option.bind_eq_some_iff.mp made with ⟨lp, _, made⟩
    rcases Option.map_eq_some_iff.mp made with ⟨rp, _, made⟩
    cases made
    rfl

theorem cast_eval (formed : np.Formed arch) (direct : np.direct arch = true)
    (ν : Valuation) (h : History) : (simplify arch (.cast np)).eval arch ν h =
      (arch.inttype.wrap (np.eval arch ν h).1, (np.eval arch ν h).2) := by
  have keeps := simplify_keeps formed direct
  rw [← keeps.2]
  change (foldunary arch (.cast (simplify arch np))).eval arch ν h = _
  generalize simplify arch np = folded at keeps
  cases folded with
  | const type value =>
    have fits : type.wrap value = value := keeps.1
    change (arch.inttype.wrap (foldcast arch value), h) = (arch.inttype.wrap (type.wrap value), h)
    rw [wrap_foldcast, fits]
  | _ => rfl

theorem switch_eval {e : Exp arch} (direct : e.expr.direct = true)
    (made : ((expr e.expr).bind (@convert arch)) = some np) (ν : Valuation) (h : History) :
    (simplify arch np).eval arch ν h = (arch.inttype.wrap (e.expr.eval ν h).1, (e.expr.eval ν h).2) := by
  rcases Option.bind_eq_some_iff.mp made with ⟨tree, built, converted⟩
  have value := expr_keeps built
  have isType := expr_type built
  rw [Expr.direct, built] at direct
  rw [← value.2]
  unfold convert at converted
  by_cases isInt : tree.type arch = arch.inttype
  · rw [if_pos isInt] at converted
    cases converted
    rw [(simplify_keeps value.1 direct).2]
    have same : e.type = arch.inttype := isType.symm.trans isInt
    have fits : arch.inttype.wrap (e.expr.eval ν h).1 = (e.expr.eval ν h).1 := by
      rw [← same]
      exact e.expr.eval_fits h
    rw [value.2, fits]
  · rw [if_neg isInt] at converted
    split at converted
    · cases converted
    · cases converted
    · cases converted
      exact cast_eval value.1 direct ν h

theorem constexpr_eval (fits : type.Fits value)
    (made : constexpr arch type value = some np) (rest : List Emit) :
    constant arch (.OEXPR (some np) :: rest) = some (arch.inttype.wrap value) := by
  unfold constexpr at made
  split_ifs at made with isInt
  rcases Option.map_eq_some_iff.mp made with ⟨tree, converted, rfl⟩
  unfold convert at converted
  by_cases same : (Node.const type value).type arch = arch.inttype
  · rw [if_pos same] at converted
    cases converted
    have isType : type = arch.inttype := same
    subst isType
    rfl
  · have kept : ((Node.const type value).type arch).op = .INT := isInt
    rw [if_neg same, kept] at converted
    cases converted
    change some (arch.inttype.wrap (foldcast arch value)) = _
    rw [wrap_foldcast]

theorem case_matches (integer : type.integer)
    (narrow : type.size ≤ arch.intsize) (fits : type.wrap value = value) (c : Int) :
    (promoted arch type).wrap c = value ↔ arch.inttype.wrap c = arch.inttype.wrap value := by
  unfold promoted
  split_ifs with short
  · rw [wrap_short integer short fits]
  · have same : type.size = arch.intsize := by omega
    have sameInt : arch.inttype.size = type.size := same.symm
    rw [Ty.wrap_eq_iff arch.int_integer, sameInt, ← Ty.wrap_eq_iff integer, fits]

end Scc.Cc1.Lowering
