import Mathlib.Tactic.Ring

/-!
# Folding of signed constants

`foldint()` computes an operator on two constants of a signed type. The compiler computes in TINT, a
long long of the host with 64 bits that wraps, and it guards the operators that can overflow with
`addi()`, `subi()`, `muli()`, `divi()`, `lshi()` and `rshi()`. The host is an amd64, where a shift takes
its count modulo the width of what it shifts.
-/

namespace Scc.Cc1.Fold

set_option autoImplicit false

structure SignedType where
  size : Nat
  sizes : size = 1 ∨ size = 2 ∨ size = 4 ∨ size = 8

namespace SignedType

def width (tp : SignedType) : Nat := 8 * tp.size

def least (tp : SignedType) : Int := -2 ^ (tp.width - 1)

def InRange (tp : SignedType) (v : Int) : Prop := tp.least ≤ v ∧ v < -tp.least

instance (tp : SignedType) (v : Int) : Decidable (tp.InRange v) :=
  inferInstanceAs (Decidable (_ ∧ _))

end SignedType

inductive Op
  | OADD | OSUB | OMUL | ODIV | OMOD | OSHL | OSHR | OBAND | OBXOR | OBOR | OAND | OOR
  | OLT | OGT | OGE | OLE | OEQ | ONE | ONEG | OSNEG | OCPL
deriving DecidableEq

inductive Warning
  | overflow
  | shifting (bits : Int)
deriving DecidableEq

def tint (v : Int) : Int := (v + 2 ^ 63) % 2 ^ 64 - 2 ^ 63

def tuint (v : Int) : Int := v % 2 ^ 64

/-- The members of `struct limits` are of type TUINT. -/
structure Limits where
  max : Int
  min : Int

def getlimits (tp : SignedType) : Limits :=
  match tp.size with
  | 1 => ⟨0x7f, tuint (-0x7f - 1)⟩
  | 2 => ⟨0x7fff, tuint (-0x7fff - 1)⟩
  | 4 => ⟨0x7fffffff, tuint (-0x7fffffff - 1)⟩
  | _ => ⟨0x7fffffffffffffff, tuint (-0x7fffffffffffffff - 1)⟩

def addi (l r : Int) (tp : SignedType) : Bool :=
  let max := tint (getlimits tp).max
  let min := tint (getlimits tp).min
  l < 0 && r < 0 && l ≥ tint (min - r) ||
  l == 0 ||
  r == 0 ||
  l < 0 && r > 0 ||
  l > 0 && r < 0 ||
  l > 0 && r > 0 && l ≤ tint (max - r)

def subi (l r : Int) (tp : SignedType) : Bool := addi l (tint (-r)) tp

def muli (l r : Int) (tp : SignedType) : Bool :=
  let max := tint (getlimits tp).max
  let min := tint (getlimits tp).min
  l > -1 && l ≤ 1 ||
  r > -1 && r ≤ 1 ||
  l < 0 && r < 0 && tint (-l) ≤ max.tdiv (tint (-r)) ||
  l < 0 && r > 0 && l ≥ min.tdiv r ||
  l > 0 && r < 0 && r ≥ min.tdiv l ||
  l > 0 && r > 0 && l ≤ max.tdiv r

/-- `-lim->min.i` is computed in TUINT, and so is the comparison. -/
def divi (l r : Int) (tp : SignedType) : Bool :=
  !(r == 0 || tuint l == tuint (-(getlimits tp).min) && r == -1)

/-- `1 << r`, an int. -/
def shifted (r : Int) : Int := ((2 : Int) ^ (r.toNat % 32)).bmod (2 ^ 32)

def outside (r : Int) (tp : SignedType) : Bool := r < 0 || r ≥ tp.size * 8

def lshi (l r : Int) (tp : SignedType) : Except Warning Unit :=
  if outside r tp then .error (.shifting r)
  else if muli l (shifted r) tp then .ok () else .error .overflow

def rshi (r : Int) (tp : SignedType) : Except Warning Unit :=
  if outside r tp then .error (.shifting r) else .ok ()

def check (ok : Bool) : Except Warning Unit := if ok then .ok () else .error .overflow

def validate (op : Op) (l r : Int) (tp : SignedType) : Except Warning Unit :=
  match op with
  | .OADD => check (addi l r tp)
  | .OSUB => check (subi l r tp)
  | .OMUL => check (muli l r tp)
  | .ODIV => check (divi l r tp)
  | .OSHL => lshi l r tp
  | .OSHR => rshi r tp
  | .OMOD => check (divi l r tp)
  | _ => .ok ()

def truth (p : Prop) [Decidable p] : Int := if p then 1 else 0

/-- The number that the host computes from two numbers of type TINT. -/
def compute (op : Op) (l r : Int) : Int :=
  match op with
  | .OADD => tint (l + r)
  | .OSUB => tint (l - r)
  | .OMUL => tint (l * r)
  | .ODIV => tint (l.tdiv r)
  | .OMOD => l.tmod r
  | .OSHL => tint (l * 2 ^ (r.toNat % 64))
  | .OSHR => l / 2 ^ (r.toNat % 64)
  | .OBAND => (BitVec.ofInt 64 l &&& BitVec.ofInt 64 r).toInt
  | .OBXOR => (BitVec.ofInt 64 l ^^^ BitVec.ofInt 64 r).toInt
  | .OBOR => (BitVec.ofInt 64 l ||| BitVec.ofInt 64 r).toInt
  | .OAND => truth (l ≠ 0 ∧ r ≠ 0)
  | .OOR => truth (l ≠ 0 ∨ r ≠ 0)
  | .OLT => truth (l < r)
  | .OGT => truth (l > r)
  | .OGE => truth (l ≥ r)
  | .OLE => truth (l ≤ r)
  | .OEQ => truth (l = r)
  | .ONE => truth (l ≠ r)
  | .ONEG => truth (l = 0)
  | .OSNEG => tint (-l)
  | .OCPL => (~~~BitVec.ofInt 64 l).toInt

/-- The number stored in `res->u.i`, or the warning of a node that stays as it is. -/
def foldint (op : Op) (tp : SignedType) (l r : Int) : Except Warning Int :=
  (validate op l r tp).map fun _ => compute op l r

/-- The mathematical result of an operator, the bits of an operand being those of its type. -/
def exact (op : Op) (tp : SignedType) (l r : Int) : Int :=
  match op with
  | .OADD => l + r
  | .OSUB => l - r
  | .OMUL => l * r
  | .ODIV => l.tdiv r
  | .OMOD => l.tmod r
  | .OSHL => l * 2 ^ r.toNat
  | .OSHR => l / 2 ^ r.toNat
  | .OBAND => (BitVec.ofInt tp.width l &&& BitVec.ofInt tp.width r).toInt
  | .OBXOR => (BitVec.ofInt tp.width l ^^^ BitVec.ofInt tp.width r).toInt
  | .OBOR => (BitVec.ofInt tp.width l ||| BitVec.ofInt tp.width r).toInt
  | .OAND => if l ≠ 0 ∧ r ≠ 0 then 1 else 0
  | .OOR => if l ≠ 0 ∨ r ≠ 0 then 1 else 0
  | .OLT => if l < r then 1 else 0
  | .OGT => if r < l then 1 else 0
  | .OGE => if r ≤ l then 1 else 0
  | .OLE => if l ≤ r then 1 else 0
  | .OEQ => if l = r then 1 else 0
  | .ONE => if l ≠ r then 1 else 0
  | .ONEG => if l = 0 then 1 else 0
  | .OSNEG => -l
  | .OCPL => -l - 1

def Defined (op : Op) (tp : SignedType) (l r : Int) : Prop :=
  (op = .ODIV ∨ op = .OMOD → r ≠ 0) ∧
  (op = .OSHL ∨ op = .OSHR → 0 ≤ r ∧ r < tp.width) ∧
  tp.InRange (exact op tp l r)

/-- Folding stores the exact result if C defines one, and otherwise leaves the node with a warning. -/
def Exact (op : Op) (tp : SignedType) (l r : Int) : Prop :=
  (Defined op tp l r → foldint op tp l r = .ok (exact op tp l r)) ∧
  (¬ Defined op tp l r → ∃ warning, foldint op tp l r = .error warning)

/-- The operands whose result the code gets right. -/
def Safe (op : Op) (tp : SignedType) (l r : Int) : Prop :=
  match op with
  | .OSUB => ¬ (r = tp.least ∧ (l = 0 ∨ tp.size = 8))
  | .OMUL => ¬ (tp.size = 8 ∧ l = tp.least ∧ r < 0)
  | .ODIV => ¬ (tp.size < 8 ∧ l = tp.least ∧ r = -1)
  | .OMOD => ¬ (tp.size = 8 ∧ l = tp.least ∧ r = -1)
  | .OSHL => 0 ≤ r → r < tp.width →
      (l = 1 ∨ tp.InRange (l * shifted r) ∨ tp.size = 8 ∧ l = tp.least ∧ shifted r < 0 ↔
        tp.InRange (l * 2 ^ r.toNat))
  | .OSNEG => l ≠ tp.least
  | _ => True

namespace SignedType

variable (tp : SignedType)

theorem least_table :
    tp.size = 8 ∧ tp.least = -2 ^ 63 ∨ tp.size < 8 ∧ -2 ^ 31 ≤ tp.least ∧ tp.least ≤ -2 ^ 7 := by
  rcases tp with ⟨size, sizes⟩
  rcases sizes with rfl | rfl | rfl | rfl <;> decide

theorem least_lower : -2 ^ 63 ≤ tp.least := by
  have table := tp.least_table
  omega

theorem least_upper : tp.least ≤ -2 ^ 7 := by
  have table := tp.least_table
  omega

theorem least_wide : tp.least = -2 ^ 63 ↔ tp.size = 8 := by
  have table := tp.least_table
  omega

theorem width_pos : 0 < tp.width := by
  have sizes := tp.sizes
  unfold width
  omega

theorem width_le : tp.width ≤ 64 := by
  have sizes := tp.sizes
  unfold width
  omega

end SignedType

variable {tp : SignedType} {op : Op} {l r : Int}

theorem tint_of_fits {v : Int} (low : -2 ^ 63 ≤ v) (high : v < 2 ^ 63) : tint v = v := by
  unfold tint
  omega

theorem tint_of_inRange {v : Int} (fits : tp.InRange v) : tint v = v := by
  have lower := tp.least_lower
  exact tint_of_fits (by have := fits.1; omega) (by have := fits.2; omega)

theorem getlimits_table (tp : SignedType) :
    tint (getlimits tp).max = -tp.least - 1 ∧ tint (getlimits tp).min = tp.least ∧
      tuint (-(getlimits tp).min) = tuint (-tp.least) := by
  rcases tp with ⟨size, sizes⟩
  rcases sizes with rfl | rfl | rfl | rfl <;> decide

@[simp] theorem getlimits_max (tp : SignedType) : tint (getlimits tp).max = -tp.least - 1 :=
  (getlimits_table tp).1

@[simp] theorem getlimits_min (tp : SignedType) : tint (getlimits tp).min = tp.least :=
  (getlimits_table tp).2.1

@[simp] theorem getlimits_min_neg (tp : SignedType) :
    tuint (-(getlimits tp).min) = tuint (-tp.least) :=
  (getlimits_table tp).2.2

theorem addi_iff : addi l r tp = true ↔
    l < 0 ∧ r < 0 ∧ tint (tp.least - r) ≤ l ∨ l = 0 ∨ r = 0 ∨ l < 0 ∧ 0 < r ∨ 0 < l ∧ r < 0 ∨
      0 < l ∧ 0 < r ∧ l ≤ tint (-tp.least - 1 - r) := by
  simp only [addi, getlimits_max, getlimits_min, Bool.or_eq_true, Bool.and_eq_true,
    decide_eq_true_eq, beq_iff_eq, ge_iff_le, gt_iff_lt, or_assoc, and_assoc]

theorem addi_fits (hl : tp.InRange l) (hr : tp.InRange r) : addi l r tp = true ↔ tp.InRange (l + r) := by
  have lower := tp.least_lower
  have upper := tp.least_upper
  rw [addi_iff]
  unfold SignedType.InRange tint at *
  generalize tp.least = m at *
  omega

theorem subi_fits (hl : tp.InRange l) (hr : tp.InRange r) :
    (subi l r tp = true ↔ tp.InRange (l - r)) ↔ ¬ (r = tp.least ∧ (l = 0 ∨ tp.size = 8)) := by
  have table := tp.least_table
  rw [subi, addi_iff]
  unfold SignedType.InRange tint at *
  generalize tp.least = m at *
  omega

theorem tdiv_of_nonneg {a b : Int} (nonneg : 0 ≤ a) : a.tdiv b = a / b :=
  Int.tdiv_eq_ediv_of_nonneg nonneg

theorem le_tdiv_iff {max a b : Int} (nonneg : 0 ≤ max) (pos : 0 < b) : a ≤ max.tdiv b ↔ a * b ≤ max := by
  rw [Int.tdiv_eq_ediv_of_nonneg nonneg, Int.le_ediv_iff_mul_le pos]

theorem tdiv_le_iff {min a b : Int} (nonpos : min ≤ 0) (pos : 0 < b) : min.tdiv b ≤ a ↔ min ≤ a * b := by
  have flip : min.tdiv b = -((-min).tdiv b) := by rw [Int.neg_tdiv, Int.neg_neg]
  have bound := @le_tdiv_iff (-min) (-a) b (by omega) pos
  rw [Int.neg_mul] at bound
  rw [flip]
  omega

theorem muli_iff : muli l r tp = true ↔ -1 < l ∧ l ≤ 1 ∨ -1 < r ∧ r ≤ 1 ∨
      l < 0 ∧ r < 0 ∧ tint (-l) ≤ (-tp.least - 1).tdiv (tint (-r)) ∨
      l < 0 ∧ 0 < r ∧ tp.least.tdiv r ≤ l ∨ 0 < l ∧ r < 0 ∧ tp.least.tdiv l ≤ r ∨
      0 < l ∧ 0 < r ∧ l ≤ (-tp.least - 1).tdiv r := by
  simp only [muli, getlimits_max, getlimits_min, Bool.or_eq_true, Bool.and_eq_true,
    decide_eq_true_eq, ge_iff_le, gt_iff_lt, or_assoc, and_assoc]

theorem tint_neg {v : Int} (low : -2 ^ 63 < v) (neg : v < 0) : tint (-v) = -v :=
  tint_of_fits (by omega) (by omega)

theorem tint_neg_least : tint (-(-2 ^ 63)) = -2 ^ 63 := by decide

theorem muli_neg_neg (hl : tp.InRange l) (low : -2 ^ 63 ≤ r) (negl : l < 0) (negr : r < 0) :
    tint (-l) ≤ (-tp.least - 1).tdiv (tint (-r)) ↔
      tp.InRange (l * r) ∨ tp.size = 8 ∧ l = tp.least ∧ r < 0 := by
  have lower := tp.least_lower
  have upper := tp.least_upper
  have wide := tp.least_wide
  have positive : 0 < l * r := Int.mul_pos_of_neg_of_neg negl negr
  have pastMax : r = -2 ^ 63 → -tp.least ≤ l * r := by
    intro rleast
    rw [rleast]
    omega
  have smallQuotient : r = -2 ^ 63 → (-tp.least - 1).tdiv (tint (-r)) = 0 := by
    intro rleast
    rw [rleast, tint_neg_least, Int.tdiv_neg, tdiv_of_nonneg (by omega),
      Int.ediv_eq_zero_of_lt (by omega) (by omega)]
    rfl
  have quotient_nonneg : r ≠ -2 ^ 63 → 0 ≤ (-tp.least - 1).tdiv (tint (-r)) := by
    intro above
    rw [tint_neg (by omega) negr]
    exact Int.tdiv_nonneg (by omega) (by omega)
  have exactQuotient : r ≠ -2 ^ 63 →
      (-l ≤ (-tp.least - 1).tdiv (tint (-r)) ↔ l * r ≤ -tp.least - 1) := by
    intro above
    rw [tint_neg (by omega) negr, le_tdiv_iff (by omega) (by omega), Int.neg_mul_neg]
  unfold SignedType.InRange at *
  by_cases lleast : l = -2 ^ 63
  · have wrapped : tint (-l) = -2 ^ 63 := by rw [lleast, tint_neg_least]
    rw [wrapped]
    omega
  · rw [tint_neg (by omega) negl]
    omega

theorem muli_fits (hl : tp.InRange l) (low : -2 ^ 63 ≤ r) : muli l r tp = true ↔
      l = 1 ∨ tp.InRange (l * r) ∨ tp.size = 8 ∧ l = tp.least ∧ r < 0 := by
  have lower := tp.least_lower
  have upper := tp.least_upper
  have product : l = 0 ∨ r = 0 → l * r = 0 := by
    rintro (rfl | rfl)
    · exact Int.zero_mul r
    · exact Int.mul_zero l
  have unit : r = 1 → l * r = l := by
    intro one
    rw [one, Int.mul_one]
  rw [muli_iff]
  rcases Int.lt_trichotomy l 0 with negl | zerol | posl
  · rcases Int.lt_trichotomy r 0 with negr | zeror | posr
    · rw [muli_neg_neg hl low negl negr]
      unfold SignedType.InRange at *
      omega
    · have zero := product (Or.inr zeror)
      unfold SignedType.InRange at *
      omega
    · have bound := @tdiv_le_iff tp.least l r (by omega) posr
      have neg : l * r < 0 := Int.mul_neg_of_neg_of_pos negl posr
      rw [bound]
      unfold SignedType.InRange at *
      omega
  · have zero := product (Or.inl zerol)
    unfold SignedType.InRange at *
    omega
  · rcases Int.lt_trichotomy r 0 with negr | zeror | posr
    · have bound := @tdiv_le_iff tp.least r l (by omega) posl
      have neg : l * r < 0 := Int.mul_neg_of_pos_of_neg posl negr
      rw [bound, Int.mul_comm r l]
      unfold SignedType.InRange at *
      omega
    · have zero := product (Or.inr zeror)
      unfold SignedType.InRange at *
      omega
    · have bound := @le_tdiv_iff (-tp.least - 1) l r (by omega) posr
      have pos : 0 < l * r := Int.mul_pos posl posr
      rw [bound]
      unfold SignedType.InRange at *
      omega

theorem divi_iff : divi l r tp = true ↔ r ≠ 0 ∧ ¬ (tuint l = tuint (-tp.least) ∧ r = -1) := by
  simp only [divi, getlimits_min_neg, Bool.not_eq_true', Bool.or_eq_false_iff,
    Bool.and_eq_false_iff, beq_eq_false_iff_ne, ne_eq, not_and_or]

theorem divi_fits (hl : tp.InRange l) :
    divi l r tp = true ↔ r ≠ 0 ∧ ¬ (tp.size = 8 ∧ l = tp.least ∧ r = -1) := by
  have table := tp.least_table
  rw [divi_iff]
  unfold SignedType.InRange tuint at *
  omega

theorem tdiv_fits (hl : tp.InRange l) (nonzero : r ≠ 0) :
    tp.InRange (l.tdiv r) ↔ ¬ (l = tp.least ∧ r = -1) := by
  have upper := tp.least_upper
  have quotient := Int.natAbs_tdiv_le_natAbs l r
  unfold SignedType.InRange at *
  constructor
  · rintro fits ⟨least, minus⟩
    rw [minus, Int.tdiv_neg, Int.tdiv_one] at fits
    omega
  · intro other
    by_cases least : l = tp.least
    · have minus : r ≠ -1 := fun minus => other ⟨least, minus⟩
      rcases Int.lt_or_gt_of_ne nonzero with neg | pos
      · have half : (l.tdiv r).natAbs ≤ l.natAbs / 2 := by
          rw [Int.natAbs_tdiv]
          exact Nat.div_le_div_left (by omega) (by decide)
        omega
      · have nonneg : 0 ≤ (-l).tdiv r := Int.tdiv_nonneg (by omega) (by omega)
        rw [Int.neg_tdiv] at nonneg
        omega
    · omega

theorem tmod_fits (hr : tp.InRange r) (nonzero : r ≠ 0) : tp.InRange (l.tmod r) := by
  have remainder := Int.natAbs_tmod l r
  have less : l.natAbs % r.natAbs < r.natAbs := Nat.mod_lt _ (by omega)
  have small : l.natAbs % r.natAbs ≤ l.natAbs := Nat.mod_le _ _
  unfold SignedType.InRange at *
  omega

namespace SignedType

theorem toInt_inRange (tp : SignedType) (x : BitVec tp.width) : tp.InRange x.toInt := by
  constructor
  · exact BitVec.le_toInt x
  · have upper := @BitVec.toInt_lt _ x
    unfold least
    omega

theorem toInt_ofInt {v : Int} (fits : tp.InRange v) : (BitVec.ofInt tp.width v).toInt = v := by
  have upper := fits.2
  unfold least at upper
  exact BitVec.toInt_ofInt_eq_self tp.width_pos fits.1 (by omega)

theorem ofInt_host {v : Int} (fits : tp.InRange v) :
    BitVec.ofInt 64 v = (BitVec.ofInt tp.width v).signExtend 64 := by
  have lower := tp.least_lower
  have low := fits.1
  have high := fits.2
  apply BitVec.eq_of_toInt_eq
  rw [BitVec.toInt_signExtend_of_le tp.width_le, toInt_ofInt fits]
  exact BitVec.toInt_ofInt_eq_self (by decide) (by omega) (by omega)

end SignedType

theorem toInt_not {v : Int} (fits : tp.InRange v) : (~~~BitVec.ofInt tp.width v).toInt = -v - 1 := by
  have low := fits.1
  have high := fits.2
  unfold SignedType.least at low high
  have negated : ~~~BitVec.ofInt tp.width v = BitVec.ofInt tp.width (-v - 1) := by
    rw [BitVec.not_eq_neg_add, Int.sub_eq_add_neg, BitVec.ofInt_add, BitVec.ofInt_neg,
      BitVec.sub_eq_add_neg, BitVec.ofInt_neg]
    rfl
  rw [negated]
  exact BitVec.toInt_ofInt_eq_self tp.width_pos (by omega) (by omega)

attribute [local simp] compute in
theorem compute_not (hl : tp.InRange l) : compute .OCPL l r = exact .OCPL tp l r := by
  rw [compute, exact, SignedType.ofInt_host hl, ← BitVec.signExtend_not tp.width_pos,
    BitVec.toInt_signExtend_of_le tp.width_le, toInt_not hl]

theorem compute_and (hl : tp.InRange l) (hr : tp.InRange r) : compute .OBAND l r = exact .OBAND tp l r := by
  rw [compute, exact, SignedType.ofInt_host hl, SignedType.ofInt_host hr, ← BitVec.signExtend_and,
    BitVec.toInt_signExtend_of_le tp.width_le]

theorem compute_xor (hl : tp.InRange l) (hr : tp.InRange r) : compute .OBXOR l r = exact .OBXOR tp l r := by
  rw [compute, exact, SignedType.ofInt_host hl, SignedType.ofInt_host hr, ← BitVec.signExtend_xor,
    BitVec.toInt_signExtend_of_le tp.width_le]

theorem compute_or (hl : tp.InRange l) (hr : tp.InRange r) : compute .OBOR l r = exact .OBOR tp l r := by
  rw [compute, exact, SignedType.ofInt_host hl, SignedType.ofInt_host hr, ← BitVec.signExtend_or,
    BitVec.toInt_signExtend_of_le tp.width_le]

theorem count_mod (high : r < tp.width) : r.toNat % 64 = r.toNat := by
  have width := tp.width_le
  exact Nat.mod_eq_of_lt (by omega)

theorem shifted_low (r : Int) : -2 ^ 63 ≤ shifted r := by
  have low := @Int.le_bmod (2 ^ (r.toNat % 32)) (2 ^ 32) (by decide)
  unfold shifted
  omega

theorem shiftRight_fits (hl : tp.InRange l) (n : Nat) : tp.InRange (l / 2 ^ n) := by
  have upper := tp.least_upper
  have power : (0 : Int) < 2 ^ n := Int.pow_pos (by decide)
  constructor
  · rw [Int.le_ediv_iff_mul_le power]
    have scaled : tp.least * 2 ^ n ≤ tp.least * 1 :=
      Int.mul_le_mul_of_nonpos_left (by omega) (by omega)
    have low := hl.1
    omega
  · rw [Int.ediv_lt_iff_lt_mul power]
    have scaled : -tp.least * 1 ≤ -tp.least * 2 ^ n :=
      Int.mul_le_mul_of_nonneg_left (by omega) (by omega)
    have high := hl.2
    omega

theorem compute_exact (hl : tp.InRange l) (hr : tp.InRange r) (op : Op)
    (defined : Defined op tp l r) : compute op l r = exact op tp l r := by
  have ⟨_, count, fits⟩ := defined
  cases op with
  | OADD => exact tint_of_inRange fits
  | OSUB => exact tint_of_inRange fits
  | OMUL => exact tint_of_inRange fits
  | ODIV => exact tint_of_inRange fits
  | OSHL =>
    have ⟨_, high⟩ := count (Or.inl rfl)
    rw [compute, count_mod high]
    exact tint_of_inRange fits
  | OSHR =>
    have ⟨_, high⟩ := count (Or.inr rfl)
    rw [compute, count_mod high]
    rfl
  | OSNEG => exact tint_of_inRange fits
  | OBAND => exact compute_and hl hr
  | OBXOR => exact compute_xor hl hr
  | OBOR => exact compute_or hl hr
  | OCPL => exact compute_not hl
  | OMOD => rfl
  | OAND => rfl
  | OOR => rfl
  | ONE => rfl
  | OLT => rfl
  | OGT => rfl
  | OGE => rfl
  | OLE => rfl
  | OEQ => rfl
  | ONEG => rfl

theorem foldint_ok (accepted : validate op l r tp = .ok ()) : foldint op tp l r = .ok (compute op l r) := by
  rw [foldint, accepted]
  rfl

theorem foldint_error {warning : Warning} (refused : validate op l r tp = .error warning) :
    foldint op tp l r = .error warning := by
  rw [foldint, refused]
  rfl

theorem exact_iff_guard (hl : tp.InRange l) (hr : tp.InRange r) (op : Op) :
    Exact op tp l r ↔ (validate op l r tp = .ok () ↔ Defined op tp l r) := by
  have same := compute_exact hl hr op
  unfold Exact
  cases guard : validate op l r tp with
  | ok =>
    rw [foldint_ok guard]
    constructor
    · rintro ⟨_, refused⟩
      by_contra other
      have undef : ¬ Defined op tp l r := by tauto
      have ⟨_, impossible⟩ := refused undef
      cases impossible
    · intro accepts
      have defined := accepts.mp rfl
      exact ⟨fun _ => by rw [same defined], fun undef => absurd defined undef⟩
  | error warning =>
    rw [foldint_error guard]
    constructor
    · rintro ⟨stored, _⟩
      constructor
      · intro accepted
        cases accepted
      · intro defined
        cases stored defined
    · intro accepts
      constructor
      · intro defined
        cases accepts.mpr defined
      · intro _
        exact ⟨warning, rfl⟩

theorem check_ok (b : Bool) : check b = .ok () ↔ b = true := by
  cases b <;> simp [check]

theorem outside_iff : outside r tp = true ↔ ¬ (0 ≤ r ∧ r < tp.width) := by
  simp only [outside, SignedType.width, Bool.or_eq_true, decide_eq_true_eq]
  omega

theorem lshi_ok : lshi l r tp = .ok () ↔ 0 ≤ r ∧ r < tp.width ∧ muli l (shifted r) tp = true := by
  unfold lshi
  split_ifs with past
  · rw [outside_iff] at past
    simp only [false_iff]
    tauto
  · rw [outside_iff, not_not] at past
    tauto
  · simp only [false_iff]
    tauto

theorem rshi_ok : rshi r tp = .ok () ↔ 0 ≤ r ∧ r < tp.width := by
  unfold rshi
  split_ifs with past
  · rw [outside_iff] at past
    simp only [false_iff]
    exact past
  · rw [outside_iff, not_not] at past
    simp only [past, and_self]

theorem defined_plain (plain : op ≠ .ODIV ∧ op ≠ .OMOD ∧ op ≠ .OSHL ∧ op ≠ .OSHR) :
    Defined op tp l r ↔ tp.InRange (exact op tp l r) := by
  unfold Defined
  tauto

theorem bit_fits (p : Prop) [Decidable p] : tp.InRange (if p then 1 else 0) := by
  have upper := tp.least_upper
  unfold SignedType.InRange
  split_ifs <;> omega

theorem not_fits (hl : tp.InRange l) : tp.InRange (-l - 1) := by
  unfold SignedType.InRange at *
  omega

theorem defined_division (hl : tp.InRange l) : Defined .ODIV tp l r ↔ r ≠ 0 ∧ ¬ (l = tp.least ∧ r = -1) := by
  have fits : r ≠ 0 → (tp.InRange (l.tdiv r) ↔ _) := tdiv_fits hl
  unfold Defined exact
  simp only [true_or, forall_const, reduceCtorEq, or_self, false_implies, true_and]
  constructor
  · rintro ⟨nonzero, quotient⟩
    exact ⟨nonzero, (fits nonzero).mp quotient⟩
  · rintro ⟨nonzero, quotient⟩
    exact ⟨nonzero, (fits nonzero).mpr quotient⟩

theorem defined_remainder (hr : tp.InRange r) : Defined .OMOD tp l r ↔ r ≠ 0 := by
  unfold Defined exact
  simp only [or_true, forall_const, reduceCtorEq, or_self, false_implies, true_and]
  constructor
  · intro defined
    exact defined.1
  · intro nonzero
    exact ⟨nonzero, tmod_fits hr nonzero⟩

theorem defined_shiftLeft : Defined .OSHL tp l r ↔ 0 ≤ r ∧ r < tp.width ∧ tp.InRange (l * 2 ^ r.toNat) := by
  simp only [Defined, exact, reduceCtorEq, or_self, false_implies, true_or, forall_const, true_and, and_assoc]

theorem defined_shiftRight (hl : tp.InRange l) : Defined .OSHR tp l r ↔ 0 ≤ r ∧ r < tp.width := by
  simp only [Defined, exact, reduceCtorEq, or_self, false_implies, or_true, forall_const, true_and,
    shiftRight_fits hl, and_true]

theorem unguarded_exact (plain : op ≠ .ODIV ∧ op ≠ .OMOD ∧ op ≠ .OSHL ∧ op ≠ .OSHR)
    (unguarded : validate op l r tp = .ok ()) (fits : tp.InRange (exact op tp l r)) :
    (validate op l r tp = .ok () ↔ Defined op tp l r) ↔ True := by
  rw [defined_plain plain]
  simp only [unguarded, fits]

/-- Constant folding is exact if and only if the operands are no exception of the operator. -/
theorem exact_iff_safe (op : Op) (tp : SignedType) (l r : Int) (hl : tp.InRange l)
    (hr : tp.InRange r) : Exact op tp l r ↔ Safe op tp l r := by
  have hostLeast := tp.least_lower
  rw [exact_iff_guard hl hr]
  cases op with
  | OADD =>
    rw [defined_plain (by decide), validate, check_ok, addi_fits hl hr]
    exact iff_of_true Iff.rfl trivial
  | OSUB =>
    rw [defined_plain (by decide), validate, check_ok]
    exact subi_fits hl hr
  | OMUL =>
    have unit : l = 1 → tp.InRange (l * r) := by
      rintro rfl
      rwa [Int.one_mul]
    have overflows : tp.size = 8 ∧ l = tp.least ∧ r < 0 → ¬ tp.InRange (l * r) := by
      rintro ⟨wide, least, neg⟩ fits
      rw [tp.least_wide.mpr wide] at least
      have high := fits.2
      rw [least] at high
      omega
    rw [defined_plain (by decide), validate, check_ok, muli_fits hl (by have := hr.1; omega)]
    unfold exact Safe
    dsimp only
    tauto
  | ODIV =>
    rw [defined_division hl, validate, check_ok, divi_fits hl]
    unfold Safe
    have table := tp.least_table
    dsimp only
    omega
  | OMOD =>
    rw [defined_remainder hr, validate, check_ok, divi_fits hl]
    unfold Safe
    dsimp only
    omega
  | OSHL =>
    rw [defined_shiftLeft, validate, lshi_ok, muli_fits hl (shifted_low r), and_congr_right_iff]
    exact imp_congr_right fun _ => and_congr_right_iff
  | OSHR =>
    rw [defined_shiftRight hl, validate, rshi_ok]
    exact iff_of_true Iff.rfl trivial
  | OSNEG =>
    have negated : tp.InRange (-l) ↔ l ≠ tp.least := by
      unfold SignedType.InRange at *
      omega
    have unguarded : validate .OSNEG l r tp = .ok () := rfl
    rw [defined_plain (by decide)]
    simp only [unguarded, true_iff]
    exact negated
  | OBAND => exact unguarded_exact (by decide) rfl (tp.toInt_inRange _)
  | OBXOR => exact unguarded_exact (by decide) rfl (tp.toInt_inRange _)
  | OBOR => exact unguarded_exact (by decide) rfl (tp.toInt_inRange _)
  | OCPL => exact unguarded_exact (by decide) rfl (not_fits hl)
  | OAND => exact unguarded_exact (by decide) rfl (bit_fits _)
  | OOR => exact unguarded_exact (by decide) rfl (bit_fits _)
  | OLT => exact unguarded_exact (by decide) rfl (bit_fits _)
  | OGT => exact unguarded_exact (by decide) rfl (bit_fits _)
  | OGE => exact unguarded_exact (by decide) rfl (bit_fits _)
  | OLE => exact unguarded_exact (by decide) rfl (bit_fits _)
  | OEQ => exact unguarded_exact (by decide) rfl (bit_fits _)
  | ONE => exact unguarded_exact (by decide) rfl (bit_fits _)
  | ONEG => exact unguarded_exact (by decide) rfl (bit_fits _)

def int : SignedType := ⟨4, by decide⟩

theorem three_shifted : int.InRange 3 ∧ int.InRange 31 ∧ (Exact .OSHL int 3 31 ↔ Safe .OSHL int 3 31) :=
  ⟨by decide, by decide, exact_iff_safe .OSHL int 3 31 (by decide) (by decide)⟩

/-- `0 - INT_MIN` is folded to a number that is no int. -/
theorem difference_inexact : ¬ ∀ (op : Op) (tp : SignedType) (l r : Int), tp.InRange l →
    tp.InRange r → Exact op tp l r := by
  intro always
  have ⟨_, refused⟩ := always .OSUB int 0 (-2 ^ 31) (by decide) (by decide)
  have outside : ¬ Defined .OSUB int 0 (-2 ^ 31) := fun defined => absurd defined.2.2 (by decide)
  have ⟨warning, kept⟩ := refused outside
  have stored : foldint .OSUB int 0 (-2 ^ 31) = .ok (2 ^ 31) := by rfl
  rw [stored] at kept
  cases kept

end Scc.Cc1.Fold
