import Mathlib.Data.Nat.Bitwise
import Mathlib.Tactic.Positivity
import Mathlib.Tactic.Ring
import Mathlib.Tactic.Zify

/-!
# Algebraic identities and strength reduction

`identity()` drops an operand that does nothing, or makes a comma of the node when the value is known
but the operand may have effects. `reduce()` makes a mask of a remainder by a power of two. Both look
at constants only, through `cmpnode()` and `power2node()`.
-/

namespace Scc.Cc1.Identity

set_option autoImplicit false

/-- An integer type: its size in bytes and whether it has a sign. -/
structure IntType where
  size : Nat
  signed : Bool
  size_pos : 0 < size
  size_le : size ≤ 8
deriving DecidableEq

def IntType.width (tp : IntType) : Nat := 8 * tp.size

def IntType.InRange (tp : IntType) (v : Int) : Prop :=
  if tp.signed then -2 ^ (tp.width - 1) ≤ v ∧ v < 2 ^ (tp.width - 1) else 0 ≤ v ∧ v < 2 ^ tp.width

instance (tp : IntType) (v : Int) : Decidable (tp.InRange v) :=
  inferInstanceAs (Decidable (if tp.signed then _ else _))

inductive Op
  | OADD | OSUB | OMUL | ODIV | OMOD | OSHL | OSHR | OBAND | OBXOR | OBOR | OAND | OOR
  | OLT | OGT | OGE | OLE | OEQ | ONE | OCOMMA
deriving DecidableEq

/-- A node: any expression that is not a constant, a constant with the contents of its symbol, or an
operator on two nodes. -/
inductive Node
  | leaf (tp : IntType) (n : Nat)
  | const (tp : IntType) (u : UInt64)
  | bin (op : Op) (tp : IntType) (left right : Node)
deriving DecidableEq

def Node.type : Node → IntType
  | .leaf tp _ => tp
  | .const tp _ => tp
  | .bin _ tp _ _ => tp

def ones (nbytes : Nat) : UInt64 :=
  if nbytes = 8 then -1 else ~~~((-1 : UInt64) <<< (nbytes * 8).toUInt64)

/-- The number of bits that are set, by the loop over `u >>= 1`. -/
def bitsSet (u : Nat) : Nat :=
  if u = 0 then 0 else u % 2 + bitsSet (u / 2)

def power2node : Node → Bool
  | .const _ u => bitsSet u.toNat = 1
  | _ => false

def cmpnode (np : Node) (val : UInt64) : Bool :=
  match np with
  | .const tp u =>
    let mask := if val > 1 then ones tp.size else -1
    u &&& mask == val &&& mask
  | _ => false

def identity (np : Node) : Node :=
  match np with
  | .bin op tp lp rp =>
    let iszeror := cmpnode rp 0
    let isoner := cmpnode rp 1
    let iszerol := cmpnode lp 0
    let isonel := cmpnode lp 1
    let change_to_comma := .bin .OCOMMA tp lp rp
    match op with
    | .OOR =>
      if isonel || iszeror then lp
      else if iszerol then rp
      else if isoner then change_to_comma
      else np
    | .OAND =>
      if iszerol || isoner then lp
      else if isonel then rp
      else if iszeror then change_to_comma
      else np
    | .OSHL | .OSHR => if iszeror || iszerol then lp else np
    | .OBXOR | .OADD | .OBOR | .OSUB => if iszeror then lp else np
    | .OMUL => if iszeror then change_to_comma else if isoner then lp else np
    | .ODIV => if isoner then lp else np
    | .OBAND => if cmpnode rp (-1) then lp else np
    | .OMOD => if isoner then change_to_comma else np
    | _ => np
  | _ => np

/-- `rp->sym->u.u--`. -/
def decrement : Node → Node
  | .const tp u => .const tp (u - 1)
  | np => np

def reduce (np : Node) : Node :=
  match np with
  | .bin .OMOD tp lp rp => if power2node rp then .bin .OBAND tp lp (decrement rp) else np
  | _ => np

/-- The value of a constant, whose symbol has it in a number of 64 bits. -/
def value (tp : IntType) (u : UInt64) : Int :=
  if tp.signed then (u.toNat : Int).bmod (2 ^ 64) else u.toNat

/-- A mathematical result in a type: arithmetic without a sign is modular, and with a sign there is no
result out of the range. -/
def IntType.result (tp : IntType) (v : Int) : Option Int :=
  if tp.signed then if tp.InRange v then some v else none else some (v % 2 ^ tp.width)

def IntType.bits (tp : IntType) (v : Int) : Nat := (v % 2 ^ tp.width).toNat

def IntType.ofBits (tp : IntType) (n : Nat) : Int :=
  if tp.signed then (n : Int).bmod (2 ^ tp.width) else n

def truth (p : Prop) [Decidable p] : Int := if p then 1 else 0

def arith (op : Op) (tp : IntType) (a b : Int) : Option Int :=
  match op with
  | .OADD => tp.result (a + b)
  | .OSUB => tp.result (a - b)
  | .OMUL => tp.result (a * b)
  | .ODIV => if b = 0 then none else tp.result (a.tdiv b)
  | .OMOD => if b = 0 ∨ ¬ tp.InRange (a.tdiv b) then none else some (a.tmod b)
  | .OSHL =>
    if b < 0 ∨ tp.width ≤ b ∨ (tp.signed ∧ a < 0) then none else tp.result (a * 2 ^ b.toNat)
  | .OSHR => if b < 0 ∨ tp.width ≤ b then none else some (a / 2 ^ b.toNat)
  | .OBAND => some (tp.ofBits (tp.bits a &&& tp.bits b))
  | .OBXOR => some (tp.ofBits (tp.bits a ^^^ tp.bits b))
  | .OBOR => some (tp.ofBits (tp.bits a ||| tp.bits b))
  | .OLT => some (truth (a < b))
  | .OGT => some (truth (b < a))
  | .OGE => some (truth (b ≤ a))
  | .OLE => some (truth (a ≤ b))
  | .OEQ => some (truth (a = b))
  | .ONE => some (truth (a ≠ b))
  | .OAND | .OOR | .OCOMMA => some b

def eval (env : Nat → Option Int) : Node → Option Int
  | .leaf _ n => env n
  | .const tp u => some (value tp u)
  | .bin op tp left right =>
    (eval env left).bind fun a =>
      match op with
      | .OOR => if a ≠ 0 then some 1 else (eval env right).map fun b => truth (b ≠ 0)
      | .OAND => if a = 0 then some 0 else (eval env right).map fun b => truth (b ≠ 0)
      | op => (eval env right).bind fun b => arith op tp a b

theorem ones_toNat (tp : IntType) : (ones tp.size).toNat = 2 ^ tp.width - 1 := by
  have table : ∀ n < 9, 0 < n → (ones n).toNat = 2 ^ (8 * n) - 1 := by decide
  exact table tp.size (by have := tp.size_le; omega) tp.size_pos

theorem bitsSet_zero {u : Nat} (none_ : bitsSet u = 0) : u = 0 := by
  induction u using bitsSet.induct with
  | case1 => rfl
  | case2 u nonzero ih =>
    rw [bitsSet, if_neg nonzero] at none_
    have := ih (by omega)
    omega

theorem bitsSet_one {u : Nat} : bitsSet u = 1 ↔ ∃ k, u = 2 ^ k := by
  induction u using bitsSet.induct with
  | case1 =>
    rw [bitsSet, if_pos rfl]
    exact ⟨nofun, fun ⟨k, zero⟩ => absurd zero.symm (Nat.two_pow_pos k).ne'⟩
  | case2 u nonzero ih =>
    rw [bitsSet, if_neg nonzero]
    constructor
    · intro one
      by_cases odd : u % 2 = 1
      · have rest := bitsSet_zero (show bitsSet (u / 2) = 0 by omega)
        exact ⟨0, by omega⟩
      · rcases ih.mp (by omega) with ⟨k, half⟩
        exact ⟨k + 1, by rw [Nat.pow_succ]; omega⟩
    · rintro ⟨k, rfl⟩
      cases k with
      | zero => rw [show 2 ^ 0 / 2 = 0 from rfl, bitsSet, if_pos rfl]; rfl
      | succ k =>
        have half : 2 ^ (k + 1) / 2 = 2 ^ k := by rw [Nat.pow_succ]; omega
        have even : 2 ^ (k + 1) % 2 = 0 := by rw [Nat.pow_succ]; omega
        rw [half] at ih ⊢
        rw [even, ih.mpr ⟨k, rfl⟩]

theorem cmpnode_small {np : Node} {val : UInt64} (small : val = 0 ∨ val = 1) (same : cmpnode np val = true) :
    ∃ tp, np = .const tp val := by
  cases np with
  | leaf tp n => cases same
  | bin op tp l r => cases same
  | const tp u =>
    have mask : ¬ val > 1 := by rcases small with rfl | rfl <;> decide
    rw [cmpnode, if_neg mask] at same
    simp at same
    exact ⟨tp, by rw [same]⟩

theorem eval_cmpnode {env : Nat → Option Int} {np : Node} :
    (cmpnode np 0 = true → eval env np = some 0) ∧ (cmpnode np 1 = true → eval env np = some 1) := by
  constructor
  · intro same
    rcases cmpnode_small (.inl rfl) same with ⟨tp, rfl⟩
    have zero : value tp 0 = 0 := by
      unfold value
      split_ifs
      · exact Int.zero_bmod
      · rfl
    rw [eval, zero]
  · intro same
    rcases cmpnode_small (.inr rfl) same with ⟨tp, rfl⟩
    have one : value tp 1 = 1 := by
      unfold value
      split_ifs
      · exact Int.bmod_eq_of_le (by decide) (by decide)
      · rfl
    rw [eval, one]

theorem value_bits (tp : IntType) (u : UInt64) : (value tp u) % 2 ^ tp.width = (u.toNat % 2 ^ tp.width : Nat) := by
  have narrow : (2 : Int) ^ tp.width ∣ 2 ^ 64 := pow_dvd_pow 2 (by have := tp.size_le; unfold IntType.width; omega)
  unfold value
  split_ifs
  · rw [Int.natCast_mod, Nat.cast_pow]
    have modular : (2 : Int) ^ 64 ∣ (u.toNat : Int).bmod (2 ^ 64) - u.toNat := Int.dvd_bmod_sub_self
    exact Int.emod_eq_emod_iff_emod_sub_eq_zero.mpr (Int.emod_eq_zero_of_dvd (narrow.trans modular))
  · rw [Int.natCast_mod, Nat.cast_pow]
    rfl

theorem bits_ones {env : Nat → Option Int} {np : Node} (same : cmpnode np (-1) = true) :
    ∃ b, eval env np = some b ∧ np.type.bits b = 2 ^ np.type.width - 1 := by
  cases np with
  | leaf tp n => cases same
  | bin op tp l r => cases same
  | const tp u =>
    rw [cmpnode, if_pos (by decide)] at same
    have equal := congrArg UInt64.toNat (beq_iff_eq.mp same)
    rw [UInt64.toNat_and, UInt64.toNat_and, ones_toNat, Nat.and_two_pow_sub_one_eq_mod,
      Nat.and_two_pow_sub_one_eq_mod] at equal
    refine ⟨value tp u, rfl, ?_⟩
    change ((value tp u) % 2 ^ tp.width).toNat = 2 ^ tp.width - 1
    rw [value_bits, Int.toNat_natCast, equal]
    have table : ∀ n < 9, (2 ^ 64 - 1) % 2 ^ (8 * n) = 2 ^ (8 * n) - 1 := by decide
    exact table tp.size (Nat.lt_succ_of_le tp.size_le)

theorem two_pow_width (tp : IntType) : (2 : Int) ^ tp.width = 2 * 2 ^ (tp.width - 1) := by
  have positive : tp.width = (tp.width - 1) + 1 := by
    have := tp.size_pos
    unfold IntType.width
    omega
  rw [positive, pow_succ, Nat.add_sub_cancel]
  ring

theorem ofBits_bits {tp : IntType} {v : Int} (range : tp.InRange v) : tp.ofBits (tp.bits v) = v := by
  have positive : (0 : Int) < 2 ^ (tp.width - 1) := by positivity
  have double := two_pow_width tp
  have nonneg : 0 ≤ v % 2 ^ tp.width := Int.emod_nonneg _ (by omega)
  unfold IntType.ofBits IntType.bits
  unfold IntType.InRange at range
  rw [Int.toNat_of_nonneg nonneg]
  split_ifs at range ⊢
  · have cast : (2 : Int) ^ tp.width = ((2 ^ tp.width : Nat) : Int) := by rw [Nat.cast_pow]; rfl
    rw [cast, Int.emod_bmod]
    exact Int.bmod_eq_of_le (by omega) (by omega)
  · exact Int.emod_eq_of_lt range.1 range.2

theorem bits_lt (tp : IntType) (v : Int) : tp.bits v < 2 ^ tp.width := by
  have := Int.emod_lt_of_pos v (show (0 : Int) < 2 ^ tp.width by positivity)
  have := Int.emod_nonneg v (show (2 : Int) ^ tp.width ≠ 0 by positivity)
  unfold IntType.bits
  zify
  omega

theorem bits_zero (tp : IntType) : tp.bits 0 = 0 := by
  unfold IntType.bits
  rw [Int.zero_emod]
  rfl

theorem result_inRange {tp : IntType} {v : Int} (range : tp.InRange v) : tp.result v = some v := by
  unfold IntType.result
  split_ifs with signed
  · rfl
  · unfold IntType.InRange at range
    rw [if_neg signed] at range
    rw [Int.emod_eq_of_lt range.1 range.2]

theorem inRange_zero (tp : IntType) : tp.InRange 0 := by
  have positive : (0 : Int) < 2 ^ (tp.width - 1) := by positivity
  have positive' : (0 : Int) < 2 ^ tp.width := by positivity
  unfold IntType.InRange
  split_ifs <;> omega

attribute [local simp] arith in
theorem arith_neutral {op : Op} {tp : IntType} {a b w : Int} (range : tp.InRange a)
    (defined : arith op tp a b = some w)
    (neutral : (b = 0 ∧ op ∈ [.OADD, .OSUB, .OBXOR, .OBOR, .OSHL, .OSHR]) ∨ (a = 0 ∧ op ∈ [.OSHL, .OSHR]) ∨
      (b = 1 ∧ op ∈ [.OMUL, .ODIV]) ∨ (tp.bits b = 2 ^ tp.width - 1 ∧ op = .OBAND)) : w = a := by
  have same := result_inRange range
  rcases neutral with ⟨rfl, member⟩ | ⟨rfl, member⟩ | ⟨rfl, member⟩ | ⟨all, rfl⟩
  · simp only [List.mem_cons, List.not_mem_nil, or_false] at member
    rcases member with rfl | rfl | rfl | rfl | rfl | rfl
    · rw [arith, Int.add_zero, same] at defined
      exact (Option.some.inj defined).symm
    · rw [arith, Int.sub_zero, same] at defined
      exact (Option.some.inj defined).symm
    · rw [arith, bits_zero, Nat.xor_zero, ofBits_bits range] at defined
      exact (Option.some.inj defined).symm
    · rw [arith, bits_zero, Nat.or_zero, ofBits_bits range] at defined
      exact (Option.some.inj defined).symm
    · rw [arith] at defined
      split_ifs at defined
      rw [Int.toNat_zero, Int.pow_zero, Int.mul_one, same] at defined
      exact (Option.some.inj defined).symm
    · rw [arith] at defined
      split_ifs at defined
      rw [Int.toNat_zero, Int.pow_zero, Int.ediv_one] at defined
      exact (Option.some.inj defined).symm
  · simp only [List.mem_cons, List.not_mem_nil, or_false] at member
    rcases member with rfl | rfl
    · rw [arith] at defined
      split_ifs at defined
      rw [Int.zero_mul, same] at defined
      exact (Option.some.inj defined).symm
    · rw [arith] at defined
      split_ifs at defined
      rw [Int.zero_ediv] at defined
      exact (Option.some.inj defined).symm
  · simp only [List.mem_cons, List.not_mem_nil, or_false] at member
    rcases member with rfl | rfl
    · rw [arith, Int.mul_one, same] at defined
      exact (Option.some.inj defined).symm
    · rw [arith, if_neg (by decide), Int.tdiv_one, same] at defined
      exact (Option.some.inj defined).symm
  · rw [arith, all, Nat.and_two_pow_sub_one_eq_mod, Nat.mod_eq_of_lt (bits_lt tp a), ofBits_bits range] at defined
    exact (Option.some.inj defined).symm

theorem power_value {tp : IntType} {u : UInt64} {k : Nat} (power : u.toNat = 2 ^ k) (range : tp.InRange (value tp u)) :
    k < tp.width ∧ (value tp u = 2 ^ k ∨ value tp u = -2 ^ k) ∧ value tp (u - 1) = 2 ^ k - 1 := by
  have few : k < 64 := by
    have bound := u.toNat_lt
    rw [power] at bound
    exact (Nat.pow_lt_pow_iff_right (by decide)).mp bound
  have small : (2 : Nat) ^ k ≤ 2 ^ 63 := Nat.pow_le_pow_right (by decide) (by omega)
  have positive := Nat.two_pow_pos k
  have before : (u - 1).toNat = 2 ^ k - 1 := by
    rw [UInt64.toNat_sub_of_le _ _ (by rw [UInt64.le_iff_toNat_le, power]; exact positive), power]
    rfl
  have cast : ((2 ^ k - 1 : Nat) : Int) = 2 ^ k - 1 := by
    rw [Nat.cast_sub positive, Nat.cast_pow]
    rfl
  have pred : value tp (u - 1) = 2 ^ k - 1 := by
    unfold value
    rw [before, cast]
    split_ifs
    · exact Int.bmod_eq_of_le (by zify at small positive; omega) (by zify at small positive; omega)
    · rfl
  have sign : value tp u = 2 ^ k ∨ value tp u = -2 ^ k := by
    unfold value
    rw [power, Nat.cast_pow]
    split_ifs
    · by_cases top : k = 63
      · subst top
        exact .inr (by decide)
      · have less : (2 : Nat) ^ k ≤ 2 ^ 62 := Nat.pow_le_pow_right (by decide) (by omega)
        exact .inl (Int.bmod_eq_of_le (by zify at less positive; push_cast; omega) (by zify at less; push_cast; omega))
    · exact .inl rfl
  have double := two_pow_width tp
  have half : (0 : Int) < 2 ^ (tp.width - 1) := by positivity
  have bound : (2 : Int) ^ k < 2 ^ tp.width := by
    unfold IntType.InRange at range
    cases sign with
    | inl plus =>
      rw [plus] at range
      split_ifs at range <;> omega
    | inr minus =>
      rw [minus] at range
      zify at positive
      split_ifs at range <;> omega
  exact ⟨(pow_lt_pow_iff_right₀ (by decide)).mp bound, sign, pred⟩

theorem mask_iff {tp : IntType} {u : UInt64} {a w : Int} (power : bitsSet u.toNat = 1)
    (range : tp.InRange (value tp u)) (defined : arith .OMOD tp a (value tp u) = some w) :
    arith .OBAND tp a (value tp (u - 1)) = some w ↔ 0 ≤ a ∨ value tp u ∣ a := by
  rcases bitsSet_one.mp power with ⟨k, power'⟩
  have ⟨few, sign, pred⟩ := power_value power' range
  have positive : (0 : Int) < 2 ^ k := by positivity
  have below : (2 : Int) ^ k ≤ 2 ^ (tp.width - 1) := pow_le_pow_right₀ (by decide) (by omega)
  have double := two_pow_width tp
  have nonneg := Int.emod_nonneg a (show (2 : Int) ^ k ≠ 0 by omega)
  have less := Int.emod_lt_of_pos a positive
  have masked : arith .OBAND tp a (value tp (u - 1)) = some (a % 2 ^ k) := by
    rw [arith, pred]
    have whole : tp.bits (2 ^ k - 1) = 2 ^ k - 1 := by
      unfold IntType.bits
      rw [Int.emod_eq_of_lt (by omega) (by omega)]
      zify [Nat.two_pow_pos k]
      omega
    have low : ((tp.bits a % 2 ^ k : Nat) : Int) = a % 2 ^ k := by
      unfold IntType.bits
      rw [Int.natCast_mod, Int.toNat_of_nonneg (Int.emod_nonneg _ (by omega)), Nat.cast_pow]
      exact Int.emod_emod_of_dvd a (pow_dvd_pow 2 (Nat.le_of_lt few))
    rw [whole, Nat.and_two_pow_sub_one_eq_mod]
    unfold IntType.ofBits
    split_ifs
    · rw [low]
      have cast : ((2 ^ tp.width : Nat) : Int) = 2 ^ tp.width := by rw [Nat.cast_pow]; rfl
      rw [Int.bmod_eq_of_le (by rw [cast]; omega) (by rw [cast]; omega)]
    · rw [low]
  have remainder : w = a.tmod (2 ^ k) := by
    rw [arith] at defined
    split_ifs at defined
    cases sign with
    | inl plus => rw [← Option.some.inj defined, plus]
    | inr minus => rw [← Option.some.inj defined, minus, Int.tmod_neg]
  have divides : value tp u ∣ a ↔ (2 : Int) ^ k ∣ a := by
    cases sign with
    | inl plus => rw [plus]
    | inr minus => rw [minus, Int.neg_dvd]
  rw [masked, remainder, divides, Option.some.injEq, Int.tmod_eq_emod]
  split_ifs with exact_
  · simp [exact_]
  · have size : 0 < (2 ^ k : Int).natAbs := Int.natAbs_pos.mpr (by omega)
    simp only [exact_, iff_false]
    omega

def Op.arithmetic (op : Op) : Prop :=
  op ∈ [.OADD, .OSUB, .OMUL, .ODIV, .OMOD, .OBAND, .OBXOR, .OBOR]

def Op.shift (op : Op) : Prop := op ∈ [.OSHL, .OSHR]

/-- What holds of the operands of a node: their values are in the range of their types, the conversions
are done, and nothing is left for `reduce()`, as both were simplified before. -/
structure Operands (env : Nat → Option Int) (op : Op) (tp : IntType) (left right : Node) : Prop where
  left_range : ∀ a, eval env left = some a → left.type.InRange a
  right_range : ∀ b, eval env right = some b → right.type.InRange b
  left_type : op.arithmetic ∨ op.shift → left.type = tp
  right_type : op.arithmetic → right.type = tp
  left_reduced : reduce left = left
  right_reduced : reduce right = right

def TruthValue (env : Nat → Option Int) (np : Node) : Prop :=
  ∀ v, eval env np = some v → v = 0 ∨ v = 1

/-- When the rules keep the value: there is no remainder by one, a remainder by a power of two is that of
a number that is not negative or is a multiple, and where one operand is dropped from `||` or `&&` the
other is a truth value. -/
structure Kept (env : Nat → Option Int) (op : Op) (left right : Node) : Prop where
  by_one : op = .OMOD → cmpnode right 1 = false
  by_power : op = .OMOD → power2node right = true →
    ∀ a b, eval env left = some a → eval env right = some b → 0 ≤ a ∨ b ∣ a
  or_left : op = .OOR → cmpnode right 0 = true → TruthValue env left
  or_right : op = .OOR → cmpnode left 0 = true → TruthValue env right
  and_left : op = .OAND → cmpnode right 1 = true → TruthValue env left
  and_right : op = .OAND → cmpnode left 1 = true → TruthValue env right

theorem reduce_idem (np : Node) : reduce (reduce np) = reduce np := by
  cases np with
  | leaf tp n => rfl
  | const tp u => rfl
  | bin op tp l r =>
    cases op with
    | OMOD =>
      rw [reduce]
      split_ifs with power
      · rfl
      · rw [reduce, if_neg power]
    | _ => rfl

theorem eval_arith {env : Nat → Option Int} {op : Op} {tp : IntType} {l r : Node} {w : Int}
    (others : op ≠ .OOR ∧ op ≠ .OAND) (defined : eval env (.bin op tp l r) = some w) :
    ∃ a b, eval env l = some a ∧ eval env r = some b ∧ arith op tp a b = some w := by
  rw [eval] at defined
  rcases Option.bind_eq_some_iff.mp defined with ⟨a, left, rest⟩
  have rest' : ((eval env r).bind fun b => arith op tp a b) = some w := by
    cases op with
    | OOR => exact absurd rfl others.1
    | OAND => exact absurd rfl others.2
    | _ => exact rest
  rcases Option.bind_eq_some_iff.mp rest' with ⟨b, right, done⟩
  exact ⟨a, b, left, right, done⟩

variable {env : Nat → Option Int} {op : Op} {tp : IntType} {l r : Node} {w : Int}

theorem keep_left (o : Operands env op tp l r) (defined : eval env (.bin op tp l r) = some w)
    (rule : (cmpnode r 0 = true ∧ op ∈ [.OADD, .OSUB, .OBXOR, .OBOR, .OSHL, .OSHR]) ∨
      (cmpnode l 0 = true ∧ op ∈ [.OSHL, .OSHR]) ∨ (cmpnode r 1 = true ∧ op ∈ [.OMUL, .ODIV]) ∨
      (cmpnode r (-1) = true ∧ op = .OBAND)) : eval env (reduce l) = some w := by
  have kind : op.arithmetic ∨ op.shift := by
    rcases rule with ⟨-, member⟩ | ⟨-, member⟩ | ⟨-, member⟩ | ⟨-, rfl⟩
    · simp only [List.mem_cons, List.not_mem_nil, or_false] at member
      rcases member with rfl | rfl | rfl | rfl | rfl | rfl <;> simp [Op.arithmetic, Op.shift]
    · exact .inr member
    · simp only [List.mem_cons, List.not_mem_nil, or_false] at member
      rcases member with rfl | rfl <;> simp [Op.arithmetic]
    · simp [Op.arithmetic]
  have others : op ≠ .OOR ∧ op ≠ .OAND := by
    constructor
    · rintro rfl
      simp [Op.arithmetic, Op.shift] at kind
    · rintro rfl
      simp [Op.arithmetic, Op.shift] at kind
  rcases eval_arith others defined with ⟨a, b, left, right, done⟩
  have range := o.left_range a left
  rw [o.left_type kind] at range
  have same : w = a := by
    refine arith_neutral range done ?_
    rcases rule with ⟨zero, member⟩ | ⟨zero, member⟩ | ⟨one, member⟩ | ⟨all, rfl⟩
    · rw [eval_cmpnode.1 zero] at right
      exact .inl ⟨(Option.some.inj right).symm, member⟩
    · rw [eval_cmpnode.1 zero] at left
      exact .inr (.inl ⟨(Option.some.inj left).symm, member⟩)
    · rw [eval_cmpnode.2 one] at right
      exact .inr (.inr (.inl ⟨(Option.some.inj right).symm, member⟩))
    · rcases bits_ones all with ⟨b', value_, bits⟩
      rw [value_] at right
      rw [o.right_type (by simp [Op.arithmetic])] at bits
      exact .inr (.inr (.inr ⟨Option.some.inj right ▸ bits, rfl⟩))
  rw [o.left_reduced, left, same]

theorem kept_of_others (others : op ≠ .OMOD ∧ op ≠ .OOR ∧ op ≠ .OAND) : Kept env op l r where
  by_one := fun same => absurd same others.1
  by_power := fun same => absurd same others.1
  or_left := fun same => absurd same others.2.1
  or_right := fun same => absurd same others.2.1
  and_left := fun same => absurd same others.2.2
  and_right := fun same => absurd same others.2.2

attribute [local simp] identity in
theorem others_kept (o : Operands env op tp l r) (defined : eval env (.bin op tp l r) = some w)
    (others : op ≠ .OMOD ∧ op ≠ .OOR ∧ op ≠ .OAND) : eval env (reduce (identity (.bin op tp l r))) = some w := by
  have unchanged : reduce (.bin op tp l r) = .bin op tp l r := by
    cases op with
    | OMOD => exact absurd rfl others.1
    | _ => rfl
  have still : eval env (reduce (.bin op tp l r)) = some w := unchanged.symm ▸ defined
  have left := keep_left o defined
  cases op with
  | OADD | OSUB | OBXOR | OBOR =>
    rw [identity]
    split_ifs with zero
    · exact left (.inl ⟨zero, by simp⟩)
    · exact still
  | OSHL | OSHR =>
    rw [identity]
    split_ifs with zero
    · cases Bool.or_eq_true_iff.mp zero with
      | inl zero => exact left (.inl ⟨zero, by simp⟩)
      | inr zero => exact left (.inr (.inl ⟨zero, by simp⟩))
    · exact still
  | OMUL =>
    rw [identity]
    split_ifs with zero one
    · rcases eval_arith (by decide) defined with ⟨a, b, first, second, done⟩
      have same : b = 0 := Option.some.inj (second.symm.trans (eval_cmpnode.1 zero))
      rw [same, arith, Int.mul_zero, result_inRange (inRange_zero tp)] at done
      change ((eval env l).bind fun a => (eval env r).bind fun b => some b) = some w
      rw [first, second, same]
      exact done
    · exact left (.inr (.inr (.inl ⟨one, by simp⟩)))
    · exact still
  | ODIV =>
    rw [identity]
    split_ifs with one
    · exact left (.inr (.inr (.inl ⟨one, by simp⟩)))
    · exact still
  | OBAND =>
    rw [identity]
    split_ifs with all
    · exact left (.inr (.inr (.inr ⟨all, rfl⟩)))
    · exact still
  | OMOD => exact absurd rfl others.1
  | OOR => exact absurd rfl others.2.1
  | OAND => exact absurd rfl others.2.2
  | OLT | OGT | OGE | OLE | OEQ | ONE | OCOMMA => exact still

theorem remainder_iff (o : Operands env .OMOD tp l r) (defined : eval env (.bin .OMOD tp l r) = some w) :
    eval env (reduce (identity (.bin .OMOD tp l r))) = some w ↔ Kept env .OMOD l r := by
  rcases eval_arith (by decide) defined with ⟨a, b, left, right, done⟩
  rw [identity]
  by_cases one : cmpnode r 1 = true
  · rw [if_pos one]
    have same : b = 1 := Option.some.inj (right.symm.trans (eval_cmpnode.2 one))
    have comma : eval env (reduce (.bin .OCOMMA tp l r)) = some 1 := by
      change ((eval env l).bind fun a => (eval env r).bind fun b => some b) = some 1
      rw [left, right, same]
      rfl
    have zero : w = 0 := by
      rw [same, arith] at done
      split_ifs at done
      rw [← Option.some.inj done, Int.tmod_one]
    rw [comma, zero]
    refine ⟨fun wrong => absurd (Option.some.inj wrong) (by decide), fun kept => ?_⟩
    rw [kept.by_one rfl] at one
    cases one
  · rw [if_neg one, reduce]
    have not_one : cmpnode r 1 = false := Bool.eq_false_iff.mpr one
    by_cases power : power2node r = true
    · rw [if_pos power]
      cases r with
      | leaf tpr n => cases power
      | bin opr tpr lr rr => cases power
      | const tpr u =>
        have type : tpr = tp := o.right_type (by simp [Op.arithmetic])
        subst type
        have number : value tpr u = b := Option.some.inj right
        have range : tpr.InRange b := o.right_range b right
        rw [← number] at range done
        have masked : eval env (.bin .OBAND tpr l (decrement (.const tpr u))) =
            arith .OBAND tpr a (value tpr (u - 1)) := by
          change ((eval env l).bind fun a => arith .OBAND tpr a (value tpr (u - 1))) = _
          rw [left]
          rfl
        rw [masked, mask_iff (of_decide_eq_true power) range done]
        constructor
        · intro small
          refine ⟨fun _ => not_one, ?_, nofun, nofun, nofun, nofun⟩
          intro _ _ a' b' left' right'
          rw [left] at left'
          cases left'
          cases right'
          exact small
        · intro kept
          exact kept.by_power rfl power a _ left rfl
    · rw [if_neg power]
      exact ⟨fun _ => ⟨fun _ => not_one, fun _ power' => absurd power' power, nofun, nofun, nofun, nofun⟩,
        fun _ => defined⟩

theorem eq_truth {b : Int} : b = truth (b ≠ 0) ↔ b = 0 ∨ b = 1 := by
  unfold truth
  split_ifs with nonzero
  · exact ⟨.inr, fun either => either.resolve_left nonzero⟩
  · exact ⟨.inl, fun _ => not_not.mp nonzero⟩

theorem truthValue_iff {np : Node} {v : Int} (is : eval env np = some v) : TruthValue env np ↔ v = 0 ∨ v = 1 := by
  refine ⟨fun all => all v is, fun either v' is' => ?_⟩
  rw [is] at is'
  cases is'
  exact either

theorem or_iff (o : Operands env .OOR tp l r) (defined : eval env (.bin .OOR tp l r) = some w) :
    eval env (reduce (identity (.bin .OOR tp l r))) = some w ↔ Kept env .OOR l r := by
  have value_ := defined
  rw [eval] at value_
  rcases Option.bind_eq_some_iff.mp value_ with ⟨a, left, rest⟩
  dsimp only at rest
  have kept_iff : Kept env .OOR l r ↔ (cmpnode r 0 = true → TruthValue env l) ∧ (cmpnode l 0 = true → TruthValue env r) :=
    ⟨fun kept => ⟨kept.or_left rfl, kept.or_right rfl⟩,
      fun both => ⟨nofun, nofun, fun _ => both.1, fun _ => both.2, nofun, nofun⟩⟩
  rw [kept_iff, truthValue_iff left, identity]
  by_cases zeror : cmpnode r 0 = true
  · have right : eval env r = some 0 := eval_cmpnode.1 zeror
    have both : w = truth (a ≠ 0) := by
      rw [right] at rest
      unfold truth
      split_ifs at rest ⊢
      · exact (Option.some.inj rest).symm
      · exact (Option.some.inj rest).symm
    rw [if_pos (by rw [zeror, Bool.or_true]), o.left_reduced, left, both, Option.some.injEq, eq_truth,
      truthValue_iff right]
    simp [zeror]
  · by_cases onel : cmpnode l 1 = true
    · have one : a = 1 := Option.some.inj (left.symm.trans (eval_cmpnode.2 onel))
      subst one
      have not_zero : cmpnode l 0 ≠ true := fun zero => by
        have := left.symm.trans (eval_cmpnode.1 zero)
        cases this
      rw [if_pos (by rw [onel, Bool.true_or]), o.left_reduced, left]
      cases rest
      simp [zeror, not_zero]
    · rw [if_neg (by simp [zeror, onel])]
      by_cases zerol : cmpnode l 0 = true
      · have zero : a = 0 := Option.some.inj (left.symm.trans (eval_cmpnode.1 zerol))
        rw [zero, if_neg (by decide)] at rest
        rcases Option.map_eq_some_iff.mp rest with ⟨b, right, same⟩
        rw [if_pos zerol, o.right_reduced, right, ← same, Option.some.injEq, eq_truth, truthValue_iff right]
        simp [zeror, zerol]
      · rw [if_neg zerol]
        have vacuous : (cmpnode r 0 = true → a = 0 ∨ a = 1) ∧ (cmpnode l 0 = true → TruthValue env r) :=
          ⟨fun zero => absurd zero zeror, fun zero => absurd zero zerol⟩
        split_ifs with oner
        · have right : eval env r = some 1 := eval_cmpnode.2 oner
          have comma : eval env (reduce (.bin .OCOMMA tp l r)) = some 1 := by
            change ((eval env l).bind fun a => (eval env r).bind fun b => some b) = some 1
            rw [left, right]
            rfl
          have one : w = 1 := by
            rw [right] at rest
            split_ifs at rest
            · exact (Option.some.inj rest).symm
            · exact (Option.some.inj rest).symm
          rw [comma, one]
          exact ⟨fun _ => vacuous, fun _ => rfl⟩
        · exact ⟨fun _ => vacuous, fun _ => defined⟩

theorem and_iff (o : Operands env .OAND tp l r) (defined : eval env (.bin .OAND tp l r) = some w) :
    eval env (reduce (identity (.bin .OAND tp l r))) = some w ↔ Kept env .OAND l r := by
  have value_ := defined
  rw [eval] at value_
  rcases Option.bind_eq_some_iff.mp value_ with ⟨a, left, rest⟩
  dsimp only at rest
  have kept_iff : Kept env .OAND l r ↔ (cmpnode r 1 = true → TruthValue env l) ∧ (cmpnode l 1 = true → TruthValue env r) :=
    ⟨fun kept => ⟨kept.and_left rfl, kept.and_right rfl⟩,
      fun both => ⟨nofun, nofun, nofun, nofun, fun _ => both.1, fun _ => both.2⟩⟩
  rw [kept_iff, truthValue_iff left, identity]
  by_cases oner : cmpnode r 1 = true
  · have right : eval env r = some 1 := eval_cmpnode.2 oner
    have both : w = truth (a ≠ 0) := by
      unfold truth
      by_cases zero : a = 0
      · rw [if_pos zero] at rest
        rw [if_neg (not_not_intro zero)]
        exact (Option.some.inj rest).symm
      · rw [if_neg zero, right] at rest
        rw [if_pos zero]
        exact (Option.some.inj rest).symm
    rw [if_pos (by rw [oner, Bool.or_true]), o.left_reduced, left, both, Option.some.injEq, eq_truth,
      truthValue_iff right]
    simp [oner]
  · by_cases zerol : cmpnode l 0 = true
    · have zero : a = 0 := Option.some.inj (left.symm.trans (eval_cmpnode.1 zerol))
      subst zero
      have not_one : cmpnode l 1 ≠ true := fun one => by
        have := left.symm.trans (eval_cmpnode.2 one)
        cases this
      rw [if_pos (by rw [zerol, Bool.true_or]), o.left_reduced, left]
      cases rest
      simp [oner, not_one]
    · rw [if_neg (by simp [oner, zerol])]
      by_cases onel : cmpnode l 1 = true
      · have one : a = 1 := Option.some.inj (left.symm.trans (eval_cmpnode.2 onel))
        rw [one, if_neg (by decide)] at rest
        rcases Option.map_eq_some_iff.mp rest with ⟨b, right, same⟩
        rw [if_pos onel, o.right_reduced, right, ← same, Option.some.injEq, eq_truth, truthValue_iff right]
        simp [oner, onel]
      · rw [if_neg onel]
        have vacuous : (cmpnode r 1 = true → a = 0 ∨ a = 1) ∧ (cmpnode l 1 = true → TruthValue env r) :=
          ⟨fun one => absurd one oner, fun one => absurd one onel⟩
        split_ifs with zeror
        · have right : eval env r = some 0 := eval_cmpnode.1 zeror
          have comma : eval env (reduce (.bin .OCOMMA tp l r)) = some 0 := by
            change ((eval env l).bind fun a => (eval env r).bind fun b => some b) = some 0
            rw [left, right]
            rfl
          have zero : w = 0 := by
            rw [right] at rest
            split_ifs at rest
            · exact (Option.some.inj rest).symm
            · exact (Option.some.inj rest).symm
          rw [comma, zero]
          exact ⟨fun _ => vacuous, fun _ => rfl⟩
        · exact ⟨fun _ => vacuous, fun _ => defined⟩

/-- For every node with operands of any integer types whose value C defines, the node that `identity()` and
`reduce()` give has this value exactly when the rules keep it. -/
theorem value_kept_iff (env : Nat → Option Int) (op : Op) (tp : IntType) (l r : Node)
    (o : Operands env op tp l r) (w : Int) (defined : eval env (.bin op tp l r) = some w) :
    eval env (reduce (identity (.bin op tp l r))) = some w ↔ Kept env op l r := by
  by_cases remainder : op = .OMOD
  · subst remainder
    exact remainder_iff o defined
  · by_cases disjunction : op = .OOR
    · subst disjunction
      exact or_iff o defined
    · by_cases conjunction : op = .OAND
      · subst conjunction
        exact and_iff o defined
      · have others : op ≠ .OMOD ∧ op ≠ .OOR ∧ op ≠ .OAND := ⟨remainder, disjunction, conjunction⟩
        exact ⟨fun _ => kept_of_others others, fun _ => others_kept o defined others⟩

def inttype : IntType := ⟨4, true, by decide, by decide⟩

/-- The node of `i % 4`. -/
def moduloFour : Node := .bin .OMOD inttype (.leaf inttype 0) (.const inttype 4)

theorem moduloFour_operands (i : Int) (range : inttype.InRange i) :
    Operands (fun _ => some i) .OMOD inttype (.leaf inttype 0) (.const inttype 4) where
  left_range := by
    intro a is
    cases is
    exact range
  right_range := by
    intro b is
    have four : inttype.InRange (value inttype 4) := by decide +kernel
    rw [eval] at is
    exact Option.some.inj is ▸ four
  left_type := fun _ => rfl
  right_type := fun _ => rfl
  left_reduced := rfl
  right_reduced := rfl

theorem power2node_four : power2node (.const inttype 4) = true := by
  have power : bitsSet 4 = 1 := bitsSet_one.mpr ⟨2, rfl⟩
  exact decide_eq_true power

/-- Seven modulo four is three, and so is the masked number. -/
theorem value_kept_seven : eval (fun _ => some 7) (reduce (identity moduloFour)) = some 3 := by
  refine (value_kept_iff _ _ _ _ _ (moduloFour_operands 7 (by decide)) 3 (by decide +kernel)).mpr ?_
  refine ⟨fun _ => by decide +kernel, ?_, nofun, nofun, nofun, nofun⟩
  intro _ _ a b left _
  cases left
  exact .inl (by decide)

/-- Minus three modulo four is minus three, but the masked number is one. -/
theorem minus_three_masked : Operands (fun _ => some (-3)) .OMOD inttype (.leaf inttype 0) (.const inttype 4) ∧
    eval (fun _ => some (-3)) moduloFour = some (-3) ∧
    eval (fun _ => some (-3)) (reduce (identity moduloFour)) = some 1 := by
  have unchanged : identity moduloFour = moduloFour := by decide +kernel
  refine ⟨moduloFour_operands (-3) (by decide), by decide +kernel, ?_⟩
  rw [unchanged, moduloFour, reduce, if_pos power2node_four]
  decide +kernel

end Scc.Cc1.Identity
