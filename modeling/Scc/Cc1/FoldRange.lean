import Mathlib.Data.Int.ModEq
import Mathlib.Data.List.Forall2
import Mathlib.Tactic.Ring

/-!
# Ranges of folded constants

`foldcast()` converts a constant and `folduint()` computes an operator on constants without a sign. Both
make a new symbol, so that the constants of a program are a list that grows. The symbol has its value in
a TUINT, whose 64 bits are also read as a TINT. The host is an amd64.
-/

namespace Scc.Cc1.FoldRange

set_option autoImplicit false

inductive TypeOp
  | INT | ENUM | PTR
deriving DecidableEq

/-- A type of constants. No pointer has `TSIGNED`. -/
structure Ty where
  op : TypeOp
  size : Nat
  signed : Bool
  sizes : size = 1 ∨ size = 2 ∨ size = 4 ∨ size = 8
  pointer : op = .PTR → signed = false

structure Symbol where
  type : Ty
  u : BitVec 64

namespace Ty

def width (tp : Ty) : Nat := 8 * tp.size

def InRange (tp : Ty) (v : Int) : Prop :=
  if tp.signed then -2 ^ (tp.width - 1) ≤ v ∧ v < 2 ^ (tp.width - 1) else 0 ≤ v ∧ v < 2 ^ tp.width

instance (tp : Ty) (v : Int) : Decidable (tp.InRange v) :=
  inferInstanceAs (Decidable (if tp.signed then _ else _))

end Ty

def ones (nbytes : Nat) : BitVec 64 :=
  if nbytes = 8 then -1 else ~~~((-1 : BitVec 64) <<< (nbytes * 8))

/-- The constant made of a cast. Whether the old type has a sign, the bits are the same. -/
def foldcast (newtp : Ty) (osym : Symbol) : Symbol :=
  let u := osym.u
  let mask := ones newtp.size
  if newtp.signed then
    let negmask := ~~~mask
    ⟨newtp, if u &&& (negmask >>> 1) &&& mask ≠ 0 then u ||| negmask else u⟩
  else ⟨newtp, u &&& mask⟩

inductive Unary
  | ONEG | OSNEG | OCPL
deriving DecidableEq

inductive Binary
  | OADD | OSUB | OMUL | ODIV | OMOD | OSHL | OSHR | OBAND | OBXOR | OBOR
deriving DecidableEq

inductive Test
  | OAND | OOR | OLT | OGT | OGE | OLE | OEQ | ONE
deriving DecidableEq

def bit (p : Prop) [Decidable p] : BitVec 64 := if p then 1 else 0

def unary (op : Unary) (l : BitVec 64) : BitVec 64 :=
  match op with
  | .ONEG => bit (l = 0)
  | .OSNEG => -l
  | .OCPL => ~~~l

/-- A shift of the host takes its count modulo 64. -/
def binary (op : Binary) (l r : BitVec 64) : BitVec 64 :=
  match op with
  | .OADD => l + r
  | .OSUB => l - r
  | .OMUL => l * r
  | .ODIV => l / r
  | .OMOD => l % r
  | .OSHL => l <<< (r.toNat % 64)
  | .OSHR => l >>> (r.toNat % 64)
  | .OBAND => l &&& r
  | .OBXOR => l ^^^ r
  | .OBOR => l ||| r

def test (op : Test) (l r : BitVec 64) : BitVec 64 :=
  match op with
  | .OAND => bit (l ≠ 0 ∧ r ≠ 0)
  | .OOR => bit (l ≠ 0 ∨ r ≠ 0)
  | .OLT => bit (l < r)
  | .OGT => bit (l > r)
  | .OGE => bit (l ≥ r)
  | .OLE => bit (l ≤ r)
  | .OEQ => bit (l = r)
  | .ONE => bit (l ≠ r)

/-- What is folded next. The operands are earlier constants, counted from the newest, and the type is
the type of the node. -/
inductive Step
  | cast (newtp : Ty) (l : Nat)
  | unary (op : Unary) (tp : Ty) (l : Nat)
  | binary (op : Binary) (tp : Ty) (l r : Nat)
  | test (op : Test) (tp : Ty) (l r : Nat)

/-- The operands that `fold()` gives to `folduint()`: `arithconv()` and `parithmetic()` made one type of
them, and it has no sign. -/
def operands (symbols : List Symbol) (l r : Nat) : Option (Symbol × Symbol) :=
  symbols[l]?.bind fun ls => symbols[r]?.bind fun rs =>
    if ls.type.signed = false ∧ rs.type.signed = false ∧ rs.type.size = ls.type.size then
      some (ls, rs)
    else none

/-- An operator has the type of its operands, but for the difference of two pointers. -/
def typed (op : Binary) (tp optype : Ty) : Bool :=
  !tp.signed && tp.size == optype.size || op == .OSUB && optype.op == .PTR

/-- The constant made by a step. A division by zero makes none. -/
def created (symbols : List Symbol) : Step → Option Symbol
  | .cast newtp l => symbols[l]?.map (foldcast newtp)
  | .unary op tp l => symbols[l]?.bind fun ls =>
    if ls.type.signed = false ∧ (op = .ONEG ∨ tp.signed = false ∧ tp.size = ls.type.size) then
      some ⟨tp, unary op ls.u &&& ones tp.size⟩
    else none
  | .binary op tp l r => (operands symbols l r).bind fun (ls, rs) =>
    if (op = .ODIV ∨ op = .OMOD) ∧ rs.u = 0 ∨ typed op tp ls.type = false then none
    else some ⟨tp, binary op ls.u rs.u &&& ones tp.size⟩
  | .test op tp l r => (operands symbols l r).map fun (ls, rs) => ⟨tp, test op ls.u rs.u⟩

/-- The constants after some steps, the newest first. -/
def run : List Symbol → List Step → Option (List Symbol)
  | symbols, [] => some symbols
  | symbols, step :: steps => (created symbols step).bind fun sym => run (sym :: symbols) steps

def Symbol.value (sym : Symbol) : Int := if sym.type.signed then sym.u.toInt else sym.u.toNat

def Ty.reduce (tp : Ty) (v : Int) : Int :=
  if tp.signed then v.bmod (2 ^ tp.width) else v % 2 ^ tp.width

/-- The mathematical value of a constant of a type, unless C leaves it undefined. -/
structure Meaning where
  type : Ty
  value : Option Int

def Meaning.number (m : Meaning) : Option Int := m.value.map m.type.reduce

def unaryValue (op : Unary) (a : Int) : Int :=
  match op with
  | .ONEG => if a = 0 then 1 else 0
  | .OSNEG => -a
  | .OCPL => -a - 1

def binaryValue (op : Binary) (width : Nat) (a b : Int) : Option Int :=
  match op with
  | .OADD => some (a + b)
  | .OSUB => some (a - b)
  | .OMUL => some (a * b)
  | .ODIV => if b = 0 then none else some (a / b)
  | .OMOD => if b = 0 then none else some (a % b)
  | .OSHL => if b < width then some (a * 2 ^ b.toNat) else none
  | .OSHR => if b < width then some (a / 2 ^ b.toNat) else none
  | .OBAND => some ((a.toNat &&& b.toNat : Nat) : Int)
  | .OBXOR => some ((a.toNat ^^^ b.toNat : Nat) : Int)
  | .OBOR => some ((a.toNat ||| b.toNat : Nat) : Int)

def testValue (op : Test) (a b : Int) : Int :=
  match op with
  | .OAND => if a ≠ 0 ∧ b ≠ 0 then 1 else 0
  | .OOR => if a ≠ 0 ∨ b ≠ 0 then 1 else 0
  | .OLT => if a < b then 1 else 0
  | .OGT => if a > b then 1 else 0
  | .OGE => if a ≥ b then 1 else 0
  | .OLE => if a ≤ b then 1 else 0
  | .OEQ => if a = b then 1 else 0
  | .ONE => if a ≠ b then 1 else 0

def numbers (ms : List Meaning) (l r : Nat) : Option (Int × Int) :=
  (ms[l]?.bind Meaning.number).bind fun a => (ms[r]?.bind Meaning.number).map fun b => (a, b)

def meaning (ms : List Meaning) : Step → Meaning
  | .cast newtp l => ⟨newtp, ms[l]?.bind Meaning.number⟩
  | .unary op tp l => ⟨tp, (ms[l]?.bind Meaning.number).map (unaryValue op)⟩
  | .binary op tp l r => ⟨tp, (numbers ms l r).bind fun (a, b) => binaryValue op tp.width a b⟩
  | .test op tp l r => ⟨tp, (numbers ms l r).map fun (a, b) => testValue op a b⟩

def meanings (ms : List Meaning) (steps : List Step) : List Meaning :=
  steps.foldl (fun ms step => meaning ms step :: ms) ms

/-- The meaning of a constant that the source gives. -/
def Symbol.meaning (sym : Symbol) : Meaning := ⟨sym.type, some sym.value⟩

/-- A constant in the range of its type and congruent to its mathematical value. -/
def Good (sym : Symbol) (m : Meaning) : Prop :=
  m.type = sym.type ∧ sym.type.InRange sym.value ∧
    ∀ v, m.value = some v → sym.value ≡ v [ZMOD 2 ^ sym.type.width]

/-- The steps that the code gets right. A cast to a signed type that is shorter than a TINT needs the
bit of the sign in the operand, or an operand in the positive half of the type. A difference of two
pointers in a signed type that is shorter than a TINT has to be in its positive half. -/
def Fits (symbols : List Symbol) : Step → Prop
  | .cast newtp l => newtp.signed = true → newtp.size < 8 →
      ∀ osym, symbols[l]? = some osym →
        osym.u.getLsbD (newtp.width - 1) = true ∨ osym.u.toNat < 2 ^ (newtp.width - 1)
  | .binary .OSUB tp l r => tp.signed = true → tp.size < 8 →
      ∀ ls rs, operands symbols l r = some (ls, rs) →
        ((ls.u.toNat : Int) - rs.u.toNat) % 2 ^ tp.width < 2 ^ (tp.width - 1)
  | _ => True

def AllFit : List Symbol → List Step → Prop
  | _, [] => True
  | symbols, step :: steps =>
    Fits symbols step ∧ ∀ sym, created symbols step = some sym → AllFit (sym :: symbols) steps

namespace Ty

variable (tp : Ty)

theorem width_table : tp.width = 8 ∨ tp.width = 16 ∨ tp.width = 32 ∨ tp.width = 64 := by
  have sizes := tp.sizes
  unfold width
  omega

theorem ones_toNat : (ones tp.size).toNat = 2 ^ tp.width - 1 := by
  unfold width
  rcases tp.sizes with one | two | four | eight
  · rw [one]; decide
  · rw [two]; decide
  · rw [four]; decide
  · rw [eight]; decide

theorem and_ones (u : BitVec 64) : (u &&& ones tp.size).toNat = u.toNat % 2 ^ tp.width := by
  rw [BitVec.toNat_and, ones_toNat, Nat.and_two_pow_sub_one_eq_mod]

theorem sign_mask : (~~~(ones tp.size)) >>> 1 &&& ones tp.size =
    if tp.size < 8 then BitVec.twoPow 64 (tp.width - 1) else 0 := by
  unfold width
  rcases tp.sizes with one | two | four | eight
  · rw [one]; decide
  · rw [two]; decide
  · rw [four]; decide
  · rw [eight]; decide

theorem width_le : tp.width ≤ 64 := by
  have table := tp.width_table
  omega

theorem width_pos : 0 < tp.width := by
  have table := tp.width_table
  omega

theorem inRange_signed {v : Int} (signed : tp.signed = true) :
    tp.InRange v ↔ -2 ^ (tp.width - 1) ≤ v ∧ v < 2 ^ (tp.width - 1) := by
  rw [InRange, if_pos signed]

theorem inRange_unsigned {v : Int} (unsigned : tp.signed = false) :
    tp.InRange v ↔ 0 ≤ v ∧ v < 2 ^ tp.width := by
  rw [InRange, if_neg (by rw [unsigned]; decide)]

end Ty

variable {w l r : Nat} {n v : Int}

theorem Symbol.value_modEq (sym : Symbol) (short : w ≤ 64) : sym.value ≡ sym.u.toNat [ZMOD 2 ^ w] := by
  have divides : (2 : Int) ^ w ∣ 2 ^ 64 := pow_dvd_pow 2 short
  have whole : sym.value ≡ sym.u.toNat [ZMOD 2 ^ 64] := by
    unfold value
    split_ifs
    · rw [BitVec.toInt_eq_toNat_cond]
      split_ifs
      · exact Int.ModEq.refl _
      · exact Int.sub_emod_right _ _
    · exact Int.ModEq.refl _
  exact whole.of_dvd divides

variable {tp : Ty} {sym : Symbol} {m : Meaning}

theorem bmod_of_modEq (some_ : 0 < w) (low : -2 ^ (w - 1) ≤ v)
    (high : v < 2 ^ (w - 1)) (same : v ≡ n [ZMOD 2 ^ w]) : v = n.bmod (2 ^ w) := by
  have double : (2 : Int) ^ w = 2 * 2 ^ (w - 1) := by
    rw [← pow_succ', Nat.sub_add_cancel some_]
  have cast : ((2 ^ w : Nat) : Int) = 2 * 2 ^ (w - 1) := by
    rw [Nat.cast_pow]
    exact double
  have own : v.bmod (2 ^ w) = v := Int.bmod_eq_of_le (by omega) (by omega)
  have reduced : v % ((2 ^ w : Nat) : Int) = n % ((2 ^ w : Nat) : Int) := by
    rw [Nat.cast_pow]
    exact same
  rw [← own, ← Int.emod_bmod v, reduced, Int.emod_bmod]

theorem Ty.eq_reduce (fits : tp.InRange v) (same : v ≡ n [ZMOD 2 ^ tp.width]) : v = tp.reduce n := by
  unfold Ty.InRange at fits
  unfold Ty.reduce
  split_ifs at *
  · exact bmod_of_modEq tp.width_pos fits.1 fits.2 same
  · rw [← same.eq, Int.emod_eq_of_lt fits.1 fits.2]

theorem Good.number {n : Int} (good : Good sym m) (known : m.number = some n) : sym.value = n := by
  have ⟨type, fits, congruent⟩ := good
  unfold Meaning.number at known
  rw [Option.map_eq_some_iff] at known
  have ⟨v, some_, reduced⟩ := known
  rw [← reduced, type]
  exact Ty.eq_reduce fits (congruent v some_)

theorem getLsbD_low (u : BitVec 64) (some_ : 0 < w) :
    u.getLsbD (w - 1) = true ↔ 2 ^ (w - 1) ≤ u.toNat % 2 ^ w := by
  have double : 2 ^ w = 2 * 2 ^ (w - 1) := by
    rw [← Nat.pow_succ', Nat.succ_eq_add_one, Nat.sub_add_cancel some_]
  have split : u.toNat % 2 ^ w = u.toNat % 2 ^ (w - 1) + 2 ^ (w - 1) * (u.toNat / 2 ^ (w - 1) % 2) := by
    rw [double, Nat.mul_comm, Nat.mod_mul]
  have low : u.toNat % 2 ^ (w - 1) < 2 ^ (w - 1) := Nat.mod_lt _ (Nat.two_pow_pos _)
  rw [BitVec.getLsbD, Nat.testBit_eq_decide_div_mod_eq, decide_eq_true_eq, split]
  rcases Nat.mod_two_eq_zero_or_one (u.toNat / 2 ^ (w - 1)) with zero | one
  · rw [zero]
    omega
  · rw [one]
    omega

theorem or_negmask (tp : Ty) (u : BitVec 64) :
    (u ||| ~~~(ones tp.size)).toNat = u.toNat % 2 ^ tp.width + (2 ^ 64 - 2 ^ tp.width) := by
  have parts : u ||| ~~~(ones tp.size) = (u &&& ones tp.size) + ~~~(ones tp.size) := by
    rw [BitVec.add_eq_or_of_and_eq_zero]
    · apply BitVec.eq_of_getElem_eq
      intro i below
      simp only [BitVec.getElem_or, BitVec.getElem_and, BitVec.getElem_not]
      cases u[i] <;> cases (ones tp.size)[i] <;> rfl
    · rw [BitVec.and_assoc, BitVec.and_not_self]
      exact BitVec.and_zero
  have power : 2 ^ tp.width ≤ 2 ^ 64 := Nat.pow_le_pow_right (by decide) tp.width_le
  have low : u.toNat % 2 ^ tp.width < 2 ^ tp.width := Nat.mod_lt _ (Nat.two_pow_pos _)
  rw [parts, BitVec.toNat_add, tp.and_ones, BitVec.toNat_not, tp.ones_toNat]
  rw [Nat.mod_eq_of_lt (by omega)]
  omega

theorem foldcast_signed {newtp : Ty} {osym : Symbol} (signed : newtp.signed = true) :
    (foldcast newtp osym).u =
      if newtp.size < 8 ∧ osym.u.getLsbD (newtp.width - 1) = true then osym.u ||| ~~~(ones newtp.size)
      else osym.u := by
  have mask := newtp.sign_mask
  unfold foldcast
  rw [if_pos signed]
  dsimp only
  rw [BitVec.and_assoc, mask]
  by_cases short : newtp.size < 8
  · rw [if_pos short, BitVec.and_twoPow]
    have nonzero : BitVec.twoPow 64 (newtp.width - 1) ≠ 0 := by
      have table := newtp.width_table
      rcases table with w | w | w | w
      · rw [w]; decide
      · rw [w]; decide
      · rw [w]; decide
      · rw [w]; decide
    cases osym.u.getLsbD (newtp.width - 1) with
    | true => rw [if_pos rfl, if_pos nonzero, if_pos ⟨short, rfl⟩]
    | false => simp
  · rw [if_neg short, if_neg (by simp), if_neg (by tauto)]

theorem foldcast_type (newtp : Ty) (osym : Symbol) : (foldcast newtp osym).type = newtp := by
  unfold foldcast
  split_ifs <;> rfl

theorem foldcast_modEq (newtp : Ty) (osym : Symbol) :
    (foldcast newtp osym).value ≡ osym.value [ZMOD 2 ^ newtp.width] := by
  have bits := (foldcast newtp osym).value_modEq newtp.width_le
  have old := osym.value_modEq newtp.width_le
  have low : (foldcast newtp osym).u.toNat ≡ osym.u.toNat [MOD 2 ^ newtp.width] := by
    cases signed : newtp.signed with
    | true =>
      rw [foldcast_signed signed]
      split_ifs
      · have power : 2 ^ newtp.width ∣ 2 ^ 64 - 2 ^ newtp.width :=
          Nat.dvd_sub (Nat.pow_dvd_pow 2 newtp.width_le) (Nat.dvd_refl _)
        rw [or_negmask]
        unfold Nat.ModEq
        rw [Nat.add_mod, Nat.mod_eq_zero_of_dvd power, Nat.add_zero, Nat.mod_mod, Nat.mod_mod]
      · exact Nat.ModEq.refl _
    | false =>
      have masked : (foldcast newtp osym).u = osym.u &&& ones newtp.size := by
        unfold foldcast
        rw [if_neg (by rw [signed]; decide)]
      rw [masked, newtp.and_ones]
      exact Nat.mod_mod _ _
  have cast : ((foldcast newtp osym).u.toNat : Int) ≡ osym.u.toNat [ZMOD 2 ^ newtp.width] := by
    have integer := Int.natCast_modEq_iff.mpr low
    rwa [Nat.cast_pow] at integer
  exact bits.trans (cast.trans old.symm)

theorem value_signed (signed : sym.type.signed = true) : sym.value =
    if 2 * sym.u.toNat < 2 ^ 64 then (sym.u.toNat : Int) else sym.u.toNat - 2 ^ 64 := by
  unfold Symbol.value
  rw [if_pos signed, BitVec.toInt_eq_toNat_cond]
  rfl

theorem value_unsigned (unsigned : sym.type.signed = false) : sym.value = sym.u.toNat := by
  unfold Symbol.value
  rw [if_neg (by rw [unsigned]; decide)]

theorem inRange_clear (signed : sym.type.signed = true) (short : sym.type.size < 8)
    (clear : sym.u.toNat % 2 ^ sym.type.width < 2 ^ (sym.type.width - 1)) :
    sym.type.InRange sym.value ↔ sym.u.toNat < 2 ^ (sym.type.width - 1) := by
  have bound := sym.u.isLt
  have table := sym.type.width_table
  have narrow : sym.type.width < 64 := by
    unfold Ty.width
    omega
  rw [Ty.inRange_signed _ signed, value_signed signed]
  generalize sym.u.toNat = n at *
  rcases table with w | w | w | w
  · rw [w] at clear ⊢
    split_ifs <;> omega
  · rw [w] at clear ⊢
    split_ifs <;> omega
  · rw [w] at clear ⊢
    split_ifs <;> omega
  · omega

theorem inRange_extended (signed : sym.type.signed = true) {low : Nat}
    (below : low < 2 ^ sym.type.width) (set : 2 ^ (sym.type.width - 1) ≤ low)
    (bits : sym.u.toNat = low + (2 ^ 64 - 2 ^ sym.type.width)) : sym.type.InRange sym.value := by
  have table := sym.type.width_table
  rw [Ty.inRange_signed _ signed, value_signed signed, bits]
  rcases table with w | w | w | w
  · rw [w] at below set ⊢
    split_ifs <;> omega
  · rw [w] at below set ⊢
    split_ifs <;> omega
  · rw [w] at below set ⊢
    split_ifs <;> omega
  · rw [w] at below set ⊢
    split_ifs <;> omega

theorem inRange_whole (signed : sym.type.signed = true) (whole : ¬ sym.type.size < 8) :
    sym.type.InRange sym.value := by
  have bound := sym.u.isLt
  have width : sym.type.width = 64 := by
    have sizes := sym.type.sizes
    unfold Ty.width
    omega
  rw [Ty.inRange_signed _ signed, value_signed signed, width]
  split_ifs <;> omega

theorem inRange_masked (unsigned : sym.type.signed = false) (x : BitVec 64)
    (masked : sym.u = x &&& ones sym.type.size) : sym.type.InRange sym.value := by
  have below : x.toNat % 2 ^ sym.type.width < 2 ^ sym.type.width := Nat.mod_lt _ (Nat.two_pow_pos _)
  rw [Ty.inRange_unsigned _ unsigned, value_unsigned unsigned, masked, Ty.and_ones]
  constructor
  · exact Int.natCast_nonneg _
  · exact_mod_cast below

theorem foldcast_inRange (newtp : Ty) (osym : Symbol) : newtp.InRange (foldcast newtp osym).value ↔
      (newtp.signed = true → newtp.size < 8 →
        osym.u.getLsbD (newtp.width - 1) = true ∨ osym.u.toNat < 2 ^ (newtp.width - 1)) := by
  have type := foldcast_type newtp osym
  have low := getLsbD_low osym.u newtp.width_pos
  cases signed : newtp.signed with
  | false =>
    have masked : (foldcast newtp osym).u = osym.u &&& ones newtp.size := by
      unfold foldcast
      rw [if_neg (by rw [signed]; decide)]
    have fits := @inRange_masked (foldcast newtp osym) (by rw [type]; exact signed) osym.u
      (by rw [type]; exact masked)
    rw [type] at fits
    simp only [fits, Bool.false_eq_true, false_implies]
  | true =>
    have bits := @foldcast_signed newtp osym signed
    have signed' : (foldcast newtp osym).type.signed = true := by
      rw [type]
      exact signed
    simp only [forall_const]
    by_cases short : newtp.size < 8
    · simp only [short, forall_const]
      by_cases set : osym.u.getLsbD (newtp.width - 1) = true
      · rw [if_pos ⟨short, set⟩] at bits
        have extended := @inRange_extended (foldcast newtp osym) signed'
          (osym.u.toNat % 2 ^ newtp.width)
          (by rw [type]; exact Nat.mod_lt _ (Nat.two_pow_pos _))
          (by rw [type]; exact low.mp set)
          (by rw [type, bits]; exact or_negmask newtp osym.u)
        rw [type] at extended
        simp only [extended, set, true_or]
      · rw [if_neg (by tauto)] at bits
        have clear := @inRange_clear (foldcast newtp osym) signed' (by rw [type]; exact short)
          (by rw [type, bits]; rw [low] at set; omega)
        rw [type, bits] at clear
        simp only [clear, set, Bool.false_eq_true, false_or]
    · have whole := @inRange_whole (foldcast newtp osym) signed' (by rw [type]; exact short)
      rw [type] at whole
      simp only [whole, short, false_implies]

theorem masked_modEq (tp : Ty) (x : BitVec 64) :
    (Symbol.mk tp (x &&& ones tp.size)).value ≡ x.toNat [ZMOD 2 ^ tp.width] := by
  have bits := (Symbol.mk tp (x &&& ones tp.size)).value_modEq tp.width_le
  dsimp only at bits
  rw [tp.and_ones] at bits
  push_cast at bits
  exact bits.trans (Int.mod_modEq _ _)

theorem natCast_mod_modEq (n : Nat) (short : w ≤ 64) : ((n % 2 ^ 64 : Nat) : Int) ≡ n [ZMOD 2 ^ w] := by
  have divides : (2 : Int) ^ w ∣ 2 ^ 64 := pow_dvd_pow 2 short
  rw [Int.natCast_mod]
  exact (Int.mod_modEq _ _).of_dvd divides

theorem binary_modEq (op : Binary) (l r : BitVec 64) (short : w ≤ 64)
    (defined : binaryValue op w l.toNat r.toNat = some v) : (binary op l r).toNat ≡ v [ZMOD 2 ^ w] := by
  have small := r.isLt
  cases op with
  | OADD =>
    cases defined
    rw [binary, BitVec.toNat_add]
    exact (natCast_mod_modEq _ short).trans (by push_cast; exact Int.ModEq.refl _)
  | OSUB =>
    cases defined
    have divides : (2 : Int) ^ w ∣ 2 ^ 64 := pow_dvd_pow 2 short
    have whole : ((2 ^ 64 - r.toNat + l.toNat : Nat) : Int) = l.toNat - r.toNat + 2 ^ 64 := by
      omega
    rw [binary, BitVec.toNat_sub]
    apply (natCast_mod_modEq _ short).trans
    rw [whole]
    exact Int.ModEq.of_dvd divides (Int.add_emod_right _ _)
  | OMUL =>
    cases defined
    rw [binary, BitVec.toNat_mul]
    exact (natCast_mod_modEq _ short).trans (by push_cast; exact Int.ModEq.refl _)
  | ODIV =>
    dsimp only [binaryValue] at defined
    split_ifs at defined
    cases defined
    rw [binary, BitVec.toNat_udiv]
    push_cast
    exact Int.ModEq.refl _
  | OMOD =>
    dsimp only [binaryValue] at defined
    split_ifs at defined
    cases defined
    rw [binary, BitVec.toNat_umod]
    push_cast
    exact Int.ModEq.refl _
  | OSHL =>
    dsimp only [binaryValue] at defined
    split_ifs at defined with count
    cases defined
    have host : r.toNat % 64 = r.toNat := Nat.mod_eq_of_lt (by omega)
    rw [binary, host, BitVec.toNat_shiftLeft, Nat.shiftLeft_eq, Int.toNat_natCast]
    exact (natCast_mod_modEq _ short).trans (by push_cast; exact Int.ModEq.refl _)
  | OSHR =>
    dsimp only [binaryValue] at defined
    split_ifs at defined with count
    cases defined
    have host : r.toNat % 64 = r.toNat := Nat.mod_eq_of_lt (by omega)
    rw [binary, host, BitVec.toNat_ushiftRight, Nat.shiftRight_eq_div_pow, Int.toNat_natCast]
    push_cast
    exact Int.ModEq.refl _
  | OBAND =>
    cases defined
    rw [binary, BitVec.toNat_and, Int.toNat_natCast, Int.toNat_natCast]
  | OBXOR =>
    cases defined
    rw [binary, BitVec.toNat_xor, Int.toNat_natCast, Int.toNat_natCast]
  | OBOR =>
    cases defined
    rw [binary, BitVec.toNat_or, Int.toNat_natCast, Int.toNat_natCast]

theorem bit_toNat (p : Prop) [Decidable p] : (bit p).toNat = if p then 1 else 0 := by
  unfold bit
  split_ifs <;> rfl

theorem unary_modEq (op : Unary) (l : BitVec 64) (short : w ≤ 64) :
    (unary op l).toNat ≡ unaryValue op l.toNat [ZMOD 2 ^ w] := by
  have divides : (2 : Int) ^ w ∣ 2 ^ 64 := pow_dvd_pow 2 short
  have small := l.isLt
  cases op with
  | ONEG =>
    have zero : l = 0 ↔ (l.toNat : Int) = 0 := by
      rw [BitVec.toNat_eq]
      exact Int.natCast_eq_zero.symm
    rw [unary, bit_toNat, unaryValue]
    simp only [zero]
    split_ifs <;> exact Int.ModEq.refl _
  | OSNEG =>
    have whole : ((2 ^ 64 - l.toNat : Nat) : Int) = -l.toNat + 2 ^ 64 := by omega
    rw [unary, BitVec.toNat_neg]
    apply (natCast_mod_modEq _ short).trans
    rw [whole]
    exact Int.ModEq.of_dvd divides (Int.add_emod_right _ _)
  | OCPL =>
    have whole : ((2 ^ 64 - 1 - l.toNat : Nat) : Int) = -l.toNat - 1 + 2 ^ 64 := by omega
    rw [unary, BitVec.toNat_not, whole]
    exact Int.ModEq.of_dvd divides (Int.add_emod_right _ _)

theorem test_value (op : Test) (l r : BitVec 64) :
    ((test op l r).toNat : Int) = testValue op l.toNat r.toNat := by
  have zero : ∀ x : BitVec 64, x = 0 ↔ (x.toNat : Int) = 0 := by
    intro x
    rw [BitVec.toNat_eq]
    exact Int.natCast_eq_zero.symm
  cases op <;> simp only [test, testValue, bit_toNat, ne_eq, zero, BitVec.lt_def, BitVec.le_def,
    BitVec.toNat_eq, gt_iff_lt, ge_iff_le, Int.ofNat_lt, Int.ofNat_le, Int.ofNat_inj]
  all_goals split_ifs <;> rfl

variable {symbols : List Symbol} {ms : List Meaning}

theorem good_at (all : List.Forall₂ Good symbols ms) {i : Nat} (found : symbols[i]? = some sym) :
    ∃ m, ms[i]? = some m ∧ Good sym m := by
  induction all generalizing i with
  | nil => cases found
  | cons good _ ih =>
    cases i with
    | zero =>
      cases found
      exact ⟨_, rfl, good⟩
    | succ i => exact ih found

theorem operand_number (all : List.Forall₂ Good symbols ms) {i : Nat}
    (found : symbols[i]? = some sym) (known : ms[i]?.bind Meaning.number = some n) : sym.value = n := by
  have ⟨m, at_, good⟩ := good_at all found
  rw [at_] at known
  exact good.number known

theorem operands_some {ls rs : Symbol} (found : operands symbols l r = some (ls, rs)) :
    symbols[l]? = some ls ∧ symbols[r]? = some rs ∧ ls.type.signed = false ∧
      rs.type.signed = false ∧ rs.type.size = ls.type.size := by
  unfold operands at found
  rw [Option.bind_eq_some_iff] at found
  have ⟨ls', first, rest⟩ := found
  rw [Option.bind_eq_some_iff] at rest
  have ⟨rs', second, same⟩ := rest
  split_ifs at same with types
  cases same
  exact ⟨first, second, types⟩

theorem operand_numbers (all : List.Forall₂ Good symbols ms) {ls rs : Symbol}
    (found : operands symbols l r = some (ls, rs)) {a b : Int}
    (known : numbers ms l r = some (a, b)) : (ls.u.toNat : Int) = a ∧ (rs.u.toNat : Int) = b := by
  have ⟨first, second, lunsigned, runsigned, _⟩ := operands_some found
  unfold numbers at known
  rw [Option.bind_eq_some_iff] at known
  have ⟨a', left, rest⟩ := known
  rw [Option.map_eq_some_iff] at rest
  have ⟨b', right, same⟩ := rest
  cases same
  have lvalue := operand_number all first left
  have rvalue := operand_number all second right
  rw [value_unsigned lunsigned] at lvalue
  rw [value_unsigned runsigned] at rvalue
  exact ⟨lvalue, rvalue⟩

theorem masked_inRange (tp : Ty) (x : BitVec 64) : tp.InRange (Symbol.mk tp (x &&& ones tp.size)).value ↔
      (tp.signed = true → tp.size < 8 → x.toNat % 2 ^ tp.width < 2 ^ (tp.width - 1)) := by
  cases signed : tp.signed with
  | false =>
    have fits := @inRange_masked ⟨tp, x &&& ones tp.size⟩ signed x rfl
    simp only [fits, Bool.false_eq_true, false_implies]
  | true =>
    have table := tp.width_table
    have whole := @inRange_whole ⟨tp, x &&& ones tp.size⟩ signed
    have below : x.toNat % 2 ^ tp.width < 2 ^ tp.width := Nat.mod_lt _ (Nat.two_pow_pos _)
    by_cases short : tp.size < 8
    · have narrow : tp.width < 64 := by
        unfold Ty.width
        omega
      rw [Ty.inRange_signed _ signed, value_signed signed, tp.and_ones]
      simp only [short, forall_const]
      generalize x.toNat % 2 ^ tp.width = low at *
      rcases table with w | w | w | w
      · rw [w] at below ⊢
        split_ifs <;> omega
      · rw [w] at below ⊢
        split_ifs <;> omega
      · rw [w] at below ⊢
        split_ifs <;> omega
      · omega
    · simp only [whole short, short, false_implies, forall_const]

theorem masked_good {tp : Ty} {x : BitVec 64} {value : Option Int}
    (congruent : ∀ v, value = some v → (x.toNat : Int) ≡ v [ZMOD 2 ^ tp.width]) :
    Good ⟨tp, x &&& ones tp.size⟩ ⟨tp, value⟩ ↔
      (tp.signed = true → tp.size < 8 → x.toNat % 2 ^ tp.width < 2 ^ (tp.width - 1)) := by
  unfold Good
  rw [masked_inRange]
  constructor
  · rintro ⟨_, positive, _⟩
    exact positive
  · intro positive
    exact ⟨rfl, positive, fun v known => (masked_modEq tp x).trans (congruent v known)⟩

theorem cast_good (all : List.Forall₂ Good symbols ms) {newtp : Ty}
    (made : created symbols (.cast newtp l) = some sym) :
    Good sym (meaning ms (.cast newtp l)) ↔ Fits symbols (.cast newtp l) := by
  unfold created at made
  rw [Option.map_eq_some_iff] at made
  have ⟨osym, found, same⟩ := made
  have type := foldcast_type newtp osym
  unfold Good meaning Fits
  rw [← same]
  simp only [found, Option.some.injEq, forall_eq', type, foldcast_inRange, true_and]
  constructor
  · intro good
    exact good.1
  · intro fits
    refine ⟨fits, ?_⟩
    intro v known
    rw [← operand_number all found known]
    exact foldcast_modEq newtp osym

theorem bit_positive (tp : Ty) (p : Prop) [Decidable p] :
    (bit p).toNat % 2 ^ tp.width < 2 ^ (tp.width - 1) := by
  have table := tp.width_table
  have flag := bit_toNat p
  have small : (bit p).toNat ≤ 1 := by
    rw [flag]
    split_ifs <;> decide
  rcases table with w | w | w | w
  · rw [w]
    omega
  · rw [w]
    omega
  · rw [w]
    omega
  · rw [w]
    omega

theorem unary_good (all : List.Forall₂ Good symbols ms) {op : Unary} {tp : Ty}
    (made : created symbols (.unary op tp l) = some sym) : Good sym (meaning ms (.unary op tp l)) := by
  unfold created at made
  rw [Option.bind_eq_some_iff] at made
  have ⟨ls, found, same⟩ := made
  split_ifs at same with types
  cases same
  apply (masked_good _).mpr
  · intro signed _
    have negation : op = .ONEG := by
      rcases types.2 with negation | ⟨unsigned, _⟩
      · exact negation
      · rw [signed] at unsigned
        cases unsigned
    rw [negation, unary]
    exact bit_positive tp _
  · intro v known
    rw [Option.map_eq_some_iff] at known
    have ⟨a, number, value⟩ := known
    have operand := operand_number all found number
    rw [value_unsigned types.1] at operand
    rw [← value, ← operand]
    exact unary_modEq op ls.u tp.width_le

theorem binary_good (all : List.Forall₂ Good symbols ms) {op : Binary} {tp : Ty}
    (made : created symbols (.binary op tp l r) = some sym) :
    Good sym (meaning ms (.binary op tp l r)) ↔ Fits symbols (.binary op tp l r) := by
  unfold created at made
  rw [Option.bind_eq_some_iff] at made
  have ⟨⟨ls, rs⟩, found, same⟩ := made
  dsimp only at same
  split_ifs at same with refused
  cases same
  have ⟨_, right⟩ := not_or.mp refused
  have congruent : ∀ v, ((numbers ms l r).bind fun (a, b) => binaryValue op tp.width a b) = some v →
      ((binary op ls.u rs.u).toNat : Int) ≡ v [ZMOD 2 ^ tp.width] := by
    intro v known
    rw [Option.bind_eq_some_iff] at known
    have ⟨(a, b), pair, value⟩ := known
    have ⟨lvalue, rvalue⟩ := operand_numbers all found pair
    dsimp only at value
    rw [← lvalue, ← rvalue] at value
    exact binary_modEq op ls.u rs.u tp.width_le value
  rw [meaning, masked_good congruent]
  by_cases difference : op = .OSUB
  · subst difference
    have low := binary_modEq .OSUB ls.u rs.u tp.width_le rfl
    unfold Fits
    simp only [found, Option.some.injEq, Prod.mk.injEq, and_imp, forall_eq', forall_apply_eq_imp_iff]
    rw [← low.eq]
    norm_cast
  · have unsigned : tp.signed = false := by
      simp only [typed, Bool.not_eq_false, Bool.or_eq_true, Bool.and_eq_true, beq_iff_eq, difference,
        false_and, or_false, Bool.not_eq_true'] at right
      exact right.1
    have trivially : Fits symbols (.binary op tp l r) := by
      cases op <;> first | exact trivial | exact absurd rfl difference
    simp only [unsigned, trivially, Bool.false_eq_true, false_implies]

theorem test_small (op : Test) (l r : BitVec 64) : (test op l r).toNat ≤ 1 := by
  cases op <;> unfold test <;> rw [bit_toNat] <;> split_ifs <;> decide

theorem small_inRange (tp : Ty) {n : Nat} (small : n ≤ 1) : tp.InRange n := by
  have table := tp.width_table
  unfold Ty.InRange
  rcases table with w | w | w | w
  · rw [w]
    split_ifs <;> omega
  · rw [w]
    split_ifs <;> omega
  · rw [w]
    split_ifs <;> omega
  · rw [w]
    split_ifs <;> omega

theorem test_good (all : List.Forall₂ Good symbols ms) {op : Test} {tp : Ty}
    (made : created symbols (.test op tp l r) = some sym) : Good sym (meaning ms (.test op tp l r)) := by
  unfold created at made
  rw [Option.map_eq_some_iff] at made
  have ⟨⟨ls, rs⟩, found, same⟩ := made
  cases same
  have small := test_small op ls.u rs.u
  have value : (Symbol.mk tp (test op ls.u rs.u)).value = (test op ls.u rs.u).toNat := by
    cases signed : tp.signed with
    | false => exact value_unsigned signed
    | true =>
      rw [value_signed signed]
      exact if_pos (by dsimp only; omega)
  refine ⟨rfl, ?_, ?_⟩
  · rw [value]
    exact small_inRange tp small
  · intro v known
    rw [value, test_value]
    have pair := Option.map_eq_some_iff.mp known
    have ⟨(a, b), operand, same⟩ := pair
    have ⟨lvalue, rvalue⟩ := operand_numbers all found operand
    rw [lvalue, rvalue]
    exact same ▸ Int.ModEq.refl _

theorem step_good (all : List.Forall₂ Good symbols ms) {step : Step}
    (made : created symbols step = some sym) : Good sym (meaning ms step) ↔ Fits symbols step := by
  cases step with
  | cast newtp l => exact cast_good all made
  | unary op tp l => exact iff_of_true (unary_good all made) trivial
  | binary op tp l r => exact binary_good all made
  | test op tp l r => exact iff_of_true (test_good all made) trivial

theorem run_suffix {steps : List Step} {final : List Symbol} (ran : run symbols steps = some final)
    (all : List.Forall₂ Good final (meanings ms steps)) : List.Forall₂ Good symbols ms := by
  induction steps generalizing symbols ms with
  | nil =>
    cases ran
    exact all
  | cons step steps ih =>
    have ⟨sym, _, rest⟩ := Option.bind_eq_some_iff.mp ran
    have longer : List.Forall₂ Good (sym :: symbols) (meaning ms step :: ms) := ih rest all
    exact (List.forall₂_cons.mp longer).2

theorem run_good (all : List.Forall₂ Good symbols ms) {steps : List Step} {final : List Symbol}
    (ran : run symbols steps = some final) :
    List.Forall₂ Good final (meanings ms steps) ↔ AllFit symbols steps := by
  induction steps generalizing symbols ms with
  | nil =>
    cases ran
    exact iff_of_true all trivial
  | cons step steps ih =>
    have ⟨sym, made, rest⟩ := Option.bind_eq_some_iff.mp ran
    have good := step_good all made
    rw [AllFit]
    simp only [made, Option.some.injEq, forall_eq']
    rw [← good]
    constructor
    · intro finally_
      have longer : List.Forall₂ Good (sym :: symbols) (meaning ms step :: ms) :=
        run_suffix rest finally_
      exact ⟨(List.forall₂_cons.mp longer).1, (ih longer rest).mp finally_⟩
    · rintro ⟨head, fit⟩
      exact (ih (List.Forall₂.cons head all) rest).mpr fit

theorem start_good (inRange : ∀ sym ∈ symbols, sym.type.InRange sym.value) :
    List.Forall₂ Good symbols (symbols.map Symbol.meaning) := by
  rw [List.forall₂_map_right_iff, List.forall₂_same]
  intro sym member
  refine ⟨rfl, inRange sym member, ?_⟩
  intro v known
  cases known
  exact Int.ModEq.refl _

/-- From constants in range, all constants of a run are in range and congruent to their mathematical
values if and only if every step fits. -/
theorem constants_good_iff (symbols final : List Symbol) (steps : List Step)
    (inRange : ∀ sym ∈ symbols, sym.type.InRange sym.value) (ran : run symbols steps = some final) :
    List.Forall₂ Good final (meanings (symbols.map Symbol.meaning) steps) ↔ AllFit symbols steps :=
  run_good (start_good inRange) ran

theorem int_ne_ptr : TypeOp.INT = .PTR → true = false := by
  intro same
  cases same

theorem int_size : 4 = 1 ∨ 4 = 2 ∨ 4 = 4 ∨ 4 = 8 := .inr (.inr (.inl rfl))

def int : Ty := ⟨.INT, 4, true, int_size, int_ne_ptr⟩

def schar : Ty := ⟨.INT, 1, true, .inl rfl, int_ne_ptr⟩

theorem negative_cast_good : List.Forall₂ Good [⟨schar, -1⟩, ⟨int, 0xff⟩]
        (meanings [Symbol.meaning ⟨int, 0xff⟩] [.cast schar 0]) ↔ AllFit [⟨int, 0xff⟩] [.cast schar 0] :=
  constants_good_iff [⟨int, 0xff⟩] [⟨schar, -1⟩, ⟨int, 0xff⟩] [.cast schar 0]
    (by simp only [List.mem_singleton, forall_eq]; decide) rfl

/-- `(signed char) 0x101` is a constant of 257. -/
theorem cast_out_of_range : ¬ ∀ (symbols final : List Symbol) (steps : List Step),
    (∀ sym ∈ symbols, sym.type.InRange sym.value) → run symbols steps = some final →
      List.Forall₂ Good final (meanings (symbols.map Symbol.meaning) steps) := by
  intro always
  have all := always [⟨int, 0x101⟩] [⟨schar, 0x101⟩, ⟨int, 0x101⟩] [.cast schar 0]
    (by simp only [List.mem_singleton, forall_eq]; decide) rfl
  have good := (List.forall₂_cons.mp all).1
  exact absurd good.2.1 (by decide)

end Scc.Cc1.FoldRange
