import Scc.As.MatchExact
import Scc.As.Z80Emit
import Scc.Lib.Shifts

/-!
# The branches of the PowerPC

`i_form()` and `b_form()` put the address of the target in the instruction, and take the own address away
from it when the target is absolute, not when it is relative. A displacement may be negative only there, and
it is not cut to its field then. `b_form()` puts the displacement nine bits too high.
-/

namespace Scc.As.Ppc

open Scc.Lib Scc.Lib.Shifts Scc.As.Match Scc.As.Match.Ppc

set_option autoImplicit false

inductive Cpu
  | PPC
  | PPC64

inductive Format
  | i_form
  | b_form

structure Op where
  str : String
  args : List (Elem Arg)
  size : Nat
  bytes : List UInt8
  format : Format

abbrev Emit := Except Z80.Failure (List UInt8)

/-- `np->sym->value` -/
def value : Match.Node Reg → Except Z80.Failure UInt64
  | .imm _ value => .ok value
  | _ => .error .fault

/-- The processor has the high byte first. -/
def emit_packed (ins : UInt64) : List UInt8 :=
  [(ins >>> 24).toUInt8, (ins >>> 16).toUInt8, (ins >>> 8).toUInt8, ins.toUInt8]

/-- The checks of `dst`, a `long long`. -/
def checkedDst (max : Int) (aa pc value : UInt64) : Except Z80.Failure UInt64 :=
  if value &&& 0x3 ≠ 0 then .error .error
  else
    let dst := if aa ≠ 0 then value - (pc - 4) else value
    if dst.toInt64.toInt < -max ∨ dst.toInt64.toInt > max then .error .error else .ok dst

def Op.opcd (op : Op) : UInt64 := (op.bytes.getD 0 0).toUInt64
def Op.aa (op : Op) : UInt64 := (op.bytes.getD 1 0).toUInt64
def Op.lk (op : Op) : UInt64 := (op.bytes.getD 2 0).toUInt64

def i_form (pc : UInt64) (op : Op) : List (Match.Node Reg) → Emit
  | np :: _ => do
      let dst ← checkedDst (1 <<< 23) op.aa pc (← value np)
      let li := dst >>> 2
      .ok (emit_packed (op.opcd <<< 26 ||| li <<< 2 ||| op.aa <<< 1 ||| op.lk))
  | _ => .error .fault

def b_form (pc : UInt64) (op : Op) : List (Match.Node Reg) → Emit
  | np0 :: np1 :: np2 :: _ => do
      let bo ← value np0
      let bi ← value np1
      let dst ← checkedDst (1 <<< 13) op.aa pc (← value np2)
      let bd := dst >>> 2
      .ok (emit_packed (op.opcd <<< 26 ||| bo <<< 21 ||| bi <<< 16 ||| bd <<< 11 ||| op.aa <<< 1 ||| op.lk))
  | _ => .error .fault

def runFormat (pc : UInt64) (op : Op) (args : List (Match.Node Reg)) : Emit :=
  match op.format with
  | .i_form => i_form pc op args
  | .b_form => b_form pc op args

/-- The loop over the rows of an instruction. -/
def select : List Op → List (Match.Node Reg) → Except Z80.Failure Op
  | [], _ => .error .error
  | op :: rows, args =>
    match match_ check (str2args op.args) args with
    | .success => .ok op
    | .failure => select rows args
    | .stop => .error .error
    | .beyond => .error .fault

def translate (rows : List Op) (pc : UInt64) (args : List (Match.Node Reg)) : Emit := do
  let op ← select rows args
  runFormat pc op args

def imm5 : Elem Arg := .once (.AIMM .AIMM5 (by decide))
def imm32 : Elem Arg := .once (.AIMM .AIMM32 (by decide))
def imm64 : Elem Arg := .once (.AIMM .AIMM64 (by decide))

/-- The branch instructions of `ops.dat`. -/
def optab (cpu : Cpu) : List Op :=
  let imm := match cpu with
    | .PPC => imm32
    | .PPC64 => imm64
  [⟨"B", [imm], 4, [18, 0, 0], .i_form⟩, ⟨"BA", [imm], 4, [18, 1, 0], .i_form⟩,
    ⟨"BL", [imm], 4, [18, 0, 1], .i_form⟩, ⟨"BLA", [imm], 4, [18, 1, 1], .i_form⟩,
    ⟨"BC", [imm5, imm5, imm], 4, [16, 0, 0], .b_form⟩, ⟨"BCA", [imm5, imm5, imm], 4, [16, 1, 0], .b_form⟩,
    ⟨"BCL", [imm5, imm5, imm], 4, [16, 0, 1], .b_form⟩, ⟨"BCLA", [imm5, imm5, imm], 4, [16, 1, 1], .b_form⟩]

def ins (cpu : Cpu) (str : String) : List Op := (optab cpu).filter fun op => op.str = str

def maxaddr : Nat := 0xFFFF

/-- A branch with its operands before the target. -/
inductive Form
  | i
  | b (bo bi : UInt64) (five : bo.toNat < 32 ∧ bi.toNat < 32)

structure Branch where
  form : Form
  aa : Bool
  lk : Bool

def Branch.str (branch : Branch) : String :=
  match branch.form, branch.aa, branch.lk with
  | .i, false, false => "B"
  | .i, true, false => "BA"
  | .i, false, true => "BL"
  | .i, true, true => "BLA"
  | .b _ _ _, false, false => "BC"
  | .b _ _ _, true, false => "BCA"
  | .b _ _ _, false, true => "BCL"
  | .b _ _ _, true, true => "BCLA"

/-- The operands; the target is a number or a label. -/
def Branch.args (branch : Branch) (isIden : Bool) (target : UInt64) : List (Match.Node Reg) :=
  match branch.form with
  | .i => [.imm isIden target]
  | .b bo bi _ => [.imm false bo, .imm false bi, .imm isIden target]

def Form.opcode : Form → Nat
  | .i => 18
  | .b _ _ _ => 16

/-- The bits of `LI` and `BD`. -/
def Form.width : Form → Nat
  | .i => 24
  | .b _ _ _ => 14

def extend (bits v : Nat) : Int := if v < 2 ^ (bits - 1) then v else (v : Int) - 2 ^ bits

def word (bytes : List UInt8) : Nat := gather [24, 16, 8, 0] bytes

def Branch.base (branch : Branch) (pc : UInt64) : Int := if branch.aa then 0 else pc.toNat

structure Branch.Decodes (branch : Branch) (pc target : UInt64) (ins : Nat) : Prop where
  opcode : ins / 2 ^ 26 = branch.form.opcode
  aa : ins / 2 % 2 = branch.aa.toNat
  lk : ins % 2 = branch.lk.toNat
  leads : branch.base pc + 4 * extend branch.form.width (ins / 4 % 2 ^ branch.form.width) = target.toNat

def Branch.InRange (branch : Branch) (pc target : UInt64) : Prop :=
  4 ∣ target.toNat ∧ 4 ∣ (target.toNat : Int) - branch.base pc ∧
    -2 ^ (branch.form.width + 1) ≤ (target.toNat : Int) - branch.base pc ∧
    (target.toNat : Int) - branch.base pc < 2 ^ (branch.form.width + 1)

/-- A target in range is branched to, any other one is an error. -/
def Branch.Right (cpu : Cpu) (branch : Branch) (pc : UInt64) (isIden : Bool) (target : UInt64) : Prop :=
  (branch.InRange pc target →
      ∃ bytes, translate (ins cpu branch.str) pc (branch.args isIden target) = .ok bytes ∧
        bytes.length = 4 ∧ branch.Decodes pc target (word bytes)) ∧
    (¬ branch.InRange pc target →
      translate (ins cpu branch.str) pc (branch.args isIden target) = .error .error)

/-- What `dst` is. -/
def Branch.distance (branch : Branch) (pc target : UInt64) : Int :=
  if branch.aa then (target.toNat : Int) - (pc.toNat - 4) else target.toNat

/-- The width that the operand has; no number has 64 bits. -/
def Cpu.Narrow (cpu : Cpu) (target : UInt64) : Prop :=
  match cpu with
  | .PPC => target.toNat ≤ 0xFFFFFFFF
  | .PPC64 => False

def Branch.Accepted (cpu : Cpu) (branch : Branch) (pc target : UInt64) : Prop :=
  cpu.Narrow target ∧ 4 ∣ target.toNat ∧
  -2 ^ (branch.form.width - 1) ≤ branch.distance pc target ∧
  branch.distance pc target ≤ 2 ^ (branch.form.width - 1)

/-- An address from where the target is met all the same. -/
def Branch.Met (branch : Branch) (pc target : UInt64) : Prop :=
  match branch.form, branch.aa with
  | .i, false => pc.toNat = 0
  | .i, true => 1 ≤ pc.toNat ∧ pc.toNat ≤ 4
  | .b _ _ _, false => pc.toNat + 2048 * extend 5 (target.toNat / 4 % 32) = target.toNat
  | .b _ _ _, true =>
    pc.toNat ≤ target.toNat + 4 ∧
      2048 * extend 5 ((target.toNat + 4 - pc.toNat) / 4 % 32) = target.toNat

theorem word_emit_packed (ins : UInt64) : word (emit_packed ins) = ins.toNat % 2 ^ 32 := by
  have bytes : emit_packed ins = scatter [24, 16, 8, 0] (ins.toNat % 2 ^ 32) := by
    rw [scatter_mod (by decide)]
    simp [emit_packed, scatter, ← UInt8.toNat_inj, Nat.shiftRight_eq_div_pow]
  have covers : Covers [24, 16, 8, 0] 32 := by
    unfold Covers
    decide
  rw [word, bytes, gather_scatter covers (Nat.mod_lt _ (by decide))]

/-- The fields of a word of which the middle leaves out two bits. -/
structure Fields (opcd mid aa lk : Nat) (w : Nat) : Prop where
  opcode : w / 2 ^ 26 = opcd ||| mid / 2 ^ 26 % 64
  aa : w / 2 % 2 = aa
  lk : w % 2 = lk
  low (width : Nat) (narrow : width ≤ 24) : w / 4 % 2 ^ width = mid / 4 % 2 ^ width

theorem fields_packed {opcd mid aa lk : UInt64} (six : opcd.toNat < 64) (aligned : 4 ∣ mid.toNat)
    (one : aa.toNat < 2) (one' : lk.toNat < 2) : Fields opcd.toNat mid.toNat aa.toNat lk.toNat
      (word (emit_packed (opcd <<< 26 ||| mid ||| aa <<< 1 ||| lk))) := by
  have high : (opcd <<< 26).toNat = opcd.toNat * 2 ^ 26 := by
    simp [UInt64.toNat_shiftLeft, Nat.shiftLeft_eq]
    omega
  have second : (aa <<< 1).toNat = aa.toNat * 2 := by
    simp [UInt64.toNat_shiftLeft, Nat.shiftLeft_eq]
    omega
  have midLow : mid.toNat % 2 = 0 ∧ mid.toNat / 2 % 2 = 0 := by omega
  rw [word_emit_packed, UInt64.toNat_or, UInt64.toNat_or, UInt64.toNat_or, high, second]
  generalize opcd.toNat = o at *
  generalize mid.toNat = m at *
  generalize aa.toNat = a at *
  generalize lk.toNat = l at *
  have quarter (width : Nat) (narrow : width ≤ 24) : o * 2 ^ 26 / 2 ^ 2 % 2 ^ width = 0 := by
    have split : o * 2 ^ 26 / 2 ^ 2 = o * 2 ^ (24 - width) * 2 ^ width := by
      rw [Nat.mul_assoc, ← Nat.pow_add, Nat.sub_add_cancel narrow]
      omega
    rw [split, Nat.mul_mod_left]
  constructor
  · have cut : (o * 2 ^ 26 ||| m ||| a * 2 ||| l) % 2 ^ 32 / 2 ^ 26 =
        (o * 2 ^ 26 ||| m ||| a * 2 ||| l) / 2 ^ 26 % 2 ^ 6 := by omega
    have top : o * 2 ^ 26 / 2 ^ 26 % 2 ^ 6 = o := by omega
    have none_ : a * 2 / 2 ^ 26 = 0 := by omega
    have none' : l / 2 ^ 26 = 0 := by omega
    rw [cut, Nat.or_div_two_pow, Nat.or_div_two_pow, Nat.or_div_two_pow, none_, none', Nat.or_zero,
      Nat.or_zero, Nat.or_mod_two_pow, top]
  · have cut : (o * 2 ^ 26 ||| m ||| a * 2 ||| l) % 2 ^ 32 / 2 % 2 =
        (o * 2 ^ 26 ||| m ||| a * 2 ||| l) / 2 ^ 1 % 2 ^ 1 := by omega
    have zero : o * 2 ^ 26 / 2 ^ 1 % 2 ^ 1 = 0 := by omega
    have zero' : m / 2 ^ 1 % 2 ^ 1 = 0 := midLow.2
    have here : a * 2 / 2 ^ 1 % 2 ^ 1 = a := by omega
    have none_ : l / 2 ^ 1 % 2 ^ 1 = 0 := by omega
    rw [cut, Nat.or_div_two_pow, Nat.or_div_two_pow, Nat.or_div_two_pow, Nat.or_mod_two_pow,
      Nat.or_mod_two_pow, Nat.or_mod_two_pow, zero, zero', here, none_]
    simp
  · have cut : (o * 2 ^ 26 ||| m ||| a * 2 ||| l) % 2 ^ 32 % 2 =
        (o * 2 ^ 26 ||| m ||| a * 2 ||| l) % 2 ^ 1 := by omega
    have zero : o * 2 ^ 26 % 2 ^ 1 = 0 := by omega
    have zero' : m % 2 ^ 1 = 0 := midLow.1
    have none_ : a * 2 % 2 ^ 1 = 0 := by omega
    have here : l % 2 ^ 1 = l := by omega
    rw [cut, Nat.or_mod_two_pow, Nat.or_mod_two_pow, Nat.or_mod_two_pow, zero, zero', none_, here]
    simp
  · intro width narrow
    have cut (w : Nat) : w % 2 ^ 32 / 4 % 2 ^ width = w / 2 ^ 2 % 2 ^ width := by
      have thirty : w % 2 ^ 32 / 4 = w / 2 ^ 2 % 2 ^ 30 := by omega
      rw [thirty, Nat.mod_mod_of_dvd _ (Nat.pow_dvd_pow 2 (by omega))]
    have none_ : a * 2 / 2 ^ 2 = 0 := by omega
    have none' : l / 2 ^ 2 = 0 := by omega
    rw [cut, Nat.or_div_two_pow, Nat.or_div_two_pow, Nat.or_div_two_pow, none_, none', Nat.or_zero,
      Nat.or_zero, Nat.or_mod_two_pow, quarter width narrow, Nat.zero_or]

def Cpu.imm : Cpu → Elem Arg
  | .PPC => imm32
  | .PPC64 => imm64

def bit (b : Bool) : UInt8 := if b then 1 else 0

def Branch.row (cpu : Cpu) (branch : Branch) : Op :=
  match branch.form with
  | .i => ⟨branch.str, [cpu.imm], 4, [18, bit branch.aa, bit branch.lk], .i_form⟩
  | .b _ _ _ => ⟨branch.str, [imm5, imm5, cpu.imm], 4, [16, bit branch.aa, bit branch.lk], .b_form⟩

variable (cpu : Cpu)

theorem ins_str (branch : Branch) : ins cpu branch.str = [branch.row cpu] := by
  rcases branch with ⟨form, aa, lk⟩
  cases cpu <;> cases form <;> cases aa <;> cases lk <;> rfl

instance (cpu : Cpu) (target : UInt64) : Decidable (cpu.Narrow target) := by
  unfold Cpu.Narrow
  cases cpu <;> infer_instance

theorem check_target (isIden : Bool) (target : UInt64) :
    check (cpu.imm).arg (.imm isIden target) = if cpu.Narrow target then .ok else .stop := by
  cases cpu with
  | PPC =>
    have wide : target > 0xFFFFFFFF ↔ ¬ target.toNat ≤ 0xFFFFFFFF := by
      rw [gt_iff_lt, UInt64.lt_iff_toNat_lt, Nat.not_le]
      rfl
    by_cases narrow : target.toNat ≤ 0xFFFFFFFF
    · simp [Cpu.imm, imm32, Elem.arg, check, checkImm, toobig, wide, Cpu.Narrow, narrow]
    · simp [Cpu.imm, imm32, Elem.arg, check, checkImm, toobig, wide, Cpu.Narrow, narrow]
  | PPC64 => rfl

theorem check_five {isIden : Bool} {value : UInt64} (five : value.toNat < 32) :
    check imm5.arg (.imm isIden value) = .ok := by
  have small : ¬ value > 0x1F := by
    rw [gt_iff_lt, UInt64.lt_iff_toNat_lt]
    exact Nat.not_lt.mpr (Nat.le_of_lt_succ five)
  simp [imm5, Elem.arg, check, checkImm, toobig, small]

theorem match_row (branch : Branch) (isIden : Bool) (target : UInt64) :
    match_ check (str2args (branch.row cpu).args) (branch.args isIden target) =
      if cpu.Narrow target then .success else .stop := by
  have last := check_target cpu isIden target
  have once : str2arg cpu.imm = [.arg cpu.imm.arg] := by cases cpu <;> rfl
  rcases branch with ⟨form, aa, lk⟩
  cases form with
  | i =>
    have pattern : str2args (Branch.row cpu ⟨.i, aa, lk⟩).args = [.arg cpu.imm.arg] := by
      simp [Branch.row, str2args, once]
    rw [pattern]
    simp only [Branch.args, match_, matchLoop, last, Bool.false_eq_true, if_false]
    split_ifs <;> rfl
  | b bo bi five =>
    have pattern : str2args (Branch.row cpu ⟨.b bo bi five, aa, lk⟩).args =
        [.arg imm5.arg, .arg imm5.arg, .arg cpu.imm.arg] := by
      simp only [Branch.row, str2args, List.flatMap_cons, List.flatMap_nil, once]
      rfl
    rw [pattern]
    simp only [Branch.args, match_, matchLoop, last, check_five five.1, check_five five.2,
      Bool.false_eq_true, if_false]
    split_ifs <;> rfl

theorem translate_eq (branch : Branch) (pc : UInt64) (isIden : Bool) (target : UInt64) :
    translate (ins cpu branch.str) pc (branch.args isIden target) =
      if cpu.Narrow target then runFormat pc (branch.row cpu) (branch.args isIden target)
      else .error .error := by
  unfold translate
  rw [ins_str, select, match_row]
  split_ifs <;> rfl

theorem and_three (v : UInt64) : v &&& 0x3 = 0 ↔ 4 ∣ v.toNat := by
  rw [← UInt64.toNat_inj, UInt64.toNat_and]
  have three : (0x3 : UInt64).toNat = 2 ^ 2 - 1 := rfl
  rw [three, Nat.and_two_pow_sub_one_eq_mod]
  exact (Nat.dvd_iff_mod_eq_zero).symm

def Branch.dst (branch : Branch) (pc target : UInt64) : UInt64 :=
  if branch.aa then target - (pc - 4) else target

theorem toInt_toInt64 (v : UInt64) :
    v.toInt64.toInt = if v.toNat < 2 ^ 63 then (v.toNat : Int) else (v.toNat : Int) - 2 ^ 64 := by
  have signed : v.toInt64.toInt = v.toBitVec.toInt := rfl
  rw [signed, BitVec.toInt_eq_toNat_cond, UInt64.toNat_toBitVec]
  split_ifs <;> omega

variable {pc target : UInt64} {branch : Branch}

theorem toInt_dst (branch : Branch) (room : pc.toNat ≤ maxaddr) (narrow : target.toNat ≤ 0xFFFFFFFF) :
    (branch.dst pc target).toInt64.toInt = branch.distance pc target := by
  have bound : pc.toNat ≤ 65535 := room
  rw [toInt_toInt64]
  unfold Branch.dst Branch.distance
  cases branch.aa with
  | false =>
    simp only [Bool.false_eq_true, if_false]
    rw [if_pos (by omega)]
  | true =>
    have four : (4 : UInt64).toNat = 4 := rfl
    simp only [if_true, UInt64.toNat_sub, four]
    split_ifs <;> omega

theorem checkedDst_eq (branch : Branch) (room : pc.toNat ≤ maxaddr)
    (narrow : cpu.Narrow target) (accepted : Decidable (branch.Accepted cpu pc target)) :
    checkedDst (2 ^ (branch.form.width - 1)) (bit branch.aa).toUInt64 pc target =
      if branch.Accepted cpu pc target then .ok (branch.dst pc target) else .error .error := by
  have small : target.toNat ≤ 0xFFFFFFFF := by
    cases cpu with
    | PPC => exact narrow
    | PPC64 => exact narrow.elim
  have which : (if (bit branch.aa).toUInt64 ≠ 0 then target - (pc - 4) else target) =
      branch.dst pc target := by
    unfold Branch.dst
    cases branch.aa <;> rfl
  unfold checkedDst
  rw [which]
  dsimp only
  rw [toInt_dst branch room small]
  by_cases aligned : 4 ∣ target.toNat
  · rw [if_neg (not_not.mpr ((and_three target).mpr aligned))]
    by_cases inside : -2 ^ (branch.form.width - 1) ≤ branch.distance pc target ∧
        branch.distance pc target ≤ 2 ^ (branch.form.width - 1)
    · rw [if_pos (show branch.Accepted cpu pc target from ⟨narrow, aligned, inside⟩)]
      rw [if_neg (by omega)]
    · rw [if_neg (show ¬ branch.Accepted cpu pc target from fun h => inside h.2.2)]
      rw [if_pos (by omega)]
  · rw [if_pos (mt (and_three target).mp aligned),
      if_neg (show ¬ branch.Accepted cpu pc target from fun h => aligned h.2.1)]

/-- The bits between the opcode and `AA`. -/
def Branch.middle (branch : Branch) (dst : UInt64) : UInt64 :=
  match branch.form with
  | .i => (dst >>> 2) <<< 2
  | .b bo bi _ => bo <<< 21 ||| bi <<< 16 ||| (dst >>> 2) <<< 11

theorem runFormat_eq (branch : Branch) (isIden : Bool)
    (room : pc.toNat ≤ maxaddr) (narrow : cpu.Narrow target)
    (accepted : Decidable (branch.Accepted cpu pc target)) :
    runFormat pc (branch.row cpu) (branch.args isIden target) =
      if branch.Accepted cpu pc target then
        .ok (emit_packed (branch.form.opcode.toUInt64 <<< 26 ||| branch.middle (branch.dst pc target) |||
          (bit branch.aa).toUInt64 <<< 1 ||| (bit branch.lk).toUInt64)) else .error .error := by
  have checked := checkedDst_eq cpu branch room narrow accepted
  rcases branch with ⟨form, aa, lk⟩
  cases form with
  | i =>
    have here : checkedDst (1 <<< 23) (bit aa).toUInt64 pc target = _ := checked
    change (checkedDst (1 <<< 23) (bit aa).toUInt64 pc target >>= _) = _
    rw [here]
    split_ifs <;> rfl
  | b bo bi five =>
    have here : checkedDst (1 <<< 13) (bit aa).toUInt64 pc target = _ := checked
    change (checkedDst (1 <<< 13) (bit aa).toUInt64 pc target >>= _) = _
    rw [here]
    split_ifs with accepted'
    · change Except.ok _ = Except.ok _
      rw [Except.ok.injEq]
      apply congrArg emit_packed
      simp only [Branch.middle, UInt64.or_assoc]
      rfl
    · rfl

/-- What the field of the displacement is for a distance that is not negative. -/
def Form.field : Form → Nat → Nat
  | .i, distance => distance / 4
  | .b _ _ _, distance => distance / 4 % 32 * 512

theorem toNat_middle_i (dst : UInt64) (aa lk : Bool) :
    (Branch.middle ⟨.i, aa, lk⟩ dst).toNat = dst.toNat / 4 * 4 := by
  have below := dst.toNat_lt
  simp [Branch.middle, UInt64.toNat_shiftLeft, UInt64.toNat_shiftRight, Nat.shiftLeft_eq,
    Nat.shiftRight_eq_div_pow]
  omega

theorem toNat_middle_b {bo bi : UInt64} (five : bo.toNat < 32 ∧ bi.toNat < 32) (dst : UInt64) (aa lk : Bool) :
    (Branch.middle ⟨.b bo bi five, aa, lk⟩ dst).toNat =
      bo.toNat * 2 ^ 21 ||| bi.toNat * 2 ^ 16 ||| dst.toNat / 4 * 2 ^ 11 % 2 ^ 64 := by
  have left : (bo <<< 21).toNat = bo.toNat * 2 ^ 21 := by
    simp [UInt64.toNat_shiftLeft, Nat.shiftLeft_eq]
    omega
  have right : (bi <<< 16).toNat = bi.toNat * 2 ^ 16 := by
    simp [UInt64.toNat_shiftLeft, Nat.shiftLeft_eq]
    omega
  have moved : ((dst >>> 2) <<< 11).toNat = dst.toNat / 4 * 2 ^ 11 % 2 ^ 64 := by
    simp [UInt64.toNat_shiftLeft, UInt64.toNat_shiftRight, Nat.shiftLeft_eq, Nat.shiftRight_eq_div_pow]
  simp only [Branch.middle, UInt64.toNat_or, left, right, moved]

structure FiveBits (v place : Nat) : Prop where
  low : v * 2 ^ place % 2 ^ 2 = 0
  field : v * 2 ^ place / 2 ^ 2 % 2 ^ 14 = 0
  high : v * 2 ^ place / 2 ^ 26 = 0

theorem bits_bo {bo : Nat} (five : bo < 32) : FiveBits bo 21 := by
  constructor <;> omega

theorem bits_bi {bi : Nat} (five : bi < 32) : FiveBits bi 16 := by
  constructor <;> omega

theorem four_dvd_middle (branch : Branch) (dst : UInt64) : 4 ∣ (branch.middle dst).toNat := by
  rcases branch with ⟨form, aa, lk⟩
  cases form with
  | i =>
    rw [toNat_middle_i]
    exact Nat.dvd_mul_left 4 _
  | b bo bi five =>
    have aligned : dst.toNat / 4 * 2 ^ 11 % 2 ^ 64 % 2 ^ 2 = 0 := by omega
    apply Nat.dvd_of_mod_eq_zero
    change _ % 2 ^ 2 = 0
    rw [toNat_middle_b, Nat.or_mod_two_pow, Nat.or_mod_two_pow, (bits_bo five.1).low, (bits_bi five.2).low,
      aligned]
    rfl

/-- A distance that is not negative stays below the opcode. -/
theorem middle_nonneg (branch : Branch) {dst : UInt64} (small : dst.toNat ≤ 2 ^ (branch.form.width - 1)) :
    (branch.middle dst).toNat / 2 ^ 26 % 64 = 0 ∧
      (branch.middle dst).toNat / 4 % 2 ^ branch.form.width = branch.form.field dst.toNat := by
  rcases branch with ⟨form, aa, lk⟩
  cases form with
  | i =>
    have bound : dst.toNat ≤ 2 ^ 23 := small
    rw [toNat_middle_i]
    simp only [Form.width, Form.field]
    omega
  | b bo bi five =>
    have bound : dst.toNat ≤ 2 ^ 13 := small
    have whole : dst.toNat / 4 * 2 ^ 11 % 2 ^ 64 = dst.toNat / 4 * 2 ^ 11 := by omega
    rw [toNat_middle_b, whole]
    have small' : dst.toNat / 4 * 2 ^ 11 / 2 ^ 26 = 0 := by
      clear whole
      omega
    have low : dst.toNat / 4 * 2 ^ 11 / 2 ^ 2 % 2 ^ 14 = dst.toNat / 4 % 32 * 512 := by
      clear whole small'
      omega
    constructor
    · rw [Nat.or_div_two_pow, Nat.or_div_two_pow, (bits_bo five.1).high, (bits_bi five.2).high, small']
      rfl
    · change _ / 2 ^ 2 % 2 ^ 14 = dst.toNat / 4 % 32 * 512
      rw [Nat.or_div_two_pow, Nat.or_div_two_pow, Nat.or_mod_two_pow, Nat.or_mod_two_pow,
        (bits_bo five.1).field, (bits_bi five.2).field, low, Nat.or_zero, Nat.zero_or]

/-- The sign of a negative one is in all the bits of the opcode. -/
theorem middle_neg (branch : Branch) {dst : UInt64}
    (large : 2 ^ 64 ≤ dst.toNat + 2 ^ (branch.form.width - 1)) :
    (branch.middle dst).toNat / 2 ^ 26 % 64 = 63 := by
  have below := dst.toNat_lt
  rcases branch with ⟨form, aa, lk⟩
  cases form with
  | i =>
    have bound : 2 ^ 64 ≤ dst.toNat + 2 ^ 23 := large
    rw [toNat_middle_i]
    omega
  | b bo bi five =>
    have bound : 2 ^ 64 ≤ dst.toNat + 2 ^ 13 := large
    have ones : dst.toNat / 4 * 2 ^ 11 % 2 ^ 64 / 2 ^ 26 % 2 ^ 6 = 63 := by omega
    change _ % 2 ^ 6 = 63
    rw [toNat_middle_b, Nat.or_div_two_pow, Nat.or_div_two_pow, (bits_bo five.1).high,
      (bits_bi five.2).high, Nat.or_zero, Nat.zero_or, ones]

theorem Form.opcode_or (form : Form) : form.opcode ||| 63 ≠ form.opcode := by
  cases form with
  | i => decide
  | b bo bi five => exact (by decide : 16 ||| 63 ≠ 16)

theorem Form.width_le (form : Form) : form.width ≤ 24 := by
  cases form with
  | i => decide
  | b bo bi five => exact (by decide : 14 ≤ 24)

theorem leads_iff (branch : Branch) (aligned : 4 ∣ target.toNat) (nonneg : 0 ≤ branch.distance pc target)
    (small : branch.distance pc target ≤ 2 ^ (branch.form.width - 1)) :
    branch.base pc + 4 * extend branch.form.width (branch.form.field (branch.distance pc target).toNat) =
        target.toNat ↔ branch.Met pc target := by
  rcases branch with ⟨form, aa, lk⟩
  cases form with
  | i =>
    have plain : ∀ d : Nat, d ≤ 2 ^ 23 → extend 24 (d / 4) = (d / 4 : Nat) := by
      intro d bound
      have inside : d / 4 < 2 ^ (24 - 1) := by omega
      rw [extend, if_pos inside]
    have bound : Branch.distance ⟨.i, aa, lk⟩ pc target ≤ 2 ^ 23 := small
    have half := plain (Branch.distance ⟨.i, aa, lk⟩ pc target).toNat (by omega)
    simp only [Form.width, Form.field, half]
    cases aa with
    | false =>
      simp only [Branch.base, Branch.Met, Branch.distance, Bool.false_eq_true, if_false]
      omega
    | true =>
      simp only [Branch.base, Branch.Met, Branch.distance, if_true] at nonneg ⊢
      omega
  | b bo bi five =>
    have shifted : ∀ x : Nat, x < 32 → 4 * extend 14 (x * 512) = 2048 * extend 5 x := by
      intro x bound
      unfold extend
      split_ifs <;> omega
    have high := shifted ((Branch.distance ⟨.b bo bi five, aa, lk⟩ pc target).toNat / 4 % 32)
      (Nat.mod_lt _ (by decide))
    simp only [Form.width, Form.field, high]
    cases aa with
    | false =>
      simp only [Branch.base, Branch.Met, Branch.distance, Bool.false_eq_true, if_false, Int.toNat_natCast]
    | true =>
      simp only [Branch.base, Branch.Met, Branch.distance, if_true] at nonneg ⊢
      have same : ((target.toNat : Int) - (pc.toNat - 4)).toNat = target.toNat + 4 - pc.toNat := by omega
      rw [same, Int.zero_add]
      constructor
      · intro leads
        exact ⟨by omega, leads⟩
      · intro met
        exact met.2

theorem extend_five (x : Nat) (bound : x < 32) : -16 ≤ extend 5 x ∧ extend 5 x < 16 := by
  unfold extend
  split_ifs <;> omega

theorem nonneg_of_met (met : branch.Met pc target) : 0 ≤ branch.distance pc target := by
  rcases branch with ⟨form, aa, lk⟩
  unfold Branch.distance
  cases aa with
  | false => exact Int.natCast_nonneg _
  | true =>
    cases form with
    | i =>
      have near : 1 ≤ pc.toNat ∧ pc.toNat ≤ 4 := met
      rw [if_pos rfl]
      omega
    | b bo bi five =>
      have near : pc.toNat ≤ target.toNat + 4 := met.1
      rw [if_pos rfl]
      omega

theorem inRange_of_met {cpu : Cpu}
    (accepted : branch.Accepted cpu pc target) (met : branch.Met pc target) : branch.InRange pc target := by
  have aligned := accepted.2.1
  have small := accepted.2.2.2
  rcases branch with ⟨form, aa, lk⟩
  unfold Branch.InRange
  cases form with
  | i =>
    cases aa with
    | false =>
      have zero : pc.toNat = 0 := met
      simp only [Branch.base, Branch.distance, Form.width, Bool.false_eq_true, if_false] at small ⊢
      omega
    | true =>
      have near : 1 ≤ pc.toNat ∧ pc.toNat ≤ 4 := met
      simp only [Branch.base, Branch.distance, Form.width, if_true] at small ⊢
      omega
  | b bo bi five =>
    cases aa with
    | false =>
      have leads : (pc.toNat : Int) + 2048 * extend 5 (target.toNat / 4 % 32) = target.toNat := met
      have bits := extend_five (target.toNat / 4 % 32) (Nat.mod_lt _ (by decide))
      simp only [Branch.base, Form.width, Bool.false_eq_true, if_false]
      omega
    | true =>
      have leads : 2048 * extend 5 ((target.toNat + 4 - pc.toNat) / 4 % 32) = (target.toNat : Int) := met.2
      have bits := extend_five ((target.toNat + 4 - pc.toNat) / 4 % 32) (Nat.mod_lt _ (by decide))
      simp only [Branch.base, Form.width, if_true]
      omega

def Branch.packed (branch : Branch) (pc target : UInt64) : List UInt8 :=
  emit_packed (branch.form.opcode.toUInt64 <<< 26 ||| branch.middle (branch.dst pc target) |||
    (bit branch.aa).toUInt64 <<< 1 ||| (bit branch.lk).toUInt64)

theorem fields_branch (branch : Branch) (pc target : UInt64) :
    Fields branch.form.opcode (branch.middle (branch.dst pc target)).toNat branch.aa.toNat branch.lk.toNat
      (word (branch.packed pc target)) := by
  have opcode : branch.form.opcode.toUInt64.toNat = branch.form.opcode := by
    cases branch.form <;> rfl
  have one (b : Bool) : (bit b).toUInt64.toNat = b.toNat := by
    cases b <;> rfl
  have six : branch.form.opcode < 64 := by
    cases branch.form with
    | i => exact (by decide : 18 < 64)
    | b bo bi five => exact (by decide : 16 < 64)
  have fields := @fields_packed branch.form.opcode.toUInt64 (branch.middle (branch.dst pc target))
    (bit branch.aa).toUInt64 (bit branch.lk).toUInt64 (by rw [opcode]; exact six)
    (four_dvd_middle branch _) (by rw [one]; exact Bool.toNat_lt _) (by rw [one]; exact Bool.toNat_lt _)
  rw [opcode, one, one] at fields
  exact fields

theorem decodes_iff {cpu : Cpu} (room : pc.toNat ≤ maxaddr) (accepted : branch.Accepted cpu pc target) :
    branch.Decodes pc target (word (branch.packed pc target)) ↔ branch.Met pc target := by
  have fields := fields_branch branch pc target
  have small : target.toNat ≤ 0xFFFFFFFF := by
    cases cpu with
    | PPC => exact accepted.1
    | PPC64 => exact accepted.1.elim
  have signed := toInt_dst branch room small
  have below := (branch.dst pc target).toNat_lt
  have most : (2 : Int) ^ (branch.form.width - 1) ≤ 2 ^ 23 := by
    cases branch.form with
    | i => exact (by decide : (2 : Int) ^ 23 ≤ 2 ^ 23)
    | b bo bi five => exact (by decide : (2 : Int) ^ 13 ≤ 2 ^ 23)
  have power : (((2 : Nat) ^ (branch.form.width - 1) : Nat) : Int) = (2 : Int) ^ (branch.form.width - 1) :=
    Int.natCast_pow 2 _
  have least := accepted.2.2.1
  have greatest := accepted.2.2.2
  rw [toInt_toInt64] at signed
  by_cases nonneg : 0 ≤ branch.distance pc target
  · have toNat : (branch.dst pc target).toNat = (branch.distance pc target).toNat := by
      split_ifs at signed <;> omega
    have plain := @middle_nonneg branch (branch.dst pc target) (by rw [toNat]; omega)
    have leads := leads_iff branch accepted.2.1 nonneg greatest
    rw [← toNat, ← plain.2, ← fields.low _ branch.form.width_le] at leads
    constructor
    · intro decodes
      exact leads.mp decodes.leads
    · intro met
      exact ⟨by rw [fields.opcode, plain.1, Nat.or_zero], fields.aa, fields.lk, leads.mpr met⟩
  · have toNat : ((branch.dst pc target).toNat : Int) = branch.distance pc target + 2 ^ 64 := by
      split_ifs at signed <;> omega
    have sign := @middle_neg branch (branch.dst pc target) (by omega)
    constructor
    · intro decodes
      have opcode := decodes.opcode
      rw [fields.opcode, sign] at opcode
      exact absurd opcode branch.form.opcode_or
    · intro met
      exact absurd (nonneg_of_met met) nonneg

open Classical in
theorem translate_branch (branch : Branch) (isIden : Bool) (target : UInt64) (room : pc.toNat ≤ maxaddr) :
    translate (ins cpu branch.str) pc (branch.args isIden target) =
      if branch.Accepted cpu pc target then .ok (branch.packed pc target) else .error .error := by
  rw [translate_eq]
  by_cases narrow : cpu.Narrow target
  · rw [if_pos narrow, runFormat_eq cpu branch isIden room narrow (Classical.propDecidable _)]
    rfl
  · rw [if_neg narrow, if_neg (fun accepted => narrow accepted.1)]

/-- A branch is right for the targets that are met from its address, and for those that are neither taken nor
in range. -/
theorem branch_right_iff (cpu : Cpu) (branch : Branch) (pc : UInt64) (isIden : Bool) (target : UInt64)
    (room : pc.toNat ≤ maxaddr) : branch.Right cpu pc isIden target ↔
      (branch.Accepted cpu pc target ∧ branch.Met pc target) ∨
        (¬ branch.Accepted cpu pc target ∧ ¬ branch.InRange pc target) := by
  have translated := translate_branch cpu branch isIden target room
  unfold Branch.Right
  by_cases accepted : branch.Accepted cpu pc target
  · have decodes := decodes_iff room accepted
    rw [if_pos accepted] at translated
    rw [translated]
    constructor
    · intro right
      left
      refine ⟨accepted, ?_⟩
      by_contra missed
      by_cases inRange : branch.InRange pc target
      · rcases right.1 inRange with ⟨bytes, emitted, _, decoded⟩
        rw [Except.ok.injEq] at emitted
        rw [← emitted] at decoded
        exact missed (decodes.mp decoded)
      · cases right.2 inRange
    · intro cases_
      rcases cases_ with ⟨_, met⟩ | ⟨refused, _⟩
      · constructor
        · intro _
          exact ⟨branch.packed pc target, rfl, rfl, decodes.mpr met⟩
        · intro outside
          exact absurd (inRange_of_met accepted met) outside
      · exact absurd accepted refused
  · rw [if_neg accepted] at translated
    rw [translated]
    constructor
    · intro right
      right
      refine ⟨accepted, ?_⟩
      intro inRange
      rcases right.1 inRange with ⟨bytes, emitted, _⟩
      cases emitted
    · intro cases_
      rcases cases_ with ⟨taken, _⟩ | ⟨_, outside⟩
      · exact absurd taken accepted
      · exact ⟨fun inRange => absurd inRange outside, fun _ => rfl⟩

/-- `BL $L1` at the address 8 with `L1` at 12 -/
theorem bl_not_right : ¬ Branch.Right .PPC ⟨.i, false, true⟩ 8 true 12 := by
  intro right
  have inRange : Branch.InRange ⟨.i, false, true⟩ 8 12 := by
    unfold Branch.InRange
    decide
  rcases right.1 inRange with ⟨bytes, emitted, _, decodes⟩
  have word : translate (ins .PPC "BL") 8 [.imm true 12] = .ok [0x48, 0x00, 0x00, 0x0D] := rfl
  have same : bytes = [0x48, 0x00, 0x00, 0x0D] := Except.ok.inj (emitted.symm.trans word)
  rw [same] at decodes
  exact absurd decodes.leads (by decide)

theorem b_right : Branch.Right .PPC ⟨.i, false, false⟩ 0 true 12 :=
  (branch_right_iff .PPC ⟨.i, false, false⟩ 0 true 12 (by decide)).mpr
    (.inl ⟨⟨by decide, by decide, by decide, by decide⟩, rfl⟩)

end Scc.As.Ppc
