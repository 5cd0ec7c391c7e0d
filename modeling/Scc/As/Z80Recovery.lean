import Scc.As.Z80Rows

/-!
# Which operands the Z80 instructions keep

The rows of the table are sorted by how their format writes the numbers, and a line keeps its
operands when they fit the selected row.
-/

namespace Scc.As.Z80

open Scc.Lib Scc.As.Match Scc.As.Match.X80

set_option autoImplicit false

/-- The rows without a number have any shape. -/
def numberlessShape (args : List (Elem Arg)) : Bool := args.all fun e => numberless e.arg

def ld8Shape : List (Elem Arg) → List UInt8 → Bool
  | [.once a, .once (.AIMM .AIMM8 _)], [_, _] => leads a
  | [.once a, .once (.AIMM .AIMM8 _)], [_, _, _] => leads a
  | args, _ => numberlessShape args

def idxShape : List (Elem Arg) → List UInt8 → Bool
  | [.once (.AINDEX _ _), .once (.AIMM .AIMM8 _)], [_, _, _, _] => true
  | [.once (.AINDEX _ _), .once a], [_, _, _] => writes reg2int a
  | [.once a, .once (.AINDEX _ _)], [_, _, _] => writes reg2int a
  | args, _ => numberlessShape args

def dirShape : List (Elem Arg) → List UInt8 → Bool
  | [.once .ADIRECT, .once a], [_, _, _] => writes reg2int a
  | [.once a, .once .ADIRECT], [_, _, _] => writes reg2int a
  | args, _ => numberlessShape args

def ld16Shape : List (Elem Arg) → List UInt8 → Bool
  | [.once .ADIRECT, .once a], [_, _, _] => writes reg2int a
  | [.once .ADIRECT, .once a], [_, _, _, _] => writes reg2int a
  | [.once a, .once .ADIRECT], [_, _, _] => writes reg2int a
  | [.once a, .once .ADIRECT], [_, _, _, _] => writes reg2int a
  | [.once a, .once (.AIMM .AIMM16 _)], [_, _, _] => writes reg2int a
  | [.once a, .once (.AIMM .AIMM16 _)], [_, _, _, _] => writes reg2int a
  | args, _ => numberlessShape args

def alu8Shape : List (Elem Arg) → List UInt8 → Bool
  | [.once (.AINDEX _ _)], [_, _, z] => z == 0
  | [.once a, .once (.AINDEX _ _)], [_, _, z] => numberless a && z == 0
  | [.once a, .once (.AIMM .AIMM8 _)], [_, z] => numberless a && z == 0
  | args, _ => numberlessShape args

def rotBitShape : List (Elem Arg) → List UInt8 → Bool
  | [.once (.AINDEX _ _)], [_, _, _, _] => true
  | [.once (.AIMM .AIMM3 _), .once (.AINDEX _ _)], [_, _, _, b] => middle b == 0
  | [.once (.AIMM .AIMM3 _), .once a], [_, b] => leads a && middle b == 0
  | [.once (.AINDEX _ _), .once a], [_, _, _, _] => writes reg2int a
  | [.once (.AIMM .AIMM3 _), .once (.AINDEX _ _), .once a], [_, _, _, b] =>
    writes reg2int a && middle b == 0
  | args, _ => numberlessShape args

def inoutShape : List (Elem Arg) → List UInt8 → Bool
  | [.once (.AINDER _ _), .once .AZERO], _ => true
  | [.once .ADIRECT, .once a], [_, z] => writes reg2int a && z == 0
  | [.once a, .once .ADIRECT], [_, z] => writes reg2int a && z == 0
  | args, _ => numberlessShape args

def jpShape : List (Elem Arg) → List UInt8 → Bool
  | [.once (.AIMM .AIMM16 _)], [_, _, _] => true
  | [.once a, .once (.AIMM .AIMM16 _)], [_, _, _] => writes cc2int a
  | args, _ => numberlessShape args

def jrShape : List (Elem Arg) → List UInt8 → Bool
  | [.once (.AIMM .AIMM16 _)], [_, _] => true
  | [.once a, .once (.AIMM .AIMM16 _)], [_, _] => writes ss2int a
  | args, _ => numberlessShape args

def imShape : List (Elem Arg) → List UInt8 → Bool
  | [.once (.AIMM .AIMM8 _)], [_, b] => middle b == 0
  | _, _ => false

def rstShape : List (Elem Arg) → List UInt8 → Bool
  | [.once .ARST], [b] => middle b == 0
  | _, _ => false

def dataShape : List (Elem Arg) → List UInt8 → Bool
  | [.rep (.AIMM _ _)], _ => true
  | _, _ => false

def Format.shape : Format → List (Elem Arg) → List UInt8 → Bool
  | .noargs | .alu16 => fun args _ => numberlessShape args
  | .dir => dirShape
  | .ld8 => ld8Shape
  | .ld16 => ld16Shape
  | .alu8 => alu8Shape
  | .idx => idxShape
  | .inout => inoutShape
  | .rotBit => rotBitShape
  | .im => imShape
  | .jp => jpShape
  | .jr => jrShape
  | .rst => rstShape
  | .defb | .defw | .defd | .defq => dataShape

def Op.shaped (op : Op) : Bool :=
  op.size == op.image.length && op.format.shape op.args op.image

theorem optab_shaped : ∀ op ∈ optab, op.shaped = true :=
  List.all_eq_true.mp (by decide +kernel)

section

variable {op : Op} (sized : op.size = op.image.length)

theorem numberlessShape_right (shape : numberlessShape op.args = true) : op.Right :=
  numberless_right (List.all_eq_true.mp shape)

include sized

theorem dirShape_right (format_ : op.format = .dir) (shape : dirShape op.args op.image = true) :
    op.Right := by
  unfold dirShape at shape
  split at shape
  · rename_i args image
    exact dir_right_right sized format_ args shape ⟨_, _, _, image⟩
  · rename_i args image
    exact dir_left_right sized format_ args shape ⟨_, _, _, image⟩
  · exact numberlessShape_right shape

theorem ld8Shape_right (format_ : op.format = .ld8) (shape : ld8Shape op.args op.image = true) :
    op.Right := by
  unfold ld8Shape at shape
  split at shape
  · rename_i args image
    exact ld8_right sized format_ args shape (Or.inl ⟨_, _, image⟩)
  · rename_i args image
    exact ld8_right sized format_ args shape (Or.inr ⟨_, _, _, image⟩)
  · exact numberlessShape_right shape

theorem ld16Shape_right (format_ : op.format = .ld16)
    (shape : ld16Shape op.args op.image = true) : op.Right := by
  unfold ld16Shape at shape
  split at shape
  · rename_i args image
    exact ld16_right_right sized format_ args shape (Or.inl ⟨_, _, _, image⟩)
  · rename_i args image
    exact ld16_right_right sized format_ args shape (Or.inr ⟨_, _, _, _, image⟩)
  · rename_i args image
    exact ld16_left_right sized format_ args shape (Or.inl ⟨_, _, _, image⟩)
  · rename_i args image
    exact ld16_left_right sized format_ args shape (Or.inr ⟨_, _, _, _, image⟩)
  · rename_i args image
    exact ld16_imm_right sized format_ args shape (Or.inl ⟨_, _, _, image⟩)
  · rename_i args image
    exact ld16_imm_right sized format_ args shape (Or.inr ⟨_, _, _, _, image⟩)
  · exact numberlessShape_right shape

theorem alu8Shape_right (format_ : op.format = .alu8)
    (shape : alu8Shape op.args op.image = true) : op.Right := by
  unfold alu8Shape at shape
  split at shape
  · rename_i args image
    rw [beq_iff_eq] at shape
    subst shape
    exact alu8_one_right sized format_ args ⟨_, _, image⟩
  · rename_i args image
    rw [Bool.and_eq_true, beq_iff_eq] at shape
    rcases shape with ⟨none_, rfl⟩
    exact alu8_index_right sized format_ args none_ ⟨_, _, image⟩
  · rename_i args image
    rw [Bool.and_eq_true, beq_iff_eq] at shape
    rcases shape with ⟨none_, rfl⟩
    exact alu8_imm_right sized format_ args none_ ⟨_, image⟩
  · exact numberlessShape_right shape

theorem idxShape_right (format_ : op.format = .idx) (shape : idxShape op.args op.image = true) :
    op.Right := by
  unfold idxShape at shape
  split at shape
  · rename_i args image
    exact idx_imm_right sized format_ args ⟨_, _, _, _, image⟩
  · rename_i args image
    exact idx_right_right sized format_ args shape ⟨_, _, _, image⟩
  · rename_i args image
    exact idx_left_right sized format_ args shape ⟨_, _, _, image⟩
  · exact numberlessShape_right shape

theorem inoutShape_right (format_ : op.format = .inout)
    (shape : inoutShape op.args op.image = true) : op.Right := by
  unfold inoutShape at shape
  split at shape
  · rename_i args
    exact inout_zero_right format_ args
  · rename_i args image
    rw [Bool.and_eq_true, beq_iff_eq] at shape
    rcases shape with ⟨written, rfl⟩
    exact inout_right_right sized format_ args written ⟨_, image⟩
  · rename_i args image
    rw [Bool.and_eq_true, beq_iff_eq] at shape
    rcases shape with ⟨written, rfl⟩
    exact inout_left_right sized format_ args written ⟨_, image⟩
  · exact numberlessShape_right shape

theorem rotBitShape_right (format_ : op.format = .rotBit)
    (shape : rotBitShape op.args op.image = true) : op.Right := by
  unfold rotBitShape at shape
  split at shape
  · rename_i args image
    exact rotBit_one_right sized format_ args ⟨_, _, _, _, image⟩
  · rename_i args image
    exact rotBit_index_right sized format_ args ⟨_, _, _, _, image, beq_iff_eq.mp shape⟩
  · rename_i args image
    rw [Bool.and_eq_true, beq_iff_eq] at shape
    exact rotBit_bit_right sized format_ args shape.1 ⟨_, _, image, shape.2⟩
  · rename_i args image
    exact rotBit_copy_right sized format_ args shape ⟨_, _, _, _, image⟩
  · rename_i args image
    rw [Bool.and_eq_true, beq_iff_eq] at shape
    exact rotBit_triple_right sized format_ args shape.1 ⟨_, _, _, _, image, shape.2⟩
  · exact numberlessShape_right shape

theorem imShape_right (format_ : op.format = .im) (shape : imShape op.args op.image = true) :
    op.Right := by
  unfold imShape at shape
  split at shape
  · rename_i args image
    exact im_right sized format_ args ⟨_, _, image, beq_iff_eq.mp shape⟩
  · cases shape

theorem jpShape_right (format_ : op.format = .jp) (shape : jpShape op.args op.image = true) :
    op.Right := by
  unfold jpShape at shape
  split at shape
  · rename_i args image
    exact jp_right sized format_ args ⟨_, _, _, image⟩
  · rename_i args image
    exact jp_flag_right sized format_ args shape ⟨_, _, _, image⟩
  · exact numberlessShape_right shape

theorem jrShape_right (format_ : op.format = .jr) (shape : jrShape op.args op.image = true) :
    op.Right := by
  unfold jrShape at shape
  split at shape
  · rename_i args image
    exact jr_right sized format_ args ⟨_, _, image⟩
  · rename_i args image
    exact jr_flag_right sized format_ args shape ⟨_, _, image⟩
  · exact numberlessShape_right shape

omit sized in
theorem rstShape_right (format_ : op.format = .rst) (shape : rstShape op.args op.image = true) :
    op.Right := by
  unfold rstShape at shape
  split at shape
  · rename_i args image
    exact rst_right format_ args ⟨_, image, beq_iff_eq.mp shape⟩
  · cases shape

omit sized in
theorem dataShape_right (siz : Nat) (run : ∀ pc nps, runFormat pc op nps = def_ siz nps)
    (field : ∀ k width listed, op.field k (.AIMM width listed) = some (.number (siz * k) siz))
    (fits : op.format ≠ .im ∧ op.format ≠ .jr) (shape : dataShape op.args op.image = true) :
    op.Right := by
  unfold dataShape at shape
  split at shape
  · rename_i width listed args
    apply data_right args run (fun k => field k width listed)
    intro np
    cases np <;> simp [Op.Fits, fits]
  · cases shape

end

theorem shaped_right {op : Op} (shaped : op.shaped = true) : op.Right := by
  rw [Op.shaped, Bool.and_eq_true, beq_iff_eq] at shaped
  rcases shaped with ⟨sized, shape⟩
  cases format_ : op.format <;> rw [format_] at shape
  case noargs => exact numberlessShape_right shape
  case alu16 => exact numberlessShape_right shape
  case dir => exact dirShape_right sized format_ shape
  case ld8 => exact ld8Shape_right sized format_ shape
  case ld16 => exact ld16Shape_right sized format_ shape
  case alu8 => exact alu8Shape_right sized format_ shape
  case idx => exact idxShape_right sized format_ shape
  case inout => exact inoutShape_right sized format_ shape
  case rotBit => exact rotBitShape_right sized format_ shape
  case im => exact imShape_right sized format_ shape
  case jp => exact jpShape_right sized format_ shape
  case jr => exact jrShape_right sized format_ shape
  case rst => exact rstShape_right format_ shape
  case defb =>
    apply dataShape_right 1 _ _ _ shape <;> simp [runFormat, Op.field, format_]
  case defw =>
    apply dataShape_right 2 _ _ _ shape <;> simp [runFormat, Op.field, format_]
  case defd =>
    apply dataShape_right 4 _ _ _ shape <;> simp [runFormat, Op.field, format_]
  case defq =>
    apply dataShape_right 8 _ _ _ shape <;> simp [runFormat, Op.field, format_]

theorem select_ok {rows : List Op} {args : List Operand} {op : Op} (selected : select rows args = .ok op) :
    op ∈ rows ∧ match_ check (str2args op.args) (args.map Operand.node) = .success := by
  induction rows with
  | nil => cases selected
  | cons row rows ih =>
    unfold select at selected
    split at selected
    · rename_i success
      cases selected
      exact ⟨List.mem_cons_self, success⟩
    · have later := ih selected
      exact ⟨List.mem_cons_of_mem _ later.1, later.2⟩
    · cases selected
    · cases selected

theorem translate_selected {rows : List Op} {args : List Operand} {op : Op} (pc : UInt64)
    (selected : select rows args = .ok op) :
    translate rows pc args = (fun buf => (op, buf)) <$> runFormat pc op args := by
  unfold translate
  rw [selected, ok_bind]
  cases runFormat pc op args <;> rfl

theorem ld_index_selected (off : UInt64) :
    select (ins "LD") [.reg .A, .index .IX off] =
      .ok ⟨"LD", [Opers.r, Opers.ixn], 3, [0xdd, 0x46], .idx⟩ := rfl

end Scc.As.Z80
