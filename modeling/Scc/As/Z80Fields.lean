import Mathlib.Tactic.IntervalCases
import Scc.As.MatchExact
import Scc.As.Z80Emit

/-!
# The fields of the Z80

Where the processor finds the numbers of an instruction, and which operands the assembler
writes into a field without a look at their size.
-/

namespace Scc.As.Z80

open Scc.Lib Scc.As.Match Scc.As.Match.X80

set_option autoImplicit false

inductive Field
  /-- Bytes without a sign, the low one first. -/
  | number (place size : Nat)
  /-- The third byte of an instruction with an index register, with a sign. -/
  | offset
  /-- The three bits in the middle of a byte. -/
  | bits (place : Nat)
  /-- The page of a restart. -/
  | restart
  /-- The mode of the interrupts. -/
  | mode
  /-- A second byte that counts from the next instruction. -/
  | target
  /-- No bits: the instruction has a zero. -/
  | zero

def unsigned : List UInt8 → Nat
  | [] => 0
  | b :: bs => b.toNat + 256 * unsigned bs

def signed (b : UInt8) : Int := if b.toNat < 128 then b.toNat else (b.toNat : Int) - 256

def middle (b : UInt8) : Nat := b.toNat / 8 % 8

/-- The modes by the middle of their code, the doubles included. -/
def interruptMode : Nat → Nat
  | 2 | 6 => 1
  | 3 | 7 => 2
  | _ => 0

def Field.decode (pc : UInt64) (buf : List UInt8) : Field → Int
  | .number place size => unsigned ((buf.drop place).take size)
  | .offset => signed (buf.getD 2 0)
  | .bits place => middle (buf.getD place 0)
  | .restart => middle (buf.getD 0 0) * 8
  | .mode => interruptMode (middle (buf.getD 1 0))
  | .target => (pc.toNat + 2 + signed (buf.getD 1 0)) % 2 ^ 16
  | .zero => 0

def Op.field (op : Op) (k : Nat) : Arg → Option Field
  | .AIMM _ _ =>
    match op.format with
    | .defb => some (.number k 1)
    | .defw => some (.number (2 * k) 2)
    | .defd => some (.number (4 * k) 4)
    | .defq => some (.number (8 * k) 8)
    | .ld16 | .jp => some (.number (op.size - 2) 2)
    | .rotBit => some (.bits (op.size - 1))
    | .im => some .mode
    | .jr => some .target
    | _ => some (.number (op.size - 1) 1)
  | .ADIRECT =>
    match op.format with
    | .inout => some (.number (op.size - 1) 1)
    | _ => some (.number (op.size - 2) 2)
  | .AINDEX _ _ => some .offset
  | .ARST => some .restart
  | .AZERO => some .zero
  | .AREG _ _ | .AINDER _ _ | .AREG_CLASS _ | .ASYM | .ASTR => none

def signed64 (value : UInt64) : Int :=
  if value.toNat < 2 ^ 63 then value.toNat else (value.toNat : Int) - 2 ^ 64

/-- The number that an operand stands for. -/
def Operand.number : Operand → Option Int
  | .reg r => some r.value.toNat
  | .str value | .iden value | .imm _ value | .direct value => some value.toNat
  | .indir _ => none
  | .index _ off => some (signed64 off)

def pairs : List (Elem Arg) → List Operand → List (Arg × Operand)
  | .rep a :: _, nps => nps.map fun np => (a, np)
  | e :: es, np :: nps => (e.arg, np) :: pairs es nps
  | _, _ => []

/-- The fields of the operands, from the given one on, read as the operands. -/
def Told (op : Op) (pc : UInt64) (buf : List UInt8) : Nat → List (Arg × Operand) → Prop
  | _, [] => True
  | k, (a, np) :: rest =>
    (∀ field value, op.field k a = some field → np.number = some value →
      field.decode pc buf = value) ∧ Told op pc buf (k + 1) rest

def Recovers (rows : List Op) (pc : UInt64) (args : List Operand) : Prop :=
  ∀ op buf, translate rows pc args = .ok (op, buf) → Told op pc buf 0 (pairs op.args args)

/-- What `match()` does not look at: the offset of an index, an address in parentheses, the
literal zero, the mode of the interrupts, the way of a relative jump. -/
def Op.Fits (op : Op) : Arg → Operand → Prop
  | .AINDEX _ _, .index _ off => -128 ≤ signed64 off ∧ signed64 off ≤ 127
  | .ADIRECT, .direct value => value.toNat < if op.format = .inout then 2 ^ 8 else 2 ^ 16
  | .AZERO, .imm _ value => value = 0
  | .AIMM _ _, .imm _ value => (op.format = .im → value.toNat ≤ 2) ∧ op.format ≠ .jr
  | _, _ => True

def Op.AllFit (op : Op) (args : List Operand) : Prop :=
  ∀ pair ∈ pairs op.args args, op.Fits pair.1 pair.2

theorem byte_recovered (value : UInt64) : unsigned [value.toUInt8] = value.toNat ↔ value.toNat < 2 ^ 8 := by
  simp only [unsigned, UInt64.toNat_toUInt8]
  omega

theorem word_recovered (value : UInt64) :
    unsigned [value.toUInt8, (value.toUInt32 >>> 8).toUInt8] = value.toNat ↔ value.toNat < 2 ^ 16 := by
  have high : (value.toUInt32 >>> 8).toNat = value.toNat % 2 ^ 32 / 2 ^ 8 := by
    rw [UInt32.toNat_shiftRight, UInt64.toNat_toUInt32, Nat.shiftRight_eq_div_pow]
    rfl
  simp only [unsigned, UInt64.toNat_toUInt8, UInt32.toNat_toUInt8, high]
  omega

theorem offset_recovered (off : UInt64) :
    signed off.toUInt8 = signed64 off ↔ -128 ≤ signed64 off ∧ signed64 off ≤ 127 := by
  have bound := off.toNat_lt
  simp only [signed, signed64, UInt64.toNat_toUInt8]
  split_ifs <;> omega

theorem middle_or (a b : UInt8) : middle (a ||| b) = middle a ||| middle b := by
  have shifted : ∀ n : Nat, n / 8 % 8 = (n >>> 3) % 2 ^ 3 := by
    intro n
    rw [Nat.shiftRight_eq_div_pow]
    rfl
  unfold middle
  rw [UInt8.toNat_or, shifted, shifted, shifted, Nat.shiftRight_or_distrib, Nat.or_mod_two_pow]

theorem middle_small {b : UInt8} (small : b.toNat < 8) : middle b = 0 := by
  unfold middle
  omega

theorem middle_shifted (value : UInt64) : middle (value <<< 3).toUInt8 = value.toNat % 8 := by
  have shift : (value <<< 3).toNat = value.toNat * 2 ^ 3 % 2 ^ 64 := by
    rw [UInt64.toNat_shiftLeft, Nat.shiftLeft_eq]
    rfl
  simp only [middle, UInt64.toNat_toUInt8, shift]
  omega

theorem middle_bits {b low : UInt8} {value : UInt64} (clear : middle b = 0)
    (small : low.toNat < 8) (bound : value.toNat < 8) :
    middle (b ||| (value <<< 3).toUInt8 ||| low) = value.toNat := by
  rw [middle_or, middle_or, clear, middle_shifted, middle_small small, Nat.zero_or, Nat.or_zero,
    Nat.mod_eq_of_lt bound]

theorem interruptMode_le (m : Nat) : interruptMode m ≤ 2 := by
  unfold interruptMode
  split <;> decide

/-- The code of a mode above zero is one more. -/
theorem mode_recovered {b : UInt8} {value : UInt64} (clear : middle b = 0) (bound : value.toNat < 2 ^ 8) :
    interruptMode (middle (b ||| ((if 0 < value.toUInt32 then value.toUInt32 + 1
      else value.toUInt32) <<< 3).toUInt8)) = value.toNat ↔ value.toNat ≤ 2 := by
  have code : middle (((if 0 < value.toUInt32 then value.toUInt32 + 1
      else value.toUInt32) <<< 3).toUInt8) =
        (if 0 < value.toNat then value.toNat + 1 else value.toNat) % 8 := by
    have same : value.toUInt32.toNat = value.toNat := by
      rw [UInt64.toNat_toUInt32]
      omega
    have shift : ∀ v : UInt32, middle (v <<< 3).toUInt8 = v.toNat % 8 := by
      intro v
      have moved : (v <<< 3).toNat = v.toNat * 2 ^ 3 % 2 ^ 32 := by
        rw [UInt32.toNat_shiftLeft, Nat.shiftLeft_eq]
        rfl
      simp only [middle, UInt32.toNat_toUInt8, moved]
      omega
    rw [shift]
    by_cases positive : 0 < value.toNat
    · rw [if_pos (by rwa [UInt32.lt_iff_toNat_lt, same]), if_pos positive, UInt32.toNat_add, same]
      simp
    · rw [if_neg (by rwa [UInt32.lt_iff_toNat_lt, same]), if_neg positive, same]
  rw [middle_or, clear, code, Nat.zero_or]
  constructor
  · intro same
    rw [← same]
    exact interruptMode_le _
  · intro small
    interval_cases value.toNat <;> rfl

theorem target_lost (pc value : UInt64) :
    (pc.toNat + 2 + signed (value.toUInt32.toUInt64 - (pc - 2)).toUInt8 : Int) % 2 ^ 16 ≠
      value.toNat := by
  have counter := pc.toNat_lt
  have emitted : (value.toUInt32.toUInt64 - (pc - 2)).toUInt8.toNat =
      (value.toNat + 2 ^ 64 - pc.toNat + 2) % 2 ^ 8 := by
    rw [UInt64.toNat_toUInt8, UInt64.toNat_sub, UInt64.toNat_sub, UInt32.toNat_toUInt64,
      UInt64.toNat_toUInt32]
    have two : (2 : UInt64).toNat = 2 := rfl
    rw [two]
    omega
  unfold signed
  rw [emitted]
  split_ifs <;> omega

end Scc.As.Z80
