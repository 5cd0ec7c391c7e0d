import Scc.As.Match

/-!
# What the Z80 assembler emits

A line selects the first row of its instruction that matches the operands, and the format of
the row writes the operands over the bytes of the row.
-/

namespace Scc.As.Z80

open Scc.Lib Scc.As.Match Scc.As.Match.X80

set_option autoImplicit false

/-- An operand with the values of its symbols. -/
inductive Operand
  | reg (r : Reg)
  | str (value : UInt64)
  | iden (value : UInt64)
  | imm (isIden : Bool) (value : UInt64)
  | direct (value : UInt64)
  | indir (r : Reg)
  | index (r : Reg) (off : UInt64)
deriving DecidableEq

/-- What `match()` looks at. -/
def Operand.node : Operand → Match.Node Reg
  | .reg r => .reg r
  | .str _ => .str
  | .iden _ => .iden
  | .imm isIden value => .imm isIden value
  | .direct _ => .direct
  | .indir r => .indir r
  | .index r off => .index r off

/-- The formats that write numbers or registers. -/
inductive Format
  | noargs | dir | ld8 | alu16 | ld16 | alu8 | idx | inout | rotBit | im | jp | jr | rst
  | defb | defw | defd | defq
deriving DecidableEq

structure Op where
  str : String
  args : List (Elem Arg)
  size : Nat
  bytes : List UInt8
  format : Format

/-- The array of a row has `size` bytes. -/
def Op.image (op : Op) : List UInt8 :=
  op.bytes ++ List.replicate (op.size - op.bytes.length) 0

inductive Failure
  /-- A diagnostic. -/
  | error
  /-- `abort()`, or a null pointer. -/
  | fault
deriving DecidableEq

abbrev Emit := Except Failure (List UInt8)

/-- `np->sym->value`; an operand in parentheses has no symbol of its own. -/
def Operand.value : Operand → Except Failure UInt64
  | .reg r => .ok r.value
  | .str value | .iden value | .imm _ value => .ok value
  | .direct _ | .indir _ | .index _ _ => .error .fault

def reg2int : Operand → Except Failure UInt8
  | .reg .F | .reg .B => .ok 0
  | .reg .C => .ok 1
  | .reg .D => .ok 2
  | .reg .E => .ok 3
  | .reg .IXH | .reg .IYH | .reg .H => .ok 4
  | .reg .IXL | .reg .IYL | .reg .L => .ok 5
  | .reg .A => .ok 7
  | .reg .BC => .ok 0
  | .reg .DE => .ok 1
  | .reg .HL | .reg .IX | .reg .IY => .ok 2
  | .reg .AF | .reg .SP => .ok 3
  | _ => .error .fault

def shifted (shift : UInt8) (val : Except Failure UInt8) : Except Failure UInt8 :=
  (fun bits => bits <<< shift) <$> val

def cc2int : Operand → Except Failure UInt8
  | .reg .NZ => .ok 0
  | .reg .Z => .ok 1
  | .reg .NC => .ok 2
  | .reg .C => .ok 3
  | .reg .PO => .ok 4
  | .reg .PE => .ok 5
  | .reg .P => .ok 6
  | .reg .M => .ok 7
  | _ => .error .fault

def ss2int : Operand → Except Failure UInt8
  | .reg .NZ => .ok 4
  | .reg .Z => .ok 5
  | .reg .NC => .ok 6
  | .reg .C => .ok 7
  | _ => .error .fault

def noargs (op : Op) (_ : List Operand) : Emit := .ok op.image

def setWord (buf : List UInt8) (n : Nat) (value : UInt64) : List UInt8 :=
  (buf.set (n - 1) (value.toUInt32 >>> 8).toUInt8).set (n - 2) value.toUInt32.toUInt8

def dir (op : Op) : List Operand → Emit
  | _ :: .direct value :: _ | .direct value :: _ :: _ => .ok (setWord op.image op.size value)
  | _ => .error .fault

def ld8 (op : Op) : List Operand → Emit
  | par1 :: par2 :: _ => do
      let high : UInt8 ← match par1 with
        | .reg _ => shifted 3 (reg2int par1)
        | _ => .ok 0
      match par2 with
      | .reg _ => do
          let low ← reg2int par2
          .ok (op.image.modify (op.size - 1) (· ||| (high ||| low)))
      | .imm _ value =>
        .ok ((op.image.set (op.size - 1) value.toUInt8).modify (op.size - 2) (· ||| high))
      | _ => .ok (op.image.modify (op.size - 1) (· ||| high))
  | _ => .error .fault

def alu16 (op : Op) : List Operand → Emit
  | _ :: par :: _ | [par] => do
      let val ← reg2int par
      .ok (op.image.modify (op.size - 1) (· ||| val <<< 4))
  | [] => .error .fault

/-- The value of an address or of a number. -/
def Operand.word : Operand → Except Failure UInt64
  | .direct value => .ok value
  | np => np.value

def ld16 (op : Op) : List Operand → Emit
  | [par] => alu16 op [par]
  | par1 :: par2 :: _ => do
      let (dst, src) := match par1 with
        | .reg _ => (par1, par2)
        | _ => (par2, par1)
      let value ← src.word
      let val ← reg2int dst
      .ok ((setWord op.image op.size value).modify (op.size - 3) (· ||| val <<< 4))
  | [] => .error .fault

def alu8 (op : Op) (args : List Operand) : Emit := do
  let (par, shift) ← match args with
    | _ :: par :: _ => .ok (par, 0)
    | [par] => .ok (par, 3)
    | [] => .error .fault
  let val : UInt8 ← match par with
    | .imm _ value => .ok value.toUInt32.toUInt8
    | .reg _ => shifted shift (reg2int par)
    | .index _ off => .ok off.toUInt32.toUInt8
    | .indir _ => .ok 0
    | _ => .error .fault
  .ok (op.image.modify (op.size - 1) (· ||| val))

/-- After the operands have been put in order. -/
def idxOrdered (op : Op) (shift : UInt8) (off : UInt64) (arg : Operand) : Emit :=
  match arg with
  | .reg _ => do
      let val ← reg2int arg
      .ok ((op.image.set (op.size - 1) off.toUInt8).modify (op.size - 2) (· ||| val <<< shift))
  | _ => do
      let imm ← arg.value
      .ok ((op.image.set (op.size - 1) imm.toUInt8).set (op.size - 2) off.toUInt8)

def idx (op : Op) : List Operand → Emit
  | .index _ off :: arg :: _ => idxOrdered op 0 off arg
  | arg :: .index _ off :: _ => idxOrdered op 3 off arg
  | _ => .error .fault

def inout (op : Op) : List Operand → Emit
  | par1 :: par2 :: _ => do
      let (port, value) := match par1 with
        | .direct _ | .indir _ => (par1, par2)
        | _ => (par2, par1)
      let val : UInt8 ← match port, value with
        | .direct value, _ => .ok value.toUInt32.toUInt8
        | _, .reg _ => shifted 3 (reg2int value)
        | _, _ => .ok 0
      .ok (op.image.modify (op.size - 1) (· ||| val))
  | _ => .error .fault

/-- The `switch` of `rot_bit()`. -/
def rotBitParameter (n : Nat) (buf : List UInt8) : List Operand → Emit
  | [.index _ off] => .ok (buf.set (n - 2) off.toUInt32.toUInt8)
  | .index _ off :: par :: _ => do
      let val ← reg2int par
      .ok ((buf.set (n - 2) off.toUInt32.toUInt8).modify (n - 1) (· ||| val))
  | .reg r :: _ => do
      let val ← reg2int (.reg r)
      .ok (buf.modify (n - 1) (· ||| val))
  | .indir _ :: _ => .ok buf
  | _ => .error .fault

def rotBit (op : Op) : List Operand → Emit
  | .imm _ value :: args =>
    rotBitParameter op.size (op.image.modify (op.size - 1) (· ||| (value <<< 3).toUInt8)) args
  | args => rotBitParameter op.size op.image args

def im (op : Op) : List Operand → Emit
  | arg :: _ => do
      let value ← arg.value
      let val := if 0 < value.toUInt32 then value.toUInt32 + 1 else value.toUInt32
      .ok (op.image.modify (op.size - 1) (· ||| (val <<< 3).toUInt8))
  | [] => .error .fault

/-- What is written for the number of a jump; the bytes before it are left for the flag. -/
def branchTarget (relative : Bool) (pc : UInt64) (buf : List UInt8) (n : Nat) (value : UInt64) :
    List UInt8 × Nat :=
  if relative then (buf.set (n - 1) (value.toUInt32.toUInt64 - (pc - 2)).toUInt8, n - 1)
  else (setWord buf n value, n - 2)

/-- Flags are only taken from a register that comes first. -/
def branch (relative : Bool) (pc : UInt64) (op : Op) : List Operand → Emit
  | .reg r :: rest => do
      let (buf, i) ← match rest with
        | [] => .ok (op.image, op.size)
        | imm :: _ => branchTarget relative pc op.image op.size <$> imm.value
      let val ← if relative then ss2int (.reg r) else cc2int (.reg r)
      .ok (buf.modify (i - 1) (· ||| val <<< 3))
  | .imm _ value :: _ => .ok (branchTarget relative pc op.image op.size value).1
  | _ :: _ => .ok op.image
  | [] => .error .fault

def jp (pc : UInt64) (op : Op) (args : List Operand) : Emit := branch false pc op args

def jr (pc : UInt64) (op : Op) (args : List Operand) : Emit := branch true pc op args

def rst (op : Op) : List Operand → Emit
  | arg :: _ => do
      let value ← arg.value
      .ok ((op.image.take 1).modify 0 (· ||| value.toUInt8))
  | [] => .error .fault

/-- The low byte first; a rest that is not zero is an error. -/
def tobytes : UInt64 → Nat → Emit
  | v, 0 => if v = 0 then .ok [] else .error .error
  | v, nbytes + 1 => (v.toUInt8 :: ·) <$> tobytes (v >>> 8) nbytes

def def_ (siz : Nat) : List Operand → Emit
  | [] => .ok []
  | np :: args => do
      let value ← np.value
      let bytes ← tobytes value siz
      let rest ← def_ siz args
      .ok (bytes ++ rest)

/-- The function of a format, at the counter of the line. -/
def runFormat (pc : UInt64) (op : Op) (args : List Operand) : Emit :=
  match op.format with
  | .noargs => noargs op args
  | .dir => dir op args
  | .ld8 => ld8 op args
  | .alu16 => alu16 op args
  | .ld16 => ld16 op args
  | .alu8 => alu8 op args
  | .idx => idx op args
  | .inout => inout op args
  | .rotBit => rotBit op args
  | .im => im op args
  | .jp => jp pc op args
  | .jr => jr pc op args
  | .rst => rst op args
  | .defb => def_ 1 args
  | .defw => def_ 2 args
  | .defd => def_ 4 args
  | .defq => def_ 8 args

/-- The loop over the rows of an instruction. -/
def select : List Op → List Operand → Except Failure Op
  | [], _ => .error .error
  | op :: rows, args =>
    match match_ check (str2args op.args) (args.map Operand.node) with
    | .success => .ok op
    | .failure => select rows args
    | .stop => .error .error
    | .beyond => .error .fault

def translate (rows : List Op) (pc : UInt64) (args : List Operand) :
    Except Failure (Op × List UInt8) := do
  let op ← select rows args
  let buf ← runFormat pc op args
  .ok (op, buf)

namespace Opers

/-! The arguments of `opers.dat`. -/

def immediate (width : Width) (listed : width ≠ .AIMM2 ∧ width ≠ .AIMM5) : Elem Arg :=
  .once (.AIMM width listed)

def imm3 : Elem Arg := immediate .AIMM3 (by decide)
def imm8 : Elem Arg := immediate .AIMM8 (by decide)
def imm16 : Elem Arg := immediate .AIMM16 (by decide)
def rst : Elem Arg := .once .ARST
def zero : Elem Arg := .once .AZERO
def ixn : Elem Arg := .once (.AINDEX .IX (Or.inl rfl))
def iyn : Elem Arg := .once (.AINDEX .IY (Or.inr rfl))
def n : Elem Arg := .once .ADIRECT
def ss : Elem Arg := .once (.AREG_CLASS .SSCLASS)
def cc : Elem Arg := .once (.AREG_CLASS .CCCLASS)
def dd : Elem Arg := .once (.AREG_CLASS .DDCLASS)
def qq : Elem Arg := .once (.AREG_CLASS .QQCLASS)
def rr : Elem Arg := .once (.AREG_CLASS .RRCLASS)
def pp : Elem Arg := .once (.AREG_CLASS .PPCLASS)
def p : Elem Arg := .once (.AREG_CLASS .PCLASS)
def q : Elem Arg := .once (.AREG_CLASS .QCLASS)
def r : Elem Arg := .once (.AREG_CLASS .RCLASS)

def indirect (r : Reg) (listed : r ∈ X80.indirect) : Elem Arg := .once (.AINDER r listed)

def inDE : Elem Arg := indirect .DE (by decide)
def inBC : Elem Arg := indirect .BC (by decide)
def inHL : Elem Arg := indirect .HL (by decide)
def inSP : Elem Arg := indirect .SP (by decide)
def inC : Elem Arg := indirect .C (by decide)

def register (r : Reg) (listed : r ∈ single) : Elem Arg := .once (.AREG r listed)

def rA : Elem Arg := register .A (by decide)
def rF : Elem Arg := register .F (by decide)
def rI : Elem Arg := register .I (by decide)
def rR : Elem Arg := register .R (by decide)
def rSP : Elem Arg := register .SP (by decide)
def rHL : Elem Arg := register .HL (by decide)
def rDE : Elem Arg := register .DE (by decide)
def rIX : Elem Arg := register .IX (by decide)
def rIY : Elem Arg := register .IY (by decide)
def rAF : Elem Arg := register .AF (by decide)
def rAF_ : Elem Arg := register .AF_ (by decide)

/-! The rows of the Z80 in `ops.dat`. The other directives write no numbers. -/

/-- The names of the directive of one width. -/
def dataRows (strs : List String) (width : Width) (listed : width ≠ .AIMM2 ∧ width ≠ .AIMM5)
    (format : Format) : List Op :=
  strs.map fun str => ⟨str, [.rep (.AIMM width listed)], 0, [], format⟩

def dataGroup : List Op :=
  dataRows [".DB", ".DEFB", ".BYTE"] .AIMM8 (by decide) .defb ++
  dataRows [".DW", ".DEFW", ".SHORT", ".WORD"] .AIMM16 (by decide) .defw ++
  dataRows [".DD", ".DEFD", ".LONG"] .AIMM32 (by decide) .defd ++
  dataRows [".INT"] .AIMM16 (by decide) .defd ++
  dataRows [".DQ", ".DEFQ"] .AIMM64 (by decide) .defq

def ld8Group : List Op := [
  ⟨"LD", [r, imm8], 2, [0x06], .ld8⟩, ⟨"LD", [p, imm8], 3, [0xdd, 0x06], .ld8⟩,
  ⟨"LD", [q, imm8], 3, [0xfd, 0x06], .ld8⟩, ⟨"LD", [inHL, imm8], 2, [0x36], .ld8⟩,
  ⟨"LD", [r, r], 1, [0x40], .ld8⟩, ⟨"LD", [p, p], 2, [0xdd, 0x40], .ld8⟩,
  ⟨"LD", [q, q], 2, [0xfd, 0x40], .ld8⟩, ⟨"LD", [inHL, r], 1, [0x70], .ld8⟩,
  ⟨"LD", [r, inHL], 1, [0x46], .ld8⟩, ⟨"LD", [r, ixn], 3, [0xdd, 0x46], .idx⟩,
  ⟨"LD", [r, iyn], 3, [0xfd, 0x46], .idx⟩, ⟨"LD", [ixn, r], 3, [0xdd, 0x70], .idx⟩,
  ⟨"LD", [iyn, r], 3, [0xfd, 0x70], .idx⟩, ⟨"LD", [inHL, imm8], 2, [0x36], .ld8⟩,
  ⟨"LD", [ixn, imm8], 4, [0xdd, 0x36], .idx⟩, ⟨"LD", [iyn, imm8], 4, [0xfd, 0x36], .idx⟩,
  ⟨"LD", [rA, inBC], 1, [0x0a], .noargs⟩, ⟨"LD", [rA, inDE], 1, [0x1a], .noargs⟩,
  ⟨"LD", [rA, n], 3, [0x3a], .dir⟩, ⟨"LD", [inBC, rA], 1, [0x2], .noargs⟩,
  ⟨"LD", [inDE, rA], 1, [0x12], .noargs⟩, ⟨"LD", [n, rA], 3, [0x32], .dir⟩,
  ⟨"LD", [rA, rI], 2, [0xed, 0x57], .noargs⟩, ⟨"LD", [rA, rR], 2, [0xed, 0x5f], .noargs⟩,
  ⟨"LD", [rI, rA], 2, [0xed, 0x47], .noargs⟩, ⟨"LD", [rR, rA], 2, [0xed, 0x4f], .noargs⟩]

def ld16Group : List Op := [
  ⟨"LD", [dd, imm16], 3, [0x01], .ld16⟩, ⟨"LD", [rIX, imm16], 4, [0xdd, 0x21], .ld16⟩,
  ⟨"LD", [rIY, imm16], 4, [0xfd, 0x21], .ld16⟩, ⟨"LD", [rHL, n], 3, [0x2a], .ld16⟩,
  ⟨"LD", [dd, n], 4, [0xed, 0x4b], .ld16⟩, ⟨"LD", [rIX, n], 4, [0xdd, 0x2a], .ld16⟩,
  ⟨"LD", [rIY, n], 4, [0xfd, 0x2a], .ld16⟩, ⟨"LD", [n, rHL], 3, [0x22], .ld16⟩,
  ⟨"LD", [n, dd], 4, [0xed, 0x43], .ld16⟩, ⟨"LD", [n, rIX], 4, [0xdd, 0x22], .ld16⟩,
  ⟨"LD", [n, rIY], 4, [0xfd, 0x22], .ld16⟩, ⟨"LD", [rSP, rHL], 1, [0xf9], .noargs⟩,
  ⟨"LD", [rSP, rIX], 2, [0xdd, 0xf9], .noargs⟩, ⟨"LD", [rSP, rIY], 2, [0xfd, 0xf9], .noargs⟩,
  ⟨"PUSH", [qq], 1, [0xc5], .ld16⟩, ⟨"PUSH", [rIX], 2, [0xdd, 0xe5], .ld16⟩,
  ⟨"PUSH", [rIY], 2, [0xfd, 0xe5], .ld16⟩, ⟨"POP", [qq], 1, [0xc1], .ld16⟩,
  ⟨"POP", [rIX], 2, [0xdd, 0xe1], .ld16⟩, ⟨"POP", [rIY], 2, [0xfd, 0xe1], .ld16⟩]

def alu16Group : List Op := [
  ⟨"ADD", [rHL, dd], 1, [0x09], .alu16⟩, ⟨"ADC", [rHL, dd], 2, [0xed, 0x4a], .alu16⟩,
  ⟨"SBC", [rHL, dd], 2, [0xed, 0x42], .alu16⟩, ⟨"ADD", [rIX, pp], 2, [0xdd, 0x09], .alu16⟩,
  ⟨"ADD", [rIY, rr], 2, [0xfd, 0x09], .alu16⟩, ⟨"INC", [dd], 1, [0x03], .alu16⟩,
  ⟨"INC", [rIX], 2, [0xdd, 0x23], .alu16⟩, ⟨"INC", [rIY], 2, [0xfd, 0x23], .alu16⟩,
  ⟨"DEC", [dd], 1, [0x0b], .alu16⟩, ⟨"DEC", [rIX], 2, [0xdd, 0x2b], .alu16⟩,
  ⟨"DEC", [rIY], 2, [0xfd, 0x2b], .alu16⟩]

/-- General purpose arithmetic and CPU control group. -/
def generalGroup : List Op := [
  ⟨"DAA", [], 1, [0x27], .noargs⟩, ⟨"CPL", [], 1, [0x2f], .noargs⟩,
  ⟨"NEG", [], 2, [0xed, 0x44], .noargs⟩, ⟨"CCF", [], 1, [0x3f], .noargs⟩,
  ⟨"SCF", [], 1, [0x37], .noargs⟩, ⟨"NOP", [], 1, [0x00], .noargs⟩,
  ⟨"HALT", [], 1, [0x76], .noargs⟩, ⟨"DI", [], 1, [0xf3], .noargs⟩,
  ⟨"EI", [], 1, [0xfb], .noargs⟩, ⟨"IM", [imm8], 2, [0xed, 0x46], .im⟩]

/-- Exchange, block transfer and search groups. -/
def exchangeGroup : List Op := [
  ⟨"EX", [rDE, rHL], 1, [0xeb], .noargs⟩, ⟨"EX", [rAF, rAF_], 1, [0x08], .noargs⟩,
  ⟨"EXX", [], 1, [0xd9], .noargs⟩, ⟨"EX", [inSP, rHL], 1, [0xe3], .noargs⟩,
  ⟨"EX", [inSP, rIX], 2, [0xdd, 0xe3], .noargs⟩, ⟨"EX", [inSP, rIY], 2, [0xfd, 0xe3], .noargs⟩,
  ⟨"LDI", [], 2, [0xed, 0xa0], .noargs⟩, ⟨"LDIR", [], 2, [0xed, 0xb0], .noargs⟩,
  ⟨"LDD", [], 2, [0xed, 0xa8], .noargs⟩, ⟨"LDDR", [], 2, [0xed, 0xb8], .noargs⟩,
  ⟨"CPI", [], 2, [0xed, 0xa1], .noargs⟩, ⟨"CPIR", [], 2, [0xed, 0xb1], .noargs⟩,
  ⟨"CPD", [], 2, [0xed, 0xa9], .noargs⟩, ⟨"CPDR", [], 2, [0xed, 0xb9], .noargs⟩]

def rotateAGroup : List Op := [
  ⟨"RLCA", [], 1, [0x07], .noargs⟩, ⟨"RLA", [], 1, [0x17], .noargs⟩,
  ⟨"RRCA", [], 1, [0x0f], .noargs⟩, ⟨"RRA", [], 1, [0x1f], .noargs⟩,
  ⟨"RLD", [], 2, [0xed, 0x6f], .noargs⟩, ⟨"RRD", [], 2, [0xed, 0x67], .noargs⟩]

def ioGroup : List Op := [
  ⟨"IN", [rA, n], 2, [0xdb], .inout⟩, ⟨"IN", [r, inC], 2, [0xed, 0x40], .inout⟩,
  ⟨"IN", [rF, inC], 2, [0xed, 0x70], .inout⟩, ⟨"INI", [], 2, [0xed, 0xa2], .noargs⟩,
  ⟨"INIR", [], 2, [0xed, 0xb2], .noargs⟩, ⟨"IND", [], 2, [0xed, 0xaa], .noargs⟩,
  ⟨"INDR", [], 2, [0xed, 0xba], .noargs⟩, ⟨"OUT", [n, rA], 2, [0xd3], .inout⟩,
  ⟨"OUT", [inC, r], 2, [0xed, 0x41], .inout⟩, ⟨"OUT", [inC, zero], 2, [0xed, 0x71], .inout⟩,
  ⟨"OUTI", [], 2, [0xed, 0xa3], .noargs⟩, ⟨"OTIR", [], 2, [0xed, 0xb3], .noargs⟩,
  ⟨"OUTD", [], 2, [0xed, 0xab], .noargs⟩, ⟨"OTDR", [], 2, [0xed, 0xbb], .noargs⟩]

def jumpGroup : List Op := [
  ⟨"JP", [imm16], 3, [0xc3], .jp⟩, ⟨"JP", [cc, imm16], 3, [0xc2], .jp⟩,
  ⟨"JR", [imm16], 2, [0x18], .jr⟩, ⟨"JR", [ss, imm16], 2, [0x00], .jr⟩,
  ⟨"JP", [rHL], 1, [0xe9], .noargs⟩, ⟨"JP", [rIX], 2, [0xdd, 0xe9], .noargs⟩,
  ⟨"JP", [rIY], 2, [0xfd, 0xe9], .noargs⟩, ⟨"DJNZ", [imm16], 2, [0x10], .jr⟩,
  ⟨"CALL", [imm16], 3, [0xcd], .jp⟩, ⟨"CALL", [cc, imm16], 3, [0xc4], .jp⟩,
  ⟨"RET", [], 1, [0xc9], .noargs⟩, ⟨"RET", [cc], 1, [0xc0], .jp⟩,
  ⟨"RETI", [], 2, [0xed, 0x4d], .noargs⟩, ⟨"RETN", [], 2, [0xed, 0x45], .noargs⟩,
  ⟨"RST", [rst], 1, [0xc7], .rst⟩]

/-- The seven rows of an operation with the accumulator; the code of an immediate is apart. -/
def alu8Rows (str : String) (code codeImm : UInt8) : List Op := [
  ⟨str, [rA, r], 1, [code], .alu8⟩, ⟨str, [rA, p], 2, [0xdd, code], .alu8⟩,
  ⟨str, [rA, q], 2, [0xfd, code], .alu8⟩, ⟨str, [rA, imm8], 2, [codeImm], .alu8⟩,
  ⟨str, [rA, inHL], 1, [code + 6], .alu8⟩, ⟨str, [rA, ixn], 3, [0xdd, code + 6], .alu8⟩,
  ⟨str, [rA, iyn], 3, [0xfd, code + 6], .alu8⟩]

/-- The six rows of `INC` and `DEC`. -/
def incRows (str : String) (code codeMem : UInt8) : List Op := [
  ⟨str, [r], 1, [code], .alu8⟩, ⟨str, [p], 2, [0xdd, code], .alu8⟩,
  ⟨str, [q], 2, [0xfd, code], .alu8⟩, ⟨str, [inHL], 1, [codeMem], .alu8⟩,
  ⟨str, [ixn], 3, [0xdd, codeMem], .alu8⟩, ⟨str, [iyn], 3, [0xfd, codeMem], .alu8⟩]

def alu8Group : List Op :=
  alu8Rows "ADD" 0x80 0xc6 ++ alu8Rows "ADC" 0x88 0xce ++ alu8Rows "SUB" 0x90 0xd6 ++
  alu8Rows "SBC" 0x98 0xde ++ alu8Rows "AND" 0xa0 0xe6 ++ alu8Rows "OR" 0xb0 0xf6 ++
  alu8Rows "XOR" 0xa8 0xee ++ alu8Rows "CP" 0xb8 0xfe ++
  incRows "INC" 0x04 0x34 ++ incRows "DEC" 0x05 0x35

def rotateRows (str : String) (code : UInt8) : List Op := [
  ⟨str, [r], 2, [0xcb, code], .rotBit⟩, ⟨str, [inHL], 2, [0xcb, code + 6], .rotBit⟩,
  ⟨str, [ixn], 4, [0xdd, 0xcb, 0, code + 6], .rotBit⟩, ⟨str, [iyn], 4, [0xfd, 0xcb, 0, code + 6], .rotBit⟩,
  ⟨str, [ixn, r], 4, [0xdd, 0xcb, 0, code], .rotBit⟩, ⟨str, [iyn, r], 4, [0xfd, 0xcb, 0, code], .rotBit⟩]

/-- The first four rows of an operation with a bit. -/
def bitRows (str : String) (code : UInt8) : List Op := [
  ⟨str, [imm3, r], 2, [0xcb, code], .rotBit⟩, ⟨str, [imm3, inHL], 2, [0xcb, code + 6], .rotBit⟩,
  ⟨str, [imm3, ixn], 4, [0xdd, 0xcb, 0, code + 6], .rotBit⟩,
  ⟨str, [imm3, iyn], 4, [0xfd, 0xcb, 0, code + 6], .rotBit⟩]

/-- `SET` and `RES` also copy to a register. -/
def bitCopyRows (str : String) (code : UInt8) : List Op := [
  ⟨str, [imm3, ixn, r], 4, [0xdd, 0xcb, 0, code], .rotBit⟩,
  ⟨str, [imm3, iyn, r], 4, [0xfd, 0xcb, 0, code], .rotBit⟩]

/-- Rotate and shift group, bit manipulation group. -/
def rotateGroup : List Op :=
  rotateRows "RLC" 0x00 ++ rotateRows "RL" 0x10 ++ rotateRows "RRC" 0x08 ++
  rotateRows "RR" 0x18 ++ rotateRows "SLA" 0x20 ++ rotateRows "SLL" 0x30 ++
  rotateRows "SRA" 0x28 ++ rotateRows "SRL" 0x38 ++ bitRows "BIT" 0x40 ++
  bitRows "SET" 0xc0 ++ bitCopyRows "SET" 0xc0 ++ bitRows "RES" 0x80 ++ bitCopyRows "RES" 0x80

end Opers

def optab : List Op :=
  Opers.dataGroup ++ Opers.ld8Group ++ Opers.ld16Group ++ Opers.alu8Group ++ Opers.alu16Group ++
  Opers.generalGroup ++ Opers.exchangeGroup ++ Opers.rotateAGroup ++ Opers.rotateGroup ++
  Opers.ioGroup ++ Opers.jumpGroup

/-- The rows of an instruction; `sort` may put them in another order. -/
def ins (str : String) : List Op := optab.filter fun op => op.str == str

end Scc.As.Z80
