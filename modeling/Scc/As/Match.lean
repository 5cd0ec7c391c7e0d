import Mathlib.Algebra.Ring.Nat
import Scc.Lib.Splits

/-!
# Operand matching

The arguments of an entry of `optab` are a string of bytes; `match()` walks over it and over
the operands. The three assemblers differ in the classes of operands.
-/

namespace Scc.As.Match

open Scc.Lib

set_option autoImplicit false

inductive Code (α : Type)
  | AOPT
  | AREP
  | arg (a : α)

/-- What `str2args()` writes for one argument. -/
def str2arg {α : Type} : Elem α → List (Code α)
  | .once a => [.arg a]
  | .opt a => [.AOPT, .arg a]
  | .rep a => [.AREP, .arg a]

def str2args {α : Type} (args : List (Elem α)) : List (Code α) := args.flatMap str2arg

/-- What the `switch` says of one operand. -/
inductive Verdict
  | ok
  | no
  /-- `error()` or `abort()`. -/
  | stop
deriving DecidableEq

inductive Outcome
  | success
  | failure
  | stop
  /-- A read of `*args` where there are no arguments. -/
  | beyond
deriving DecidableEq

/-- The loop of `match()`; with `rep` the pattern goes back one byte before it goes on. -/
def matchLoop {α β : Type} (check : α → β → Verdict) :
    Bool → Bool → List (Code α) → List β → Outcome
  | _, _, [], [] => .success
  | _, _, [], _ :: _ => .failure
  | rep, opt, _ :: _, [] => if rep || opt then .success else .failure
  | rep, opt, arg :: p, np :: args =>
    match arg with
    | .AOPT => matchLoop check rep true (if rep then arg :: p else p) args
    | .AREP => matchLoop check true opt (if rep then arg :: p else p) args
    | .arg a =>
      match check a np with
      | .ok => matchLoop check rep opt (if rep then arg :: p else p) args
      | .no => .failure
      | .stop => .stop

/-- `getargs()` returns a null pointer for a line without operands. -/
def match_ {α β : Type} (check : α → β → Verdict) (p : List (Code α)) (args : List β) : Outcome :=
  match p, args with
  | [], [] => .success
  | [], _ :: _ => .failure
  | _ :: _, [] => .beyond
  | p, args => matchLoop check false false p args

/-- An operand by its addressing mode; the value is the one of its symbol. -/
inductive Node (Reg : Type)
  | reg (r : Reg)
  | str
  /-- A name alone, which is an `ANUMBER`. -/
  | iden
  /-- After `$`, also for a name alone. -/
  | imm (isIden : Bool) (value : UInt64)
  | direct
  | indir (r : Reg)
  /-- A register and an offset. -/
  | index (r : Reg) (off : UInt64)

inductive Width
  | AIMM2 | AIMM3 | AIMM5 | AIMM8 | AIMM16 | AIMM32 | AIMM64
deriving DecidableEq

def toobig (val : UInt64) : Width → Bool
  | .AIMM2 => val > 3
  | .AIMM3 => val > 7
  | .AIMM5 => val > 0x1F
  | .AIMM8 => val > 0xFF
  | .AIMM16 => val > 0xFFFF
  | .AIMM32 => val > 0xFFFFFFFF
  | .AIMM64 => true

section

variable {Reg : Type}

def ofBool (holds : Bool) : Verdict := if holds then .ok else .no

def checkImm (width : Width) : Node Reg → Verdict
  | .imm _ value => if toobig value width then .stop else .ok
  | _ => .no

def checkSym : Node Reg → Verdict
  | .iden => .ok
  | .imm isIden _ => ofBool isIden
  | _ => .no

def checkDirect : Node Reg → Verdict
  | .direct => .ok
  | _ => .no

def checkStr : Node Reg → Verdict
  | .str => .ok
  | _ => .no

/-- The case of the classes of registers, with `getclass()`. -/
def checkClass (getclass : Reg → Option Bool) : Node Reg → Verdict
  | .reg r =>
    match getclass r with
    | some holds => ofBool holds
    | none => .stop
  | _ => .no

def Width.bound : Width → Nat
  | .AIMM2 => 2
  | .AIMM3 => 3
  | .AIMM5 => 5
  | .AIMM8 => 8
  | .AIMM16 => 16
  | .AIMM32 => 32
  | .AIMM64 => 64

def IsImm (width : Width) : Node Reg → Prop
  | .imm _ value => value.toNat < 2 ^ width.bound
  | _ => False

def IsSym : Node Reg → Prop
  | .iden => True
  | .imm isIden _ => isIden = true
  | _ => False

def IsDirect : Node Reg → Prop
  | .direct => True
  | _ => False

def IsStr : Node Reg → Prop
  | .str => True
  | _ => False

def IsReg (members : List Reg) : Node Reg → Prop
  | .reg r => r ∈ members
  | _ => False

end

namespace X80

/-- In the order of the enumeration, which starts at `AMAX`. -/
inductive Reg
  | AF | A | F | BC | B | C | HL | H | L | DE | D | E | IX | IXL | IXH | IY | IYL | IYH
  | R | I | AF_ | SP | NZ | Z | NC | PO | PE | P | M
deriving DecidableEq

def Reg.value (r : Reg) : UInt64 := 19 + r.ctorIdx.toUInt64

inductive Class
  | RCLASS | PCLASS | QCLASS | DDCLASS | QQCLASS | PPCLASS | RRCLASS | CCCLASS | SSCLASS
deriving DecidableEq

def getclass : Reg → List Class
  | .C => [.RCLASS, .PCLASS, .QCLASS, .CCCLASS, .SSCLASS]
  | .A | .B | .D | .E => [.RCLASS, .PCLASS, .QCLASS]
  | .H | .L => [.RCLASS]
  | .IXL | .IXH => [.PCLASS]
  | .IYL | .IYH => [.QCLASS]
  | .HL => [.DDCLASS, .QQCLASS]
  | .BC | .DE => [.DDCLASS, .QQCLASS, .PPCLASS, .RRCLASS]
  | .SP => [.DDCLASS, .PPCLASS, .RRCLASS]
  | .AF => [.QQCLASS]
  | .IX => [.PPCLASS]
  | .IY => [.RRCLASS]
  | .PO | .PE | .P | .M => [.CCCLASS]
  | .NZ | .Z | .NC => [.CCCLASS, .SSCLASS]
  | .F | .R | .I | .AF_ => []

/-- The registers with an argument of their own. -/
def single : List Reg := [.A, .I, .R, .F, .HL, .DE, .IY, .IX, .SP, .AF, .AF_]

def indirect : List Reg := [.C, .HL, .DE, .BC, .IX, .IY, .SP]

/-- The arguments in `opers.dat`. -/
inductive Arg
  | AREG (r : Reg) (listed : r ∈ single)
  | AINDER (r : Reg) (listed : r ∈ indirect)
  | AINDEX (r : Reg) (listed : r = .IX ∨ r = .IY)
  | AREG_CLASS (class_ : Class)
  | ARST
  | AZERO
  | AIMM (width : Width) (listed : width ≠ .AIMM2 ∧ width ≠ .AIMM5)
  | ASYM
  | ADIRECT
  | ASTR

/-- The overflow of an index is looked for in the register, not in the offset. -/
def check : Arg → Node Reg → Verdict
  | .AREG r _, .reg s => ofBool (s = r)
  | .AINDER r _, .indir s => ofBool (s = r)
  | .AINDEX r _, .index s _ =>
    if s ≠ r then .no else if toobig s.value .AIMM8 then .stop else .ok
  | .AREG_CLASS class_, np => checkClass (fun r => some (class_ ∈ getclass r)) np
  | .ARST, .imm _ value => ofBool (value &&& ~~~0x38 = 0)
  | .AZERO, .imm _ _ => .ok
  | .AIMM width _, np => checkImm width np
  | .ASYM, np => checkSym np
  | .ADIRECT, np => checkDirect np
  | .ASTR, np => checkStr np
  | _, _ => .no

/-- The registers of a class by the comments of `proc.h`. -/
def Class.members : Class → List Reg
  | .RCLASS => [.B, .C, .D, .E, .H, .L, .A]
  | .PCLASS => [.B, .C, .D, .E, .IXH, .IXL, .A]
  | .QCLASS => [.B, .C, .D, .E, .IYH, .IYL, .A]
  | .DDCLASS => [.BC, .DE, .HL, .SP]
  | .QQCLASS => [.BC, .DE, .HL, .AF]
  | .PPCLASS => [.BC, .DE, .IX, .SP]
  | .RRCLASS => [.BC, .DE, .IY, .SP]
  | .SSCLASS => [.C, .NC, .Z, .NZ]
  | .CCCLASS => [.NZ, .Z, .NC, .C, .PO, .PE, .P, .M]

def sat : Arg → Node Reg → Prop
  | .AREG r _, np => IsReg [r] np
  | .AINDER r _, .indir s => s = r
  | .AINDEX r _, .index s _ => s = r
  | .AREG_CLASS class_, np => IsReg class_.members np
  | .ARST, .imm _ value => value ∈ [0x00, 0x08, 0x10, 0x18, 0x20, 0x28, 0x30, 0x38]
  | .AZERO, .imm _ value => value = 0
  | .AIMM width _, np => IsImm width np
  | .ASYM, np => IsSym np
  | .ADIRECT, np => IsDirect np
  | .ASTR, np => IsStr np
  | _, _ => False

end X80

namespace X86

inductive Reg
  | AL | AH | BL | BH | CL | CH | DL | DH
  | AX | BX | CX | DX | DI | SI | SP | BP
  | EAX | ECX | EDX | EBX | ESP | EBP | ESI | EDI
  /-- The registers without a class. -/
  | other (value : Nat)
deriving DecidableEq

inductive Class
  | R8CLASS | R16CLASS | R32CLASS
deriving DecidableEq

def getclass : Reg → List Class
  | .AL | .AH | .BL | .BH | .CL | .CH | .DL | .DH => [.R8CLASS]
  | .AX | .BX | .CX | .DX | .DI | .SI | .SP | .BP => [.R16CLASS]
  | _ => []

inductive Arg
  | AREG_R8CLASS
  | AREG_R16CLASS
  | AREG_R32CLASS
  | AIMM (width : Width) (listed : width ≠ .AIMM2 ∧ width ≠ .AIMM3 ∧ width ≠ .AIMM5)
  | ASYM
  | ADIRECT
  | ASTR

/-- There is no case for the registers of 32 bits. -/
def check : Arg → Node Reg → Verdict
  | .AREG_R8CLASS, np => checkClass (fun r => some (.R8CLASS ∈ getclass r)) np
  | .AREG_R16CLASS, np => checkClass (fun r => some (.R16CLASS ∈ getclass r)) np
  | .AREG_R32CLASS, _ => .stop
  | .AIMM width _, np => checkImm width np
  | .ASYM, np => checkSym np
  | .ADIRECT, np => checkDirect np
  | .ASTR, np => checkStr np

def sat : Arg → Node Reg → Prop
  | .AREG_R8CLASS, np => IsReg [.AL, .CL, .DL, .BL, .AH, .CH, .DH, .BH] np
  | .AREG_R16CLASS, np => IsReg [.AX, .CX, .DX, .BX, .SP, .BP, .SI, .DI] np
  | .AREG_R32CLASS, np => IsReg [.EAX, .ECX, .EDX, .EBX, .ESP, .EBP, .ESI, .EDI] np
  | .AIMM width _, np => IsImm width np
  | .ASYM, np => IsSym np
  | .ADIRECT, np => IsDirect np
  | .ASTR, np => IsStr np

end X86

namespace Ppc

abbrev Reg := Fin 32

inductive Arg
  | AIMM (width : Width) (listed : width ≠ .AIMM3)
  | ASYM
  | ASTR

def check : Arg → Node Reg → Verdict
  | .AIMM width _, np => checkImm width np
  | .ASYM, np => checkSym np
  | .ASTR, np => checkStr np

def sat : Arg → Node Reg → Prop
  | .AIMM width _, np => IsImm width np
  | .ASYM, np => IsSym np
  | .ASTR, np => IsStr np

end Ppc

inductive Proc
  | x80
  | x86
  | ppc

def Proc.Arg : Proc → Type
  | .x80 => X80.Arg
  | .x86 => X86.Arg
  | .ppc => Ppc.Arg

def Proc.Operand : Proc → Type
  | .x80 => Node X80.Reg
  | .x86 => Node X86.Reg
  | .ppc => Node Ppc.Reg

def Proc.check : (proc : Proc) → proc.Arg → proc.Operand → Verdict
  | .x80 => X80.check
  | .x86 => X86.check
  | .ppc => Ppc.check

def Proc.sat : (proc : Proc) → proc.Arg → proc.Operand → Prop
  | .x80 => X80.sat
  | .x86 => X86.sat
  | .ppc => Ppc.sat

/-- An argument whose check is not what it says: a literal zero that is any number, a number
of 64 bits that is always too big, the registers of 32 bits. -/
def Proc.faulty : (proc : Proc) → proc.Arg → Prop
  | .x80, arg => arg = X80.Arg.AZERO ∨ ∃ listed, arg = X80.Arg.AIMM .AIMM64 listed
  | .x86, arg => arg = X86.Arg.AREG_R32CLASS ∨ ∃ listed, arg = X86.Arg.AIMM .AIMM64 listed
  | .ppc, arg => ∃ listed, arg = Ppc.Arg.AIMM .AIMM64 listed

/-- It succeeds exactly for a list that can be split, and reads no further. -/
def Exact (proc : Proc) (args : List (Elem proc.Arg)) (nps : List proc.Operand) : Prop :=
  match_ proc.check (str2args args) nps ≠ .beyond ∧
    (match_ proc.check (str2args args) nps = .success ↔ Splits proc.sat args nps)

end Scc.As.Match
