import Scc.Libmach.Coff32Write
import Scc.Libmach.Reader

/-!
# The records of a COFF object

Each kind of record is written with a format of `pack()` and read with one of `unpack()`. An
assertion about the number of bytes that fails gives nothing.
-/

namespace Scc.Libmach.Coff32

open Scc.Libmach.Pack Scc.Libmach.Reader

set_option autoImplicit false

/-- The bytes of a format, if there are as many of them as the assertion says. -/
def packed (order : Order) (fmt : String) (size : Nat) (args : List Arg) : Option Bytes :=
  (Pack.pack order fmt.toList args).bind fun r => if r.2 = size then some r.1 else none

/-- The bits of a short and of a char that are packed. -/
def short (v : Int) : Arg := .number (v % 2 ^ 16).toNat
def char (v : Int) : Arg := .number (v % 2 ^ 8).toNat

def toShort (v : Nat) : Int := Int.bmod v (2 ^ 16)
def toChar (v : Nat) : Int := Int.bmod v (2 ^ 8)

structure Filhdr where
  f_magic : Nat
  f_nscns : Nat
  f_timdat : Nat
  f_symptr : Nat
  f_nsyms : Nat
  f_opthdr : Nat
  f_flags : Nat
deriving DecidableEq

def pack_hdr (order : Order) (hdr : Filhdr) : Option Bytes :=
  packed order "sslllss" FILHSZ
    [.number hdr.f_magic, .number hdr.f_nscns, .number hdr.f_timdat, .number hdr.f_symptr, .number hdr.f_nsyms,
      .number hdr.f_opthdr, .number hdr.f_flags]

def unpack_hdr (order : Order) (buf : Bytes) : Option Filhdr :=
  match unpacked order buf "sslllss" FILHSZ with
  | some [.number f_magic, .number f_nscns, .number f_timdat, .number f_symptr, .number f_nsyms,
      .number f_opthdr, .number f_flags] =>
      some ⟨f_magic, f_nscns, f_timdat, f_symptr, f_nsyms, f_opthdr, f_flags⟩
  | _ => none

def AOUTSZ : Nat := 28

structure Aouthdr where
  magic : Int
  vstamp : Int
  tsize : Nat
  dsize : Nat
  bsize : Nat
  entry : Nat
  text_start : Nat
  data_start : Nat
deriving DecidableEq

def pack_aout (order : Order) (aout : Aouthdr) : Option Bytes :=
  packed order "ssllllll" AOUTSZ
    [short aout.magic, short aout.vstamp, .number aout.tsize, .number aout.dsize, .number aout.bsize,
      .number aout.entry, .number aout.text_start, .number aout.data_start]

def unpack_aout (order : Order) (buf : Bytes) : Option Aouthdr :=
  match unpacked order buf "ssllllll" AOUTSZ with
  | some [.number magic, .number vstamp, .number tsize, .number dsize, .number bsize, .number entry,
      .number text_start, .number data_start] =>
      some ⟨toShort magic, toShort vstamp, tsize, dsize, bsize, entry, text_start, data_start⟩
  | _ => none

/-- The union of a name and an offset into the string table. The offset is used when the first part
is zero. -/
inductive Name
  | name (s : Bytes)
  | offset (n : Nat)
deriving DecidableEq

/-- The eight bytes for the name of a section or a symbol. -/
def pack_name (order : Order) : Name → Option Bytes
  | .name s => some (s.take 8)
  | .offset n => (Pack.pack order "ll".toList [.number 0, .number n]).map Prod.fst

/-- When the first four bytes are zero, the others are an offset. -/
def unpack_name (order : Order) (s : Bytes) : Option Name :=
  if s.take 4 = [0, 0, 0, 0] then
    match unpack order s "ll".toList with
    | some ([.number _, .number n], _) => some (.offset n)
    | _ => none
  else some (.name s)

structure Scnhdr where
  s_name : Name
  s_paddr : Nat
  s_vaddr : Nat
  s_size : Nat
  s_scnptr : Nat
  s_relptr : Nat
  s_lnnoptr : Nat
  s_nrelloc : Nat
  s_nlnno : Nat
  s_flags : Nat
deriving DecidableEq

def pack_scn (order : Order) (scn : Scnhdr) : Option Bytes :=
  (pack_name order scn.s_name).bind fun s =>
    (packed order "llllllssl" (SCNHSZ - 8)
      [.number scn.s_paddr, .number scn.s_vaddr, .number scn.s_size, .number scn.s_scnptr, .number scn.s_relptr,
        .number scn.s_lnnoptr, .number scn.s_nrelloc, .number scn.s_nlnno, .number scn.s_flags]).map (s ++ ·)

def unpack_scn (order : Order) (buf : Bytes) : Option Scnhdr :=
  match unpacked order buf "'8llllllssl" SCNHSZ with
  | some [.pointer s, .number s_paddr, .number s_vaddr, .number s_size, .number s_scnptr, .number s_relptr,
      .number s_lnnoptr, .number s_nrelloc, .number s_nlnno, .number s_flags] =>
      (unpack_name order s).map fun s_name =>
        ⟨s_name, s_paddr, s_vaddr, s_size, s_scnptr, s_relptr, s_lnnoptr, s_nrelloc, s_nlnno, s_flags⟩
  | _ => none

structure Syment where
  n_name : Name
  n_value : Nat
  n_scnum : Int
  n_type : Nat
  n_sclass : Int
  n_numaux : Int
deriving DecidableEq

def pack_ent (order : Order) (ent : Syment) : Option Bytes :=
  (pack_name order ent.n_name).bind fun s =>
    (packed order "lsscc" (SYMESZ - 8)
      [.number ent.n_value, short ent.n_scnum, .number ent.n_type, char ent.n_sclass, char ent.n_numaux]).map (s ++ ·)

def unpack_ent (order : Order) (buf : Bytes) : Option Syment :=
  match unpacked order buf "'8lsscc" SYMESZ with
  | some [.pointer s, .number n_value, .number n_scnum, .number n_type, .number n_sclass, .number n_numaux] =>
    (unpack_name order s).map fun n_name =>
      ⟨n_name, n_value, toShort n_scnum, n_type, toChar n_sclass, toChar n_numaux⟩
  | _ => none

structure Reloc where
  r_vaddr : Nat
  r_symndx : Nat
  r_type : Nat
deriving DecidableEq

def pack_reloc (order : Order) (rel : Reloc) : Option Bytes :=
  packed order "lls" RELSZ [.number rel.r_vaddr, .number rel.r_symndx, .number rel.r_type]

def unpack_reloc (order : Order) (buf : Bytes) : Option Reloc :=
  match unpacked order buf "lls" RELSZ with
  | some [.number r_vaddr, .number r_symndx, .number r_type] => some ⟨r_vaddr, r_symndx, r_type⟩
  | _ => none

structure Lineno where
  l_symndx : Nat
  l_lnno : Nat
deriving DecidableEq

/-- The format has a letter more than there are arguments. -/
def pack_line (order : Order) (lp : Lineno) : Option Bytes :=
  packed order "lls" LINESZ [.number lp.l_symndx, .number lp.l_lnno]

def unpack_line (order : Order) (buf : Bytes) : Option Lineno :=
  match unpacked order buf "ls" LINESZ with
  | some [.number l_symndx, .number l_lnno] => some ⟨l_symndx, l_lnno⟩
  | _ => none

structure AuxScn where
  x_scnlen : Nat
  x_nreloc : Nat
  x_nlinno : Nat
  x_checksum : Nat
  x_associated : Nat
  x_comdat : Nat
deriving DecidableEq

def pack_aux_scn (order : Order) (aux : AuxScn) : Option Bytes :=
  packed order "lsslsc" AUXESZ
    [.number aux.x_scnlen, .number aux.x_nreloc, .number aux.x_nlinno, .number aux.x_checksum,
      .number aux.x_associated, .number aux.x_comdat]

def unpack_aux_scn (order : Order) (buf : Bytes) : Option AuxScn :=
  match unpacked order buf "lsslscccc" AUXESZ with
  | some [.number x_scnlen, .number x_nreloc, .number x_nlinno, .number x_checksum, .number x_associated,
      .number x_comdat, _, _, _] => some ⟨x_scnlen, x_nreloc, x_nlinno, x_checksum, x_associated, x_comdat⟩
  | _ => none

structure AuxFun where
  x_tagndx : Nat
  x_fsize : Nat
  x_lnnoptr : Nat
  x_endndx : Nat
  x_tvndx : Nat
deriving DecidableEq

def pack_aux_fun (order : Order) (aux : AuxFun) : Option Bytes :=
  packed order "lllls" AUXESZ
    [.number aux.x_tagndx, .number aux.x_fsize, .number aux.x_lnnoptr, .number aux.x_endndx, .number aux.x_tvndx]

def unpack_aux_fun (order : Order) (buf : Bytes) : Option AuxFun :=
  match unpacked order buf "lllls" AUXESZ with
  | some [.number x_tagndx, .number x_fsize, .number x_lnnoptr, .number x_endndx, .number x_tvndx] =>
    some ⟨x_tagndx, x_fsize, x_lnnoptr, x_endndx, x_tvndx⟩
  | _ => none

structure AuxAry where
  x_tagndx : Nat
  x_lnno : Nat
  x_size : Nat
  x_dimen0 : Nat
  x_dimen1 : Nat
  x_dimen2 : Nat
  x_dimen3 : Nat
  x_tvndx : Nat
deriving DecidableEq

/-- There is an argument more than the format has letters. -/
def pack_aux_ary (order : Order) (aux : AuxAry) : Option Bytes :=
  packed order "lssssss" AUXESZ
    [.number aux.x_tagndx, .number aux.x_lnno, .number aux.x_size, .number aux.x_dimen0, .number aux.x_dimen1,
      .number aux.x_dimen2, .number aux.x_dimen3, .number aux.x_tvndx]

/-- What is stored does not matter, because the assertion fails. -/
def unpack_aux_ary (order : Order) (buf : Bytes) : Option AuxAry :=
  match unpacked order buf "lssssss" AUXESZ with
  | some [.number x_tagndx, .number x_lnno, .number x_size, .number x_dimen0, .number x_dimen1, .number x_dimen2,
      .number x_dimen3] => some ⟨x_tagndx, x_lnno, x_size, x_dimen0, x_dimen1, x_dimen2, x_dimen3, 0⟩
  | _ => none

structure AuxSym where
  x_tagndx : Nat
  x_lnno : Nat
  x_size : Nat
  x_lnnoptr : Nat
  x_endndx : Nat
  x_tvndx : Nat
deriving DecidableEq

def pack_aux_sym (order : Order) (aux : AuxSym) : Option Bytes :=
  packed order "lsslls" AUXESZ
    [.number aux.x_tagndx, .number aux.x_lnno, .number aux.x_size, .number aux.x_lnnoptr, .number aux.x_endndx,
      .number aux.x_tvndx]

def unpack_aux_sym (order : Order) (buf : Bytes) : Option AuxSym :=
  match unpacked order buf "lsslls" AUXESZ with
  | some [.number x_tagndx, .number x_lnno, .number x_size, .number x_lnnoptr, .number x_endndx, .number x_tvndx] =>
    some ⟨x_tagndx, x_lnno, x_size, x_lnnoptr, x_endndx, x_tvndx⟩
  | _ => none

def E_FILNMLEN : Nat := 18

/-- What is in the buffer afterwards. For an offset only the first eight bytes are set. -/
def pack_aux_file (order : Order) (buf : Bytes) : Name → Option Bytes
  | .name s => some (s.take E_FILNMLEN)
  | .offset n => (Pack.pack order "ll".toList [.number 0, .number n]).map fun r => r.1 ++ buf.drop 8

def unpack_aux_file (order : Order) (buf : Bytes) : Option Name :=
  match unpacked order buf "'18" AUXESZ with
  | some [.pointer s] => unpack_name order s
  | _ => none

/-- The memory of an auxiliary entry of a symbol, as the name of a file: the members of the union begin
at the same place, and its numbers have eight bytes each, the lowest first. -/
def overlay (aux : AuxSym) : Name :=
  if aux.x_tagndx = 0 then .offset (aux.x_lnno + 2 ^ 16 * aux.x_size)
  else
    .name (Scc.Lib.Shifts.scatter (lshifts .q) aux.x_tagndx ++ Scc.Lib.Shifts.scatter (lshifts .s) aux.x_lnno ++
      Scc.Lib.Shifts.scatter (lshifts .s) aux.x_size ++ [0, 0, 0, 0] ++
      Scc.Lib.Shifts.scatter (lshifts .s) aux.x_lnnoptr)

end Scc.Libmach.Coff32
