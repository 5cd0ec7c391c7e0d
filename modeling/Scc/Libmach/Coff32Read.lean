import Scc.Libmach.Coff32Record

/-!
# Reading a COFF object

`coff32read()` reads the parts of an object one after the other and validates them at the end.
-/

namespace Scc.Libmach.Coff32

open Scc.Libmach.Pack Scc.Libmach.Reader

set_option autoImplicit false

inductive Ent
  | SYM_ENT (sym : Syment)
  | SYM_AUX_UNK (buf : Bytes)
  | SYM_AUX_SYM (aux : AuxSym)
  | SYM_AUX_FILE (x_fname : Name)
  | SYM_AUX_SCN (aux : AuxScn)
  | SYM_AUX_FUN (aux : AuxFun)
  | SYM_AUX_ARY (aux : AuxAry)
deriving DecidableEq

def C_STAT : Int := 3
def C_FILE : Int := 103
def T_NULL : Nat := 0
def DT_NON : Nat := 0
def DT_FCN : Nat := 2
def DT_ARY : Nat := 3

/-- The first auxiliary entry of a symbol: its kind follows from the symbol. -/
def unpack_aux (order : Order) (ent : Syment) (buf : Bytes) : Option Ent :=
  let typ := ent.n_type % 16
  let d1 := ent.n_type / 16 % 16
  if ent.n_sclass = C_FILE then (unpack_aux_file order buf).map .SYM_AUX_FILE
  else if ent.n_sclass = C_STAT ∧ d1 = DT_NON ∧ typ = T_NULL then (unpack_aux_scn order buf).map .SYM_AUX_SCN
  else if d1 = DT_FCN then (unpack_aux_fun order buf).map .SYM_AUX_FUN
  else if d1 = DT_ARY then (unpack_aux_ary order buf).map .SYM_AUX_ARY
  else (unpack_aux_sym order buf).map .SYM_AUX_SYM

/-- The other auxiliary entries, when there is room for so many entries. -/
def readunks : Nat → Nat → Bytes → Read (List Ent × Bytes)
  | 0, _, fp => .ok ([], fp)
  | _ + 1, 0, _ => .error .fault
  | n + 1, room + 1, fp => do
      let (buf, fp) ← fread AUXESZ fp
      let (rest, fp) ← readunks n room fp
      .ok (.SYM_AUX_UNK buf :: rest, fp)

def readauxs (order : Order) (ent : Syment) (room : Nat) (fp : Bytes) : Read (List Ent × Bytes) :=
  if ent.n_numaux = 0 then .ok ([], fp)
  else do
    let (buf, fp) ← fread AUXESZ fp
    match room with
    | 0 => .error .fault
    | room + 1 =>
      let first ← assertion (unpack_aux order ent buf)
      if ent.n_numaux < 0 then .error .stray
      else
        let (rest, fp) ← readunks (ent.n_numaux.toNat - 1) room fp
        .ok (first :: rest, fp)

def readents (order : Order) (f_nscns : Nat) : Nat → Nat → Bytes → Read (List Ent × Bytes)
  | _, 0, fp => .ok ([], fp)
  | 0, _ + 1, _ => .error .fail
  | fuel + 1, room + 1, fp => do
      let (buf, fp) ← fread SYMESZ fp
      let ent ← assertion (unpack_ent order buf)
      if ent.n_scnum > f_nscns then .error .fail
      else
        let (auxs, fp) ← readauxs order ent room fp
        let (rest, fp) ← readents order f_nscns fuel (room - auxs.length) fp
        .ok (.SYM_ENT ent :: (auxs ++ rest), fp)

structure Object where
  hdr : Filhdr
  aout : Option Aouthdr
  scns : List Scnhdr
  ents : List Ent
  /-- For each section its relocations. -/
  rels : List (List Reloc)
  lines : List (List Lineno)
  strtbl : Bytes
deriving DecidableEq

def readscns (order : Order) : Nat → Bytes → Bytes → Read (List Scnhdr)
  | 0, _, _ => .ok []
  | n + 1, buf, fp => do
      let scn ← assertion (unpack_scn order (fill buf fp))
      let rest ← readscns order n (fill buf fp) (fp.drop SCNHSZ)
      .ok (scn :: rest)

/-- The size of the string table, in its first four bytes. -/
def strsize (order : Order) (buf : Bytes) : Option Nat :=
  match unpack order buf "l".toList with
  | some ([.number siz], _) => some siz
  | _ => none

/-- The table begins with four bytes that are not set. -/
def readstr (order : Order) (f_nsyms : Nat) (unset : Bytes) (fp : Bytes) : Read Bytes :=
  if f_nsyms = 0 then .ok []
  else do
    let (buf, fp) ← fread 4 fp
    let siz ← assertion (strsize order buf)
    if siz < 4 then .error .fail
    else if siz = 4 then .ok []
    else
      let (str, _) ← fread (siz - 4) fp
      .ok (unset ++ str)

/-- The relocations of the section with this number, which are all read into the same place. -/
def readrels (order : Order) (f_nsyms i nrelloc : Nat) : Nat → List Reloc → Bytes → Read (List Reloc)
  | 0, rp, _ => .ok rp
  | n + 1, rp, fp => do
      let (buf, fp) ← fread RELSZ fp
      let rel ← assertion (unpack_reloc order buf)
      if nrelloc ≤ i then .error .fault
      else if rel.r_symndx ≥ f_nsyms then .error .fail
      else readrels order f_nsyms i nrelloc n (rp.set i rel) fp

def readreloc (order : Order) (f_nsyms : Nat) (file : Bytes) : Nat → List Scnhdr → Read (List (List Reloc))
  | _, [] => .ok []
  | i, scn :: scns => do
      let rp ← readrels order f_nsyms i scn.s_nrelloc scn.s_nrelloc (List.replicate scn.s_nrelloc ⟨0, 0, 0⟩)
        (file.drop scn.s_relptr)
      let rest ← readreloc order f_nsyms file (i + 1) scns
      .ok (rp :: rest)

def readlnnos (order : Order) (f_nsyms : Nat) : Nat → Bytes → Read (List Lineno)
  | 0, _ => .ok []
  | n + 1, fp => do
      let (buf, fp) ← fread LINESZ fp
      let lp ← assertion (unpack_line order buf)
      if lp.l_lnno ≠ 0 ∧ lp.l_symndx ≥ f_nsyms then .error .fail
      else
        let rest ← readlnnos order f_nsyms n fp
        .ok (lp :: rest)

def readlines (order : Order) (f_nsyms : Nat) (file : Bytes) : List Scnhdr → Read (List (List Lineno))
  | [] => .ok []
  | scn :: scns => do
      let lp ← readlnnos order f_nsyms scn.s_nlnno (file.drop scn.s_lnnoptr)
      let rest ← readlines order f_nsyms file scns
      .ok (lp :: rest)

/-- The second long of a union of a name. Beside the name of a symbol it is zero, and in the name of a file
it is the bytes from the ninth on. -/
def x_offset : Name → Nat
  | .offset n => n
  | .name s => Scc.Lib.Shifts.gather (lshifts .q) (s.drop 8)

def valident (f_nsyms strsiz : Nat) (scns : List Scnhdr) (ent : Option Syment) : Ent → Bool
  | .SYM_ENT _ => true
  | .SYM_AUX_UNK _ => true
  | .SYM_AUX_FILE (.offset _) => true
  | .SYM_AUX_FILE (.name s) => x_offset (.name s) ≤ strsiz
  | .SYM_AUX_SCN aux =>
    match ent with
    | none => false
    | some ent =>
      if ent.n_scnum ≤ 0 then false
      else
        match scns[ent.n_scnum.toNat - 1]? with
        | none => false
        | some scn => scn.s_nrelloc = aux.x_nreloc && scn.s_nlnno = aux.x_nlinno
  | .SYM_AUX_FUN aux => aux.x_endndx ≤ f_nsyms && aux.x_tagndx ≤ f_nsyms && aux.x_tvndx ≤ f_nsyms
  | .SYM_AUX_SYM aux => aux.x_endndx ≤ f_nsyms && aux.x_tagndx ≤ f_nsyms && aux.x_tvndx ≤ f_nsyms
  | .SYM_AUX_ARY aux => aux.x_tagndx ≤ f_nsyms && aux.x_tvndx ≤ f_nsyms

def validate (f_nsyms strsiz : Nat) (scns : List Scnhdr) : Option Syment → List Ent → Bool
  | _, [] => true
  | ent, ep :: ents =>
    let ent := match ep with
      | .SYM_ENT ent => some ent
      | _ => ent
    valident f_nsyms strsiz scns ent ep && validate f_nsyms strsiz scns ent ents

/-- `unset` is memory that is used before it is set: a buffer, and the beginning of the string table. -/
structure Unset where
  buf : Bytes
  str : Bytes

def readhdr (order : Order) (fp : Bytes) : Read (Filhdr × Bytes) := do
  let (buf, fp) ← fread FILHSZ fp
  let hdr ← assertion (unpack_hdr order buf)
  .ok (hdr, fp)

def readaout (order : Order) (f_opthdr : Nat) (fp : Bytes) : Read (Option Aouthdr × Bytes) :=
  if f_opthdr = 0 then .ok (none, fp)
  else do
    let (buf, fp) ← fread AOUTSZ fp
    let aout ← assertion (unpack_aout order buf)
    .ok (some aout, fp)

def readparts (order : Order) (unset : Unset) (file : Bytes) (hdr : Filhdr) (aout : Option Aouthdr) (fp : Bytes) :
    Read Object := do
  let scns ← readscns order hdr.f_nscns unset.buf fp
  let (ents, fp) ← readents order hdr.f_nscns hdr.f_nsyms hdr.f_nsyms (file.drop hdr.f_symptr)
  let strtbl ← readstr order hdr.f_nsyms unset.str fp
  let rels ← readreloc order hdr.f_nsyms file 0 scns
  let lines ← readlines order hdr.f_nsyms file scns
  if validate hdr.f_nsyms strtbl.length scns none ents then .ok ⟨hdr, aout, scns, ents, rels, lines, strtbl⟩
  else .error .fail

/-- The object at the beginning of a file. -/
def coff32read (order : Order) (unset : Unset) (file : Bytes) : Read Object := do
  let (hdr, fp) ← readhdr order file
  let (aout, fp) ← readaout order hdr.f_opthdr fp
  readparts order unset file hdr aout fp

/-- The characters of a string up to its end, if it has one. -/
def string (bytes : Bytes) : Option Bytes :=
  if 0 ∈ bytes then some (bytes.takeWhile (· ≠ 0)) else none

/-- Outside of the string table there is no result. -/
def coff32str (strtbl : Bytes) : Name → Option Bytes
  | .name s => some (s.takeWhile (· ≠ 0))
  | .offset n => if n < strtbl.length then string (strtbl.drop n) else none

end Scc.Libmach.Coff32
