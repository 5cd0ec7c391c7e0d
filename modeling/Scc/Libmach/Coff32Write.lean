import Mathlib.Algebra.Ring.Nat
import Mathlib.Algebra.Ring.Int.Defs
import Mathlib.Data.List.Basic
import Mathlib.Data.List.Pairwise

/-!
# Writing a COFF object

`coff32write()` computes the file offsets first and then writes the parts of the object
one after the other. Only the places of the parts matter here: what is written is a list
of regions. A write that fails, or an assertion that does, gives nothing.
-/

namespace Scc.Libmach

set_option autoImplicit false

structure Scnhdr where
  /-- The length of the name, when it is too long for the header. -/
  name : Option Nat
  s_size : Nat
  /-- The map has a file with the bytes of the section. -/
  mapped : Bool
  s_nrelloc : Nat
  s_nlnno : Nat
deriving DecidableEq

/-- An entry of the symbol table, with the length of a long name. -/
inductive Entry
  | SYM_ENT (name : Option Nat)
  | SYM_AUX_UNK
  | SYM_AUX_SYM
  | SYM_AUX_FILE (name : Option Nat)
  | SYM_AUX_SCN
  | SYM_AUX_FUN
  | SYM_AUX_ARY
deriving DecidableEq

structure Coff32 where
  /-- The size of the optional header. -/
  f_opthdr : Nat
  scns : List Scnhdr
  ents : List Entry
deriving DecidableEq

def FILHSZ : Nat := 20
def SCNHSZ : Nat := 40
def SYMESZ : Nat := 18
def AUXESZ : Nat := 18
def RELSZ : Nat := 10
def LINESZ : Nat := 6
def LONG_MAX : Int := 2 ^ 63 - 1

/-- The running pointer over the sections: where there is something its place, and
nothing else. -/
def pointers (bytes : Scnhdr → Option Nat) : Nat → List Scnhdr → List Nat
  | _, [] => []
  | ptr, scn :: rest =>
    match bytes scn with
    | some n => ptr :: pointers bytes (ptr + n) rest
    | none => 0 :: pointers bytes ptr rest

def pass (bytes : Scnhdr → Option Nat) (scns : List Scnhdr) : Nat :=
  (scns.map fun scn => (bytes scn).getD 0).sum

def dataBytes (scn : Scnhdr) : Option Nat := if scn.mapped then some scn.s_size else none

def relocBytes (scn : Scnhdr) : Option Nat :=
  if scn.s_nrelloc > 0 then some (scn.s_nrelloc * RELSZ) else none

/-- The line numbers, counted with the size of a relocation. -/
def lineBytes (scn : Scnhdr) : Option Nat :=
  if scn.s_nlnno > 0 then some (scn.s_nlnno * RELSZ) else none

structure Offsets where
  f_symptr : Nat
  s_scnptr : List Nat
  s_relptr : List Nat
  s_lnnoptr : List Nat
deriving DecidableEq

def offsets (coff : Coff32) (start : Nat) : Offsets :=
  let ptr := start + FILHSZ + coff.f_opthdr + coff.scns.length * SCNHSZ
  let ptr' := ptr + pass dataBytes coff.scns
  let ptr'' := ptr' + pass relocBytes coff.scns
  { s_scnptr := pointers dataBytes ptr coff.scns
    f_symptr := if coff.ents.length > 0 then ptr' else 0
    s_relptr := pointers relocBytes ptr' coff.scns
    s_lnnoptr := pointers lineBytes ptr'' coff.scns }

inductive Part
  | header
  | sections
  | data (scn : Nat)
  | relocs (scn : Nat)
  | lines (scn : Nat)
  | symbols
  | strings
deriving DecidableEq

structure Region where
  part : Part
  pos : Nat
  len : Nat
deriving DecidableEq

structure Stream where
  pos : Nat
  written : List Region
  /-- What `ferror()` tells. -/
  error : Bool
deriving DecidableEq

def Stream.fwrite (fp : Stream) (part : Part) (n : Nat) : Stream :=
  { fp with pos := fp.pos + n, written := fp.written ++ [⟨part, fp.pos, n⟩] }

def Stream.fread (fp : Stream) : Stream := { fp with error := true }

/-- The number of bytes of a format of `pack()`. -/
def pack (fmt : String) : Nat :=
  (fmt.toList.map fun c => if c = 'c' then 1 else if c = 's' then 2 else if c = 'l' then 4 else 8).sum

def assert (b : Bool) : Option Unit := if b then some () else none

/-- The size of the string table with one more string. -/
def allocstring (len : Nat) (siz : Int) : Option Int :=
  if (len : Int) + 1 > siz - LONG_MAX then none else some (siz + len + 1)

/-- The name is in the header, or goes into the string table. -/
def putname (name : Option Nat) (siz : Int) : Option Int :=
  match name with
  | none => some siz
  | some len => allocstring len siz

def writehdr (fp : Stream) : Option Stream :=
  (assert (pack "sslllss" = FILHSZ)).map fun _ => fp.fwrite .header FILHSZ

def writeaout (coff : Coff32) (fp : Stream) : Stream := if coff.f_opthdr = 0 then fp else fp.fread

def writescns (scns : List Scnhdr) (fp : Stream) : Option (Stream × Int) :=
  (scns.foldlM (fun siz scn => (putname scn.name siz).bind fun siz =>
    (assert (pack "llllllssl" + 8 = SCNHSZ)).map fun _ => siz) (0 : Int)).map fun siz =>
      (fp.fwrite .sections (scns.length * SCNHSZ), siz)

/-- One part for every section that has something. -/
def writeparts (bytes : Scnhdr → Option Nat) (part : Nat → Part) : Nat → List Scnhdr → Stream → Stream
  | _, [], fp => fp
  | i, scn :: rest, fp =>
    match bytes scn with
    | some n => writeparts bytes part (i + 1) rest (fp.fwrite (part i) n)
    | none => writeparts bytes part (i + 1) rest fp

def writedata (scns : List Scnhdr) (fp : Stream) : Stream := writeparts dataBytes .data 0 scns fp

def writereloc (scns : List Scnhdr) (fp : Stream) : Option Stream :=
  (assert (pack "lls" = RELSZ)).map fun _ => writeparts relocBytes .relocs 0 scns fp

/-- The first line number is packed with the format of a relocation. -/
def writelines (scns : List Scnhdr) (fp : Stream) : Option Stream :=
  if scns.any (fun scn => scn.s_nlnno > 0) then
    (assert (pack "lls" = LINESZ)).map fun _ =>
      writeparts (fun scn => some (scn.s_nlnno * LINESZ)) .lines 0 scns fp
  else some fp

def packent (ent : Entry) (siz : Int) : Option Int :=
  match ent with
  | .SYM_ENT name =>
    (putname name siz).bind fun siz => (assert (pack "lsscc" + 8 = SYMESZ)).map fun _ => siz
  | .SYM_AUX_UNK => some siz
  | .SYM_AUX_SYM => some siz
  | .SYM_AUX_FILE name => putname name siz
  | .SYM_AUX_SCN => (assert (pack "lsslsc" = AUXESZ)).map fun _ => siz
  | .SYM_AUX_FUN => (assert (pack "lllls" = AUXESZ)).map fun _ => siz
  | .SYM_AUX_ARY => (assert (pack "lssssss" = AUXESZ)).map fun _ => siz

def writeents (ents : List Entry) (siz : Int) (fp : Stream) : Option (Stream × Int) :=
  (ents.foldlM (fun siz ent => packent ent siz) siz).map fun siz =>
    (fp.fwrite .symbols (ents.length * SYMESZ), siz)

def writestr (siz : Int) (fp : Stream) : Option Stream :=
  if siz ≥ 2 ^ 16 then none else some (fp.fwrite .strings (4 + siz.toNat))

def coff32write (coff : Coff32) (start : Nat) : Option (Offsets × Stream) :=
  (writehdr ⟨start, [], false⟩).bind fun fp =>
    (writescns coff.scns (writeaout coff fp)).bind fun scns =>
      (writereloc coff.scns (writedata coff.scns scns.1)).bind fun fp =>
        (writelines coff.scns fp).bind fun fp =>
          (writeents coff.ents scns.2 fp).bind fun ents =>
            (writestr ents.2 ents.1).bind fun fp =>
              if fp.error then none else some (offsets coff start, fp)

/-- Every section that has something of the kind has it where its pointer says. -/
def Located (fp : Stream) (bytes : Scnhdr → Option Nat) (part : Nat → Part) (scns : List Scnhdr)
    (ptrs : List Nat) : Prop :=
  ∀ i scn n, scns[i]? = some scn → bytes scn = some n →
    ∃ ptr, ptrs[i]? = some ptr ∧ ⟨part i, ptr, n⟩ ∈ fp.written

def Region.before (first second : Region) : Prop := first.pos + first.len ≤ second.pos

structure Correct (coff : Coff32) (offs : Offsets) (fp : Stream) : Prop where
  symbols : coff.ents ≠ [] → ⟨.symbols, offs.f_symptr, coff.ents.length * SYMESZ⟩ ∈ fp.written
  data : Located fp dataBytes .data coff.scns offs.s_scnptr
  relocs : Located fp relocBytes .relocs coff.scns offs.s_relptr
  lines : Located fp (fun scn => if scn.s_nlnno > 0 then some (scn.s_nlnno * LINESZ) else none) .lines
    coff.scns offs.s_lnnoptr
  disjoint : fp.written.Pairwise Region.before

def Entry.writable : Entry → Bool
  | .SYM_ENT name => name.isNone
  | .SYM_AUX_FILE name => name.isNone
  | .SYM_AUX_SCN => false
  | .SYM_AUX_ARY => false
  | _ => true

structure Writable (coff : Coff32) : Prop where
  opthdr : coff.f_opthdr = 0
  names : ∀ scn ∈ coff.scns, scn.name = none
  entries : ∀ ent ∈ coff.ents, ent.writable = true
  lines : ∀ scn ∈ coff.scns, scn.s_nlnno = 0
  relocs : coff.ents = [] ∨ ∀ scn ∈ coff.scns, scn.s_nrelloc = 0

end Scc.Libmach
