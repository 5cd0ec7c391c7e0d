import Scc.Libmach.Coff32Entries

/-!
# Building and writing a COFF object

`setsec()` and `setsym()` add sections and symbols to an object, `coff32write()` writes it, and
`getsec()` and `getsym()` find them in an object that was read. An object that is only built has no
relocations and no line numbers. Memory that is not set is an argument.
-/

namespace Scc.Libmach.Coff32

open Scc.Libmach.Pack Scc.Libmach.Reader

set_option autoImplicit false

structure Str where
  bytes : Bytes
  no_nul : 0 ∉ bytes

structure Coff where
  hdr : Filhdr
  scns : List Scnhdr
  ents : List Ent
  strtbl : Bytes
  strsiz : Nat

structure Arch where
  f_magic : Nat
  f_flags : Nat
  order : Order
deriving DecidableEq

def coff32archs : List Arch := [⟨0x014c, 0x0105, .LITTLE_ENDIAN⟩, ⟨0x805a, 0x3105, .LITTLE_ENDIAN⟩]

def coff32new (arch : Arch) : Coff := ⟨⟨arch.f_magic, 0, 0, 0, 0, 0, arch.f_flags⟩, [], [], [], 0⟩

def SCNNMLEN : Nat := 8
def SYMNMLEN : Nat := 8
def SHRT_MAX : Nat := 2 ^ 15 - 1
def ULONG_MAX : Nat := 2 ^ 64 - 1
def F_LSYMS : Nat := 8

structure Section where
  name : Str
  base : Nat
  load : Nat
  size : Nat
  type : Char
  flags : Nat

/-- The flags of the header. Of the flags of a section, the bits from the lowest on are read, write,
execute, load, allocate and relocate. -/
def stypOf (sec : Section) : Option Nat :=
  match sec.type with
  | 'D' =>
    if sec.flags = 0b111011 then
      if sec.name.bytes = [46, 100, 97, 116, 97] then some 0x40 else some 0
    else if sec.flags = 0b010011 then some 0x02
    else if sec.flags = 0b111001 then some 0x100
    else if sec.flags = 0b111101 then some 0x60
    else none
  | 'T' => some 0x20
  | 'B' => some 0x80
  | _ => none

def strncpy (name : Bytes) (n : Nat) : Bytes := name ++ List.replicate (n - name.length) 0

/-- A short name is copied. One without characters leaves only zeros, which is taken for an offset into
the string table, and the offset stays as it was. -/
def inlineName (name : Str) (unset : Nat) : Name :=
  if name.bytes = [] then .offset unset else .name (strncpy name.bytes SYMNMLEN)

/-- The name at the end of the string table. The bytes between the old table and the place of the name are
not set. -/
def appendName (coff : Coff) (name : Str) : Option (Nat × Coff) :=
  let siz := name.bytes.length
  if coff.strsiz > ULONG_MAX - siz - 1 then none
  else
    some (coff.strsiz, { coff with
        strtbl := coff.strtbl ++ List.replicate (coff.strsiz - coff.strtbl.length) 0 ++ name.bytes ++ [0]
        strsiz := coff.strsiz + (siz + coff.strsiz + 1) })

def secname (coff : Coff) (name : Str) (unset : Nat) : Option (Name × Coff) :=
  if name.bytes.length < SCNNMLEN then some (inlineName name unset, coff)
  else (appendName coff name).map fun r => (.offset r.1, r.2)

def putAt {α : Type} (l : List α) (n : Nat) (a : α) : List α := if n < l.length then l.set n a else l ++ [a]

/-- Nothing for an index after the end, where memory is left that is not set. -/
def coff32setsec (unset : Nat) (coff : Coff) (n : Nat) (sec : Section) : Option Coff :=
  (stypOf sec).bind fun flags =>
    if sec.name.bytes.length ≥ SCNNMLEN then none
    else if n > coff.scns.length then none
    else if n ≥ coff.scns.length ∧ n > SHRT_MAX - 1 then none
    else
      (secname coff sec.name unset).map fun r =>
        { r.2 with
          hdr := { r.2.hdr with f_nscns := if n ≥ coff.scns.length then n + 1 else r.2.hdr.f_nscns }
          scns := putAt r.2.scns n ⟨r.1, sec.load, sec.base, sec.size, 0, 0, 0, 0, 0, flags⟩ }

structure Symbol where
  name : Str
  value : Nat
  section_ : Int
  type : Char

def C_EXT : Int := 2

/-- The section and the class of a symbol, which stays as it was for some types. -/
def defent (sym : Symbol) (unset : Int) : Option (Int × Int) :=
  match sym.type with
  | 'N' => some (-2, unset)
  | 'A' => some (-1, C_EXT)
  | 'a' => some (-1, unset)
  | 'C' | 'U' => some (0, unset)
  | 'T' | 'D' | 'B' | 'R' => some (sym.section_ + 1, C_EXT)
  | 't' | 'd' | 'b' | 'r' => some (sym.section_ + 1, C_STAT)
  | _ => none

def symname (coff : Coff) (name : Str) (unset : Nat) : Option (Name × Coff) :=
  if name.bytes.length < SYMNMLEN then some (inlineName name unset, coff)
  else (appendName coff name).map fun r => (.offset r.1, r.2)

/-- The memory of an entry that is not set. -/
structure Garbage where
  n_offset : Nat
  n_type : Nat
  n_sclass : Int

/-- The kind of the entry is not set either. It is taken to be the one of a symbol. -/
def coff32setsym (unset : Garbage) (coff : Coff) (n : Nat) (sym : Symbol) : Option Coff :=
  if n > coff.ents.length then none
  else if n + 1 > INT_MAX then none
  else
    (symname coff sym.name unset.n_offset).bind fun r =>
      (defent sym unset.n_sclass).map fun d =>
        { r.2 with
          hdr :=
            { r.2.hdr with
              f_flags := if r.2.hdr.f_flags / F_LSYMS % 2 = 1 then r.2.hdr.f_flags - F_LSYMS else r.2.hdr.f_flags
              f_nsyms := if n ≥ coff.ents.length then n + 1 else r.2.hdr.f_nsyms }
          ents := putAt r.2.ents n (.SYM_ENT ⟨r.1, sym.value, d.1, unset.n_type, d.2, 0⟩) }

/-- A section of the map: its name, and the bytes that are copied from its file. -/
structure Mapsec where
  name : Bytes
  bytes : Option Bytes

/-- The characters of the name in a header. -/
def Name.chars : Name → Bytes
  | .name s => s.takeWhile (· ≠ 0)
  | .offset _ => []

def findsec (map : List Mapsec) (name : Bytes) : Option Mapsec := map.find? (·.name = name)

def mapped (map : List Mapsec) (scn : Scnhdr) : Option Bytes := (findsec map scn.s_name.chars).bind Mapsec.bytes

/-- The places of the data, and the place after them. -/
def placedata (map : List Mapsec) : Nat → List Scnhdr → List Scnhdr × Nat
  | ptr, [] => ([], ptr)
  | ptr, scn :: scns =>
    match mapped map scn with
    | some _ =>
      let r := placedata map (ptr + scn.s_size) scns
      ({ scn with s_scnptr := ptr } :: r.1, r.2)
    | none =>
      let r := placedata map ptr scns
      ({ scn with s_scnptr := 0 } :: r.1, r.2)

/-- The places of relocations and line numbers. -/
def placeparts (count : Scnhdr → Nat) (put : Scnhdr → Nat → Scnhdr) : Nat → List Scnhdr → List Scnhdr × Nat
  | ptr, [] => ([], ptr)
  | ptr, scn :: scns =>
    let r := placeparts count put (ptr + count scn * RELSZ) scns
    (put scn (if count scn > 0 then ptr else 0) :: r.1, r.2)

/-- A name that goes into the new string table. -/
def Name.string (strtbl : Bytes) : Name → Bytes
  | .name _ => []
  | .offset n => (strtbl.drop n).takeWhile (· ≠ 0) ++ [0]

def Ent.string (strtbl : Bytes) : Ent → Bytes
  | .SYM_ENT ent => ent.n_name.string strtbl
  | .SYM_AUX_FILE x_fname => x_fname.string strtbl
  | _ => []

def writescn (order : Order) (strtbl : Bytes) (w : Bytes × Int) (scn : Scnhdr) : Option (Bytes × Int) :=
  (putname (scn.s_name.long strtbl) w.2).bind fun siz => (pack_scn order scn).map fun buf => (w.1 ++ buf, siz)

def writescns (order : Order) (strtbl : Bytes) (scns : List Scnhdr) : Option (Bytes × Int) :=
  scns.foldlM (writescn order strtbl) ([], 0)

def writestr (order : Order) (siz : Int) (strtbl : Bytes) : Option Bytes :=
  if siz ≥ 2 ^ 16 then none
  else (Pack.pack order "l".toList [.number siz.toNat]).map fun r => r.1 ++ strtbl

/-- The headers with the places of everything, when the object begins at this place of the file. -/
def place (map : List Mapsec) (start : Nat) (coff : Coff) : Filhdr × List Scnhdr :=
  let ptr := start + FILHSZ + coff.hdr.f_opthdr + coff.scns.length * SCNHSZ
  let data := placedata map ptr coff.scns
  let rels := placeparts Scnhdr.s_nrelloc (fun scn ptr => { scn with s_relptr := ptr }) data.2 data.1
  let lines := placeparts Scnhdr.s_nlnno (fun scn ptr => { scn with s_lnnoptr := ptr }) rels.2 rels.1
  ({ coff.hdr with f_symptr := if coff.hdr.f_nsyms > 0 then data.2 else 0 }, lines.1)

def coff32write (order : Order) (unset : Bytes) (coff : Coff) (map : List Mapsec) (start : Nat) : Option Bytes :=
  let placed := place map start coff
  (pack_hdr order placed.1).bind fun header =>
    -- the optional header is read from the stream, which is an error
    if coff.hdr.f_opthdr ≠ 0 then none
    else
      (writescns order coff.strtbl placed.2).bind fun scns =>
        (writeents order coff.strtbl ⟨[], scns.2, unset⟩ coff.ents).bind fun ents =>
          (writestr order ents.siz (placed.2.flatMap (·.s_name.string coff.strtbl) ++
            coff.ents.flatMap (·.string coff.strtbl))).map fun str =>
              header ++ (scns.1 ++ (coff.scns.flatMap (fun scn => (mapped map scn).getD []) ++ (ents.out ++ str)))

/-- The names of the sections in the order of their indexes. -/
def getsecs (obj : Object) : List (Option Bytes) := obj.scns.map fun scn => coff32str obj.strtbl scn.s_name

/-- The names of the symbols. The auxiliary entries are skipped. -/
def getsymsFrom (strtbl : Bytes) : Nat → List Ent → List (Option Bytes)
  | fuel + 1, .SYM_ENT sym :: ents => coff32str strtbl sym.n_name :: getsymsFrom strtbl fuel (ents.drop sym.n_numaux.toNat)
  | _, _ => []

def getsyms (obj : Object) : List (Option Bytes) :=
  if obj.hdr.f_flags / F_LSYMS % 2 = 1 then [] else getsymsFrom obj.strtbl obj.ents.length obj.ents

end Scc.Libmach.Coff32
