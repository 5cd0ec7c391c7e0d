import Mathlib.Data.List.DropRight

/-!
# Members of an archive

Every member of an archive begins with a header of sixty characters. `armember()` of
libmach and `valid()` of scc-ar read it, each in its own way.
-/

namespace Scc.Ar

set_option autoImplicit false

abbrev Bytes := List UInt8

def ARMAG : Bytes := [33, 60, 97, 114, 99, 104, 62, 10]
def SARMAG : Nat := 8
def ARFMAG : Bytes := [96, 10]
def SARNAM : Nat := 16

structure ArHdr where
  ar_name : Bytes
  ar_date : Bytes
  ar_uid : Bytes
  ar_gid : Bytes
  ar_mode : Bytes
  ar_size : Bytes
  ar_fmag : Bytes
deriving DecidableEq

/-- `sizeof(struct ar_hdr)` -/
def hdrsize : Nat := 60

/-- The header at a place of the file. At the end of the file there is none. -/
def fread (file : Bytes) (pos : Nat) : Option ArHdr :=
  let raw := file.drop pos
  if raw.length < hdrsize then none
  else
    some
      { ar_name := raw.take 16
        ar_date := (raw.drop 16).take 12
        ar_uid := (raw.drop 28).take 6
        ar_gid := (raw.drop 34).take 6
        ar_mode := (raw.drop 40).take 8
        ar_size := (raw.drop 48).take 10
        ar_fmag := (raw.drop 58).take 2 }

/-- The characters of a string before the NUL. -/
def cstring (s : Bytes) : Bytes := s.takeWhile (· ≠ 0)

namespace Libmach

def isspace (c : UInt8) : Bool := c = 32 || (9 ≤ c && c ≤ 13)

def digit (c : UInt8) : Option Nat :=
  if 48 ≤ c ∧ c ≤ 57 then some (c.toNat - 48)
  else if 65 ≤ c ∧ c ≤ 90 then some (c.toNat - 55)
  else if 97 ≤ c ∧ c ≤ 122 then some (c.toNat - 87)
  else none

def isdigit (base : Nat) (c : UInt8) : Bool := (digit c).any (· < base)

/-- The number that the digits at the beginning stand for. -/
def number (base : Nat) (s : Bytes) : Nat :=
  (s.takeWhile (isdigit base)).foldl (fun n c => n * base + (digit c).getD 0) 0

/-- The base of a number is told by its beginning. -/
def based : Bytes → Nat
  | 48 :: x :: c :: s => if (x = 120 ∨ x = 88) ∧ isdigit 16 c = true then number 16 (c :: s) else number 8 (x :: c :: s)
  | 48 :: s => number 8 s
  | s => number 10 s

def strtol (s : Bytes) : Int :=
  match s.dropWhile isspace with
  | 45 :: s => - (based s : Int)
  | 43 :: s => based s
  | s => based s

/-- Blanks and slashes at the end are taken away, but not the first character. -/
def getfname (hdr : ArHdr) : Bytes :=
  match hdr.ar_name with
  | [] => []
  | c :: name => cstring (c :: name.rdropWhile fun c => c = 32 || c = 47)

/-- The results of `armember()`. -/
inductive Member
  | eof
  | error
  | member (name : Bytes) (off : Int)
deriving DecidableEq

/-- A member takes an even number of bytes. The number is read on into the end of the header. -/
def occupied (hdr : ArHdr) : Int :=
  let siz := strtol (hdr.ar_size ++ hdr.ar_fmag)
  if siz % 2 = 0 then siz else siz + 1

def armember (file : Bytes) (pos : Nat) : Member :=
  match fread file pos with
  | none => .eof
  | some hdr =>
    if hdr.ar_fmag ≠ ARFMAG then .error
    else if occupied hdr = 0 then .error
    else .member (getfname hdr) (hdrsize + occupied hdr)

end Libmach

def getfname (hdr : ArHdr) : Bytes := hdr.ar_name.takeWhile fun c => c ≠ 32 && c ≠ 0

def getnum (s : Bytes) (base : Nat) : Option Nat :=
  let isdigit (c : UInt8) : Bool := 48 ≤ c && c ≤ 57 && c.toNat - 48 < base
  if (s.dropWhile isdigit).all (· = 32) then
    some ((s.takeWhile isdigit).foldl (fun val c => val * base + (c.toNat - 48)) 0)
  else none

structure Member where
  hdr : ArHdr
  fname : Bytes
  size : Nat
  mode : Nat
  date : Nat
deriving DecidableEq

def valid (hdr : ArHdr) : Option Member :=
  (getnum hdr.ar_size 10).bind fun size =>
    (getnum hdr.ar_mode 8).bind fun mode =>
      (getnum hdr.ar_date 10).bind fun date =>
        if hdr.ar_fmag ≠ ARFMAG then none else some ⟨hdr, getfname hdr, size, mode, date⟩

/-- `m.size+1 & ~1` -/
def even (size : Nat) : Nat := size + size % 2

end Scc.Ar
