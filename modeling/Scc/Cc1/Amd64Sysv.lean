import Scc.Cc1.Types

/-!
# The basic types of amd64

The table of `amd64_sysv()`, in the order of `struct arch`.
-/

namespace Scc.Cc1.Types

set_option autoImplicit false

def basic (op : Op) (letter : Char) (size align : UInt64) (rank : Nat) : TypeRec :=
  { TypeRec.zero op letter with tdefined := true, size := size, align := align, rank := rank }

def RANK_BOOL : Nat := 0
def RANK_CHAR : Nat := 1
def RANK_SHORT : Nat := 2
def RANK_INT : Nat := 3
def RANK_LONG : Nat := 4
def RANK_LLONG : Nat := 5
def RANK_FLOAT : Nat := 6
def RANK_DOUBLE : Nat := 7
def RANK_LDOUBLE : Nat := 8

def voidtype : Nat := 0
def pvoidtype : Nat := 1
def booltype : Nat := 2
def schartype : Nat := 3
def uchartype : Nat := 4
def chartype : Nat := 5
def ushorttype : Nat := 6
def shorttype : Nat := 7
def uinttype : Nat := 8
def inttype : Nat := 9
def longtype : Nat := 10
def ulongtype : Nat := 11
def ullongtype : Nat := 12
def llongtype : Nat := 13
def floattype : Nat := 14
def doubletype : Nat := 15
def ldoubletype : Nat := 16
def sizettype : Nat := 17
def pdifftype : Nat := 18
def ellipsistype : Nat := 19
def va_type : Nat := 20
def va_list_type : Nat := 21
def wchartype : Nat := 22

def amd64Basics : List TypeRec := [
  TypeRec.zero .VOID '0', { basic .PTR 'P' 8 8 0 with type := voidtype }, basic .INT 'B' 1 1 RANK_BOOL,
  basic .INT 'C' 1 1 RANK_CHAR, basic .INT 'K' 1 1 RANK_CHAR, basic .INT 'C' 1 1 RANK_CHAR,
  basic .INT 'N' 2 2 RANK_SHORT, basic .INT 'I' 2 2 RANK_SHORT, basic .INT 'Z' 4 4 RANK_INT,
  basic .INT 'W' 4 4 RANK_INT, basic .INT 'Q' 8 8 RANK_LONG, basic .INT 'O' 8 8 RANK_LONG,
  basic .INT 'O' 8 8 RANK_LLONG, basic .INT 'Q' 8 8 RANK_LLONG, basic .FLOAT 'J' 4 4 RANK_FLOAT,
  basic .FLOAT 'D' 8 8 RANK_DOUBLE, basic .FLOAT 'H' 16 16 RANK_LDOUBLE, basic .INT 'O' 8 8 RANK_INT,
  basic .INT 'Q' 8 8 RANK_LONG, basic .ELLIPSIS 'E' 0 0 0, basic .STRUCT '1' 24 8 0,
  { basic .ARY 'V' 24 8 0 with type := va_type, elem := 1 }, basic .INT 'Z' 4 4 RANK_INT]

def amd64_sysv : Arch where
  basics := amd64Basics
  voidtype := voidtype
  pvoidtype := pvoidtype
  chartype := chartype
  uchartype := uchartype
  schartype := schartype
  inttype := inttype
  floattype := floattype
  ellipsistype := ellipsistype
  ordered := by decide
  void := by decide
  pvoid := by decide

/-- The basic types lie one after the other, and in the examples the objects from
the heap follow them. A `Type` has 64 bytes. -/
def staticAddr (id : Nat) : Nat := 64 * id

/-- `long` and `long long` have one letter and lie in different buckets. -/
example : HASH staticAddr { TypeRec.zero .PTR 'P' with type := longtype } ≠
    HASH staticAddr { TypeRec.zero .PTR 'P' with type := llongtype } := by decide

end Scc.Cc1.Types
