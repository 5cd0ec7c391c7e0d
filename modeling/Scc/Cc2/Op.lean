/-!
# The operators of the second pass
-/

namespace Scc.Cc2

set_option autoImplicit false

inductive Op where
  | OMEM
  | OINDEX
  | OTMP
  | OAUTO
  | OREG
  | OMREG
  | OCONST
  | OSTRING
  | OLOAD
  | OLABEL
  | OADD
  | OSUB
  | OMUL
  | OMOD
  | ODIV
  | OSHL
  | OSHR
  | OLT
  | OGT
  | OLE
  | OGE
  | OEQ
  | ONE
  | OBAND
  | OBOR
  | OBXOR
  | OCPL
  | OASSIG
  | OSNEG
  | OCALL
  | OCALLE
  | OPAR
  | OFIELD
  | OCOMMA
  | OASK
  | OCOLON
  | OADDR
  | OAND
  | OOR
  | ONEG
  | OPTR
  | OCAST
  | OINC
  | ODEC
  | OBUILTIN
  | ONOP
  | OJMP
  | OBRANCH
  | ORET
  | OBLOOP
  | OELOOP
  | OCASE
  | ODEFAULT
  | OBSWITCH
  | OESWITCH
  | OBFUN
  | OEFUN
deriving DecidableEq

abbrev Sym := Nat

/-- `negop()` aborts on any other operator. -/
def negop : Op → Option Op
  | .OEQ => some .ONE
  | .ONE => some .OEQ
  | .OLT => some .OGE
  | .OGE => some .OLT
  | .OLE => some .OGT
  | .OGT => some .OLE
  | _ => none

end Scc.Cc2
