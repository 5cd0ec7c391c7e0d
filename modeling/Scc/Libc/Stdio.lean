import Mathlib.Data.List.Basic

/-!
# Streams

A `FILE` has one buffer for both directions, with the pointers `rp`, `wp` and `lp` into it, here as
offsets from `buf`. All of them are `NULL` until the buffer is allocated. The macro `getc()` takes
bytes up to `wp`, and the macro `putc()` stores them up to `rp`, which is why `__putc()` sets `rp` to
the end of a buffer that is fully buffered. Calls to the kernel succeed, but a read may give
fewer bytes than it was asked for.
-/

namespace Scc.Libc.Stdio

set_option autoImplicit false

structure Kernel where
  file : List UInt8
  off : Nat
  append : Bool
deriving DecidableEq

/-- One byte at the offset, or at the end; what is before it and beyond the end becomes zero. -/
def Kernel.put (k : Kernel) (c : UInt8) : Kernel :=
  let off := if k.append then k.file.length else k.off
  { k with
    file := if off < k.file.length then k.file.set off c else k.file ++ List.replicate (off - k.file.length) 0 ++ [c]
    off := off + 1 }

def Kernel.write (k : Kernel) (bytes : List UInt8) : Kernel := bytes.foldl Kernel.put k

inductive Whence
  | SEEK_SET | SEEK_CUR | SEEK_END
deriving DecidableEq

def Kernel.lseek (k : Kernel) (off : Int) (whence : Whence) : Option Kernel :=
  let base : Nat := match whence with
    | .SEEK_SET => 0
    | .SEEK_CUR => k.off
    | .SEEK_END => k.file.length
  if base + off < 0 then none else some { k with off := (base + off).toNat }

def Kernel.read (k : Kernel) (n : Nat) : List UInt8 × Kernel :=
  let bytes := (k.file.drop k.off).take n
  (bytes, { k with off := k.off + bytes.length })

structure Flags where
  IOWRITE : Bool
  IOREAD : Bool
  IORW : Bool
  IOEOF : Bool
  IOERR : Bool
  IOFBF : Bool
  IOLBF : Bool
  IONBF : Bool
deriving DecidableEq

structure FILE where
  flags : Flags
  buf : Option (List UInt8)
  rp : Nat
  wp : Nat
  lp : Nat
  kernel : Kernel
deriving DecidableEq

def EOF : Int := -1

def BUFSIZ : Nat := 512

/-- The contents of the buffer; its length is `len`. -/
def FILE.mem (fp : FILE) : List UInt8 := fp.buf.getD []

def FILE.allocbuf (fp : FILE) : FILE :=
  if fp.buf.isSome then fp
  else { fp with buf := some (List.replicate BUFSIZ 0), rp := 0, wp := 0, lp := BUFSIZ }

def FILE.flsbuf (fp : FILE) : FILE :=
  if fp.flags.IOREAD then fp
  else { fp with kernel := fp.kernel.write (fp.mem.take fp.wp), wp := 0 }

/-- `*fp->wp++ = ch`, unless `wp` is outside of the buffer. -/
def FILE.store (fp : FILE) (ch : Int) : Option FILE :=
  if fp.wp < fp.mem.length then
    some { fp with buf := fp.buf.map fun mem => mem.set fp.wp (UInt8.ofInt ch), wp := fp.wp + 1 }
  else none

/-- `*fp->rp++`, unless `rp` is outside of the buffer. -/
def FILE.load (fp : FILE) : Option (Int × FILE) :=
  fp.mem[fp.rp]?.map fun c => ((c.toNat : Int), { fp with rp := fp.rp + 1 })

/-- `__getc()`. The kernel gives at most `short` bytes and one. -/
def FILE.getcFill (fp : FILE) (short : Nat) : Option (Int × FILE) :=
  if fp.flags.IOEOF || fp.flags.IOERR then some (EOF, fp)
  else if !fp.flags.IOREAD && !fp.flags.IORW then
    some (EOF, { fp with flags := { fp.flags with IOERR := true } })
  else
    let fp := fp.allocbuf
    let r := fp.kernel.read (min fp.mem.length (short + 1))
    if r.1 = [] then some (EOF, { fp with kernel := r.2, flags := { fp.flags with IOEOF := true } })
    else
      FILE.load { fp with
        flags := { fp.flags with IOREAD := true }
        buf := some (r.1 ++ fp.mem.drop r.1.length)
        rp := 0
        wp := r.1.length
        kernel := r.2 }

def FILE.getc (fp : FILE) (short : Nat) : Option (Int × FILE) :=
  if fp.rp ≥ fp.wp then fp.getcFill short else fp.load

def FILE.ungetc (fp : FILE) (c : Int) : Option (Int × FILE) :=
  if c = EOF then some (EOF, fp)
  else if fp.flags.IOWRITE then some (EOF, fp)
  else if fp.rp = 0 ∨ fp.wp ≠ 0 then some (EOF, fp)
  else some (c, { fp with
    rp := fp.rp - 1
    buf := fp.buf.map fun mem => mem.set (fp.rp - 1) (UInt8.ofInt c)
    flags := { fp.flags with IOEOF := false } })

/-- `__putc()`. -/
def FILE.putcFlush (fp : FILE) (ch : Int) : Option (Int × FILE) :=
  if fp.flags.IOERR then some (EOF, fp)
  else if fp.flags.IOREAD then some (EOF, { fp with flags := { fp.flags with IOERR := true } })
  else
    let fp := fp.allocbuf
    let stored :=
      if fp.flags.IOLBF then
        let fp := if fp.wp = fp.lp then fp.flsbuf else fp
        (fp.store ch).map fun fp => if ch = 10 then fp.flsbuf else fp
      else if fp.flags.IOFBF then
        (fp.flsbuf.store ch).map fun fp => { fp with rp := fp.mem.length }
      else
        (fp.store ch).map FILE.flsbuf
    stored.map fun fp => (ch % 256, { fp with flags := { fp.flags with IOWRITE := true } })

def FILE.putc (fp : FILE) (ch : Int) : Option (Int × FILE) :=
  if fp.wp ≥ fp.rp then fp.putcFlush ch else (fp.store ch).map fun fp => (ch % 256, fp)

def FILE.fflush (fp : FILE) : Option (Int × FILE) := some (0, fp.flsbuf)

def FILE.fseek (fp : FILE) (off : Int) (whence : Whence) : Option (Int × FILE) :=
  if fp.flags.IOERR then some (EOF, fp)
  else
    let fp' := if fp.flags.IOWRITE then fp.flsbuf else fp
    let off' := if whence = .SEEK_CUR ∧ fp'.flags.IOREAD then off - (fp'.wp - fp'.rp) else off
    match fp'.kernel.lseek off' whence with
    | none => some (EOF, fp')
    | some kernel =>
      let flags := if fp'.flags.IORW then { fp'.flags with IOREAD := false, IOWRITE := false } else fp'.flags
      some (0, { fp' with kernel, flags := { flags with IOEOF := false } })

def FILE.ftell (fp : FILE) : Option (Int × FILE) :=
  if fp.flags.IOERR then some (EOF, fp)
  else if fp.flags.IOREAD then some (fp.kernel.off - (fp.wp - fp.rp), fp)
  else if fp.flags.IOWRITE then
    let p := if fp.flags.IOLBF then fp.lp else fp.wp
    some (fp.kernel.off + p, fp)
  else some (fp.kernel.off, fp)

/-- `fclose()`. The buffer is freed and the flags of the access are cleared. -/
def FILE.fclose (fp : FILE) : Int × FILE :=
  let open_ := fp.flags.IOWRITE || fp.flags.IOREAD || fp.flags.IORW
  let fp := if open_ then fp.flsbuf else fp
  (if open_ then 0 else EOF,
    { fp with flags := { fp.flags with IOWRITE := false, IOREAD := false, IORW := false, IOERR := false, IOEOF := false } })

inductive Mode
  | IOFBF | IOLBF | IONBF
deriving DecidableEq

/-- `setvbuf()`, with the buffer that is given or none. -/
def FILE.setvbuf (fp : FILE) (buf : Option (List UInt8)) (mode : Mode) : FILE :=
  let fp := fp.flsbuf
  let p := match mode with
    | .IONBF => some [0]
    | _ => if buf.isSome then buf else fp.buf
  { fp with
    buf := p
    rp := 0
    wp := 0
    lp := (p.getD []).length
    flags := { fp.flags with IOFBF := mode = .IOFBF, IOLBF := mode = .IOLBF, IONBF := mode = .IONBF } }

/-- The access of a mode of `fopen()`. -/
inductive Access
  | O_RDONLY | O_WRONLY | O_RDWR
deriving DecidableEq

/-- `_fpopen()`, with the file that the kernel has opened. -/
def fpopen (access : Access) (kernel : Kernel) : FILE :=
  { flags :=
      { IOWRITE := access = .O_WRONLY, IOREAD := access = .O_RDONLY, IORW := access = .O_RDWR,
        IOEOF := false, IOERR := false, IOFBF := false, IOLBF := false, IONBF := false }
    buf := none
    rp := 0
    wp := 0
    lp := 0
    kernel }

inductive Call
  | getc (short : Nat)
  | ungetc (c : Int)
  | putc (ch : Int)
  | fflush
  | fseek (off : Int) (whence : Whence)
  | ftell
deriving DecidableEq

def FILE.call (fp : FILE) : Call → Option (Int × FILE)
  | .getc short => fp.getc short
  | .ungetc c => fp.ungetc c
  | .putc ch => fp.putc ch
  | .fflush => fp.fflush
  | .fseek off whence => fp.fseek off whence
  | .ftell => fp.ftell

/-- A file with a position, where every byte is read and written by itself, and a byte pushed back. -/
structure Logical where
  kernel : Kernel
  pushed : Option Int
deriving DecidableEq

/-- The result of a call and the state after it. -/
def Logical.call (a : Logical) : Call → Int × Logical
  | .getc _ =>
    match a.pushed with
    | some c => (c, { kernel := { a.kernel with off := a.kernel.off + 1 }, pushed := none })
    | none =>
      match a.kernel.file[a.kernel.off]? with
      | some c => (c.toNat, { a with kernel := { a.kernel with off := a.kernel.off + 1 } })
      | none => (EOF, a)
  | .ungetc c =>
    if c = EOF then (EOF, a)
    else (c, { kernel := { a.kernel with off := a.kernel.off - 1 }, pushed := some c })
  | .putc ch => (ch % 256, { a with kernel := a.kernel.put (UInt8.ofInt ch) })
  | .fflush => (0, a)
  | .fseek off whence =>
    match a.kernel.lseek off whence with
    | none => (EOF, a)
    | some kernel => (0, { kernel, pushed := none })
  | .ftell => (a.kernel.off, a)

theorem Kernel.write_append (k : Kernel) (a b : List UInt8) : k.write (a ++ b) = (k.write a).write b :=
  List.foldl_append

theorem Kernel.write_off {k : Kernel} (bytes : List UInt8)
    (there : k.append = true → bytes = [] ∨ k.off = k.file.length) : (k.write bytes).off = k.off + bytes.length := by
  have from_end (bytes : List UInt8) (k : Kernel) (append : k.append = true) (at_end : k.off = k.file.length) :
      (k.write bytes).off = k.off + bytes.length := by
    induction bytes generalizing k with
    | nil => rfl
    | cons c bytes ih =>
      have put : k.put c = { k with file := k.file ++ [c], off := k.file.length + 1 } := by
        simp [Kernel.put, append]
      change ((k.put c).write bytes).off = _
      rw [ih (k.put c) append (by rw [put]; simp), put, List.length_cons, at_end]
      dsimp only
      omega
  have from_here (bytes : List UInt8) (k : Kernel) (append : k.append = false) :
      (k.write bytes).off = k.off + bytes.length := by
    induction bytes generalizing k with
    | nil => rfl
    | cons c bytes ih =>
      change ((k.put c).write bytes).off = _
      have off : (k.put c).off = k.off + 1 := by simp [Kernel.put, append]
      rw [ih (k.put c) append, off, List.length_cons]
      omega
  cases append : k.append with
  | false => exact from_here bytes k append
  | true =>
    cases there append with
    | inl none_ =>
      subst none_
      rfl
    | inr at_end => exact from_end bytes k append at_end

end Scc.Libc.Stdio
