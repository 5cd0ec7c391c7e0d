import Scc.Libmach.Pack

/-!
# Reading files

A reader goes over the bytes of a file and gives a result, or stops. A reader that is safe does not
write or read outside of an array.
-/

namespace Scc.Libmach.Reader

open Scc.Libmach.Pack

set_option autoImplicit false

abbrev Bytes := List UInt8

inductive Stop
  /-- The object is refused. -/
  | fail
  /-- An assertion fails. -/
  | abort
  /-- Something outside of an array is read or written. -/
  | fault
  /-- The number of auxiliary entries is negative, and the index goes back. -/
  | stray
deriving DecidableEq

abbrev Read (α : Type) := Except Stop α

def assertion {α : Type} : Option α → Read α
  | some a => .ok a
  | none => .error .abort

/-- So many bytes, and the bytes after them. -/
def fread (n : Nat) (fp : Bytes) : Read (Bytes × Bytes) :=
  if n ≤ fp.length then .ok (fp.take n, fp.drop n) else .error .fail

/-- What reading leaves in a buffer: at the end of the file its old contents stay. -/
def fill (buf fp : Bytes) : Bytes := fp.take buf.length ++ buf.drop (fp.take buf.length).length

/-- The values of a format, if it has as many bytes as the assertion says. -/
def unpacked (order : Order) (buf : Bytes) (fmt : String) (size : Nat) : Option (List Arg) :=
  (unpack order buf fmt.toList).bind fun r => if r.2 = size then some r.1 else none

theorem fread_ok {n : Nat} {fp buf fp' : Bytes} (ok : fread n fp = .ok (buf, fp')) :
    n ≤ fp.length ∧ buf = fp.take n ∧ fp' = fp.drop n := by
  unfold fread at ok
  split_ifs at ok with enough
  cases ok
  exact ⟨enough, rfl, rfl⟩

theorem assertion_ok {α : Type} {o : Option α} {a : α} (ok : assertion o = .ok a) : o = some a := by
  cases o with
  | none => cases ok
  | some a' =>
    cases ok
    rfl

theorem bind_ok {α β : Type} {x : Read α} {f : α → Read β} {b : β} (ok : (x >>= f) = .ok b) :
    ∃ a, x = .ok a ∧ f a = .ok b := by
  cases x with
  | error stop => cases ok
  | ok a => exact ⟨a, rfl, ok⟩

theorem fread_append {bytes : Bytes} {n : Nat} (length : bytes.length = n) (rest : Bytes) :
    fread n (bytes ++ rest) = .ok (bytes, rest) := by
  subst length
  unfold fread
  rw [if_pos (by simp), List.take_left' rfl, List.drop_left' rfl]

def Safe {α : Type} (x : Read α) : Prop := x ≠ .error .fault ∧ x ≠ .error .stray

theorem safe_ok {α : Type} (a : α) : Safe (.ok a : Read α) := ⟨nofun, nofun⟩

theorem safe_fail {α : Type} : Safe (.error .fail : Read α) := ⟨nofun, nofun⟩

theorem safe_bind {α β : Type} {x : Read α} {f : α → Read β} (first : Safe x)
    (later : ∀ a, x = .ok a → Safe (f a)) : Safe (x >>= f) := by
  cases x with
  | error stop => exact ⟨fun fault => first.1 (by cases fault; rfl), fun stray => first.2 (by cases stray; rfl)⟩
  | ok a => exact later a rfl

theorem safe_fread (n : Nat) (fp : Bytes) : Safe (fread n fp) := by
  unfold fread
  split_ifs
  · exact safe_ok _
  · exact safe_fail

theorem safe_assertion {α : Type} (o : Option α) : Safe (assertion o) := by
  cases o with
  | none => exact ⟨nofun, nofun⟩
  | some a => exact safe_ok a

end Scc.Libmach.Reader
