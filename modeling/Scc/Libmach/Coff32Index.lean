import Scc.Libmach.Reader

/-!
# The index of an archive

`coff32xgetidx()` reads the index that `coff32xsetidx()` writes. It passes the number for an offset where
`unpack()` takes the address of one, and refuses an index without symbols, so there is no index that it reads.
-/

namespace Scc.Libmach.Coff32

open Scc.Libmach.Pack Scc.Libmach.Reader

set_option autoImplicit false

def packl (order : Order) (v : Int) : Bytes :=
  ((Pack.pack order "l".toList [.number (v % 2 ^ 64).toNat]).map Prod.fst).getD []

/-- The number of the symbols, their offsets and their names. -/
def coff32xsetidx (order : Order) (syms : List (Bytes × Int)) : Bytes :=
  packl order syms.length ++ syms.flatMap (fun sym => packl order sym.2) ++
    syms.flatMap fun sym => sym.1 ++ [0]

def EXTIDENTSIZ : Nat := 31

def unpackl (order : Order) (buf : Bytes) : Option Nat :=
  match unpack order buf "l".toList with
  | some ([.number n], _) => some n
  | _ => none

/-- `unpack()` writes to the address that it is given, and a number is not the address of anything. -/
def store : Nat → Nat → Read Unit
  | _, _ => .error .fault

/-- The offsets, from the array that `calloc()` gives. That the file ends is not noticed. -/
def readoffs (order : Order) : List Nat → Bytes → Bytes → Read (List Nat × Bytes)
  | [], _, fp => .ok ([], fp)
  | off :: offs, buf, fp => do
      let v ← assertion (unpackl order (fill buf fp))
      store off v
      let (rest, fp) ← readoffs order offs (fill buf fp) (fp.drop 4)
      .ok (v :: rest, fp)

/-- The characters up to the end of a string, of which there may be so many with it. -/
def readname : Nat → Bytes → Option (Bytes × Bytes)
  | 0, _ => none
  | _ + 1, [] => none
  | n + 1, c :: fp => if c = 0 then some ([], fp) else (readname n fp).map fun r => (c :: r.1, r.2)

/-- The names are stored without the end of the string. When one of them is refused, the first one is freed
twice. -/
def readnames : Nat → List Bytes → Bytes → Read (List Bytes)
  | 0, names, _ => .ok names
  | n + 1, names, fp =>
    match readname EXTIDENTSIZ fp with
    | some (s, fp) => readnames n (names ++ [s]) fp
    | none => if names = [] then .error .fail else .error .fault

def coff32xgetidx (order : Order) (fp : Bytes) : Read (List Bytes × List Nat) := do
  let (buf, fp) ← fread 4 fp
  let n ← assertion (unpackl order buf)
  if n = 0 then .error .fail
  else
    let (offs, fp) ← readoffs order (List.replicate n 0) buf fp
    let names ← readnames n [] fp
    .ok (names, offs)

/-- The index is read as it was written: the names end, and they and the offsets are the same. -/
def RoundTrip (order : Order) (syms : List (Bytes × Int)) : Prop :=
  ∃ names offs, coff32xgetidx order (coff32xsetidx order syms) = .ok (names, offs) ∧
    (∀ s ∈ names, 0 ∈ s) ∧ names.map (List.takeWhile (· ≠ 0)) = syms.map Prod.fst ∧
    offs.map Int.ofNat = syms.map Prod.snd

/-- There is no number of symbols, or there are fewer offsets or fewer ends of strings. -/
def Overruns (order : Order) (bytes : Bytes) : Prop :=
  bytes.length < 4 ∨ ∃ n, unpackl order (bytes.take 4) = some n ∧
    (bytes.length < 4 + 4 * n ∨ (bytes.drop (4 + 4 * n)).count 0 < n)

def Rejects (order : Order) (bytes : Bytes) : Prop :=
  Overruns order bytes → coff32xgetidx order bytes = .error .fail

theorem unpackl_some (order : Order) {buf : Bytes} (length : buf.length = 4) :
    ∃ n, unpackl order buf = some n := by
  match buf, length with
  | [a, b, c, d], _ => cases order <;> exact ⟨_, rfl⟩

theorem coff32xgetidx_short (order : Order) {fp : Bytes} (short : fp.length < 4) :
    coff32xgetidx order fp = .error .fail := by
  have none_ : fread 4 fp = .error .fail := by
    unfold fread
    rw [if_neg (Nat.not_le.mpr short)]
  unfold coff32xgetidx
  rw [none_]
  rfl

theorem coff32xgetidx_long (order : Order) {fp : Bytes} (long : 4 ≤ fp.length) {n : Nat}
    (count : unpackl order (fp.take 4) = some n) :
    coff32xgetidx order fp = if n = 0 then .error .fail else .error .fault := by
  have first : fread 4 fp = .ok (fp.take 4, fp.drop 4) := by
    unfold fread
    rw [if_pos long]
  unfold coff32xgetidx
  rw [first]
  change (assertion (unpackl order (fp.take 4)) >>= _) = _
  rw [count]
  change (if n = 0 then _ else _) = _
  cases n with
  | zero => rfl
  | succ n =>
    have length : (fill (fp.take 4) (fp.drop 4)).length = 4 := by
      simp [fill]
      omega
    rcases unpackl_some order length with ⟨v, unpacked_⟩
    rw [if_neg (Nat.succ_ne_zero n), if_neg (Nat.succ_ne_zero n), List.replicate_succ, readoffs, unpacked_]
    rfl

/-- No index is read, and one that is too short only causes an error when there is not even the number of the
symbols. -/
theorem index_iff (order : Order) : (∀ syms, ¬ RoundTrip order syms) ∧
      ∀ bytes, Rejects order bytes ↔ bytes.length < 4 ∨ ¬ Overruns order bytes := by
  have counted {fp : Bytes} (long : 4 ≤ fp.length) : ∃ n, unpackl order (fp.take 4) = some n :=
    unpackl_some order (by rw [List.length_take]; omega)
  constructor
  · intro syms roundTrip
    rcases roundTrip with ⟨names, offs, read, _⟩
    by_cases long : 4 ≤ (coff32xsetidx order syms).length
    · rcases counted long with ⟨n, count⟩
      rw [coff32xgetidx_long order long count] at read
      split_ifs at read
    · rw [coff32xgetidx_short order (Nat.not_le.mp long)] at read
      cases read
  · intro bytes
    constructor
    · intro rejects
      by_contra neither
      rw [not_or, not_not] at neither
      rcases neither with ⟨long, overruns⟩
      have failed := rejects overruns
      rcases overruns with short | ⟨n, count, more⟩
      · exact long short
      · rw [coff32xgetidx_long order (Nat.not_lt.mp long) count] at failed
        cases n with
        | zero => omega
        | succ n => cases failed
    · intro either overruns
      rcases either with short | fits
      · exact coff32xgetidx_short order short
      · exact absurd overruns fits

/-- The symbol `main` at the offset 68. -/
theorem main_not_read : ¬ RoundTrip .LITTLE_ENDIAN [([109, 97, 105, 110], 68)] := by
  intro roundTrip
  rcases roundTrip with ⟨names, offs, read, _⟩
  have faults : coff32xgetidx .LITTLE_ENDIAN (coff32xsetidx .LITTLE_ENDIAN [([109, 97, 105, 110], 68)]) =
      .error .fault := by decide +kernel
  rw [faults] at read
  cases read

end Scc.Libmach.Coff32
