import Mathlib.Data.List.Induction
import Scc.Lib.Multiples
import Scc.As.Pass

/-!
# Alignment

`.align` clears the low bits of the address with a mask, so it rounds up for a power of two. The zeros are
emitted one by one, as many in the first pass as in the second one.
-/

namespace Scc.As.Align

open Scc.Lib Scc.As.Pass

set_option autoImplicit false

/-- The argument: its value, and whether it is absolute. -/
structure Argument where
  value : UInt64
  fabs : Bool

/-- The loop with `emit()`. -/
def pad (maxaddr pass : Nat) : Nat → State → Option State
  | 0, s => some s
  | al + 1, s => (emit maxaddr pass s [0]).bind (pad maxaddr pass al)

/-- The address that the padding leads to. -/
def pcal (pc n : UInt64) : UInt64 := (pc + (n - 1)) &&& ~~~(n - 1)

def align (maxaddr pass : Nat) (sym : Argument) (s : State) : Option State :=
  if sym.fabs = false then none
  else if sym.value = 0 then some s
  else
    let pc := (getpc s).toUInt64
    pad maxaddr pass (pcal pc sym.value - pc).toNat s

/-- The state with so many zeros more in the current section. -/
def State.padded (s : State) (sec : Lsection) (count : Nat) : State :=
  { s.putSec s.cursec { sec with
      curpc := sec.curpc + count
      fp := sec.fp.map (· ++ List.replicate count 0) } with
    emitted := s.emitted ++ List.replicate count (s.cursec, [0]) }

/-- In both passes the current section goes on at the least multiple of the alignment, with the same
padding. -/
def Advances (maxaddr : Nat) (sym : Argument) (s : State) (sec : Lsection) : Prop :=
  ∃ count, IsLeast (multiplesFrom sym.value.toNat sec.curpc) (sec.curpc + count) ∧
    ∀ pass, align maxaddr pass sym s = some (State.padded s sec count)

theorem padded_zero {s : State} {sec : Lsection} (here : s.secs s.cursec = some sec) :
    State.padded s sec 0 = s := by
  have fp : (sec.fp.map fun bytes => bytes ++ []) = sec.fp := by
    cases sec.fp <;> simp
  have same : Function.update s.secs s.cursec (some sec) = s.secs := by
    rw [← here, Function.update_eq_self]
  unfold State.padded State.putSec
  simp only [List.replicate_zero, Nat.add_zero]
  rw [fp, same, List.append_nil]

theorem padded_secs (s : State) (sec : Lsection) (count : Nat) : (State.padded s sec count).secs s.cursec =
      some { sec with
        curpc := sec.curpc + count
        fp := sec.fp.map (· ++ List.replicate count 0) } := by
  simp [State.padded, State.putSec]

theorem padded_padded (s : State) (sec : Lsection) (first second : Nat) :
    State.padded (State.padded s sec first) { sec with
          curpc := sec.curpc + first
          fp := sec.fp.map (· ++ List.replicate first 0) } second =
      State.padded s sec (first + second) := by
  have fp : ((sec.fp.map (· ++ List.replicate first 0)).map (· ++ List.replicate second (0 : UInt8))) =
      sec.fp.map (· ++ List.replicate (first + second) 0) := by
    cases sec.fp <;> simp [← List.replicate_append_replicate]
  unfold State.padded State.putSec
  dsimp only
  rw [fp, Function.update_idem, List.append_assoc, List.replicate_append_replicate, Nat.add_assoc]

theorem pad_eq {maxaddr : Nat} (pass : Nat) {s : State} {sec : Lsection}
    (here : s.secs s.cursec = some sec) (count : Nat) (room : sec.curpc + count ≤ maxaddr) :
    pad maxaddr pass count s = some (State.padded s sec count) := by
  induction count generalizing s sec with
  | zero => rw [padded_zero here, pad]
  | succ count ih =>
    have one : emit maxaddr pass s [0] = some (State.padded s sec 1) := by
      unfold emit
      rw [here, Option.bind_some, if_neg]
      · rfl
      · simp only [List.length_singleton]
        omega
    have next := ih (padded_secs s sec 1) (by dsimp only; omega)
    rw [pad, one, Option.bind_some, next, padded_padded, Nat.add_comm 1 count]

theorem pcal_toNat {pc n : UInt64} {k : Nat} (power : n.toNat = 2 ^ k)
    (room : (pc.toNat + (n.toNat - 1)) / n.toNat * n.toNat < 2 ^ 64) :
    (pcal pc n).toNat = (pc.toNat + (n.toNat - 1)) / n.toNat * n.toNat := by
  have pos : 0 < n.toNat := by
    rw [power]
    exact Nat.two_pow_pos k
  have one_le : (1 : UInt64) ≤ n := by
    rw [UInt64.le_iff_toNat_le]
    exact pos
  have mask : (n - 1).toNat = 2 ^ k - 1 := by
    rw [UInt64.toNat_sub_of_le _ _ one_le, power]
    rfl
  have dvd : n.toNat ∣ 2 ^ 64 := by
    rw [power]
    apply Nat.pow_dvd_pow 2
    have lt := n.toNat_lt
    rw [power] at lt
    exact (Nat.pow_lt_pow_iff_right (by decide)).mp lt |>.le
  -- the multiple after a multiple below 2 ^ 64 is at most 2 ^ 64
  have fits : pc.toNat + (n.toNat - 1) < 2 ^ 64 := by
    rcases dvd with ⟨q, words⟩
    rw [words, Nat.mul_comm n.toNat q] at room ⊢
    exact (Nat.div_lt_iff_lt_mul pos).mp (Nat.lt_of_mul_lt_mul_right room)
  have sum : (pc + (n - 1)).toNat = pc.toNat + (n.toNat - 1) := by
    rw [UInt64.toNat_add, mask, ← power, Nat.mod_eq_of_lt fits]
  have cleared := toNat_and_not_two_pow (pc + (n - 1)).toBitVec (n - 1).toBitVec mask
  unfold pcal
  rw [← UInt64.toNat_toBitVec, UInt64.toBitVec_and, UInt64.toBitVec_not, cleared,
    UInt64.toNat_toBitVec, sum, power]

/-- A power of two as the alignment, and an address that is not too large. -/
theorem align_advances {maxaddr : Nat} {sym : Argument} {s : State} {sec : Lsection} {k : Nat}
    (here : s.secs s.cursec = some sec) (absolute : sym.fabs = true) (power : sym.value.toNat = 2 ^ k)
    (word : maxaddr < 2 ^ 64) (room : ∃ m ∈ multiplesFrom sym.value.toNat sec.curpc, m ≤ maxaddr) :
    Advances maxaddr sym s sec := by
  have pos : 0 < sym.value.toNat := by
    rw [power]
    exact Nat.two_pow_pos k
  have least := isLeast_multiplesFrom pos sec.curpc
  have le : (sec.curpc + (sym.value.toNat - 1)) / sym.value.toNat * sym.value.toNat ≤ maxaddr := by
    rcases room with ⟨m, multiple, le⟩
    exact (least.2 multiple).trans le
  have above : sec.curpc ≤ (sec.curpc + (sym.value.toNat - 1)) / sym.value.toNat * sym.value.toNat :=
    least.1.2
  have pc : sec.curpc.toUInt64.toNat = sec.curpc := Nat.mod_eq_of_lt (by omega)
  have target := @pcal_toNat sec.curpc.toUInt64 sym.value k power (by rw [pc]; omega)
  rw [pc] at target
  generalize (sec.curpc + (sym.value.toNat - 1)) / sym.value.toNat * sym.value.toNat = multiple at *
  refine ⟨multiple - sec.curpc, ?_, ?_⟩
  · rw [Nat.add_sub_cancel' above]
    exact least
  · intro pass
    have nonzero : sym.value ≠ 0 := by
      intro zero
      rw [zero] at pos
      exact absurd pos (by decide)
    have count : (pcal sec.curpc.toUInt64 sym.value - sec.curpc.toUInt64).toNat =
        multiple - sec.curpc := by
      rw [UInt64.toNat_sub_of_le, target, pc]
      rw [UInt64.le_iff_toNat_le, target, pc]
      exact above
    have getpc_eq : getpc s = sec.curpc := by
      unfold getpc
      rw [here]
    unfold align
    rw [if_neg (by simp [absolute]), if_neg nonzero, getpc_eq]
    dsimp only
    rw [count]
    exact pad_eq pass here _ (by omega)

/-- A state in which the current section goes on at the address 1. -/
def afterByte : State := State.init.putSec ".bss" ⟨true, 1, none⟩

theorem four_aligned : Advances 0xFFFFFFFF ⟨4, true⟩ afterByte ⟨true, 1, none⟩ :=
  align_advances rfl rfl (show (4 : UInt64).toNat = 2 ^ 2 by decide) (by decide)
    ⟨4, ⟨by decide, by decide⟩, by decide⟩

/-- An alignment of three. -/
theorem three_stays : ¬ Advances 0xFFFFFFFF ⟨3, true⟩ afterByte ⟨true, 1, none⟩ := by
  rintro ⟨count, least, same⟩
  have stays : align 0xFFFFFFFF 1 ⟨3, true⟩ afterByte = some afterByte := by
    have noPadding : (pcal (getpc afterByte).toUInt64 3 - (getpc afterByte).toUInt64).toNat = 0 := by
      decide
    unfold align
    rw [if_neg (by decide), if_neg (by decide)]
    dsimp only
    rw [noPadding, pad]
  have next := (stays.symm.trans (same 1))
  rw [Option.some.injEq] at next
  have curpc : (1 : Nat) = 1 + count := by
    have secs := congrArg (fun s => (s.secs ".bss").map Lsection.curpc) next
    have padded : (State.padded afterByte ⟨true, 1, none⟩ count).secs ".bss" = _ :=
      padded_secs afterByte ⟨true, 1, none⟩ count
    have before : afterByte.secs ".bss" = some ⟨true, 1, none⟩ := by
      simp [afterByte, State.putSec, State.init]
    rw [padded, before] at secs
    exact Option.some.inj secs
  have noCount : count = 0 := by omega
  rw [noCount] at least
  exact absurd least.1.1 (by decide)

end Scc.As.Align
