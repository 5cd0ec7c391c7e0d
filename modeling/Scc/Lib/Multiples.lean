import Mathlib.Order.Bounds.Basic
import Mathlib.Algebra.Order.Ring.Nat
import Mathlib.Data.Nat.Bitwise

/-!
# Rounding up to a multiple

The least multiple that is not below a number, and the bits that a mask clears: for a power of two clearing
the low bits is rounding down.
-/

namespace Scc.Lib

set_option autoImplicit false

/-- The multiples of a number from another one on. -/
def multiplesFrom (n x : Nat) : Set Nat := {m | n ∣ m ∧ x ≤ m}

theorem isLeast_multiplesFrom {n : Nat} (pos : 0 < n) (x : Nat) :
    IsLeast (multiplesFrom n x) ((x + (n - 1)) / n * n) := by
  have whole := Nat.div_add_mod (x + (n - 1)) n
  have small := Nat.mod_lt (x + (n - 1)) pos
  rw [Nat.mul_comm] at whole
  constructor
  · exact ⟨Nat.dvd_mul_left .., by omega⟩
  · rintro m ⟨⟨q, rfl⟩, le⟩
    rw [Nat.mul_comm n q]
    apply Nat.mul_le_mul_right
    have below : x + (n - 1) < n * (q + 1) := by
      rw [Nat.mul_succ]
      omega
    exact Nat.lt_succ_iff.mp (Nat.div_lt_of_lt_mul below)

section

variable {w : Nat}

theorem toNat_and_not_two_pow (x mask : BitVec w) {k : Nat} (low : mask.toNat = 2 ^ k - 1) :
    (x &&& ~~~mask).toNat = x.toNat / 2 ^ k * 2 ^ k := by
  apply Nat.eq_of_testBit_eq
  intro i
  have masked : mask.getLsbD i = decide (i < k) := by
    rw [← BitVec.testBit_toNat, low, Nat.testBit_two_pow_sub_one]
  rw [← Nat.shiftRight_eq_div_pow, ← Nat.shiftLeft_eq, Nat.testBit_shiftLeft, Nat.testBit_shiftRight,
    BitVec.testBit_toNat, BitVec.testBit_toNat, BitVec.getLsbD_and, BitVec.getLsbD_not, masked]
  by_cases below : i < k
  · simp [below]
  · have same : k + (i - k) = i := by omega
    cases bit : x.getLsbD i with
    | false => simp [same, bit]
    | true =>
      have inside := BitVec.lt_of_getLsbD bit
      simp [below, same, bit, inside, Nat.le_of_not_lt below]

end

end Scc.Lib
