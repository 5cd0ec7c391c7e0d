import Mathlib.Data.Nat.Bitwise

/-!
# Numbers in bytes

A number is cut into the bytes that begin at given bits, in any order, and put together
again. Nothing is lost when every bit of the number is in one of the bytes.
-/

namespace Scc.Lib.Shifts

set_option autoImplicit false

/-- The bytes of the number that begin at these bits. -/
def scatter (shifts : List Nat) (v : Nat) : List UInt8 := shifts.map fun k => UInt8.ofNat (v >>> k)

def gather : List Nat → List UInt8 → Nat
  | k :: shifts, b :: bytes => b.toNat <<< k ||| gather shifts bytes
  | _, _ => 0

@[simp] theorem scatter_length (shifts : List Nat) (v : Nat) : (scatter shifts v).length = shifts.length :=
  List.length_map _

theorem testBit_byte (v k i : Nat) :
    ((UInt8.ofNat (v >>> k)).toNat <<< k).testBit i = (decide (k ≤ i ∧ i < k + 8) && v.testBit i) := by
  rw [UInt8.toNat_ofNat', Nat.testBit_shiftLeft, Nat.testBit_mod_two_pow, Nat.testBit_shiftRight]
  by_cases inside : k ≤ i
  · have back : k + (i - k) = i := by omega
    have same : i - k < 8 ↔ i < k + 8 := by omega
    simp [inside, back, same]
  · simp [inside]

theorem testBit_gather (shifts : List Nat) (v i : Nat) : (gather shifts (scatter shifts v)).testBit i =
      (shifts.any (fun k => decide (k ≤ i ∧ i < k + 8)) && v.testBit i) := by
  induction shifts with
  | nil => simp [gather]
  | cons k shifts ih =>
    rw [scatter, List.map_cons, gather, Nat.testBit_lor, testBit_byte, ← scatter, ih, List.any_cons,
      Bool.and_or_distrib_right]

/-- Every bit below the bound is in one of the bytes. -/
def Covers (shifts : List Nat) (bits : Nat) : Prop := ∀ i < bits, ∃ k ∈ shifts, k ≤ i ∧ i < k + 8

variable {shifts : List Nat}

theorem gather_scatter {bits v : Nat} (covers : Covers shifts bits)
    (small : v < 2 ^ bits) : gather shifts (scatter shifts v) = v := by
  apply Nat.eq_of_testBit_eq
  intro i
  rw [testBit_gather]
  by_cases inside : i < bits
  · rcases covers i inside with ⟨k, member, covered⟩
    have found : shifts.any (fun k => decide (k ≤ i ∧ i < k + 8)) = true :=
      List.any_eq_true.mpr ⟨k, member, decide_eq_true covered⟩
    rw [found, Bool.true_and]
  · have above : v < 2 ^ i := Nat.lt_of_lt_of_le small (Nat.pow_le_pow_right (by decide) (by omega))
    rw [Nat.testBit_lt_two_pow above, Bool.and_false]

theorem scatter_inj {bits v w : Nat} (covers : Covers shifts bits) (small : v < 2 ^ bits)
    (small' : w < 2 ^ bits) : scatter shifts v = scatter shifts w ↔ v = w := by
  constructor
  · intro same
    rw [← gather_scatter covers small, same, gather_scatter covers small']
  · intro same
    rw [same]

theorem gather_append (shifts : List Nat) {bytes : List UInt8} (all : bytes.length = shifts.length)
    (rest : List UInt8) : gather shifts (bytes ++ rest) = gather shifts bytes := by
  induction shifts generalizing bytes with
  | nil => rfl
  | cons k shifts ih =>
    cases bytes with
    | nil => cases all
    | cons b bytes =>
      rw [List.cons_append, gather, gather, ih (Nat.succ.inj all)]

theorem scatter_mod {bits : Nat} (below : ∀ k ∈ shifts, k + 8 ≤ bits) (v : Nat) :
    scatter shifts (v % 2 ^ bits) = scatter shifts v := by
  apply List.map_congr_left
  intro k member
  have inside := below k member
  rw [← UInt8.toNat_inj, UInt8.toNat_ofNat', UInt8.toNat_ofNat']
  apply Nat.eq_of_testBit_eq
  intro i
  rw [Nat.testBit_mod_two_pow, Nat.testBit_mod_two_pow, Nat.testBit_shiftRight, Nat.testBit_shiftRight,
    Nat.testBit_mod_two_pow]
  by_cases low : i < 8
  · have high : k + i < bits := by omega
    simp [low, high]
  · simp [low]

def Apart (shifts : List Nat) : Prop := shifts.Pairwise fun k k' => k + 8 ≤ k' ∨ k' + 8 ≤ k

theorem testBit_gather_outside {i : Nat} (outside : ∀ k ∈ shifts, ¬ (k ≤ i ∧ i < k + 8))
    (bytes : List UInt8) : (gather shifts bytes).testBit i = false := by
  induction shifts generalizing bytes with
  | nil => simp [gather]
  | cons k shifts ih =>
    cases bytes with
    | nil => simp [gather]
    | cons b bytes =>
      unfold gather
      rw [Nat.testBit_lor, ih (fun k' member => outside k' (List.mem_cons_of_mem _ member)), Bool.or_false,
        Nat.testBit_shiftLeft, Bool.and_eq_false_iff]
      by_cases below : k ≤ i
      · right
        have above : 8 ≤ i - k := by
          have no := outside k List.mem_cons_self
          omega
        exact Nat.testBit_lt_two_pow (lt_of_lt_of_le b.toNat_lt (Nat.pow_le_pow_right (by decide) above))
      · left
        simpa using below

theorem gather_injective (apart : Apart shifts) {bytes bytes' : List UInt8}
    (length : bytes.length = shifts.length) (length' : bytes'.length = shifts.length)
    (same : gather shifts bytes = gather shifts bytes') : bytes = bytes' := by
  induction shifts generalizing bytes bytes' with
  | nil => rw [List.length_eq_zero_iff.mp length, List.length_eq_zero_iff.mp length']
  | cons k shifts ih =>
    have later : ∀ k' ∈ shifts, k + 8 ≤ k' ∨ k' + 8 ≤ k :=
    fun _ member => List.rel_of_pairwise_cons apart member
    cases bytes with
    | nil => cases length
    | cons b bytes =>
      cases bytes' with
      | nil => cases length'
      | cons b' bytes' =>
        have bit (i : Nat) : ((b.toNat <<< k).testBit i || (gather shifts bytes).testBit i) =
            ((b'.toNat <<< k).testBit i || (gather shifts bytes').testBit i) := by
          rw [← Nat.testBit_lor, ← Nat.testBit_lor]
          exact congrArg (Nat.testBit · i) same
        have high (c : UInt8) {i : Nat} (above : 8 ≤ i) : c.toNat.testBit i = false :=
          Nat.testBit_lt_two_pow (lt_of_lt_of_le c.toNat_lt (Nat.pow_le_pow_right (by decide) above))
        have first : b = b' := by
          rw [← UInt8.toNat_inj]
          apply Nat.eq_of_testBit_eq
          intro i
          by_cases inside : i < 8
          · have none_ : ∀ k' ∈ shifts, ¬ (k' ≤ k + i ∧ k + i < k' + 8) := by
              intro k' member
              have := later k' member
              omega
            have here := bit (k + i)
            rw [testBit_gather_outside none_, testBit_gather_outside none_, Nat.testBit_shiftLeft,
              Nat.testBit_shiftLeft] at here
            simpa using here
          · rw [high b (by omega), high b' (by omega)]
        have rest : gather shifts bytes = gather shifts bytes' := by
          apply Nat.eq_of_testBit_eq
          intro i
          by_cases inside : k ≤ i ∧ i < k + 8
          · have none_ : ∀ k' ∈ shifts, ¬ (k' ≤ i ∧ i < k' + 8) := by
              intro k' member
              have := later k' member
              omega
            rw [testBit_gather_outside none_, testBit_gather_outside none_]
          · have none_ (c : UInt8) : (c.toNat <<< k).testBit i = false := by
              rw [Nat.testBit_shiftLeft, Bool.and_eq_false_iff]
              by_cases below : k ≤ i
              · exact .inr (high c (by omega))
              · exact .inl (by simpa using below)
            have here := bit i
            rw [none_, none_] at here
            simpa using here
        rw [first, ih apart.of_cons (Nat.succ.inj length) (Nat.succ.inj length') rest]

end Scc.Lib.Shifts
