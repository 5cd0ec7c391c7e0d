import Mathlib.Data.List.GetD
import Mathlib.Data.List.TakeWhile
import Mathlib.Data.Nat.Digits.Defs

/-!
# Numerals

The digits of a number in a base up to 16, and the number that is read from them.
-/

namespace Scc.Lib.Numeral

set_option autoImplicit false

def letters : List Char := "0123456789ABCDEF".toList

def letter (d : Nat) : Char := letters.getD d '0'

/-- The numeral of a number, without zeros in front. -/
def numeral (base n : Nat) : List Char :=
  if n = 0 then ['0'] else (Nat.digits base n).reverse.map letter

def value (base : Nat) (digit : Char → Nat) (text : List Char) : Nat :=
  text.foldl (fun v c => v * base + digit c) 0

theorem digit_letter {d : Nat} (small : d < 16) : letters.idxOf (letter d) = d := by
  have all : ∀ d : Fin 16, letters.idxOf (letter d.val) = d.val := by decide
  exact all ⟨d, small⟩

theorem decimal_letter {d : Nat} (small : d < 10) :
    (letter d).isDigit = true ∧ (letter d).toNat - 48 = d := by
  have all : ∀ d : Fin 10, (letter d.val).isDigit = true ∧ (letter d.val).toNat - 48 = d.val := by
    decide
  exact all ⟨d, small⟩

theorem letter_mem (d : Nat) : letter d ∈ letters := by
  unfold letter
  by_cases small : d < letters.length
  · rw [List.getD_eq_getElem _ _ small]
    exact List.getElem_mem small
  · rw [List.getD_eq_default _ _ (Nat.le_of_not_lt small)]
    decide

theorem numeral_mem {base n : Nat} {c : Char} (member : c ∈ numeral base n) : c ∈ letters := by
  unfold numeral at member
  split_ifs at member with zero
  · rw [List.mem_singleton.mp member]
    decide
  · rcases List.mem_map.mp member with ⟨d, _, rfl⟩
    exact letter_mem d

theorem value_numeral {base : Nat} (digit : Char → Nat) (n : Nat) (large : 1 < base)
    (reads : ∀ d, d < base → digit (letter d) = d) : value base digit (numeral base n) = n := by
  unfold numeral value
  split_ifs with zero
  · have first := reads 0 (by omega)
    change 0 * base + digit (letter 0) = n
    omega
  · rw [List.map_reverse, List.foldl_reverse]
    have sum : ∀ ds : List Nat, (∀ d ∈ ds, d < base) →
        (ds.map letter).foldr (fun c v => v * base + digit c) 0 = Nat.ofDigits base ds := by
      intro ds
      induction ds with
      | nil =>
        intro _
        rfl
      | cons d ds ih =>
        intro below
        rw [List.map_cons, List.foldr_cons, ih fun d member => below d (List.mem_cons_of_mem _ member),
          reads d (below d List.mem_cons_self), Nat.ofDigits_cons, Nat.mul_comm, Nat.add_comm]
    rw [sum _ fun d member => Nat.digits_lt_base large member]
    exact Nat.ofDigits_digits base n

theorem value_hex (n : Nat) : value 16 (fun c => letters.idxOf c) (numeral 16 n) = n :=
  value_numeral _ n (by decide) fun _ small => digit_letter small

def atoi (text : List Char) : Nat :=
  value 10 (fun c => c.toNat - 48) (text.takeWhile Char.isDigit)

theorem numeral_digits (n : Nat) : ∀ c ∈ numeral 10 n, c.isDigit = true := by
  intro c member
  unfold numeral at member
  split_ifs at member with zero
  · rw [List.mem_singleton.mp member]
    decide
  · rcases List.mem_map.mp member with ⟨d, inside, rfl⟩
    exact (decimal_letter (Nat.digits_lt_base (by decide) (List.mem_reverse.mp inside))).1

theorem atoi_numeral (n : Nat) : atoi (numeral 10 n) = n := by
  unfold atoi
  rw [List.takeWhile_eq_self_iff.mpr (numeral_digits n)]
  exact value_numeral _ n (by decide) fun _ small => (decimal_letter small).2

end Scc.Lib.Numeral
