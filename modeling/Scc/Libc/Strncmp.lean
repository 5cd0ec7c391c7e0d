import Mathlib.Data.List.Basic
import Mathlib.Order.Basic

/-!
# Comparing strings

`strncmp()` stops at the first difference or at its bound, and `strcmp()` also at the NUL. What is in
memory behind the NUL of a string is arbitrary.
-/

namespace Scc.Libc.Strncmp

set_option autoImplicit false

structure CString where
  text : List UInt8
  /-- The bytes after the NUL. -/
  behind : Nat → UInt8
  text_nul : 0 ∉ text

/-- Memory from the beginning of some bytes on. -/
def memory (behind : Nat → UInt8) : List UInt8 → Nat → UInt8
  | [] => fun
    | 0 => 0
    | i + 1 => behind i
  | c :: text => fun
    | 0 => c
    | i + 1 => memory behind text i

def CString.at_ (s : CString) : Nat → UInt8 := memory s.behind s.text

/-- The value, and how many bytes of each string are read. -/
structure Outcome where
  value : Int
  read : Nat
deriving DecidableEq

def Outcome.later (r : Outcome) : Outcome := { r with read := r.read + 1 }

/-- `*(unsigned char *) s1 - *(unsigned char *) s2` -/
def difference (c d : UInt8) : Int := (c.toNat : Int) - d.toNat

def strncmp (s1 s2 : Nat → UInt8) : Nat → Outcome
  | 0 => ⟨0, 0⟩
  | n + 1 =>
    if s1 0 = s2 0 then (strncmp (fun i => s1 (i + 1)) (fun i => s2 (i + 1)) n).later
    else ⟨difference (s1 0) (s2 0), 1⟩

/-- Without a result when the fuel does not last. -/
def strcmp (s1 s2 : Nat → UInt8) : Nat → Option Outcome
  | 0 => none
  | fuel + 1 =>
    if s1 0 ≠ 0 ∧ s1 0 = s2 0 then (strcmp (fun i => s1 (i + 1)) (fun i => s2 (i + 1)) fuel).map .later
    else some ⟨difference (s1 0) (s2 0), 1⟩

/-- The sign of a value tells how two strings are ordered, by their first different byte. -/
def Tells (value : Int) (s t : List UInt8) : Prop :=
  (value < 0 ↔ s < t) ∧ (value = 0 ↔ s = t) ∧ (0 < value ↔ t < s)

/-- What is asked of `strncmp()` with a bound. -/
structure Compares (s t : CString) (n : Nat) : Prop where
  sign : Tells (strncmp s.at_ t.at_ n).value (s.text.take n) (t.text.take n)
  /-- Nothing is read after the NUL of either string. -/
  inside : (strncmp s.at_ t.at_ n).read ≤ s.text.length + 1 ∧ (strncmp s.at_ t.at_ n).read ≤ t.text.length + 1
  /-- Beyond both strings the bound makes no difference. -/
  unbounded : s.text.length ≤ n → t.text.length ≤ n →
    ∃ r, (∀ fuel, s.text.length < fuel → strcmp s.at_ t.at_ fuel = some r) ∧
      (strncmp s.at_ t.at_ n).value.sign = r.value.sign

theorem difference_neg {c d : UInt8} : difference c d < 0 ↔ c < d := by
  unfold difference
  rw [UInt8.lt_iff_toNat_lt]
  omega

theorem difference_pos {c d : UInt8} : 0 < difference c d ↔ d < c := by
  unfold difference
  rw [UInt8.lt_iff_toNat_lt]
  omega

theorem difference_zero {c d : UInt8} : difference c d = 0 ↔ c = d := by
  unfold difference
  rw [← UInt8.toNat_inj]
  omega

theorem tells_first {c d : UInt8} (other : c ≠ d) (s t : List UInt8) :
    Tells (difference c d) (c :: s) (d :: t) := by
  unfold Tells
  rw [difference_neg, difference_pos, difference_zero, List.cons_lt_cons_iff, List.cons_lt_cons_iff]
  simp [other, other.symm]

theorem tells_cons {value : Int} {s t : List UInt8} (tells : Tells value s t) (c : UInt8) :
    Tells value (c :: s) (c :: t) := by
  unfold Tells at tells ⊢
  rw [List.cons_lt_cons_iff, List.cons_lt_cons_iff]
  simpa using tells

theorem tells_longer {c : UInt8} (some_ : c ≠ 0) (s : List UInt8) :
    Tells (difference c 0) (c :: s) [] ∧ Tells (difference 0 c) [] (c :: s) := by
  have positive : 0 < c.toNat := by
    by_contra zero
    exact some_ (UInt8.toNat_inj.mp (by simpa using zero))
  unfold Tells difference
  simp
  omega

theorem tells_nil : Tells 0 [] [] := by
  unfold Tells
  simp

theorem tells_sign {v w : Int} {s t : List UInt8} (first : Tells v s t) (second : Tells w s t) : v.sign = w.sign := by
  rcases Int.lt_trichotomy v 0 with negative | zero | positive
  · have negative' := second.1.mpr (first.1.mp negative)
    rw [Int.sign_eq_neg_one_of_neg negative, Int.sign_eq_neg_one_of_neg negative']
  · have zero' := second.2.1.mpr (first.2.1.mp zero)
    rw [zero, zero']
  · have positive' := second.2.2.mpr (first.2.2.mp positive)
    rw [Int.sign_eq_one_of_pos positive, Int.sign_eq_one_of_pos positive']

section Loops

variable {behind behind' : Nat → UInt8}

theorem strncmp_cons (c d : UInt8) (s t : List UInt8) (n : Nat) :
    strncmp (memory behind (c :: s)) (memory behind' (d :: t)) (n + 1) =
      if c = d then (strncmp (memory behind s) (memory behind' t) n).later else ⟨difference c d, 1⟩ := rfl

theorem strncmp_spec {s t : List UInt8} (nul : 0 ∉ s) (nul' : 0 ∉ t) {n : Nat}
    (bounded : ¬(s = t ∧ s.length + 1 < n)) :
    Tells (strncmp (memory behind s) (memory behind' t) n).value (s.take n) (t.take n) ∧
      (strncmp (memory behind s) (memory behind' t) n).read ≤ s.length + 1 ∧
      (strncmp (memory behind s) (memory behind' t) n).read ≤ t.length + 1 := by
  induction s generalizing t n with
  | nil =>
    cases n with
    | zero => exact ⟨tells_nil, Nat.zero_le _, Nat.zero_le _⟩
    | succ n =>
      cases t with
      | nil =>
        have last : n = 0 := by
          simp only [true_and, List.length_nil] at bounded
          omega
        rw [last]
        exact ⟨tells_nil, Nat.le_refl _, Nat.le_refl _⟩
      | cons d t =>
        have other : (0 : UInt8) ≠ d := fun same => nul' (same ▸ List.mem_cons_self)
        have stops : strncmp (memory behind []) (memory behind' (d :: t)) (n + 1) = ⟨difference 0 d, 1⟩ := if_neg other
        rw [stops]
        exact ⟨(tells_longer other.symm _).2, by simp, by simp⟩
  | cons c s ih =>
    cases n with
    | zero => exact ⟨tells_nil, Nat.zero_le _, Nat.zero_le _⟩
    | succ n =>
      cases t with
      | nil =>
        have other : c ≠ 0 := fun same => nul (same ▸ List.mem_cons_self)
        have stops : strncmp (memory behind (c :: s)) (memory behind' []) (n + 1) = ⟨difference c 0, 1⟩ := if_neg other
        rw [stops]
        exact ⟨(tells_longer other _).1, by simp, by simp⟩
      | cons d t =>
        rw [strncmp_cons]
        by_cases same : c = d
        · subst same
          rw [if_pos rfl]
          have shorter : ¬(s = t ∧ s.length + 1 < n) := by
            rintro ⟨rfl, past⟩
            exact bounded ⟨rfl, by rw [List.length_cons]; omega⟩
          rcases ih (fun inside => nul (List.mem_cons_of_mem _ inside)) (fun inside => nul' (List.mem_cons_of_mem _ inside))
            shorter with ⟨tells, read, read'⟩
          exact ⟨tells_cons tells c, Nat.succ_le_succ read, Nat.succ_le_succ read'⟩
        · rw [if_neg same]
          exact ⟨tells_first same _ _, by simp, by simp⟩

theorem strncmp_read (s1 s2 : Nat → UInt8) (n : Nat) : 1 ≤ (strncmp s1 s2 (n + 1)).read := by
  unfold strncmp
  split_ifs
  · exact Nat.succ_le_succ (Nat.zero_le _)
  · exact Nat.le_refl _

theorem strncmp_past (s : List UInt8) {n : Nat} (past : s.length + 1 < n) :
    s.length + 1 < (strncmp (memory behind s) (memory behind' s) n).read := by
  induction s generalizing n with
  | nil =>
    cases n with
    | zero => exact absurd past (Nat.not_lt_zero _)
    | succ n =>
      cases n with
      | zero => exact absurd past (Nat.lt_irrefl _)
      | succ n => exact Nat.succ_le_succ (strncmp_read _ _ n)
  | cons c s ih =>
    cases n with
    | zero => exact absurd past (Nat.not_lt_zero _)
    | succ n =>
      rw [strncmp_cons, if_pos rfl]
      rw [List.length_cons] at past ⊢
      exact Nat.succ_lt_succ (ih (Nat.lt_of_succ_lt_succ past))

theorem strcmp_spec {s t : List UInt8} (nul : 0 ∉ s) (nul' : 0 ∉ t) :
    ∃ r, (∀ fuel, s.length < fuel → strcmp (memory behind s) (memory behind' t) fuel = some r) ∧ Tells r.value s t := by
  induction s generalizing t with
  | nil =>
    refine ⟨⟨difference 0 (memory behind' t 0), 1⟩, fun fuel some_ => ?_, ?_⟩
    · cases fuel with
      | zero => exact absurd some_ (Nat.lt_irrefl _)
      | succ fuel => exact if_neg fun both => both.1 rfl
    · cases t with
      | nil => exact tells_nil
      | cons d t => exact (tells_longer (fun same => nul' (same ▸ List.mem_cons_self)) t).2
  | cons c s ih =>
    have some_ : c ≠ 0 := fun same => nul (same ▸ List.mem_cons_self)
    by_cases same : c = memory behind' t 0
    · cases t with
      | nil => exact absurd same some_
      | cons d t =>
        change c = d at same
        subst same
        rcases ih (fun inside => nul (List.mem_cons_of_mem _ inside)) (fun inside => nul' (List.mem_cons_of_mem _ inside))
          with ⟨r, runs, tells⟩
        refine ⟨r.later, fun fuel enough => ?_, tells_cons tells c⟩
        cases fuel with
        | zero => exact absurd enough (Nat.not_lt_zero _)
        | succ fuel =>
          have rest := runs fuel (Nat.lt_of_succ_lt_succ enough)
          have goes : strcmp (memory behind (c :: s)) (memory behind' (c :: t)) (fuel + 1) =
              (strcmp (memory behind s) (memory behind' t) fuel).map .later := if_pos ⟨some_, rfl⟩
          rw [goes, rest]
          rfl
    · refine ⟨⟨difference c (memory behind' t 0), 1⟩, fun fuel enough => ?_, ?_⟩
      · cases fuel with
        | zero => exact absurd enough (Nat.not_lt_zero _)
        | succ fuel => exact if_neg fun both => same both.2
      · cases t with
        | nil => exact (tells_longer some_ s).1
        | cons d t => exact tells_first same s t

end Loops

/-- `strncmp()` compares two strings rightly, unless they are equal and the bound is beyond their NUL. -/
theorem compares_iff (s t : CString) (n : Nat) :
    Compares s t n ↔ ¬(s.text = t.text ∧ s.text.length + 1 < n) := by
  constructor
  · rintro compares ⟨same, past⟩
    have reads := @strncmp_past s.behind t.behind s.text _ past
    have inside := compares.inside.1
    unfold CString.at_ at inside
    rw [← same] at inside
    omega
  · intro bounded
    rcases @strncmp_spec s.behind t.behind _ _ s.text_nul t.text_nul _ bounded with ⟨tells, read, read'⟩
    constructor
    case sign => exact tells
    case inside => exact ⟨read, read'⟩
    case unbounded =>
      intro long long'
      rcases @strcmp_spec s.behind t.behind _ _ s.text_nul t.text_nul with ⟨r, runs, tells'⟩
      rw [List.take_of_length_le long, List.take_of_length_le long'] at tells
      exact ⟨r, runs, tells_sign tells tells'⟩

/-- Two empty strings with an `a` behind the NUL of the first one. -/
def emptyA : CString := ⟨[], fun _ => 97, by decide⟩

def empty : CString := ⟨[], fun _ => 0, by decide⟩

/-- With the bound 2 they are different for `strncmp()`. -/
theorem empty_unequal : ¬ ∀ (s t : CString) (n : Nat), Compares s t n := by
  intro all
  have sign := (all emptyA empty 2).sign
  exact absurd (sign.2.1.mpr rfl) (by decide)

end Scc.Libc.Strncmp
