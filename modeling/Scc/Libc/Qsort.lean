import Mathlib.Algebra.Ring.Nat
import Scc.Lib.Fuel
import Scc.Lib.Rearrangement

/-!
# Sorting an array

The pointers of `xqsort()` go from element to element, so the element at `base + k*es` is given by its
index `k`, and `size_t` has `w` bits. What lies outside of the array is not to be accessed. `nj` is a
variable that is read before it is set: `ind` is what its memory holds, for the memory of the array, `a`,
`n` and `ni` of the call.
-/

namespace Scc.Libc.Qsort

open Scc.Lib Scc.Lib.Fuel

set_option autoImplicit false

/-- The loop of `swap()` over the bytes of a memory, for one byte and more. -/
def swapBytes (mem : Nat → UInt8) (i j : Nat) : Nat → Nat → UInt8
  | 0 => exchange mem i j
  | n + 1 => swapBytes (exchange mem i j) (i + 1) (j + 1) n

theorem swapBytes_apply {mem : Nat → UInt8} {i j n : Nat} (apart : i + n < j ∨ j + n < i) (k : Nat) :
    swapBytes mem i j n k =
      if i ≤ k ∧ k ≤ i + n then mem (k - i + j) else if j ≤ k ∧ k ≤ j + n then mem (k - j + i)
      else mem k := by
  induction n generalizing mem i j with
  | zero =>
    unfold swapBytes exchange
    split_ifs <;> first | rfl | (congr 1; omega)
  | succ n ih =>
    unfold swapBytes
    rw [ih (by omega)]
    unfold exchange
    split_ifs <;> first | rfl | (congr 1; omega)

theorem swapBytes_same (mem : Nat → UInt8) (i n : Nat) : swapBytes mem i i n = mem := by
  have stays : ∀ i, exchange mem i i = mem := by
    intro i
    funext k
    unfold exchange
    split_ifs with here
    · rw [here]
    · rfl
  induction n generalizing i with
  | zero => exact stays i
  | succ n ih =>
    unfold swapBytes
    rw [stays i]
    exact ih (i + 1)

def element (mem : Nat → UInt8) (es k : Nat) : List UInt8 := (List.range es).map fun b => mem (k * es + b)

theorem element_swapBytes (mem : Nat → UInt8) (es i j : Nat) :
    element (swapBytes mem (i * (es + 1)) (j * (es + 1)) es) (es + 1) = exchange (element mem (es + 1)) i j := by
  by_cases same : i = j
  · subst same
    rw [swapBytes_same]
    funext k
    unfold exchange
    split_ifs with here
    · rw [here]
    · rfl
  · have far : ∀ x y : Nat, x < y → x * (es + 1) + es < y * (es + 1) := by
      intro x y less
      have := Nat.mul_le_mul_right (es + 1) (Nat.succ_le_of_lt less)
      rw [Nat.succ_mul] at this
      omega
    have apart : i * (es + 1) + es < j * (es + 1) ∨ j * (es + 1) + es < i * (es + 1) := by
      rcases Nat.lt_or_gt_of_ne same with less | greater
      · exact .inl (far i j less)
      · exact .inr (far j i greater)
    funext k
    have place : ∀ x, x ≠ k → k * (es + 1) + es < x * (es + 1) ∨ x * (es + 1) + es < k * (es + 1) := by
      intro x other
      rcases Nat.lt_or_gt_of_ne other with less | greater
      · exact .inr (far x k less)
      · exact .inl (far k x greater)
    have byte : ∀ b ∈ List.range (es + 1), swapBytes mem (i * (es + 1)) (j * (es + 1)) es (k * (es + 1) + b) =
        mem ((if k = i then j else if k = j then i else k) * (es + 1) + b) := by
      intro b small
      rw [List.mem_range] at small
      rw [swapBytes_apply apart]
      by_cases left : k = i
      · rw [if_pos left, left, if_pos (by omega)]
        congr 1
        omega
      · have := place i (Ne.symm left)
        rw [if_neg left, if_neg (by omega)]
        by_cases right : k = j
        · rw [if_pos right, right, if_pos (by omega)]
          congr 1
          omega
        · have := place j (Ne.symm right)
          rw [if_neg right, if_neg (by omega)]
    unfold element exchange
    rw [List.map_congr_left byte]
    split_ifs <;> rfl

variable {α : Type*}

/-- A pointer to what is not in the array was used. -/
inductive Fault
  | outside (i : Nat)
deriving DecidableEq

/-- The sort of an array of `nmemb` elements. -/
structure Qs (α : Type*) where
  w : Nat
  nmemb : Nat
  cmp : α → α → Int
  ind : (Nat → α) → Nat → Nat → Nat → Nat

/-- The next step, when an element may be accessed. -/
def Qs.access {β : Type*} (qs : Qs α) (i : Nat) (next : Result Fault β) : Result Fault β :=
  if i < qs.nmemb then next else .error (.outside i)

def Qs.swap (qs : Qs α) (mem : Nat → α) (i j : Nat) : Result Fault (Nat → α) :=
  qs.access i (qs.access j (.ok (exchange mem i j)))

/-- The loop that moves `pi`. -/
def Qs.ahead (qs : Qs α) (mem : Nat → α) (a pn : Nat) : Nat → Nat → Result Fault Nat
  | 0, _ => none
  | fuel + 1, pi =>
    let pi := pi + 1
    if pi < pn then
      qs.access pi (qs.access a
        (if qs.cmp (mem pi) (mem a) < 0 then qs.ahead mem a pn fuel pi else .ok pi))
    else .ok pi

/-- The loop that moves `pj`. -/
def Qs.back (qs : Qs α) (mem : Nat → α) (a : Nat) : Nat → Nat → Result Fault Nat
  | 0, _ => none
  | fuel + 1, pj =>
    let pj := pj - 1
    if pj > a then
      qs.access pj (qs.access a
        (if qs.cmp (mem pj) (mem a) > 0 then qs.back mem a fuel pj else .ok pj))
    else .ok pj

/-- The loop around both, with the last `pj`. -/
def Qs.partition (qs : Qs α) (a pn : Nat) : Nat → (Nat → α) → Nat → Nat → Result Fault ((Nat → α) × Nat)
  | 0, _, _, _ => none
  | fuel + 1, mem, pi, pj =>
    (qs.ahead mem a pn fuel pi).andThen fun pi =>
      (qs.back mem a fuel pj).andThen fun pj =>
        if pj < pi then .ok (mem, pj)
        else (qs.swap mem pi pj).andThen fun mem => qs.partition a pn fuel mem pi pj

def Qs.xqsort (qs : Qs α) : Nat → (Nat → α) → Nat → Nat → Result Fault (Nat → α)
  | 0, _, _, _ => none
  | fuel + 1, mem, a, n =>
    if n ≤ 1 then .ok mem
    else
      (qs.swap mem a (a + n / 2)).andThen fun mem =>
        (qs.partition a (a + n) fuel mem a (a + n)).andThen fun (mem, pj) =>
          (qs.swap mem a pj).andThen fun mem =>
            let ni := pj - a
            let nj := (n + 2 ^ qs.w - qs.ind mem a n ni % 2 ^ qs.w - 1) % 2 ^ qs.w
            if ni < nj then (qs.xqsort fuel mem a ni).andThen fun mem => qs.xqsort fuel mem (pj + 1) nj
            else (qs.xqsort fuel mem (pj + 1) nj).andThen fun mem => qs.xqsort fuel mem a ni

def Qs.qsort (qs : Qs α) (fuel : Nat) (mem : Nat → α) : Result Fault (Nat → α) :=
  qs.xqsort fuel mem 0 qs.nmemb

/-- A comparison function of a total preorder. -/
structure Compares (cmp : α → α → Int) : Prop where
  less : ∀ x y, cmp x y < 0 ↔ 0 < cmp y x
  trans : ∀ x y z, cmp x y ≤ 0 → cmp y z ≤ 0 → cmp x z ≤ 0

def InOrder (cmp : α → α → Int) (mem : Nat → α) (lo hi : Nat) : Prop :=
  ∀ i j, lo ≤ i → i ≤ j → j < hi → cmp (mem i) (mem j) ≤ 0

/-- The array comes out in order, and nothing else is accessed. -/
def Qs.Sorts (qs : Qs α) (mem : Nat → α) : Prop :=
  ∃ mem', Settles (qs.qsort · mem) (.ok mem') ∧ Rearranges 0 qs.nmemb mem mem' ∧ InOrder qs.cmp mem' 0 qs.nmemb

/-- `nj` happens to hold `ni` whenever it is read. -/
def Qs.Lucky (qs : Qs α) : Prop := ∀ mem a n ni, ni < 2 ^ qs.w → qs.ind mem a n ni % 2 ^ qs.w = ni

section

variable {qs : Qs α} {mem : Nat → α} {a pn : Nat}

theorem access_ok {β : Type*} {i : Nat} (inside : i < qs.nmemb) (next : Result Fault β) : qs.access i next = next :=
  if_pos inside

theorem swap_ok {i j : Nat} (left : i < qs.nmemb) (right : j < qs.nmemb) :
    qs.swap mem i j = .ok (exchange mem i j) := by
  unfold Qs.swap
  rw [access_ok left, access_ok right]

theorem ahead_settles (pivot : a < qs.nmemb) (bound : pn ≤ qs.nmemb) {left pi : Nat} (last : pn = pi + left + 1) :
    ∃ pi', Settles (fun fuel => qs.ahead mem a pn fuel pi) (.ok pi') ∧ pi < pi' ∧ pi' ≤ pn ∧
      (∀ k, pi < k → k < pi' → qs.cmp (mem k) (mem a) < 0) ∧ (pi' < pn → 0 ≤ qs.cmp (mem pi') (mem a)) := by
  induction left generalizing pi with
  | zero =>
    refine ⟨pi + 1, .step (fun fuel => ?_) (.const _), by omega, by omega, by omega, by omega⟩
    unfold Qs.ahead
    dsimp only
    rw [if_neg (by omega)]
  | succ left ih =>
    have turn : ∀ fuel, qs.ahead mem a pn (fuel + 1) pi =
        if qs.cmp (mem (pi + 1)) (mem a) < 0 then qs.ahead mem a pn fuel (pi + 1) else .ok (pi + 1) := by
      intro fuel
      rw [Qs.ahead, if_pos (by omega), access_ok (by omega), access_ok pivot]
    by_cases less : qs.cmp (mem (pi + 1)) (mem a) < 0
    · rcases @ih (pi + 1) (by omega) with ⟨pi', settles, after, low, before, stop⟩
      refine ⟨pi', .step (fun fuel => ?_) settles, by omega, low, fun k from_ til => ?_, stop⟩
      · rw [turn, if_pos less]
      · by_cases here : k = pi + 1
        · rw [here]
          exact less
        · exact before k (by omega) til
    · refine ⟨pi + 1, .step (fun fuel => ?_) (.const _), by omega, by omega, by omega, fun _ => by omega⟩
      rw [turn, if_neg less]

theorem back_settles (pivot : a < qs.nmemb) {left pj : Nat} (last : pj = a + left + 1) (bound : pj ≤ qs.nmemb) :
    ∃ pj', Settles (fun fuel => qs.back mem a fuel pj) (.ok pj') ∧ a ≤ pj' ∧ pj' < pj ∧
      (∀ k, pj' < k → k < pj → 0 < qs.cmp (mem k) (mem a)) ∧ (a < pj' → qs.cmp (mem pj') (mem a) ≤ 0) := by
  induction left generalizing pj with
  | zero =>
    refine ⟨pj - 1, .step (fun fuel => ?_) (.const _), by omega, by omega, by omega, by omega⟩
    unfold Qs.back
    dsimp only
    rw [if_neg (by omega)]
  | succ left ih =>
    have turn : ∀ fuel, qs.back mem a (fuel + 1) pj =
        if qs.cmp (mem (pj - 1)) (mem a) > 0 then qs.back mem a fuel (pj - 1) else .ok (pj - 1) := by
      intro fuel
      rw [Qs.back, if_pos (by omega), access_ok (by omega), access_ok pivot]
    by_cases greater : qs.cmp (mem (pj - 1)) (mem a) > 0
    · rcases @ih (pj - 1) (by omega) (by omega) with ⟨pj', settles, low, before, after, stop⟩
      refine ⟨pj', .step (fun fuel => ?_) settles, low, by omega, fun k from_ til => ?_, stop⟩
      · rw [turn, if_pos greater]
      · by_cases here : k = pj - 1
        · rw [here]
          exact greater
        · exact after k from_ (by omega)
    · refine ⟨pj - 1, .step (fun fuel => ?_) (.const _), by omega, by omega, by omega, fun _ => by omega⟩
      rw [turn, if_neg greater]

/-- The pointers between two turns: what `pi` has passed is not greater than the pivot, and what `pj` has
passed is not less. -/
structure Between (qs : Qs α) (a pn : Nat) (mem : Nat → α) (pi pj : Nat) : Prop where
  low : a ≤ pi
  order : pi ≤ pj
  some_left : a < pj
  some_right : pi < pn
  high : pj ≤ pn
  left : ∀ k, a < k → k ≤ pi → qs.cmp (mem k) (mem a) ≤ 0
  right : ∀ k, pj ≤ k → k < pn → 0 ≤ qs.cmp (mem k) (mem a)

theorem Between.turn {pi pj pi' pj' : Nat} (between : Between qs a pn mem pi pj) (ahead : pi < pi') (back : pj' < pj)
    (meet : pi' ≤ pj') (before : ∀ k, pi < k → k < pi' → qs.cmp (mem k) (mem a) < 0)
    (stop : pi' < pn → 0 ≤ qs.cmp (mem pi') (mem a))
    (after : ∀ k, pj' < k → k < pj → 0 < qs.cmp (mem k) (mem a))
    (stop' : a < pj' → qs.cmp (mem pj') (mem a) ≤ 0) : Between qs a pn (exchange mem pi' pj') pi' pj' where
  low := by
    have := between.low
    omega
  order := meet
  some_left := by
    have := between.low
    omega
  some_right := by
    have := between.high
    omega
  high := by
    have := between.high
    omega
  left := by
    have low := between.low
    intro k from_ til
    rw [exchange_other mem (i := pi') (j := pj') (k := a) (by omega) (by omega)]
    by_cases here : k = pi'
    · rw [here, exchange_left]
      exact stop' (by omega)
    · rw [exchange_other mem here (by omega)]
      by_cases old : k ≤ pi
      · exact between.left k from_ old
      · have := before k (by omega) (by omega)
        omega
  right := by
    have low := between.low
    have high := between.high
    intro k from_ til
    rw [exchange_other mem (i := pi') (j := pj') (k := a) (by omega) (by omega)]
    by_cases here : k = pj'
    · rw [here, exchange_right]
      exact stop (by omega)
    · rw [exchange_other mem (by omega) here]
      by_cases old : pj ≤ k
      · exact between.right k old til
      · have := after k (by omega) (by omega)
        omega

theorem partition_settles (bound : pn ≤ qs.nmemb) {pi pj : Nat} (between : Between qs a pn mem pi pj) :
    ∃ mem' pj', Settles (fun fuel => qs.partition a pn fuel mem pi pj) (.ok (mem', pj')) ∧
      Rearranges (a + 1) pn mem mem' ∧ a ≤ pj' ∧ pj' < pn ∧
      (∀ k, a < k → k ≤ pj' → qs.cmp (mem' k) (mem' a) ≤ 0) ∧
      (∀ k, pj' < k → k < pn → 0 ≤ qs.cmp (mem' k) (mem' a)) := by
  induction pj using Nat.strongRecOn generalizing mem pi with
  | ind pj ih =>
    have low := between.low
    have order := between.order
    have some_left := between.some_left
    have some_right := between.some_right
    have high := between.high
    have pivot : a < qs.nmemb := by omega
    rcases @ahead_settles _ qs mem _ _ pivot bound (pn - pi - 1) pi (by omega) with
      ⟨pi', forward, after_pi, below_pn, before, stop⟩
    rcases @back_settles _ qs mem _ pivot (pj - a - 1) pj (by omega) (by omega) with
      ⟨pj', backward, above_a, before_pj, after, stop'⟩
    by_cases crossed : pj' < pi'
    · refine ⟨mem, pj', .step (fun _ => rfl) (forward.bind (backward.bind ?_)), .refl _ _ _, above_a, by omega, ?_, ?_⟩
      · exact .congr (fun _ => (if_pos crossed).symm) (.const _)
      · intro k from_ til
        by_cases old : k ≤ pi
        · exact between.left k from_ old
        · by_cases here : k = pj'
          · rw [here]
            exact stop' (by omega)
          · have := before k (by omega) (by omega)
            omega
      · intro k from_ til
        by_cases old : pj ≤ k
        · exact between.right k old til
        · have := after k from_ (by omega)
          omega
    · have next := between.turn after_pi before_pj (by omega) before stop after stop'
      rcases ih pj' before_pj next with ⟨mem', last, settles, moved, rest⟩
      have first : Rearranges (a + 1) pn mem (exchange mem pi' pj') :=
        .exchange ⟨by omega, by omega⟩ ⟨by omega, by omega⟩ mem
      refine ⟨mem', last, .step (fun _ => rfl) (forward.bind (backward.bind ?_)), first.trans moved, rest⟩
      refine .congr (fun _ => (if_neg crossed).symm) ?_
      rw [swap_ok (by omega) (by omega)]
      exact settles

end

section

variable {cmp : α → α → Int} (compares : Compares cmp)

include compares

theorem cmp_self (x : α) : cmp x x = 0 := by
  have := compares.less x x
  omega

theorem cmp_flip {x y : α} (atMost : 0 ≤ cmp x y) : cmp y x ≤ 0 := by
  have := compares.less x y
  have := compares.less y x
  omega

theorem inOrder_parts {mem : Nat → α} {lo p hi : Nat} {x : α} (pivot : mem p = x) (left : InOrder cmp mem lo p)
    (right : InOrder cmp mem (p + 1) hi) (less : ∀ k, lo ≤ k → k < p → cmp (mem k) x ≤ 0)
    (greater : ∀ k, p + 1 ≤ k → k < hi → cmp x (mem k) ≤ 0) : InOrder cmp mem lo hi := by
  subst pivot
  intro i j low order high
  rcases Nat.lt_trichotomy i p with before | here | after
  · rcases Nat.lt_trichotomy j p with before' | here' | after'
    · exact left i j low order before'
    · rw [here']
      exact less i low before
    · exact compares.trans _ _ _ (less i low before) (greater j after' high)
  · rw [here]
    rcases Nat.lt_or_ge p j with after' | here'
    · exact greater j after' high
    · rw [show j = p by omega]
      exact Int.le_of_eq (cmp_self compares _)
  · exact right i j after order high

end

theorem inOrder_short {cmp : α → α → Int} (compares : Compares cmp) {mem : Nat → α} {lo hi : Nat} (short : hi ≤ lo + 1) :
    InOrder cmp mem lo hi := by
  intro i j low order high
  rw [show j = i by omega]
  exact Int.le_of_eq (cmp_self compares _)

/-- What a call does to its part of the array. -/
def Qs.Done (qs : Qs α) (mem : Nat → α) (a n : Nat) : Prop :=
  ∃ mem', Settles (fun fuel => qs.xqsort fuel mem a n) (.ok mem') ∧ Rearranges a (a + n) mem mem' ∧
    InOrder qs.cmp mem' a (a + n)

def Qs.parts (qs : Qs α) (fuel : Nat) (mem : Nat → α) (a n pj : Nat) : Result Fault (Nat → α) :=
  let ni := pj - a
  let nj := (n + 2 ^ qs.w - qs.ind mem a n ni % 2 ^ qs.w - 1) % 2 ^ qs.w
  if ni < nj then (qs.xqsort fuel mem a ni).andThen fun mem => qs.xqsort fuel mem (pj + 1) nj
  else (qs.xqsort fuel mem (pj + 1) nj).andThen fun mem => qs.xqsort fuel mem a ni

theorem xqsort_succ (qs : Qs α) (fuel : Nat) (mem : Nat → α) (a : Nat) {n : Nat} (many : 1 < n) :
    qs.xqsort (fuel + 1) mem a n = (qs.swap mem a (a + n / 2)).andThen fun mem =>
      (qs.partition a (a + n) fuel mem a (a + n)).andThen fun r =>
        (qs.swap r.1 a r.2).andThen fun mem => qs.parts fuel mem a n r.2 := by
  rw [Qs.xqsort, if_neg (by omega)]
  rfl

/-- The pivot is at its place after the partition. -/
structure Parted (qs : Qs α) (mem mem' : Nat → α) (a n pj : Nat) : Prop where
  moved : Rearranges a (a + n) mem mem'
  low : a ≤ pj
  high : pj < a + n
  less : ∀ k, a ≤ k → k < pj → qs.cmp (mem' k) (mem' pj) ≤ 0
  greater : ∀ k, pj + 1 ≤ k → k < a + n → qs.cmp (mem' pj) (mem' k) ≤ 0

theorem xqsort_parts {qs : Qs α} (compares : Compares qs.cmp) {mem : Nat → α} {a n : Nat} (many : 1 < n)
    (bound : a + n ≤ qs.nmemb) : ∃ mem' pj, Parted qs mem mem' a n pj ∧ ∀ {result : Result Fault (Nat → α)},
      Settles (fun fuel => qs.parts fuel mem' a n pj) result → Settles (fun fuel => qs.xqsort fuel mem a n) result := by
  have start : Between qs a (a + n) (exchange mem a (a + n / 2)) a (a + n) :=
    ⟨Nat.le_refl _, by omega, by omega, by omega, Nat.le_refl _, fun k _ _ => by omega, fun k _ _ => by omega⟩
  rcases partition_settles bound start with ⟨mem', pj, settles, moved, low, high, less, greater⟩
  have middle : Rearranges a (a + n) mem (exchange mem a (a + n / 2)) :=
    .exchange ⟨by omega, by omega⟩ ⟨by omega, by omega⟩ mem
  have last : Rearranges a (a + n) mem' (exchange mem' a pj) := .exchange ⟨by omega, by omega⟩ ⟨low, high⟩ mem'
  refine ⟨exchange mem' a pj, pj, ⟨(middle.trans (moved.mono (by omega) (Nat.le_refl _))).trans last, low, high,
    fun k from_ til => ?_, fun k from_ til => ?_⟩, fun rest => ?_⟩
  · rw [exchange_right]
    by_cases here : k = a
    · rw [here, exchange_left]
      exact less pj (by omega) (Nat.le_refl _)
    · rw [exchange_other mem' here (by omega)]
      exact less k (by omega) (by omega)
  · rw [exchange_right, exchange_other mem' (by omega) (by omega)]
    exact cmp_flip compares (greater k from_ til)
  · refine .step (fun fuel => xqsort_succ qs fuel mem a many) ?_
    rw [swap_ok (by omega) (by omega)]
    refine Settles.bind (.const _) (Settles.bind settles ?_)
    dsimp only
    rw [swap_ok (by omega) (by omega)]
    exact rest

theorem sorted_parts {qs : Qs α} (compares : Compares qs.cmp) {mem mem' first : Nat → α} {a n pj : Nat}
    (parted : Parted qs mem mem' a n pj) {lo hi lo' hi' : Nat}
    (sides : lo = a ∧ hi = pj ∧ lo' = pj + 1 ∧ hi' = a + n ∨ lo = pj + 1 ∧ hi = a + n ∧ lo' = a ∧ hi' = pj)
    (one : Rearranges lo hi mem' first) (sorted : InOrder qs.cmp first lo hi)
    {last : Nat → α} (two : Rearranges lo' hi' first last) (sorted' : InOrder qs.cmp last lo' hi') :
    Rearranges a (a + n) mem last ∧ InOrder qs.cmp last a (a + n) := by
  have low := parted.low
  have high := parted.high
  have still : InOrder qs.cmp last lo hi := by
    intro i j from_ order til
    rw [two.outside (by omega), two.outside (by omega)]
    exact sorted i j from_ order til
  have pivot : last pj = mem' pj := by
    rw [two.outside (by omega), one.outside (by omega)]
  -- each call rearranges its own part and leaves the other one
  have less : ∀ k, a ≤ k → k < pj → qs.cmp (last k) (mem' pj) ≤ 0 := by
    rcases sides with ⟨rfl, rfl, rfl, rfl⟩ | ⟨rfl, rfl, rfl, rfl⟩
    · intro k from_ til
      rw [two.outside (by omega)]
      exact one.inside (p := (qs.cmp · (mem' hi) ≤ 0)) parted.less k from_ til
    · refine two.inside (p := (qs.cmp · (mem' hi') ≤ 0)) fun k from_ til => ?_
      rw [one.outside (by omega)]
      exact parted.less k from_ til
  have greater : ∀ k, pj + 1 ≤ k → k < a + n → qs.cmp (mem' pj) (last k) ≤ 0 := by
    rcases sides with ⟨rfl, rfl, rfl, rfl⟩ | ⟨rfl, rfl, rfl, rfl⟩
    · refine two.inside (p := (qs.cmp (mem' hi) · ≤ 0)) fun k from_ til => ?_
      rw [one.outside (by omega)]
      exact parted.greater k from_ til
    · intro k from_ til
      rw [two.outside (by omega)]
      exact one.inside (p := (qs.cmp (mem' hi') · ≤ 0)) parted.greater k from_ til
  constructor
  · exact (parted.moved.trans (one.mono (by omega) (by omega))).trans (two.mono (by omega) (by omega))
  · rcases sides with ⟨rfl, rfl, rfl, rfl⟩ | ⟨rfl, rfl, rfl, rfl⟩
    · exact inOrder_parts compares pivot still sorted' less greater
    · exact inOrder_parts compares pivot sorted' still less greater

theorem xqsort_done {qs : Qs α} (compares : Compares qs.cmp) (lucky : qs.Lucky) (size : qs.nmemb < 2 ^ qs.w)
    (mem : Nat → α) (a n : Nat) (bound : a + n ≤ qs.nmemb) : qs.Done mem a n := by
  induction n using Nat.strongRecOn generalizing mem a with
  | ind n ih =>
    by_cases many : 1 < n
    · rcases @xqsort_parts _ qs compares mem _ _ many bound with ⟨mem', pj, parted, finish⟩
      have low := parted.low
      have high := parted.high
      have right : (n + 2 ^ qs.w - qs.ind mem' a n (pj - a) % 2 ^ qs.w - 1) % 2 ^ qs.w = a + n - (pj + 1) := by
        rw [lucky mem' a n (pj - a) (by omega),
          show n + 2 ^ qs.w - (pj - a) - 1 = a + n - (pj + 1) + 2 ^ qs.w by omega, Nat.add_mod_right,
          Nat.mod_eq_of_lt (by omega)]
      have ends : a + (pj - a) = pj := by omega
      have ends' : pj + 1 + (a + n - (pj + 1)) = a + n := by omega
      by_cases smaller : pj - a < a + n - (pj + 1)
      · rcases ih (pj - a) (by omega) mem' a (by omega) with ⟨first, settles, one, sorted⟩
        rcases ih (a + n - (pj + 1)) (by omega) first (pj + 1) (by omega) with ⟨last, settles', two, sorted'⟩
        rw [ends] at one sorted
        rw [ends'] at two sorted'
        have both := sorted_parts compares parted (.inl ⟨rfl, rfl, rfl, rfl⟩) one sorted two sorted'
        refine ⟨last, finish (.congr (fun fuel => ?_) (@Settles.bind _ _ _ _ _
          (fun fuel mem => qs.xqsort fuel mem (pj + 1) (a + n - (pj + 1))) _ settles settles')), both⟩
        unfold Qs.parts
        dsimp only
        rw [right, if_pos smaller]
      · rcases ih (a + n - (pj + 1)) (by omega) mem' (pj + 1) (by omega) with ⟨first, settles, one, sorted⟩
        rcases ih (pj - a) (by omega) first a (by omega) with ⟨last, settles', two, sorted'⟩
        rw [ends'] at one sorted
        rw [ends] at two sorted'
        have both := sorted_parts compares parted (.inr ⟨rfl, rfl, rfl, rfl⟩) one sorted two sorted'
        refine ⟨last, finish (.congr (fun fuel => ?_) (@Settles.bind _ _ _ _ _
          (fun fuel mem => qs.xqsort fuel mem a (pj - a)) _ settles settles')), both⟩
        unfold Qs.parts
        dsimp only
        rw [right, if_neg smaller]
    · refine ⟨mem, .step (fun fuel => ?_) (.const _), .refl _ _ _, inOrder_short compares (by omega)⟩
      rw [Qs.xqsort, if_pos (by omega)]

/-- All bits are set, so `nj` becomes `n`. -/
def unlucky (w : Nat) (_ : Nat → α) (_ _ _ : Nat) : Nat := 2 ^ w - 1

theorem andThen_eq_ok {β γ : Type*} {first : Result Fault β} {next : β → Result Fault γ} {c : γ}
    (done : first.andThen next = .ok c) : ∃ b, first = .ok b ∧ next b = .ok c := by
  match first, done with
  | some (.ok b), done => exact ⟨b, rfl, done⟩

theorem back_outside {qs : Qs α} {mem : Nat → α} {a fuel pj pj' : Nat} (outside : qs.nmemb < pj) (many : a + 1 < pj) :
    qs.back mem a fuel pj ≠ .ok pj' := by
  intro done
  cases fuel with
  | zero => cases done
  | succ fuel =>
    unfold Qs.back Qs.access at done
    dsimp only at done
    rw [if_pos (by omega), if_neg (by omega)] at done
    cases done

theorem xqsort_outside {qs : Qs α} {fuel : Nat} {mem mem' : Nat → α} {a n : Nat} (many : 1 < n)
    (outside : qs.nmemb < a + n) : qs.xqsort fuel mem a n ≠ .ok mem' := by
  intro done
  cases fuel with
  | zero => cases done
  | succ fuel =>
    rw [xqsort_succ qs fuel mem a many] at done
    rcases andThen_eq_ok done with ⟨mem1, -, done⟩
    rcases andThen_eq_ok done with ⟨r, parts, -⟩
    cases fuel with
    | zero => cases parts
    | succ fuel =>
      unfold Qs.partition at parts
      rcases andThen_eq_ok parts with ⟨pi, -, parts⟩
      rcases andThen_eq_ok parts with ⟨pj, back, -⟩
      exact back_outside outside (by omega) back

theorem unlucky_fails {qs : Qs α} (size : qs.nmemb < 2 ^ qs.w) (ind : qs.ind = unlucky qs.w)
    (many : 1 < qs.nmemb) (fuel : Nat) (mem mem' : Nat → α) : qs.qsort fuel mem ≠ .ok mem' := by
  intro done
  cases fuel with
  | zero => cases done
  | succ fuel =>
    unfold Qs.qsort at done
    rw [xqsort_succ qs fuel mem 0 many] at done
    rcases andThen_eq_ok done with ⟨mem1, -, done⟩
    rcases andThen_eq_ok done with ⟨⟨mem2, pj⟩, -, done⟩
    rcases andThen_eq_ok done with ⟨mem3, -, done⟩
    have whole : (qs.nmemb + 2 ^ qs.w - qs.ind mem3 0 qs.nmemb (pj - 0) % 2 ^ qs.w - 1) % 2 ^ qs.w = qs.nmemb := by
      have ones : (2 ^ qs.w - 1) % 2 ^ qs.w = 2 ^ qs.w - 1 := Nat.mod_eq_of_lt (by omega)
      rw [ind]
      unfold unlucky
      rw [ones, show qs.nmemb + 2 ^ qs.w - (2 ^ qs.w - 1) - 1 = qs.nmemb by omega, Nat.mod_eq_of_lt size]
    unfold Qs.parts at done
    dsimp only at done
    rw [whole] at done
    split_ifs at done
    · rcases andThen_eq_ok done with ⟨mem4, -, done⟩
      exact xqsort_outside many (by omega) done
    · rcases andThen_eq_ok done with ⟨mem4, done, -⟩
      exact xqsort_outside many (by omega) done

/-- `qsort()` sorts for every content of `nj` only an array of at most one element. It sorts every array when
`nj` holds the right value by chance. -/
theorem qsort_sorts_iff (w nmemb : Nat) (cmp : α → α → Int) (mem : Nat → α) (size : nmemb < 2 ^ w)
    (compares : Compares cmp) : ((∀ ind, (⟨w, nmemb, cmp, ind⟩ : Qs α).Sorts mem) ↔ nmemb ≤ 1) ∧
      ∀ ind, (⟨w, nmemb, cmp, ind⟩ : Qs α).Lucky → (⟨w, nmemb, cmp, ind⟩ : Qs α).Sorts mem := by
  refine ⟨⟨fun always => ?_, fun few ind => ?_⟩, fun ind lucky => ?_⟩
  · rcases always (unlucky w) with ⟨mem', ⟨enough, same⟩, -⟩
    by_contra many
    have fails := @unlucky_fails α ⟨w, nmemb, cmp, unlucky w⟩ size rfl (Nat.lt_of_not_le many)
    exact fails enough mem mem' (same enough (Nat.le_refl _))
  · refine ⟨mem, .step (fun fuel => ?_) (.const _), .refl _ _ _, inOrder_short compares (by omega)⟩
    rw [Qs.qsort, Qs.xqsort, if_pos few]
  · rcases xqsort_done compares lucky size mem 0 nmemb (Nat.le_of_eq (Nat.zero_add _)) with ⟨mem', settles, moved, sorted⟩
    rw [Nat.zero_add] at moved sorted
    exact ⟨mem', settles, moved, sorted⟩

theorem difference_compares : Compares fun x y : Int => x - y where
  less := by
    intro x y
    omega
  trans := by
    intro x y z
    omega

theorem qsort_sorts_iff_two :
    ((∀ ind, (⟨64, 2, fun x y : Int => x - y, ind⟩ : Qs Int).Sorts fun k => -k) ↔ 2 ≤ 1) ∧
      ∀ ind, (⟨64, 2, fun x y : Int => x - y, ind⟩ : Qs Int).Lucky →
        (⟨64, 2, fun x y : Int => x - y, ind⟩ : Qs Int).Sorts fun k => -k :=
  qsort_sorts_iff 64 2 (fun x y : Int => x - y) (fun k => -k) (by decide)
    ⟨fun x y => by omega, fun x y z => by omega⟩

/-- Two elements are not sorted when all bits of `nj` are set. -/
theorem qsort_two_fails : ¬ ∀ (w nmemb : Nat) (cmp : Int → Int → Int) (mem : Nat → Int), nmemb < 2 ^ w → Compares cmp →
    ∀ ind, (⟨w, nmemb, cmp, ind⟩ : Qs Int).Sorts mem := by
  intro always
  rcases always 64 2 (fun x y => x - y) (fun k => -k) (by decide) difference_compares (unlucky 64) with
    ⟨mem', ⟨enough, same⟩, -⟩
  have fails := @unlucky_fails Int ⟨64, 2, fun x y => x - y, unlucky 64⟩ (by decide) rfl (by decide)
  exact fails enough (fun k => -k) mem' (same enough (Nat.le_refl _))

end Scc.Libc.Qsort
