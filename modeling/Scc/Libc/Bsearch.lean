import Mathlib.Algebra.Ring.Nat
import Mathlib.Tactic.Common

/-!
# Searching an array

`bsearch()` keeps the interval of the elements that can still be equal to the key. The element at
`base + i*size` is given by its index `i`, and `size_t` has `w` bits. An array of no elements has the
interval from 0 to `SIZE_MAX`.
-/

namespace Scc.Libc.Bsearch

set_option autoImplicit false

variable {κ α : Type*}

/-- The elements that are passed to `cmp` and the one that is returned. -/
structure Search where
  passed : List Nat
  found : Option Nat
deriving DecidableEq

def Search.after (mid : Nat) (rest : Search) : Search := { rest with passed := mid :: rest.passed }

/-- The loop of `bsearch()`, without a result when the fuel does not last. -/
def searching (sizeMax : Nat) (cmp : κ → α → Int) (key : κ) (ary : Nat → α) :
    Nat → Nat → Nat → Option Search
  | 0, _, _ => none
  | fuel + 1, low, high =>
    if low ≤ high then
      let mid := low + (high - low) / 2
      let t := cmp key (ary mid)
      if t = 0 then some ⟨[mid], some mid⟩
      else if 0 < t ∧ mid < sizeMax then
        (searching sizeMax cmp key ary fuel (mid + 1) high).map (.after mid)
      else if t < 0 ∧ 0 < mid then
        (searching sizeMax cmp key ary fuel low (mid - 1)).map (.after mid)
      else some ⟨[mid], none⟩
    else some ⟨[], none⟩

def bsearch (w : Nat) (cmp : κ → α → Int) (key : κ) (ary : Nat → α) (n : Nat) : Option Search :=
  searching (2 ^ w - 1) cmp key ary (w + 2) 0 ((n + (2 ^ w - 1)) % 2 ^ w)

/-- The elements that the key is greater than come first and those that it is less than come last, as
in every array that is sorted by a total preorder. -/
structure Sorted (cmp : κ → α → Int) (key : κ) (ary : Nat → α) (n : Nat) : Prop where
  greater : ∀ i j, i ≤ j → j < n → 0 < cmp key (ary j) → 0 < cmp key (ary i)
  less : ∀ i j, i ≤ j → j < n → cmp key (ary i) < 0 → cmp key (ary j) < 0

/-- Only elements of the array are compared, and the element that is returned is equal to the key. -/
structure Finds (cmp : κ → α → Int) (key : κ) (ary : Nat → α) (n : Nat) (search : Search) : Prop where
  inside : ∀ i ∈ search.passed, i < n
  equal : ∀ i, search.found = some i → i < n ∧ cmp key (ary i) = 0
  absent : search.found = none → ∀ i < n, cmp key (ary i) ≠ 0

section

variable {cmp : κ → α → Int} {key : κ} {ary : Nat → α} {n : Nat}

theorem Finds.after {search : Search} {mid : Nat} (finds : Finds cmp key ary n search) (lt : mid < n) :
    Finds cmp key ary n (search.after mid) where
  inside := by
    intro i mem
    cases List.mem_cons.mp mem with
    | inl same => rwa [same]
    | inr later => exact finds.inside i later
  equal := finds.equal
  absent := finds.absent

theorem finds_at {mid : Nat} (lt : mid < n) (equal : cmp key (ary mid) = 0) :
    Finds cmp key ary n ⟨[mid], some mid⟩ where
  inside := by simpa using lt
  equal := by
    intro i same
    cases same
    exact ⟨lt, equal⟩
  absent := by simp

theorem finds_nothing {passed : List Nat} (inside : ∀ i ∈ passed, i < n)
    (absent : ∀ i < n, cmp key (ary i) ≠ 0) : Finds cmp key ary n ⟨passed, none⟩ where
  inside := inside
  equal := by simp
  absent := fun _ => absent

/-- The key is greater than what is before the interval and less than what is after it. -/
structure Interval (cmp : κ → α → Int) (key : κ) (ary : Nat → α) (n low high : Nat) : Prop where
  bound : high < n
  before : ∀ i < low, 0 < cmp key (ary i)
  behind : ∀ i, high < i → i < n → cmp key (ary i) < 0

theorem Interval.absent {low high : Nat} (interval : Interval cmp key ary n low high)
    (empty : high < low) : ∀ i < n, cmp key (ary i) ≠ 0 := by
  intro i lt
  by_cases early : i < low
  · have := interval.before i early
    omega
  · have := interval.behind i (by omega) lt
    omega

theorem Interval.above {low high mid : Nat} (interval : Interval cmp key ary n low high)
    (sorted : Sorted cmp key ary n) (lt : mid < n) (greater : 0 < cmp key (ary mid)) :
    Interval cmp key ary n (mid + 1) high where
  bound := interval.bound
  before := fun i le => sorted.greater i mid (by omega) lt greater
  behind := interval.behind

theorem Interval.below {low high mid : Nat} (interval : Interval cmp key ary n low high)
    (sorted : Sorted cmp key ary n) (lt : mid < n) (less : cmp key (ary mid) < 0) :
    Interval cmp key ary n low (mid - 1) where
  bound := by omega
  before := interval.before
  behind := fun i gt inside => sorted.less mid i (by omega) inside less

theorem searching_finds {sizeMax : Nat} (sorted : Sorted cmp key ary n) (fits : n ≤ sizeMax)
    (fuel low high : Nat) (interval : Interval cmp key ary n low high) (enough : high + 1 - low < 2 ^ fuel) :
    ∃ search, searching sizeMax cmp key ary (fuel + 1) low high = some search ∧
      Finds cmp key ary n search := by
  have bound := interval.bound
  induction fuel generalizing low high with
  | zero =>
    have empty : high < low := by
      rw [Nat.pow_zero] at enough
      omega
    unfold searching
    rw [if_neg (by omega)]
    exact ⟨_, rfl, finds_nothing (by simp) (interval.absent empty)⟩
  | succ fuel ih =>
    rw [Nat.pow_succ] at enough
    unfold searching
    split_ifs with active
    · have middle : low + (high - low) / 2 < n := by omega
      generalize mid_eq : low + (high - low) / 2 = mid at middle ⊢
      dsimp only
      split_ifs with equal above below
      · exact ⟨_, rfl, finds_at middle equal⟩
      · have narrow := interval.above sorted middle above.1
        rcases ih (mid + 1) high narrow (by omega) narrow.bound with
          ⟨search, run, finds⟩
        rw [run]
        exact ⟨_, rfl, finds.after middle⟩
      · have narrow := interval.below sorted middle below.1
        rcases ih low (mid - 1) narrow (by omega) narrow.bound with
          ⟨search, run, finds⟩
        rw [run]
        exact ⟨_, rfl, finds.after middle⟩
      · -- the key is less than the first element
        have first : mid = 0 := by omega
        have less : cmp key (ary mid) < 0 := by omega
        refine ⟨_, rfl, finds_nothing (by simpa using middle) ?_⟩
        intro i lt
        have := sorted.less mid i (by omega) lt less
        omega
    · exact ⟨_, rfl, finds_nothing (by simp) (interval.absent (by omega))⟩

theorem bsearch_finds (w : Nat) (sorted : Sorted cmp key ary n) (fits : n < 2 ^ w) (some_element : 0 < n) :
    ∃ search, bsearch w cmp key ary n = some search ∧ Finds cmp key ary n search := by
  have last : (n + (2 ^ w - 1)) % 2 ^ w = n - 1 := by
    rw [show n + (2 ^ w - 1) = n - 1 + 2 ^ w by omega, Nat.add_mod_right, Nat.mod_eq_of_lt (by omega)]
  have whole : Interval cmp key ary n 0 (n - 1) :=
    ⟨by omega, fun i lt => by omega, fun i gt lt => by omega⟩
  unfold bsearch
  rw [last]
  apply searching_finds sorted (by omega) (w + 1) 0 (n - 1) whole
  rw [Nat.pow_succ]
  omega

theorem searching_passes {sizeMax fuel low high : Nat} {search : Search} (active : low ≤ high)
    (run : searching sizeMax cmp key ary fuel low high = some search) :
    low + (high - low) / 2 ∈ search.passed := by
  cases fuel with
  | zero => cases run
  | succ fuel =>
    unfold searching at run
    rw [if_pos active] at run
    dsimp only at run
    split_ifs at run with equal above below
    · cases run
      simp
    · rcases Option.map_eq_some_iff.mp run with ⟨rest, -, same⟩
      rw [← same]
      simp [Search.after]
    · rcases Option.map_eq_some_iff.mp run with ⟨rest, -, same⟩
      rw [← same]
      simp [Search.after]
    · cases run
      simp

/-- `bsearch()` searches every array that has an element, and no other one. -/
theorem bsearch_finds_iff (w : Nat) (cmp : κ → α → Int) (key : κ) (ary : Nat → α) (n : Nat)
    (fits : n < 2 ^ w) (sorted : Sorted cmp key ary n) :
    (∃ search, bsearch w cmp key ary n = some search ∧ Finds cmp key ary n search) ↔ 0 < n := by
  constructor
  · rintro ⟨search, run, finds⟩
    have := finds.inside _ (searching_passes (Nat.zero_le _) run)
    omega
  · exact bsearch_finds w sorted fits

end

theorem bsearch_finds_iff_three :
    (∃ search, bsearch 64 (fun key x : Int => key - x) 5 (fun i => 5 * i) 3 = some search ∧
      Finds (fun key x : Int => key - x) 5 (fun i => 5 * i) 3 search) ↔ 0 < 3 :=
  bsearch_finds_iff 64 (fun key x : Int => key - x) 5 (fun i => 5 * i) 3 (by decide)
    ⟨fun i j le _ greater => by omega, fun i j le _ less => by omega⟩

/-- What lies far behind an array without elements is found in it. -/
theorem bsearch_empty :
    bsearch 64 (fun key x : Int => key - x) 7 (fun _ => 7) 0 = some ⟨[2 ^ 63 - 1], some (2 ^ 63 - 1)⟩ ∧
      ¬∃ search, bsearch 64 (fun key x : Int => key - x) 7 (fun _ => 7) 0 = some search ∧
        Finds (fun key x : Int => key - x) 7 (fun _ => 7) 0 search := by
  have run : bsearch 64 (fun key x : Int => key - x) 7 (fun _ => 7) 0 =
      some ⟨[2 ^ 63 - 1], some (2 ^ 63 - 1)⟩ := by decide
  refine ⟨run, ?_⟩
  rintro ⟨search, found, finds⟩
  rw [run] at found
  cases found
  exact absurd (finds.inside (2 ^ 63 - 1) (by simp)) (by omega)

end Scc.Libc.Bsearch
