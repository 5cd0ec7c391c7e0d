import Scc.Libc.StrftimeWeeks

/-!
# The items of a date format

What one conversion writes at any place of the array, with the space that is left there: its expansion as far
as it fits, right or wrong. The blocks that are written decide what is in the memory afterwards.
-/

namespace Scc.Libc.Strftime

open Scc.Libc.Calendar (daysyear)

set_option autoImplicit false

/-- The conversions that call `strftime()` again. -/
def recursive (c : Char) : Bool := c ∈ ['c', 'D', 'F', 'r', 'R', 'T', 'X', 'x']

/-- An item whose expansion is written when there is space for it. -/
def Right (tm : Tm) : Item → Prop
  | .conv 'p' => tm.hour ≠ 12
  | .conv 'r' => tm.hour ≠ 12
  | .conv 'g' => IsoRight tm
  | .conv 'G' => IsoRight tm
  | .conv 'V' => IsoRight tm
  | .conv 'z' => False
  | _ => True

/-- The last `n` digits of a number. -/
def zeros : Nat → Nat → List Char
  | 0, _ => []
  | n + 1, val => zeros n (val / 10) ++ [Nat.digitChar (val % 10)]

theorem zeros_zero (n : Nat) : zeros n 0 = List.replicate n '0' := by
  induction n with
  | zero => rfl
  | succ n ih =>
    rw [zeros, Nat.zero_div, ih, List.replicate_succ']
    rfl

theorem digits_zeros {n : Nat} (some_ : 0 < n) (val : Nat) (s : List Char) :
    digits '0' n val s = zeros n val ++ s := by
  induction n generalizing val s with
  | zero => omega
  | succ n ih =>
    unfold digits zeros
    dsimp only
    split_ifs with more
    · rw [ih more.1, List.append_assoc]
      rfl
    · have none_ : zeros n (val / 10) = List.replicate n '0' := by
        by_cases last : n = 0
        · subst last
          rfl
        · rw [show val / 10 = 0 by omega, zeros_zero]
      rw [none_, List.append_assoc]
      rfl

theorem zeros_inj (n a b : Nat) : zeros n a = zeros n b ↔ a % 10 ^ n = b % 10 ^ n := by
  have digit : ∀ i < 10, ∀ j < 10, Nat.digitChar i = Nat.digitChar j → i = j := by decide
  induction n generalizing a b with
  | zero => simp [zeros, Nat.mod_one]
  | succ n ih =>
    have split_ : ∀ x : Nat, x % 10 ^ (n + 1) = 10 * (x / 10 % 10 ^ n) + x % 10 := by
      intro x
      rw [Nat.pow_succ, Nat.mul_comm, Nat.mod_mul]
      omega
    rw [split_ a, split_ b]
    constructor
    · intro same
      have parts := List.append_inj' same rfl
      have high := (ih (a / 10) (b / 10)).mp parts.1
      have low := digit _ (Nat.mod_lt a (by decide)) _ (Nat.mod_lt b (by decide)) (List.cons.inj parts.2).1
      omega
    · intro same
      have high : a / 10 % 10 ^ n = b / 10 % 10 ^ n := by omega
      have low : a % 10 = b % 10 := by omega
      rw [zeros, zeros, (ih (a / 10) (b / 10)).mpr high, low]

theorem dval_eq_iff {n width : Nat} (some_ : 0 < width) (room : width ≤ n) {val v : Int} (positive : 0 ≤ val)
    (positive' : 0 ≤ v) (fits : v < 10 ^ width) :
    dval n width '0' val = decimal width '0' v ↔ val % 10 ^ width = v := by
  have exact_ := dval_decimal some_ room '0' positive' fits
  have cast : ((10 ^ width : Nat) : Int) = 10 ^ width := by push_cast; rfl
  have numbers : ∀ {x : Int}, 0 ≤ x → dval n width '0' x = zeros width x.toNat := by
    intro x lower
    unfold dval
    rw [if_neg (by omega), if_neg (by omega), if_neg (by omega), digits_zeros some_, List.append_nil]
  rw [← exact_, numbers positive, numbers positive', zeros_inj]
  have left : ((val.toNat % 10 ^ width : Nat) : Int) = val % 10 ^ width := by
    rw [Int.natCast_mod, Int.toNat_of_nonneg positive, cast]
  have right : ((v.toNat % 10 ^ width : Nat) : Int) = v := by
    rw [Int.natCast_mod, Int.toNat_of_nonneg positive', cast]
    exact Int.emod_eq_of_lt positive' fits
  constructor
  · intro same
    rw [← left, same, right]
  · intro same
    rw [← left, ← right] at same
    exact_mod_cast same

theorem sval_name {strs : List String} {idx : Int} (lower : 0 ≤ idx) (upper : idx.toNat < strs.length) (abrev : Bool)
    (max : Int) {n : Nat} (some_ : 0 < n) : sval n strs abrev idx max =
      some ((if abrev then (strs.getD idx.toNat "").toList.take 3 else (strs.getD idx.toNat "").toList).take n) := by
  have found : strs[idx.toNat]? = some (strs.getD idx.toNat "") := by
    simp [List.getD_eq_getElem?_getD, upper]
  unfold sval
  rw [if_neg (by omega), if_neg (by omega), if_neg (by omega), found, Option.map_some]
  dsimp only
  cases abrev with
  | true => simp [List.take_take, Nat.min_comm]
  | false =>
    have whole : (strs.getD idx.toNat "").length = (strs.getD idx.toNat "").toList.length := String.length_toList.symm
    rw [if_neg (by decide), if_neg (by decide), whole]
    by_cases short : (strs.getD idx.toNat "").toList.length ≤ n
    · rw [Nat.min_eq_left short, List.take_length, List.take_of_length_le short]
    · rw [Nat.min_eq_right (by omega)]

/-- What a conversion without a call writes: its expansion as far as there is space, right or wrong. -/
structure Simple (bits : Nat) (recur : Call) (tm : Tm) (c : Char) (t : List Char) (s n : Nat) (inc : Option Nat)
    (w : List Char) : Prop where
  performs : perform bits recur tm (.conv c) s n inc = some ([⟨s, w⟩], w.length)
  length : w.length = min n t.length
  right : t.length ≤ n → (w = t ↔ Right tm (.conv c))

section
variable {bits : Nat} {recur : Call} {tm : Tm} {c : Char} {s n : Nat} {inc : Option Nat}

theorem simple_number {width : Nat} {fill : Char} {val v : Int} (leads : action tm c = .number width fill val)
    (some_ : 0 < width) (positive : 0 ≤ val) (positive' : 0 ≤ v) (fits : v < 10 ^ width)
    (right : width ≤ n → (dval n width fill val = decimal width fill v ↔ Right tm (.conv c))) :
    ∃ w, Simple bits recur tm c (decimal width fill v) s n inc w := by
  have length := decimal_length some_ fill positive' fits
  refine ⟨dval n width fill val, ?_, ?_, ?_⟩
  · rw [perform, leads]
  · rw [length, dval_length n width some_ fill positive]
  · rw [length]
    exact right

theorem simple_exact {width : Nat} {fill : Char} {val v : Int} (leads : action tm c = .number width fill val)
    (some_ : 0 < width) (same : val = v) (positive : 0 ≤ v) (fits : v < 10 ^ width) (right : Right tm (.conv c)) :
    ∃ w, Simple bits recur tm c (decimal width fill v) s n inc w := by
  subst same
  exact simple_number leads some_ positive positive fits
    fun room => iff_of_true (dval_decimal some_ room fill positive fits) right

theorem simple_name {strs : List String} {abrev : Bool} {idx max : Int} (leads : action tm c = .sval strs abrev idx max)
    (lower : 0 ≤ idx) (upper : idx.toNat < strs.length) (some_ : 0 < n) {t : List Char} (length : t.length =
      (if abrev then (strs.getD idx.toNat "").toList.take 3 else (strs.getD idx.toNat "").toList).length)
    (right : (if abrev then (strs.getD idx.toNat "").toList.take 3 else (strs.getD idx.toNat "").toList) = t ↔
      Right tm (.conv c)) : ∃ w, Simple bits recur tm c t s n inc w := by
  have made := sval_name lower upper abrev max some_
  generalize (if abrev then (strs.getD idx.toNat "").toList.take 3 else (strs.getD idx.toNat "").toList) = name at *
  refine ⟨name.take n, ?_, ?_, ?_⟩
  · rw [perform, leads]
    dsimp only
    rw [made]
    rfl
  · rw [List.length_take, length]
  · intro room
    rw [List.take_of_length_le (by omega)]
    exact right

theorem simple_character {val : Char} (leads : action tm c = .character val) (some_ : 0 < n)
    (right : Right tm (.conv c)) : ∃ w, Simple bits recur tm c [val] s n inc w := by
  refine ⟨[val], ?_, ?_, fun _ => iff_of_true rfl right⟩
  · rw [perform, leads]
    rfl
  · rw [List.length_singleton]
    omega

theorem perform_simple {maxYear : Int} (known : maxYear = 2038 ∨ maxYear = 9999) (fields : InRange maxYear tm)
    {t : List Char} (expands : expand tm c = some t) (flat : recursive c = false) (noOffset : c ≠ 'z')
    (some_ : 0 < n) : ∃ w, Simple bits recur tm c t s n inc w := by
  have sec := fields.sec
  have min := fields.min
  have hour := fields.hour
  have mday := fields.mday
  have mon := fields.mon
  have year := fields.year
  have wday := fields.wday
  have yday := fields.yday
  have ⟨isoyears, weekyears⟩ := iso_years known fields
  unfold expand at expands
  split at expands <;> cases expands
  · exact simple_name rfl wday.1 (by change _ < 7; omega) some_ rfl (iff_of_true rfl trivial)
  · exact simple_name rfl wday.1 (by change _ < 7; omega) some_ rfl (iff_of_true rfl trivial)
  · exact simple_name rfl mon.1 (by change _ < 12; omega) some_ rfl (iff_of_true rfl trivial)
  · exact simple_name rfl mon.1 (by change _ < 12; omega) some_ rfl (iff_of_true rfl trivial)
  · exact simple_name rfl mon.1 (by change _ < 12; omega) some_ rfl (iff_of_true rfl trivial)
  · exact absurd flat (by decide)
  · have century : (tm.year + 1900).tdiv 100 = (1900 + tm.year) / 100 := by
      rw [Int.tdiv_eq_ediv_of_nonneg (by omega), Int.add_comm]
    exact simple_exact rfl (by decide) century (by omega) (by omega) trivial
  · exact simple_exact rfl (by decide) rfl (by omega) (by omega) trivial
  · exact absurd flat (by decide)
  · exact simple_exact rfl (by decide) rfl (by omega) (by omega) trivial
  · exact absurd flat (by decide)
  · apply simple_number rfl (by decide) isoyears.1 (by omega) (by omega)
    intro room
    rw [dval_eq_iff (by decide) room isoyears.1 (by omega) (by omega)]
    change _ ↔ IsoRight tm
    rw [← isoyear_iff fields]
    have := isoyear_cases tm
    have := weekYear_cases tm
    omega
  · apply simple_number rfl (by decide) (by omega) (by omega) (by omega)
    intro room
    rw [dval_eq_iff (by decide) room (by omega) (by omega) (by omega)]
    change _ ↔ IsoRight tm
    rw [← isoyear_iff fields]
    omega
  · exact simple_exact rfl (by decide) rfl (by omega) (by omega) trivial
  · have twelve : (if 12 < (if tm.hour = 0 then 12 else tm.hour) then (if tm.hour = 0 then 12 else tm.hour) - 12
        else if tm.hour = 0 then 12 else tm.hour) = (tm.hour + 11) % 12 + 1 := by
      split_ifs <;> omega
    exact simple_exact rfl (by decide) twelve (by omega) (by omega) trivial
  · exact simple_exact rfl (by decide) rfl (by omega) (by omega) trivial
  · exact simple_exact rfl (by decide) rfl (by omega) (by omega) trivial
  · exact simple_exact rfl (by decide) rfl (by omega) (by omega) trivial
  · exact simple_character rfl some_ trivial
  · have leads : ∀ idx : Int, (if 12 < tm.hour then 1 else 0) = idx → action tm 'p' = .sval am_pm false idx 2 := by
      intro idx same
      rw [← same]
      rfl
    unfold amPm
    by_cases afternoon : 12 < tm.hour
    · rw [if_pos (by omega)]
      have other : tm.hour ≠ 12 := by omega
      exact simple_name (leads 1 (if_pos afternoon)) (by decide) (by decide) some_ rfl (iff_of_true rfl other)
    · by_cases noon : tm.hour = 12
      · rw [if_pos (by omega)]
        exact simple_name (leads 0 (if_neg afternoon)) (by decide) (by decide) some_ rfl
          (iff_of_false (by decide) fun other => other noon)
      · rw [if_neg (by omega)]
        exact simple_name (leads 0 (if_neg afternoon)) (by decide) (by decide) some_ rfl (iff_of_true rfl noon)
  · exact absurd flat (by decide)
  · exact absurd flat (by decide)
  · exact simple_exact rfl (by decide) rfl (by omega) (by omega) trivial
  · exact simple_character rfl some_ trivial
  · have sunday : isoday tm = (tm.wday + 6) % 7 + 1 := by
      unfold isoday
      split_ifs <;> omega
    exact simple_exact rfl (by decide) sunday (by omega) (by omega) trivial
  · have ⟨same, lower, upper⟩ := weeks_bounds fields (by decide : 0 ≤ SUN) (by decide)
    exact simple_exact rfl (by decide) same (by omega) (by omega) trivial
  · have ⟨⟨lower, upper⟩, lower', upper'⟩ := isoweek_bounds fields
    apply simple_number rfl (by decide) lower lower' (by omega)
    intro room
    rw [dval_eq_iff (by decide) room lower lower' (by omega)]
    change _ ↔ IsoRight tm
    rw [← isoweek_iff fields]
    omega
  · exact simple_exact rfl (by decide) rfl (by omega) (by omega) trivial
  · have ⟨same, lower, upper⟩ := weeks_bounds fields (by decide : 0 ≤ MON) (by decide)
    exact simple_exact rfl (by decide) same (by omega) (by omega) trivial
  · exact absurd flat (by decide)
  · exact absurd flat (by decide)
  · exact absurd flat (by decide)
  · have decade : tm.year.tmod 100 = tm.year % 100 := Int.tmod_eq_emod_of_nonneg year.1
    exact simple_exact rfl (by decide) decade (by omega) (by omega) trivial
  · exact simple_exact rfl (by decide) rfl (by omega) (by omega) trivial
  · exact absurd rfl noOffset
  · refine ⟨tm.zone.take n, ?_, ?_, ?_⟩
    · rw [List.length_take, Nat.min_comm]
      rfl
    · exact List.length_take
    · intro room
      exact iff_of_true (List.take_of_length_le room) trivial
  · exact simple_character rfl some_ trivial

end

/-- The blocks are in a part of the array. -/
def Within (lo hi : Nat) (blocks : List Block) : Prop :=
  ∀ b ∈ blocks, b.text ≠ [] → lo ≤ b.start ∧ b.start + b.text.length ≤ hi

def Covers (blocks : List Block) (k : Nat) : Prop := ∃ b ∈ blocks, b.start ≤ k ∧ k < b.start + b.text.length

theorem Within.append {lo hi lo' hi' : Nat} {blocks blocks' : List Block} (within : Within lo hi blocks)
    (within' : Within lo' hi' blocks') (low : lo ≤ lo') (high : hi ≤ hi') : Within lo hi' (blocks ++ blocks') := by
  intro b mem some_
  rcases List.mem_append.mp mem with mem | mem
  · have := within b mem some_
    omega
  · have := within' b mem some_
    omega

theorem within_nil (lo hi : Nat) : Within lo hi [] := fun _ mem => absurd mem List.not_mem_nil

theorem within_single {lo hi start : Nat} {text : List Char} (low : lo ≤ start) (high : start + text.length ≤ hi) :
    Within lo hi [⟨start, text⟩] := by
  intro b mem _
  cases List.mem_singleton.mp mem
  exact ⟨low, high⟩

theorem Covers.left {blocks : List Block} {k : Nat} (covers : Covers blocks k) (more : List Block) :
    Covers (blocks ++ more) k := by
  rcases covers with ⟨b, mem, here⟩
  exact ⟨b, List.mem_append_left _ mem, here⟩

theorem Covers.right {blocks : List Block} {k : Nat} (covers : Covers blocks k) (before : List Block) :
    Covers (before ++ blocks) k := by
  rcases covers with ⟨b, mem, here⟩
  exact ⟨b, List.mem_append_right _ mem, here⟩

theorem covers_single {start : Nat} {text : List Char} {k : Nat} (low : start ≤ k) (high : k < start + text.length) :
    Covers [⟨start, text⟩] k := ⟨_, List.mem_singleton_self _, low, high⟩

theorem store_append (mem : Nat → Char) (blocks more : List Block) :
    store mem (blocks ++ more) = store (store mem blocks) more := List.foldl_append

theorem put_outside {b : Block} {k : Nat} (outside : b.text ≠ [] → k < b.start ∨ b.start + b.text.length ≤ k)
    (mem : Nat → Char) : b.put mem k = mem k := by
  unfold Block.put
  split_ifs with low
  · have none_ : b.text[k - b.start]? = none := by
      rw [List.getElem?_eq_none_iff]
      by_cases empty : b.text = []
      · simp [empty]
      · have := outside empty
        omega
    rw [none_]
    rfl
  · rfl

theorem store_outside {lo hi : Nat} {blocks : List Block} (within : Within lo hi blocks) {k : Nat}
    (outside : k < lo ∨ hi ≤ k) (mem : Nat → Char) : store mem blocks k = mem k := by
  induction blocks generalizing mem with
  | nil => rfl
  | cons b blocks ih =>
    have first := within b List.mem_cons_self
    have rest : Within lo hi blocks := fun b mem => within b (List.mem_cons_of_mem _ mem)
    change store (b.put mem) blocks k = mem k
    rw [ih rest (b.put mem)]
    apply put_outside
    intro some_
    have := first some_
    omega

theorem put_inside {start k : Nat} {text : List Char} {c : Char} (here : text[k]? = some c) (mem : Nat → Char) :
    Block.put mem ⟨start, text⟩ (start + k) = c := by
  unfold Block.put
  rw [if_pos (Nat.le_add_right _ _), Nat.add_sub_cancel_left, here]
  rfl

/-- A text that there is space for is written, right or wrong. It may have a hole, where the memory of before is left,
behind its first character. -/
structure Fits (good hole : Prop) (t : List Char) (s : Nat) (blocks : List Block) : Prop where
  within : Within s (s + t.length + 1) blocks
  right : good → ∀ mem k c, t[k]? = some c → store mem blocks (s + k) = c
  wrong : ¬ good → ∃ k c x, t[k]? = some c ∧ ∀ mem, (0 < k → mem (s + k) = x) → store mem blocks (s + k) ≠ c
  covers : ¬ hole → ∀ k, k < t.length → Covers blocks (s + k)

theorem Fits.append {good good' hole hole' : Prop} {t t' : List Char} {s : Nat} {blocks blocks' : List Block}
    (fits : Fits good hole t s blocks) (fits' : Fits good' hole' t' (s + t.length) blocks') :
    Fits (good ∧ good') (hole ∨ hole') (t ++ t') s (blocks ++ blocks') where
  within := by
    have := fits.within.append fits'.within (by omega) (by omega)
    rw [List.length_append, ← Nat.add_assoc]
    exact this
  right := by
    intro both mem k c here
    rw [store_append]
    by_cases first : k < t.length
    · rw [store_outside fits'.within (by omega)]
      rw [List.getElem?_append_left first] at here
      exact fits.right both.1 mem k c here
    · rw [List.getElem?_append_right (by omega)] at here
      have found := fits'.right both.2 (store mem blocks) (k - t.length) c here
      rw [show s + k = s + t.length + (k - t.length) by omega]
      exact found
  wrong := by
    intro no
    by_cases first : good
    · rcases fits'.wrong (fun second => no ⟨first, second⟩) with ⟨k, c, x, here, other⟩
      refine ⟨t.length + k, c, x, ?_, ?_⟩
      · rw [List.getElem?_append_right (by omega), Nat.add_sub_cancel_left]
        exact here
      · intro mem hole
        rw [store_append, ← Nat.add_assoc]
        apply other
        intro some_
        rw [store_outside fits.within (by omega), Nat.add_assoc]
        exact hole (by omega)
    · rcases fits.wrong first with ⟨k, c, x, here, other⟩
      have inside : k < t.length := (List.getElem?_eq_some_iff.mp here).1
      refine ⟨k, c, x, ?_, ?_⟩
      · rw [List.getElem?_append_left inside]
        exact here
      · intro mem hole
        rw [store_append, store_outside fits'.within (by omega)]
        exact other mem hole
  covers := by
    intro none_ k inside
    rw [List.length_append] at inside
    by_cases first : k < t.length
    · exact (fits.covers (fun h => none_ (.inl h)) k first).left _
    · have covered := fits'.covers (fun h => none_ (.inr h)) (k - t.length) (by omega)
      rw [show s + t.length + (k - t.length) = s + k by omega] at covered
      exact covered.right _

theorem fits_nil (s : Nat) : Fits True False [] s [] where
  within := within_nil _ _
  right := by simp
  wrong := by simp
  covers := by simp

theorem Fits.nul {good hole : Prop} {t : List Char} {s : Nat} {blocks : List Block} (fits : Fits good hole t s blocks) :
    Fits good hole t s (blocks ++ [⟨s + t.length, ['\x00']⟩]) where
  within := fits.within.append (within_single (Nat.le_refl _) (Nat.le_refl _)) (by omega) (by simp)
  right := by
    intro holds mem k c here
    have inside : k < t.length := (List.getElem?_eq_some_iff.mp here).1
    rw [store_append, store_outside (within_single (Nat.le_refl _) (Nat.le_refl _)) (by omega)]
    exact fits.right holds mem k c here
  wrong := by
    intro no
    rcases fits.wrong no with ⟨k, c, x, here, other⟩
    have inside : k < t.length := (List.getElem?_eq_some_iff.mp here).1
    refine ⟨k, c, x, here, ?_⟩
    intro mem hole_
    rw [store_append, store_outside (within_single (Nat.le_refl _) (Nat.le_refl _)) (by omega)]
    exact other mem hole_
  covers := fun none_ k inside => (fits.covers none_ k inside).left _

theorem fits_single {good : Prop} {t w : List Char} (s : Nat) (length : w.length = t.length) (same : w = t ↔ good) :
    Fits good False t s [⟨s, w⟩] where
  within := within_single (Nat.le_refl _) (by omega)
  right := by
    intro holds mem k c here
    rw [← same.mpr holds] at here
    exact put_inside here mem
  wrong := by
    intro no
    have other : w ≠ t := fun h => no (same.mp h)
    by_contra all
    apply other
    apply List.ext_getElem length
    intro k inside inside'
    by_contra differs
    apply all
    refine ⟨k, t[k], 'x', List.getElem?_eq_getElem inside', ?_⟩
    intro mem _
    change Block.put mem ⟨s, w⟩ (s + k) ≠ t[k]
    rw [put_inside (List.getElem?_eq_getElem inside) mem]
    exact differs
  covers := fun _ k inside => covers_single (by omega) (by omega)

def Item.recursive : Item → Bool
  | .conv c => Strftime.recursive c
  | _ => false

/-- An item for which there is no space ends at the end of the array. -/
def Item.Stops (i : Item) (n : Nat) : Prop := i.recursive = false ∧ (i = .conv 'z' → n ≤ 3)

/-- What is known of an item at any place of the array. -/
structure Spec (bits : Nat) (recur : Call) (tm : Tm) (i : Item) (t : List Char) : Prop where
  fits : ∀ s n inc, t.length < n → (i.recursive = true → n + 1 < 2 ^ bits) →
    ∃ blocks, perform bits recur tm i s n inc = some (blocks, t.length) ∧
      Fits (Right tm i) (i = .conv 'z') t s blocks
  full : ∀ s n inc, 0 < n → n ≤ t.length → i.Stops n →
    ∃ blocks, perform bits recur tm i s n inc = some (blocks, n) ∧ Within s (s + n) blocks
  outside : ∀ s n inc, 0 < n → n ≤ t.length → (i.recursive = true → n + 1 < 2 ^ bits) → ¬ i.Stops n →
    ∀ blocks e, perform bits recur tm i s n inc = some (blocks, e) → Covers blocks (s + n)
  covers : ∀ s n inc, 0 < n → n ≤ t.length → (i.recursive = true → n + 1 < 2 ^ bits) → i ≠ .conv 'z' →
    ∀ blocks e, perform bits recur tm i s n inc = some (blocks, e) → ∀ k, k < n → Covers blocks (s + k)

section
variable {bits : Nat} {recur : Call} {tm : Tm}

theorem spec_simple {i : Item} {t : List Char} (flat : i.recursive = false) (noOffset : i ≠ .conv 'z')
    (simple : ∀ s n inc, 0 < n → ∃ w, perform bits recur tm i s n inc = some ([⟨s, w⟩], w.length) ∧
      w.length = min n t.length ∧ (t.length ≤ n → (w = t ↔ Right tm i))) : Spec bits recur tm i t where
  fits := by
    intro s n inc room _
    rcases simple s n inc (by omega) with ⟨w, performs, length, right⟩
    have whole : w.length = t.length := by omega
    have single := fits_single s whole (right room.le)
    refine ⟨[⟨s, w⟩], by rw [performs, whole], single.within, single.right, single.wrong, ?_⟩
    exact fun _ => single.covers id
  full := by
    intro s n inc some_ small _
    rcases simple s n inc some_ with ⟨w, performs, length, _⟩
    have whole : w.length = n := by omega
    exact ⟨[⟨s, w⟩], by rw [performs, whole], within_single (Nat.le_refl _) (by omega)⟩
  outside := by
    intro s n inc _ _ _ no
    exact absurd ⟨flat, fun offset => absurd offset noOffset⟩ no
  covers := by
    intro s n inc some_ small _ _ blocks e made k inside
    rcases simple s n inc some_ with ⟨w, performs, length, _⟩
    rw [performs] at made
    cases made
    exact covers_single (by omega) (by omega)

theorem spec_plain (ch : Char) : Spec bits recur tm (.plain ch) [ch] := by
  apply spec_simple rfl (by simp)
  intro s n inc some_
  refine ⟨[ch], rfl, ?_, fun _ => iff_of_true rfl trivial⟩
  rw [List.length_singleton]
  omega

theorem offset_length {maxYear : Int} (fields : InRange maxYear tm) : (offset tm).length = 5 := by
  have gmtoff := fields.gmtoff
  unfold offset
  rw [List.length_cons, List.length_append, decimal_length (by decide) _ (by omega) (by omega),
    decimal_length (by decide) _ (by omega) (by omega)]

theorem spec_offset {maxYear : Int} (fields : InRange maxYear tm) : Spec bits recur tm (.conv 'z') (offset tm) := by
  have length := offset_length fields
  have gmtoff := fields.gmtoff
  have hours : 0 ≤ (if 0 ≤ tm.gmtoff then tm.gmtoff else -tm.gmtoff).tdiv 3600 :=
    Int.tdiv_nonneg (by split_ifs <;> omega) (by decide)
  have minutes : 0 ≤ ((if 0 ≤ tm.gmtoff then tm.gmtoff else -tm.gmtoff).tmod 3600).tdiv 60 :=
    Int.tdiv_nonneg (Int.tmod_nonneg _ (by split_ifs <;> omega)) (by decide)
  have performs : ∀ s n inc, perform bits recur tm (.conv 'z') s n inc = some (timezone s n tm) := fun _ _ _ => rfl
  have parts : ∀ s n, 0 < n → ∃ sign h m, timezone s n tm =
      ([⟨s, [sign]⟩, ⟨s + 1, h⟩, ⟨s + 1 + (1 + h.length), m⟩], 1 + h.length + m.length) ∧
      h.length = min (n - 1) 2 ∧ m.length = min (n - (1 + h.length)) 2 := by
    intro s n some_
    exact ⟨_, _, _, rfl, dval_length _ _ (by decide) _ hours, dval_length _ _ (by decide) _ minutes⟩
  constructor
  · intro s n inc room _
    rcases parts s n (by omega) with ⟨sign, h, m, made, two, two'⟩
    have h2 : h.length = 2 := by omega
    have m2 : m.length = 2 := by omega
    rw [performs, made, h2, m2, length]
    refine ⟨_, rfl, ?_, fun good => good.elim, ?_, fun no => absurd rfl no⟩
    · intro b mem _
      simp only [List.mem_cons, List.not_mem_nil, or_false] at mem
      rcases mem with rfl | rfl | rfl <;> simp only [List.length_singleton] <;> omega
    · intro _
      have third : 3 < (offset tm).length := by omega
      rcases (⟨'0', '1', by decide⟩ : ∃ a b : Char, a ≠ b) with ⟨a, b, differ⟩
      have other : ∃ x : Char, x ≠ (offset tm)[3] := by
        by_cases same : a = (offset tm)[3]
        · exact ⟨b, by rw [← same]; exact differ.symm⟩
        · exact ⟨a, same⟩
      rcases other with ⟨x, other⟩
      refine ⟨3, (offset tm)[3], x, List.getElem?_eq_getElem third, ?_⟩
      intro mem hole
      change Block.put (Block.put (Block.put mem ⟨s, [sign]⟩) ⟨s + 1, h⟩) ⟨s + 1 + (1 + 2), m⟩ (s + 3) ≠ _
      rw [put_outside (by intro _; left; dsimp only; omega), put_outside (by intro _; right; dsimp only; omega),
        put_outside (by intro _; right; simp), hole (by decide)]
      exact other
  · intro s n inc some_ small stops
    have few : n ≤ 3 := stops.2 rfl
    rcases parts s n some_ with ⟨sign, h, m, made, two, two'⟩
    have empty : m = [] := List.eq_nil_of_length_eq_zero (by omega)
    subst empty
    refine ⟨_, by rw [performs, made, show 1 + h.length + [].length = n by simp; omega], ?_⟩
    intro b mem some_
    simp only [List.mem_cons, List.not_mem_nil, or_false] at mem
    rcases mem with rfl | rfl | rfl
    · simp only [List.length_singleton]
      omega
    · dsimp only
      omega
    · exact absurd rfl some_
  · intro s n inc some_ small _ goes blocks e made
    have many : 3 < n := by
      by_contra few
      exact goes ⟨rfl, fun _ => by omega⟩
    rcases parts s n some_ with ⟨sign, h, m, made', two, two'⟩
    rw [performs, made'] at made
    cases made
    exact ⟨⟨s + 1 + (1 + h.length), m⟩, by simp, by dsimp only; omega, by dsimp only; omega⟩
  · intro s n inc _ _ _ other
    exact absurd rfl other

end

end Scc.Libc.Strftime
