import Mathlib.Data.List.Basic

/-!
# Slots that are filled from a list

The slots from a number on are filled in order: a slot takes the head of the list if that has its number,
and a default otherwise. From an ordered list every slot gets the element with its number, as long as no
number in front of it occurs twice; behind such a number every slot gets the default.
-/

namespace Scc.Lib.Slots

set_option autoImplicit false

universe u v

variable {α : Type u} {β : Type v} (key : α → Int) (content : α → β) (default_ : β)

def fill : Nat → Int → List α → List β
  | 0, _, _ => []
  | n + 1, cur, [] => default_ :: fill n (cur + 1) []
  | n + 1, cur, p :: rest =>
    if key p = cur then content p :: fill n (cur + 1) rest
    else default_ :: fill n (cur + 1) (p :: rest)

theorem fill_length (n : Nat) (cur : Int) (items : List α) :
    (fill key content default_ n cur items).length = n := by
  induction n generalizing cur items with
  | zero => rfl
  | succ n ih =>
    cases items with
    | nil => rw [fill, List.length_cons, ih]
    | cons p rest =>
      rw [fill]
      split_ifs <;> rw [List.length_cons, ih]

theorem fill_passed {n k : Nat} {cur : Int} {p : α} {items : List α} (passed : key p < cur)
    (inside : k < n) : (fill key content default_ n cur (p :: items))[k]? = some default_ := by
  induction n generalizing k cur with
  | zero => cases inside
  | succ n ih =>
    rw [fill, if_neg (by omega)]
    cases k with
    | zero => rfl
    | succ k =>
      rw [List.getElem?_cons_succ]
      exact ih (by omega) (by omega)

def count (items : List α) (value : Int) : Nat := items.countP fun p => key p = value

def Ordered (items : List α) : Prop := items.Pairwise fun a b => key a ≤ key b

theorem count_cons (p : α) (items : List α) (value : Int) :
    count key (p :: items) value = count key items value + if key p = value then 1 else 0 := by
  unfold count
  rw [List.countP_cons]
  simp only [decide_eq_true_eq]

theorem count_pos {items : List α} {p : α} (member : p ∈ items) : 0 < count key items (key p) := by
  unfold count
  rw [List.countP_pos_iff]
  exact ⟨p, member, decide_eq_true rfl⟩

theorem fill_once {n k : Nat} {cur : Int} {items : List α} (ordered : Ordered key items)
    (above : ∀ p ∈ items, cur ≤ key p) (inside : k < n)
    (once : ∀ value < cur + k, count key items value ≤ 1) : (fill key content default_ n cur items)[k]? =
      some (((items.find? fun p => key p = cur + k).map content).getD default_) := by
  induction n generalizing k cur items with
  | zero => cases inside
  | succ n ih =>
    cases items with
    | nil =>
      rw [fill]
      cases k with
      | zero => rfl
      | succ k =>
        rw [List.getElem?_cons_succ, ih .nil (fun p member => by cases member) (by omega)
          (fun value _ => Nat.zero_le _), List.find?_nil, List.find?_nil]
    | cons p rest =>
      have ⟨least, later⟩ := List.pairwise_cons.mp ordered
      have first := above p List.mem_cons_self
      rw [fill]
      cases k with
      | zero =>
        by_cases hit : key p = cur
        · have found : decide (key p = cur + (0 : Nat)) = true := decide_eq_true (by omega)
          rw [if_pos hit, List.find?_cons, found, List.getElem?_cons_zero]
          dsimp only
          rw [Option.map_some, Option.getD_some]
        · have missing : (p :: rest).find? (fun p => key p = cur + (0 : Nat)) = none := by
            rw [List.find?_eq_none, List.forall_mem_cons]
            constructor
            · rw [decide_eq_true_eq]
              omega
            · intro q member
              have le := least q member
              rw [decide_eq_true_eq]
              omega
          rw [if_neg hit, missing]
          rfl
      | succ k =>
        have next : cur + (k + 1 : Nat) = cur + 1 + k := by omega
        by_cases hit : key p = cur
        · have alone := once cur (by omega)
          rw [count_cons, if_pos hit] at alone
          have other : decide (key p = cur + (k + 1 : Nat)) = false := decide_eq_false (by omega)
          rw [if_pos hit, List.getElem?_cons_succ, List.find?_cons, other, next]
          apply ih later _ (by omega)
          · intro value less
            have le := once value (by omega)
            rw [count_cons] at le
            omega
          · intro q member
            have le := least q member
            by_cases again : key q = cur
            · have pos := count_pos key member
              rw [again] at pos
              omega
            · omega
        · rw [if_neg hit, List.getElem?_cons_succ, next]
          apply ih ordered _ (by omega)
          · intro value less
            exact once value (by omega)
          · rw [List.forall_mem_cons]
            constructor
            · omega
            · intro q member
              have le := least q member
              omega

theorem exists_of_count {items : List α} {value : Int} (pos : 0 < count key items value) :
    ∃ p ∈ items, key p = value := by
  unfold count at pos
  have ⟨p, member, same⟩ := List.countP_pos_iff.mp pos
  exact ⟨p, member, of_decide_eq_true same⟩

theorem fill_twice {n k : Nat} {cur value : Int} {items : List α} (ordered : Ordered key items)
    (above : ∀ p ∈ items, cur ≤ key p) (inside : k < n) (less : value < cur + k)
    (twice : 2 ≤ count key items value) : (fill key content default_ n cur items)[k]? = some default_ := by
  induction n generalizing k cur items with
  | zero => cases inside
  | succ n ih =>
    have ⟨r, member, same⟩ := exists_of_count key (Nat.lt_of_lt_of_le Nat.zero_lt_two twice)
    have low := above r member
    cases items with
    | nil => cases member
    | cons p rest =>
      have ⟨least, later⟩ := List.pairwise_cons.mp ordered
      have first := above p List.mem_cons_self
      rw [fill]
      cases k with
      | zero => omega
      | succ k =>
        by_cases hit : key p = cur
        · rw [if_pos hit, List.getElem?_cons_succ]
          rw [count_cons] at twice
          have left : 0 < count key rest value := by
            split_ifs at twice <;> omega
          have ⟨q, member', same'⟩ := exists_of_count key left
          cases rest with
          | nil => cases member'
          | cons p' rest =>
            by_cases passed : key p' < cur + 1
            · exact fill_passed key content default_ passed (by omega)
            · have ⟨least', _⟩ := List.pairwise_cons.mp later
              have above' : ∀ q ∈ p' :: rest, cur + 1 ≤ key q := by
                rw [List.forall_mem_cons]
                constructor
                · omega
                · intro q member
                  have le := least' q member
                  omega
              have high := above' q member'
              apply ih later above' (by omega) (by omega)
              rw [if_neg (by omega)] at twice
              exact twice
        · rw [if_neg hit, List.getElem?_cons_succ]
          apply ih ordered _ (by omega) (by omega) twice
          rw [List.forall_mem_cons]
          constructor
          · omega
          · intro q member
            have le := least q member
            omega

end Scc.Lib.Slots
