import Scc.Cc1.Lex

/-!
# Arrays of characters from string literals

`str2ary()` makes the string of an array from a literal, whose adjacent literals `adjstrings()` has
joined. A symbol has the bytes of a string in a block of its own, and their number in its type. The
bytes that `malloc()` leaves in a block are unknown. A block that `realloc()` does not enlarge stays
where it is.
-/

namespace Scc.Cc1.StringArray

open Scc.Cc1.Lex

set_option autoImplicit false

/-- The symbol of a string: `u.s` and `n.elem` of its type. -/
structure Str where
  s : Text
  elem : Nat
deriving DecidableEq

structure Ary where
  elem : Nat
  tdefined : Bool
deriving DecidableEq

section

variable (fresh : Nat → Char)

def xmalloc (len : Nat) : Text := (List.range len).map fresh

def xrealloc (s : Text) (len : Nat) : Text := s.take len ++ xmalloc fresh (len - s.length)

def memcpy (dst : Text) (start : Nat) (src : Text) (n : Nat) : Text :=
  dst.take start ++ src.take n ++ dst.drop (start + n)

/-- The bytes that `strncpy()` writes. -/
def strncpy : Text → Nat → Text
  | _, 0 => []
  | [], n + 1 => List.replicate (n + 1) '\x00'
  | c :: src, n + 1 => if c = '\x00' then List.replicate (n + 1) '\x00' else c :: strncpy src n

def newstring (s : Option Text) (len : Nat) : Str :=
  match s with
  | none => ⟨xmalloc fresh len, len⟩
  | some s => ⟨memcpy (xmalloc fresh len) 0 s len, len⟩

/-- The symbol that `string()` makes of the bytes between the quotes. -/
def literal (bytes : Text) : Str := newstring fresh (some (bytes ++ ['\x00'])) (bytes.length + 1)

/-- The loop of `adjstrings()`, from the block and its length. -/
def append : Text → Nat → List Str → Text × Nat
  | s, len, [] => (s, len)
  | s, len, sym :: rest =>
    let t := sym.s
    let n := sym.elem - 1
    let s := memcpy (xrealloc fresh s (len + n)) (len - 1) t n
    append (s.set (len + n - 1) '\x00') (len + n) rest

def adjstrings (sym : Str) (others : List Str) : Str :=
  let result := append fresh sym.s sym.elem others
  if sym.elem ≠ result.2 then ⟨result.1, result.2⟩ else sym

/-- The type of the array and the string of its initializer. -/
def str2ary (tp : Ary) (sym : Str) : Ary × Str :=
  let tp := if tp.tdefined then tp else ⟨sym.elem, true⟩
  let str := newstring fresh none tp.elem
  (tp, { str with s := memcpy str.s 0 (strncpy sym.s tp.elem) tp.elem })

end

/-- The bytes of a literal after the concatenation, with the terminating zero. -/
def bytes (first : Text) (others : List Text) : Text := first ++ others.flatten ++ ['\x00']

def count (tp : Ary) (text : Text) : Nat := if tp.tdefined then tp.elem else text.length

/-- The array has its elements, those of the literal first and then zeros. -/
def Initialized (tp : Ary) (text : Text) (result : Ary × Str) : Prop :=
  result.1 = ⟨count tp text, true⟩ ∧ result.2.elem = count tp text ∧
    result.2.s.length = count tp text ∧
      ∀ i < count tp text, result.2.s[i]? = some (text.getD i '\x00')

/-- No byte that the array has room for follows a zero, unless it is zero itself. -/
def Unbroken (n : Nat) (text : Text) : Prop :=
  ∀ i j, i < j → j < n → text.getD i '\x00' = '\x00' → text.getD j '\x00' = '\x00'

variable {fresh : Nat → Char}

theorem xmalloc_length (len : Nat) : (xmalloc fresh len).length = len := by
  rw [xmalloc, List.length_map, List.length_range]

theorem literal_eq (text : Text) : literal fresh text = ⟨text ++ ['\x00'], text.length + 1⟩ := by
  have all : (text ++ ['\x00']).length = text.length + 1 := List.length_append
  have none_ : (xmalloc fresh (text.length + 1)).drop (0 + (text.length + 1)) = [] := by
    apply List.drop_eq_nil_of_le
    rw [xmalloc_length]
    omega
  unfold literal newstring memcpy
  dsimp only
  rw [none_, ← all, List.take_length, List.take_zero, List.append_nil, List.nil_append]

theorem append_step (text t : Text) :
    ((memcpy (xrealloc fresh (text ++ ['\x00']) (text.length + 1 + t.length)) text.length
      (t ++ ['\x00']) t.length).set (text.length + t.length) '\x00') = text ++ t ++ ['\x00'] := by
  have block : xrealloc fresh (text ++ ['\x00']) (text.length + 1 + t.length) =
      text ++ (['\x00'] ++ xmalloc fresh t.length) := by
    have more : text.length + 1 + t.length - (text ++ ['\x00']).length = t.length := by
      rw [List.length_append, List.length_singleton]
      omega
    have whole : (text ++ ['\x00']).length ≤ text.length + 1 + t.length := by
      rw [List.length_append, List.length_singleton]
      omega
    rw [xrealloc, more, List.take_of_length_le whole, List.append_assoc]
  have last : ∃ c, (['\x00'] ++ xmalloc fresh t.length).drop t.length = [c] := by
    apply List.length_eq_one_iff.mp
    rw [List.length_drop, List.length_append, xmalloc_length, List.length_singleton]
    omega
  have ⟨c, rest⟩ := last
  have place : (text ++ t).length = text.length + t.length := List.length_append
  rw [block, memcpy, List.take_left, List.take_left, ← List.drop_drop, List.drop_left, rest, ← place,
    List.set_append_right _ _ (Nat.le_refl _), Nat.sub_self]
  rfl

theorem append_eq (text : Text) (others : List Text) :
    append fresh (text ++ ['\x00']) (text.length + 1) (others.map (literal fresh)) =
      (bytes text others, (bytes text others).length) := by
  induction others generalizing text with
  | nil =>
    unfold bytes append
    rw [List.map_nil, List.flatten_nil, List.append_nil, List.length_append, List.length_singleton]
  | cons t others ih =>
    have joined : bytes (text ++ t) others = bytes text (t :: others) := by
      unfold bytes
      rw [List.flatten_cons, List.append_assoc text]
    have room : t.length + 1 - 1 = t.length := Nat.add_sub_cancel _ _
    have place : text.length + 1 - 1 = text.length := Nat.add_sub_cancel _ _
    have last : text.length + 1 + t.length - 1 = text.length + t.length := by omega
    have next : text.length + 1 + t.length = (text ++ t).length + 1 := by
      rw [List.length_append]
      omega
    rw [List.map_cons, append, literal_eq]
    dsimp only
    rw [room, place, last, append_step, next, ih, joined]

theorem adjstrings_eq (first : Text) (others : List Text) :
    adjstrings fresh (literal fresh first) (others.map (literal fresh)) =
      ⟨bytes first others, (bytes first others).length⟩ := by
  unfold adjstrings
  rw [literal_eq]
  dsimp only
  rw [append_eq]
  split_ifs with longer
  · rfl
  · rw [not_not] at longer
    have none_ : others.flatten = [] := by
      apply List.eq_nil_of_length_eq_zero
      simp only [bytes, List.length_append, List.length_singleton] at longer
      omega
    rw [longer]
    unfold bytes
    rw [none_, List.append_nil]

theorem strncpy_length (src : Text) (n : Nat) : (strncpy src n).length = n := by
  induction n generalizing src with
  | zero => cases src <;> rfl
  | succ n ih =>
    cases src with
    | nil => rw [strncpy, List.length_replicate]
    | cons c src =>
      rw [strncpy]
      split_ifs
      · exact List.length_replicate
      · rw [List.length_cons, ih]

/-- The copy has the bytes of the source up to its first zero. -/
theorem strncpy_getElem {src : Text} {n i : Nat} (below : i < n) : (strncpy src n)[i]? =
      some (if ∃ j ≤ i, src.getD j '\x00' = '\x00' then '\x00' else src.getD i '\x00') := by
  induction n generalizing src i with
  | zero => omega
  | succ n ih =>
    cases src with
    | nil =>
      rw [strncpy, List.getElem?_replicate_of_lt below, if_pos ⟨0, Nat.zero_le i, rfl⟩]
    | cons c src =>
      by_cases zero : c = '\x00'
      · rw [strncpy, if_pos zero, List.getElem?_replicate_of_lt below,
          if_pos ⟨0, Nat.zero_le i, zero⟩]
      · rw [strncpy, if_neg zero]
        cases i with
        | zero =>
          have nonzero : ¬ ∃ j ≤ 0, (c :: src).getD j '\x00' = '\x00' := by
            rintro ⟨j, le, same⟩
            rw [Nat.le_zero.mp le] at same
            exact zero same
          rw [if_neg nonzero]
          rfl
        | succ i =>
          have shifted : (∃ j ≤ i + 1, (c :: src).getD j '\x00' = '\x00') ↔
              ∃ j ≤ i, src.getD j '\x00' = '\x00' := by
            constructor
            · rintro ⟨j, le, same⟩
              cases j with
              | zero => exact absurd same zero
              | succ j => exact ⟨j, by omega, same⟩
            · rintro ⟨j, le, same⟩
              exact ⟨j + 1, by omega, same⟩
          rw [List.getElem?_cons_succ, ih (by omega)]
          simp only [shifted]
          rfl

theorem str2ary_block (tp : Ary) (sym : Str) : (str2ary fresh tp sym).2 =
    ⟨strncpy sym.s (str2ary fresh tp sym).1.elem, (str2ary fresh tp sym).1.elem⟩ := by
  unfold str2ary newstring memcpy
  generalize (if tp.tdefined then tp else ⟨sym.elem, true⟩ : Ary) = ary
  have none_ : (xmalloc fresh ary.elem).drop (0 + ary.elem) = [] := by
    apply List.drop_eq_nil_of_le
    rw [xmalloc_length]
    omega
  dsimp only
  rw [none_, List.take_zero, List.nil_append, List.append_nil]
  congr 1
  exact List.take_of_length_le (Nat.le_of_eq (strncpy_length _ _))

/-- The array of a literal is initialized as C wants it if and only if no byte that it has room for
follows a zero. -/
theorem initialized_iff (fresh : Nat → Char) (tp : Ary) (first : Text) (others : List Text) :
    Initialized tp (bytes first others) (str2ary fresh tp
          (adjstrings fresh (literal fresh first) (others.map (literal fresh)))) ↔
      Unbroken (count tp (bytes first others)) (bytes first others) := by
  rw [adjstrings_eq]
  generalize bytes first others = text
  have type : (str2ary fresh tp ⟨text, text.length⟩).1 = ⟨count tp text, true⟩ := by
    rcases tp with ⟨elem, tdefined⟩
    cases tdefined <;> rfl
  have block := @str2ary_block fresh tp ⟨text, text.length⟩
  rw [type] at block
  unfold Initialized Unbroken
  rw [type, block]
  generalize count tp text = n
  simp only [strncpy_length, true_and]
  constructor
  · intro same i j before below zero
    have byte := same j below
    rw [strncpy_getElem below, if_pos ⟨i, Nat.le_of_lt before, zero⟩] at byte
    exact (Option.some.inj byte).symm
  · intro unbroken i below
    rw [strncpy_getElem below]
    split_ifs with broken
    · have ⟨j, le, zero⟩ := broken
      rcases Nat.lt_or_eq_of_le le with lt | same
      · rw [unbroken j i lt below zero]
      · rw [← same, zero]
    · rfl

/-- `char s[3] = "a\0b";` -/
theorem embedded_zero_lost : ¬ ∀ (fresh : Nat → Char) (tp : Ary) (first : Text) (others : List Text),
    Initialized tp (bytes first others) (str2ary fresh tp
        (adjstrings fresh (literal fresh first) (others.map (literal fresh)))) := by
  intro always
  have all := always (fun _ => 'x') ⟨3, true⟩ ['a', '\x00', 'b'] []
  exact absurd (all.2.2.2 2 (by decide)) (by decide)

end Scc.Cc1.StringArray
