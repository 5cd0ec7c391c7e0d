import Scc.Libc.Vfprintf

/-!
# Formatted output to a string

`vsnprintf()` makes a stream of the string, which `putc()` writes at `wp` as long as `wp` is below `rp`,
the end of the string. Addresses are words, and the end of the string is computed in them.
-/

namespace Scc.Libc.Printf

set_option autoImplicit false

abbrev Address := BitVec 64
abbrev Memory := Address → Char

def SIZE_MAX : Address := BitVec.allOnes 64

def store (mem : Memory) (p : Address) (c : Char) (q : Address) : Char := if q = p then c else mem q

structure FILE where
  mem : Memory
  rp : Address
  wp : Address

/-- `putc()`; a string stream has `_IOSTRG`, and `__putc()` drops the character. -/
def FILE.putc (fp : FILE) (c : Char) : FILE :=
  if fp.rp ≤ fp.wp then fp else { fp with mem := store fp.mem fp.wp c, wp := fp.wp + 1 }

/-- The value, which is indeterminate where it is `none`, and the memory. What `%n` stores is left out. -/
def vsnprintf (mem : Memory) (s siz : Address) (fmt : List Char) (args : List Arg) :
    Option (Option Int × Memory) :=
  (print fmt args).map fun (pieces, err) =>
    let f := (written pieces).foldl FILE.putc ⟨mem, s + siz, s⟩
    let mem :=
      if s ≠ 0 then
        let wp := if f.wp = f.rp then f.wp - 1 else f.wp
        if siz ≠ 0 then store f.mem wp '\x00' else f.mem
      else f.mem
    (result pieces err, mem)

def vsprintf (mem : Memory) (s : Address) (fmt : List Char) (args : List Arg) : Option (Option Int × Memory) :=
  vsnprintf mem s SIZE_MAX fmt args

/-- The memory with a text from an address on. -/
def put (mem : Memory) (s : Address) (text : List Char) (q : Address) : Char := text.getD (q - s).toNat (mem q)

variable (mem : Memory)

theorem put_nil (s : Address) : put mem s [] = mem := by
  funext q
  rfl

theorem put_append (s : Address) (text : List Char) (c : Char) (fits : text.length < 2 ^ 64) :
    put mem s (text ++ [c]) = store (put mem s text) (s + BitVec.ofNat 64 text.length) c := by
  funext q
  unfold put store
  by_cases last : q = s + BitVec.ofNat 64 text.length
  · have offset : (q - s).toNat = text.length := by
      rw [last, BitVec.add_comm, BitVec.add_sub_cancel, BitVec.toNat_ofNat, Nat.mod_eq_of_lt fits]
    rw [if_pos last, offset, List.getD_append_right _ _ _ _ (Nat.le_refl _), Nat.sub_self]
    rfl
  · have offset : (q - s).toNat ≠ text.length := by
      intro same
      apply last
      rw [← same, BitVec.ofNat_toNat, BitVec.setWidth_eq, BitVec.add_comm, BitVec.sub_add_cancel]
    rw [if_neg last]
    rcases Nat.lt_or_gt_of_ne offset with before | after
    · exact List.getD_append _ _ _ _ before
    · have beyond : (text ++ [c]).length ≤ (q - s).toNat := by
        rw [List.length_append, List.length_singleton]
        exact after
      dsimp only
      rw [List.getD_eq_default _ _ beyond, List.getD_eq_default _ _ (Nat.le_of_lt after)]

theorem putc_room (s siz : Address) (room : s.toNat + siz.toNat < 2 ^ 64) (text done : List Char)
    (within : done.length ≤ siz.toNat) :
    text.foldl FILE.putc ⟨put mem s done, s + siz, s + BitVec.ofNat 64 done.length⟩ =
      ⟨put mem s (done ++ text.take (siz.toNat - done.length)), s + siz,
        s + BitVec.ofNat 64 (min (done.length + text.length) siz.toNat)⟩ := by
  induction text generalizing done with
  | nil =>
    rw [List.take_nil, List.append_nil, List.length_nil, Nat.add_zero, Nat.min_eq_left within]
    rfl
  | cons c text ih =>
    have size := siz.isLt
    have position : (s + BitVec.ofNat 64 done.length).toNat = s.toNat + done.length := by
      rw [BitVec.toNat_add, BitVec.toNat_ofNat]
      omega
    have limit : (s + siz).toNat = s.toNat + siz.toNat := by
      rw [BitVec.toNat_add]
      omega
    rw [List.foldl_cons]
    by_cases full : done.length = siz.toNat
    · have dropped : FILE.putc ⟨put mem s done, s + siz, s + BitVec.ofNat 64 done.length⟩ c =
          ⟨put mem s done, s + siz, s + BitVec.ofNat 64 done.length⟩ := by
        have reached : s + siz ≤ s + BitVec.ofNat 64 done.length := by
          rw [BitVec.le_def, position, limit]
          omega
        rw [FILE.putc, if_pos reached]
      rw [dropped, ih done within, full, Nat.sub_self, List.take_zero, List.take_zero]
      congr 3
      rw [List.length_cons]
      omega
    · have stored : FILE.putc ⟨put mem s done, s + siz, s + BitVec.ofNat 64 done.length⟩ c =
          ⟨put mem s (done ++ [c]), s + siz, s + BitVec.ofNat 64 (done ++ [c]).length⟩ := by
        have below : ¬ s + siz ≤ s + BitVec.ofNat 64 done.length := by
          rw [BitVec.le_def, position, limit]
          omega
        rw [FILE.putc, if_neg below, put_append _ _ _ _ (by omega), List.length_append, List.length_singleton,
          BitVec.ofNat_add, ← BitVec.add_assoc]
        rfl
      have next : siz.toNat - done.length = siz.toNat - (done ++ [c]).length + 1 := by
        rw [List.length_append, List.length_singleton]
        omega
      rw [stored, ih (done ++ [c]) (by rw [List.length_append, List.length_singleton]; omega), next,
        List.take_succ_cons, List.append_assoc, List.singleton_append, List.length_append,
        List.length_singleton, List.length_cons, Nat.add_assoc, Nat.add_comm 1]

theorem putc_full (fp : FILE) (full : fp.rp ≤ fp.wp) (text : List Char) : text.foldl FILE.putc fp = fp := by
  induction text with
  | nil => rfl
  | cons c text ih =>
    rw [List.foldl_cons, FILE.putc, if_pos full]
    exact ih

theorem store_store (p : Address) (c c' : Char) : store (store mem p c) p c' = store mem p c' := by
  funext q
  unfold store
  split_ifs <;> rfl

/-- The string that `vsnprintf()` is to leave. -/
def cut (siz : Address) (text : List Char) : List Char :=
  if siz = 0 then [] else text.take (siz.toNat - 1) ++ ['\x00']

/-- The memory that `vsnprintf()` leaves. -/
def left (mem : Memory) (s siz : Address) (text : List Char) : Memory :=
  let f := text.foldl FILE.putc ⟨mem, s + siz, s⟩
  if s ≠ 0 then
    let wp := if f.wp = f.rp then f.wp - 1 else f.wp
    if siz ≠ 0 then store f.mem wp '\x00' else f.mem
  else f.mem

theorem left_empty (s : Address) (text : List Char) : left mem s 0 text = mem := by
  have full : text.foldl FILE.putc ⟨mem, s + 0, s⟩ = ⟨mem, s + 0, s⟩ := putc_full _ (by simp) text
  unfold left
  rw [full]
  simp

theorem left_room {s siz : Address} (text : List Char) (nonnull : s ≠ 0) (some_ : siz ≠ 0)
    (room : s.toNat + siz.toNat < 2 ^ 64) : left mem s siz text = put mem s (cut siz text) := by
  have positive : siz.toNat ≠ 0 := fun zero => some_ (BitVec.toNat_inj.mp zero)
  have stored := putc_room mem s siz room text [] (Nat.zero_le _)
  rw [put_nil, List.nil_append, List.length_nil, Nat.sub_zero, Nat.zero_add] at stored
  have start : s + BitVec.ofNat 64 0 = s := BitVec.add_zero s
  rw [start] at stored
  unfold left cut
  rw [stored, if_neg some_]
  dsimp only
  rw [if_pos nonnull, if_pos some_]
  by_cases full : siz.toNat ≤ text.length
  · have last : siz.toNat - 1 < text.length := by omega
    have split : text.take siz.toNat = text.take (siz.toNat - 1) ++ [text[siz.toNat - 1]] := by
      rw [← List.take_succ_eq_append_getElem last]
      congr 1
      omega
    have size : (text.take (siz.toNat - 1)).length = siz.toNat - 1 := by
      rw [List.length_take]
      omega
    have before : s + siz - 1 = s + BitVec.ofNat 64 (siz.toNat - 1) := by
      apply BitVec.toNat_inj.mp
      rw [BitVec.toNat_sub, BitVec.toNat_add, BitVec.toNat_add, BitVec.toNat_ofNat]
      have one : (1 : Address).toNat = 1 := rfl
      omega
    have whole : s + BitVec.ofNat 64 (min text.length siz.toNat) = s + siz := by
      rw [Nat.min_eq_right full, BitVec.ofNat_toNat, BitVec.setWidth_eq]
    rw [whole, if_pos rfl, split, put_append _ _ _ _ (by omega), size, before, store_store,
      put_append _ _ _ _ (by omega), size]
  · have all : text.take siz.toNat = text := List.take_of_length_le (by omega)
    have all' : text.take (siz.toNat - 1) = text := List.take_of_length_le (by omega)
    have small : text.length < 2 ^ 64 := by omega
    have differs : s + BitVec.ofNat 64 text.length ≠ s + siz := by
      intro same
      have := congrArg BitVec.toNat (BitVec.add_right_inj s |>.mp same)
      rw [BitVec.toNat_ofNat, Nat.mod_eq_of_lt small] at this
      omega
    rw [Nat.min_eq_left (by omega), if_neg differs, all, all', put_append _ _ _ _ small]

theorem left_wrapped {s siz : Address} (text : List Char) (nonnull : s ≠ 0) (some_ : siz ≠ 0)
    (wraps : 2 ^ 64 ≤ s.toNat + siz.toNat) : left mem s siz text = put mem s ['\x00'] := by
  have positive : siz.toNat ≠ 0 := fun zero => some_ (BitVec.toNat_inj.mp zero)
  have low : (s + siz).toNat < s.toNat := by
    rw [BitVec.toNat_add]
    omega
  have full : text.foldl FILE.putc ⟨mem, s + siz, s⟩ = ⟨mem, s + siz, s⟩ :=
    putc_full _ (BitVec.le_def.mpr (Nat.le_of_lt low)) text
  have differs : s ≠ s + siz := by
    intro same
    rw [← same] at low
    exact Nat.lt_irrefl _ low
  unfold left
  rw [full]
  dsimp only
  rw [if_pos nonnull, if_pos some_, if_neg differs]
  have appended := put_append mem s [] '\x00' (by decide)
  rw [put_nil, List.nil_append, List.length_nil] at appended
  have start : s + BitVec.ofNat 64 0 = s := BitVec.add_zero s
  rw [appended, start]

theorem put_short (s : Address) (c d : Char) (text : List Char) :
    ¬ ∀ mem, put mem s ['\x00'] = put mem s (c :: d :: text) := by
  intro all
  have next := congrFun (all fun _ => if d = 'a' then 'b' else 'a') (s + 1)
  have offset : (s + 1 - s).toNat = 1 := by
    rw [BitVec.add_comm, BitVec.add_sub_cancel]
    rfl
  unfold put at next
  rw [offset] at next
  simp only [List.getD_cons_succ, List.getD_cons_zero, List.getD_nil] at next
  split_ifs at next with same
  · rw [same] at next
    exact absurd next (by decide)
  · exact same next.symm

/-- What the conversions without output add to the count. -/
def excess (inc : Option Nat) : List Piece → Option Nat
  | [] => some 0
  | .text chars :: pieces => excess (some chars.length) pieces
  | .silent :: pieces => inc.bind fun last => (excess inc pieces).map (last + ·)

theorem count_excess (pieces : List Piece) (inc : Option Nat) (cnt : Nat) :
    count inc cnt pieces = (excess inc pieces).map (cnt + (written pieces).length + ·) := by
  induction pieces generalizing inc cnt with
  | nil => simp [count, excess, written]
  | cons piece pieces ih =>
    cases piece with
    | text chars =>
      rw [count, excess, ih]
      congr 1
      funext e
      have more : (written (.text chars :: pieces)).length = chars.length + (written pieces).length :=
        List.length_append
      rw [more, Nat.add_assoc cnt]
    | silent =>
      rw [count, excess]
      cases inc with
      | none => rfl
      | some last =>
        rw [Option.bind_some, Option.bind_some, ih, Option.map_map]
        congr 1
        funext e
        have same : (written (.silent :: pieces)).length = (written pieces).length := rfl
        rw [same]
        change cnt + last + _ + e = cnt + _ + (last + e)
        omega

theorem result_length (pieces : List Piece) (err : Bool) :
    result pieces err = some ((written pieces).length : Int) ↔
      err = false ∧ (written pieces).length ≤ INT_MAX ∧ ∃ e, excess none pieces = some e ∧ 2 ^ 32 ∣ e := by
  rw [result, count_excess]
  cases err with
  | true =>
    simp only [EOF, if_true, Bool.true_eq_false, false_and, iff_false, Option.some.injEq]
    omega
  | false =>
    cases excess none pieces with
    | none => simp
    | some e =>
      simp only [Bool.false_eq_true, if_false, Option.map_some, Option.some.injEq, true_and, exists_eq_left',
        INT_MAX, Nat.zero_add, Int.bmod_def]
      split_ifs <;> omega

/-- What `vsnprintf()` writes in a buffer: for every format and its arguments, with the pieces that are
written, the value is the number of characters exactly when no wide character was refused, the number is
an `int`, and the conversions without output add nothing to it; the string is cut and ended as it should
exactly when the end of the buffer is an address, or one character or none was to be stored; and
`vsprintf()` stores the characters exactly when there are none. -/
theorem vsnprintf_iff {fmt : List Char} {args : List Arg} {pieces : List Piece} {err : Bool}
    (printed : print fmt args = some (pieces, err)) (s siz : Address) (buffer : siz ≠ 0 → s ≠ 0) :
    ((∀ mem, ∃ mem', vsnprintf mem s siz fmt args = some (some ((written pieces).length : Int), mem')) ↔
      err = false ∧ (written pieces).length ≤ INT_MAX ∧ ∃ e, excess none pieces = some e ∧ 2 ^ 32 ∣ e) ∧
    ((∀ mem, ∃ r, vsnprintf mem s siz fmt args = some (r, put mem s (cut siz (written pieces)))) ↔
      s.toNat + siz.toNat < 2 ^ 64 ∨ siz = 1 ∨ written pieces = []) ∧
    (s ≠ 0 → ((∀ mem, ∃ r, vsprintf mem s fmt args = some (r, put mem s (written pieces ++ ['\x00']))) ↔
      written pieces = [])) := by
  have call : ∀ mem siz, vsnprintf mem s siz fmt args =
      some (result pieces err, left mem s siz (written pieces)) := by
    intro mem siz
    rw [vsnprintf, printed]
    rfl
  refine ⟨?_, ?_, ?_⟩
  · rw [← result_length]
    constructor
    · intro all
      rcases all fun _ => ' ' with ⟨mem', returned⟩
      rw [call] at returned
      exact congrArg Prod.fst (Option.some.inj returned)
    · intro value mem
      exact ⟨_, (call mem siz).trans (by rw [value])⟩
  · have stores : (∀ mem, ∃ r, vsnprintf mem s siz fmt args = some (r, put mem s (cut siz (written pieces)))) ↔
        ∀ mem, left mem s siz (written pieces) = put mem s (cut siz (written pieces)) := by
      apply forall_congr'
      intro mem
      rw [call]
      constructor
      · rintro ⟨r, same⟩
        exact congrArg Prod.snd (Option.some.inj same)
      · intro same
        exact ⟨_, by rw [same]⟩
    rw [stores]
    by_cases none_ : siz = 0
    · subst none_
      constructor
      · intro _
        exact Or.inl (by have := s.isLt; simpa using this)
      · intro _ mem
        rw [left_empty, cut, if_pos rfl, put_nil]
    · have nonnull := buffer none_
      have positive : siz.toNat ≠ 0 := fun zero => none_ (BitVec.toNat_inj.mp zero)
      by_cases room : s.toNat + siz.toNat < 2 ^ 64
      · exact ⟨fun _ => Or.inl room, fun _ mem => left_room mem _ nonnull none_ room⟩
      · have wrapped := fun mem => left_wrapped mem (written pieces) nonnull none_ (Nat.le_of_not_lt room)
        constructor
        · intro all
          right
          by_contra other
          rw [not_or] at other
          have several : siz.toNat - 1 ≠ 0 := by
            intro single
            exact other.1 (BitVec.toNat_inj.mp (by change siz.toNat = 1; omega))
          rcases List.exists_cons_of_ne_nil other.2 with ⟨c, text, shape⟩
          rcases Nat.exists_eq_succ_of_ne_zero several with ⟨m, size⟩
          have two : ∃ d rest, cut siz (written pieces) = c :: d :: rest := by
            rw [cut, if_neg none_, shape, size, List.take_succ_cons]
            cases List.take m text with
            | nil => exact ⟨_, _, rfl⟩
            | cons d rest => exact ⟨_, _, rfl⟩
          rcases two with ⟨d, rest, shape⟩
          apply put_short s c d rest
          intro mem
          rw [← wrapped mem, all mem, shape]
        · rintro (fits | single | empty) mem
          · exact absurd fits room
          · rw [wrapped mem, cut, if_neg none_, single]
            rfl
          · rw [wrapped mem, cut, if_neg none_, empty, List.take_nil]
            rfl
  · intro nonnull
    have positive : s.toNat ≠ 0 := fun zero => nonnull (BitVec.toNat_inj.mp zero)
    have size : SIZE_MAX.toNat = 2 ^ 64 - 1 := by decide
    have wrapped := fun mem => left_wrapped mem (written pieces) nonnull (show SIZE_MAX ≠ 0 by decide)
      (by rw [size]; omega)
    constructor
    · intro all
      by_contra other
      rcases List.exists_cons_of_ne_nil other with ⟨c, text, shape⟩
      have two : ∃ d rest, written pieces ++ ['\x00'] = c :: d :: rest := by
        rw [shape]
        cases text with
        | nil => exact ⟨_, _, rfl⟩
        | cons d rest => exact ⟨_, _, rfl⟩
      rcases two with ⟨d, rest, shape⟩
      apply put_short s c d rest
      intro mem
      rcases all mem with ⟨r, same⟩
      rw [vsprintf, call] at same
      rw [← wrapped mem, ← shape]
      exact congrArg Prod.snd (Option.some.inj same)
    · intro empty mem
      refine ⟨result pieces err, ?_⟩
      rw [vsprintf, call, wrapped mem, empty]
      rfl

/-- Three characters, cut to a buffer of three. -/
theorem vsnprintf_abc : ∃ mem' : Memory, vsnprintf (fun _ => ' ') 16 3 ['a', 'b', 'c'] [] = some (some 3, mem') := by
  have printed : print ['a', 'b', 'c'] [] = some ([.text ['a'], .text ['b'], .text ['c']], false) := rfl
  exact (vsnprintf_iff printed 16 3 (by decide)).1.mpr ⟨rfl, by decide, 0, rfl, by decide⟩ fun _ => ' '

/-- `vsprintf()` stores no character of a format, and `%n` counts the piece before it again. -/
theorem vsprintf_drops : ¬ (∀ mem : Memory, ∃ r, vsprintf mem 16 ['a'] [] = some (r, put mem 16 ['a', '\x00'])) ∧
    (vsnprintf (fun _ => ' ') 16 8 ['a', '%', 'n'] [.word 0]).map Prod.fst = some (some 2) := by
  constructor
  · intro all
    rcases all fun _ => ' ' with ⟨r, same⟩
    have stored : (vsprintf (fun _ => ' ') 16 ['a'] []).map (fun out => out.2 16) = some 'a' := by
      rw [same]
      rfl
    exact absurd stored (by decide)
  · rfl

end Scc.Libc.Printf
