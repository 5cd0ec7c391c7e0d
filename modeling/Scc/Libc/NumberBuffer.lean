import Scc.Libc.Vfprintf

/-!
# The buffer of a number

`numtostr()` fills `buf` from its end: a NUL, the digits, the zeros of the precision, the prefix and the
sign. `Cursor` is its pointer with what has been written so far, the last character first, where an
index counts from the first element of `buf`. What is written is the text of `Printf.numtostr`, so the
indices follow from the length of that text.
-/

namespace Scc.Libc.Printf

set_option autoImplicit false

structure Cursor where
  buf : Int
  written : List (Int × Char)

/-- `*--buf = ch` -/
def Cursor.put (c : Cursor) (ch : Char) : Cursor := ⟨c.buf - 1, (c.buf - 1, ch) :: c.written⟩

/-- `*buf`, after the first write. -/
def Cursor.get (c : Cursor) : Option Char := c.written.head?.map Prod.snd

def Cursor.indices (c : Cursor) : List Int := c.written.map Prod.fst

namespace Cursor

def digits (digs : List Char) (base : Nat) : Nat → Nat → Cursor → Cursor
  | 0, _, c => c
  | fuel + 1, val, c =>
    let c := c.put (digs.getD (val % base) '0')
    if 0 < val / base then digits digs base fuel (val / base) c else c

/-- The loop that ends when `buf0 - buf` is the precision. -/
def zeros (buf0 : Int) (prec : Nat) : Nat → Cursor → Cursor
  | 0, c => c
  | fuel + 1, c => if buf0 - c.buf < prec then zeros buf0 prec fuel (c.put '0') else c

def numtostr (val : Nat) (flags : Nat) (conv : Conv) (base : Nat) (buf : Int) : Cursor :=
  let c : Cursor := ⟨buf, [(buf, '\x00')]⟩
  let c := digits conv.digs base 64 val c
  let c := zeros buf conv.prec conv.prec c
  let c :=
    if has flags ALTFORM then
      if base = 8 ∧ c.get ≠ some '0' then c.put '0'
      else if base = 16 ∧ val ≠ 0 then (c.put (conv.digs.getD 16 'X')).put '0'
      else c
    else c
  match conv.sign with
  | some sign => c.put sign
  | none => c

end Cursor

/-- The cases of the switch that go to `numeric`, with what they set and their base. -/
def numericCase (c : Char) (conv : Conv) : Option (Conv × Nat) :=
  match c with
  | 'u' => some ({ conv with flags := conv.flags ||| UNSIGNED }, 10)
  | 'i' => some (conv, 10)
  | 'd' => some (conv, 10)
  | 'p' => some ({ conv with
      digs := lower
      flags := conv.flags ||| VOIDPTR ||| ALTFORM ||| UNSIGNED }, 16)
  | 'x' => some ({ conv with digs := lower, flags := conv.flags ||| UNSIGNED }, 16)
  | 'X' => some ({ conv with flags := conv.flags ||| UNSIGNED }, 16)
  | 'o' => some ({ conv with flags := conv.flags ||| UNSIGNED }, 8)
  | _ => none

/-- The call of `numtostr()`, which begins at the last element of `buf`. -/
def numericCall (conv : Conv) (base : Nat) (bits : BitVec 64) : Cursor :=
  let (val, sign) := getnum bits conv.flags conv.sign
  Cursor.numtostr val conv.flags { conv with prec := min conv.prec MAXPREC, sign } base MAXPREC

theorem convert_numericCase {c : Char} {conv conv' : Conv} {base : Nat}
    (case : numericCase c conv = some (conv', base)) (p : Printer) :
    convert c conv p = numeric conv' base p := by
  unfold numericCase at case
  split at case <;> cases case <;> rfl

theorem numericCase_base {c : Char} {conv conv' : Conv} {base : Nat}
    (case : numericCase c conv = some (conv', base)) : base = 8 ∨ base = 10 ∨ base = 16 := by
  unfold numericCase at case
  split at case <;> cases case <;> simp

/-- The text in front of the NUL at `top`. -/
structure Cursor.Holds (top : Int) (c : Cursor) (s : List Char) : Prop where
  buf : c.buf = top - s.length
  text : c.written.map Prod.snd = s ++ ['\x00']
  indices : ∀ i, i ∈ c.indices ↔ top - s.length ≤ i ∧ i ≤ top

namespace Cursor.Holds

variable {top : Int} {c : Cursor} {s : List Char}

theorem start (top : Int) : Holds top ⟨top, [(top, '\x00')]⟩ [] where
  buf := by simp
  text := rfl
  indices := by
    intro i
    simp [Cursor.indices]
    omega

theorem put (holds : Holds top c s) (ch : Char) : Holds top (c.put ch) (ch :: s) where
  buf := by
    have := holds.buf
    simp [Cursor.put]
    omega
  text := by
    simp [Cursor.put, holds.text]
  indices := by
    intro i
    have here := holds.buf
    have before := holds.indices i
    simp only [Cursor.indices, Cursor.put, List.map_cons, List.mem_cons, List.length_cons] at before ⊢
    rw [before]
    omega

theorem get (holds : Holds top c s) : c.get = (s ++ ['\x00']).head? := by
  rw [← holds.text, Cursor.get, List.head?_map]

theorem digits (digs : List Char) (base fuel val : Nat) (holds : Holds top c s) :
    Holds top (c.digits digs base fuel val) (Printf.digits digs base fuel val s) := by
  induction fuel generalizing val c s with
  | zero => exact holds
  | succ fuel ih =>
    have next := holds.put (digs.getD (val % base) '0')
    unfold Cursor.digits Printf.digits
    dsimp only
    split_ifs with more
    · exact ih (val / base) next
    · exact next

theorem zeros (prec fuel : Nat) (holds : Holds top c s) (enough : prec - s.length ≤ fuel) :
    Holds top (c.zeros top prec fuel) (List.replicate (prec - s.length) '0' ++ s) := by
  induction fuel generalizing c s with
  | zero =>
    rw [Nat.le_zero.mp enough]
    exact holds
  | succ fuel ih =>
    have here := holds.buf
    unfold Cursor.zeros
    split_ifs with more
    · have left : prec - s.length = prec - ('0' :: s).length + 1 := by
        rw [List.length_cons]
        omega
      rw [left, List.replicate_succ', List.append_assoc]
      exact ih (holds.put '0') (by omega)
    · have full : prec - s.length = 0 := by omega
      rw [full]
      exact holds

end Cursor.Holds

theorem digits_first {digs : List Char} {base fuel val : Nat} {buf : List Char} (some_ : fuel ≠ 0) :
    Printf.digits digs base fuel val buf ≠ [] := by
  induction fuel generalizing val buf with
  | zero => exact absurd rfl some_
  | succ fuel ih =>
    unfold Printf.digits
    dsimp only
    split_ifs with more
    · cases fuel with
      | zero => simp [Printf.digits]
      | succ fuel => exact ih (Nat.succ_ne_zero fuel)
    · simp

theorem numtostr_holds (val flags : Nat) (conv : Conv) (base : Nat) (top : Int) :
    Cursor.Holds top (Cursor.numtostr val flags conv base top) (numtostr val flags conv base) := by
  have number := (Cursor.Holds.start top).digits conv.digs base 64 val
  have filled := number.zeros conv.prec conv.prec (Nat.sub_le _ _)
  have nonempty : List.replicate (conv.prec - (digits conv.digs base 64 val []).length) '0' ++
      digits conv.digs base 64 val [] ≠ [] := by
    simp [digits_first]
  have first : (Cursor.zeros top conv.prec conv.prec
      (Cursor.digits conv.digs base 64 val ⟨top, [(top, '\x00')]⟩)).get =
      (List.replicate (conv.prec - (digits conv.digs base 64 val []).length) '0' ++
        digits conv.digs base 64 val []).head? := by
    rcases List.exists_cons_of_ne_nil nonempty with ⟨ch, rest, same⟩
    rw [filled.get, same]
    rfl
  unfold Cursor.numtostr numtostr
  dsimp only
  rw [first]
  have prefixed : ∀ {c s}, Cursor.Holds top c s → Cursor.Holds top
      (match conv.sign with
        | some sign => c.put sign
        | none => c)
      (match conv.sign with
        | some sign => sign :: s
        | none => s) := by
    intro c s holds
    cases conv.sign with
    | none => exact holds
    | some sign => exact holds.put sign
  apply prefixed
  split_ifs
  · exact filled.put '0'
  · exact (filled.put _).put '0'
  · exact filled
  · exact filled

theorem digits_length_le (digs : List Char) {base : Nat} (positive : 0 < base) (fuel k val : Nat) (buf : List Char)
    (small : val < base ^ (k + 1)) : (digits digs base fuel val buf).length ≤ buf.length + (k + 1) := by
  induction fuel generalizing k val buf with
  | zero => exact Nat.le_add_right _ _
  | succ fuel ih =>
    unfold digits
    dsimp only
    split_ifs with more
    · cases k with
      | zero =>
        rw [zero_add, pow_one] at small
        rw [Nat.div_eq_of_lt small] at more
        omega
      | succ k =>
        have fewer : val / base < base ^ (k + 1) := by
          rw [Nat.div_lt_iff_lt_mul positive, ← Nat.pow_succ]
          exact small
        have := ih k (val / base) (digs.getD (val % base) '0' :: buf) fewer
        rw [List.length_cons] at this
        omega
    · simp

/-- The characters in front of the digits. -/
def lead (val flags base : Nat) (sign : Option Char) : Nat :=
  (if has flags ALTFORM ∧ base = 16 ∧ val ≠ 0 then 2 else 0) + if sign.isSome then 1 else 0

theorem getnum_lt (bits : BitVec 64) (flags : Nat) (sign : Option Char) : (getnum bits flags sign).1 < 2 ^ 64 := by
  have narrow : -2 ^ 31 ≤ int bits ∧ int bits < 2 ^ 31 :=
    ⟨BitVec.le_toInt _, BitVec.toInt_lt⟩
  have wide : -2 ^ 63 ≤ bits.toInt ∧ bits.toInt < 2 ^ 63 := ⟨BitVec.le_toInt bits, BitVec.toInt_lt⟩
  have bound := bits.isLt
  unfold getnum
  split_ifs <;> dsimp only <;> split_ifs <;> dsimp only <;> omega

theorem numtostr_length (val flags : Nat) (conv : Conv) {base : Nat} (bases : base = 8 ∨ base = 10 ∨ base = 16)
    (small : val < 2 ^ 64) (prec : conv.prec ≤ MAXPREC) : (numtostr val flags conv base).length ≤ MAXPREC ↔
      conv.prec + lead val flags base conv.sign ≤ MAXPREC := by
  have short : (digits conv.digs base 64 val []).length ≤ 22 := by
    apply digits_length_le conv.digs (by omega) 64 21 val []
    apply Nat.lt_of_lt_of_le small
    exact (by decide : 2 ^ 64 ≤ 8 ^ 22).trans (Nat.pow_le_pow_left (by omega) 22)
  unfold numtostr lead
  dsimp only
  generalize digits conv.digs base 64 val [] = number at short ⊢
  have zeros : 22 < conv.prec →
      (List.replicate (conv.prec - number.length) '0' ++ number).head? = some '0' := by
    intro many
    rw [show conv.prec - number.length = conv.prec - number.length - 1 + 1 by omega, List.replicate_succ]
    rfl
  unfold MAXPREC at prec ⊢
  cases conv.sign with
  | none =>
    split_ifs <;> simp <;> grind
  | some sign =>
    split_ifs <;> simp <;> grind

/-- `numtostr()` stays inside the buffer when the precision, at most `MAXPREC`, leaves room for the
prefix and the sign. -/
theorem numtostr_inside_iff (c : Char) (conv conv' : Conv) (base : Nat) (bits : BitVec 64)
    (case : numericCase c conv = some (conv', base)) :
    (∀ i ∈ (numericCall conv' base bits).indices, 0 ≤ i ∧ i ≤ MAXPREC) ↔
      min conv'.prec MAXPREC + lead (getnum bits conv'.flags conv'.sign).1 conv'.flags base
        (getnum bits conv'.flags conv'.sign).2 ≤ MAXPREC := by
  have small := getnum_lt bits conv'.flags conv'.sign
  unfold numericCall
  generalize getnum bits conv'.flags conv'.sign = given at small ⊢
  rcases given with ⟨val, sign⟩
  dsimp only at small ⊢
  have holds := numtostr_holds val conv'.flags { conv' with prec := min conv'.prec MAXPREC, sign } base MAXPREC
  rw [← numtostr_length val conv'.flags { conv' with prec := min conv'.prec MAXPREC, sign }
    (numericCase_base case) small (Nat.min_le_right _ _)]
  constructor
  · intro inside
    have last := (holds.indices (MAXPREC - (numtostr val conv'.flags
      { conv' with prec := min conv'.prec MAXPREC, sign } base).length)).mpr ⟨Int.le_refl _, by omega⟩
    have := inside _ last
    omega
  · intro room i mem
    have := (holds.indices i).mp mem
    omega

theorem numtostr_inside_iff_decimal :
    (∀ i ∈ (numericCall { Conv.initial with prec := 3 } 10 5).indices, 0 ≤ i ∧ i ≤ MAXPREC) ↔ 3 + 0 ≤ MAXPREC :=
  numtostr_inside_iff 'd' { Conv.initial with prec := 3 } { Conv.initial with prec := 3 } 10 5 rfl

/-- A sign in front of all the zeros of `%+.50d` is written before the buffer. -/
theorem numtostr_sign_outside : ¬ ∀ (c : Char) (conv conv' : Conv) (base : Nat) (bits : BitVec 64),
    numericCase c conv = some (conv', base) →
      ∀ i ∈ (numericCall conv' base bits).indices, 0 ≤ i ∧ i ≤ MAXPREC := by
  intro inside
  have before : (-1 : Int) ∈
      (numericCall { Conv.initial with sign := some '+', prec := 50 } 10 1).indices := by decide
  exact absurd (inside 'd' _ _ 10 1 rfl _ before).1 (by decide)

end Scc.Libc.Printf
