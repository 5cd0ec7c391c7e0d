import Scc.Cc1.Lex
import Scc.Lib.Numeral

/-!
# Escape sequences and the end of the line

`escape()` converts an escape sequence for the scanners of string and character literals. A pointer into
the line is the text that follows it, and at the end of the text it points to the terminating zero. A
pointer behind the zero is never read: what would read it gives nothing.
-/

namespace Scc.Cc1.Escape

open Scc.Lib
open Scc.Cc1.Lex (Text digit toChar STRINGSIZ INPUTSIZ)

set_option autoImplicit false

structure Line where
  text : Text
  nonzero : ∀ c ∈ text, c ≠ '\x00'
  fits : text.length < INPUTSIZ

/-- The loop over at most `cnt` digits: the value and how far the pointer goes. At the end of the text
`strchr()` finds the terminating zero, as the digit 16. -/
def digits (base : Nat) : Nat → Text → Nat → Option (Nat × Nat)
  | 0, _, c => some (c, 0)
  | cnt + 1, [], c =>
    if base < 16 then some (c, 0) else if cnt = 0 then some (c * base + 16, 1) else none
  | cnt + 1, p :: rest, c =>
    match digit p with
    | none => some (c, 0)
    | some d =>
      if base < d then some (c, 0)
      else (digits base cnt rest (c * base + d)).map fun (c, n) => (c, n + 1)

/-- `escape()` on the text behind the backslash: the value and how far from the backslash it leaves the
pointer. A universal character name reads `cnt` before it is set. -/
def escape (cnt : Nat) : Text → Option (Nat × Nat)
  | [] => some (32, 1)
  | 'a' :: _ => some (7, 1)
  | 'b' :: _ => some (8, 1)
  | 'f' :: _ => some (12, 1)
  | 'n' :: _ => some (10, 1)
  | 'r' :: _ => some (13, 1)
  | 't' :: _ => some (9, 1)
  | 'v' :: _ => some (11, 1)
  | '"' :: _ => some (34, 1)
  | '\'' :: _ => some (39, 1)
  | '\\' :: _ => some (92, 1)
  | '?' :: _ => some (63, 1)
  | 'u' :: rest => (digits 10 cnt rest 0).map fun (c, n) => (c, n + 1)
  | 'x' :: rest => (digits 16 2 rest 0).map fun (c, n) => (c, n + 1)
  | p :: rest => if '0' ≤ p ∧ p ≤ '7' then digits 8 3 (p :: rest) 0 else some (32, 1)

/-- The loop over the bytes that follow the first one of a multibyte character. -/
def continuation : Nat → Text → Nat → Nat × Nat
  | 0, _, wc => (wc, 0)
  | _ + 1, [], _ => (0xFFFD, 0)
  | i + 1, p :: rest, wc =>
    if p.toNat &&& 0xC0 ≠ 0x80 then (0xFFFD, 0)
    else
      let result := continuation i rest (wc <<< 6 ||| p.toNat &&& 0x3F)
      (result.1, result.2 + 1)

/-- The bits that are set in front of a byte. -/
def leading : Nat → Nat → Nat
  | 0, _ => 0
  | n + 1, c => if c &&& 0x80 ≠ 0 then leading n (c <<< 1) + 1 else 0

def utf8rune : Text → Nat × Nat
  | [] => (0, 0)
  | p :: rest =>
    let len := leading 8 p.toNat
    if len = 0 then (p.toNat, 0)
    else if len = 1 ∨ len = 8 then (0xFFFD, 0)
    else continuation (len - 1) rest (p.toNat >>> len)

def decode (cnt : Nat) (multi : Bool) : Text → Option (Nat × Nat)
  | [] => some (0, 0)
  | p :: rest =>
    if p = '\\' then escape cnt rest
    else if multi then some (utf8rune (p :: rest)) else some (p.toNat, 0)

/-- The loop of `character()`: the value, the number of characters and the text from the closing
quote on. -/
def runes (cnt : Nat) (multi : Bool) (p : Text) (i d : Nat) : Option (Nat × Nat × Text) :=
  if p.head? = some '\'' then some (d, i, p)
  else
    match decode cnt multi p with
    | none => none
    | some (r, n) =>
      if _inside : n + 1 ≤ p.length then runes cnt multi (p.drop (n + 1)) (i + 1) (d ||| r)
      else none
termination_by p.length
decreasing_by
  rw [List.length_drop]
  omega

def character (cnt : Nat) (p : Text) : Option (Nat × Nat × Text) :=
  let multi := p.head? = some 'L'
  let p := if multi then p.tail else p
  (runes cnt multi p.tail 0 0).map fun (d, i, p) => (d, i, p.tail)

inductive Error
  | missing | tooLong
deriving DecidableEq

/-- The loop that ignores the rest of a string that is too long. -/
def ignore : Text → Text
  | [] => []
  | ['\\'] => []
  | '\\' :: _ :: p => ignore p
  | c :: p => if c = '"' then c :: p else ignore p

/-- The loop of `string()`: the bytes, the text from the last character on, and the error. `bp` is what
is in `yytext`. -/
def bytes (cnt : Nat) (disescape : Bool) (bp : Text) (esc : Bool) (p : Text) :
    Option (Text × Text × Option Error) :=
  match p with
  | [] => some (bp, [], some .missing)
  | c :: rest =>
    if c = '"' ∧ esc = false then some (bp, c :: rest, none)
    else
      let esc := c = '\\' && !esc && disescape
      match (if c = '\\' ∧ esc = false then escape cnt rest else some (c.toNat, 0)) with
      | none => none
      | some (v, n) =>
        if _inside : n ≤ rest.length then
          if bp.length = STRINGSIZ then some (bp.dropLast, ignore (rest.drop n), some .tooLong)
          else bytes cnt disescape (bp ++ [toChar v]) esc (rest.drop n)
        else none
termination_by p.length
decreasing_by
  rw [List.length_drop, List.length_cons]
  omega

/-- `string()` on the text from the opening quote on. -/
def string (cnt : Nat) (disescape : Bool) (p : Text) : Option (Text × Text × Option Error) :=
  (bytes cnt disescape [] false p.tail).map fun (bp, p, error) => (bp, p.tail, error)

def simple : Char → Option Nat
  | '\'' => some 39
  | '"' => some 34
  | '?' => some 63
  | '\\' => some 92
  | 'a' => some 7
  | 'b' => some 8
  | 'f' => some 12
  | 'n' => some 10
  | 'r' => some 13
  | 't' => some 9
  | 'v' => some 11
  | _ => none

def isOctal (c : Char) : Bool := '0' ≤ c && c ≤ '7'

def isHex (c : Char) : Bool := (digit c).isSome

def number (base : Nat) (text : Text) : Nat := Numeral.value base (fun c => (digit c).getD 0) text

/-- The digits of an octal sequence, at most three. -/
def octals (text : Text) : Text := (text.take 3).takeWhile isOctal

/-- The value and the length of an escape sequence behind its backslash. -/
def sequence : Text → Option (Nat × Nat)
  | [] => none
  | c :: rest =>
    match simple c with
    | some v => some (v, 1)
    | none =>
      if c = 'x' then
        if rest.takeWhile isHex = [] then none
        else some (number 16 (rest.takeWhile isHex), (rest.takeWhile isHex).length + 1)
      else if isOctal c then some (number 8 (octals (c :: rest)), (octals (c :: rest)).length)
      else none

/-- A sequence gets its value, and the pointer stays on its last character. -/
def Converts (cnt : Nat) (text : Text) : Prop :=
  ∀ v n, sequence text = some (v, n) → escape cnt text = some (v, n)

/-- What the code needs: two hexadecimal digits, or one that is not the end of the line, and no `8`
behind an octal sequence of less than three digits. -/
def Supported : Text → Prop
  | [] => True
  | c :: rest =>
    if c = 'x' then
      (rest.takeWhile isHex).length = 0 ∨ (rest.takeWhile isHex).length = 2 ∨
        (rest.takeWhile isHex).length = 1 ∧ rest.length ≠ 1
    else if isOctal c then
      (octals (c :: rest)).length = 3 ∨ (c :: rest)[(octals (c :: rest)).length]? ≠ some '8'
    else True

/-- The line ends in an escape sequence, whose text behind the backslash this is. -/
def stops : Text → Bool
  | [] => true
  | ['x'] => true
  | ['x', c] => isHex c
  | _ => false

/-- A string literal, from behind its opening quote on, that is not terminated and whose last escape
sequence the line cuts. In the replacement list of a macro only a backslash behind a backslash begins
one. -/
def cut (disescape : Bool) : Text → Bool
  | [] => false
  | ['\\'] => !disescape
  | '\\' :: c :: rest =>
    if disescape then
      if c = '\\' then stops rest || cut disescape rest.tail else cut disescape rest
    else stops (c :: rest) || cut disescape rest
  | c :: rest => if c = '"' then false else cut disescape rest
termination_by p => p.length
decreasing_by
  · rw [List.length_tail, List.length_cons, List.length_cons]
    omega
  · rw [List.length_cons, List.length_cons]
    omega
  · rw [List.length_cons, List.length_cons]
    omega
  · exact Nat.lt_succ_self _

/-- A character literal, from behind its opening quote on, that is terminated. -/
def closed : Text → Bool
  | [] => false
  | ['\\'] => false
  | '\\' :: _ :: rest => closed rest
  | c :: rest => if c = '\'' then true else closed rest

/-- The text behind the opening quote of a character literal. -/
def behindQuote (p : Text) : Text := if p.head? = some 'L' then p.tail.tail else p.tail

variable {c a b : Char} {d : Nat} {rest text : Text}

theorem digit_lt (known : digit c = some d) : d < 16 := by
  unfold digit at known
  split_ifs at known with decimal upper lower
  · cases known
    have le := decimal.2
    rw [Char.le_def, UInt32.le_iff_toNat_le] at le
    change c.toNat ≤ 57 at le
    omega
  · cases known
    have le := upper.2
    rw [Char.le_def, UInt32.le_iff_toNat_le] at le
    change c.toNat ≤ 70 at le
    omega
  · cases known
    have le := lower.2
    rw [Char.le_def, UInt32.le_iff_toNat_le] at le
    change c.toNat ≤ 102 at le
    omega

/-- A character that neither quotes nor begins an escape sequence. -/
def Plain (c : Char) : Prop := c ≠ '\\' ∧ c ≠ '"' ∧ c ≠ '\''

theorem digit_plain (known : digit c = some d) : Plain c := by
  unfold Plain
  refine ⟨?_, ?_, ?_⟩ <;> rintro rfl <;> cases known

attribute [local simp] digits in
theorem digits_below {base : Nat} (small : base < 16) (cnt : Nat) (text : Text) (c : Nat) :
    ∃ v n, digits base cnt text c = some (v, n) ∧ n ≤ text.length ∧ ∀ q ∈ text.take n, Plain q := by
  induction cnt generalizing text c with
  | zero => exact ⟨c, 0, rfl, Nat.zero_le _, fun q member => by cases member⟩
  | succ cnt ih =>
    cases text with
    | nil =>
      refine ⟨c, 0, ?_, Nat.zero_le _, fun q member => by cases member⟩
      rw [digits, if_pos small]
    | cons p rest =>
      rw [digits]
      cases known : digit p with
      | none => exact ⟨c, 0, rfl, Nat.zero_le _, fun q member => by cases member⟩
      | some d =>
        by_cases large : base < d
        · refine ⟨c, 0, ?_, Nat.zero_le _, fun q member => by cases member⟩
          exact if_pos large
        · have ⟨v, n, later, inside, plain⟩ := ih rest (c * base + d)
          refine ⟨v, n + 1, ?_, Nat.succ_le_succ inside, ?_⟩
          · dsimp only
            rw [if_neg large, later]
            rfl
          · intro q member
            rcases List.mem_cons.mp member with rfl | member
            · exact digit_plain known
            · exact plain q member

theorem digits_hex_nil : digits 16 2 [] 0 = none := rfl

theorem digits_hex_none (other : digit a = none) : digits 16 2 (a :: rest) 0 = some (0, 0) := by
  rw [digits, other]

theorem digits_hex_end (known : digit a = some d) : digits 16 2 [a] 0 = some (d * 16 + 16, 2) := by
  have below := digit_lt known
  simp only [digits, known]
  rw [if_neg (by omega), Nat.zero_mul, Nat.zero_add]
  rfl

theorem digits_hex_one (known : digit a = some d)
    (other : digit b = none) : digits 16 2 (a :: b :: rest) 0 = some (d, 1) := by
  have below := digit_lt known
  simp only [digits, known, other]
  rw [if_neg (by omega), Nat.zero_mul, Nat.zero_add]
  rfl

theorem digits_hex_two {d e : Nat} (known : digit a = some d)
    (also_ : digit b = some e) : digits 16 2 (a :: b :: rest) 0 = some (d * 16 + e, 2) := by
  have below := digit_lt known
  have below' := digit_lt also_
  simp only [digits, known, also_]
  rw [if_neg (by omega), if_neg (by omega), Nat.zero_mul, Nat.zero_add]
  rfl

theorem isHex_none : isHex c = false ↔ digit c = none := by
  unfold isHex
  cases digit c <;> simp

theorem isHex_some : isHex c = true ↔ ∃ d, digit c = some d := by
  unfold isHex
  cases digit c <;> simp

theorem octal_first {c : Char} {rest : Text} (octal : '0' ≤ c ∧ c ≤ '7') :
    ∃ d ≤ 7, digit c = some d ∧ digits 8 3 (c :: rest) 0 =
      (digits 8 2 rest d).map fun (c, n) => (c, n + 1) := by
  have le := octal.2
  rw [Char.le_def, UInt32.le_iff_toNat_le] at le
  change c.toNat ≤ 55 at le
  have nine : c ≤ '9' := by
    rw [Char.le_def, UInt32.le_iff_toNat_le]
    change c.toNat ≤ 57
    omega
  have known : digit c = some (c.toNat - 48) := by
    unfold digit
    rw [if_pos ⟨octal.1, nine⟩]
  refine ⟨c.toNat - 48, by omega, known, ?_⟩
  rw [digits, known]
  dsimp only
  rw [if_neg (by omega), Nat.zero_mul, Nat.zero_add]

theorem escape_simple {cnt : Nat} {v : Nat} (known : simple c = some v) :
    escape cnt (c :: rest) = some (v, 1) := by
  unfold simple at known
  split at known <;> cases known <;> rfl

attribute [local simp] escape in
theorem escape_other {cnt : Nat} (other : simple c = none) (nu : c ≠ 'u')
    (nx : c ≠ 'x') : escape cnt (c :: rest) =
      if '0' ≤ c ∧ c ≤ '7' then digits 8 3 (c :: rest) 0 else some (32, 1) := by
  unfold escape
  split <;> rename_i same
  · cases same
  all_goals first
    | exact absurd other (by cases same; decide)
    | exact absurd (List.cons.inj same).1 nu
    | exact absurd (List.cons.inj same).1 nx
    | (cases same; rfl)

theorem hex_inside (whole : stops ('x' :: rest) = false) :
    ∃ v n, digits 16 2 rest 0 = some (v, n) ∧ n ≤ rest.length ∧ ∀ q ∈ rest.take n, Plain q := by
  cases rest with
  | nil => cases whole
  | cons a rest =>
    cases first : digit a with
    | none => exact ⟨0, 0, digits_hex_none first, Nat.zero_le _, nofun⟩
    | some d =>
      cases rest with
      | nil =>
        have hex : isHex a = true := isHex_some.mpr ⟨d, first⟩
        rw [stops, hex] at whole
        cases whole
      | cons b rest =>
        cases second : digit b with
        | none =>
          refine ⟨d, 1, digits_hex_one first second, Nat.succ_le_succ (Nat.zero_le _), ?_⟩
          intro q member
          rw [List.mem_singleton.mp member]
          exact digit_plain first
        | some e =>
          refine ⟨d * 16 + e, 2, digits_hex_two first second,
            Nat.succ_le_succ (Nat.succ_le_succ (Nat.zero_le _)), ?_⟩
          intro q member
          rcases List.mem_cons.mp member with rfl | member
          · exact digit_plain first
          · rw [List.mem_singleton.mp member]
            exact digit_plain second

theorem escape_inside {cnt : Nat} {text : Text} (whole : stops text = false) :
    ∃ v n, escape cnt text = some (v, n + 1) ∧ n + 1 ≤ text.length ∧ ∀ q ∈ text.tail.take n, Plain q := by
  cases text with
  | nil => cases whole
  | cons c rest =>
    cases known : simple c with
    | some v => exact ⟨v, 0, escape_simple known, Nat.succ_le_succ (Nat.zero_le _), nofun⟩
    | none =>
      by_cases nu : c = 'u'
      · subst nu
        have ⟨v, n, read, inside, plain⟩ := @digits_below 10 (by decide) cnt rest 0
        refine ⟨v, n, ?_, Nat.succ_le_succ inside, plain⟩
        rw [escape, read]
        rfl
      · by_cases nx : c = 'x'
        · subst nx
          have ⟨v, n, read, inside, plain⟩ := hex_inside whole
          refine ⟨v, n, ?_, Nat.succ_le_succ inside, plain⟩
          rw [escape, read]
          rfl
        · rw [escape_other known nu nx]
          split_ifs with octal
          · have ⟨d, _, _, first⟩ := @octal_first c rest octal
            have ⟨v, n, read, inside, plain⟩ := @digits_below 8 (by decide) 2 rest d
            refine ⟨v, n, ?_, Nat.succ_le_succ inside, plain⟩
            rw [first, read]
            rfl
          · exact ⟨32, 0, rfl, Nat.succ_le_succ (Nat.zero_le _), nofun⟩

theorem escape_outside {cnt : Nat} (cut_ : stops text = true) {v n : Nat}
    (read : escape cnt text = some (v, n)) : text.length < n := by
  unfold stops at cut_
  split at cut_
  · cases read
    decide
  · rw [escape, digits_hex_nil] at read
    cases read
  · have ⟨d, known⟩ := isHex_some.mp cut_
    rw [escape, digits_hex_end known] at read
    cases read
    exact Nat.lt_succ_self 2
  · cases cut_

variable (disescape : Bool)

theorem cut_plain (plain : Plain c) : cut disescape (c :: rest) = cut disescape rest := by
  have ⟨slash, quote, _⟩ := plain
  rw [cut]
  · rw [if_neg quote]
  · intro same
    exact absurd same slash
  · intro _ _ same
    exact absurd same slash

theorem cut_drop {n : Nat} (plain : ∀ q ∈ text.take n, Plain q) :
    cut disescape (text.drop n) = cut disescape text := by
  induction n generalizing text with
  | zero => rfl
  | succ n ih =>
    cases text with
    | nil => rfl
    | cons c rest =>
      rw [List.take_succ_cons] at plain
      rw [List.drop_succ_cons, cut_plain disescape (plain c List.mem_cons_self)]
      exact ih fun q member => plain q (List.mem_cons_of_mem c member)

variable {cnt : Nat} {bp : Text}

attribute [local simp] bytes in
theorem bytes_plain (esc : Bool)
    (other : ¬ (c = '"' ∧ esc = false)) (ordinary : c ≠ '\\') (room : bp.length < STRINGSIZ) :
    bytes cnt disescape bp esc (c :: rest) = bytes cnt disescape (bp ++ [toChar c.toNat]) false rest := by
  rw [bytes, if_neg other]
  simp only [ordinary, false_and, if_false, decide_false, Bool.false_and, Nat.zero_le, dite_true,
    Nat.ne_of_lt room, List.drop_zero]

theorem bytes_slash (esc : Bool) (read : esc = true ∨ disescape = false) (room : bp.length < STRINGSIZ) :
    bytes cnt disescape bp esc ('\\' :: rest) = (escape cnt rest).bind fun (v, n) =>
        if n ≤ rest.length then bytes cnt disescape (bp ++ [toChar v]) false (rest.drop n) else none := by
  have begins : (decide True && !esc && disescape) = false := by
    rcases read with rfl | rfl
    · rfl
    · rw [Bool.and_false]
  have inside : ¬ ('\\' = '"' ∧ esc = false) := fun both => absurd both.1 (by decide)
  rw [bytes, if_neg inside]
  simp only [begins, and_self, if_true]
  cases escape cnt rest with
  | none => rfl
  | some pair =>
    rcases pair with ⟨v, n⟩
    simp only [Nat.ne_of_lt room, if_false]
    rfl

theorem bytes_escape (disescape : Bool) {rest : Text} (esc : Bool)
    (read : esc = true ∨ disescape = false) (whole : stops rest = false) (room : bp.length < STRINGSIZ) :
    ∃ v n, (∀ q ∈ rest.tail.take n, Plain q) ∧ bytes cnt disescape bp esc ('\\' :: rest) =
      bytes cnt disescape (bp ++ [toChar v]) false (rest.tail.drop n) := by
  have ⟨v, n, known, inside, plain⟩ := @escape_inside cnt rest whole
  refine ⟨v, n, plain, ?_⟩
  rw [bytes_slash disescape esc read room, known]
  dsimp only [Option.bind]
  rw [if_pos inside, List.drop_tail]

theorem bytes_cut (esc : Bool) (read : esc = true ∨ disescape = false) (stop : stops rest = true)
    (room : bp.length < STRINGSIZ) : bytes cnt disescape bp esc ('\\' :: rest) = none := by
  rw [bytes_slash disescape esc read room]
  cases known : escape cnt rest with
  | none => rfl
  | some pair =>
    have outside := escape_outside stop known
    exact if_neg (Nat.not_le_of_lt outside)

theorem bytes_keep (room : bp.length < STRINGSIZ) :
    bytes cnt true bp false ('\\' :: rest) = bytes cnt true (bp ++ [toChar 92]) true rest := by
  rw [bytes, if_neg (by decide)]
  simp only [Nat.ne_of_lt room]
  rfl

theorem cut_slash : cut false ('\\' :: c :: rest) = (stops (c :: rest) || cut false rest) := by
  rw [cut]
  rfl

theorem cut_keep (other : c ≠ '\\') : cut true ('\\' :: c :: rest) = cut true rest := by
  rw [cut, if_pos rfl, if_neg other]

theorem cut_double : cut true ('\\' :: '\\' :: rest) = (stops rest || cut true rest.tail) := by
  rw [cut, if_pos rfl, if_pos rfl]

theorem bytes_iff (p : Text) (room : bp.length + p.length < STRINGSIZ) :
    bytes cnt disescape bp false p ≠ none ↔ cut disescape p = false := by
  induction size : p.length using Nat.strongRecOn generalizing p bp with
  | ind m ih =>
    cases p with
    | nil =>
      rw [bytes, cut]
      simp
    | cons c rest =>
      rw [List.length_cons] at room size
      have here : bp.length < STRINGSIZ := by omega
      by_cases quote : c = '"'
      · subst quote
        rw [bytes, if_pos ⟨rfl, rfl⟩, cut]
        · simp
        · intro same
          cases same
        · intro _ _ same
          cases same
      · by_cases slash : c = '\\'
        · subst slash
          cases disescape with
          | false =>
            cases stop : stops rest with
            | true =>
              rw [bytes_cut false false (Or.inr rfl) stop here]
              cases rest with
              | nil => simp [cut]
              | cons c rest => simp [cut_slash, stop]
            | false =>
              have ⟨v, n, plain, next⟩ := @bytes_escape cnt bp false rest false (Or.inr rfl) stop here
              cases rest with
              | nil => cases stop
              | cons c rest =>
                rw [List.length_cons] at room size
                rw [List.tail_cons] at plain next
                rw [next, cut_slash, stop, Bool.false_or, ← cut_drop false plain]
                apply ih (rest.drop n).length _ _ _ rfl
                · rw [List.length_drop]
                  omega
                · rw [List.length_append, List.length_singleton, List.length_drop]
                  omega
          | true =>
            rw [bytes_keep here]
            cases rest with
            | nil =>
              rw [bytes, cut]
              simp
            | cons c rest =>
              rw [List.length_cons] at room size
              have kept : (bp ++ [toChar 92]).length = bp.length + 1 := List.length_append
              by_cases double : c = '\\'
              · subst double
                rw [cut_double]
                cases stop : stops rest with
                | true =>
                  rw [bytes_cut true true (Or.inl rfl) stop (by omega)]
                  simp
                | false =>
                  have ⟨v, n, plain, next⟩ := @bytes_escape cnt (bp ++ [toChar 92]) true rest true
                    (Or.inl rfl) stop (by omega)
                  rw [next, Bool.false_or, ← cut_drop true plain]
                  apply ih (rest.tail.drop n).length _ _ _ rfl
                  · rw [List.length_drop, List.length_tail]
                    omega
                  · rw [List.length_append, List.length_singleton, kept, List.length_drop, List.length_tail]
                    omega
              · rw [bytes_plain true true (fun both => by cases both.2) double (by omega),
                  cut_keep double]
                apply ih rest.length (by omega) _ _ rfl
                rw [List.length_append, List.length_singleton]
                omega
        · rw [bytes_plain disescape false (fun both => quote both.1) slash here, cut]
          · rw [if_neg quote]
            apply ih rest.length (by omega) _ _ rfl
            rw [List.length_append, List.length_singleton]
            omega
          · intro same
            exact absurd same slash
          · intro _ _ same
            exact absurd same slash

theorem closed_plain (slash : c ≠ '\\') (quote : c ≠ '\'') : closed (c :: rest) = closed rest := by
  rw [closed]
  · rw [if_neg quote]
  · intro same
    exact absurd same slash
  · intro _ _ same
    exact absurd same slash

theorem closed_drop {n : Nat}
    (plain : ∀ q ∈ text.take n, q ≠ '\\' ∧ q ≠ '\'') : closed (text.drop n) = closed text := by
  induction n generalizing text with
  | zero => rfl
  | succ n ih =>
    cases text with
    | nil => rfl
    | cons c rest =>
      rw [List.take_succ_cons] at plain
      have ⟨slash, quote⟩ := plain c List.mem_cons_self
      rw [List.drop_succ_cons, closed_plain slash quote]
      exact ih fun q member => plain q (List.mem_cons_of_mem c member)

theorem continuation_inside (i : Nat) (text : Text) (wc : Nat) : (continuation i text wc).2 ≤ text.length ∧
      ∀ q ∈ text.take (continuation i text wc).2, q ≠ '\\' ∧ q ≠ '\'' := by
  induction i generalizing text wc with
  | zero => exact ⟨Nat.zero_le _, nofun⟩
  | succ i ih =>
    cases text with
    | nil => exact ⟨Nat.le_refl _, nofun⟩
    | cons p rest =>
      rw [continuation]
      split_ifs with other
      · exact ⟨Nat.zero_le _, nofun⟩
      · have ⟨inside, plain⟩ := ih rest (wc <<< 6 ||| p.toNat &&& 0x3F)
        refine ⟨Nat.succ_le_succ inside, ?_⟩
        intro q member
        rcases List.mem_cons.mp member with rfl | member
        · constructor
          · rintro rfl
            exact other (by decide)
          · rintro rfl
            exact other (by decide)
        · exact plain q member

theorem utf8rune_inside (p : Char) (rest : Text) : (utf8rune (p :: rest)).2 ≤ rest.length ∧
      ∀ q ∈ rest.take (utf8rune (p :: rest)).2, q ≠ '\\' ∧ q ≠ '\'' := by
  unfold utf8rune
  dsimp only
  split_ifs
  · exact ⟨Nat.zero_le _, nofun⟩
  · exact ⟨Nat.zero_le _, nofun⟩
  · exact continuation_inside _ rest _

theorem stops_open (stop : stops (c :: rest) = true) : closed rest = false := by
  unfold stops at stop
  split at stop
  · rename_i same
    cases same
  · rename_i same
    rw [(List.cons.inj same).2]
    rfl
  · rename_i digit_ same
    have ⟨d, known⟩ := isHex_some.mp stop
    have plain := digit_plain known
    rw [(List.cons.inj same).2, closed_plain plain.1 plain.2.2]
    rfl
  · cases stop

theorem runes_iff (cnt : Nat) (multi : Bool) (p : Text) (i d : Nat) :
    runes cnt multi p i d ≠ none ↔ closed p = true := by
  induction size : p.length using Nat.strongRecOn generalizing p i d with
  | ind m ih =>
    cases p with
    | nil =>
      rw [runes, closed]
      simp [decode]
    | cons c rest =>
      rw [List.length_cons] at size
      by_cases quote : c = '\''
      · subst quote
        rw [runes, closed]
        · simp
        · intro same
          cases same
        · intro _ _ same
          cases same
      · have open_ : ¬ (c :: rest).head? = some '\'' := fun same => quote (Option.some.inj same)
        rw [runes, if_neg open_]
        by_cases slash : c = '\\'
        · subst slash
          rw [decode, if_pos rfl]
          cases rest with
          | nil => simp [escape, closed]
          | cons c rest =>
            rw [List.length_cons] at size
            rw [closed]
            cases stop : stops (c :: rest) with
            | true =>
              rw [stops_open stop]
              cases known : escape cnt (c :: rest) with
              | none => simp
              | some pair =>
                have outside := escape_outside stop known
                rw [List.length_cons] at outside
                dsimp only
                rw [dif_neg (by rw [List.length_cons, List.length_cons]; omega)]
                simp
            | false =>
              have ⟨v, n, known, inside, plain⟩ := @escape_inside cnt (c :: rest) stop
              rw [List.length_cons] at inside
              rw [List.tail_cons] at plain
              rw [known]
              dsimp only
              rw [dif_pos (by rw [List.length_cons, List.length_cons]; omega),
                List.drop_succ_cons, List.drop_succ_cons,
                ← closed_drop fun q member => ⟨(plain q member).1, (plain q member).2.2⟩]
              apply ih (rest.drop n).length _ _ _ _ rfl
              rw [List.length_drop]
              omega
        · rw [closed_plain slash quote, decode, if_neg slash]
          have ⟨inside, plain⟩ := utf8rune_inside c rest
          have decoded : ∃ r n, (if multi then some (utf8rune (c :: rest)) else some (c.toNat, 0)) =
              some (r, n) ∧ n ≤ rest.length ∧ ∀ q ∈ rest.take n, q ≠ '\\' ∧ q ≠ '\'' := by
            cases multi with
            | true => exact ⟨_, _, rfl, inside, plain⟩
            | false => exact ⟨c.toNat, 0, rfl, Nat.zero_le _, nofun⟩
          have ⟨r, n, known, inside', plain'⟩ := decoded
          rw [known]
          dsimp only
          rw [dif_pos (by rw [List.length_cons]; omega), List.drop_succ_cons, ← closed_drop plain']
          apply ih (rest.drop n).length _ _ _ _ rfl
          rw [List.length_drop]
          omega

theorem character_iff (cnt : Nat) (p : Text) : character cnt p ≠ none ↔ closed (behindQuote p) = true := by
  unfold character behindQuote
  rw [ne_eq, Option.map_eq_none_iff]
  by_cases wide : p.head? = some 'L'
  · simp only [wide, decide_true, if_true]
    exact runes_iff cnt true p.tail.tail 0 0
  · simp only [wide, decide_false, if_false]
    exact runes_iff cnt false p.tail 0 0

theorem string_iff (line : Line) (cnt : Nat) (disescape : Bool) (k : Nat) :
    string cnt disescape (line.text.drop k) ≠ none ↔ cut disescape (line.text.drop k).tail = false := by
  have size : INPUTSIZ = STRINGSIZ := rfl
  have fits := line.fits
  unfold string
  rw [ne_eq, Option.map_eq_none_iff]
  apply bytes_iff
  rw [List.length_nil, List.length_tail, List.length_drop]
  omega

theorem number_one {base d : Nat} (known : digit a = some d) : number base [a] = d := by
  simp [number, Numeral.value, known]

theorem number_two {base d e : Nat} (first : digit a = some d)
    (second : digit b = some e) : number base [a, b] = d * base + e := by
  simp [number, Numeral.value, first, second]

theorem sequence_hex (rest : Text) : sequence ('x' :: rest) =
    if rest.takeWhile isHex = [] then none
    else some (number 16 (rest.takeWhile isHex), (rest.takeWhile isHex).length + 1) := rfl

theorem converts_hex (cnt : Nat) (rest : Text) : Converts cnt ('x' :: rest) ↔ Supported ('x' :: rest) := by
  unfold Converts
  rw [Supported, if_pos rfl, sequence_hex]
  cases rest with
  | nil =>
    apply iff_of_true
    · intro v n none_
      cases none_
    · exact Or.inl rfl
  | cons a rest =>
    cases first : digit a with
    | none =>
      rw [List.takeWhile_cons_of_neg (by rw [isHex_none.mpr first]; exact Bool.false_ne_true)]
      apply iff_of_true
      · intro v n none_
        cases none_
      · exact Or.inl rfl
    | some d =>
      have hex := isHex_some.mpr ⟨d, first⟩
      rw [List.takeWhile_cons_of_pos hex, if_neg (List.cons_ne_nil _ _)]
      cases rest with
      | nil =>
        apply iff_of_false
        · intro same
          have two := same _ _ rfl
          rw [escape, digits_hex_end first] at two
          have length : 3 = 2 := congrArg Prod.snd (Option.some.inj two)
          exact absurd length (by decide)
        · simp
      | cons b rest =>
        cases second : digit b with
        | none =>
          rw [List.takeWhile_cons_of_neg (by rw [isHex_none.mpr second]; exact Bool.false_ne_true)]
          apply iff_of_true
          · intro v n known
            have pair := Prod.mk.inj (Option.some.inj known)
            rw [escape, digits_hex_one first second, ← pair.1, ← pair.2, number_one first]
            rfl
          · exact Or.inr (Or.inr ⟨rfl, by simp⟩)
        | some e =>
          have hex' := isHex_some.mpr ⟨e, second⟩
          rw [List.takeWhile_cons_of_pos hex']
          have read : escape cnt ('x' :: a :: b :: rest) = some (d * 16 + e, 3) := by
            rw [escape, digits_hex_two first second]
            rfl
          rw [read]
          cases more : rest.takeWhile isHex with
          | nil =>
            apply iff_of_true
            · intro v n known
              have pair := Prod.mk.inj (Option.some.inj known)
              rw [← pair.1, ← pair.2, number_two first second]
              rfl
            · exact Or.inr (Or.inl rfl)
          | cons c more =>
            apply iff_of_false
            · intro same
              have longer := same _ _ rfl
              simp at longer
            · simp

theorem char_bounds (between : a ≤ c ∧ c ≤ b) : a.toNat ≤ c.toNat ∧ c.toNat ≤ b.toNat := by
  rw [Char.le_def, Char.le_def, UInt32.le_iff_toNat_le, UInt32.le_iff_toNat_le] at between
  exact between

theorem eight_digit : c = '8' ↔ digit c = some 8 := by
  constructor
  · rintro rfl
    rfl
  · intro known
    have eight : c.toNat = 56 := by
      unfold digit at known
      split_ifs at known with decimal upper lower
      · have bounds := char_bounds decimal
        have value := Option.some.inj known
        change 48 ≤ c.toNat ∧ c.toNat ≤ 57 at bounds
        omega
      · have bounds := char_bounds upper
        have value := Option.some.inj known
        change 65 ≤ c.toNat ∧ c.toNat ≤ 70 at bounds
        omega
      · have bounds := char_bounds lower
        have value := Option.some.inj known
        change 97 ≤ c.toNat ∧ c.toNat ≤ 102 at bounds
        omega
    rw [← Char.ofNat_toNat c, eight]

theorem octal_digit : isOctal c = true ↔ ∃ d ≤ 7, digit c = some d := by
  unfold isOctal
  rw [Bool.and_eq_true, decide_eq_true_eq, decide_eq_true_eq]
  constructor
  · intro octal
    have ⟨d, le, known, _⟩ := @octal_first c [] octal
    exact ⟨d, le, known⟩
  · rintro ⟨d, le, known⟩
    have bounds : 48 ≤ c.toNat ∧ c.toNat ≤ 55 := by
      unfold digit at known
      split_ifs at known with decimal upper lower
      · have bounds := char_bounds decimal
        have value := Option.some.inj known
        change 48 ≤ c.toNat ∧ c.toNat ≤ 57 at bounds
        omega
      · have bounds := char_bounds upper
        have value := Option.some.inj known
        change 65 ≤ c.toNat ∧ c.toNat ≤ 70 at bounds
        omega
      · have bounds := char_bounds lower
        have value := Option.some.inj known
        change 97 ≤ c.toNat ∧ c.toNat ≤ 102 at bounds
        omega
    rw [Char.le_def, Char.le_def, UInt32.le_iff_toNat_le, UInt32.le_iff_toNat_le]
    exact bounds

theorem digits_octal (cnt : Nat) (text : Text) (c : Nat) :
    digits 8 cnt text c = some (((text.take cnt).takeWhile isOctal).foldl
        (fun v c => v * 8 + (digit c).getD 0) c, ((text.take cnt).takeWhile isOctal).length) ↔
      ((text.take cnt).takeWhile isOctal).length = cnt ∨
        text[((text.take cnt).takeWhile isOctal).length]? ≠ some '8' := by
  induction cnt generalizing text c with
  | zero => exact iff_of_true rfl (Or.inl rfl)
  | succ cnt ih =>
    cases text with
    | nil => exact iff_of_true rfl (Or.inr (by simp))
    | cons p rest =>
      rw [List.take_succ_cons]
      by_cases octal : isOctal p = true
      · have ⟨d, le, known⟩ := octal_digit.mp octal
        have later := ih rest (c * 8 + d)
        rw [List.takeWhile_cons_of_pos octal, List.foldl_cons, known, List.length_cons,
          List.getElem?_cons_succ, Nat.add_right_cancel_iff, Option.getD_some, ← later, digits, known]
        dsimp only
        rw [if_neg (by omega)]
        cases digits 8 cnt rest (c * 8 + d) with
        | none => simp
        | some pair =>
          rcases pair with ⟨v, n⟩
          simp
      · rw [List.takeWhile_cons_of_neg octal]
        rw [digits]
        cases known : digit p with
        | none =>
          apply iff_of_true rfl
          refine Or.inr fun eight => ?_
          rw [eight_digit.mp (Option.some.inj eight)] at known
          cases known
        | some d =>
          have large : 7 < d := by
            by_contra small
            exact octal (octal_digit.mpr ⟨d, by omega, known⟩)
          dsimp only
          by_cases eight : d = 8
          · rw [eight] at known
            rw [eight, if_neg (by decide)]
            apply iff_of_false
            · cases digits 8 cnt rest (c * 8 + 8) with
              | none => simp
              | some pair => simp
            · rw [eight_digit.mpr known]
              simp
          · rw [if_pos (by omega)]
            apply iff_of_true rfl
            refine Or.inr fun same => ?_
            rw [eight_digit.mp (Option.some.inj same)] at known
            exact eight (Option.some.inj known).symm

theorem octal_not_simple (octal : isOctal c = true) : simple c = none ∧ c ≠ 'u' ∧ c ≠ 'x' := by
  refine ⟨?_, ?_, ?_⟩
  · unfold simple
    split <;> first | rfl | exact absurd octal (by decide)
  · rintro rfl
    exact absurd octal (by decide)
  · rintro rfl
    exact absurd octal (by decide)

theorem converts_octal (cnt : Nat) (rest : Text) (octal : isOctal c = true) :
    Converts cnt (c :: rest) ↔ Supported (c :: rest) := by
  have ⟨other, nu, nx⟩ := octal_not_simple octal
  have bounds : '0' ≤ c ∧ c ≤ '7' := by
    unfold isOctal at octal
    rwa [Bool.and_eq_true, decide_eq_true_eq, decide_eq_true_eq] at octal
  have value := digits_octal 3 (c :: rest) 0
  unfold Converts
  rw [Supported, if_neg nx, if_pos octal, sequence, other]
  dsimp only
  rw [if_neg nx, if_pos octal, escape_other other nu nx, if_pos bounds]
  unfold octals
  rw [← value]
  constructor
  · intro same
    exact same _ _ rfl
  · intro read v n known
    cases known
    exact read

theorem converts_iff (cnt : Nat) (text : Text) : Converts cnt text ↔ Supported text := by
  cases text with
  | nil => exact iff_of_true (fun v n none_ => by cases none_) trivial
  | cons c rest =>
    by_cases nx : c = 'x'
    · subst nx
      exact converts_hex cnt rest
    · by_cases octal : isOctal c = true
      · exact converts_octal cnt rest octal
      · apply iff_of_true
        · intro v n known
          cases isSimple : simple c with
          | some w =>
            rw [sequence, isSimple] at known
            cases known
            exact escape_simple isSimple
          | none =>
            rw [sequence, isSimple] at known
            dsimp only at known
            rw [if_neg nx, if_neg octal] at known
            cases known
        · rw [Supported, if_neg nx, if_neg octal]
          trivial

/-- The conversion of a sequence, and the ends of the scans, at any place of a line. -/
theorem literals_iff (line : Line) (cnt : Nat) (disescape : Bool) (k : Nat) :
    (Converts cnt (line.text.drop k) ↔ Supported (line.text.drop k)) ∧
      (string cnt disescape (line.text.drop k) ≠ none ↔ cut disescape (line.text.drop k).tail = false) ∧
      (character cnt (line.text.drop k) ≠ none ↔ closed (behindQuote (line.text.drop k)) = true) :=
  ⟨converts_iff cnt _, string_iff line cnt disescape k, character_iff cnt _⟩

/-- `"\08"` is the character zero and the digit `8`; the code takes both as one sequence of value 8. -/
theorem eight_not_octal : ¬ ∀ (line : Line) (cnt : Nat) (disescape : Bool) (k : Nat),
      Converts cnt (line.text.drop k) ∧ string cnt disescape (line.text.drop k) ≠ none ∧
        character cnt (line.text.drop k) ≠ none := by
  intro all
  have eight := (all ⟨['"', '\\', '0', '8', '"'], by simp, by decide⟩ 0 false 2).1 0 1 rfl
  have value : 8 = 0 := congrArg Prod.fst (Option.some.inj eight)
  exact absurd value (by decide)

end Scc.Cc1.Escape
