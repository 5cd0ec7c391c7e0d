import Scc.Cc1.Escape

/-!
# String literals in preprocessed text

`outcpp()` writes the token of a string literal with escape sequences of its own: a byte that is no
printing character of ASCII becomes a hexadecimal sequence with as many digits as its value has, and the
value of a `char` from 128 on is negative. `string()` reads at most two of these digits. The literal is
read again exactly when its bytes lie between 1 and 127 and no hexadecimal digit follows a sequence of
one digit.
-/

namespace Scc.Cc1.OutCpp

open Scc.Cc1.Lex (Text digit toChar STRINGSIZ)
open Scc.Cc1.Escape

set_option autoImplicit false

/-- The token of a string literal, whose text holds the bytes between two quotes. -/
structure Literal where
  bytes : Text
  small : ∀ c ∈ bytes, c.toNat < 256
  fits : bytes.length ≤ STRINGSIZ

def Literal.yytext (l : Literal) : Text := '"' :: (l.bytes ++ ['"'])

/-- `isprint()`, which is false for a negative value. -/
def isprint (c : Char) : Bool := 32 ≤ c.toNat && c.toNat < 127

/-- A `char`, which has a sign, as the `unsigned` that `%x` takes. -/
def promoted (c : Char) : Nat := if c.toNat < 128 then c.toNat else c.toNat + 0xFFFFFF00

def hexDigit (d : Nat) : Char := if d < 10 then Char.ofNat (d + 48) else Char.ofNat (d + 87)

/-- The format `%x`. -/
def hex (n : Nat) : Text := if n < 16 then [hexDigit n] else hex (n / 16) ++ [hexDigit (n % 16)]

/-- The cases of the switch, in which a quote is an inner one. -/
def printed (c : Char) : Text :=
  match c with
  | '\n' => ['\\', 'n']
  | '\x0b' => ['\\', 'v']
  | '\x08' => ['\\', 'b']
  | '\t' => ['\\', 't']
  | '\x07' => ['\\', 'a']
  | '\x0c' => ['\\', 'f']
  | '\r' => ['\\', 'r']
  | '"' => ['\\', '"']
  | '\'' => ['\\', '\'']
  | '?' => ['\\', '?']
  | '\\' => ['\\', '\\']
  | c => if isprint c then [c] else '\\' :: 'x' :: hex (promoted c)

/-- The loop up to the terminating zero, on the first character or behind it. -/
def print : Bool → Text → Text
  | _, [] => []
  | first, c :: s =>
    if c = '\x00' then []
    else
      (if c = '"' ∧ (first ∨ s.headD '\x00' = '\x00') then ['"'] else printed c) ++ print false s

/-- What `outcpp()` writes for the token, with the blank behind it. -/
def outcpp (l : Literal) : Text := print true l.yytext ++ [' ']

variable {cnt : Nat} {bp : Text}

theorem toChar_small (v : Nat) : (toChar v).toNat < 256 := by
  have valid : (v % 256).isValidChar := Or.inl (by omega)
  have same : (toChar v).toNat = v % 256 := by
    unfold toChar Char.ofNat
    rw [dif_pos valid]
    rfl
  rw [same]
  exact Nat.mod_lt _ (by decide)

variable {c : Char} {out p q rest tail s l : Text} {n v : Nat}

theorem toChar_toNat (small : c.toNat < 256) : toChar c.toNat = c := by
  unfold toChar
  rw [Nat.mod_eq_of_lt small, Char.ofNat_toNat]

theorem bytes_small {disescape esc : Bool} {error : Option Error}
    (room : bp.length ≤ STRINGSIZ) (small : ∀ c ∈ bp, c.toNat < 256)
    (read : bytes cnt disescape bp esc p = some (out, q, error)) :
    out.length ≤ STRINGSIZ ∧ ∀ c ∈ out, c.toNat < 256 := by
  induction size : p.length using Nat.strongRecOn generalizing p bp esc with
  | ind m ih =>
    cases p with
    | nil =>
      rw [bytes] at read
      cases read
      exact ⟨room, small⟩
    | cons c rest =>
      rw [bytes] at read
      split_ifs at read with quote full
      · cases read
        exact ⟨room, small⟩
      · dsimp only at read
        split at read
        · cases read
        · split_ifs at read
          cases read
          constructor
          · rw [List.length_dropLast]
            omega
          · exact fun c member => small c (List.dropLast_subset bp member)
      · dsimp only at read
        split at read
        · cases read
        · rename_i v n _
          split_ifs at read
          have less : (rest.drop n).length < m := by
            rw [← size, List.length_drop, List.length_cons]
            omega
          apply ih _ less _ _ read rfl
          · rw [List.length_append, List.length_singleton]
            omega
          · intro c member
            cases List.mem_append.mp member with
            | inl old => exact small c old
            | inr new =>
              rw [List.mem_singleton.mp new]
              exact toChar_small v

theorem string_literal {disescape : Bool} {error : Option Error}
    (read : string cnt disescape p = some (out, q, error)) : ∃ l : Literal, l.bytes = out := by
  unfold string at read
  rw [Option.map_eq_some_iff] at read
  have ⟨⟨bp, q', error'⟩, scanned, same⟩ := read
  cases same
  have ⟨fits, small⟩ := bytes_small (Nat.zero_le _) (fun _ none => by cases none) scanned
  exact ⟨⟨out, small, fits⟩, rfl⟩

theorem bytes_extends {disescape esc : Bool}
    (read : bytes cnt disescape bp esc p = some (out, q, none)) : bp <+: out := by
  induction size : p.length using Nat.strongRecOn generalizing p bp esc with
  | ind m ih =>
    cases p with
    | nil =>
      rw [bytes] at read
      cases read
    | cons c rest =>
      rw [bytes] at read
      split_ifs at read with quote full
      · cases read
        exact List.prefix_rfl
      · dsimp only at read
        split at read
        · cases read
        · split_ifs at read
          cases read
      · dsimp only at read
        split at read
        · cases read
        · rename_i v n _
          split_ifs at read
          have less : (rest.drop n).length < m := by
            rw [← size, List.length_drop, List.length_cons]
            omega
          exact (List.prefix_append bp [toChar v]).trans (ih _ less read rfl)

theorem bytes_sequence (known : escape cnt rest = some (v, n))
    (inside : n ≤ rest.length) (room : bp.length < STRINGSIZ) : bytes cnt false bp false ('\\' :: rest) =
      bytes cnt false (bp ++ [toChar v]) false (rest.drop n) := by
  rw [bytes_slash false false (Or.inr rfl) room, known, Option.bind_some]
  exact if_pos inside

theorem bytes_simple {k : Char} (known : simple k = some v) (room : bp.length < STRINGSIZ) :
    bytes cnt false bp false ('\\' :: k :: tail) = bytes cnt false (bp ++ [toChar v]) false tail :=
  bytes_sequence (escape_simple known) (Nat.succ_le_succ (Nat.zero_le _)) room

theorem bytes_hex_one {a b : Char} {d : Nat} (known : digit a = some d)
    (other : digit b = none) (room : bp.length < STRINGSIZ) :
    bytes cnt false bp false ('\\' :: 'x' :: a :: b :: tail) =
      bytes cnt false (bp ++ [toChar d]) false (b :: tail) := by
  have read : escape cnt ('x' :: a :: b :: tail) = some (d, 2) := by
    rw [escape, digits_hex_one known other]
    rfl
  have inside : 2 ≤ ('x' :: a :: b :: tail).length := by
    simp only [List.length_cons]
    omega
  exact bytes_sequence read inside room

theorem bytes_hex_two {a b : Char} {d e : Nat} (known : digit a = some d)
    (also_ : digit b = some e) (room : bp.length < STRINGSIZ) :
    bytes cnt false bp false ('\\' :: 'x' :: a :: b :: tail) =
      bytes cnt false (bp ++ [toChar (d * 16 + e)]) false tail := by
  have read : escape cnt ('x' :: a :: b :: tail) = some (d * 16 + e, 3) := by
    rw [escape, digits_hex_two known also_]
    rfl
  have inside : 3 ≤ ('x' :: a :: b :: tail).length := by
    simp only [List.length_cons]
    omega
  exact bytes_sequence read inside room

theorem digit_hexDigit {d : Nat} (small : d < 16) : digit (hexDigit d) = some d := by
  have every : ∀ d : Fin 16, digit (hexDigit d) = some d.val := by decide
  exact every ⟨d, small⟩

theorem hex_one (small : n < 16) : hex n = [hexDigit n] := by
  rw [hex, if_pos small]

theorem hex_step (large : 16 ≤ n) : hex n = hex (n / 16) ++ [hexDigit (n % 16)] := by
  rw [hex, if_neg (by omega)]

theorem hex_two (large : 16 ≤ n) (small : n < 256) : hex n = [hexDigit (n / 16), hexDigit (n % 16)] := by
  rw [hex_step large, hex_one (by omega)]
  rfl

theorem hex_top : hex 0xFFFFFF = ['f', 'f', 'f', 'f', 'f', 'f'] := by
  have digits : ∀ n, hex (16 * n + 15) = (if n = 0 then [] else hex n) ++ ['f'] := by
    intro n
    split_ifs with zero
    · rw [zero, hex_one (by decide)]
      rfl
    · have up : (16 * n + 15) / 16 = n := by omega
      have low : (16 * n + 15) % 16 = 15 := by omega
      rw [hex_step (by omega), up, low]
      rfl
  rw [digits 0xFFFFF, if_neg (by decide), digits 0xFFFF, if_neg (by decide), digits 0xFFF,
    if_neg (by decide), digits 0xFF, if_neg (by decide), digits 0xF, if_neg (by decide), digits 0]
  rfl

/-- The digits of a negative value in front of the two of its byte. -/
def surplus : Text := ['f', 'f', 'f', 'f', 'f', 'f']

theorem hex_negative (small : n < 256) :
    hex (n + 0xFFFFFF00) = surplus ++ [hexDigit (n / 16), hexDigit (n % 16)] := by
  have top : (n + 0xFFFFFF00) / 16 / 16 = 0xFFFFFF := by omega
  have high : (n + 0xFFFFFF00) / 16 % 16 = n / 16 := by omega
  have low : (n + 0xFFFFFF00) % 16 = n % 16 := by omega
  rw [hex_step (by omega), hex_step (by omega), top, hex_top, high, low]
  rfl

/-- A byte whose sequence has one hexadecimal digit. -/
def OneDigit (c : Char) : Prop := c.toNat < 7 ∨ c.toNat = 14 ∨ c.toNat = 15

instance (c : Char) : Decidable (OneDigit c) :=
  inferInstanceAs (Decidable (c.toNat < 7 ∨ c.toNat = 14 ∨ c.toNat = 15))

/-- The characters with a sequence of one letter. -/
def letters : Text :=
  ['\n', '\x0b', '\x08', '\t', '\x07', '\x0c', '\r', '"', '\'', '?', '\\']

theorem printed_letter : ∀ c ∈ letters, ∃ k, simple k = some c.toNat ∧ printed c = ['\\', k] := by
  unfold letters
  simp only [List.forall_mem_cons]
  exact ⟨⟨'n', rfl, rfl⟩, ⟨'v', rfl, rfl⟩, ⟨'b', rfl, rfl⟩, ⟨'t', rfl, rfl⟩, ⟨'a', rfl, rfl⟩,
    ⟨'f', rfl, rfl⟩, ⟨'r', rfl, rfl⟩, ⟨'"', rfl, rfl⟩, ⟨'\'', rfl, rfl⟩, ⟨'?', rfl, rfl⟩,
    ⟨'\\', rfl, rfl⟩, nofun⟩

theorem printed_other (other : c ∉ letters) :
    printed c = if isprint c then [c] else '\\' :: 'x' :: hex (promoted c) := by
  unfold printed
  split <;> first | exact absurd (by decide) other | rfl

theorem printed_char (other : c ∉ letters) (large : 32 ≤ c.toNat)
    (below : c.toNat < 127) : printed c = [c] := by
  have prints : isprint c = true := by
    unfold isprint
    rw [Bool.and_eq_true, decide_eq_true_eq, decide_eq_true_eq]
    exact ⟨large, below⟩
  rw [printed_other other, if_pos prints]

theorem printed_hex (other : c ∉ letters) (control : c.toNat < 32 ∨ 127 ≤ c.toNat) :
    printed c = '\\' :: 'x' :: hex (promoted c) := by
  have silent : ¬ isprint c = true := by
    unfold isprint
    rw [Bool.and_eq_true, decide_eq_true_eq, decide_eq_true_eq]
    omega
  rw [printed_other other, if_neg silent]

theorem printed_one (one : OneDigit c) : printed c = ['\\', 'x', hexDigit c.toNat] := by
  have all : letters.all (fun c => !decide (OneDigit c)) = true := by decide
  have every : ∀ c ∈ letters, ¬ OneDigit c := by
    simpa only [List.all_eq_true, Bool.not_eq_true', decide_eq_false_iff_not] using all
  have few : c.toNat < 16 := by unfold OneDigit at one; omega
  have same : promoted c = c.toNat := if_pos (by omega)
  rw [printed_hex (fun member => every c member one) (by omega), same, hex_one few]

theorem printed_negative (large : 128 ≤ c.toNat) (small : c.toNat < 256) : printed c = '\\' :: 'x' ::
      (surplus ++ [hexDigit (c.toNat / 16), hexDigit (c.toNat % 16)]) := by
  have all : letters.all (fun c => c.toNat < 128) = true := by decide
  have every : ∀ c ∈ letters, c.toNat < 128 := by
    simpa only [List.all_eq_true, decide_eq_true_eq] using all
  have other : c ∉ letters := fun member => absurd (every c member) (by omega)
  have same : promoted c = c.toNat + 0xFFFFFF00 := if_neg (by omega)
  rw [printed_hex other (by omega), same, hex_negative small]

/-- What the switch writes: a sequence of one letter, the character, or a hexadecimal sequence. -/
inductive Shape (c : Char) : Prop
  | letter (k : Char) (known : simple k = some c.toNat) (text : printed c = ['\\', k])
  | char (plain : Plain c) (text : printed c = [c])
  | one (digit : OneDigit c)
  | two (large : 16 ≤ c.toNat) (below : c.toNat < 128)
      (text : printed c = ['\\', 'x', hexDigit (c.toNat / 16), hexDigit (c.toNat % 16)])
  | negative (large : 128 ≤ c.toNat)

theorem shape (c : Char) : Shape c := by
  by_cases letter : c ∈ letters
  · have ⟨k, known, text⟩ := printed_letter c letter
    exact .letter k known text
  · have plain : Plain c := by
      have every : ∀ k ∈ letters, c ≠ k := fun k member same => letter (same ▸ member)
      exact ⟨every '\\' (by decide), every '"' (by decide), every '\'' (by decide)⟩
    by_cases large : 128 ≤ c.toNat
    · exact .negative large
    · by_cases prints : 32 ≤ c.toNat ∧ c.toNat < 127
      · exact .char plain (printed_char letter prints.1 prints.2)
      · by_cases few : c.toNat < 16
        · have number : ∀ k ∈ letters, c.toNat ≠ k.toNat := by
            intro k member same
            apply letter
            rw [← Char.ofNat_toNat c, same, Char.ofNat_toNat]
            exact member
          unfold letters at number
          simp only [List.forall_mem_cons] at number
          have ⟨ten, eleven, eight, nine, seven, twelve, thirteen, _⟩ := number
          apply Shape.one
          change c.toNat ≠ 10 at ten
          change c.toNat ≠ 11 at eleven
          change c.toNat ≠ 8 at eight
          change c.toNat ≠ 9 at nine
          change c.toNat ≠ 7 at seven
          change c.toNat ≠ 12 at twelve
          change c.toNat ≠ 13 at thirteen
          unfold OneDigit
          omega
        · have text := printed_hex letter (by omega)
          have same : promoted c = c.toNat := if_pos (by omega)
          rw [same, hex_two (by omega) (by omega)] at text
          exact .two (by omega) (by omega) text

/-- Every byte lies between 1 and 127, and no hexadecimal digit follows a sequence of one digit. -/
def Readable : Text → Prop
  | [] => True
  | c :: rest =>
    c ≠ '\x00' ∧ c.toNat < 128 ∧ (OneDigit c → rest.head?.any isHex = false) ∧ Readable rest

theorem bytes_printed (below : c.toNat < 128) (more : tail ≠ [])
    (single : OneDigit c → tail.head?.any isHex = false) (room : bp.length < STRINGSIZ) :
    bytes cnt false bp false (printed c ++ tail) = bytes cnt false (bp ++ [c]) false tail := by
  have kept : toChar c.toNat = c := toChar_toNat (by omega)
  cases shape c with
  | letter k known text =>
    rw [text, List.cons_append, List.singleton_append, bytes_simple known room, kept]
  | char plain text =>
    have ⟨slash, quote, _⟩ := plain
    rw [text, List.singleton_append, bytes_plain false false (fun both => quote both.1) slash room,
      kept]
  | one digit =>
    have few : c.toNat < 16 := by unfold OneDigit at digit; omega
    cases tail with
    | nil => exact absurd rfl more
    | cons b tail =>
      have other := isHex_none.mp (single digit)
      rw [printed_one digit]
      change bytes cnt false bp false ('\\' :: 'x' :: hexDigit c.toNat :: b :: tail) = _
      rw [bytes_hex_one (digit_hexDigit few) other room, kept]
  | two large _ text =>
    have high := @digit_hexDigit (c.toNat / 16) (by omega)
    have low := @digit_hexDigit (c.toNat % 16) (by omega)
    have whole : c.toNat / 16 * 16 + c.toNat % 16 = c.toNat := by omega
    rw [text]
    change bytes cnt false bp false
      ('\\' :: 'x' :: hexDigit (c.toNat / 16) :: hexDigit (c.toNat % 16) :: tail) = _
    rw [bytes_hex_two high low room, whole, kept]
  | negative large => omega

theorem print_inner (nonzero : c ≠ '\x00')
    (inner : c = '"' → s.headD '\x00' ≠ '\x00') :
    print false (c :: s) = printed c ++ print false s := by
  rw [print, if_neg nonzero, if_neg]
  intro both
  exact inner both.1 (both.2.resolve_left (by decide))

theorem print_quote (stop : s.headD '\x00' = '\x00') :
    print false ('"' :: s) = '"' :: print false s := by
  rw [print, if_neg (by decide), if_pos ⟨rfl, Or.inr stop⟩]
  rfl

theorem print_zero : print false ('\x00' :: s) = [] := if_pos rfl

theorem headD_closed (nonzero : ∀ c ∈ l.head?, c ≠ '\x00') :
    (l ++ ['"']).headD '\x00' ≠ '\x00' := by
  cases l with
  | nil => decide
  | cons c l => exact nonzero c rfl

/-- The text that is read behind some bytes. -/
def behind (l rest : Text) : Text := print false (l ++ ['"']) ++ ' ' :: rest

theorem behind_ne : behind l rest ≠ [] := by
  intro none
  exact absurd (List.append_eq_nil_iff.mp none).2 (by simp)

theorem behind_cons (nonzero : c ≠ '\x00')
    (inner : c = '"' → ∀ d ∈ l.head?, d ≠ '\x00') :
    behind (c :: l) rest = printed c ++ behind l rest := by
  unfold behind
  rw [List.cons_append, print_inner nonzero (fun same => headD_closed (inner same)),
    List.append_assoc]

theorem digit_range {d : Nat} (known : digit c = some d) : 48 ≤ c.toNat ∧ c.toNat < 103 := by
  unfold digit at known
  simp only [Char.le_def, UInt32.le_iff_toNat_le] at known
  change (if 48 ≤ c.toNat ∧ c.toNat ≤ 57 then some (c.toNat - 48)
    else if 65 ≤ c.toNat ∧ c.toNat ≤ 70 then some (c.toNat - 55)
    else if 97 ≤ c.toNat ∧ c.toNat ≤ 102 then some (c.toNat - 87) else none) = some d at known
  split_ifs at known with decimal upper lower
  · omega
  · omega
  · omega

theorem printed_digit (hex : isHex c = true) : printed c = [c] := by
  have ⟨d, known⟩ := isHex_some.mp hex
  have ⟨low, high⟩ := digit_range known
  have all : letters.all (fun c => !isHex c) = true := by decide
  have every : ∀ c ∈ letters, isHex c = false := by
    simpa only [List.all_eq_true, Bool.not_eq_true'] using all
  have other : c ∉ letters := fun member => by rw [every c member] at hex; cases hex
  exact printed_char other (by omega) (by omega)

theorem printed_head (small : c.toNat < 256) : ∃ d tail, printed c = d :: tail ∧ isHex d = isHex c := by
  have slash : isHex '\\' = false := by decide
  cases hex : isHex c with
  | true => exact ⟨c, [], printed_digit hex, hex⟩
  | false =>
    cases shape c with
    | letter k _ text => exact ⟨'\\', _, text, slash⟩
    | char _ text => exact ⟨c, [], text, hex⟩
    | one digit => exact ⟨'\\', _, printed_one digit, slash⟩
    | two _ _ text => exact ⟨'\\', _, text, slash⟩
    | negative large => exact ⟨'\\', _, printed_negative large small, slash⟩

theorem behind_head (rest : Text) (small : ∀ c ∈ l, c.toNat < 256) :
    (behind l rest).head?.any isHex = l.head?.any isHex := by
  cases l with
  | nil => rfl
  | cons c l =>
    unfold behind
    by_cases zero : c = '\x00'
    · subst zero
      rw [List.cons_append, print_zero]
      rfl
    · by_cases closes : c = '"' ∧ (l ++ ['"']).headD '\x00' = '\x00'
      · rw [closes.1, List.cons_append, print_quote closes.2]
        rfl
      · have ⟨d, tail, text, same⟩ := printed_head (small c List.mem_cons_self)
        rw [List.cons_append, print_inner zero (fun quote stop => closes ⟨quote, stop⟩), text]
        exact same

theorem readable_small (readable : Readable l) : ∀ c ∈ l, c.toNat < 256 := by
  induction l with
  | nil => exact fun _ none => by cases none
  | cons d l ih =>
    have ⟨_, below, _, later⟩ := readable
    rw [List.forall_mem_cons]
    exact ⟨by omega, ih later⟩

theorem bytes_readable (readable : Readable l) (rest : Text) (fits : bp.length + l.length ≤ STRINGSIZ) :
    bytes cnt false bp false (behind l rest) = some (bp ++ l, '"' :: ' ' :: rest, none) := by
  induction l generalizing bp with
  | nil =>
    change bytes cnt false bp false ('"' :: ' ' :: rest) = _
    rw [List.append_nil, bytes, if_pos ⟨rfl, rfl⟩]
  | cons c l ih =>
    have ⟨nonzero, below, single, later⟩ := readable
    have head := behind_head rest (readable_small later)
    have inner : c = '"' → ∀ d ∈ l.head?, d ≠ '\x00' := by
      intro _ d member
      cases l with
      | nil => cases member
      | cons d' l =>
        cases member
        exact later.1
    rw [List.length_cons] at fits
    rw [behind_cons nonzero inner,
      bytes_printed below behind_ne (fun one => head.trans (single one)) (by omega), ih later]
    · rw [List.append_assoc]
      rfl
    · rw [List.length_append, List.length_singleton]
      omega

theorem bytes_char (quote : c ≠ '"') (slash : c ≠ '\\')
    (small : c.toNat < 256) (read : bytes cnt false bp false (c :: p) = some (out, q, none)) :
    bytes cnt false (bp ++ [c]) false p = some (out, q, none) := by
  rw [bytes, if_neg (fun both => quote both.1)] at read
  simp only [slash, false_and, if_false, decide_false, Bool.false_and, Nat.zero_le, dite_true,
    List.drop_zero] at read
  split_ifs at read with full
  · cases read
  · rwa [toChar_toNat small] at read

theorem bytes_digits (read : bytes cnt false bp false (surplus ++ p) = some (out, q, none)) :
    bytes cnt false (bp ++ surplus) false p = some (out, q, none) := by
  have step : ∀ {bp p : Text}, bytes cnt false bp false ('f' :: p) = some (out, q, none) →
      bytes cnt false (bp ++ ['f']) false p = some (out, q, none) :=
    fun read => bytes_char (by decide) (by decide) (by decide) read
  have done := step (step (step (step (step (step read)))))
  simp only [List.append_assoc] at done
  exact done

theorem behind_surplus (l rest : Text) : behind (surplus ++ l) rest = surplus ++ behind l rest := by
  have step : ∀ l, behind ('f' :: l) rest = 'f' :: behind l rest :=
    fun l => behind_cons (by decide) (fun quote => absurd quote (by decide))
  change behind ('f' :: 'f' :: 'f' :: 'f' :: 'f' :: 'f' :: l) rest = _
  rw [step, step, step, step, step, step]
  rfl

/-- The digits that `string()` leaves stand for bytes of their own, so that the bytes behind them would
have to begin with the same digits, without end. -/
theorem bytes_surplus (rest q : Text) :
    bytes cnt false bp false (surplus ++ behind l rest) ≠ some (bp ++ l, q, none) := by
  induction size : l.length using Nat.strongRecOn generalizing bp l with
  | ind m ih =>
    intro read
    have scanned := bytes_digits read
    have ⟨l', same⟩ := (List.prefix_append_right_inj bp).mp (bytes_extends scanned)
    have less : l'.length < m := by
      have length := congrArg List.length same
      rw [List.length_append] at length
      change 6 + l'.length = l.length at length
      omega
    rw [← same, behind_surplus, ← List.append_assoc] at scanned
    exact ih _ less rfl scanned

theorem bytes_other {c d : Char} (differs : d ≠ c) :
    bytes cnt false (bp ++ [d]) false p ≠ some (bp ++ c :: l, q, none) := by
  intro read
  have ⟨_, same⟩ := (List.prefix_append_right_inj bp).mp (bytes_extends read)
  cases same
  exact differs rfl

theorem toChar_ne (small : v < 256) (differs : v ≠ c.toNat) : toChar v ≠ c := by
  intro same
  subst same
  apply differs
  have valid : v.isValidChar := Or.inl (by omega)
  unfold toChar Char.ofNat
  rw [Nat.mod_eq_of_lt small, dif_pos valid]
  rfl

theorem bytes_negative (large : 128 ≤ c.toNat) (small : c.toNat < 256)
    (rest q : Text) (room : bp.length < STRINGSIZ) :
    bytes cnt false bp false (printed c ++ behind l rest) ≠ some (bp ++ c :: l, q, none) := by
  have known : digit 'f' = some 15 := by decide
  rw [printed_negative large small]
  change bytes cnt false bp false ('\\' :: 'x' :: 'f' :: 'f' :: 'f' :: 'f' :: 'f' :: 'f' ::
    hexDigit (c.toNat / 16) :: hexDigit (c.toNat % 16) :: behind l rest) ≠ _
  rw [bytes_hex_two known known room]
  by_cases last : c.toNat = 255
  · have same : toChar (15 * 16 + 15) = c := by
      have kept := toChar_toNat small
      rw [last] at kept
      exact kept
    rw [same, last]
    have whole : bp ++ c :: l = (bp ++ [c]) ++ l := by rw [List.append_assoc]; rfl
    rw [whole]
    exact bytes_surplus rest q
  · exact bytes_other (toChar_ne (by decide) (fun same => last same.symm))

theorem bytes_taken (nonzero : c ≠ '\x00') (one : OneDigit c)
    (follows : l.head?.any isHex = true) (rest q : Text) (room : bp.length < STRINGSIZ) :
    bytes cnt false bp false (printed c ++ behind l rest) ≠ some (bp ++ c :: l, q, none) := by
  have few : c.toNat < 16 := by unfold OneDigit at one; omega
  have positive : c.toNat ≠ 0 := by
    intro none
    apply nonzero
    rw [← Char.ofNat_toNat c, none]
  cases l with
  | nil => cases follows
  | cons d l =>
    have hex : isHex d = true := follows
    have ⟨e, known⟩ := isHex_some.mp hex
    have below := digit_lt known
    have zero : d ≠ '\x00' := fun same => by rw [same] at hex; cases hex
    have inner : d = '"' → ∀ c ∈ l.head?, c ≠ '\x00' := fun same => by rw [same] at hex; cases hex
    rw [behind_cons zero inner, printed_one one, printed_digit hex]
    change bytes cnt false bp false
      ('\\' :: 'x' :: hexDigit c.toNat :: d :: behind l rest) ≠ _
    rw [bytes_hex_two (digit_hexDigit few) known room]
    exact bytes_other (toChar_ne (by omega) (by omega))

theorem bytes_lost (bad : ¬ Readable l) (small : ∀ c ∈ l, c.toNat < 256) (rest q : Text)
    (fits : bp.length + l.length ≤ STRINGSIZ) :
    bytes cnt false bp false (behind l rest) ≠ some (bp ++ l, q, none) := by
  induction l generalizing bp with
  | nil => exact absurd trivial bad
  | cons c l ih =>
    rw [List.forall_mem_cons] at small
    rw [List.length_cons] at fits
    have room : bp.length < STRINGSIZ := by omega
    have head := behind_head rest small.2
    by_cases zero : c = '\x00'
    · subst zero
      intro read
      exact bytes_other (by decide) (bytes_char (by decide) (by decide) (by decide) read)
    · by_cases closes : c = '"' ∧ (l ++ ['"']).headD '\x00' = '\x00'
      · unfold behind
        rw [closes.1, List.cons_append, print_quote closes.2, List.cons_append, bytes,
          if_pos ⟨rfl, rfl⟩]
        intro same
        have none := List.append_right_eq_self.mp (Prod.mk.inj (Option.some.inj same)).1.symm
        cases none
      · have text : behind (c :: l) rest = printed c ++ behind l rest := by
          unfold behind
          rw [List.cons_append, print_inner zero (fun quote stop => closes ⟨quote, stop⟩),
            List.append_assoc]
        rw [text]
        by_cases large : 128 ≤ c.toNat
        · exact bytes_negative large small.1 rest q room
        · by_cases single : OneDigit c → l.head?.any isHex = false
          · have whole : bp ++ c :: l = (bp ++ [c]) ++ l := by rw [List.append_assoc]; rfl
            rw [bytes_printed (by omega) behind_ne (fun one => head.trans (single one)) room, whole]
            apply ih _ small.2
            · rw [List.length_append, List.length_singleton]
              omega
            · exact fun later => bad ⟨zero, by omega, single, later⟩
          · have ⟨one, follows⟩ := Classical.not_imp.mp single
            rw [Bool.not_eq_false] at follows
            exact bytes_taken zero one follows rest q room

/-- The text for the token is read again as a literal with the same bytes, up to the blank that follows
it. -/
def Rereads (l : Literal) : Prop :=
  ∀ (cnt : Nat) (rest : Text),
    string cnt false (outcpp l ++ rest) = some (l.bytes, ' ' :: rest, none)

theorem string_outcpp (l : Literal) (rest : Text) : string cnt false (outcpp l ++ rest) =
      (bytes cnt false [] false (behind l.bytes rest)).map fun (bp, p, error) => (bp, p.tail, error) := by
  have text : outcpp l ++ rest = '"' :: behind l.bytes rest := by
    unfold outcpp Literal.yytext behind
    rw [print, if_neg (by decide), if_pos ⟨rfl, Or.inl rfl⟩, List.append_assoc, List.append_assoc]
    rfl
  rw [string, text]
  rfl

theorem not_rereads {l : Literal} (bad : ¬ Readable l.bytes) : ¬ Rereads l := by
  intro again
  have read := again 0 []
  rw [string_outcpp, Option.map_eq_some_iff] at read
  have ⟨⟨bp, p, error⟩, scanned, same⟩ := read
  have ⟨first, others⟩ := Prod.mk.inj same
  have third := (Prod.mk.inj others).2
  subst first third
  have fits : ([] : Text).length + l.bytes.length ≤ STRINGSIZ := by
    rw [List.length_nil, Nat.zero_add]
    exact l.fits
  exact bytes_lost bad l.small [] p fits scanned

/-- The byte 1 in front of an `A`, which the text `\x1A` makes one byte. -/
def swallowed : Literal where
  bytes := ['\x01', 'A']
  small := by
    simp only [List.forall_mem_cons]
    exact ⟨by decide, by decide, nofun⟩
  fits := by decide

end Scc.Cc1.OutCpp
