import Mathlib.Data.List.Basic
import Mathlib.Data.List.TakeWhile

/-!
# String literals in the lexer

The bytes of a text are characters below 256, and the end of a text stands for the
terminating zero. `string()` reads a literal in one of two modes: it converts the
escape sequences, or, for the replacement list of a macro, it is meant to keep
them.
-/

namespace Scc.Cc1.Lex

set_option autoImplicit false

abbrev Text := List Char

def STRINGSIZ : Nat := 4095
def LINESIZ : Nat := 4095
def INPUTSIZ : Nat := LINESIZ
def INTIDENTSIZ : Nat := 63

/-- The conversion of an `int` to `char`. -/
def toChar (c : Nat) : Char := Char.ofNat (c % 256)

/-- The index in `"0123456789ABCDEF"` of a character in upper case. -/
def digit (c : Char) : Option Nat :=
  if '0' ≤ c ∧ c ≤ '9' then some (c.toNat - 48)
  else if 'A' ≤ c ∧ c ≤ 'F' then some (c.toNat - 55)
  else if 'a' ≤ c ∧ c ≤ 'f' then some (c.toNat - 87)
  else none

/-- The loop of `escape()` over at most `cnt` digits: the value and the number of
digits. At the end of the text `strchr()` finds the terminating zero, which counts
as the digit 16. -/
def digits (base : Nat) : Nat → Text → Nat → Option (Nat × Nat)
  | 0, _, c => some (c, 0)
  | _ + 1, [], c => if 16 ≤ base then none else some (c, 0)
  | cnt + 1, p :: rest, c =>
    match digit p with
    | none => some (c, 0)
    | some d =>
      if base < d then some (c, 0)
      else (digits base cnt rest (c * base + d)).map fun (c, n) => (c, n + 1)

/-- `escape()` on the text after the backslash: the value and the number of
characters it takes. A universal character name reads `cnt` before it is set, and
a backslash at the end of the text makes the caller read behind it: `none`. -/
def escape : Text → Option (Nat × Nat)
  | [] => none
  | 'a' :: _ => some (7, 1)
  | 'b' :: _ => some (8, 1)
  | 'f' :: _ => some (12, 1)
  | 'n' :: _ => some (10, 1)
  | 'r' :: _ => some (13, 1)
  | 't' :: _ => some (9, 1)
  | 'v' :: _ => some (11, 1)
  | '"' :: _ => some (34, 1)
  | '\'' :: _ => some (39, 1)
  | '\\' :: _ => some (92, 1)
  | '?' :: _ => some (63, 1)
  | 'u' :: _ => none
  | 'x' :: rest => (digits 16 2 rest 0).map fun (c, n) => (c, n + 1)
  | '\x00' :: _ => none
  | p :: rest =>
    if '0' ≤ p ∧ p ≤ '7' then digits 8 3 (p :: rest) 0 else some (32, 1)

/-- The loop of `string()` after the opening quote: the bytes and the text behind
the closing quote, or `none` where an error is reported. `room` is what is left of
`yytext`. -/
def string (disescape : Bool) (room : Nat) (esc : Bool) (input : Text) : Option (Text × Text) :=
  match input with
  | [] => none
  | c :: rest =>
    if c = '"' ∧ esc = false then some ([], rest)
    else if c = '\x00' then none
    else
      let esc := c = '\\' && !esc && disescape
      match room with
      | 0 => none
      | room + 1 =>
        if c = '\\' ∧ esc = false then
          (escape rest).bind fun (c, n) =>
            (string disescape room esc (rest.drop n)).map fun (bytes, rest) =>
              (toChar c :: bytes, rest)
        else
          (string disescape room esc rest).map fun (bytes, rest) => (c :: bytes, rest)
termination_by input.length
decreasing_by
  · simp only [List.length_drop, List.length_cons]
    omega
  · exact Nat.lt_succ_self _

variable {stop p c : Char} {text rest bytes input body : Text} {disescape esc : Bool} {room : Nat}

theorem digits_local (notDigit : digit stop = none) (base cnt : Nat) (text rest rest' : Text) (c : Nat) :
    digits base cnt (text ++ stop :: rest) c = digits base cnt (text ++ stop :: rest') c := by
  induction cnt generalizing text c with
  | zero => simp [digits]
  | succ cnt ih =>
    cases text with
    | nil => simp [digits, notDigit]
    | cons p text =>
      simp only [List.cons_append, digits]
      cases digit p with
      | none => rfl
      | some d => simp only [ih]

theorem digits_taken {base cnt : Nat} {c value n : Nat} (done : digits base cnt text c = some (value, n)) :
    n ≤ text.length ∧ ∀ p ∈ text.take n, digit p ≠ none := by
  induction cnt generalizing text c n with
  | zero =>
    simp only [digits, Option.some.injEq, Prod.mk.injEq] at done
    rw [← done.2]
    exact ⟨Nat.zero_le _, fun p member => by cases member⟩
  | succ cnt ih =>
    cases text with
    | nil =>
      simp only [digits] at done
      split_ifs at done
      cases done
      exact ⟨Nat.le_refl _, fun p member => by cases member⟩
    | cons p rest =>
      simp only [digits] at done
      cases isDigit : digit p with
      | none =>
        simp only [isDigit, Option.some.injEq, Prod.mk.injEq] at done
        rw [← done.2]
        exact ⟨Nat.zero_le _, fun p member => by cases member⟩
      | some d =>
        simp only [isDigit] at done
        split_ifs at done
        · cases done
          exact ⟨Nat.zero_le _, fun p member => by cases member⟩
        · obtain ⟨⟨value', n'⟩, later, same⟩ := Option.map_eq_some_iff.mp done
          cases same
          have taken := ih later
          refine ⟨Nat.succ_le_succ taken.1, ?_⟩
          intro q member
          rw [List.take_succ_cons] at member
          rcases List.mem_cons.mp member with rfl | inRest
          · rw [isDigit]
            exact Option.some_ne_none d
          · exact taken.2 q inRest

theorem octal_digit (octal : '0' ≤ p ∧ p ≤ '7') : ∃ d, digit p = some d ∧ d ≤ 8 := by
  have bounds : 48 ≤ p.toNat ∧ p.toNat ≤ 55 := octal
  refine ⟨p.toNat - 48, ?_, by omega⟩
  unfold digit
  rw [if_pos]
  exact ⟨octal.1, Nat.le_trans bounds.2 (by decide)⟩

theorem escape_taken {value n : Nat} (done : escape (p :: text) = some (value, n)) :
    p ≠ '\x00' ∧ ∃ more, n = more + 1 ∧ more ≤ text.length ∧ ∀ q ∈ text.take more, digit q ≠ none := by
  have single : n = 1 → ∃ more, n = more + 1 ∧ more ≤ text.length ∧
      ∀ q ∈ text.take more, digit q ≠ none := by
    rintro rfl
    exact ⟨0, rfl, Nat.zero_le _, fun q member => by cases member⟩
  unfold escape at done
  split at done
  all_goals try contradiction
  all_goals rename_i same; cases same
  all_goals try exact ⟨by decide, single (by cases done; rfl)⟩
  · obtain ⟨⟨value', n'⟩, later, same⟩ := Option.map_eq_some_iff.mp done
    cases same
    have taken := digits_taken later
    exact ⟨by decide, n', rfl, taken⟩
  · rename_i notNul
    refine ⟨fun isNul => notNul isNul, ?_⟩
    split_ifs at done with octal
    · obtain ⟨d, isDigit, small⟩ := octal_digit octal
      simp only [digits, isDigit] at done
      rw [if_neg (by omega)] at done
      obtain ⟨⟨value', n'⟩, later, same⟩ := Option.map_eq_some_iff.mp done
      cases same
      exact ⟨n', rfl, digits_taken later⟩
    · cases done
      exact single rfl

theorem escape_congr {text text' : Text} (hex : digits 16 2 text 0 = digits 16 2 text' 0)
    (octal : digits 8 3 (p :: text) 0 = digits 8 3 (p :: text') 0) :
    escape (p :: text) = escape (p :: text') := by
  unfold escape
  split
  all_goals rename_i same
  all_goals try cases same
  all_goals try rfl
  · simp only [hex]
  · rw [octal]
    generalize last : (if '0' ≤ p ∧ p ≤ '7' then digits 8 3 (p :: text') 0 else some (32, 1)) =
      result
    split <;> simp_all

/-- A character that ends a literal or a word. -/
def Stop (c : Char) : Prop := c = '"' ∨ c = '\'' ∨ c = ' '

theorem Stop.digit (isStop : Stop stop) : Lex.digit stop = none := by
  rcases isStop with rfl | rfl | rfl
  · rfl
  · rfl
  · rfl

theorem escape_stop (isStop : Stop stop) (rest : Text) : escape (stop :: rest) = some (stop.toNat, 1) := by
  rcases isStop with rfl | rfl | rfl
  · rfl
  · rfl
  · rfl

theorem escape_local (isStop : Stop stop) (text rest rest' : Text) :
    escape (text ++ stop :: rest) = escape (text ++ stop :: rest') := by
  cases text with
  | nil => rw [List.nil_append, List.nil_append, escape_stop isStop, escape_stop isStop]
  | cons p text =>
    apply escape_congr
    · exact digits_local isStop.digit 16 2 text rest rest' 0
    · exact digits_local isStop.digit 8 3 (p :: text) rest rest' 0

theorem escape_before (isStop : Stop stop) {value n : Nat}
    (done : escape (p :: text ++ stop :: rest) = some (value, n)) :
    p ≠ '\x00' ∧ ∃ more, n = more + 1 ∧ more ≤ text.length ∧ ∀ q ∈ text.take more, digit q ≠ none := by
  rw [List.cons_append] at done
  obtain ⟨notNul, more, same, _, taken⟩ := escape_taken done
  have inside : more ≤ text.length := by
    by_contra beyond
    have stopTaken : stop ∈ (text ++ stop :: rest).take more := by
      rw [List.take_append, List.mem_append]
      right
      obtain ⟨k, isSucc⟩ : ∃ k, more - text.length = k + 1 := ⟨more - text.length - 1, by omega⟩
      rw [isSucc, List.take_succ_cons]
      exact List.mem_cons_self
    exact taken stop stopTaken isStop.digit
  refine ⟨notNul, more, same, inside, ?_⟩
  intro q member
  apply taken q
  rw [List.take_append]
  exact List.mem_append_left _ member

theorem string_plain (notQuote : ¬ (c = '"' ∧ esc = false)) (notNul : c ≠ '\x00')
    (notEscape : ¬ (c = '\\' ∧ (!esc && disescape) = false)) : string disescape (room + 1) esc (c :: rest) =
      (string disescape room (c = '\\' && !esc && disescape) rest).map fun (bytes, rest) =>
        (c :: bytes, rest) := by
  rw [string, if_neg notQuote, if_neg notNul]
  simp only
  rw [if_neg]
  rintro ⟨isBackslash, isFalse⟩
  apply notEscape
  refine ⟨isBackslash, ?_⟩
  simpa [isBackslash] using isFalse

theorem string_escape (escapes : (!esc && disescape) = false) :
    string disescape (room + 1) esc ('\\' :: rest) = (escape rest).bind fun (c, n) =>
        (string disescape room false (rest.drop n)).map fun (bytes, rest) => (toChar c :: bytes, rest) := by
  rw [string, if_neg (by simp), if_neg (by decide)]
  simp only
  rw [if_pos]
  · simp [escapes]
  · simpa using escapes

theorem string_plain_some {rest bytes after : Text}
    (notQuote : ¬ (c = '"' ∧ esc = false))
    (notEscape : ¬ (c = '\\' ∧ (!esc && disescape) = false))
    (done : string disescape room esc (c :: rest) = some (bytes, after)) :
    ∃ less bytes', room = less + 1 ∧ c ≠ '\x00' ∧ bytes = c :: bytes' ∧
      string disescape less (c = '\\' && !esc && disescape) rest = some (bytes', after) := by
  by_cases nul : c = '\x00'
  · rw [string, if_neg notQuote, if_pos nul] at done
    cases done
  · cases room with
    | zero =>
      rw [string, if_neg notQuote, if_neg nul] at done
      cases done
    | succ less =>
      rw [string_plain notQuote nul notEscape] at done
      obtain ⟨⟨bytes', after'⟩, later, same⟩ := Option.map_eq_some_iff.mp done
      cases same
      exact ⟨less, bytes', rfl, nul, rfl, later⟩

theorem string_escape_some {rest bytes after : Text} (escapes : (!esc && disescape) = false)
    (done : string disescape room esc ('\\' :: rest) = some (bytes, after)) :
    ∃ less e n bytes', room = less + 1 ∧ escape rest = some (e, n) ∧ bytes = toChar e :: bytes' ∧
      string disescape less false (rest.drop n) = some (bytes', after) := by
  cases room with
  | zero =>
    rw [string, if_neg (by simp), if_neg (by decide)] at done
    cases done
  | succ less =>
    rw [string_escape escapes] at done
    obtain ⟨⟨e, n⟩, escaped, continued⟩ := Option.bind_eq_some_iff.mp done
    obtain ⟨⟨bytes', after'⟩, later, same⟩ := Option.map_eq_some_iff.mp continued
    cases same
    exact ⟨less, e, n, bytes', rfl, escaped, rfl, later⟩

theorem string_rest_lt (done : string disescape room esc input = some (bytes, rest)) :
    rest.length < input.length := by
  induction hlen : input.length using Nat.strongRecOn generalizing input room esc bytes with
  | ind len ih =>
    cases input with
    | nil => simp [string] at done
    | cons c tail =>
      have shorter : ∀ {room esc bytes input}, input.length ≤ tail.length →
          string disescape room esc input = some (bytes, rest) → rest.length < len := by
        intro room esc bytes input le later
        simp only [List.length_cons] at hlen
        have less := ih input.length (by omega) later rfl
        omega
      rw [string] at done
      split_ifs at done with quote nul
      · cases done
        simp only [List.length_cons] at hlen
        omega
      · simp only at done
        cases room with
        | zero => simp at done
        | succ room =>
          simp only at done
          split_ifs at done with escapes
          · obtain ⟨⟨e, n⟩, _, continued⟩ := Option.bind_eq_some_iff.mp done
            obtain ⟨⟨bytes', rest'⟩, later, same⟩ := Option.map_eq_some_iff.mp continued
            cases same
            exact shorter (by simp) later
          · obtain ⟨⟨bytes', rest'⟩, later, same⟩ := Option.map_eq_some_iff.mp done
            cases same
            exact shorter (Nat.le_refl _) later

/-- The quotes and backslashes of the text are paired: no quote is bare and the
last backslash precedes a character. -/
def closed : Text → Bool
  | [] => true
  | '\\' :: d :: rest => d ≠ '\x00' && closed rest
  | c :: rest => c ≠ '"' && c ≠ '\\' && c ≠ '\x00' && closed rest

theorem closed_digits {taken rest : Text} (digits : ∀ q ∈ taken, digit q ≠ none) :
    closed (taken ++ rest) = closed rest := by
  induction taken with
  | nil => rfl
  | cons c taken ih =>
    have isDigit := digits c List.mem_cons_self
    have later := ih fun q member => digits q (List.mem_cons_of_mem c member)
    have plain : c ≠ '"' ∧ c ≠ '\\' ∧ c ≠ '\x00' := by
      refine ⟨?_, ?_, ?_⟩
      · rintro rfl
        exact isDigit rfl
      · rintro rfl
        exact isDigit rfl
      · rintro rfl
        exact isDigit rfl
    rw [List.cons_append, closed]
    · simp [plain, later]
    · intro d rest same
      cases same
      exact absurd rfl plain.2.1

theorem string_literal (done : string false room false (body ++ '"' :: rest) = some (bytes, rest)) :
    closed body = true ∧
      ∀ rest', string false room false (body ++ '"' :: rest') = some (bytes, rest') := by
  induction hlen : body.length using Nat.strongRecOn generalizing body room bytes with
  | ind len ih =>
    cases body with
    | nil =>
      rw [List.nil_append, string, if_pos (by simp)] at done
      cases done
      refine ⟨rfl, ?_⟩
      intro rest'
      rw [List.nil_append, string, if_pos (by simp)]
    | cons c body =>
      simp only [List.length_cons] at hlen
      rw [List.cons_append] at done
      by_cases quote : c = '"'
      · rw [string, if_pos ⟨quote, rfl⟩] at done
        simp only [Option.some.injEq, Prod.mk.injEq] at done
        have lengths := congrArg List.length done.2
        simp only [List.length_append, List.length_cons] at lengths
        omega
      · by_cases backslash : c = '\\'
        · subst backslash
          obtain ⟨less, e, n, bytes', rfl, escaped, rfl, later⟩ := string_escape_some rfl done
          cases body with
          | nil =>
            rw [List.nil_append, escape_stop (Or.inl rfl)] at escaped
            cases escaped
            exact absurd (string_rest_lt later) (Nat.lt_irrefl _)
          | cons d body =>
            obtain ⟨notNul, more, rfl, inside, taken⟩ := escape_before (Or.inl rfl) escaped
            have dropped : ∀ rest', (d :: body ++ '"' :: rest').drop (more + 1) =
                body.drop more ++ '"' :: rest' := by
              intro rest'
              rw [List.cons_append, List.drop_succ_cons, List.drop_append_of_le_length inside]
            rw [dropped] at later
            have inner := ih (body.drop more).length
              (by simp only [List.length_cons] at hlen; simp; omega) later rfl
            constructor
            · rw [closed, Bool.and_eq_true, decide_eq_true_eq]
              refine ⟨notNul, ?_⟩
              rw [← List.take_append_drop more body, closed_digits taken]
              exact inner.1
            · intro rest'
              rw [List.cons_append, string_escape rfl,
                escape_local (Or.inl rfl) (d :: body) rest' _, escaped, Option.bind_some]
              simp only [dropped, inner.2 rest', Option.map_some]
        · obtain ⟨less, bytes', rfl, nul, rfl, later⟩ :=
            string_plain_some (by simp [quote]) (by simp [backslash]) done
          simp only [backslash, decide_false, Bool.false_and] at later
          have inner := ih body.length (by omega) later rfl
          constructor
          · rw [closed]
            · simp [quote, backslash, nul, inner.1]
            · intro d text same
              exact absurd same backslash
          · intro rest'
            rw [List.cons_append, string_plain (by simp [quote]) nul (by simp [backslash])]
            simp only [backslash, decide_false, Bool.false_and]
            rw [inner.2 rest']
            rfl

theorem string_length (done : string disescape room esc input = some (bytes, rest)) :
    bytes.length + rest.length + 1 ≤ input.length := by
  induction hlen : input.length using Nat.strongRecOn generalizing input room esc bytes with
  | ind len ih =>
    cases input with
    | nil => simp [string] at done
    | cons c tail =>
      have longer : ∀ {room esc bytes input}, input.length ≤ tail.length →
          string disescape room esc input = some (bytes, rest) →
            bytes.length + 1 + rest.length + 1 ≤ len := by
        intro room esc bytes input le later
        simp only [List.length_cons] at hlen
        have inner := ih input.length (by omega) later rfl
        omega
      rw [string] at done
      split_ifs at done with quote nul
      · cases done
        simp only [List.length_cons] at hlen
        simp only [List.length_nil]
        omega
      · cases room with
        | zero => simp at done
        | succ room =>
          simp only at done
          split_ifs at done with escapes
          · obtain ⟨⟨e, n⟩, _, continued⟩ := Option.bind_eq_some_iff.mp done
            obtain ⟨⟨bytes', rest'⟩, later, same⟩ := Option.map_eq_some_iff.mp continued
            cases same
            exact longer (by simp) later
          · obtain ⟨⟨bytes', rest'⟩, later, same⟩ := Option.map_eq_some_iff.mp done
            cases same
            exact longer (Nat.le_refl _) later

theorem string_body (done : string false room false input = some (bytes, rest)) :
    ∃ body, input = body ++ '"' :: rest ∧
      (bytes = body ∨ bytes.length < body.length ∧ '\\' ∈ body) := by
  induction hlen : input.length using Nat.strongRecOn generalizing input room bytes with
  | ind len ih =>
    cases input with
    | nil => simp [string] at done
    | cons c tail =>
      simp only [List.length_cons] at hlen
      by_cases quote : c = '"'
      · rw [string, if_pos ⟨quote, rfl⟩] at done
        cases done
        exact ⟨[], by rw [quote, List.nil_append], Or.inl rfl⟩
      · by_cases backslash : c = '\\'
        · subst backslash
          rcases string_escape_some rfl done with ⟨less, e, n, bytes', _, escaped, rfl, read⟩
          cases tail with
          | nil => cases escaped
          | cons p tail =>
            rcases escape_taken escaped with ⟨_, more, rfl, inside, _⟩
            have shorter : ((p :: tail).drop (more + 1)).length < len := by
              rw [List.length_drop]
              omega
            rcases ih ((p :: tail).drop (more + 1)).length shorter read rfl with
              ⟨body, ends, fewer⟩
            have le : bytes'.length ≤ body.length := by
              rcases fewer with rfl | shorter
              · exact Nat.le_refl _
              · exact Nat.le_of_lt shorter.1
            exists '\\' :: ((p :: tail).take (more + 1) ++ body)
            constructor
            · rw [List.cons_append, List.append_assoc, ← ends, List.take_append_drop]
            · apply Or.inr
              constructor
              · simp only [List.length_cons, List.length_append, List.take_succ_cons]
                omega
              · exact List.mem_cons_self
        · rcases string_plain_some (by simp [quote]) (by simp [backslash]) done with
            ⟨less, bytes', _, _, rfl, read⟩
          simp only [backslash, decide_false, Bool.false_and] at read
          rcases ih tail.length (by omega) read rfl with ⟨body, ends, fewer⟩
          refine ⟨c :: body, by rw [List.cons_append, ← ends], ?_⟩
          rcases fewer with rfl | shorter
          · exact Or.inl rfl
          · exact Or.inr ⟨Nat.succ_lt_succ shorter.1, List.mem_cons_of_mem c shorter.2⟩

theorem string_room (done : string disescape room esc input = some (bytes, rest)) : bytes.length ≤ room := by
  induction room generalizing input esc bytes with
  | zero =>
    cases input with
    | nil => simp [string] at done
    | cons c tail =>
      rw [string] at done
      split_ifs at done
      · cases done
        exact Nat.le_refl 0
  | succ room ih =>
    cases input with
    | nil => simp [string] at done
    | cons c tail =>
      rw [string] at done
      split_ifs at done
      · cases done
        exact Nat.zero_le _
      · simp only at done
        split_ifs at done
        · obtain ⟨⟨e, n⟩, _, continued⟩ := Option.bind_eq_some_iff.mp done
          obtain ⟨⟨bytes', rest'⟩, later, same⟩ := Option.map_eq_some_iff.mp continued
          cases same
          exact Nat.succ_le_succ (ih later)
        · obtain ⟨⟨bytes', rest'⟩, later, same⟩ := Option.map_eq_some_iff.mp done
          cases same
          exact Nat.succ_le_succ (ih later)

theorem closed_no_nul (isClosed : closed body = true) : '\x00' ∉ body := by
  induction body using closed.induct with
  | case1 => simp
  | case2 d text ih =>
    rw [closed, Bool.and_eq_true, decide_eq_true_eq] at isClosed
    simp [ih isClosed.2, isClosed.1.symm]
  | case3 c text notPair ih =>
    rw [closed] at isClosed
    · simp only [Bool.and_eq_true, decide_eq_true_eq] at isClosed
      simp [ih isClosed.2, isClosed.1.2.symm]
    · exact notPair

def doubled : Text := ['\\', '\\']

theorem doubled_pair {d : Char} (single : d ≠ '\\') (rest : Text) :
    doubled <:+: '\\' :: d :: rest ↔ doubled <:+: rest := by
  unfold doubled
  rw [List.infix_cons_iff, List.infix_cons_iff]
  simp [List.cons_prefix_cons, single.symm]

theorem doubled_cons (other : c ≠ '\\') (rest : Text) : doubled <:+: c :: rest ↔ doubled <:+: rest := by
  unfold doubled
  rw [List.infix_cons_iff]
  simp [List.cons_prefix_cons, other.symm]

theorem string_disescape_pair {d : Char} (single : d ≠ '\\') (notNul : d ≠ '\x00') (rest : Text) :
    string true (room + 2) false ('\\' :: d :: rest) =
      (string true room false rest).map fun (bytes, rest) => ('\\' :: d :: bytes, rest) := by
  rw [string_plain (by simp) (by decide) (by simp), string_plain (by simp) notNul (by simp [single])]
  simp only [single, decide_false, Bool.false_and, Option.map_map]
  rfl

theorem string_verbatim (isClosed : closed body = true)
    (single : ¬ doubled <:+: body) (fits : body.length ≤ room) (rest : Text) :
    string true room false (body ++ '"' :: rest) = some (body, rest) := by
  induction body using closed.induct generalizing room with
  | case1 => rw [List.nil_append, string, if_pos (by simp)]
  | case2 d text ih =>
    rw [closed, Bool.and_eq_true, decide_eq_true_eq] at isClosed
    have singleHere : d ≠ '\\' := by
      rintro rfl
      exact single (List.prefix_append _ _).isInfix
    rw [doubled_pair singleHere] at single
    simp only [List.length_cons] at fits
    obtain ⟨less, rfl⟩ : ∃ less, room = less + 2 := ⟨room - 2, by omega⟩
    rw [List.cons_append, List.cons_append, string_disescape_pair singleHere isClosed.1,
      ih isClosed.2 single (by omega)]
    rfl
  | case3 c text notPair ih =>
    rw [closed] at isClosed
    · simp only [Bool.and_eq_true, decide_eq_true_eq] at isClosed
      rw [doubled_cons isClosed.1.1.2] at single
      simp only [List.length_cons] at fits
      obtain ⟨less, rfl⟩ : ∃ less, room = less + 1 := ⟨room - 1, by omega⟩
      rw [List.cons_append, string_plain (by simp [isClosed]) isClosed.1.2 (by simp [isClosed])]
      simp only [isClosed.1.1.2, decide_false, Bool.false_and]
      rw [ih isClosed.2 single (by omega)]
      rfl
    · exact notPair

theorem string_doubled (isClosed : closed body = true) (double : doubled <:+: body) :
    string true room false (body ++ '"' :: rest) ≠ some (body, rest) := by
  induction body using closed.induct generalizing room with
  | case1 => simp [doubled] at double
  | case2 d text ih =>
    intro kept
    rw [closed, Bool.and_eq_true, decide_eq_true_eq] at isClosed
    rw [List.cons_append, List.cons_append] at kept
    obtain ⟨less, bytes, rfl, _, same, later⟩ := string_plain_some (by simp) (by simp) kept
    cases same
    simp only [decide_true, Bool.not_false, Bool.and_self] at later
    by_cases here : d = '\\'
    · subst here
      obtain ⟨less', e, n, bytes, rfl, escaped, same, later'⟩ := string_escape_some rfl later
      have length := string_length later'
      have sameLength := congrArg List.length same
      simp only [List.length_drop, List.length_append, List.length_cons] at length sameLength
      have advanced : 1 ≤ n := by
        cases text with
        | nil =>
          rw [List.nil_append, escape_stop (Or.inl rfl)] at escaped
          cases escaped
          exact Nat.le_refl 1
        | cons q text =>
          obtain ⟨_, more, rfl, _⟩ := escape_before (Or.inl rfl) escaped
          omega
      omega
    · rw [doubled_pair here] at double
      obtain ⟨less', bytes, rfl, _, same, later'⟩ :=
        string_plain_some (by simp) (by simp [here]) later
      cases same
      simp only [here, decide_false, Bool.false_and] at later'
      exact ih isClosed.2 double later'
  | case3 c text notPair ih =>
    intro kept
    rw [closed] at isClosed
    · simp only [Bool.and_eq_true, decide_eq_true_eq] at isClosed
      rw [doubled_cons isClosed.1.1.2] at double
      obtain ⟨less, bytes, rfl, _, same, later⟩ :=
        string_plain_some (by simp [isClosed]) (by simp [isClosed]) kept
      cases same
      simp only [isClosed.1.1.2, decide_false, Bool.false_and] at later
      exact ih isClosed.2 double later
    · exact notPair

end Scc.Cc1.Lex
