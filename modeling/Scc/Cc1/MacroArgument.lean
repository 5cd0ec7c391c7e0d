import Mathlib.Data.List.DropRight
import Scc.Cc1.Macro
import Scc.Cc1.Relex

/-!
# Macro arguments

`parameter()` keeps an argument as the texts of its tokens, `expandarg()` reads
that text again and writes the tokens that it expands to, and `copymacro()` puts
the result in the place of the parameter. The macros in an argument are any
function of its tokens.
-/

namespace Scc.Cc1.Lex

set_option autoImplicit false

/-- `nextcpp()`: the text of an argument with one more token. -/
def nextcpp (arg : Option Text) (t : Token) : Text :=
  match arg with
  | none => cstring t.yytext
  | some arg => arg ++ ' ' :: cstring t.yytext

/-- The two loops on spaces at the end of `parameter()`. -/
def strip (text : Text) : Text := (text.rdropWhile isspace).dropWhile isspace

/-- `parameter()`: the argument, the token that ends it and the tokens behind.
`depth` counts the calls of `paren()`. -/
def parameter (arg : Option Text) (depth : Nat) : List Token → Option (Text × Token × List Token)
  | [] => none
  | t :: line =>
    if t = .text [')'] then
      match depth with
      | 0 => some (strip (nextcpp arg t).dropLast, t, line)
      | depth + 1 => parameter (some (nextcpp arg t)) depth line
    else if t = .text [','] ∧ depth = 0 then some (strip (nextcpp arg t).dropLast, t, line)
    else if t = .text ['('] then parameter (some (nextcpp arg t)) (depth + 1) line
    else parameter (some (nextcpp arg t)) depth line

/-- The loop of `expandarg()` over the tokens that `next()` returns. -/
def expandtokens (bufsiz : Nat) : List Token → Option Text
  | [] => some []
  | t :: ts =>
    if bufsiz < t.yytext.length + 2 then none
    else (expandtokens (bufsiz - (t.yytext.length + 1)) ts).map fun text => t.yytext ++ ' ' :: text

def expandarg (macros : List Token → List Token) (concat : Bool) (arg : Text) (bufsiz : Nat) :
    Option Text :=
  if concat then
    if bufsiz ≤ arg.length then none else some arg
  else (tokens false arg).bind fun ts => expandtokens bufsiz (macros ts)

/-- Texts of tokens, each with a blank behind it. -/
def joined (ts : List Token) : Text := ts.flatMap fun t => cstring t.yytext ++ [' ']

theorem joined_cons (t : Token) (ts : List Token) :
    joined (t :: ts) = cstring t.yytext ++ ' ' :: joined ts := by
  simp [joined]

theorem joined_append (ts us : List Token) : joined (ts ++ us) = joined ts ++ joined us := by
  simp [joined]

theorem nextcpp_joined (arg : Option Text) (t : Token) (ts : List Token) : nextcpp arg t ++ ' ' :: joined ts =
      arg.elim (joined (t :: ts)) fun arg => arg ++ ' ' :: joined (t :: ts) := by
  cases arg with
  | none => exact (joined_cons t ts).symm
  | some arg => simp [nextcpp, joined_cons]

theorem nextcpp_closing (arg : Option Text) {c : Char} (notNul : c ≠ '\x00') :
    (nextcpp arg (.text [c])).dropLast = arg.elim (joined []) fun arg => arg ++ ' ' :: joined [] := by
  have kept : cstring [c] = [c] := by simp [cstring, notNul]
  cases arg with
  | none =>
    change (cstring [c]).dropLast = []
    rw [kept]
    rfl
  | some arg =>
    have split : arg ++ ' ' :: [c] = (arg ++ [' ']) ++ [c] := by simp
    change (arg ++ ' ' :: cstring [c]).dropLast = arg ++ [' ']
    rw [kept, split, List.dropLast_concat]

theorem parameter_collected {arg : Option Text} {depth : Nat} {text : Text} {close : Token}
    {input line : List Token} (done : parameter arg depth input = some (text, close, line)) :
    ∃ ts, input = ts ++ close :: line ∧
      text = strip (arg.elim (joined ts) fun arg => arg ++ ' ' :: joined ts) := by
  induction input generalizing arg depth with
  | nil => cases done
  | cons t input ih =>
    have closing : ∀ {c : Char}, c ≠ '\x00' → t = .text [c] →
        some (strip (nextcpp arg t).dropLast, t, input) = some (text, close, line) →
          ∃ ts, t :: input = ts ++ close :: line ∧
            text = strip (arg.elim (joined ts) fun arg => arg ++ ' ' :: joined ts) := by
      intro c notNul isText same
      cases same
      exists []
      rw [isText, nextcpp_closing arg notNul]
      exact ⟨rfl, rfl⟩
    have more : ∀ {depth : Nat},
        parameter (some (nextcpp arg t)) depth input = some (text, close, line) →
          ∃ ts, t :: input = ts ++ close :: line ∧
            text = strip (arg.elim (joined ts) fun arg => arg ++ ' ' :: joined ts) := by
      intro depth later
      rcases ih later with ⟨ts, same, collected⟩
      exists t :: ts
      rw [← nextcpp_joined, same]
      exact ⟨rfl, collected⟩
    unfold parameter at done
    split_ifs at done with paren comma opening
    · cases depth with
      | zero => exact closing (by decide) paren done
      | succ depth => exact more done
    · exact closing (by decide) comma.1 done
    · exact more done
    · exact more done

theorem parameter_text {text : Text} {close : Token} {ts line : List Token}
    (done : parameter none 0 (ts ++ close :: line) = some (text, close, line)) :
    text = strip (joined ts) := by
  rcases parameter_collected done with ⟨us, same, collected⟩
  have tokensSame : ts = us := List.append_cancel_right same
  rw [tokensSame]
  exact collected

theorem decimal_spec (n : Nat) :
    isspace (decimal n) = false ∧ (decimal n).isDigit = true ∧ (decimal n).toNat - 48 = n % 10 := by
  have small : ∀ d < 10, isspace (Char.ofNat (48 + d)) = false ∧
      (Char.ofNat (48 + d)).isDigit = true ∧ (Char.ofNat (48 + d)).toNat - 48 = d := by
    decide
  exact small (n % 10) (Nat.mod_lt n (by decide))

theorem atoi_two (a b : Nat) (rest : Text) :
    atoi (decimal a :: decimal b :: MACROPAR :: rest) = 10 * (a % 10) + b % 10 := by
  have notDigit : MACROPAR.isDigit = false := by decide
  simp [atoi, decimal_spec, notDigit]

theorem atoi_three (a b c : Nat) (rest : Text) :
    atoi (decimal a :: decimal b :: decimal c :: MACROPAR :: rest) =
      10 * (10 * (a % 10) + b % 10) + c % 10 := by
  have notDigit : MACROPAR.isDigit = false := by decide
  simp [atoi, decimal_spec, notDigit]

section Copy

variable (arglist : List Text) (expand : Bool → Text → Nat → Option Text)
  (before written rest : Text) (bufsiz : Nat)

theorem copymacro_nil : copymacro arglist expand before written bufsiz [] = some written.reverse := by
  rw [ copymacro]

theorem copymacro_mark (text : Text) : copymacro arglist expand before written bufsiz (MACROPAR :: text) =
      (expand (concatoper before (text.drop 3)) (arglist.getD (atoi text) []) bufsiz).bind fun added =>
          copymacro arglist expand ((MACROPAR :: text.take 3).reverse ++ before)
            (added.reverse ++ written) (bufsiz - added.length) (text.drop 3) := by
  rw [ copymacro, if_neg (by decide), if_neg (by decide), if_neg (by decide), if_pos rfl]

theorem copymacro_operator (text : Text) (room : 3 ≤ bufsiz) :
    copymacro arglist expand before written bufsiz (STRINGIZE :: text) =
      (stringize bufsiz (arglist.getD (atoi (text.drop 1)) [])).bind fun (added, room) =>
        copymacro arglist expand ((STRINGIZE :: text.take 4).reverse ++ before)
          (('"' :: added ++ ['"']).reverse ++ written) room (text.drop 4) := by
  rw [ copymacro, if_neg (by decide), if_neg (by decide), if_pos rfl, if_neg (by omega)]

variable {n : Nat}

theorem copymacro_macropar (index : n < 100) :
    copymacro arglist expand before written bufsiz (macropar n ++ rest) =
      (expand (concatoper before rest) (arglist.getD n []) bufsiz).bind fun added =>
        copymacro arglist expand ((macropar n).reverse ++ before) (added.reverse ++ written)
          (bufsiz - added.length) rest := by
  have number : 10 * (n / 10 % 10) + n % 10 = n := by omega
  rw [macropar, if_pos index]
  simp only [List.cons_append, List.nil_append]
  rw [copymacro_mark, atoi_two, number]
  simp

theorem copymacro_stringize (index : n < 100) (room : 3 ≤ bufsiz) :
    copymacro arglist expand before written bufsiz (STRINGIZE :: macropar n ++ rest) =
      (stringize bufsiz (arglist.getD n [])).bind fun (added, room) =>
        copymacro arglist expand ((STRINGIZE :: macropar n).reverse ++ before)
          (('"' :: added ++ ['"']).reverse ++ written) room rest := by
  have number : 10 * (n / 10 % 10) + n % 10 = n := by omega
  rw [macropar, if_pos index]
  simp only [List.cons_append, List.nil_append]
  rw [copymacro_operator _ _ _ _ _ _ room, List.drop_succ_cons, List.drop_zero, atoi_two, number]
  simp

end Copy

/-- A token that some text without a zero byte holds. -/
def Lexed (t : Token) : Prop :=
  ∃ disescape c input n, '\x00' ∉ c :: input ∧ isspace c = false ∧
    token disescape c input = some (t, n)

/-- A character that `string()` takes as it is. -/
def verbatim (c : Char) : Bool := c ≠ '"' && c ≠ '\\' && c ≠ '\x00'

/-- A literal is plain when all its bytes are. -/
def Token.plain : Token → Bool
  | .text _ => true
  | .string bytes => bytes.all verbatim

theorem verbatim_spec {c : Char} (plain : verbatim c = true) : c ≠ '"' ∧ c ≠ '\\' ∧ c ≠ '\x00' := by
  simpa [verbatim, and_assoc] using plain

theorem string_plain_append {start : Text} (plain : start.all verbatim = true) (room : Nat) (rest : Text) :
    string false (start.length + room) false (start ++ rest) =
      (string false room false rest).map fun (bytes, rest) => (start ++ bytes, rest) := by
  induction start with
  | nil => simp
  | cons c start ih =>
    rw [List.all_cons, Bool.and_eq_true] at plain
    have spec := verbatim_spec plain.1
    have room' : (c :: start).length + room = start.length + room + 1 := by
      rw [List.length_cons]
      omega
    rw [room', List.cons_append, string_plain (by simp [spec]) spec.2.2 (by simp [spec])]
    simp only [spec, decide_false, Bool.false_and, ih plain.2, Option.map_map]
    rfl

theorem text_again {yytext : Text} (lexed : Lexed (.text yytext)) :
    '\x00' ∉ yytext ∧ (∃ c text, yytext = c :: text ∧ isspace c = false) ∧
      (∀ c, yytext.getLast? = some c → isspace c = false) ∧ ∀ rest, Edge rest →
          tokens false (yytext ++ rest) = (tokens false rest).map (.text yytext :: ·) := by
  rcases lexed with ⟨disescape, c, input, n, noNul, notSpace, read⟩
  unfold token at read
  by_cases quote : c = '"'
  · rw [if_pos quote] at read
    rcases Option.map_eq_some_iff.mp read with ⟨pair, _, same⟩
    cases same
  · rw [if_neg quote] at read
    rcases Option.bind_eq_some_iff.mp read with ⟨m, taken, continued⟩
    by_cases short : m < INTIDENTSIZ
    · rw [if_pos short] at continued
      cases continued
      have reads := reads_token c input n taken
      have length : (input.take n).length = n := by
        rw [List.length_take]
        exact Nat.min_eq_left reads.le
      constructor
      · intro nul
        rcases List.mem_cons.mp nul with isHead | inRest
        · exact noNul (isHead ▸ List.mem_cons_self)
        · exact noNul (List.mem_cons_of_mem c (List.mem_of_mem_take inRest))
      constructor
      · exact ⟨c, input.take n, rfl, notSpace⟩
      constructor
      · intro d last
        rw [List.getLast?_cons] at last
        cases behind : (input.take n).getLast? with
        | none =>
          rw [behind] at last
          cases last
          exact notSpace
        | some e =>
          rw [behind] at last
          cases last
          exact reads.last _ behind
      · intro rest edge
        have whole : (input.take n ++ rest).take n = input.take n := by
          rw [List.take_append_of_le_length (Nat.le_of_eq length.symm), List.take_of_length_le]
          exact Nat.le_of_eq length
        have behind : (input.take n ++ rest).drop n = rest := by
          rw [List.drop_append, length, Nat.sub_self, List.drop_zero,
            List.drop_of_length_le (Nat.le_of_eq length), List.nil_append]
        have again : token false c (input.take n ++ rest) = some (.text (c :: input.take n), n) := by
          unfold token
          rw [if_neg quote, reads.again rest edge, Option.bind_some, if_pos short, whole]
        rw [List.cons_append, tokens_cons notSpace, again, Option.bind_some]
        simp only [behind]
    · rw [if_neg short] at continued
      cases continued

theorem string_fits {bytes : Text} (lexed : Lexed (.string bytes)) : bytes.length ≤ STRINGSIZ := by
  rcases lexed with ⟨disescape, c, input, n, _, _, read⟩
  unfold token at read
  split_ifs at read with quote
  · rcases Option.map_eq_some_iff.mp read with ⟨⟨bytes', rest⟩, done, same⟩
    cases same
    exact string_room done
  · rcases Option.bind_eq_some_iff.mp read with ⟨m, _, continued⟩
    split_ifs at continued
    cases continued

theorem tokens_plain_string {bytes : Text} (plain : bytes.all verbatim = true)
    (fits : bytes.length ≤ STRINGSIZ) (rest : Text) :
    tokens false (quoted bytes ++ rest) = (tokens false rest).map (.string bytes :: ·) := by
  have read : string false STRINGSIZ false (bytes ++ '"' :: rest) = some (bytes, rest) := by
    have split := string_plain_append plain (STRINGSIZ - bytes.length) ('"' :: rest)
    rw [Nat.add_sub_cancel' fits] at split
    rw [split, string, if_pos (by simp)]
    simp
  have text : quoted bytes ++ rest = '"' :: (bytes ++ '"' :: rest) := by simp [quoted]
  rw [text, tokens_cons (by decide), token_quoted read, Option.bind_some]
  simp only [drop_quoted]

theorem cstring_plain {t : Token} (lexed : Lexed t) (plain : t.plain = true) :
    '\x00' ∉ t.yytext ∧ cstring t.yytext = t.yytext := by
  have noNul : '\x00' ∉ t.yytext := by
    cases t with
    | text yytext => exact (text_again lexed).1
    | string bytes =>
      have absent : '\x00' ∉ bytes := by
        intro member
        exact absurd (List.all_eq_true.mp plain _ member) (by decide)
      simp [Token.yytext, absent]
  constructor
  · exact noNul
  · apply List.takeWhile_eq_self_iff.mpr
    intro c member
    have notNul : c ≠ '\x00' := by
      intro isNul
      exact noNul (isNul ▸ member)
    simpa using notNul

theorem tokens_again {t : Token} (lexed : Lexed t) (plain : t.plain = true) {rest : Text} (edge : Edge rest) :
    tokens false (t.yytext ++ rest) = (tokens false rest).map (t :: ·) := by
  cases t with
  | text yytext => exact (text_again lexed).2.2.2 rest edge
  | string bytes => exact tokens_plain_string plain (string_fits lexed) rest

theorem tokens_joined {ts : List Token} (lexed : ∀ t ∈ ts, Lexed t) (plain : ts.all Token.plain = true)
    (rest : Text) : tokens false (joined ts ++ rest) = (tokens false rest).map (ts ++ ·) := by
  induction ts with
  | nil => simp [joined]
  | cons t ts ih =>
    rw [List.all_cons, Bool.and_eq_true] at plain
    have here := lexed t List.mem_cons_self
    have later := ih (fun u member => lexed u (List.mem_cons_of_mem t member)) plain.2
    rw [joined_cons, (cstring_plain here plain.1).2, List.append_assoc, List.cons_append,
      tokens_again here plain.1 (Or.inr ⟨_, rfl⟩), tokens_space false rfl, later, Option.map_map]
    rfl

end Scc.Cc1.Lex
