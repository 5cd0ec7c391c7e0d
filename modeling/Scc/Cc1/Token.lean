import Scc.Cc1.Lex

/-!
# Tokens

`next()` on the text of one input, with the tokens as the preprocessor sees them:
the characters of `yytext`, and for a string literal its bytes. A lexeme is a token
with its spelling in the text.
-/

namespace Scc.Cc1.Lex

set_option autoImplicit false

inductive Token where
  /-- An identifier, a number, a character constant or an operator. -/
  | text (yytext : Text)
  | string (bytes : Text)
deriving DecidableEq

abbrev Lexeme := Token × Text

def isspace (c : Char) : Bool :=
  c = ' ' || c = '\n' || c = '\t' || c = '\r' || c = '\x0b' || c = '\x0c'

def isidchar (c : Char) : Bool := c.isAlphanum || c = '_'

/-! The functions below count the characters that they take. -/

def follow (expect : Char) (input : Text) : Nat := if input.head? = some expect then 1 else 0

def relational (op : Char) : Text → Nat
  | [] => 0
  | c :: rest => if c = '=' then 1 else if c = op then follow '=' rest + 1 else 0

def logic (op : Char) (input : Text) : Nat :=
  if input.head? = some '=' then 1 else follow op input

def minus (input : Text) : Nat :=
  if input.head? = some '-' then 1 else if input.head? = some '>' then 1 else follow '=' input

def plus (input : Text) : Nat := if input.head? = some '+' then 1 else follow '=' input

def dot : Text → Option Nat
  | '.' :: '.' :: _ => some 2
  | '.' :: _ => none
  | _ => some 0

def operator (t : Char) (input : Text) : Option Nat :=
  match t with
  | '<' => some (relational '<' input)
  | '>' => some (relational '>' input)
  | '&' => some (logic '&' input)
  | '|' => some (logic '|' input)
  | '=' => some (follow '=' input)
  | '^' => some (follow '=' input)
  | '*' => some (follow '=' input)
  | '/' => some (follow '=' input)
  | '%' => some (follow '=' input)
  | '!' => some (follow '=' input)
  | '#' => some (follow '#' input)
  | '-' => some (minus input)
  | '+' => some (plus input)
  | '.' => dot input
  | _ => some 0

/-- `character()` after the opening quote. -/
def character (input : Text) : Option Nat :=
  match input with
  | [] => none
  | c :: rest =>
    if c = '\'' then some 1
    else if c = '\x00' then none
    else if c = '\\' then
      (escape rest).bind fun (_, n) => (character (rest.drop n)).map (· + n + 1)
    else (character rest).map (· + 1)
termination_by input.length
decreasing_by
  · simp only [List.length_drop, List.length_cons]
    omega
  · exact Nat.lt_succ_self _

/-- The suffixes of `integer()`; three `L` or two `U` are an error. -/
def suffix : Nat → Bool → Text → Option Nat
  | _, _, [] => some 0
  | size, sign, c :: rest =>
    if c = 'L' ∨ c = 'l' then
      if size = 2 then none else (suffix (size + 1) sign rest).map (· + 1)
    else if c = 'U' ∨ c = 'u' then
      if sign then none else (suffix size true rest).map (· + 1)
    else some 0

def isxdigit (c : Char) : Bool := (digit c).isSome

def isoctal (c : Char) : Bool := '0' ≤ c ∧ c ≤ '7'

/-- The digits and the suffix of a number. -/
def integer (isDigit : Char → Bool) (input : Text) : Option Nat :=
  let n := (input.takeWhile isDigit).length
  (suffix 0 false (input.drop n)).map (· + n)

/-- `number()` after its first digit. -/
def number (c : Char) (input : Text) : Option Nat :=
  if c ≠ '0' then integer Char.isDigit input
  else
    match input with
    | 'x' :: rest => (integer isxdigit rest).map (· + 1)
    | 'X' :: rest => (integer isxdigit rest).map (· + 1)
    | _ => integer isoctal input

/-- `iden()` after its first character; `L` before a quote begins a character. -/
def iden (c : Char) (input : Text) : Option Nat :=
  if c = 'L' ∧ input.head? = some '\'' then (character input.tail).map (· + 1)
  else some (input.takeWhile isidchar).length

def tokenLength (c : Char) (input : Text) : Option Nat :=
  if c.isAlpha || c = '_' then iden c input
  else if c.isDigit then number c input
  else if c = '\'' then character input
  else operator c input

/-- The token that begins with a character, and how much of the text after it it
takes. -/
def token (disescape : Bool) (c : Char) (input : Text) : Option (Token × Nat) :=
  if c = '"' then
    (string disescape STRINGSIZ false input).map fun (bytes, rest) =>
      (.string bytes, input.length - rest.length)
  else
    (tokenLength c input).bind fun n =>
      if n < INTIDENTSIZ then some (.text (c :: input.take n), n) else none

def lexemes (disescape : Bool) (input : Text) : Option (List Lexeme) :=
  match _skipped : input.dropWhile isspace with
  | [] => some []
  | c :: rest =>
    (token disescape c rest).bind fun (t, n) =>
      (lexemes disescape (rest.drop n)).map ((t, c :: rest.take n) :: ·)
termination_by input.length
decreasing_by
  have shorter : (input.dropWhile isspace).length ≤ input.length :=
    (List.dropWhile_sublist isspace).length_le
  rw [_skipped] at shorter
  simp only [List.length_cons] at shorter
  rw [List.length_drop]
  omega

def tokens (disescape : Bool) (input : Text) : Option (List Token) :=
  (lexemes disescape input).map (List.map Prod.fst)

theorem lexemes_blank (disescape : Bool) {blank : Text} (spaces : ∀ c ∈ blank, isspace c = true) :
    lexemes disescape blank = some [] := by
  have skipped : blank.dropWhile isspace = [] := List.dropWhile_eq_nil_iff.mpr spaces
  rw [lexemes]
  split
  · rfl
  · rename_i c rest notBlank
    rw [skipped] at notBlank
    cases notBlank

theorem lexemes_nil (disescape : Bool) : lexemes disescape [] = some [] :=
  lexemes_blank disescape fun c member => by cases member

variable {c : Char} {disescape : Bool}

theorem lexemes_cons {rest : Text} (notSpace : isspace c = false) : lexemes disescape (c :: rest) =
      (token disescape c rest).bind fun (t, n) =>
        (lexemes disescape (rest.drop n)).map ((t, c :: rest.take n) :: ·) := by
  have skipped : (c :: rest).dropWhile isspace = c :: rest :=
    List.dropWhile_cons_of_neg (by simp [notSpace])
  rw [lexemes]
  split
  · rename_i blank
    rw [skipped] at blank
    cases blank
  · rename_i c' rest' same
    rw [skipped] at same
    cases same
    rfl

theorem tokens_blank (disescape : Bool) {blank : Text} (spaces : ∀ c ∈ blank, isspace c = true) :
    tokens disescape blank = some [] := by
  unfold tokens
  rw [lexemes_blank disescape spaces]
  rfl

theorem tokens_nil (disescape : Bool) : tokens disescape [] = some [] :=
  tokens_blank disescape fun c member => by cases member

theorem tokens_cons {rest : Text} (notSpace : isspace c = false) : tokens disescape (c :: rest) =
      (token disescape c rest).bind fun (t, n) => (tokens disescape (rest.drop n)).map (t :: ·) := by
  unfold tokens
  rw [lexemes_cons notSpace]
  cases token disescape c rest with
  | none => rfl
  | some pair => simp [Option.map_map, Function.comp_def]

theorem lexemes_skip (disescape : Bool) (input : Text) :
    lexemes disescape input = lexemes disescape (input.dropWhile isspace) := by
  cases skipped : input.dropWhile isspace with
  | nil =>
    have spaces : ∀ c ∈ input, isspace c = true := List.dropWhile_eq_nil_iff.mp skipped
    rw [lexemes_blank disescape spaces, lexemes_blank disescape fun c member => by cases member]
  | cons c rest =>
    have notSpace : isspace c = false := by
      have head := List.head?_dropWhile_not isspace input
      rw [skipped] at head
      simpa using head
    rw [lexemes_cons notSpace, lexemes]
    split
    · rename_i blank
      rw [skipped] at blank
      cases blank
    · rename_i c' rest' same
      rw [skipped] at same
      cases same
      rfl

theorem tokens_space (disescape : Bool) (space : isspace c = true) (rest : Text) :
    tokens disescape (c :: rest) = tokens disescape rest := by
  unfold tokens
  rw [lexemes_skip, List.dropWhile_cons_of_pos space, ← lexemes_skip]

def quoted (body : Text) : Text := '"' :: body ++ ['"']

theorem take_quoted (body rest : Text) :
    (body ++ '"' :: rest).take (body.length + 1) = body ++ ['"'] := by
  rw [List.take_append, List.take_of_length_le (Nat.le_succ _)]
  simp

theorem drop_quoted (body rest : Text) : (body ++ '"' :: rest).drop (body.length + 1) = rest := by
  simp [List.drop_append]

theorem token_quoted {body bytes rest : Text}
    (done : string disescape STRINGSIZ false (body ++ '"' :: rest) = some (bytes, rest)) :
    token disescape '"' (body ++ '"' :: rest) =
      some (.string bytes, body.length + 1) := by
  have taken : (body ++ '"' :: rest).length - rest.length = body.length + 1 := by
    simp
    omega
  unfold token
  rw [if_pos rfl, done, Option.map_some]
  simp only [taken]

theorem tokens_quoted (blank : Text) {body bytes : Text} (spaces : ∀ c ∈ blank, isspace c = true)
    (done : string disescape STRINGSIZ false (body ++ '"' :: blank) = some (bytes, blank)) :
    tokens disescape (quoted body ++ blank) = some [.string bytes] := by
  have text : quoted body ++ blank = '"' :: (body ++ '"' :: blank) := by simp [quoted]
  rw [text, tokens_cons (by decide), token_quoted done, Option.bind_some]
  simp only [drop_quoted, tokens_blank disescape spaces, Option.map_some]

end Scc.Cc1.Lex
