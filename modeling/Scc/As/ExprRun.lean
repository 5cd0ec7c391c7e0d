import Mathlib.Data.Char
import Mathlib.Data.List.TakeWhile
import Scc.As.Grammar

/-!
# Running the grammar functions

What the grammar functions make of an expression depends on the expression alone,
and they stop behind it. The function of a level and its loop are chosen by number
here, so that one induction covers all of them.
-/

namespace Scc.As

set_option autoImplicit false

open Scc.Lib.Fuel

variable (lookup : Text → Symbol)

theorem primary_stuck (expr : Parser → Parsed) (stuck : ∀ p : Parser, p.yytoken = .char '(' → expr p = none) :
    primary lookup expr = primary lookup fun _ => none := by
  funext p
  by_cases opening : p.yytoken = .char '('
  · unfold primary
    simp only [opening, if_true, stuck p opening]
  · unfold primary
    split
    · rfl
    · rfl
    · rw [if_neg opening, if_neg opening]

def levelFn (expr : Parser → Parsed) (level fuel : Nat) : Parser → Parsed :=
  match level with
  | 1 => fun p => (and lookup expr fuel p).andThen fun (np, p) =>
    binaryLoop lookup [.char '|', .char '^'] (and lookup expr) fuel np p
  | 2 => and lookup expr fuel
  | 3 => relational lookup expr fuel
  | 4 => add lookup expr fuel
  | 5 => mul lookup expr fuel
  | 6 => unary lookup expr
  | _ => primary lookup expr

theorem levelFn_stuck (expr : Parser → Parsed) (stuck : ∀ p : Parser, p.yytoken = .char '(' → expr p = none) :
    levelFn lookup expr = levelFn lookup fun _ => none := by
  have primaries := primary_stuck lookup expr stuck
  have unaries : unary lookup expr = unary lookup fun _ => none := by
    funext p
    unfold unary
    rw [primaries]
  have loops : mulLoop lookup expr = mulLoop lookup fun _ => none := by
    funext fuel
    induction fuel with
    | zero => rfl
    | succ fuel ih =>
      funext np p
      unfold mulLoop
      rw [primaries, ih]
  have muls : mul lookup expr = mul lookup fun _ => none := by
    funext fuel p
    unfold mul
    rw [unaries, loops]
  have adds : add lookup expr = add lookup fun _ => none := by
    funext fuel p
    unfold add
    rw [muls]
  have relationals : relational lookup expr = relational lookup fun _ => none := by
    funext fuel p
    unfold relational
    rw [adds]
  have ands : and lookup expr = and lookup fun _ => none := by
    funext fuel p
    unfold and
    rw [relationals]
  funext level fuel
  unfold levelFn
  split
  · rw [ands]
  · rw [ands]
  · rw [relationals]
  · rw [adds]
  · rw [muls]
  · rw [unaries]
  · rw [primaries]

theorem exprBody_level (expr : Parser → Parsed) (fuel : Nat) (p : Parser) : exprBody lookup expr fuel p =
      (levelFn lookup expr 1 fuel { p with regmode := false }).andThen fun (np, p) =>
        .ok (np, { p with regmode := true }) := by
  simp only [exprBody, levelFn, Result.andThen_assoc]

variable {p : Parser} {c : Char} {rest text : Text}

theorem levelFn_stops (level fuel : Nat) {result : Parsed}
    (noMark : unaryMark p.yytoken = none) (stops : primary lookup (fun _ => none) p = result)
    (passes : ∀ more : Node × Parser → Parsed, result.andThen more = result) :
    levelFn lookup (fun _ => none) level fuel p = result := by
  have unaries : unary lookup (fun _ => none) p = result := by
    unfold unary
    rw [noMark]
    exact stops
  have muls : mul lookup (fun _ => none) fuel p = result := by
    rw [mul, unaries, passes]
  have adds : add lookup (fun _ => none) fuel p = result := by
    rw [add, muls, passes]
  have relationals : relational lookup (fun _ => none) fuel p = result := by
    rw [relational, adds, passes]
  have ands : and lookup (fun _ => none) fuel p = result := by
    rw [and, relationals, passes]
  unfold levelFn
  split
  · simp only [ands, passes]
  · exact ands
  · exact relationals
  · exact adds
  · exact muls
  · exact unaries
  · exact stops

theorem levelFn_paren (level fuel : Nat) (opening : p.yytoken = .char '(') :
    levelFn lookup (fun _ => none) level fuel p = none := by
  apply levelFn_stops
  · rw [opening]
    decide
  · unfold primary
    simp only [opening, if_true, Result.andThen_none]
  · intro more
    rfl

theorem levelFn_unexpected (level fuel : Nat) (isChar : p.yytoken = .char c)
    (notParen : c ≠ '(') (noMark : unaryMark (.char c) = none) :
    levelFn lookup (fun _ => none) level fuel p = .error (.unexpected (.char c)) := by
  apply levelFn_stops
  · rw [isChar]
    exact noMark
  · unfold primary
    simp only [isChar, Token.char.injEq, notParen, if_false]
  · intro more
    rfl

theorem expr_paren (fuel : Nat) (opening : p.yytoken = .char '(') : expr lookup fuel p = none := by
  induction fuel generalizing p with
  | zero => rfl
  | succ fuel ih =>
    have stuck := levelFn_stuck lookup (expr lookup fuel) fun p opening => ih opening
    have paren : levelFn lookup (fun _ => none) 1 fuel { p with regmode := false } = none :=
      levelFn_paren lookup 1 fuel opening
    rw [expr, exprBody_level, stuck, paren, Result.andThen_none]

theorem expr_level (fuel : Nat) (p : Parser) : expr lookup (fuel + 1) p =
      (levelFn lookup (fun _ => none) 1 fuel { p with regmode := false }).andThen fun (np, p) =>
        .ok (np, { p with regmode := true }) := by
  have stuck := levelFn_stuck lookup (expr lookup fuel) fun p opening => expr_paren lookup fuel opening
  rw [expr, exprBody_level, stuck]

theorem next_skip {blank : Text} (spaces : Blank blank) (t : Token) (text : Text) (mode : Bool) :
    next lookup ⟨t, blank ++ text, mode⟩ = next lookup ⟨t, text, mode⟩ := by
  have skipped : (blank ++ text).dropWhile isspace = text.dropWhile isspace := by
    rw [List.dropWhile_append, List.dropWhile_eq_nil_iff.mpr spaces]
    rfl
  unfold next
  simp only [skipped]

theorem next_operator (text : Text) (t : Token) {mode : Bool}
    (notSpace : isspace c = false) (notQuote : c ≠ '"' ∧ c ≠ '\'') (percent : c = '%' → mode = false)
    (notName : c.isAlphanum = false ∧ c ≠ '.' ∧ c ≠ '_') :
    next lookup ⟨t, c :: text, mode⟩ = .ok ⟨operator c text, text, mode⟩ := by
  have notDigit : c.isDigit = false ∧ c.isAlpha = false := by
    have parts := notName.1
    simp only [Char.isAlphanum, Bool.or_eq_false_iff] at parts
    exact ⟨parts.2, parts.1⟩
  have here : (c :: text).dropWhile isspace = c :: text :=
    List.dropWhile_cons_of_neg (by simp [notSpace])
  unfold next
  simp only [here]
  by_cases isPercent : c = '%'
  · simp [isPercent, percent isPercent, Except.map]
  · simp [notQuote, isPercent, notName, notDigit, Except.map]

/-- The text behind a number does not continue it. -/
def Boundary (rest : Text) : Prop := ∀ c, rest.head? = some c → c.isAlphanum = false

theorem isDigit_of_range (low : '0' ≤ c) (high : c ≤ '9') : c.isDigit = true := by
  simp only [Char.isDigit, Bool.and_eq_true, decide_eq_true_eq]
  exact ⟨low, high⟩

theorem isAlpha_of_range (range : 'A' ≤ c ∧ c ≤ 'F' ∨ 'a' ≤ c ∧ c ≤ 'f') : c.isAlpha = true := by
  change (c.isUpper || c.isLower) = true
  rw [Bool.or_eq_true]
  rcases range with ⟨low, high⟩ | ⟨low, high⟩
  · exact Or.inl (decide_eq_true ⟨low, le_trans high (by decide : 'F' ≤ 'Z')⟩)
  · right
    change (decide _ && decide _) = true
    rw [Bool.and_eq_true, decide_eq_true_eq, decide_eq_true_eq]
    exact ⟨low, le_trans high (by decide : 'f' ≤ 'z')⟩

theorem space_alphanum (space : isspace c = true) : c.isAlphanum = false := by
  simp only [isspace, Bool.or_eq_true, decide_eq_true_eq] at space
  rcases space with ((((rfl | rfl) | rfl) | rfl) | rfl) | rfl
  all_goals decide

theorem digit_space (digit : c.isDigit = true) : isspace c = false := by
  by_contra space
  rw [Bool.not_eq_false] at space
  have notName := space_alphanum space
  simp only [Char.isAlphanum, digit, Bool.or_true] at notName
  cases notName

theorem xdigit_boundary (notName : c.isAlphanum = false) : xdigit c = none := by
  simp only [Char.isAlphanum, Bool.or_eq_false_iff] at notName
  unfold xdigit
  rw [if_neg, if_neg, if_neg]
  · intro range
    rw [isAlpha_of_range (Or.inr range)] at notName
    cases notName.1
  · intro range
    rw [isAlpha_of_range (Or.inl range)] at notName
    cases notName.1
  · rintro ⟨low, high⟩
    rw [isDigit_of_range low high] at notName
    cases notName.2

theorem digits_append {base n : Nat} (hex : text.all isxdigit = true) (boundary : Boundary rest) :
    digits base n (text ++ rest) = (digits base n text).map fun (v, _) => (v, rest) := by
  induction text generalizing n with
  | nil =>
    cases rest with
    | nil => rfl
    | cons c rest =>
      have stop : digits base n (c :: rest) = .ok (n, c :: rest) := by
        rw [digits, xdigit_boundary (boundary c rfl)]
      rw [List.nil_append, stop]
      rfl
  | cons c text ih =>
    rw [List.all_cons, Bool.and_eq_true] at hex
    rcases Option.isSome_iff_exists.mp hex.1 with ⟨d, isDigit⟩
    rw [List.cons_append, digits, digits, isDigit]
    simp only
    split_ifs
    · rfl
    · rfl
    · exact ih hex.2

theorem digits_value {base n v : Nat} (hex : text.all isxdigit = true)
    (read : digits base n text = .ok (v, rest)) :
    v = text.foldl (fun n c => n * base + (xdigit c).getD 0) n ∧ rest = [] := by
  induction text generalizing n with
  | nil =>
    cases read
    exact ⟨rfl, rfl⟩
  | cons c text ih =>
    rw [List.all_cons, Bool.and_eq_true] at hex
    rcases Option.isSome_iff_exists.mp hex.1 with ⟨d, isDigit⟩
    rw [digits, isDigit] at read
    simp only at read
    split_ifs at read
    rw [List.foldl_cons, isDigit]
    exact ih hex.2 read

theorem numeral_base (wellFormed : isNumeral text = true) (boundary : Boundary rest) :
    numberBase (text ++ rest) = ((numberBase text).1, (numberBase text).2 ++ rest) ∧
      (numberBase text).2.all isxdigit = true := by
  have decimal : ∀ c : Char, c.isDigit = true → isxdigit c = true := by
    intro c digit
    simp only [Char.isDigit, Bool.and_eq_true, decide_eq_true_eq] at digit
    unfold isxdigit xdigit
    rw [if_pos ⟨digit.1, digit.2⟩]
    rfl
  have octal : ∀ c : Char, ('0' ≤ c && c ≤ '7') = true → isxdigit c = true := by
    intro c digit
    simp only [Bool.and_eq_true, decide_eq_true_eq] at digit
    unfold isxdigit xdigit
    rw [if_pos ⟨digit.1, le_trans digit.2 (by decide)⟩]
    rfl
  unfold isNumeral at wellFormed
  split at wellFormed
  · rename_i more
    simp only [Bool.and_eq_true] at wellFormed
    exact ⟨rfl, wellFormed.2⟩
  · rename_i more notHex
    have isOctal : numberBase ('0' :: more) = (8, more) := by
      unfold numberBase
      split
      · rename_i more' same
        cases same
        exact absurd rfl (notHex more')
      · rename_i same
        cases same
        rfl
      · rename_i notZero
        exact absurd rfl (notZero more)
    rw [isOctal]
    constructor
    · unfold numberBase
      rw [List.cons_append]
      split
      · rename_i more' same
        rw [List.cons.injEq] at same
        cases more with
        | nil =>
          rw [List.nil_append] at same
          have notName := boundary 'x' (by rw [same.2]; rfl)
          cases notName
        | cons c more =>
          rw [List.cons_append, List.cons.injEq] at same
          rw [same.2.1] at notHex
          exact absurd rfl (notHex more)
      · rename_i same
        cases same
        rfl
      · rename_i notZero
        exact absurd rfl (notZero (more ++ rest))
    · exact List.all_eq_true.mpr fun c member => octal c (List.all_eq_true.mp wellFormed c member)
  · rename_i notHex notZero
    simp only [Bool.and_eq_true, decide_eq_true_eq] at wellFormed
    have isDecimal : numberBase text = (10, text) := by
      unfold numberBase
      split
      · exact absurd rfl (notHex _)
      · exact absurd rfl (notZero _)
      · rfl
    rw [isDecimal]
    constructor
    · unfold numberBase
      split
      · rename_i more same
        cases text with
        | nil => exact absurd rfl wellFormed.1
        | cons c text =>
          rw [List.cons_append, List.cons.injEq] at same
          rw [same.1] at notZero
          exact absurd rfl (notZero text)
      · rename_i more _ same
        cases text with
        | nil => exact absurd rfl wellFormed.1
        | cons c text =>
          rw [List.cons_append, List.cons.injEq] at same
          rw [same.1] at notZero
          exact absurd rfl (notZero text)
      · rfl
    · exact List.all_eq_true.mpr fun c member => decimal c (List.all_eq_true.mp wellFormed.2 c member)

theorem number_append (wellFormed : isNumeral text = true) (boundary : Boundary rest) :
    number (text ++ rest) = (number text).map fun (t, _) => (t, rest) := by
  have based := numeral_base wellFormed boundary
  have length : (text ++ rest).length - rest.length = text.length := by
    rw [List.length_append]
    omega
  unfold number
  rw [based.1]
  simp only
  rw [digits_append based.2 boundary]
  cases read : digits (numberBase text).1 0 (numberBase text).2 with
  | error e => rfl
  | ok pair =>
    rcases pair with ⟨v, rest'⟩
    have isNil := (digits_value based.2 read).2
    subst isNil
    simp only [Except.map, length, List.length_nil, Nat.sub_zero]
    split_ifs <;> rfl

theorem number_value (wellFormed : isNumeral text = true) {t : Token} (read : number text = .ok (t, rest)) :
    t = .NUMBER (BitVec.ofNat 64 (Expr.numeral text)) := by
  have noRest : Boundary [] := by
    intro c head
    cases head
  have based := numeral_base wellFormed noRest
  unfold number at read
  split at read
  · cases read
  · rename_i n rest' isDigits
    split_ifs at read
    cases read
    rw [(digits_value based.2 isDigits).1]
    rfl

theorem numeral_head (wellFormed : isNumeral text = true) :
    ∃ c more, text = c :: more ∧ c.isDigit = true := by
  unfold isNumeral at wellFormed
  split at wellFormed
  · exact ⟨_, _, rfl, rfl⟩
  · exact ⟨_, _, rfl, rfl⟩
  · simp only [Bool.and_eq_true, decide_eq_true_eq] at wellFormed
    cases text with
    | nil => exact absurd rfl wellFormed.1
    | cons c more => exact ⟨c, more, rfl, List.all_eq_true.mp wellFormed.2 c List.mem_cons_self⟩

theorem next_number (wellFormed : isNumeral text = true)
    (boundary : Boundary rest) (t : Token) (mode : Bool) : next lookup ⟨t, text ++ rest, mode⟩ =
      (number text).map fun (t, _) => ⟨t, rest, mode⟩ := by
  rcases numeral_head wellFormed with ⟨c, more, rfl, digit⟩
  have other : ∀ d : Char, d.isDigit = false → c ≠ d := by
    rintro d notDigit rfl
    rw [digit] at notDigit
    cases notDigit
  have notSpace := digit_space digit
  have here : (c :: more ++ rest).dropWhile isspace = c :: (more ++ rest) :=
    List.dropWhile_cons_of_neg (by simp [notSpace])
  have read := number_append wellFormed boundary
  rw [List.cons_append] at read
  unfold next
  simp only [here]
  rw [if_neg (by simp [other]), if_neg (by simp [other]), if_neg (by simp [other]), if_pos digit, read]
  cases number (c :: more) <;> rfl

end Scc.As
