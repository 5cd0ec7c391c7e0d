import Scc.Cc1.Macro

/-!
# String literals in macro definitions

A literal goes through four readers on its way from a definition to a token:
`string()` in define mode, `getdefs()`, `copymacro()` and `string()` again. The
last three take over what the first one stores, and the first one stores the
literal as it is unless two backslashes follow each other.
-/

namespace Scc.Cc1.Lex

set_option autoImplicit false

/-- The definition stores the literal as it is, and the expansion of the macro is
a literal of the given bytes. -/
def Survives (body bytes : Text) : Prop :=
  string true STRINGSIZ false (body ++ ['"']) = some (body, []) ∧
    ∃ defs buffer, define [] (quoted body) = some defs ∧ expandobject defs = some buffer ∧
      tokens false buffer = some [.string bytes]

theorem delimited_closed {body : Text} (isClosed : closed body = true) (rest : Text) :
    delimited '"' false (body ++ '"' :: rest) = some (body.length + 1) := by
  induction body using closed.induct with
  | case1 => rfl
  | case2 d text ih =>
    rw [closed, Bool.and_eq_true, decide_eq_true_eq] at isClosed
    simp [delimited, ih isClosed.2]
  | case3 c text notPair ih =>
    rw [closed] at isClosed
    · simp only [Bool.and_eq_true, decide_eq_true_eq] at isClosed
      simp [delimited, isClosed, ih isClosed.2]
    · exact notPair

theorem define_quoted {body : Text} (isClosed : closed body = true)
    (stored : string true STRINGSIZ false (body ++ ['"']) = some (body, []))
    (fits : body.length + 2 < LINESIZ - 3) : define [] (quoted body) = some (quoted body ++ [' ']) := by
  have read := tokens_quoted [] (fun c member => by cases member) stored
  rw [List.append_nil] at read
  have noNul : cstring (quoted body) = quoted body := by
    have absent := closed_no_nul isClosed
    unfold cstring quoted
    apply List.takeWhile_eq_self_iff.mpr
    intro c member
    have notNul : c ≠ '\x00' := by
      rintro rfl
      simp [absent] at member
    simpa using notNul
  have short : ¬ LINESIZ - 3 ≤ (quoted body).length := by
    simp [quoted]
    omega
  unfold define
  rw [read, Option.bind_some]
  unfold getdefs
  simp only [Token.yytext, findpar, List.findIdx?_nil, isCONCAT, isSTRINGIZE, Option.any_none]
  simp only [reduceCtorEq, decide_false, Bool.false_eq_true, and_false, false_and, if_false]
  change (if LINESIZ - 3 ≤ (cstring (quoted body)).length then none
    else _) = _
  rw [noNul, if_neg short]
  simp [getdefs, isSTRINGIZE, isCONCAT]
  exact noNul

theorem expandobject_quoted {body : Text} (isClosed : closed body = true)
    (fits : body.length + 2 < LINESIZ - 3) :
    expandobject (quoted body ++ [' ']) = some (quoted body ++ [' ']) := by
  have text : quoted body ++ [' '] = '"' :: (body ++ '"' :: [' ']) := by simp [quoted]
  have room : ¬ INPUTSIZ - 1 < body.length + 1 + 1 := by
    unfold INPUTSIZ
    omega
  have left : ¬ INPUTSIZ - 1 - (body.length + 1 + 1) = 0 := by
    unfold INPUTSIZ
    omega
  unfold expandobject
  rw [text, copymacro, if_pos (Or.inr rfl), delimited_closed isClosed, Option.bind_some]
  simp only [room, if_false, drop_quoted, take_quoted]
  rw [ copymacro, if_neg (by decide), if_neg (by decide), if_neg (by decide), if_neg (by decide),
    if_neg left, copymacro]
  simp

/-- A literal in the replacement list of a macro survives exactly when no two
backslashes follow each other in it. -/
theorem string_macro_survives_iff (body bytes : Text)
    (literal : string false STRINGSIZ false (body ++ ['"']) = some (bytes, []))
    (fits : body.length + 2 < LINESIZ - 3) : Survives body bytes ↔ ¬ doubled <:+: body := by
  obtain ⟨isClosed, anywhere⟩ := string_literal literal
  constructor
  · intro survives double
    exact string_doubled isClosed double survives.1
  · intro single
    have room : body.length ≤ STRINGSIZ := by
      unfold LINESIZ at fits
      unfold STRINGSIZ
      omega
    have stored := string_verbatim isClosed single room []
    refine ⟨stored, quoted body ++ [' '], quoted body ++ [' '],
      define_quoted isClosed stored fits, expandobject_quoted isClosed fits, ?_⟩
    apply tokens_quoted
    · intro c member
      rw [List.mem_singleton.mp member]
      rfl
    · exact anywhere [' ']

/-- The literal `"ab\"c"`. -/
theorem escaped_quote_survives : Survives ['a', 'b', '\\', '"', 'c'] ['a', 'b', '"', 'c'] := by
  have literal : string false STRINGSIZ false (['a', 'b', '\\', '"', 'c'] ++ ['"']) =
      some (['a', 'b', '"', 'c'], []) := by
    simp [string, escape, toChar, STRINGSIZ]
  exact (string_macro_survives_iff _ _ literal (by decide)).mpr (by decide)

/-- The literal `"a\\b"` is stored as `a`, a backslash and a backspace. -/
theorem escaped_backslash_mangled :
    string false STRINGSIZ false (['a', '\\', '\\', 'b'] ++ ['"']) =
        some (['a', '\\', 'b'], []) ∧
      string true STRINGSIZ false (['a', '\\', '\\', 'b'] ++ ['"']) =
          some (['a', '\\', '\x08'], []) ∧ ¬ Survives ['a', '\\', '\\', 'b'] ['a', '\\', 'b'] := by
  have direct : string false STRINGSIZ false (['a', '\\', '\\', 'b'] ++ ['"']) =
      some (['a', '\\', 'b'], []) := by
    simp [string, escape, toChar, STRINGSIZ]
  have stored : string true STRINGSIZ false (['a', '\\', '\\', 'b'] ++ ['"']) =
      some (['a', '\\', '\x08'], []) := by
    simp [string, escape, toChar, STRINGSIZ]
  refine ⟨direct, stored, ?_⟩
  intro survives
  have kept := survives.1
  rw [stored] at kept
  exact absurd kept (by decide)

end Scc.Cc1.Lex
