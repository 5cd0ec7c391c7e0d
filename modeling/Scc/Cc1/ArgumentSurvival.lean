import Scc.Cc1.Stringizing

/-!
# Arguments that survive substitution

An argument goes through `string()` up to three times: when the call is read, when
`expandarg()` reads the collected text, and when the expansion is read. It survives
exactly when no literal holds a quote, a backslash or a zero byte, and behind the
stringizing operator exactly when no backslash is spelled in it.
-/

namespace Scc.Cc1.Lex

set_option autoImplicit false

/-- A parameter becomes a text that is read as the tokens, whatever follows. -/
def Substitutes (macros : List Token → List Token) (arglist : List Text) (n bufsiz : Nat)
    (ts : List Token) : Prop :=
  ∃ text,
    (∀ before written rest, concatoper before rest = false →
      copymacro arglist (expandarg macros) before written bufsiz (macropar n ++ rest) =
        copymacro arglist (expandarg macros) ((macropar n).reverse ++ before)
          (text.reverse ++ written) (bufsiz - text.length) rest) ∧
    ∀ after, tokens false (cstring (text ++ after)) = (tokens false (cstring after)).map (ts ++ ·)

/-- A parameter behind the operator becomes one literal of the given bytes. -/
def Stringizes (arglist : List Text) (n bufsiz : Nat) (bytes : Text) : Prop :=
  ∃ text room,
    (∀ expand before written rest,
      copymacro arglist expand before written bufsiz (STRINGIZE :: macropar n ++ rest) =
        copymacro arglist expand ((STRINGIZE :: macropar n).reverse ++ before)
          (('"' :: text ++ ['"']).reverse ++ written) room rest) ∧
    ∀ after, token false '"' (text ++ '"' :: after) = some (.string bytes, text.length + 1)

section Copy

variable (arglist : List Text) (expand : Bool → Text → Nat → Option Text)
  (before written rest : Text) (bufsiz : Nat)

theorem copymacro_blank : copymacro arglist expand before written bufsiz (' ' :: rest) =
      if bufsiz = 0 then none
      else copymacro arglist expand (' ' :: before) (' ' :: written) (bufsiz - 1) rest := by
  rw [ copymacro, if_neg (by decide), if_neg (by decide), if_neg (by decide), if_neg (by decide)]

theorem copymacro_blanks :
    copymacro arglist expand before written bufsiz [' ', ' ', ' '] ≠ some written.reverse := by
  simp only [copymacro_blank, copymacro_nil]
  split_ifs
  · simp
  · simp
  · simp
  · intro same
    have lengths := congrArg List.length (Option.some.inj same)
    simp only [List.length_reverse, List.length_cons] at lengths
    omega

theorem copymacro_mark_blanks : copymacro arglist expand before written bufsiz (MACROPAR :: [' ', ' ', ' ']) =
      copymacro arglist expand before written bufsiz [MACROPAR] := by
  have number : atoi [' ', ' ', ' '] = atoi [] := by decide
  simp only [copymacro_mark, number, List.drop_succ_cons, List.drop_nil, copymacro_nil]

theorem copymacro_hundred {n : Nat} (large : ¬ n < 100) :
    copymacro arglist expand before written bufsiz (macropar n ++ [' ', ' ', ' ']) =
      copymacro arglist expand before written bufsiz (macropar n ++ []) := by
  have before' : concatoper before (MACROPAR :: [' ', ' ', ' ']) = concatoper before [MACROPAR] := rfl
  simp only [macropar, if_neg large, List.cons_append, List.nil_append]
  simp only [copymacro_mark arglist expand before written bufsiz (decimal (n / 100) :: _), atoi_three,
    List.drop_succ_cons, List.drop_zero, List.take_succ_cons, List.take_zero, before', copymacro_mark_blanks]

theorem stringize_hundred {n : Nat} (large : ¬ n < 100) (room : 3 ≤ bufsiz) :
    copymacro arglist expand before written bufsiz (STRINGIZE :: macropar n ++ [' ', ' ', ' ']) =
      copymacro arglist expand before written bufsiz (STRINGIZE :: macropar n ++ []) := by
  simp only [macropar, if_neg large, List.cons_append, List.nil_append]
  simp only [copymacro_operator _ _ _ _ _ _ room, atoi_three, List.drop_succ_cons, List.drop_zero,
    List.take_succ_cons, List.take_zero, copymacro_mark_blanks]

end Copy

section Substitution

variable {macros : List Token → List Token} {arglist : List Text} {n bufsiz : Nat} {arg : Text}
  {ts : List Token}

theorem substitutes_of_plain (given : arglist[n]? = some (strip (joined ts)))
    (lexed : ∀ t ∈ ts, Lexed t) (expanded : ∀ t ∈ macros ts, Lexed t) (index : n < 100)
    (plain : ts.all Token.plain = true) (plain' : (macros ts).all Token.plain = true)
    (fits : Fits bufsiz (macros ts)) : Substitutes macros arglist n bufsiz (macros ts) := by
  exists written (macros ts)
  constructor
  · intro before written' rest free
    have expands : expandarg macros false (arglist.getD n []) bufsiz = some (written (macros ts)) := by
      rw [List.getD_eq_getElem?_getD, given]
      simp only [expandarg, Bool.false_eq_true, if_false, Option.getD_some,
        tokens_strip lexed plain, Option.bind_some]
      exact expandtokens_some.mpr ⟨rfl, fits⟩
    rw [copymacro_macropar _ _ _ _ _ _ index, free, expands, Option.bind_some]
  · intro after
    rw [written_plain expanded plain', cstring_append (joined_noNul _), tokens_joined expanded plain']

theorem Substitutes.readings (given : arglist[n]? = some arg)
    (substitutes : Substitutes macros arglist n bufsiz ts) :
    n < 100 ∧ ∃ us, tokens false arg = some us ∧ Fits bufsiz (macros us) ∧
      tokens false (cstring (written (macros us))) = some ts := by
  rcases substitutes with ⟨text, copies, reread⟩
  have atEnd := copies [] [] [] rfl
  rw [copymacro_nil, List.append_nil, List.append_nil, List.reverse_reverse] at atEnd
  have index : n < 100 := by
    by_contra large
    have beforeBlanks := copies [] [] [' ', ' ', ' '] rfl
    simp only [copymacro_hundred _ _ _ _ _ large, List.append_nil, atEnd] at beforeBlanks
    apply copymacro_blanks arglist (expandarg macros) (macropar n).reverse text.reverse
      (bufsiz - text.length)
    rw [List.reverse_reverse]
    exact beforeBlanks.symm
  constructor
  · exact index
  have step := copymacro_macropar arglist (expandarg macros) [] [] [] bufsiz index
  rw [List.append_nil, atEnd, List.getD_eq_getElem?_getD, given] at step
  rcases Option.bind_eq_some_iff.mp step.symm with ⟨added, expands, same⟩
  rw [copymacro_nil, List.append_nil, List.reverse_reverse, Option.some.injEq] at same
  subst same
  have free : concatoper [] [] = false := rfl
  simp only [free, expandarg, Bool.false_eq_true, if_false, Option.getD_some] at expands
  rcases Option.bind_eq_some_iff.mp expands with ⟨us, read, wrote⟩
  rcases expandtokens_some.mp wrote with ⟨rfl, fits⟩
  refine ⟨us, read, fits, ?_⟩
  have nothing : tokens false (cstring []) = some [] := tokens_nil false
  have whole := reread []
  rw [List.append_nil, nothing, Option.map_some, List.append_nil] at whole
  exact whole

theorem plain_of_substitutes {macros : Token → List Token} (given : arglist[n]? = some (strip (joined ts)))
    (lexed : ∀ t ∈ ts, Lexed t) (expanded : ∀ t, Lexed t → ∀ u ∈ macros t, Lexed u)
    (literal : ∀ bytes, macros (.string bytes) = [.string bytes])
    (substitutes : Substitutes (List.flatMap macros) arglist n bufsiz (ts.flatMap macros)) :
    n < 100 ∧ (ts.flatMap macros).all Token.plain = true ∧ Fits bufsiz (ts.flatMap macros) := by
  rcases substitutes.readings given with ⟨index, us, read, fits, reread⟩
  have lexedFlat : ∀ us : List Token, (∀ t ∈ us, Lexed t) → ∀ u ∈ us.flatMap macros, Lexed u := by
    intro us lexedHere u member
    rcases List.mem_flatMap.mp member with ⟨t, inList, inMacro⟩
    exact expanded t (lexedHere t inList) u inMacro
  cases plain : ts.all Token.plain with
  | true =>
    rw [tokens_strip lexed plain, Option.some.injEq] at read
    subst read
    exact ⟨index, plain_of_reread (lexedFlat ts lexed) reread, fits⟩
  | false =>
    rcases first_mangled plain with ⟨front, bytes, back, rfl, plains, special⟩
    have lexedFront : ∀ t ∈ front, Lexed t := fun t member => lexed t (List.mem_append_left _ member)
    rcases strip_string back bytes lexedFront with ⟨input, text, behind⟩
    rw [text] at read
    rcases tokens_string_some lexedFront plains read with ⟨read', rest, us', done, rfl⟩
    have mangled := mangled_of_behind special behind done
    simp only [List.flatMap_append, List.flatMap_cons, literal, List.cons_append, List.nil_append] at reread
    exact absurd reread (mangled_not_reread (lexedFlat front lexedFront) mangled)

end Substitution

section Stringizing

variable {arglist : List Text} {n bufsiz : Nat} {ls : List Lexeme}

theorem mem_spelling {l : Lexeme} (member : l ∈ ls) {c : Char} (inText : c ∈ l.2) : c ∈ spelling ls := by
  induction ls with
  | nil => cases member
  | cons m ls ih =>
    by_cases empty : ls = []
    · subst empty
      rw [List.mem_singleton] at member
      subst member
      exact inText
    · rw [spelling_cons m ls empty, List.mem_append, List.mem_cons]
      rcases List.mem_cons.mp member with rfl | inRest
      · exact Or.inl inText
      · exact Or.inr (Or.inr (ih inRest))

theorem spelling_noNul (spelt : ∀ l ∈ ls, Spelt l) : '\x00' ∉ spelling ls := by
  induction ls with
  | nil => exact List.not_mem_nil
  | cons l ls ih =>
    have here := (spelt l List.mem_cons_self).noNul
    by_cases empty : ls = []
    · subst empty
      exact here
    · have later := ih fun m member => spelt m (List.mem_cons_of_mem l member)
      rw [spelling_cons l ls empty, List.mem_append, List.mem_cons]
      rintro (inHead | isBlank | inRest)
      · exact here inHead
      · cases isBlank
      · exact later inRest

theorem strip_spelling (spelt : ∀ l ∈ ls, Spelt l) (single : '\\' ∉ spelling ls) :
    strip (joined (ls.map Prod.fst)) = spelling ls := by
  by_cases empty : ls = []
  · subst empty
    rfl
  rcases joined_spelling spelt empty with same | ⟨_, double⟩
  · rcases List.eq_nil_or_concat ls with isNil | ⟨init, l, rfl⟩
    · exact absurd isNil empty
    rw [List.concat_eq_append] at spelt single same ⊢
    have inList : l ∈ init ++ [l] := List.mem_append_right _ (List.mem_singleton_self l)
    have text : l.1.yytext = l.2 := by
      rcases (spelt l inList).yytext with text | ⟨_, double⟩
      · exact text
      · exact absurd (mem_spelling inList double) single
    have noNul : cstring l.1.yytext = l.1.yytext := by
      rw [text]
      have whole := cstring_append (spelt l inList).noNul []
      simpa [cstring] using whole
    have lexed : ∀ t ∈ init.map Prod.fst ++ [l.1], Lexed t := by
      intro t member
      rw [← List.map_singleton, ← List.map_append] at member
      rcases List.mem_map.mp member with ⟨m, inInit, rfl⟩
      exact (spelt m inInit).lexed
    rw [List.map_append, List.map_singleton] at same ⊢
    rw [strip_joined lexed noNul]
    have appended : (joined (init.map Prod.fst) ++ l.1.yytext) ++ [' '] = spelling (init ++ [l]) ++ [' '] := by
      rw [← same, joined_append, joined_cons, noNul]
      simp [joined]
    exact List.append_cancel_right appended
  · exact absurd double single

theorem strip_joined_length {ts : List Token} (some' : ts ≠ []) :
    (strip (joined ts)).length + 1 ≤ (joined ts).length := by
  rcases List.eq_nil_or_concat ts with isNil | ⟨init, t, rfl⟩
  · exact absurd isNil some'
  have whole : joined (init.concat t) = (joined init ++ cstring t.yytext) ++ [' '] := by
    rw [List.concat_eq_append, joined_append, joined_cons]
    simp [joined]
  unfold strip
  rw [whole, List.rdropWhile_concat_pos isspace _ ' ' rfl, List.length_append, List.length_singleton]
  have le := (List.dropWhile_sublist isspace
    (l := (joined init ++ cstring t.yytext).rdropWhile isspace)).length_le
  have le' := (List.rdropWhile_prefix isspace (l := joined init ++ cstring t.yytext)).length_le
  omega

theorem mem_strip {text : Text} {c : Char} (notSpace : isspace c = false) (member : c ∈ text) :
    c ∈ strip text := by
  rcases List.append_of_mem member with ⟨front, back, rfl⟩
  unfold strip
  rw [rdropWhile_append notSpace]
  have inDropped : ∀ front : Text, c ∈ (front ++ c :: back.rdropWhile isspace).dropWhile isspace := by
    intro front
    induction front with
    | nil =>
      rw [List.nil_append, List.dropWhile_cons_of_neg (by simp [notSpace])]
      exact List.mem_cons_self
    | cons d front ih =>
      rw [List.cons_append, List.dropWhile_cons]
      split_ifs
      · exact ih
      · exact List.mem_cons_of_mem d (List.mem_append_right _ List.mem_cons_self)
  exact inDropped front

theorem stringizes_of_single (given : arglist[n]? = some (strip (joined (ls.map Prod.fst))))
    (spelt : ∀ l ∈ ls, Spelt l) (index : n < 100) (single : '\\' ∉ spelling ls)
    (short : (spelling ls).length ≤ STRINGSIZ) (room : 3 ≤ bufsiz)
    (fits : (escaped (spelling ls)).length < bufsiz) : Stringizes arglist n bufsiz (spelling ls) := by
  exists escaped (spelling ls), bufsiz - (escaped (spelling ls)).length
  constructor
  · intro expand before written' rest
    have writes := (stringize_some room).mpr ⟨rfl, fits, rfl⟩
    rw [copymacro_stringize _ _ _ _ _ _ index room, List.getD_eq_getElem?_getD, given,
      strip_spelling spelt single, Option.getD_some, writes, Option.bind_some]
  · intro after
    have read := string_escaped single (spelling_noNul spelt) short after
    exact token_quoted read

theorem Stringizes.reading {arg bytes : Text} (given : arglist[n]? = some arg)
    (stringizes : Stringizes arglist n bufsiz bytes) : n < 100 ∧ 3 ≤ bufsiz ∧ (escaped arg).length < bufsiz ∧
      string false STRINGSIZ false (escaped arg ++ ['"']) = some (bytes, []) := by
  rcases stringizes with ⟨text, room, copies, reread⟩
  have atEnd := copies (expandarg id) [] [] []
  rw [copymacro_nil, List.append_nil, List.append_nil, List.reverse_reverse] at atEnd
  have start : 3 ≤ bufsiz := by
    by_contra full
    rw [List.cons_append, copymacro, if_neg (by decide), if_neg (by decide), if_pos rfl,
      if_pos (by omega)] at atEnd
    cases atEnd
  have index : n < 100 := by
    by_contra large
    have beforeBlanks := copies (expandarg id) [] [] [' ', ' ', ' ']
    simp only [stringize_hundred _ _ _ _ _ large start, List.append_nil, atEnd] at beforeBlanks
    apply copymacro_blanks arglist (expandarg id) (STRINGIZE :: macropar n).reverse
      ('"' :: text ++ ['"']).reverse room
    rw [List.reverse_reverse]
    exact beforeBlanks.symm
  have step := copymacro_stringize arglist (expandarg id) [] [] [] bufsiz index start
  rw [List.append_nil, atEnd, List.getD_eq_getElem?_getD, given] at step
  rcases Option.bind_eq_some_iff.mp step.symm with ⟨⟨added, room'⟩, writes, same⟩
  simp only [copymacro_nil, List.append_nil, List.reverse_reverse, Option.some.injEq] at same
  have sameText : added = text := List.append_cancel_right (List.tail_eq_of_cons_eq same)
  rcases (stringize_some start).mp writes with ⟨isEscaped, fits, _⟩
  have isText : text = escaped arg := sameText.symm.trans isEscaped
  refine ⟨index, start, fits, ?_⟩
  have read := reread []
  unfold token at read
  rw [if_pos rfl] at read
  rcases Option.map_eq_some_iff.mp read with ⟨⟨bytes', rest⟩, done, pair⟩
  simp only [Prod.mk.injEq, Token.string.injEq, List.length_append, List.length_cons, List.length_nil] at pair
  have isNil : rest = [] := List.length_eq_zero_iff.mp (by omega)
  rw [isText, pair.1, isNil] at done
  exact done

theorem single_of_stringizes (given : arglist[n]? = some (strip (joined (ls.map Prod.fst))))
    (spelt : ∀ l ∈ ls, Spelt l) (stringizes : Stringizes arglist n bufsiz (spelling ls)) :
    n < 100 ∧ '\\' ∉ spelling ls ∧ (spelling ls).length ≤ STRINGSIZ ∧ 3 ≤ bufsiz ∧
      (escaped (spelling ls)).length < bufsiz := by
  rcases stringizes.reading given with ⟨index, start, fits, read⟩
  have lengths := string_escaped_length read
  have single : '\\' ∉ spelling ls := by
    intro double
    have some' : ls ≠ [] := by
      rintro rfl
      cases double
    have notNil : ls.map Prod.fst ≠ [] := by simpa using some'
    have shorter := strip_joined_length notNil
    rcases joined_spelling spelt some' with same | ⟨fewer, _⟩
    · have inArg : '\\' ∈ strip (joined (ls.map Prod.fst)) := by
        apply mem_strip rfl
        rw [same]
        exact List.mem_append_left _ double
      have less := lengths.2 inArg
      rw [same, List.length_append, List.length_singleton] at shorter
      rw [← same] at shorter
      omega
    · omega
  rw [strip_spelling spelt single] at fits
  exact ⟨index, single, string_room read, start, fits⟩

end Stringizing

end Scc.Cc1.Lex
