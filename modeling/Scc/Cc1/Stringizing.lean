import Scc.Cc1.Substitution

/-!
# Parameters that become literals

The stringizing operator escapes the quotes of an argument and nothing else. The
literal has the spelling of the argument as its bytes exactly when no backslash is
spelled in it: the bytes are never more than the characters of the argument, and
every escape sequence makes them fewer.
-/

namespace Scc.Cc1.Lex

set_option autoImplicit false

/-- The spelling of tokens with one blank between two of them. -/
def spelling : List Lexeme → Text
  | [] => []
  | [l] => l.2
  | l :: ls => l.2 ++ ' ' :: spelling ls

/-- What the operator writes between the quotes. -/
def escaped (arg : Text) : Text := arg.flatMap fun c => if c = '"' then ['\\', '"'] else [c]

theorem escaped_cons (c : Char) (arg : Text) :
    escaped (c :: arg) = if c = '"' then '\\' :: '"' :: escaped arg else c :: escaped arg := by
  unfold escaped
  rw [List.flatMap_cons]
  split_ifs <;> rfl

theorem stringize_some {bufsiz room : Nat} {arg text : Text} (start : 3 ≤ bufsiz) :
    stringize bufsiz arg = some (text, room) ↔
      text = escaped arg ∧ (escaped arg).length < bufsiz ∧ room = bufsiz - (escaped arg).length := by
  have step : ∀ {bufsiz : Nat} {text : Text}, 1 ≤ bufsiz →
      (stringize bufsiz arg = some (text, room) ↔
        text = escaped arg ∧ (escaped arg).length < bufsiz ∧
          room = bufsiz - (escaped arg).length) := by
    induction arg with
    | nil =>
      intro bufsiz text room'
      simp [stringize, escaped]
      omega
    | cons c arg ih =>
      intro bufsiz text room'
      rw [escaped_cons]
      unfold stringize
      by_cases quote : c = '"'
      · simp only [quote, if_true, List.length_cons]
        by_cases full : bufsiz < 3
        · simp only [full, if_true]
          constructor
          · intro absurd'
            cases absurd'
          · intro parts
            omega
        · rw [if_neg full, Option.map_eq_some_iff]
          constructor
          · rintro ⟨⟨text', room''⟩, later, same⟩
            cases same
            rcases (ih (by omega)).mp later with ⟨rfl, fits, left⟩
            exact ⟨rfl, by omega, by omega⟩
          · rintro ⟨rfl, fits, left⟩
            refine ⟨(escaped arg, room), (ih (by omega)).mpr ⟨rfl, by omega, by omega⟩, rfl⟩
      · simp only [quote, if_false, List.length_cons]
        by_cases full : bufsiz < 2
        · simp only [full, if_true]
          constructor
          · intro absurd'
            cases absurd'
          · intro parts
            omega
        · rw [if_neg full, Option.map_eq_some_iff]
          constructor
          · rintro ⟨⟨text', room''⟩, later, same⟩
            cases same
            rcases (ih (by omega)).mp later with ⟨rfl, fits, left⟩
            exact ⟨rfl, by omega, by omega⟩
          · rintro ⟨rfl, fits, left⟩
            refine ⟨(escaped arg, room), (ih (by omega)).mpr ⟨rfl, by omega, by omega⟩, rfl⟩
  exact step (by omega)

theorem string_escaped {arg : Text} (single : '\\' ∉ arg) (noNul : '\x00' ∉ arg) {room : Nat}
    (fits : arg.length ≤ room) (rest : Text) :
    string false room false (escaped arg ++ '"' :: rest) = some (arg, rest) := by
  induction arg generalizing room with
  | nil =>
    change string false room false ('"' :: rest) = some ([], rest)
    rw [string, if_pos (by simp)]
  | cons c arg ih =>
    simp only [List.mem_cons, not_or] at single noNul
    simp only [List.length_cons] at fits
    obtain ⟨less, rfl⟩ : ∃ less, room = less + 1 := ⟨room - 1, by omega⟩
    have fits' : arg.length ≤ less := by omega
    have later := ih single.2 noNul.2 fits'
    rw [escaped_cons]
    by_cases quote : c = '"'
    · subst quote
      rw [if_pos rfl, List.cons_append, List.cons_append, string_escape rfl,
        escape_stop (Or.inl rfl), Option.bind_some]
      simp only [List.drop_succ_cons, List.drop_zero, later, Option.map_some]
      rfl
    · have backslash : ¬ (c = '\\') := fun same => single.1 same.symm
      rw [if_neg quote, List.cons_append,
        string_plain (by simp [quote]) (fun same => noNul.1 same.symm) (by simp [backslash])]
      simp only [backslash, decide_false, Bool.false_and, later, Option.map_some]

theorem escaped_drop {arg : Text} {n : Nat} (inside : n ≤ (escaped arg).length)
    (digits : ∀ q ∈ (escaped arg).take n, digit q ≠ none) :
    n ≤ arg.length ∧ (escaped arg).drop n = escaped (arg.drop n) := by
  induction arg generalizing n with
  | nil => exact ⟨inside, by simp [escaped]⟩
  | cons c arg ih =>
    cases n with
    | zero => exact ⟨Nat.zero_le _, rfl⟩
    | succ n =>
      rw [escaped_cons] at inside digits ⊢
      by_cases quote : c = '"'
      · rw [if_pos quote] at digits
        exact absurd rfl (digits '\\' List.mem_cons_self)
      · rw [if_neg quote] at inside digits ⊢
        rw [List.take_succ_cons] at digits
        rcases ih (Nat.le_of_succ_le_succ inside)
          (fun q member => digits q (List.mem_cons_of_mem c member)) with ⟨le, same⟩
        exact ⟨Nat.succ_le_succ le, same⟩

theorem string_escaped_length {arg bytes rest : Text} {room : Nat}
    (done : string false room false (escaped arg ++ '"' :: rest) = some (bytes, rest)) :
    bytes.length ≤ arg.length ∧ ('\\' ∈ arg → bytes.length < arg.length) := by
  induction hlen : arg.length using Nat.strongRecOn generalizing arg room bytes with
  | ind len ih =>
    cases arg with
    | nil =>
      change string false room false ('"' :: rest) = some (bytes, rest) at done
      rw [string, if_pos (by simp)] at done
      cases done
      exact ⟨Nat.zero_le _, fun member => by cases member⟩
    | cons c arg =>
      simp only [List.length_cons] at hlen
      rw [escaped_cons] at done
      by_cases quote : c = '"'
      · subst quote
        rw [if_pos rfl, List.cons_append, List.cons_append] at done
        rcases string_escape_some rfl done with ⟨less, e, n, bytes', _, escaped', rfl, read⟩
        rw [escape_stop (Or.inl rfl)] at escaped'
        cases escaped'
        have later := ih arg.length (by omega) read rfl
        rw [List.length_cons]
        constructor
        · omega
        · intro member
          have shorter := later.2 (by simpa using member)
          omega
      rw [if_neg quote, List.cons_append] at done
      by_cases backslash : c = '\\'
      · subst backslash
        rcases string_escape_some rfl done with ⟨less, e, n, bytes', _, escaped', rfl, read⟩
        have fewer : bytes'.length + 1 ≤ arg.length := by
          cases arg with
          | nil =>
            rw [escaped, List.flatMap_nil, List.nil_append, escape_stop (Or.inl rfl)] at escaped'
            cases escaped'
            exact absurd (string_rest_lt read) (Nat.lt_irrefl _)
          | cons d arg =>
            rw [escaped_cons] at escaped' read
            by_cases quote' : d = '"'
            · rw [if_pos quote', List.cons_append, List.cons_append] at escaped' read
              cases escaped'
              simp only [List.drop_succ_cons, List.drop_zero] at read
              rw [string, if_pos (by simp)] at read
              have lengths := congrArg (fun pair => pair.2.length) (Option.some.inj read)
              simp only [List.length_append, List.length_cons] at lengths
              omega
            · rw [if_neg quote'] at escaped' read
              rcases escape_before (Or.inl rfl) escaped' with ⟨_, more, rfl, inside, digits⟩
              rcases escaped_drop inside digits with ⟨le, same⟩
              rw [List.cons_append, List.drop_succ_cons, List.drop_append_of_le_length inside, same] at read
              simp only [List.length_cons] at hlen
              have later := ih (arg.drop more).length (by rw [List.length_drop]; omega) read rfl
              rw [List.length_drop] at later
              rw [List.length_cons]
              omega
        rw [List.length_cons]
        exact ⟨by omega, fun _ => by omega⟩
      · rcases string_plain_some (by simp [quote]) (by simp [backslash]) done with
          ⟨less, bytes', _, _, rfl, read⟩
        simp only [backslash, decide_false, Bool.false_and] at read
        have later := ih arg.length (by omega) read rfl
        rw [List.length_cons]
        constructor
        · omega
        · intro member
          rcases List.mem_cons.mp member with same | inRest
          · exact absurd same.symm backslash
          · have shorter := later.2 inRest
            omega

/-- A token with the text it was read from. -/
def Spelt (l : Lexeme) : Prop :=
  ∃ c input n, '\x00' ∉ c :: input ∧ isspace c = false ∧ token false c input = some (l.1, n) ∧
    l.2 = c :: input.take n

theorem lexemes_spelt {source : Text} {ls : List Lexeme} (noNul : '\x00' ∉ source)
    (read : lexemes false source = some ls) : ∀ l ∈ ls, Spelt l := by
  induction hlen : source.length using Nat.strongRecOn generalizing source ls with
  | ind len ih =>
    rw [lexemes] at read
    split at read
    · cases read
      intro l member
      cases member
    · rename_i c rest skipped
      have sublist := List.dropWhile_sublist isspace (l := source)
      have notSpace : isspace c = false := by
        have head := List.head?_dropWhile_not isspace source
        rw [skipped] at head
        simpa using head
      rw [skipped] at sublist
      have noNul' : '\x00' ∉ c :: rest := fun member => noNul (sublist.subset member)
      rcases Option.bind_eq_some_iff.mp read with ⟨⟨t, n⟩, isToken, continued⟩
      rcases Option.map_eq_some_iff.mp continued with ⟨ls', later, rfl⟩
      intro l member
      rcases List.mem_cons.mp member with rfl | inRest
      · exact ⟨c, rest, n, noNul', notSpace, isToken, rfl⟩
      · have shorter : (rest.drop n).length < len := by
          have le := sublist.length_le
          rw [List.length_cons] at le
          rw [List.length_drop]
          omega
        have noNulRest : '\x00' ∉ rest.drop n := by
          intro nul
          exact noNul' (List.mem_cons_of_mem c (List.mem_of_mem_drop nul))
        exact ih (rest.drop n).length shorter noNulRest later rfl l inRest

theorem Spelt.lexed {l : Lexeme} (spelt : Spelt l) : Lexed l.1 := by
  rcases spelt with ⟨c, input, n, noNul, notSpace, isToken, _⟩
  exact ⟨false, c, input, n, noNul, notSpace, isToken⟩

theorem Spelt.noNul {l : Lexeme} (spelt : Spelt l) : '\x00' ∉ l.2 := by
  rcases spelt with ⟨c, input, n, noNul, _, _, same⟩
  rw [same]
  intro member
  rcases List.mem_cons.mp member with isHead | inRest
  · exact noNul (isHead ▸ List.mem_cons_self)
  · exact noNul (List.mem_cons_of_mem c (List.mem_of_mem_take inRest))

theorem Spelt.yytext {l : Lexeme} (spelt : Spelt l) :
    l.1.yytext = l.2 ∨ l.1.yytext.length < l.2.length ∧ '\\' ∈ l.2 := by
  rcases l with ⟨t, text⟩
  rcases spelt with ⟨c, input, n, _, _, isToken, same⟩
  simp only at isToken same ⊢
  rw [same]
  unfold token at isToken
  split_ifs at isToken with quote
  · rcases Option.map_eq_some_iff.mp isToken with ⟨⟨bytes, rest⟩, done, pair⟩
    cases pair
    rcases string_body done with ⟨body, rfl, fewer⟩
    have taken : (body ++ '"' :: rest).length - rest.length = body.length + 1 := by
      rw [List.length_append, List.length_cons]
      omega
    rw [taken, take_quoted, quote]
    rcases fewer with rfl | ⟨shorter, inBody⟩
    · exact Or.inl rfl
    · apply Or.inr
      constructor
      · simp only [Token.yytext, List.cons_append, List.length_cons, List.length_append, List.length_nil]
        omega
      · exact List.mem_cons_of_mem _ (List.mem_append_left _ inBody)
  · rcases Option.bind_eq_some_iff.mp isToken with ⟨m, _, continued⟩
    split_ifs at continued
    cases continued
    exact Or.inl rfl

theorem spelling_cons (l : Lexeme) (ls : List Lexeme) (more : ls ≠ []) :
    spelling (l :: ls) = l.2 ++ ' ' :: spelling ls := by
  cases ls with
  | nil => exact absurd rfl more
  | cons l' ls => rfl

theorem joined_spelling {ls : List Lexeme} (spelt : ∀ l ∈ ls, Spelt l) (some' : ls ≠ []) :
    joined (ls.map Prod.fst) = spelling ls ++ [' '] ∨
      (joined (ls.map Prod.fst)).length < (spelling ls).length + 1 ∧ '\\' ∈ spelling ls := by
  have kept : ∀ l ∈ ls, cstring l.1.yytext = l.2 ∨
      (cstring l.1.yytext).length < l.2.length ∧ '\\' ∈ l.2 := by
    intro l member
    rcases (spelt l member).yytext with same | ⟨shorter, inText⟩
    · apply Or.inl
      rw [same]
      have whole := cstring_append (spelt l member).noNul []
      simpa [cstring] using whole
    · apply Or.inr
      have le := (List.takeWhile_sublist (fun c => decide (c ≠ '\x00')) (l := l.1.yytext)).length_le
      exact ⟨Nat.lt_of_le_of_lt le shorter, inText⟩
  clear spelt
  induction ls with
  | nil => exact absurd rfl some'
  | cons l ls ih =>
    have here := kept l List.mem_cons_self
    rw [List.map_cons, joined_cons]
    by_cases empty : ls = []
    · subst empty
      rcases here with same | ⟨shorter, inText⟩
      · exact Or.inl (by rw [same]; rfl)
      · apply Or.inr
        constructor
        · simp [joined, spelling]
          exact shorter
        · exact inText
    · have later := ih empty fun m member => kept m (List.mem_cons_of_mem l member)
      rw [spelling_cons l ls empty]
      simp only [List.length_append, List.length_cons, List.mem_append, List.mem_cons]
      rcases here with same | ⟨shorter, inText⟩
      · rcases later with same' | ⟨shorter', inText'⟩
        · apply Or.inl
          rw [same, same', List.append_assoc]
          rfl
        · apply Or.inr
          rw [same]
          exact ⟨by omega, Or.inr (Or.inr inText')⟩
      · apply Or.inr
        have le : (joined (ls.map Prod.fst)).length ≤ (spelling ls).length + 1 := by
          rcases later with same' | ⟨shorter', _⟩
          · rw [same', List.length_append]
            rfl
          · exact Nat.le_of_lt shorter'
        exact ⟨by omega, Or.inl inText⟩

end Scc.Cc1.Lex
