import Scc.Cc1.Mangling

/-!
# Parameters that are replaced

A parameter becomes the text of its expanded argument. That text is read as the
tokens it was made of exactly when no literal among them is mangled.
-/

namespace Scc.Cc1.Lex

set_option autoImplicit false

/-- The text that `expandarg()` makes of tokens. -/
def written (ts : List Token) : Text := ts.flatMap fun t => t.yytext ++ [' ']

def Fits (bufsiz : Nat) (ts : List Token) : Prop := ts = [] ∨ (written ts).length < bufsiz

instance (bufsiz : Nat) (ts : List Token) : Decidable (Fits bufsiz ts) :=
  inferInstanceAs (Decidable (ts = [] ∨ _))

theorem written_cons (t : Token) (ts : List Token) : written (t :: ts) = t.yytext ++ ' ' :: written ts := by
  simp [written]

variable {ts : List Token}

theorem expandtokens_some {bufsiz : Nat} {text : Text} :
    expandtokens bufsiz ts = some text ↔ text = written ts ∧ Fits bufsiz ts := by
  induction ts generalizing bufsiz text with
  | nil => simp [expandtokens, written, Fits, eq_comm]
  | cons t ts ih =>
    have length : (written (t :: ts)).length = t.yytext.length + 1 + (written ts).length := by
      rw [written_cons, List.length_append, List.length_cons]
      omega
    have room : Fits bufsiz (t :: ts) ↔
        ¬ bufsiz < t.yytext.length + 2 ∧ Fits (bufsiz - (t.yytext.length + 1)) ts := by
      unfold Fits
      rw [length]
      by_cases empty : ts = []
      · subst empty
        simp [written]
        omega
      · simp only [reduceCtorEq, empty, false_or]
        omega
    rw [room, written_cons]
    unfold expandtokens
    by_cases short : bufsiz < t.yytext.length + 2
    · simp [short]
    · rw [if_neg short, Option.map_eq_some_iff]
      simp only [short, not_false_eq_true, true_and]
      constructor
      · rintro ⟨text', later, rfl⟩
        rcases ih.mp later with ⟨rfl, fits⟩
        exact ⟨rfl, fits⟩
      · rintro ⟨rfl, fits⟩
        exact ⟨written ts, ih.mpr ⟨rfl, fits⟩, rfl⟩

theorem written_plain (lexed : ∀ t ∈ ts, Lexed t) (plain : ts.all Token.plain = true) :
    written ts = joined ts := by
  unfold written joined
  apply List.flatMap_congr
  intro t member
  rw [(cstring_plain (lexed t member) (List.all_eq_true.mp plain t member)).2]

theorem cstring_append {start : Text} (noNul : '\x00' ∉ start) (rest : Text) :
    cstring (start ++ rest) = start ++ cstring rest := by
  unfold cstring
  apply List.takeWhile_append_of_pos
  intro c member
  have notNul : c ≠ '\x00' := by
    rintro rfl
    exact noNul member
  simpa using notNul

theorem cstring_cut {bytes : Text} (cut : '\x00' ∈ bytes) (rest : Text) :
    cstring (bytes ++ rest) = cstring bytes := by
  induction bytes with
  | nil => cases cut
  | cons c bytes ih =>
    by_cases nul : c = '\x00'
    · simp [cstring, nul]
    · have later : '\x00' ∈ bytes := by
        rcases List.mem_cons.mp cut with same | inRest
        · exact absurd same.symm nul
        · exact inRest
      rw [List.cons_append, cstring_cons nul, cstring_cons nul, ih later]

theorem joined_noNul (ts : List Token) : '\x00' ∉ joined ts := by
  intro member
  rcases List.mem_flatMap.mp member with ⟨t, _, inText⟩
  rcases List.mem_append.mp inText with inToken | blank
  · have passes := List.mem_takeWhile_imp inToken
    simp at passes
  · simp at blank

theorem lexed_ends {t : Token} (lexed : Lexed t) :
    (∃ c text, cstring t.yytext = c :: text ∧ isspace c = false) ∧
      ∃ text c, t.yytext = text ++ [c] ∧ isspace c = false := by
  cases t with
  | text yytext =>
    rcases text_again lexed with ⟨noNul, ⟨c, text, rfl, notSpace⟩, last, _⟩
    have notNul : c ≠ '\x00' := by
      rintro rfl
      exact noNul List.mem_cons_self
    constructor
    · exact ⟨c, cstring text, cstring_cons notNul text, notSpace⟩
    · have parts := List.dropLast_append_getLast (List.cons_ne_nil c text)
      refine ⟨_, _, parts.symm, ?_⟩
      apply last
      exact List.getLast?_eq_some_getLast (List.cons_ne_nil c text)
  | string bytes =>
    constructor
    · exact ⟨'"', cstring (bytes ++ ['"']), cstring_cons (by decide) _, rfl⟩
    · exact ⟨'"' :: bytes, '"', rfl, rfl⟩

theorem joined_start (lexed : ∀ t ∈ ts, Lexed t) {c : Char} (notSpace : isspace c = false) (rest : Text) :
    (joined ts ++ c :: rest).dropWhile isspace = joined ts ++ c :: rest := by
  cases ts with
  | nil => exact List.dropWhile_cons_of_neg (by simp [notSpace])
  | cons t ts =>
    rcases (lexed_ends (lexed t List.mem_cons_self)).1 with ⟨d, text, starts, notSpace'⟩
    rw [joined_cons, starts, List.append_assoc, List.cons_append]
    exact List.dropWhile_cons_of_neg (by simp [notSpace'])

theorem rdropWhile_append {c : Char} (notSpace : isspace c = false) (start rest : Text) :
    (start ++ c :: rest).rdropWhile isspace = start ++ c :: rest.rdropWhile isspace := by
  induction rest using List.reverseRecOn with
  | nil =>
    rw [List.rdropWhile_concat_neg isspace start c (by simp [notSpace])]
    rfl
  | append_singleton rest d ih =>
    have regroup : start ++ c :: (rest ++ [d]) = start ++ c :: rest ++ [d] := by simp
    rw [regroup]
    by_cases space : isspace d = true
    · rw [List.rdropWhile_concat_pos isspace _ d space, ih, List.rdropWhile_concat_pos isspace _ d space]
    · rw [List.rdropWhile_concat_neg isspace _ d space, List.rdropWhile_concat_neg isspace _ d space, regroup]

theorem strip_joined {t : Token} (lexed : ∀ u ∈ ts ++ [t], Lexed u)
    (noNul : cstring t.yytext = t.yytext) : strip (joined (ts ++ [t])) = joined ts ++ t.yytext := by
  have lexedStart : ∀ u ∈ ts, Lexed u := fun u member => lexed u (List.mem_append_left _ member)
  rcases lexed_ends (lexed t (List.mem_append_right _ (List.mem_singleton_self t))) with
    ⟨⟨d, front, starts, notSpace'⟩, text, c, ends, notSpace⟩
  rw [noNul] at starts
  have whole : joined (ts ++ [t]) = (joined ts ++ text) ++ c :: [' '] := by
    rw [joined_append, joined_cons, noNul, ends]
    simp [joined]
  have trimmed : ([' '] : Text).rdropWhile isspace = [] := by decide
  unfold strip
  rw [whole, rdropWhile_append notSpace, trimmed, List.append_assoc, ← ends, starts,
    joined_start lexedStart notSpace']

theorem tokens_strip (lexed : ∀ t ∈ ts, Lexed t) (plain : ts.all Token.plain = true) :
    tokens false (strip (joined ts)) = some ts := by
  induction ts using List.reverseRecOn with
  | nil => exact tokens_nil false
  | append_singleton ts t _ =>
    rw [List.all_append, Bool.and_eq_true, List.all_cons, List.all_nil, Bool.and_true] at plain
    have here : Lexed t := lexed t (List.mem_append_right _ (List.mem_singleton_self t))
    have last := tokens_again here plain.2 (Or.inl rfl)
    rw [List.append_nil, tokens_nil] at last
    rw [strip_joined lexed (cstring_plain here plain.2).2,
      tokens_joined (fun u member => lexed u (List.mem_append_left _ member)) plain.1, last]
    rfl

theorem strip_string (us : List Token) (bytes : Text) (lexed : ∀ t ∈ ts, Lexed t) :
    ∃ input, strip (joined (ts ++ .string bytes :: us)) = joined ts ++ '"' :: input ∧
      Behind bytes input := by
  have quote : cstring (Token.string bytes).yytext = '"' :: cstring (bytes ++ ['"']) :=
    cstring_cons (by decide) _
  exists (cstring (bytes ++ ['"']) ++ ' ' :: joined us).rdropWhile isspace
  constructor
  · unfold strip
    rw [joined_append, joined_cons, quote, List.cons_append, rdropWhile_append rfl, joined_start lexed rfl]
  · unfold Behind
    split_ifs with cut
    · rw [cstring_cut cut]
      have isPrefix := List.rdropWhile_prefix isspace (l := cstring bytes ++ ' ' :: joined us)
      have blank : cstring bytes ++ [' '] <+: cstring bytes ++ ' ' :: joined us := by
        rw [List.prefix_append_right_inj]
        exact List.cons_prefix_cons.mpr ⟨rfl, List.nil_prefix⟩
      rcases List.prefix_or_prefix_of_prefix isPrefix blank with shorter | ⟨after, longer⟩
      · rcases List.prefix_concat_iff.mp shorter with same | inside
        · exact Or.inr ⟨[], same⟩
        · exact Or.inl inside
      · apply Or.inr
        exists after
        rw [← longer, List.append_assoc]
        rfl
    · exists (' ' :: joined us).rdropWhile isspace
      have noNul : '\x00' ∉ bytes := cut
      rw [cstring_append noNul, List.append_assoc]
      exact rdropWhile_append rfl bytes (' ' :: joined us)

theorem written_string (us : List Token) (bytes : Text)
    (lexed : ∀ t ∈ ts, Lexed t) (plain : ts.all Token.plain = true) :
    ∃ input, cstring (written (ts ++ .string bytes :: us)) = joined ts ++ '"' :: input ∧
      Behind bytes input := by
  have whole : written (ts ++ .string bytes :: us) =
      joined ts ++ '"' :: (bytes ++ '"' :: ' ' :: written us) := by
    rw [← written_plain lexed plain]
    simp [written, Token.yytext]
  exists cstring (bytes ++ '"' :: ' ' :: written us)
  constructor
  · rw [whole, cstring_append (joined_noNul ts), cstring_cons (by decide)]
  · unfold Behind
    split_ifs with cut
    · rw [cstring_cut cut]
      exact Or.inl (List.prefix_refl _)
    · rw [cstring_append cut, cstring_cons (by decide)]
      exact ⟨_, rfl⟩

theorem tokens_string_some {ts us : List Token} {input : Text} (lexed : ∀ t ∈ ts, Lexed t)
    (plain : ts.all Token.plain = true) (read : tokens false (joined ts ++ '"' :: input) = some us) :
    ∃ bytes rest us', string false STRINGSIZ false input = some (bytes, rest) ∧
      us = ts ++ .string bytes :: us' := by
  rw [tokens_joined lexed plain, tokens_cons (by decide)] at read
  rcases Option.map_eq_some_iff.mp read with ⟨vs, later, rfl⟩
  rcases Option.bind_eq_some_iff.mp later with ⟨⟨t, n⟩, isToken, continued⟩
  rcases Option.map_eq_some_iff.mp continued with ⟨us', _, rfl⟩
  unfold token at isToken
  rw [if_pos rfl] at isToken
  rcases Option.map_eq_some_iff.mp isToken with ⟨⟨bytes, rest⟩, done, same⟩
  cases same
  exact ⟨bytes, rest, us', done, rfl⟩

theorem first_mangled (notPlain : ts.all Token.plain = false) :
    ∃ us bytes vs, ts = us ++ .string bytes :: vs ∧ us.all Token.plain = true ∧
      bytes.all verbatim = false := by
  induction ts with
  | nil => cases notPlain
  | cons t ts ih =>
    cases plain : t.plain with
    | true =>
      rw [List.all_cons, plain, Bool.true_and] at notPlain
      rcases ih notPlain with ⟨us, bytes, vs, rfl, plains, special⟩
      refine ⟨t :: us, bytes, vs, rfl, ?_, special⟩
      rw [List.all_cons, plain, plains]
      rfl
    | false =>
      cases t with
      | text yytext => cases plain
      | string bytes => exact ⟨[], bytes, ts, rfl, rfl, plain⟩

theorem plain_of_reread (lexed : ∀ t ∈ ts, Lexed t)
    (read : tokens false (cstring (written ts)) = some ts) : ts.all Token.plain = true := by
  cases plain : ts.all Token.plain with
  | true => rfl
  | false =>
    rcases first_mangled plain with ⟨us, bytes, vs, rfl, plains, special⟩
    have lexedStart : ∀ t ∈ us, Lexed t := fun t member => lexed t (List.mem_append_left _ member)
    rcases written_string vs bytes lexedStart plains with ⟨input, text, behind⟩
    rw [text] at read
    rcases tokens_string_some lexedStart plains read with ⟨read', rest, us', done, same⟩
    have mangled := mangled_of_behind special behind done
    have tails := List.append_cancel_left same
    rw [List.cons.injEq, Token.string.injEq] at tails
    exact absurd tails.1.symm mangled.ne

theorem mangled_not_reread {ts us vs : List Token} {bytes read : Text}
    (lexed : ∀ t ∈ ts, Lexed t) (mangled : Mangled bytes read) :
    tokens false (cstring (written (ts ++ .string read :: us))) ≠ some (ts ++ .string bytes :: vs) := by
  intro reread
  cases plain : ts.all Token.plain with
  | true =>
    rcases written_string us read lexed plain with ⟨input, text, behind⟩
    rw [text] at reread
    rcases tokens_string_some lexed plain reread with ⟨read', rest, us', done, same⟩
    have tails := List.append_cancel_left same
    rw [List.cons.injEq, Token.string.injEq] at tails
    exact (mangled.again behind done).ne tails.1.symm
  | false =>
    rcases first_mangled plain with ⟨front, bytes', back, rfl, plains, special⟩
    have lexedFront : ∀ t ∈ front, Lexed t := fun t member => lexed t (List.mem_append_left _ member)
    rw [List.append_assoc, List.append_assoc, List.cons_append, List.cons_append] at reread
    rcases written_string (back ++ .string read :: us) bytes' lexedFront plains with
      ⟨input, text, behind⟩
    rw [text] at reread
    rcases tokens_string_some lexedFront plains reread with ⟨read', rest, us', done, same⟩
    have tails := List.append_cancel_left same
    rw [List.cons.injEq, Token.string.injEq] at tails
    exact (mangled_of_behind special behind done).ne tails.1.symm

end Scc.Cc1.Lex
