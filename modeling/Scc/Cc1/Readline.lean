import Scc.Cc1.Lex

/-!
# Logical lines

`readline()` reads a logical line from a file: it joins the physical lines that a backslash continues,
discards the comments and checks that the line fits in the buffer. `EOF` is `none`, and the zero that
says that no character is pushed back is a character like any other, so that a zero of the file is lost
where it would be pushed back.
-/

namespace Scc.Cc1.Readline

open Scc.Cc1.Lex (Text INPUTSIZ)

set_option autoImplicit false

inductive Error
  | unterminated | tooLong

structure Input where
  text : Text
  eof : Bool
  lineno : Nat
  errors : List Error

def newline (input : Input) : Option Input :=
  if input.lineno + 1 = 4294967296 then none else some { input with lineno := input.lineno + 1 }

/-- `readchar()` on the text that follows in the file. -/
def readcharFrom (input : Input) : Text → Option (Option Char × Input)
  | [] => some (none, { input with text := [], eof := true })
  | c :: rest =>
    if c = '\\' then
      match rest with
      | [] => some (some c, { input with text := [], eof := true })
      | d :: rest' =>
        if d = '\n' then
          match newline input with
          | none => none
          | some input => readcharFrom input rest'
        else some (some c, { input with text := d :: rest' })
    else if c = '\n' then (newline { input with text := rest }).map fun input => (some c, input)
    else some (some c, { input with text := rest })

def readchar (input : Input) : Option (Option Char × Input) := readcharFrom input input.text

variable {input input' : Input}

theorem newline_text (known : newline input = some input') : input'.text = input.text := by
  unfold newline at known
  split_ifs at known
  cases known
  rfl

theorem readcharFrom_length (text : Text) (input : Input) {c : Option Char}
    (known : readcharFrom input text = some (c, input')) :
    input'.text.length ≤ text.length ∧ (c ≠ none → input'.text.length < text.length) := by
  fun_induction readcharFrom input text with
  | case1 =>
    cases known
    exact ⟨Nat.le_refl _, fun some_ => absurd rfl some_⟩
  | case2 =>
    cases known
    exact ⟨Nat.zero_le _, fun _ => Nat.one_pos⟩
  | case3 => cases known
  | case4 input rest input'' counted ih =>
    have shorter := ih known
    rw [List.length_cons, List.length_cons]
    exact ⟨by omega, fun _ => by omega⟩
  | case5 =>
    cases known
    exact ⟨Nat.le_succ _, fun _ => Nat.lt_succ_self _⟩
  | case6 =>
    rcases Option.map_eq_some_iff.mp known with ⟨next, counted, same⟩
    cases same
    rw [newline_text counted]
    exact ⟨Nat.le_succ _, fun _ => Nat.lt_succ_self _⟩
  | case7 =>
    cases known
    exact ⟨Nat.le_succ _, fun _ => Nat.lt_succ_self _⟩

/-- Discards a comment that ends at `type`. -/
def comment (type : Char) (input : Input) : Option Input :=
  match _first : readchar input with
  | none => none
  | some (none, input) => some { input with errors := .unterminated :: input.errors }
  | some (some c, input') =>
    if c ≠ type then comment type input'
    else if type = '*' then
      match _second : readchar input' with
      | none => none
      | some (c, input'') => if c = some '/' then some input'' else comment type input''
    else some input'
termination_by input.text.length
decreasing_by
  · exact (readcharFrom_length _ _ _first).2 (Option.some_ne_none _)
  · exact Nat.lt_of_le_of_lt (readcharFrom_length _ _ _second).1
      ((readcharFrom_length _ _ _first).2 (Option.some_ne_none _))

/-- The character that was pushed back, or the next one. -/
def next (peekc : Option Char) (input : Input) : Option (Option Char × Input) :=
  if peekc = some '\x00' then readchar input else some (peekc, input)

/-- The loop of `readline()`: what it puts in the buffer. -/
def scan (input : Input) (bp : Text) (peekc : Option Char) (delim : Char) : Option (Text × Input) :=
  if _short : bp.length < INPUTSIZ - 2 then
    match next peekc input with
    | none => none
    | some (none, input) => some (bp, input)
    | some (some c, input) =>
      if c = '\n' then some (bp, input)
      else if c = '\\' then
        match readchar input with
        | none => none
        | some (none, input) => scan input (bp ++ [c]) none delim
        | some (some d, input) =>
          if d = '\n' then scan input (bp ++ [c]) (some d) delim
          else if bp.length = INPUTSIZ - 3 then some (bp, input)
          else scan input (bp ++ [c, d]) (some '\x00') delim
      else
        let delim := if delim ≠ '\x00' ∧ c = delim then '\x00'
          else if delim = '\x00' ∧ (c = '"' ∨ c = '\'') then c else delim
        if c ≠ '/' ∨ delim ≠ '\x00' then scan input (bp ++ [c]) (some '\x00') delim
        else
          match readchar input with
          | none => none
          | some (peekc, input) =>
            if peekc = some '/' then (comment '\n' input).map fun input => (bp, input)
            else if peekc = some '*' then
              match comment '*' input with
              | none => none
              | some input => scan input (bp ++ [' ']) (some '\x00') delim
            else scan input (bp ++ [c]) peekc delim
  else some (bp, input)
termination_by INPUTSIZ - bp.length
decreasing_by
  all_goals
    rw [List.length_append, List.length_cons]
    omega

/-- A line in the buffer, or `none` behind the last one. -/
def readline (input : Input) : Option (Option Text × Input) :=
  if input.eof then some (none, input)
  else
    (scan input [] (some '\x00') '\x00').map fun (bp, input) =>
      if bp.length = INPUTSIZ - 2 then
        (some (bp.dropLast ++ ['\n']), { input with errors := .tooLong :: input.errors })
      else (some (bp ++ ['\n']), input)

def start (text : Text) : Input := ⟨text, false, 0, []⟩

/-- The text that the lines of a file make up. -/
inductive Delivers : Input → Text → Prop
  | done {input input' : Input} : readline input = some (none, input') → Delivers input []
  | line {input input' : Input} {line text : Text} :
      readline input = some (some line, input') → Delivers input' text → Delivers input (line ++ text)

/-- Joins the lines that a backslash continues. -/
def splice : Text → Text
  | [] => []
  | c :: rest =>
    if c = '\\' then
      match rest with
      | [] => [c]
      | d :: rest' => if d = '\n' then splice rest' else c :: splice (d :: rest')
    else c :: splice rest

variable {c : Char} {text : Text} {n : Nat}

theorem splice_other (rest : Text) (other : c ≠ '\\') : splice (c :: rest) = c :: splice rest := by
  rw [splice.eq_def]
  exact if_neg other

theorem splice_kept {d : Char} (rest : Text) (other : d ≠ '\n') :
    splice ('\\' :: d :: rest) = '\\' :: splice (d :: rest) := by
  rw [splice, if_pos rfl, if_neg other]

/-- The text behind the first `*/`. -/
def behind : Text → Option Text
  | [] => none
  | c :: rest => if c = '*' ∧ rest.head? = some '/' then some rest.tail else behind rest

theorem behind_length (text : Text) : ((behind text).getD []).length ≤ text.length := by
  induction text with
  | nil => exact Nat.le_refl _
  | cons c rest ih =>
    rw [behind, List.length_cons]
    split_ifs with ends
    · rw [Option.getD_some, List.length_tail]
      omega
    · omega

/-- Replaces each comment by a space, a comment of one line by nothing. A literal that is not terminated
ends with its line, and a comment that is not terminated with the file. -/
def strip (quote : Option Char) : Text → Text
  | [] => []
  | c :: rest =>
    match quote with
    | none =>
      if c = '/' ∧ rest.head? = some '*' then ' ' :: strip none ((behind rest.tail).getD [])
      else if c = '/' ∧ rest.head? = some '/' then strip none (rest.dropWhile (· ≠ '\n'))
      else if c = '"' ∨ c = '\'' then c :: strip (some c) rest
      else c :: strip none rest
    | some d =>
      if c = '\n' ∨ c = d then c :: strip none rest
      else if c = '\\' ∧ rest ≠ [] ∧ rest.head? ≠ some '\n' then
        c :: rest.headD c :: strip (some d) rest.tail
      else c :: strip (some d) rest
termination_by text => text.length
decreasing_by
  · have shorter := behind_length rest.tail
    rw [List.length_tail] at shorter
    rw [List.length_cons]
    omega
  · have shorter := (List.dropWhile_sublist (· ≠ '\n') (l := rest)).length_le
    rw [List.length_cons]
    omega
  all_goals
    simp only [List.length_cons, List.length_tail]
    omega

/-- The length of the run of `*` that the first `*/` ends, where `n` of them come before the text. -/
def run (n : Nat) : Text → Option Nat
  | [] => none
  | c :: rest =>
    if c = '*' then run (n + 1) rest
    else if c = '/' ∧ 0 < n then some n
    else run 0 rest

/-- What the code needs: an odd run of `*` at the end of each comment; outside of literals, no quote and
no comment behind a backslash, and no zero behind a slash. -/
def Regular (quote : Option Char) : Text → Prop
  | [] => True
  | c :: rest =>
    match quote with
    | none =>
      if c = '/' ∧ rest.head? = some '*' then
        (∀ n, run 0 rest.tail = some n → n % 2 = 1) ∧ Regular none ((behind rest.tail).getD [])
      else if c = '/' ∧ rest.head? = some '/' then Regular none (rest.dropWhile (· ≠ '\n'))
      else if c = '"' ∨ c = '\'' then Regular (some c) rest
      else if c = '\\' ∧ rest ≠ [] ∧ rest.head? ≠ some '\n' then
        rest.head? ≠ some '"' ∧ rest.head? ≠ some '\'' ∧
          (rest.head? = some '/' →
            rest.tail.head? ≠ some '*' ∧ rest.tail.head? ≠ some '/') ∧
          Regular none rest.tail
      else (c = '/' → rest.head? ≠ some '\x00') ∧ Regular none rest
    | some d =>
      if c = '\n' ∨ c = d then Regular none rest
      else if c = '\\' ∧ rest ≠ [] ∧ rest.head? ≠ some '\n' then Regular (some d) rest.tail
      else Regular (some d) rest
termination_by text => text.length
decreasing_by
  · have shorter := behind_length rest.tail
    rw [List.length_tail] at shorter
    rw [List.length_cons]
    omega
  · have shorter := (List.dropWhile_sublist (· ≠ '\n') (l := rest)).length_le
    rw [List.length_cons]
    omega
  all_goals
    simp only [List.length_cons, List.length_tail]
    omega

/-- The text that is left in a file, its lines joined. -/
structure Reads (input : Input) (text : Text) : Prop where
  spliced : splice input.text = text
  counted : input.lineno + input.text.count '\n' < 4294967296
  ended : input.eof = true → input.text = []

theorem newline_some (below : input.lineno + 1 < 4294967296) :
    newline input = some { input with lineno := input.lineno + 1 } :=
  if_neg (Nat.ne_of_lt below)

theorem readcharFrom_cons (input : Input) (rest : Text)
    (spliced : splice rest = c :: text) (counted : input.lineno + rest.count '\n' < 4294967296)
    (more : input.eof = false) :
    ∃ input', readcharFrom input rest = some (some c, input') ∧ Reads input' text ∧
      (c = '\n' → input'.eof = false) := by
  fun_induction readcharFrom input rest with
  | case1 => cases spliced
  | case2 =>
    cases spliced
    exact ⟨_, rfl, ⟨rfl, by simp at counted ⊢; omega, fun _ => rfl⟩, fun feed => absurd feed (by decide)⟩
  | case3 input rest dies =>
    rw [List.count_cons_of_ne (by decide), List.count_cons_self] at counted
    rw [newline_some (by omega)] at dies
    cases dies
  | case4 input rest input'' alive ih =>
    rw [List.count_cons_of_ne (by decide), List.count_cons_self] at counted
    rw [newline_some (by omega)] at alive
    cases alive
    apply ih spliced
    · dsimp only
      omega
    · exact more
  | case5 input d rest other =>
    rw [splice_kept rest other] at spliced
    cases spliced
    rw [List.count_cons_of_ne (by decide)] at counted
    refine ⟨_, rfl, ⟨rfl, counted, fun ended => ?_⟩, fun feed => absurd feed (by decide)⟩
    rw [more] at ended
    cases ended
  | case6 input rest backslash =>
    rw [splice_other rest backslash] at spliced
    cases spliced
    rw [List.count_cons_self] at counted
    rw [newline_some (by dsimp only; omega)]
    refine ⟨_, rfl, ⟨rfl, by dsimp only; omega, fun ended => ?_⟩, fun _ => more⟩
    rw [more] at ended
    cases ended
  | case7 input c' rest backslash other =>
    rw [splice_other rest backslash] at spliced
    cases spliced
    rw [List.count_cons_of_ne other] at counted
    refine ⟨_, rfl, ⟨rfl, counted, fun ended => ?_⟩, fun feed => absurd feed other⟩
    rw [more] at ended
    cases ended

theorem readchar_cons (reads : Reads input (c :: text)) :
    ∃ input', readchar input = some (some c, input') ∧ Reads input' text ∧
      (c = '\n' → input'.eof = false) := by
  apply readcharFrom_cons input input.text reads.spliced reads.counted
  rw [Bool.eq_false_iff]
  intro ended
  have spliced := reads.spliced
  rw [reads.ended ended] at spliced
  cases spliced

theorem readcharFrom_nil (input : Input) (rest : Text) (spliced : splice rest = [])
    (counted : input.lineno + rest.count '\n' < 4294967296) :
    ∃ input', readcharFrom input rest = some (none, input') ∧ Reads input' [] ∧ input'.eof = true := by
  fun_induction readcharFrom input rest with
  | case1 input =>
    refine ⟨_, rfl, ⟨rfl, ?_, fun _ => rfl⟩, rfl⟩
    exact Nat.lt_of_le_of_lt (Nat.le_refl _) counted
  | case2 => cases spliced
  | case3 input rest dies =>
    rw [List.count_cons_of_ne (by decide), List.count_cons_self] at counted
    rw [newline_some (by omega)] at dies
    cases dies
  | case4 input rest input'' alive ih =>
    rw [List.count_cons_of_ne (by decide), List.count_cons_self] at counted
    rw [newline_some (by omega)] at alive
    cases alive
    apply ih spliced
    dsimp only
    omega
  | case5 input d rest other =>
    rw [splice_kept rest other] at spliced
    cases spliced
  | case6 input rest backslash =>
    rw [splice_other rest backslash] at spliced
    cases spliced
  | case7 input c' rest backslash other =>
    rw [splice_other rest backslash] at spliced
    cases spliced

theorem readchar_nil (reads : Reads input []) :
    ∃ input', readchar input = some (none, input') ∧ Reads input' [] ∧ input'.eof = true :=
  readcharFrom_nil input input.text reads.spliced reads.counted

/-- What follows in a file behind a line: the newline is read, or the end of the file. -/
def Left (input : Input) (text : Text) : Prop :=
  text = [] ∧ input.eof = true ∨ ∃ rest, text = '\n' :: rest ∧ Reads input rest ∧ input.eof = false

theorem comment_end {type : Char} (read : readchar input = some (none, input')) :
    comment type input = some { input' with errors := .unterminated :: input'.errors } := by
  rw [comment]
  split
  · next none_ =>
    rw [read] at none_
    cases none_
  · next known =>
    rw [read] at known
    cases known
    rfl
  · next known =>
    rw [read] at known
    cases known

theorem comment_other {type c : Char} (read : readchar input = some (some c, input')) (other : c ≠ type) :
    comment type input = comment type input' := by
  rw [comment]
  split
  · next none_ =>
    rw [read] at none_
    cases none_
  · next known =>
    rw [read] at known
    cases known
  · next known =>
    rw [read] at known
    cases known
    exact if_pos other

theorem comment_type (read : readchar input = some (some c, input')) (star : c ≠ '*') :
    comment c input = some input' := by
  rw [comment]
  split
  · next none_ =>
    rw [read] at none_
    cases none_
  · next known =>
    rw [read] at known
    cases known
  · next known =>
    rw [read] at known
    cases known
    rw [if_neg (not_not_intro rfl), if_neg star]

theorem comment_star {c : Option Char} {input input' input'' : Input}
    (read : readchar input = some (some '*', input')) (again : readchar input' = some (c, input'')) :
    comment '*' input = if c = some '/' then some input'' else comment '*' input'' := by
  rw [comment]
  split
  · next none_ =>
    rw [read] at none_
    cases none_
  · next known =>
    rw [read] at known
    cases known
  · next known =>
    rw [read] at known
    cases known
    rw [if_neg (not_not_intro rfl), if_pos rfl]
    split
    · next none_ =>
      rw [again] at none_
      cases none_
    · next known =>
      rw [again] at known
      cases known
      rfl

/-- Where the code ends a comment: it passes over the character behind a `*`. -/
def skip : Text → Option Text
  | [] => none
  | c :: rest =>
    if c = '*' then
      match rest with
      | [] => none
      | d :: rest' => if d = '/' then some rest' else skip rest'
    else skip rest

theorem skip_other (rest : Text) (other : c ≠ '*') : skip (c :: rest) = skip rest := by
  rw [skip.eq_def]
  exact if_neg other

theorem comment_skip (text : Text) (reads : Reads input text) :
    ∃ input', comment '*' input = some input' ∧ Reads input' ((skip text).getD []) := by
  fun_induction skip text generalizing input with
  | case1 =>
    have ⟨input', read, reads', _⟩ := readchar_nil reads
    exact ⟨_, comment_end read, reads'.spliced, reads'.counted, reads'.ended⟩
  | case2 =>
    have ⟨input', read, reads', _⟩ := readchar_cons reads
    have ⟨input'', again, reads'', _⟩ := readchar_nil reads'
    have ⟨input3, third, reads3, _⟩ := readchar_nil reads''
    rw [comment_star read again, if_neg (Option.some_ne_none _).symm, comment_end third]
    exact ⟨_, rfl, reads3.spliced, reads3.counted, reads3.ended⟩
  | case3 rest =>
    have ⟨input', read, reads', _⟩ := readchar_cons reads
    have ⟨input'', again, reads'', _⟩ := readchar_cons reads'
    rw [comment_star read again, if_pos rfl]
    exact ⟨_, rfl, reads''⟩
  | case4 d rest other ih =>
    have ⟨input', read, reads', _⟩ := readchar_cons reads
    have ⟨input'', again, reads'', _⟩ := readchar_cons reads'
    rw [comment_star read again, if_neg (by rwa [Option.some_inj])]
    exact ih reads''
  | case5 c rest other ih =>
    have ⟨input', read, reads', _⟩ := readchar_cons reads
    rw [comment_other read other]
    exact ih reads'

theorem comment_line (text : Text) (reads : Reads input text) :
    ∃ input', comment '\n' input = some input' ∧ Left input' (text.dropWhile (· ≠ '\n')) := by
  induction text generalizing input with
  | nil =>
    have ⟨input', read, _, ended⟩ := readchar_nil reads
    exact ⟨_, comment_end read, Or.inl ⟨rfl, ended⟩⟩
  | cons c rest ih =>
    have ⟨input', read, reads', more⟩ := readchar_cons reads
    by_cases feed : c = '\n'
    · subst feed
      refine ⟨_, comment_type read (by decide), Or.inr ⟨rest, ?_, reads', more rfl⟩⟩
      rw [List.dropWhile_cons_of_neg (by simp)]
    · rw [comment_other read feed, List.dropWhile_cons_of_pos (by simpa using feed)]
      exact ih reads'

theorem run_parity (text : Text) (positive : 0 < n) :
    (run (n + 2) text).map (· % 2) = (run n text).map (· % 2) := by
  induction text generalizing n with
  | nil => rfl
  | cons c rest ih =>
    rw [run, run]
    by_cases star : c = '*'
    · rw [if_pos star, if_pos star, Nat.add_right_comm]
      exact ih (Nat.succ_pos n)
    · rw [if_neg star, if_neg star]
      by_cases slash : c = '/'
      · rw [if_pos ⟨slash, Nat.succ_pos _⟩, if_pos ⟨slash, positive⟩, Option.map_some, Option.map_some,
          Nat.add_mod_right]
      · rw [if_neg fun both => slash both.1, if_neg fun both => slash both.1]

theorem run_one {d : Char} (rest : Text) (star : d ≠ '*') (slash : d ≠ '/') (n : Nat) :
    run n (d :: rest) = run 0 rest := by
  rw [run, if_neg star, if_neg fun both => slash both.1]

theorem skip_length (text : Text) {rest : Text} (known : skip text = some rest) :
    rest.length < text.length := by
  fun_induction skip text with
  | case1 => cases known
  | case2 => cases known
  | case3 =>
    cases known
    rw [List.length_cons, List.length_cons]
    omega
  | case4 d rest' other ih =>
    have shorter := ih known
    rw [List.length_cons, List.length_cons]
    omega
  | case5 c rest' other ih =>
    have shorter := ih known
    rw [List.length_cons]
    omega

theorem skip_behind (text : Text) : ((∀ n, run 0 text = some n → n % 2 = 1) → skip text = behind text) ∧
      ((∃ n, run 0 text = some n ∧ n % 2 = 0) →
        ∃ end_, behind text = some end_ ∧ ∀ rest, skip text = some rest → rest.length < end_.length) := by
  fun_induction skip text with
  | case1 =>
    refine ⟨fun _ => rfl, ?_⟩
    rintro ⟨n, none_, _⟩
    cases none_
  | case2 =>
    refine ⟨fun _ => rfl, ?_⟩
    rintro ⟨n, none_, _⟩
    cases none_
  | case3 rest =>
    refine ⟨fun _ => rfl, ?_⟩
    rintro ⟨n, one, even⟩
    cases one
    cases even
  | case4 d rest other ih =>
    rw [behind, if_neg fun both => other (Option.some.inj both.2), run, if_pos rfl]
    by_cases star : d = '*'
    · subst star
      rw [run, if_pos rfl]
      cases rest with
      | nil =>
        refine ⟨fun _ => rfl, ?_⟩
        rintro ⟨n, none_, _⟩
        cases none_
      | cons e rest =>
        by_cases slash : e = '/'
        · subst slash
          refine ⟨fun odd => absurd (odd 2 rfl) (by decide), fun _ => ⟨rest, rfl, fun left known => ?_⟩⟩
          rw [skip_other rest (by decide)] at known
          exact skip_length rest known
        · have parity : (run 2 (e :: rest)).map (· % 2) = (run 0 (e :: rest)).map (· % 2) := by
            by_cases again : e = '*'
            · rw [again, run, run, if_pos rfl, if_pos rfl]
              exact run_parity rest Nat.one_pos
            · rw [run_one rest again slash, run_one rest again slash]
          have same : behind ('*' :: e :: rest) = behind (e :: rest) := by
            rw [behind, if_neg fun both => slash (Option.some.inj both.2)]
          rw [same]
          constructor
          · intro odd
            apply ih.1
            intro n known
            rw [known] at parity
            have ⟨m, run_two, equal⟩ := Option.map_eq_some_iff.mp parity
            have one := odd m run_two
            dsimp only at equal
            omega
          · rintro ⟨n, known, even⟩
            apply ih.2
            rw [known] at parity
            have ⟨m, run_zero, equal⟩ := Option.map_eq_some_iff.mp parity.symm
            dsimp only at equal
            exact ⟨m, run_zero, by omega⟩
    · have same : behind (d :: rest) = behind rest := by
        rw [behind, if_neg fun both => star both.1]
      rw [same, run_one rest star other]
      exact ih
  | case5 c rest other ih =>
    have one : run 0 (c :: rest) = run 0 rest := by
      rw [run, if_neg other, if_neg fun both => absurd both.2 (Nat.lt_irrefl 0)]
    have same : behind (c :: rest) = behind rest := by
      rw [behind, if_neg fun both => other both.1]
    rw [one, same]
    exact ih

theorem skip_iff (text : Text) : skip text = behind text ↔ ∀ n, run 0 text = some n → n % 2 = 1 := by
  constructor
  · intro same n known
    by_contra even
    have ⟨end_, found, shorter⟩ := (skip_behind text).2 ⟨n, known, by omega⟩
    exact absurd (shorter end_ (same.trans found)) (Nat.lt_irrefl _)
  · exact (skip_behind text).1

/-- The variable `delim`. -/
def delimOf : Option Char → Char
  | none => '\x00'
  | some d => d

/-- What is pushed back and what is left in the file make up the text. -/
def Pending (peekc : Option Char) (input : Input) (text : Text) : Prop :=
  peekc = some '\x00' ∧ Reads input text ∨
    (∃ c rest, peekc = some c ∧ c ≠ '\x00' ∧ text = c :: rest ∧ Reads input rest ∧
      (c = '\n' → input.eof = false)) ∨
    peekc = none ∧ text = [] ∧ input.eof = true

theorem next_cons {peekc : Option Char} (pending : Pending peekc input (c :: text)) :
    ∃ input', next peekc input = some (some c, input') ∧ Reads input' text ∧
      (c = '\n' → input'.eof = false) := by
  rcases pending with ⟨rfl, reads⟩ | ⟨d, rest, rfl, nonzero, same, reads, more⟩ | ⟨_, empty, _⟩
  · rw [next, if_pos rfl]
    exact readchar_cons reads
  · cases same
    rw [next, if_neg fun zero => nonzero (Option.some.inj zero)]
    exact ⟨input, rfl, reads, more⟩
  · cases empty

theorem next_nil {peekc : Option Char} (pending : Pending peekc input []) :
    ∃ input', next peekc input = some (none, input') ∧ input'.eof = true := by
  rcases pending with ⟨rfl, reads⟩ | ⟨d, rest, _, _, same, _, _⟩ | ⟨rfl, _, ended⟩
  · rw [next, if_pos rfl]
    have ⟨input', read, _, ended⟩ := readchar_nil reads
    exact ⟨input', read, ended⟩
  · cases same
  · exact ⟨input, rfl, ended⟩

/-- Every line of the text has room behind `n` characters of the buffer. -/
def Room (n : Nat) (text : Text) : Prop :=
  ∀ line left, text = line ++ left → '\n' ∉ line → n + line.length + 2 < INPUTSIZ

theorem Room.append {piece text : Text} (room : Room n (piece ++ text))
    (inside : '\n' ∉ piece) : Room (n + piece.length) text := by
  intro line left same feed
  have longer := room (piece ++ line) left (by rw [same, List.append_assoc]) (by simp [inside, feed])
  rw [List.length_append] at longer
  omega

theorem Room.short (room : Room n text) : n + 2 < INPUTSIZ :=
  room [] text rfl (List.not_mem_nil)

section Steps

variable {input input' input'' : Input} {bp : Text} {peekc : Option Char} {delim : Char}

theorem scan_pair (read : next peekc input = some (some '\\', input')) {d : Char}
    (again : readchar input' = some (some d, input'')) (other : d ≠ '\n')
    (room : bp.length + 2 + 2 < INPUTSIZ) :
    scan input bp peekc delim = scan input'' (bp ++ ['\\', d]) (some '\x00') delim := by
  rw [scan, dif_pos (by omega), read]
  dsimp only
  rw [if_neg (by decide), if_pos rfl, again]
  dsimp only
  rw [if_neg other, if_neg (by omega)]

variable (short : bp.length + 2 < INPUTSIZ)

include short

theorem scan_end (read : next peekc input = some (none, input')) :
    scan input bp peekc delim = some (bp, input') := by
  rw [scan, dif_pos (by omega), read]

theorem scan_newline (read : next peekc input = some (some '\n', input')) :
    scan input bp peekc delim = some (bp, input') := by
  rw [scan, dif_pos (by omega), read]
  exact if_pos rfl

theorem scan_backslash (read : next peekc input = some (some '\\', input'))
    {c : Option Char} (again : readchar input' = some (c, input'')) (ends : c = none ∨ c = some '\n') :
    scan input bp peekc delim = scan input'' (bp ++ ['\\']) c delim := by
  rw [scan, dif_pos (by omega), read]
  dsimp only
  rw [if_neg (by decide), if_pos rfl, again]
  rcases ends with rfl | rfl
  · rfl
  · exact if_pos rfl

theorem scan_char (read : next peekc input = some (some c, input')) (feed : c ≠ '\n')
    (backslash : c ≠ '\\') {delim' : Char} (changed : (if delim ≠ '\x00' ∧ c = delim then '\x00'
      else if delim = '\x00' ∧ (c = '"' ∨ c = '\'') then c else delim) = delim')
    (copied : c ≠ '/' ∨ delim' ≠ '\x00') :
    scan input bp peekc delim = scan input' (bp ++ [c]) (some '\x00') delim' := by
  rw [scan, dif_pos (by omega), read]
  dsimp only
  rw [if_neg feed, if_neg backslash, changed, if_pos copied]

theorem scan_slash (read : next peekc input = some (some '/', input')) {c : Option Char}
    (again : readchar input' = some (c, input'')) : scan input bp peekc '\x00' =
      if c = some '/' then (comment '\n' input'').map fun input => (bp, input) else if c = some '*' then
        match comment '*' input'' with
        | none => none
        | some input => scan input (bp ++ [' ']) (some '\x00') '\x00'
      else scan input'' (bp ++ ['/']) c '\x00' := by
  rw [scan, dif_pos (by omega), read]
  dsimp only
  rw [if_neg (by decide), if_neg (by decide), if_neg (by decide), again]
  rfl

end Steps

/-- The loop puts a line of the stripped text in the buffer. -/
def Scans (input : Input) (bp : Text) (peekc : Option Char) (quote : Option Char) (text : Text) : Prop :=
  ∃ line left input', scan input bp peekc (delimOf quote) = some (bp ++ line, input') ∧
    strip quote text = line ++ strip none left ∧ '\n' ∉ line ∧ Regular none left ∧
    Left input' left ∧ left.length ≤ text.length

theorem Scans.stop {bp : Text} {peekc quote : Option Char} {text left : Text}
    (stops : scan input bp peekc (delimOf quote) = some (bp, input'))
    (stripped : strip quote text = strip none left) (regular : Regular none left)
    (ends : Left input' left) (shorter : left.length ≤ text.length) : Scans input bp peekc quote text := by
  refine ⟨[], left, input', ?_, stripped, List.not_mem_nil, regular, ends, shorter⟩
  rw [stops, List.append_nil]

theorem Scans.step {input input' : Input} {bp piece : Text} {peekc peekc' quote quote' : Option Char}
    {text text' : Text}
    (steps : scan input bp peekc (delimOf quote) = scan input' (bp ++ piece) peekc' (delimOf quote'))
    (stripped : strip quote text = piece ++ strip quote' text') (inside : '\n' ∉ piece)
    (shorter : text'.length ≤ text.length)
    (scans : Scans input' (bp ++ piece) peekc' quote' text') : Scans input bp peekc quote text := by
  rcases scans with ⟨line, left, input'', result, later, feed, regular, ends, less⟩
  refine ⟨piece ++ line, left, input'', ?_, ?_, ?_, regular, ends, Nat.le_trans less shorter⟩
  · rw [steps, result, List.append_assoc]
  · rw [stripped, later, List.append_assoc]
  · rw [List.mem_append]
    exact fun either => either.elim inside feed

theorem strip_newline (quote : Option Char) (rest : Text) :
    strip quote ('\n' :: rest) = '\n' :: strip none rest := by
  cases quote with
  | none =>
    rw [strip, if_neg fun both => absurd both.1 (by decide), if_neg fun both => absurd both.1 (by decide),
      if_neg (by decide)]
  | some d =>
    rw [strip, if_pos (Or.inl rfl)]

theorem regular_newline (quote : Option Char) (rest : Text) :
    Regular quote ('\n' :: rest) ↔ Regular none rest := by
  cases quote with
  | none =>
    rw [Regular, if_neg fun both => absurd both.1 (by decide),
      if_neg fun both => absurd both.1 (by decide), if_neg (by decide),
      if_neg fun both => absurd both.1 (by decide)]
    exact and_iff_right fun slash => absurd slash (by decide)
  | some d =>
    rw [Regular, if_pos (Or.inl rfl)]

/-- The state is outside of a literal or inside of one between these quotes. -/
def Quoting (quote : Option Char) : Prop := ∀ d, quote = some d → d = '"' ∨ d = '\''

def Copies (text : Text) : Prop :=
  ∀ {quote peekc : Option Char} {input : Input} {bp : Text}, Quoting quote → Pending peekc input text →
    Regular quote text → Room bp.length (strip quote text) → Scans input bp peekc quote text

section Copying

variable {quote peekc : Option Char} {input input' : Input} {bp rest : Text}

theorem copies_nil : Copies [] := by
  intro quote peekc input bp quoting pending regular room
  have ⟨input', read, ended⟩ := next_nil pending
  apply Scans.stop (scan_end room.short read)
  · rw [strip, strip]
  · rw [Regular]
    trivial
  · exact Or.inl ⟨rfl, ended⟩
  · exact Nat.le_refl _

theorem copies_newline (read : next peekc input = some (some '\n', input')) (reads : Reads input' rest)
    (more : input'.eof = false) (regular : Regular quote ('\n' :: rest))
    (room : Room bp.length (strip quote ('\n' :: rest))) : Scans input bp peekc quote ('\n' :: rest) := by
  apply Scans.stop (scan_newline room.short read)
  · rw [strip_newline, strip_newline]
  · rwa [regular_newline] at regular ⊢
  · exact Or.inr ⟨rest, rfl, reads, more⟩
  · exact Nat.le_refl _

variable {c : Char}

theorem copies_char {quote' : Option Char} (later : Copies rest) (quoting : Quoting quote')
    (read : next peekc input = some (some c, input')) (reads : Reads input' rest) (feed : c ≠ '\n')
    (backslash : c ≠ '\\') (changed : (if delimOf quote ≠ '\x00' ∧ c = delimOf quote then '\x00'
      else if delimOf quote = '\x00' ∧ (c = '"' ∨ c = '\'') then c else delimOf quote) = delimOf quote')
    (copied : c ≠ '/' ∨ delimOf quote' ≠ '\x00')
    (stripped : strip quote (c :: rest) = [c] ++ strip quote' rest) (regular : Regular quote' rest)
    (room : Room bp.length (strip quote (c :: rest))) : Scans input bp peekc quote (c :: rest) := by
  have inside : '\n' ∉ [c] := fun member => feed (List.mem_singleton.mp member).symm
  apply Scans.step (scan_char room.short read feed backslash changed copied) stripped inside
    (Nat.le_succ _)
  apply later quoting (Or.inl ⟨rfl, reads⟩) regular
  rw [stripped] at room
  rw [List.length_append]
  exact room.append inside

theorem copies_pair {d : Char} (later : Copies rest) (quoting : Quoting quote)
    (read : next peekc input = some (some '\\', input')) (reads : Reads input' (d :: rest))
    (feed : d ≠ '\n') (stripped : strip quote ('\\' :: d :: rest) = ['\\', d] ++ strip quote rest)
    (regular : Regular quote rest) (room : Room bp.length (strip quote ('\\' :: d :: rest))) :
    Scans input bp peekc quote ('\\' :: d :: rest) := by
  have ⟨input'', again, reads', _⟩ := readchar_cons reads
  have inside : '\n' ∉ ['\\', d] := by
    intro member
    rcases List.mem_cons.mp member with same | member
    · exact absurd same (by decide)
    · exact feed (List.mem_singleton.mp member).symm
  rw [stripped] at room
  have room' := room.append inside
  apply Scans.step (scan_pair read again feed room'.short) stripped inside
  · rw [List.length_cons, List.length_cons]
    omega
  · apply later quoting (Or.inl ⟨rfl, reads'⟩) regular
    rw [List.length_append]
    exact room'

theorem copies_backslash (later : Copies rest) (quoting : Quoting quote)
    (read : next peekc input = some (some '\\', input')) (reads : Reads input' rest)
    (ends : rest = [] ∨ rest.head? = some '\n')
    (stripped : strip quote ('\\' :: rest) = ['\\'] ++ strip quote rest) (regular : Regular quote rest)
    (room : Room bp.length (strip quote ('\\' :: rest))) : Scans input bp peekc quote ('\\' :: rest) := by
  have short := room.short
  have inside : '\n' ∉ ['\\'] := by decide
  have pushed : ∃ c input'', readchar input' = some (c, input'') ∧ (c = none ∨ c = some '\n') ∧
      Pending c input'' rest := by
    rcases ends with rfl | head
    · have ⟨input'', again, _, ended⟩ := readchar_nil reads
      exact ⟨none, input'', again, Or.inl rfl, Or.inr (Or.inr ⟨rfl, rfl, ended⟩)⟩
    · cases rest with
      | nil => cases head
      | cons c rest =>
        cases head
        have ⟨input'', again, reads', more⟩ := readchar_cons reads
        exact ⟨some '\n', input'', again, Or.inr rfl,
          Or.inr (Or.inl ⟨'\n', rest, rfl, by decide, rfl, reads', more⟩)⟩
  rcases pushed with ⟨c, input'', again, which, pending⟩
  apply Scans.step (scan_backslash short read again which) stripped inside (Nat.le_succ _)
  apply later quoting pending regular
  rw [stripped] at room
  rw [List.length_append]
  exact room.append inside

theorem quoting_none : Quoting none := by
  intro d none_
  cases none_

theorem copies_inside {c d : Char} (later : ∀ text : Text, text.length ≤ rest.length → Copies text)
    (quoting : Quoting (some d)) (pending : Pending peekc input (c :: rest))
    (regular : Regular (some d) (c :: rest)) (room : Room bp.length (strip (some d) (c :: rest))) :
    Scans input bp peekc (some d) (c :: rest) := by
  have ⟨input', read, reads, more⟩ := next_cons pending
  have quote := quoting d rfl
  by_cases feed : c = '\n'
  · subst feed
    exact copies_newline read reads (more rfl) regular room
  by_cases close : c = d
  · apply copies_char (later rest (Nat.le_refl _)) quoting_none read reads feed
    · rintro rfl
      rcases quote with same | same <;> exact absurd (close.trans same) (by decide)
    · apply if_pos
      refine ⟨?_, close⟩
      rcases quote with rfl | rfl <;> decide
    · rcases quote with rfl | rfl <;> exact Or.inl (by rw [close]; decide)
    · rw [strip, if_pos (Or.inr close)]
      rfl
    · rwa [Regular, if_pos (Or.inr close)] at regular
    · exact room
  have neither : ¬(c = '\n' ∨ c = d) := fun either => either.elim feed close
  by_cases backslash : c = '\\'
  · subst backslash
    by_cases ends : rest = [] ∨ rest.head? = some '\n'
    · have last : ¬('\\' = '\\' ∧ rest ≠ [] ∧ rest.head? ≠ some '\n') := by tauto
      apply copies_backslash (later rest (Nat.le_refl _)) quoting read reads ends
      · rw [strip, if_neg neither, if_neg last]
        rfl
      · rwa [Regular, if_neg neither, if_neg last] at regular
      · exact room
    · cases rest with
      | nil => exact absurd (Or.inl rfl) ends
      | cons e rest =>
        have escape : '\\' = '\\' ∧ e :: rest ≠ [] ∧ (e :: rest).head? ≠ some '\n' := by tauto
        apply copies_pair (later rest (Nat.le_succ _)) quoting read reads
        · exact fun same => escape.2.2 (congrArg some same)
        · rw [strip, if_neg neither, if_pos escape]
          rfl
        · rwa [Regular, if_neg neither, if_pos escape] at regular
        · exact room
  · have plain : ¬(c = '\\' ∧ rest ≠ [] ∧ rest.head? ≠ some '\n') := fun all => backslash all.1
    have nonzero : d ≠ '\x00' := by
      rcases quote with rfl | rfl <;> decide
    apply copies_char (later rest (Nat.le_refl _)) quoting read reads feed backslash
    · rw [if_neg fun both => close both.2, if_neg fun both => nonzero both.1]
    · exact Or.inr nonzero
    · rw [strip, if_neg neither, if_neg plain]
      rfl
    · rwa [Regular, if_neg neither, if_neg plain] at regular
    · exact room

theorem strip_plain (star : ¬(c = '/' ∧ rest.head? = some '*'))
    (slash : ¬(c = '/' ∧ rest.head? = some '/')) (quote : ¬(c = '"' ∨ c = '\'')) :
    strip none (c :: rest) = [c] ++ strip none rest := by
  rw [strip, if_neg star, if_neg slash, if_neg quote]
  rfl

theorem copies_slash (later : ∀ text : Text, text.length ≤ rest.length → Copies text)
    (pending : Pending peekc input ('/' :: rest)) (regular : Regular none ('/' :: rest))
    (room : Room bp.length (strip none ('/' :: rest))) : Scans input bp peekc none ('/' :: rest) := by
  have ⟨input', read, reads, _⟩ := next_cons pending
  have short := room.short
  have inside : '\n' ∉ ['/'] := by decide
  cases rest with
  | nil =>
    have ⟨input'', again, _, ended⟩ := readchar_nil reads
    have stripped : strip none ['/'] = ['/'] ++ strip none [] :=
      strip_plain (fun both => by cases both.2) (fun both => by cases both.2) (by decide)
    have steps := scan_slash short read again
    rw [if_neg (by decide), if_neg (by decide)] at steps
    apply Scans.step steps stripped inside (Nat.le_succ _)
    apply copies_nil quoting_none (Or.inr (Or.inr ⟨rfl, rfl, ended⟩))
    · rw [Regular]
      trivial
    · rw [stripped] at room
      rw [List.length_append]
      exact room.append inside
  | cons e rest =>
    have ⟨input'', again, reads', more⟩ := readchar_cons reads
    have steps := scan_slash short read again
    by_cases slash : e = '/'
    · subst slash
      have ⟨input3, ended, left⟩ := comment_line rest reads'
      rw [if_pos rfl, ended] at steps
      have same : ('/' :: rest).dropWhile (· ≠ '\n') = rest.dropWhile (· ≠ '\n') := rfl
      have star : ¬('/' = '/' ∧ ('/' :: rest).head? = some '*') :=
        fun both => absurd (Option.some.inj both.2) (by decide)
      rw [Regular, if_neg star, if_pos ⟨rfl, rfl⟩, same] at regular
      apply Scans.stop steps _ regular left
      · have shorter := (List.dropWhile_sublist (· ≠ '\n') (l := rest)).length_le
        rw [List.length_cons, List.length_cons]
        omega
      · rw [strip, if_neg star, if_pos ⟨rfl, rfl⟩, same]
    · rw [if_neg fun same => slash (Option.some.inj same)] at steps
      by_cases star : e = '*'
      · subst star
        have ⟨input3, ended, reads3⟩ := comment_skip rest reads'
        rw [if_pos rfl, ended] at steps
        rw [Regular, if_pos ⟨rfl, rfl⟩] at regular
        have stripped : strip none ('/' :: '*' :: rest) =
            [' '] ++ strip none ((behind rest).getD []) := by
          rw [strip, if_pos ⟨rfl, rfl⟩]
          rfl
        have shorter := behind_length rest
        have blank : '\n' ∉ [' '] := by decide
        rw [(skip_iff rest).mpr regular.1] at reads3
        apply Scans.step steps stripped blank
        · rw [List.length_cons, List.length_cons]
          omega
        · apply later _ _ quoting_none (Or.inl ⟨rfl, reads3⟩) regular.2
          · rw [stripped] at room
            rw [List.length_append]
            exact room.append blank
          · rw [List.length_cons]
            omega
      · rw [if_neg fun same => star (Option.some.inj same)] at steps
        have noStar : ¬('/' = '/' ∧ (e :: rest).head? = some '*') :=
          fun both => star (Option.some.inj both.2)
        have noSlash : ¬('/' = '/' ∧ (e :: rest).head? = some '/') :=
          fun both => slash (Option.some.inj both.2)
        have noQuote : ¬('/' = '"' ∨ '/' = '\'') := by decide
        have noBackslash : ¬('/' = '\\' ∧ e :: rest ≠ [] ∧ (e :: rest).head? ≠ some '\n') :=
          fun all => absurd all.1 (by decide)
        have stripped := strip_plain noStar noSlash noQuote
        rw [Regular, if_neg noStar, if_neg noSlash, if_neg noQuote, if_neg noBackslash] at regular
        apply Scans.step steps stripped inside (Nat.le_succ _)
        apply later _ (Nat.le_refl _) quoting_none _ regular.2
        · rw [stripped] at room
          rw [List.length_append]
          exact room.append inside
        · exact Or.inr (Or.inl ⟨e, rest, rfl, fun zero => regular.1 rfl (congrArg some zero), rfl,
            reads', more⟩)

theorem copies_outside (later : ∀ text : Text, text.length ≤ rest.length → Copies text)
    (pending : Pending peekc input (c :: rest)) (regular : Regular none (c :: rest))
    (room : Room bp.length (strip none (c :: rest))) : Scans input bp peekc none (c :: rest) := by
  by_cases slash : c = '/'
  · subst slash
    exact copies_slash later pending regular room
  have ⟨input', read, reads, more⟩ := next_cons pending
  by_cases feed : c = '\n'
  · subst feed
    exact copies_newline read reads (more rfl) regular room
  have noStar : ¬(c = '/' ∧ rest.head? = some '*') := fun both => slash both.1
  have noSlash : ¬(c = '/' ∧ rest.head? = some '/') := fun both => slash both.1
  rw [Regular, if_neg noStar, if_neg noSlash] at regular
  by_cases quote : c = '"' ∨ c = '\''
  · rw [if_pos quote] at regular
    have quoting : Quoting (some c) := by
      intro d same
      cases same
      exact quote
    apply copies_char (later rest (Nat.le_refl _)) quoting read reads feed
    · rintro rfl
      exact absurd quote (by decide)
    · rw [if_neg fun both => both.1 rfl, if_pos ⟨rfl, quote⟩]
      rfl
    · exact Or.inl slash
    · rw [strip, if_neg noStar, if_neg noSlash, if_pos quote]
      rfl
    · exact regular
    · exact room
  rw [if_neg quote] at regular
  have stripped := strip_plain noStar noSlash quote
  by_cases backslash : c = '\\'
  · subst backslash
    by_cases ends : rest = [] ∨ rest.head? = some '\n'
    · have last : ¬('\\' = '\\' ∧ rest ≠ [] ∧ rest.head? ≠ some '\n') := by tauto
      rw [if_neg last] at regular
      exact copies_backslash (later rest (Nat.le_refl _)) quoting_none read reads ends stripped
        regular.2 room
    · cases rest with
      | nil => exact absurd (Or.inl rfl) ends
      | cons e rest =>
        have escape : '\\' = '\\' ∧ e :: rest ≠ [] ∧ (e :: rest).head? ≠ some '\n' := by tauto
        rw [if_pos escape] at regular
        rcases regular with ⟨double, single, comments, regular⟩
        have plain : strip none (e :: rest) = [e] ++ strip none rest := by
          apply strip_plain
          · exact fun both => (comments (congrArg some both.1)).1 both.2
          · exact fun both => (comments (congrArg some both.1)).2 both.2
          · exact fun either => either.elim (fun same => double (congrArg some same))
              fun same => single (congrArg some same)
        apply copies_pair (later rest (Nat.le_succ _)) quoting_none read reads
        · exact fun same => escape.2.2 (congrArg some same)
        · rw [stripped, plain]
          rfl
        · exact regular
        · exact room
  · rw [if_neg fun all => backslash all.1] at regular
    apply copies_char (later rest (Nat.le_refl _)) quoting_none read reads feed backslash
    · rw [if_neg fun both => both.1 rfl, if_neg fun both => quote both.2]
    · exact Or.inl slash
    · exact stripped
    · exact regular.2
    · exact room

end Copying

theorem copies (size : Nat) : ∀ text : Text, text.length ≤ size → Copies text := by
  induction size with
  | zero =>
    intro text small
    rw [List.length_eq_zero_iff.mp (Nat.le_zero.mp small)]
    exact copies_nil
  | succ size ih =>
    intro text small
    cases text with
    | nil => exact copies_nil
    | cons c rest =>
      have later : ∀ text : Text, text.length ≤ rest.length → Copies text := by
        intro text shorter
        apply ih text
        rw [List.length_cons] at small
        omega
      intro quote peekc input bp quoting pending regular room
      cases quote with
      | none => exact copies_outside later pending regular room
      | some d => exact copies_inside later quoting pending regular room

/-- Every line of the text is shorter than the code allows; a line of two characters less than the buffer
fills it with the newline and the zero, and is taken as too long. -/
def Short (text : Text) : Prop :=
  ∀ before line left, text = before ++ line ++ left → '\n' ∉ line → line.length + 2 < INPUTSIZ

theorem Short.room (short : Short text) : Room 0 text := by
  intro line left same feed
  rw [Nat.zero_add]
  exact short [] line left same feed

theorem Short.behind (line : Text) (short : Short (line ++ text)) : Short text := by
  intro before piece left same feed
  apply short (line ++ before) piece left _ feed
  rw [same, List.append_assoc, List.append_assoc, List.append_assoc]

theorem readline_line {line : Text} (more : input.eof = false)
    (scanned : scan input [] (some '\x00') '\x00' = some (line, input'))
    (short : line.length + 2 < INPUTSIZ) : readline input = some (some (line ++ ['\n']), input') := by
  have room : line.length ≠ INPUTSIZ - 2 := by omega
  unfold readline
  rw [more, scanned, if_neg Bool.false_ne_true, Option.map_some]
  dsimp only
  rw [if_neg room]

theorem readline_end (ended : input.eof = true) : readline input = some (none, input) := if_pos ended

theorem delivers_text (size : Nat) : ∀ {text : Text} {input : Input}, text.length < size →
    Reads input text → input.eof = false → Regular none text → Short (strip none text) →
    Delivers input (strip none text ++ ['\n']) := by
  induction size with
  | zero =>
    intro text input small
    exact absurd small (Nat.not_lt_zero _)
  | succ size ih =>
    intro text input small reads more regular short
    have scans : Scans input [] (some '\x00') none text :=
      copies text.length text (Nat.le_refl _) quoting_none (Or.inl ⟨rfl, reads⟩) regular short.room
    rcases scans with ⟨line, left, input', scanned, stripped, feed, regular', ends, shorter⟩
    rw [stripped] at short ⊢
    have first := readline_line more scanned (short [] line _ rfl feed)
    rcases ends with ⟨rfl, ended⟩ | ⟨rest, rfl, reads', more'⟩
    · have whole := Delivers.line first (Delivers.done (readline_end ended))
      rw [strip, List.append_nil]
      rwa [List.nil_append, List.append_nil] at whole
    · rw [strip_newline] at short ⊢
      rw [regular_newline] at regular'
      rw [List.length_cons] at shorter
      have whole := Delivers.line first (ih (by omega) reads' more' regular' ((short.behind line).behind ['\n']))
      rw [List.nil_append, List.append_assoc] at whole
      rwa [List.append_assoc]

theorem delivers_unique {text text' : Text} (delivers : Delivers input text)
    (delivers' : Delivers input text') : text = text' := by
  induction delivers generalizing text' with
  | done ended =>
    cases delivers' with
    | done => rfl
    | line read _ =>
      rw [ended] at read
      cases read
  | line read _ ih =>
    cases delivers' with
    | done ended =>
      rw [ended] at read
      cases read
    | line read' later =>
      rw [read] at read'
      cases read'
      rw [ih later]

theorem reads_start (lines : text.count '\n' < 4294967296) : Reads (start text) (splice text) := by
  refine ⟨rfl, ?_, fun ended => by cases ended⟩
  exact Nat.lt_of_le_of_lt (Nat.le_of_eq (Nat.zero_add _)) lines

/-- The lines of a file that meets the condition make up its text without the comments, and its last line
gets a newline. -/
theorem delivers_iff {text : Text} (lines : text.count '\n' < 4294967296)
    (regular : Regular none (splice text)) (short : Short (strip none (splice text))) (delivered : Text) :
    Delivers (start text) delivered ↔ delivered = strip none (splice text) ++ ['\n'] := by
  have delivers := delivers_text _ (Nat.le_refl _) (reads_start lines) rfl regular short
  constructor
  · intro same
    exact delivers_unique same delivers
  · rintro rfl
    exact delivers

/-- The comment in `a/***c*/b` ends after an odd run, and `b` is left. -/
theorem odd_run_delivered :
    Delivers (start ['a', '/', '*', '*', '*', 'c', '*', '/', 'b']) ['a', ' ', 'b', '\n'] := by
  have spliced : splice ['a', '/', '*', '*', '*', 'c', '*', '/', 'b'] =
      ['a', '/', '*', '*', '*', 'c', '*', '/', 'b'] := rfl
  have stripped : strip none ['a', '/', '*', '*', '*', 'c', '*', '/', 'b'] = ['a', ' ', 'b'] := by
    simp [strip, behind]
  have text := @delivers_iff ['a', '/', '*', '*', '*', 'c', '*', '/', 'b'] (by decide)
    (by simp [spliced, Regular, behind, run])
    (by
      rw [spliced, stripped]
      intro before line left same _
      have size := congrArg List.length same
      rw [List.length_append, List.length_append] at size
      change 3 = _ at size
      change line.length + 2 < 4095
      omega) ['a', ' ', 'b', '\n']
  rw [spliced, stripped] at text
  exact text.mpr rfl

/-- The comment in `/***/a` ends after an even run, and `a` is lost with it. -/
theorem even_run_lost : ¬ ∀ text : Text, Short (strip none (splice text)) → ∀ delivered : Text,
      Delivers (start text) delivered ↔ delivered = strip none (splice text) ++ ['\n'] := by
  intro all
  have spliced : splice ['/', '*', '*', '*', '/', 'a'] = ['/', '*', '*', '*', '/', 'a'] := rfl
  have stripped : strip none ['/', '*', '*', '*', '/', 'a'] = [' ', 'a'] := by
    simp [strip, behind]
  have short : Short [' ', 'a'] := by
    intro before line left same _
    have size := congrArg List.length same
    rw [List.length_append, List.length_append] at size
    change 2 = _ at size
    change line.length + 2 < 4095
    omega
  have reads : Reads (start ['/', '*', '*', '*', '/', 'a']) ['/', '*', '*', '*', '/', 'a'] :=
    reads_start (by decide)
  have ⟨input, read, reads', _⟩ := next_cons (Or.inl ⟨rfl, reads⟩)
  have ⟨input', again, reads'', _⟩ := readchar_cons reads'
  have ⟨input'', ended, reads3⟩ := comment_skip _ reads''
  have ⟨last, nothing, eof⟩ := next_nil (Or.inl ⟨rfl, reads3⟩)
  have comments := @scan_slash _ _ _ [] _ (by decide) read _ again
  rw [if_neg (by decide), if_pos rfl, ended] at comments
  have scanned := @scan_end input'' last [' '] _ '\x00' (by decide) nothing
  have line := readline_line rfl (comments.trans scanned) (by decide)
  have delivers := Delivers.line line (Delivers.done (readline_end eof))
  have equal := ((all _ (by rwa [spliced, stripped])) _).mp delivers
  rw [spliced, stripped] at equal
  exact absurd equal (by decide)

end Scc.Cc1.Readline
