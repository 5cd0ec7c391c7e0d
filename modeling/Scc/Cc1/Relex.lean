import Scc.Cc1.Token

/-!
# Tokens that are read again

A token that is no string literal is read again from its own text, when a blank or
the end of the text follows. This holds of every reader of the lexer, and of
readers in sequence.
-/

namespace Scc.Cc1.Lex

set_option autoImplicit false

/-- What follows a token in a text that the preprocessor writes. -/
def Edge (rest : Text) : Prop := rest = [] ∨ ∃ after, rest = ' ' :: after

/-- What a reader takes of a text ends with no space and is taken again. -/
structure Again (reader : Text → Option Nat) (input : Text) (n : Nat) : Prop where
  le : n ≤ input.length
  last : ∀ c, (input.take n).getLast? = some c → isspace c = false
  again : ∀ rest, Edge rest → reader (input.take n ++ rest) = some n

def Reads (reader : Text → Option Nat) : Prop :=
  ∀ input n, reader input = some n → Again reader input n

variable {rest input : Text} {reader : Text → Option Nat} {n : Nat} {test : Char → Bool}

theorem edge_head (edge : Edge rest) (test : Char → Bool)
    (notSpace : test ' ' = false) : rest.head?.any test = false := by
  rcases edge with rfl | ⟨after, rfl⟩
  · rfl
  · simpa using notSpace

theorem again_nothing (again : ∀ rest, Edge rest → reader rest = some 0) : Again reader input 0 where
  le := Nat.zero_le _
  last := by
    intro c last
    simp at last
  again := again

theorem reads_nothing : Reads fun _ => some 0 := by
  intro input n done
  cases done
  exact again_nothing fun _ _ => rfl

theorem again_cons (next : Text → Option Nat) {c : Char}
    (notSpace : isspace c = false) (inner : Again next input n)
    (step : ∀ rest, Edge rest → next (input.take n ++ rest) = some n →
      reader (c :: (input.take n ++ rest)) = some (n + 1)) : Again reader (c :: input) (n + 1) where
  le := Nat.succ_le_succ inner.le
  last := by
    intro d last
    rw [List.take_succ_cons, List.getLast?_cons] at last
    cases taken : (input.take n).getLast? with
    | none =>
      rw [taken] at last
      cases last
      exact notSpace
    | some e =>
      rw [taken] at last
      cases last
      exact inner.last _ taken
  again := by
    intro rest edge
    rw [List.take_succ_cons, List.cons_append]
    exact step rest edge (inner.again rest edge)

theorem reads_head (test : Char → Bool) (spaces : ∀ c, test c = true → isspace c = false)
    (reader_eq : ∀ input, reader input = some (if (input.head?.any test) = true then 1 else 0)) :
    Reads reader := by
  have notSpace : test ' ' = false := by
    cases passes : test ' ' with
    | false => rfl
    | true => exact absurd (spaces ' ' passes) (by decide)
  have nothing : ∀ rest, Edge rest → reader rest = some 0 := by
    intro rest edge
    rw [reader_eq, edge_head edge test notSpace]
    rfl
  intro input n done
  rw [reader_eq] at done
  cases input with
  | nil =>
    cases done
    exact again_nothing nothing
  | cons c tail =>
    cases passes : test c with
    | false =>
      simp only [List.head?_cons, Option.any_some, passes] at done
      cases done
      exact again_nothing nothing
    | true =>
      simp only [List.head?_cons, Option.any_some, passes] at done
      cases done
      apply again_cons _ (spaces c passes) (reads_nothing tail 0 rfl)
      intro rest _ _
      rw [reader_eq]
      simp [passes]

theorem reads_follow {expect : Char} (notSpace : isspace expect = false) :
    Reads fun input => some (follow expect input) := by
  apply reads_head fun c => c = expect
  · intro c same
    rw [decide_eq_true_eq] at same
    rw [same]
    exact notSpace
  · intro input
    unfold follow
    cases input <;> simp

theorem reads_logic {op : Char} (notSpace : isspace op = false) :
    Reads fun input => some (logic op input) := by
  apply reads_head fun c => c = '=' || c = op
  · intro c either
    simp only [Bool.or_eq_true, decide_eq_true_eq] at either
    rcases either with rfl | rfl
    · rfl
    · exact notSpace
  · intro input
    unfold logic follow
    cases input with
    | nil => simp
    | cons c rest => by_cases equal : c = '=' <;> simp [equal]

theorem reads_minus : Reads fun input => some (minus input) := by
  apply reads_head fun c => c = '-' || c = '>' || c = '='
  · intro c either
    simp only [Bool.or_eq_true, decide_eq_true_eq] at either
    rcases either with (rfl | rfl) | rfl
    · rfl
    · rfl
    · rfl
  · intro input
    unfold minus follow
    cases input with
    | nil => simp
    | cons c rest =>
      by_cases dash : c = '-'
      · simp [dash]
      · by_cases angle : c = '>' <;> simp [dash, angle]

theorem reads_plus : Reads fun input => some (plus input) := by
  apply reads_head fun c => c = '+' || c = '='
  · intro c either
    simp only [Bool.or_eq_true, decide_eq_true_eq] at either
    rcases either with rfl | rfl
    · rfl
    · rfl
  · intro input
    unfold plus follow
    cases input with
    | nil => simp
    | cons c rest => by_cases cross : c = '+' <;> simp [cross]

theorem reads_relational {op : Char} (notSpace : isspace op = false) (notEqual : op ≠ '=') :
    Reads fun input => some (relational op input) := by
  have nothing : ∀ rest, Edge rest → some (relational op rest) = some 0 := by
    intro rest edge
    rcases edge with rfl | ⟨after, rfl⟩
    · rfl
    · have notOp : ' ' ≠ op := by
        rintro rfl
        cases notSpace
      simp [relational, notOp]
  intro input n done
  cases input with
  | nil =>
    cases done
    exact again_nothing nothing
  | cons c tail =>
    by_cases equal : c = '='
    · simp only [relational, equal, if_true, Option.some.injEq] at done
      rw [equal, ← done]
      apply again_cons _ rfl (reads_nothing tail 0 rfl)
      intro rest _ _
      simp [relational]
    · by_cases isOp : c = op
      · simp only [relational, isOp, if_true, if_false, notEqual, Option.some.injEq] at done
        rw [isOp, ← done]
        have after : Reads fun input => some (follow '=' input) := reads_follow rfl
        apply again_cons _ notSpace (after tail _ rfl)
        intro rest _ later
        simp only [relational, notEqual, if_true, if_false]
        rw [Option.some.injEq] at later
        rw [later]
      · simp only [relational, equal, isOp, if_false, Option.some.injEq] at done
        rw [← done]
        exact again_nothing nothing

theorem reads_dot : Reads dot := by
  have nothing : ∀ rest, Edge rest → dot rest = some 0 := by
    intro rest edge
    rcases edge with rfl | ⟨after, rfl⟩
    · rfl
    · rfl
  intro input n done
  unfold dot at done
  split at done
  · cases done
    rename_i tail
    apply again_cons (fun _ => some 1) rfl
    · apply again_cons _ rfl (reads_nothing tail 0 rfl)
      intro rest _ _
      rfl
    · intro rest _ _
      rfl
  · cases done
  · cases done
    exact again_nothing nothing

theorem reads_operator (t : Char) : Reads (operator t) := by
  unfold operator
  split
  · exact reads_relational rfl (by decide)
  · exact reads_relational rfl (by decide)
  · exact reads_logic rfl
  · exact reads_logic rfl
  · exact reads_follow rfl
  · exact reads_follow rfl
  · exact reads_follow rfl
  · exact reads_follow rfl
  · exact reads_follow rfl
  · exact reads_follow rfl
  · exact reads_follow rfl
  · exact reads_minus
  · exact reads_plus
  · exact reads_dot
  · exact reads_nothing

theorem character_quoted (done : character input = some n) :
    ∃ text, input.take n = text ++ ['\''] ∧ n = text.length + 1 ∧ n ≤ input.length ∧
      ∀ rest, character (text ++ '\'' :: rest) = some n := by
  induction hlen : input.length using Nat.strongRecOn generalizing input n with
  | ind len ih =>
    cases input with
    | nil => simp [character] at done
    | cons c tail =>
      simp only [List.length_cons] at hlen
      rw [character] at done
      split_ifs at done with quote nul backslash
      · cases done
        refine ⟨[], by simp [quote], rfl, by omega, ?_⟩
        intro rest
        rw [List.nil_append, character, if_pos rfl]
      · obtain ⟨⟨e, k⟩, escaped, continued⟩ := Option.bind_eq_some_iff.mp done
        obtain ⟨m, later, rfl⟩ := Option.map_eq_some_iff.mp continued
        obtain ⟨text, taken, rfl, within, again⟩ :=
          ih (tail.drop k).length (by simp; omega) later rfl
        have inside : k ≤ tail.length := by
          simp only [List.length_drop] at within
          omega
        have whole : tail.take (k + (text.length + 1)) = tail.take k ++ (text ++ ['\'']) := by
          rw [List.take_add, taken]
        refine ⟨c :: (tail.take k ++ text), ?_, ?_, ?_, ?_⟩
        · have count : text.length + 1 + k + 1 = (k + (text.length + 1)) + 1 := by omega
          rw [count, List.take_succ_cons, whole]
          simp
        · simp only [List.length_cons, List.length_append, List.length_take]
          omega
        · simp only [List.length_drop] at within
          omega
        · intro rest
          have split : tail = tail.take k ++ text ++ '\'' :: tail.drop (k + (text.length + 1)) := by
            conv_lhs => rw [← List.take_append_drop (k + (text.length + 1)) tail, whole]
            simp
          have local' : escape (tail.take k ++ text ++ '\'' :: rest) = some (e, k) := by
            rw [escape_local (Or.inr (Or.inl rfl)) _ rest (tail.drop (k + (text.length + 1))), ← split]
            exact escaped
          have behind : (tail.take k ++ text ++ '\'' :: rest).drop k =
              text ++ '\'' :: rest := by
            have length : (tail.take k).length = k := by
              rw [List.length_take]
              omega
            rw [List.append_assoc]
            conv_lhs => rw [← length]
            rw [length, List.drop_append, length]
            simp [List.drop_eq_nil_of_le (Nat.le_of_eq length)]
          rw [List.cons_append, character, if_neg quote, if_neg nul, if_pos backslash, local',
            Option.bind_some]
          simp only [behind, again rest, Option.map_some]
      · obtain ⟨m, later, rfl⟩ := Option.map_eq_some_iff.mp done
        obtain ⟨text, taken, rfl, within, again⟩ := ih tail.length (by omega) later rfl
        refine ⟨c :: text, ?_, rfl, by omega, ?_⟩
        · rw [List.take_succ_cons, taken, List.cons_append]
        · intro rest
          rw [List.cons_append, character, if_neg quote, if_neg nul, if_neg backslash, again rest]
          rfl

theorem reads_character : Reads character := by
  intro input n done
  obtain ⟨text, taken, _, within, again⟩ := character_quoted done
  refine ⟨within, ?_, ?_⟩
  · intro c last
    rw [taken, List.getLast?_append] at last
    cases last
    rfl
  · intro rest _
    rw [taken, List.append_assoc]
    exact again rest

theorem reads_suffix (size : Nat) (sign : Bool) : Reads (suffix size sign) := by
  intro input n done
  have nothing : ∀ size sign rest, Edge rest → suffix size sign rest = some 0 := by
    intro size sign rest edge
    rcases edge with rfl | ⟨after, rfl⟩
    · rfl
    · rfl
  induction input generalizing size sign n with
  | nil =>
    cases done
    exact again_nothing (nothing size sign)
  | cons c tail ih =>
    simp only [suffix] at done
    split_ifs at done with long full unsigned twice
    · obtain ⟨m, later, rfl⟩ := Option.map_eq_some_iff.mp done
      have notSpace : isspace c = false := by
        rcases long with rfl | rfl
        · rfl
        · rfl
      apply again_cons _ notSpace (ih (size + 1) sign m later)
      intro rest _ again
      simp only [suffix, long, full, if_true, if_false, again, Option.map_some]
    · obtain ⟨m, later, rfl⟩ := Option.map_eq_some_iff.mp done
      have notSpace : isspace c = false := by
        rcases unsigned with rfl | rfl
        · rfl
        · rfl
      apply again_cons _ notSpace (ih size true m later)
      intro rest _ again
      simp [suffix, long, unsigned, twice, again]
    · cases done
      exact again_nothing (nothing size sign)

theorem takeWhile_again (notSpace : test ' ' = false) (input : Text) (m : Nat) (edge : Edge rest) :
    (input.takeWhile test ++ ((input.dropWhile test).take m ++ rest)).takeWhile test =
      input.takeWhile test := by
  have stops : ((input.dropWhile test).take m ++ rest).takeWhile test = [] := by
    have edgeStops : rest.takeWhile test = [] := by
      rcases edge with rfl | ⟨after, rfl⟩
      · rfl
      · exact List.takeWhile_cons_of_neg (by simp [notSpace])
    cases behind : input.dropWhile test with
    | nil => simpa using edgeStops
    | cons c tail =>
      have fails : test c = false := by
        have head := List.head?_dropWhile_not test input
        rw [behind] at head
        simpa using head
      cases m with
      | zero => simpa using edgeStops
      | succ m =>
        rw [List.take_succ_cons, List.cons_append]
        exact List.takeWhile_cons_of_neg (by simp [fails])
  rw [List.takeWhile_append_of_pos fun c member => List.mem_takeWhile_imp member, stops,
    List.append_nil]

theorem take_run (test : Char → Bool) (input : Text) (m : Nat) :
    input.take ((input.takeWhile test).length + m) =
      input.takeWhile test ++ (input.dropWhile test).take m := by
  induction input with
  | nil => simp
  | cons c tail ih =>
    by_cases passes : test c = true
    · rw [List.takeWhile_cons_of_pos passes, List.dropWhile_cons_of_pos passes, List.length_cons,
        Nat.add_right_comm, List.take_succ_cons, ih, List.cons_append]
    · rw [List.takeWhile_cons_of_neg passes, List.dropWhile_cons_of_neg passes]
      simp

theorem drop_run (test : Char → Bool) (input : Text) :
    input.drop (input.takeWhile test).length = input.dropWhile test := by
  induction input with
  | nil => rfl
  | cons c tail ih =>
    by_cases passes : test c = true
    · rw [List.takeWhile_cons_of_pos passes, List.dropWhile_cons_of_pos passes, List.length_cons,
        List.drop_succ_cons, ih]
    · rw [List.takeWhile_cons_of_neg passes, List.dropWhile_cons_of_neg passes]
      rfl

theorem reads_run {next : Text → Option Nat}
    (spaces : ∀ c, test c = true → isspace c = false) (inner : Reads next) : Reads fun input =>
      (next (input.drop (input.takeWhile test).length)).map (· + (input.takeWhile test).length) := by
  intro input n done
  obtain ⟨m, later, rfl⟩ := Option.map_eq_some_iff.mp done
  have notSpace : test ' ' = false := by
    cases passes : test ' ' with
    | false => rfl
    | true => exact absurd (spaces ' ' passes) (by decide)
  rw [drop_run] at later
  have after := inner _ m later
  have taken : input.take (m + (input.takeWhile test).length) =
      input.takeWhile test ++ (input.dropWhile test).take m := by
    rw [Nat.add_comm, take_run]
  refine ⟨?_, ?_, ?_⟩
  · have within := after.le
    have parts := congrArg List.length (List.takeWhile_append_dropWhile (p := test) (l := input))
    rw [List.length_append] at parts
    omega
  · intro c last
    rw [taken, List.getLast?_append] at last
    cases behind : ((input.dropWhile test).take m).getLast? with
    | some d =>
      rw [behind] at last
      cases last
      exact after.last _ behind
    | none =>
      rw [behind] at last
      exact spaces c (List.mem_takeWhile_imp (List.mem_of_getLast? last))
  · intro rest edge
    have same := takeWhile_again notSpace input m edge
    rw [taken, List.append_assoc]
    simp only [same, List.drop_left, after.again rest edge, Option.map_some]

theorem not_space (fails : [' ', '\n', '\t', '\r', '\x0b', '\x0c'].all (fun c => !test c) = true) (c : Char)
    (passes : test c = true) : isspace c = false := by
  cases space : isspace c with
  | false => rfl
  | true =>
    simp only [isspace, Bool.or_eq_true, decide_eq_true_eq] at space
    have failed := List.all_eq_true.mp fails c (by simpa [or_assoc] using space)
    rw [passes] at failed
    cases failed

theorem reads_integer (spaces : ∀ c, test c = true → isspace c = false) :
    Reads (integer test) := reads_run spaces (reads_suffix 0 false)

theorem head_again (edge : Edge rest) {d : Char}
    (notSpace : isspace d = false) (starts : (input.take n ++ rest).head? = some d) :
    ∃ tail, input = d :: tail := by
  have edgeHead : rest.head? ≠ some d := by
    rcases edge with rfl | ⟨after, rfl⟩
    · simp
    · intro isSpace
      cases isSpace
      cases notSpace
  cases input with
  | nil =>
    rw [List.take_nil, List.nil_append] at starts
    exact absurd starts edgeHead
  | cons e input =>
    cases n with
    | zero =>
      rw [List.take_zero, List.nil_append] at starts
      exact absurd starts edgeHead
    | succ n =>
      cases starts
      exact ⟨input, rfl⟩

theorem reads_number (c : Char) : Reads (number c) := by
  intro input n done
  unfold number at done
  by_cases decimal : c ≠ '0'
  · rw [if_pos decimal] at done
    have inner := reads_integer (not_space (by decide)) input n done
    refine ⟨inner.le, inner.last, ?_⟩
    intro rest edge
    unfold number
    rw [if_pos decimal]
    exact inner.again rest edge
  · rw [if_neg decimal] at done
    split at done
    · obtain ⟨m, later, rfl⟩ := Option.map_eq_some_iff.mp done
      apply again_cons _ rfl (reads_integer (not_space (by decide)) _ m later)
      intro rest _ again
      unfold number
      rw [if_neg decimal]
      simp only [again, Option.map_some]
    · obtain ⟨m, later, rfl⟩ := Option.map_eq_some_iff.mp done
      apply again_cons _ rfl (reads_integer (not_space (by decide)) _ m later)
      intro rest _ again
      unfold number
      rw [if_neg decimal]
      simp only [again, Option.map_some]
    · rename_i notLower notUpper
      have inner := reads_integer (not_space (by decide)) input n done
      refine ⟨inner.le, inner.last, ?_⟩
      intro rest edge
      unfold number
      rw [if_neg decimal]
      split
      · rename_i tail same
        obtain ⟨tail', isCons⟩ := head_again edge rfl (congrArg List.head? same)
        exact absurd isCons (notLower tail')
      · rename_i tail same
        obtain ⟨tail', isCons⟩ := head_again edge rfl (congrArg List.head? same)
        exact absurd isCons (notUpper tail')
      · exact inner.again rest edge

theorem reads_iden (c : Char) : Reads (iden c) := by
  intro input n done
  unfold iden at done
  by_cases wide : c = 'L' ∧ input.head? = some '\''
  · rw [if_pos wide] at done
    obtain ⟨tail, rfl⟩ := List.head?_eq_some_iff.mp wide.2
    obtain ⟨m, later, rfl⟩ := Option.map_eq_some_iff.mp done
    apply again_cons _ rfl (reads_character tail m later)
    intro rest _ again
    unfold iden
    rw [if_pos ⟨wide.1, rfl⟩]
    simp only [List.tail_cons, again, Option.map_some]
  · rw [if_neg wide] at done
    have run : Reads fun input => (some 0).map (· + (input.takeWhile isidchar).length) :=
      reads_run (not_space (by decide)) reads_nothing
    have inner := run input n (by simpa using done)
    refine ⟨inner.le, inner.last, ?_⟩
    intro rest edge
    have again := inner.again rest edge
    unfold iden
    rw [if_neg]
    · simpa using again
    · rintro ⟨isL, quote⟩
      exact wide ⟨isL, List.head?_eq_some_iff.mpr (head_again edge rfl quote)⟩

theorem reads_token (c : Char) : Reads (tokenLength c) := by
  unfold tokenLength
  split_ifs
  · exact reads_iden c
  · exact reads_number c
  · exact reads_character
  · exact reads_operator c

end Scc.Cc1.Lex
