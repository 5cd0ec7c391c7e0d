import Scc.Lib.Budget
import Scc.Cc1.Substitution

/-!
# The buffer of an expansion

`copymacro()` writes an expansion with a cursor and counts the room that is left apart. Every text that it
copies is paid for, but the two quotes of the stringizing operator: each of them leaves the counted room
one larger than the real one. The names of the file and of the line are written without a question, and
the concatenation operator looks for blanks in front of the buffer when nothing else is written.
-/

namespace Scc.Cc1.MacroBuffer

open Scc.Lib.Budget
open Scc.Cc1.Lex

set_option autoImplicit false

def blank (c : Char) : Bool := c = ' '

/-- A text that is asked for and paid as it is. -/
def copy (text : Text) : Op Char := .write text.length text text.length

/-- `expandarg()`: an argument beside the concatenation operator, or its tokens as `next()` returns them. -/
def expandargOps (macros : List Token → List Token) (concat : Bool) (arg : Text) : List (Op Char) :=
  if concat then [.write (arg.length + 1) arg arg.length]
  else
    match tokens false arg with
    | none => [.fail]
    | some ts => (macros ts).map fun t =>
      .write (t.yytext.length + 2) (t.yytext ++ [' ']) (t.yytext.length + 1)

/-- A character of the argument of the stringizing operator. -/
def stringizeOp (c : Char) : Op Char :=
  if c = '"' then .write 3 ['\\', '"'] 2 else .write 2 [c] 1

/-- The stringizing operator, whose quotes are not paid for. -/
def stringizeOps (arg : Text) : List (Op Char) :=
  .write 3 ['"'] 0 :: (arg.map stringizeOp ++ [.write 0 ['"'] 0])

/-- The loop of `copymacro()`; `before` is what is read so far, backwards. -/
def copymacroOps (macros : List Token → List Token) (arglist : List Text) (before s : Text) :
    List (Op Char) :=
  match s with
  | [] => []
  | c :: rest =>
    if c = '\'' ∨ c = '"' then
      match delimited c false rest with
      | none => [.fail]
      | some n =>
        copy (c :: rest.take n) ::
          copymacroOps macros arglist ((c :: rest.take n).reverse ++ before) (rest.drop n)
    else if c = CONCAT then
      .back :: copymacroOps macros arglist (c :: before)
        (rest.drop (rest.takeWhile (· = ' ')).length)
    else if c = STRINGIZE then
      stringizeOps (arglist.getD (atoi (rest.drop 1)) []) ++
        copymacroOps macros arglist ((c :: rest.take 4).reverse ++ before) (rest.drop 4)
    else if c = MACROPAR then
      expandargOps macros (concatoper before (rest.drop 3)) (arglist.getD (atoi rest) []) ++
        copymacroOps macros arglist ((c :: rest.take 3).reverse ++ before) (rest.drop 3)
    else copy [c] :: copymacroOps macros arglist (c :: before) rest
termination_by s.length
decreasing_by
  · simp only [List.length_drop, List.length_cons]
    omega
  · simp only [List.length_drop, List.length_cons]
    omega
  · simp only [List.length_drop, List.length_cons]
    omega
  · simp only [List.length_drop, List.length_cons]
    omega
  · exact Nat.lt_succ_self _

inductive Expansion
  /-- `__FILE__` -/
  | symfile (filenam : Text)
  /-- `__LINE__` -/
  | symline (lineno : Nat)
  | defined (macros : List Token → List Token) (arglist : List Text) (def_ : Text)

def Expansion.ops : Expansion → List (Op Char)
  | .symfile filenam => [.write 0 ('"' :: filenam ++ ['"', ' ']) 0]
  | .symline lineno => [.write 0 (Nat.toDigits 10 lineno ++ [' ']) 0]
  | .defined macros arglist def_ => copymacroOps macros arglist [] def_

/-- `mp->bufsiz`, the last index of the buffer. -/
def bufsiz : Nat := INPUTSIZ - 1

/-- The expansion into the buffer, with the byte in front of it. -/
def expand (ahead : Char) (expansion : Expansion) : Except Stop (Cursor Char) :=
  run blank bufsiz ahead expansion.ops ⟨[], bufsiz⟩

/-- A run and what it should give behind a text. -/
def Agrees (written : Text) (ran : Except Stop (Cursor Char)) (result : Option (Text × Nat)) : Prop :=
  match ran with
  | .ok cur => ∃ text room, result = some (text, room) ∧ cur = ⟨text.reverse ++ written, room⟩
  | .error .outside => True
  | .error _ => result = none

variable {ahead : Char} {size : Nat}

theorem Agrees.behind {front written : Text} {ran : Except Stop (Cursor Char)}
    {result : Option (Text × Nat)} (agrees : Agrees (front.reverse ++ written) ran result) :
    Agrees written ran (result.map fun (text, room) => (front ++ text, room)) := by
  unfold Agrees at agrees ⊢
  split at agrees
  · have ⟨text, room, same, reached⟩ := agrees
    refine ⟨front ++ text, room, ?_, ?_⟩
    · rw [same]
      rfl
    · rw [reached, List.reverse_append, List.append_assoc]
  · exact trivial
  · rw [agrees]
    rfl

theorem agrees_write {need cost : Nat} {text written : Text} {room : Nat} {ops : List (Op Char)}
    {result : Option (Text × Nat)} (later : Agrees (text.reverse ++ written)
      (run blank size ahead ops ⟨text.reverse ++ written, room - cost⟩) result) :
    Agrees written (run blank size ahead (.write need text cost :: ops) ⟨written, room⟩)
      (if room < need then none else result.map fun (text', room) => (text ++ text', room)) := by
  rw [run, perform]
  by_cases short : room < need
  · rw [if_pos short, if_pos short]
    exact rfl
  · rw [if_neg short, if_neg short]
    split_ifs
    · exact trivial
    · exact later.behind

theorem stringize_agrees (arg written : Text) (room : Nat) :
    Agrees written (run blank size ahead (arg.map stringizeOp) ⟨written, room⟩) (stringize room arg) := by
  induction arg generalizing written room with
  | nil => exact ⟨[], room, rfl, rfl⟩
  | cons c arg ih =>
    rw [List.map_cons, stringize, stringizeOp]
    by_cases quote : c = '"'
    · rw [if_pos quote, if_pos quote]
      exact agrees_write (ih _ _)
    · rw [if_neg quote, if_neg quote]
      exact agrees_write (ih _ _)

theorem expandtokens_agrees (ts : List Token) (written : Text) (room : Nat) : Agrees written
      (run blank size ahead (ts.map fun t =>
        .write (t.yytext.length + 2) (t.yytext ++ [' ']) (t.yytext.length + 1)) ⟨written, room⟩)
      ((expandtokens room ts).map fun text => (text, room - text.length)) := by
  induction ts generalizing written room with
  | nil => exact ⟨[], room, rfl, rfl⟩
  | cons t ts ih =>
    have later := @agrees_write ahead size (t.yytext.length + 2) (t.yytext.length + 1)
      (t.yytext ++ [' ']) written room _ _ (ih _ _)
    rw [List.map_cons, expandtokens]
    split_ifs at later ⊢ with short
    · exact later
    · rw [Option.map_map] at later ⊢
      have same : (fun text : Text => (text, room - text.length)) ∘ (fun text => t.yytext ++ ' ' :: text) =
          (fun (text', room) => (t.yytext ++ [' '] ++ text', room)) ∘
            fun text : Text => (text, room - (t.yytext.length + 1) - text.length) := by
        funext text
        have length : (t.yytext ++ ' ' :: text).length = t.yytext.length + 1 + text.length := by
          rw [List.length_append, List.length_cons]
          omega
        simp only [Function.comp_apply, length, List.append_assoc, List.singleton_append, Nat.sub_sub]
      rw [same]
      exact later

theorem expandarg_agrees (macros : List Token → List Token) (concat : Bool) (arg written : Text)
    (room : Nat) : Agrees written (run blank size ahead (expandargOps macros concat arg) ⟨written, room⟩)
      ((expandarg macros concat arg room).map fun text => (text, room - text.length)) := by
  unfold expandargOps expandarg
  cases concat with
  | true =>
    have later : Agrees (arg.reverse ++ written)
        (run blank size ahead [] ⟨arg.reverse ++ written, room - arg.length⟩)
        (some ([], room - arg.length)) := ⟨[], _, rfl, rfl⟩
    have agrees := @agrees_write ahead size (arg.length + 1) arg.length arg written room [] _ later
    rw [if_pos rfl, if_pos rfl]
    by_cases short : room ≤ arg.length
    · rw [if_pos (Nat.lt_succ_of_le short)] at agrees
      rw [if_pos short]
      exact agrees
    · rw [if_neg (fun less => short (Nat.le_of_lt_succ less)), Option.map_some] at agrees
      dsimp only at agrees
      rw [List.append_nil] at agrees
      rw [if_neg short]
      exact agrees
  | false =>
    rw [if_neg (by decide), if_neg (by decide)]
    cases tokens false arg with
    | none => exact rfl
    | some ts => exact expandtokens_agrees (macros ts) written room

/-- A run and the expansion that it makes. -/
def Follows (ran : Except Stop (Cursor Char)) (result : Option Text) : Prop :=
  match ran with
  | .ok cur => result = some cur.written.reverse
  | .error .outside => True
  | .error _ => result = none

theorem follows_append {ops ops' : List (Op Char)} {written : Text} {room : Nat}
    {result : Option (Text × Nat)} {next : Text → Nat → Option Text}
    (first : Agrees written (run blank size ahead ops ⟨written, room⟩) result)
    (later : ∀ text room, Follows (run blank size ahead ops' ⟨text.reverse ++ written, room⟩)
      (next text room)) : Follows (run blank size ahead (ops ++ ops') ⟨written, room⟩)
      (result.bind fun (text, room) => next text room) := by
  rw [run_append]
  generalize run blank size ahead ops ⟨written, room⟩ = ran at first ⊢
  cases ran with
  | ok cur =>
    have ⟨text, room, same, reached⟩ := first
    rw [same, reached]
    exact later text room
  | error stop =>
    cases stop with
    | outside => exact trivial
    | full =>
      have none_ : result = none := first
      rw [none_]
      exact rfl
    | failed =>
      have none_ : result = none := first
      rw [none_]
      exact rfl

theorem follows_copy {ops : List (Op Char)} {text written : Text} {room : Nat} {result : Option Text}
    (later : Follows (run blank size ahead ops ⟨text.reverse ++ written, room - text.length⟩) result) :
    Follows (run blank size ahead (copy text :: ops) ⟨written, room⟩)
      (if room < text.length then none else result) := by
  unfold copy
  rw [run, perform]
  by_cases short : room < text.length
  · rw [if_pos short, if_pos short]
    exact rfl
  · rw [if_neg short, if_neg short]
    by_cases passes : size < written.length + text.length
    · rw [if_pos passes]
      exact trivial
    · rw [if_neg passes]
      exact later

theorem follows_stringize {ops : List (Op Char)} (arg : Text) {written : Text} {room : Nat}
    {next : Text → Nat → Option Text} (later : ∀ text room, Follows
      (run blank size ahead ops ⟨('"' :: text ++ ['"']).reverse ++ written, room⟩) (next text room)) :
    Follows (run blank size ahead (stringizeOps arg ++ ops) ⟨written, room⟩)
      (if room < 3 then none else (stringize room arg).bind fun (text, room) => next text room) := by
  unfold stringizeOps
  rw [List.cons_append, run, perform]
  by_cases short : room < 3
  · rw [if_pos short, if_pos short]
    exact rfl
  · rw [if_neg short, if_neg short]
    by_cases passes : size < written.length + ['"'].length
    · rw [if_pos passes]
      exact trivial
    · rw [if_neg passes, List.append_assoc]
      apply follows_append (stringize_agrees arg ('"' :: written) room)
      intro text room'
      rw [List.singleton_append, run, perform, if_neg (Nat.not_lt_zero room')]
      split_ifs
      · exact trivial
      · have whole : ('"' :: text ++ ['"']).reverse ++ written =
            ['"'].reverse ++ (text.reverse ++ '"' :: written) := by
          simp
        have done := later text room'
        rw [whole] at done
        exact done

theorem delimited_le {delim : Char} {esc : Bool} {s : Text} {n : Nat}
    (found : delimited delim esc s = some n) : n ≤ s.length := by
  induction s generalizing esc n with
  | nil => cases found
  | cons c s ih =>
    rw [delimited] at found
    rw [List.length_cons]
    split_ifs at found
    · have ⟨k, inner, same⟩ := Option.map_eq_some_iff.mp found
      have le := ih inner
      omega
    · cases found
      omega
    · have ⟨k, inner, same⟩ := Option.map_eq_some_iff.mp found
      have le := ih inner
      omega

variable (macros : List Token → List Token) (arglist : List Text)

theorem copymacro_follows (before written : Text) (room : Nat) (s : Text) :
    Follows (run blank size ahead (copymacroOps macros arglist before s) ⟨written, room⟩)
      ( copymacro arglist (expandarg macros) before written room s) := by
  induction length : s.length using Nat.strongRecOn generalizing before written room s with
  | ind n ih =>
    cases s with
    | nil =>
      rw [copymacroOps, copymacro]
      exact rfl
    | cons c rest =>
      rw [List.length_cons] at length
      have shorter : ∀ k before written room,
          Follows (run blank size ahead (copymacroOps macros arglist before (rest.drop k)) ⟨written, room⟩)
            ( copymacro arglist (expandarg macros) before written room (rest.drop k)) := by
        intro k before written room
        apply ih (rest.drop k).length _ _ _ _ _ rfl
        rw [List.length_drop]
        omega
      rw [copymacroOps, copymacro]
      by_cases quote : c = '\'' ∨ c = '"'
      · rw [if_pos quote, if_pos quote]
        cases found : delimited c false rest with
        | none => exact rfl
        | some k =>
          have inside : (c :: rest.take k).length = k + 1 := by
            rw [List.length_cons, List.length_take, Nat.min_eq_left (delimited_le found)]
          have copied := @follows_copy ahead size _ (c :: rest.take k) written room _
            (shorter k ((c :: rest.take k).reverse ++ before) _ _)
          rw [inside] at copied
          exact copied
      · rw [if_neg quote, if_neg quote]
        by_cases concat : c = CONCAT
        · rw [if_pos concat, if_pos concat, run, perform]
          split_ifs
          · exact trivial
          · exact shorter _ _ _ _
        · rw [if_neg concat, if_neg concat]
          by_cases operator : c = STRINGIZE
          · rw [if_pos operator, if_pos operator]
            exact follows_stringize _ fun text room' =>
              shorter 4 ((c :: rest.take 4).reverse ++ before)
                (('"' :: text ++ ['"']).reverse ++ written) room'
          · rw [if_neg operator, if_neg operator]
            by_cases parameter : c = MACROPAR
            · rw [if_pos parameter, if_pos parameter]
              have agrees := @expandarg_agrees ahead size macros (concatoper before (rest.drop 3))
                (arglist.getD (atoi rest) []) written room
              have appended := follows_append agrees fun text room' =>
                shorter 3 ((c :: rest.take 3).reverse ++ before) (text.reverse ++ written) room'
              rw [Option.bind_map] at appended
              exact appended
            · rw [if_neg parameter, if_neg parameter]
              have later := @follows_copy ahead size _ [c] written room _
                (ih rest.length (by omega) (c :: before) (c :: written) (room - 1) rest rfl)
              have few : room < [c].length ↔ room = 0 := by
                rw [List.length_singleton]
                omega
              simp only [few] at later
              exact later

/-- The cursor stays in the buffer, and what is written fits into it. -/
structure Stays (ahead : Char) (expansion : Expansion) : Prop where
  inside : expand ahead expansion ≠ .error .outside
  fits : ∀ cur, expand ahead expansion = .ok cur → cur.written.length ≤ bufsiz

theorem sound_copy (text : Text) : (copy text).Sound := ⟨Nat.le_refl _, Nat.le_refl _⟩

theorem sound_stringize (arg : Text) : ∀ op ∈ stringizeOps arg, op.Sound := by
  have quotes : ∀ need, (Op.write need ['"'] 0).Sound := fun need => ⟨Nat.zero_le _, Nat.zero_le _⟩
  unfold stringizeOps
  rw [List.forall_mem_cons]
  refine ⟨quotes 3, ?_⟩
  intro op member
  cases List.mem_append.mp member with
  | inl found =>
    have ⟨c, _, same⟩ := List.mem_map.mp found
    rw [← same, stringizeOp]
    split_ifs
    · exact ⟨by decide, by decide⟩
    · exact ⟨by decide, Nat.le_refl _⟩
  | inr last =>
    rw [List.mem_singleton.mp last]
    exact quotes 0

theorem sound_expandarg (concat : Bool) (arg : Text) : ∀ op ∈ expandargOps macros concat arg, op.Sound := by
  intro op member
  unfold expandargOps at member
  split at member
  · rw [List.mem_singleton.mp member]
    exact ⟨Nat.le_succ _, Nat.le_refl _⟩
  · split at member
    · rw [List.mem_singleton.mp member]
      exact trivial
    · have ⟨t, _, same⟩ := List.mem_map.mp member
      rw [← same]
      refine ⟨Nat.le_succ _, ?_⟩
      rw [List.length_append, List.length_singleton]

theorem forall_copymacro {P : Op Char → Prop} (copied : ∀ text, P (copy text)) (back : P .back)
    (fail : P .fail) (argument : ∀ concat arg, ∀ op ∈ expandargOps macros concat arg, P op)
    (before s : Text) (operator : STRINGIZE ∈ s → ∀ arg, ∀ op ∈ stringizeOps arg, P op) :
    ∀ op ∈ copymacroOps macros arglist before s, P op := by
  induction length : s.length using Nat.strongRecOn generalizing before s with
  | ind n ih =>
    cases s with
    | nil =>
      intro op member
      rw [copymacroOps] at member
      cases member
    | cons c rest =>
      rw [List.length_cons] at length
      have shorter : ∀ k before, ∀ op ∈ copymacroOps macros arglist before (rest.drop k), P op := by
        intro k before
        have less : (rest.drop k).length < n := by
          rw [List.length_drop]
          omega
        exact ih _ less before _
          (fun member => operator (List.mem_cons_of_mem c (List.mem_of_mem_drop member))) rfl
      intro op member
      rw [copymacroOps] at member
      split_ifs at member with quote concat hash
      · split at member
        · rw [List.mem_singleton.mp member]
          exact fail
        · cases List.mem_cons.mp member with
          | inl first =>
            rw [first]
            exact copied _
          | inr later => exact shorter _ _ op later
      · cases List.mem_cons.mp member with
        | inl first =>
          rw [first]
          exact back
        | inr later => exact shorter _ _ op later
      · cases List.mem_append.mp member with
        | inl first => exact operator (hash ▸ List.mem_cons_self) _ op first
        | inr later => exact shorter _ _ op later
      · cases List.mem_append.mp member with
        | inl first => exact argument _ _ op first
        | inr later => exact shorter _ _ op later
      · cases List.mem_cons.mp member with
        | inl first =>
          rw [first]
          exact copied _
        | inr later => exact shorter 0 _ op later

theorem sound_ops (expansion : Expansion) : ∀ op ∈ expansion.ops, op.Sound := by
  cases expansion with
  | symfile filenam =>
    intro op member
    rw [List.mem_singleton.mp member]
    exact ⟨Nat.zero_le _, Nat.zero_le _⟩
  | symline lineno =>
    intro op member
    rw [List.mem_singleton.mp member]
    exact ⟨Nat.zero_le _, Nat.zero_le _⟩
  | defined macros arglist def_ =>
    exact forall_copymacro macros arglist sound_copy trivial trivial (sound_expandarg macros) [] def_
      fun _ => sound_stringize

theorem stays_without_operator {ahead : Char} {def_ : Text} (start : blank ahead = false)
    (none_ : STRINGIZE ∉ def_) : Stays ahead (.defined macros arglist def_) := by
  have argument : ∀ concat arg, ∀ op ∈ expandargOps macros concat arg, op.Paid := by
    intro concat arg op member
    unfold expandargOps at member
    split at member
    · rw [List.mem_singleton.mp member]
      exact ⟨rfl, Nat.le_succ _⟩
    · split at member
      · rw [List.mem_singleton.mp member]
        exact trivial
      · have ⟨t, _, same⟩ := List.mem_map.mp member
        rw [← same]
        unfold Op.Paid
        dsimp only
        rw [List.length_append, List.length_singleton]
        exact ⟨rfl, Nat.le_succ _⟩
  have paid : ∀ op ∈ copymacroOps macros arglist [] def_, op.Paid :=
    forall_copymacro macros arglist (fun text => ⟨rfl, Nat.le_refl _⟩) trivial trivial argument [] def_
      fun member => absurd member none_
  constructor
  · exact inside_of_paid start paid
  · exact fun cur done => run_length (Nat.zero_le _) done

theorem stays_without_operator_x : Stays 'a' (.defined id [] ['x']) :=
  stays_without_operator id [] (by decide) (by decide)

/-- The characters of a literal that the stringizing operator makes, without its quotes. -/
def width (arg : Text) : Nat := (arg.map fun c => if c = '"' then 2 else 1).sum

theorem width_append (arg arg' : Text) : width (arg ++ arg') = width arg + width arg' := by
  unfold width
  rw [List.map_append, List.sum_append]

theorem width_cons (c : Char) (arg : Text) :
    width (c :: arg) = (if c = '"' then 2 else 1) + width arg := by
  unfold width
  rw [List.map_cons, List.sum_cons]

theorem run_stringize (arg : Text) : ∀ (written : Text) (room : Nat),
    written.length + room = size + 1 → width arg < room →
      ∃ text, run blank size ahead (arg.map stringizeOp) ⟨written, room⟩ =
        .ok ⟨text, room - width arg⟩ ∧ text.length = written.length + width arg := by
  induction arg with
  | nil => exact fun written room _ _ => ⟨written, rfl, rfl⟩
  | cons c arg ih =>
    intro written room count fits
    have step : ∀ (need : Nat) (text : Text), stringizeOp c = .write need text text.length →
        width (c :: arg) = text.length + width arg → need ≤ text.length + 1 →
          ∃ last, run blank size ahead ((c :: arg).map stringizeOp) ⟨written, room⟩ =
            .ok ⟨last, room - width (c :: arg)⟩ ∧
              last.length = written.length + width (c :: arg) := by
      intro need text op whole asks
      have behind : (text.reverse ++ written).length = written.length + text.length := by
        rw [List.length_append, List.length_reverse, Nat.add_comm]
      have ⟨last, reached, length⟩ := ih (text.reverse ++ written) (room - text.length)
        (by omega) (by omega)
      refine ⟨last, ?_, by omega⟩
      rw [List.map_cons, run, op, perform_write (by omega) (by omega)]
      dsimp only
      rw [reached, whole, Nat.sub_sub]
    have wide := width_cons c arg
    by_cases quote : c = '"'
    · rw [if_pos quote] at wide
      exact step 3 ['\\', '"'] (if_pos quote) wide (by decide)
    · rw [if_neg quote] at wide
      exact step 2 [c] (if_neg quote) wide (Nat.le_refl 2)

theorem stringize_outside {arg : Text} (full : width arg + 1 = size) (large : 3 ≤ size)
    (ops : List (Op Char)) : run blank size ahead (stringizeOps arg ++ ops) ⟨[], size⟩ = .error .outside := by
  have ⟨text, reached, length⟩ := @run_stringize ahead size arg ['"'] size
    (Nat.add_comm 1 size) (by omega)
  have first : perform blank size ahead ⟨[], size⟩ (.write 3 ['"'] 0) = .ok ⟨['"'], size⟩ :=
    perform_write large (Nat.le_trans (by decide) large)
  have passes : size < text.length + ['"'].length := by
    rw [length, List.length_singleton]
    omega
  unfold stringizeOps
  rw [List.cons_append, run, first]
  dsimp only
  rw [List.append_assoc, run_append, reached]
  dsimp only
  rw [List.singleton_append, run, perform_outside (Nat.zero_le _) passes]

/-- A macro that `define()` accepts, with arguments as `parsepars()` collects them. -/
structure Invocation where
  params : List Text
  line : Text
  def_ : Text
  macros : List Token → List Token
  arglist : List Text
  accepted : define params line = some def_
  collected : ∀ arg ∈ arglist, ∃ ts close rest, parameter none 0 ts = some (arg, close, rest)
  number : arglist.length = params.length

def Invocation.expansion (i : Invocation) : Expansion := .defined i.macros i.arglist i.def_

/-- The characters of a string literal that fills the buffer. -/
def letters : Text := List.replicate 4089 'a'

def literal : Text := '"' :: letters ++ ['"']

theorem literal_cstring : cstring literal = literal := by
  unfold cstring
  rw [List.takeWhile_eq_self_iff]
  intro c member
  unfold literal at member
  rw [List.cons_append, List.mem_cons, List.mem_append, List.mem_singleton] at member
  rcases member with rfl | found | rfl
  · rfl
  · rw [List.eq_of_mem_replicate found]
    rfl
  · rfl

theorem literal_collected :
    parameter none 0 [.string letters, .text [')']] = some (literal, .text [')'], []) := by
  have stripped : strip (literal ++ [' ']) = literal := by
    unfold strip
    rw [List.rdropWhile_concat_pos _ _ _ rfl]
    unfold literal
    rw [List.rdropWhile_concat_neg _ _ _ (by decide), List.cons_append,
      List.dropWhile_cons_of_neg (by decide)]
  have collected : (nextcpp (some literal) (.text [')'])).dropLast = literal ++ [' '] := by
    have closing : cstring (Token.text [')']).yytext = [')'] := rfl
    rw [nextcpp, closing, List.dropLast_append_cons]
    rfl
  have first : nextcpp none (.string letters) = literal := literal_cstring
  rw [parameter, if_neg (by decide), if_neg (by decide), if_neg (by decide), first, parameter,
    if_pos rfl, collected, stripped]

theorem stringizing_defined : define [['x']] ['#', 'x'] = some (STRINGIZE :: macropar 0 ++ [' ']) := by
  have scanned : tokens true ['#', 'x'] = some [.text ['#'], .text ['x']] := by
    have first : token true '#' ['x'] = some (.text ['#'], 0) := rfl
    have second : token true 'x' [] = some (.text ['x'], 0) := rfl
    rw [tokens_cons (by decide), first, Option.bind_some]
    dsimp only
    rw [List.drop_zero, tokens_cons (by decide), second, Option.bind_some]
    dsimp only
    rw [List.drop_zero, tokens_nil]
    rfl
  unfold define
  rw [scanned, Option.bind_some]
  rfl

/-- `#define M(x) #x` -/
def stringizing : Invocation where
  params := [['x']]
  line := ['#', 'x']
  def_ := STRINGIZE :: macropar 0 ++ [' ']
  macros := id
  arglist := [literal]
  accepted := stringizing_defined
  collected := by
    intro arg member
    rw [List.mem_singleton.mp member]
    exact ⟨_, _, _, literal_collected⟩
  number := rfl

end Scc.Cc1.MacroBuffer
