import Mathlib.Data.List.GetD
import Scc.Make.ActionLine

/-!
# Doubled dollars

A doubled dollar stays doubled in every expansion, and `execline()` takes one of the two away where the line is.
-/

namespace Scc.Make.Expand

set_option autoImplicit false

open Scc.Lib.Fuel

def skip (line : Bytes) : Bytes := line.dropWhile fun c => c = ch '@' || c = ch '-' || c = ch '+'

def memmove (mem : Bytes) (dest src n : Nat) : Bytes :=
  mem.take dest ++ ((mem.drop src).take n ++ mem.drop (dest + n))

/-- The loop of `execline()`, with the memory from the command on. -/
def unescapeLoop : Nat → Bytes → Nat → Nat → Bytes
  | 0, mem, _, _ => mem
  | turns + 1, mem, t, l =>
    if mem.getD t 0 = 0 then mem
    else if mem.getD t 0 = ch '$' ∧ mem.getD (t + 1) 0 = ch '$' then
      unescapeLoop turns (memmove mem (t + 1) (t + 2) (l - 2)) (t + 1) (l - 1 - 1)
    else unescapeLoop turns mem (t + 1) (l - 1)

/-- The string that is in the memory after it. -/
def unescape (s : Bytes) : Bytes :=
  (unescapeLoop (s.length + 1) (s ++ [0]) 0 (s.length + 1)).takeWhile fun c => c ≠ 0

/-- The line that `execline()` gives to the shell. -/
def launched (line : Bytes) : Bytes := unescape (skip line)

/-- From left to right two dollars become one. -/
def undouble : Bytes → Bytes
  | [] => []
  | [c] => [c]
  | c :: d :: text => if c = ch '$' ∧ d = ch '$' then ch '$' :: undouble text else c :: undouble (d :: text)

theorem memmove_tail (done text mem : Bytes) :
    memmove (done ++ ch '$' :: ch '$' :: (text ++ 0 :: mem)) (done.length + 1) (done.length + 2) (text.length + 1) =
      done ++ ch '$' :: (text ++ 0 :: (0 :: mem)) := by
  have front : (done ++ ch '$' :: ch '$' :: (text ++ 0 :: mem)).take (done.length + 1) = done ++ [ch '$'] := by
    rw [List.take_append, List.take_of_length_le (Nat.le_succ _), Nat.add_sub_cancel_left]
    rfl
  have moved : (done ++ ch '$' :: ch '$' :: (text ++ 0 :: mem)).drop (done.length + 2) = text ++ 0 :: mem := by
    rw [List.drop_append, List.drop_eq_nil_of_le (by omega), Nat.add_sub_cancel_left]
    rfl
  have last : (done ++ ch '$' :: ch '$' :: (text ++ 0 :: mem)).drop (done.length + 1 + (text.length + 1)) =
      0 :: mem := by
    rw [List.drop_append, List.drop_eq_nil_of_le (by omega), List.nil_append]
    have index : done.length + 1 + (text.length + 1) - done.length = text.length + 2 := by omega
    rw [index, List.drop_succ_cons, List.drop_succ_cons, List.drop_left]
  have copied : (text ++ 0 :: mem).take (text.length + 1) = text ++ [0] := by
    rw [List.take_append, List.take_of_length_le (Nat.le_succ _), Nat.add_sub_cancel_left]
    rfl
  rw [memmove, front, moved, last, copied]
  simp only [List.append_assoc, List.cons_append, List.nil_append]

theorem getD_first (done rest : Bytes) : (done ++ rest).getD done.length 0 = rest.getD 0 0 := by
  rw [List.getD_append_right _ _ _ _ le_rfl, Nat.sub_self]

theorem getD_second (done rest : Bytes) : (done ++ rest).getD (done.length + 1) 0 = rest.getD 1 0 := by
  rw [List.getD_append_right _ _ _ _ (by omega), Nat.add_sub_cancel_left]

theorem unescapeLoop_end (turns : Nat) (done mem : Bytes) (l : Nat) :
    unescapeLoop turns (done ++ 0 :: mem) done.length l = done ++ 0 :: mem := by
  cases turns with
  | zero => rfl
  | succ turns =>
    rw [unescapeLoop, getD_first]
    exact if_pos rfl

theorem unescapeLoop_dollars (turns : Nat) (done text mem : Bytes) :
    unescapeLoop (turns + 1) (done ++ ch '$' :: ch '$' :: (text ++ 0 :: mem)) done.length (text.length + 1 + 1 + 1) =
      unescapeLoop turns (done ++ [ch '$'] ++ (text ++ 0 :: (0 :: mem))) (done ++ [ch '$']).length
        (text.length + 1) := by
  rw [unescapeLoop, getD_first, getD_second]
  change (if ch '$' = 0 then _ else if ch '$' = ch '$' ∧ ch '$' = ch '$' then _ else _) = _
  rw [if_neg (by decide), if_pos ⟨rfl, rfl⟩]
  change unescapeLoop turns (memmove _ _ _ (text.length + 1)) _ (text.length + 1) = _
  rw [memmove_tail, List.length_append, List.append_assoc]
  rfl

theorem unescapeLoop_other (turns : Nat) (done : Bytes) {c : UInt8} {rest : Bytes} (string : c ≠ 0)
    (other : ¬(c = ch '$' ∧ rest.getD 0 0 = ch '$')) (l : Nat) :
    unescapeLoop (turns + 1) (done ++ c :: rest) done.length (l + 1) =
      unescapeLoop turns (done ++ [c] ++ rest) (done ++ [c]).length l := by
  rw [unescapeLoop, getD_first, getD_second]
  change (if c = 0 then _ else if c = ch '$' ∧ rest.getD 0 0 = ch '$' then _ else _) = _
  rw [if_neg string, if_neg other, List.length_append, List.append_assoc]
  rfl

theorem unescapeLoop_eq (turns : Nat) (done text mem : Bytes) (string : 0 ∉ text) (enough : text.length < turns) :
    ∃ mem', unescapeLoop turns (done ++ (text ++ 0 :: mem)) done.length (text.length + 1) =
      done ++ (undouble text ++ 0 :: mem') := by
  induction text using undouble.induct generalizing turns done mem with
  | case1 =>
    exists mem
    exact unescapeLoop_end turns done mem _
  | case2 c =>
    rw [List.mem_singleton] at string
    cases turns with
    | zero => cases enough
    | succ turns =>
      exists mem
      have last : ¬(c = ch '$' ∧ (0 :: mem).getD 0 0 = ch '$') := by
        rw [List.getD_cons_zero]
        exact fun both => absurd both.2 (by decide)
      have step := unescapeLoop_other turns done (Ne.symm string) last 1
      rw [unescapeLoop_end, List.append_assoc] at step
      exact step
  | case3 c d text both ih =>
    rw [List.mem_cons, List.mem_cons, not_or, not_or] at string
    cases turns with
    | zero => cases enough
    | succ turns =>
      rw [List.length_cons, List.length_cons] at enough
      rcases ih turns (done ++ [ch '$']) (0 :: mem) string.2.2 (by omega) with ⟨mem', step⟩
      exists mem'
      rw [both.1, both.2]
      change unescapeLoop (turns + 1) (done ++ ch '$' :: ch '$' :: (text ++ 0 :: mem)) done.length
        (text.length + 1 + 1 + 1) = done ++ (undouble (ch '$' :: ch '$' :: text) ++ 0 :: mem')
      rw [unescapeLoop_dollars, step, undouble, if_pos ⟨rfl, rfl⟩, List.append_assoc]
      rfl
  | case4 c d text other ih =>
    rw [List.mem_cons, not_or] at string
    cases turns with
    | zero => cases enough
    | succ turns =>
      rcases ih turns (done ++ [c]) mem string.2 (Nat.lt_of_succ_lt_succ enough) with ⟨mem', step⟩
      exists mem'
      have first := @unescapeLoop_other turns done c (d :: (text ++ 0 :: mem)) (Ne.symm string.1) other
        ((d :: text).length + 1)
      rw [undouble, if_neg other]
      exact first.trans (step.trans (List.append_assoc _ _ _))

theorem undouble_string {text : Bytes} (string : 0 ∉ text) : 0 ∉ undouble text := by
  induction text using undouble.induct with
  | case1 => exact string
  | case2 c => exact string
  | case3 c d text both ih =>
    rw [undouble, if_pos both, List.mem_cons, not_or]
    rw [List.mem_cons, List.mem_cons, not_or, not_or] at string
    exact ⟨by decide, ih string.2.2⟩
  | case4 c d text other ih =>
    rw [undouble, if_neg other, List.mem_cons, not_or]
    rw [List.mem_cons, not_or] at string
    exact ⟨string.1, ih string.2⟩

theorem unescape_eq {s : Bytes} (string : 0 ∉ s) : unescape s = undouble s := by
  rcases unescapeLoop_eq (s.length + 1) [] s [] string (Nat.lt_succ_self _) with ⟨mem, same⟩
  rw [unescape]
  change unescapeLoop (s.length + 1) (s ++ [0]) 0 (s.length + 1) = _ at same
  rw [same, List.nil_append]
  have all : ∀ c ∈ undouble s, decide (c ≠ 0) = true := by
    intro c member
    rw [decide_eq_true_iff]
    intro zero
    rw [zero] at member
    exact undouble_string string member
  rw [List.takeWhile_append_of_pos all]
  exact List.append_nil _

theorem undouble_append {text rest : Bytes} (closed : Closed text) :
    undouble (text ++ rest) = undouble text ++ undouble rest := by
  induction closed with
  | nil => rfl
  | @lit c text plain _ _ ih =>
    have single (tail : Bytes) : undouble (c :: tail) = c :: undouble tail := by
      cases tail with
      | nil => rfl
      | cons d tail => exact if_neg fun both => plain both.1
    rw [List.cons_append, single, single, ih, List.cons_append]
  | @dollars text _ ih =>
    have double (tail : Bytes) : undouble (ch '$' :: ch '$' :: tail) = ch '$' :: undouble tail := if_pos ⟨rfl, rfl⟩
    rw [List.cons_append, List.cons_append, double, double, ih, List.cons_append]

theorem undouble_plain {text : Bytes} (plain : ch '$' ∉ text) : undouble text = text := by
  induction text with
  | nil => rfl
  | cons c text ih =>
    rw [List.mem_cons, not_or] at plain
    cases text with
    | nil => rfl
    | cons d text => rw [undouble, if_neg fun both => plain.1 both.1.symm, ih plain.2]

theorem undouble_skip (text : Bytes) : undouble (skip text) = skip (undouble text) := by
  have stay {c : UInt8} (command : (c = ch '@' || c = ch '-' || c = ch '+') = false) (rest : Bytes) :
      skip (c :: rest) = c :: rest := List.dropWhile_cons_of_neg (by rw [command]; nofun)
  have next {c : UInt8} (flag : (c = ch '@' || c = ch '-' || c = ch '+') = true) (rest : Bytes) :
      skip (c :: rest) = skip rest := List.dropWhile_cons_of_pos flag
  induction text using undouble.induct with
  | case1 => rfl
  | case2 c =>
    cases flag : (c = ch '@' || c = ch '-' || c = ch '+' : Bool) with
    | false => rw [undouble, stay flag, undouble]
    | true =>
      rw [undouble, next flag]
      rfl
  | case3 c d text both ih =>
    rw [undouble, if_pos both, both.1, both.2, stay (by decide), stay (by decide)]
    exact if_pos ⟨rfl, rfl⟩
  | case4 c d text other ih =>
    cases flag : (c = ch '@' || c = ch '-' || c = ch '+' : Bool) with
    | false => rw [undouble, if_neg other, stay flag, stay flag, undouble, if_neg other]
    | true => rw [undouble, if_neg other, next flag, next flag, ih]

def Ref.value (env : Env) (tp : Option Target) : Ref → Bytes
  | named name => env.getmacro name
  | auto c => automatic env c tp

/-- What the shell is to be given for a part. -/
def Simple.shown (value : Ref → Bytes) : Simple → Bytes
  | lit c => [c]
  | dollars => [ch '$']
  | short c => value (Ref.ofChar c)
  | within _ ref => value ref

def Token.shown (value : Ref → Bytes) : Token → Bytes
  | simple part => part.shown value
  | subst _ ref old new => replace (value ref) (outOf value old) (new.flatMap (Simple.shown value))

/-- Macros, and a target for the internal ones, without dollars in their values. -/
structure Dollarless where
  env : Env
  tp : Option Target
  plain : ∀ ref : Ref, ch '$' ∉ ref.value env tp
  string : ∀ ref : Ref, 0 ∉ ref.value env tp

structure Line where
  tokens : List Token
  /-- There is a lone dollar at the end. -/
  dangling : Bool
  ok : ∀ token ∈ tokens, token.Ok
  string : ∀ token ∈ tokens, ∀ part ∈ token.parts, 0 ∉ part.text

def Line.text (line : Line) : Bytes :=
  line.tokens.flatMap Token.text ++ if line.dangling then [ch '$'] else []

def Line.parts (line : Line) : List Simple := line.tokens.flatMap Token.parts

def Dollarless.value (m : Dollarless) : Ref → Bytes := Ref.value m.env m.tp

/-- The parts are replaced by their values, the shell is given one dollar for two, and another expansion changes
nothing. -/
structure Line.Quoted (line : Line) (m : Dollarless) : Prop where
  parts : ∀ part ∈ line.parts,
    Settles (fun fuel => expandstring m.env fuel part.text m.tp) (.ok (part.out m.value))
  whole : ∃ out, Settles (fun fuel => expandstring m.env fuel line.text m.tp) (.ok out) ∧
    (∀ env tp, Settles (fun fuel => expandstring env fuel out tp) (.ok out)) ∧
    launched out = skip (line.tokens.flatMap (Token.shown m.value))

theorem Token.Ok.parts {token : Token} (ok : token.Ok) : ∀ part ∈ token.parts, part.Ok := by
  cases token with
  | simple part =>
    intro part' member
    rw [Token.parts, List.mem_singleton] at member
    rw [member]
    exact ok
  | subst brace ref old new =>
    rw [Token.parts, List.forall_mem_cons]
    exact ⟨ok.1, ok.2.1⟩

section Clean

variable (m : Dollarless)

variable {part : Simple} {c : UInt8} {token : Token}

theorem Simple.has (read : 255 ∉ part.out m.value) : ∀ ref ∈ part.refs, ref.Has m.env m.tp (m.value ref) := by
  have has (ref : Ref) (read : 255 ∉ m.value ref) : ref.Has m.env m.tp (m.value ref) := by
    have closed : Closed (m.value ref) := Closed.of_plain (m.plain ref) read
    cases ref with
    | named name => exact (Copies.closed closed).gives
    | auto c => exact ⟨rfl, closed⟩
  intro ref member
  cases part with
  | lit c => cases member
  | dollars => cases member
  | short c =>
    rw [Simple.refs, List.mem_singleton] at member
    rw [member]
    exact has _ read
  | within brace ref' =>
    rw [Simple.refs, List.mem_singleton] at member
    rw [member]
    exact has _ read

theorem Simple.out_string (string : 0 ∉ part.text) : 0 ∉ part.out m.value := by
  cases part with
  | lit c => exact string
  | dollars => exact string
  | short c => exact m.string _
  | within brace ref => exact m.string _

theorem outOf_string {parts : List Simple} (string : ∀ part ∈ parts, 0 ∉ part.text) : 0 ∉ outOf m.value parts := by
  intro member
  rw [outOf, List.mem_flatMap] at member
  rcases member with ⟨part, part_member, here⟩
  exact Simple.out_string m (string part part_member) here

theorem not_mem_append {a b : Bytes} (left : c ∉ a) (right : c ∉ b) : c ∉ a ++ b := by
  rw [List.mem_append, not_or]
  exact ⟨left, right⟩

theorem not_mem_split (p : UInt8 → Bool) {text : Bytes} (none_ : c ∉ text) :
    c ∉ text.takeWhile p ∧ c ∉ text.dropWhile p :=
  ⟨fun member => none_ ((List.takeWhile_sublist p).subset member),
    fun member => none_ ((List.dropWhile_sublist p).subset member)⟩

theorem not_mem_left {text rest : Bytes} (none_ : c ∉ text ++ rest) : c ∉ text :=
  fun member => none_ (List.mem_append_left rest member)

theorem Token.out_string (string : ∀ part ∈ token.parts, 0 ∉ part.text) : 0 ∉ token.out m.value := by
  cases token with
  | simple part => exact Simple.out_string m (string part List.mem_cons_self)
  | subst brace ref old new =>
    rw [Token.parts, List.forall_mem_cons, List.forall_mem_append] at string
    exact @replace_blocks (fun text _ => 0 ∉ text) (fun text => 0 ∉ text) _ _ [] List.not_mem_nil not_mem_append
      (fun none_ => none_) not_mem_split not_mem_left (outOf_string m string.2.2) _ (m.string ref)

theorem Simple.undouble_out (part : Simple) (ok : part.Ok) : undouble (part.out m.value) = part.shown m.value := by
  cases part with
  | lit c => rfl
  | dollars => rfl
  | short c => exact undouble_plain (m.plain _)
  | within brace ref => exact undouble_plain (m.plain _)

theorem undouble_flatMap {α : Type} {out shown : α → Bytes} {parts : List α}
    (closed : ∀ part ∈ parts, Closed (out part)) (each : ∀ part ∈ parts, undouble (out part) = shown part) :
    undouble (parts.flatMap out) = parts.flatMap shown := by
  induction parts with
  | nil => rfl
  | cons part parts ih =>
    rw [List.forall_mem_cons] at closed each
    rw [List.flatMap_cons, List.flatMap_cons, undouble_append closed.1, each.1, ih closed.2 each.2]

def Simple.Clean (part : Simple) : Prop := 255 ∉ part.text ∧ 255 ∉ part.out m.value

variable {m}

theorem Simple.Clean.copies (ok : part.Ok) (clean : part.Clean m) :
    Copies m.env m.tp part.text (part.out m.value) :=
  Simple.copies ok clean.1 (Simple.has m clean.2)

theorem Token.clean_copies (ok : token.Ok) (clean : ∀ part ∈ token.parts, part.Clean m) :
    Copies m.env m.tp token.text (token.out m.value) :=
  Token.copies ok (fun part member => (clean part member).1) fun part member => Simple.has m (clean part member).2

theorem Token.undouble_out (ok : token.Ok) (clean : ∀ part ∈ token.parts, part.Clean m) :
    undouble (token.out m.value) = token.shown m.value := by
  have parts_ok := ok.parts
  cases token with
  | simple part => exact Simple.undouble_out m part ok
  | subst brace ref old new =>
    rw [Token.parts, List.forall_mem_cons, List.forall_mem_append] at clean parts_ok
    have new_closed : ∀ part ∈ new, Closed (part.out m.value) := fun part member =>
      gives_closed (Simple.Clean.copies (parts_ok.2.2 part member) (clean.2.2 part member)).gives
    have suffix : Closed (outOf m.value new) ∧
        undouble (outOf m.value new) = new.flatMap (Simple.shown m.value) := by
      constructor
      · exact gives_closed (Copies.flatMap fun part member =>
          Simple.Clean.copies (parts_ok.2.2 part member) (clean.2.2 part member)).gives
      · exact undouble_flatMap new_closed fun part member => Simple.undouble_out m part (parts_ok.2.2 part member)
    have replaced := @replace_blocks (fun text text' => Closed text ∧ undouble text = text')
      (fun text => ch '$' ∉ text ∧ 255 ∉ text) (outOf m.value old) _ _ ⟨.nil, rfl⟩
      (fun first second => ⟨first.1.append second.1, by rw [undouble_append first.1, first.2, second.2]⟩)
      (fun block => ⟨Closed.of_plain block.1 block.2, undouble_plain block.1⟩)
      (fun p _ block => ⟨⟨(not_mem_split p block.1).1, (not_mem_split p block.2).1⟩,
        (not_mem_split p block.1).2, (not_mem_split p block.2).2⟩)
      (fun block => ⟨not_mem_left block.1, not_mem_left block.2⟩) suffix (m.value ref)
      ⟨m.plain ref, clean.1.2⟩
    exact replaced.2

theorem runs_lone {env : Env} {tp : Option Target} (s : Bytes) : Runs env tp [ch '$'] s (.error .fault) :=
  Settles.step (fun _ => rfl) (Settles.const _)

theorem short_end {env : Env} {tp : Option Target} :
    Settles (fun fuel => expandstring env fuel [ch '$', 255] tp) (.error .fault) :=
  Settles.step (fun _ => rfl) (Settles.const _)

theorem Simple.clean_of_gives (ok : part.Ok)
    (gives : Settles (fun fuel => expandstring m.env fuel part.text m.tp) (.ok (part.out m.value))) :
    part.Clean m := by
  have read := (gives_closed gives).read
  constructor
  · cases part with
    | lit c => exact read
    | dollars => exact read
    | short c =>
      rw [Simple.text, List.mem_cons, List.mem_singleton, not_or]
      constructor
      · decide
      · intro here
        rw [Simple.text, ← here] at gives
        cases gives.unique short_end
    | within brace ref =>
      have ref_read : 255 ∉ ref.text := by
        intro member
        cases ref with
        | named name => exact absurd (ok.2 255 member) (by decide)
        | auto c =>
          rw [Ref.text, List.mem_singleton] at member
          exact (internal_other ok).1 member.symm
      rw [Simple.text, List.mem_cons, List.mem_cons, not_or, not_or]
      constructor
      · decide
      · constructor
        · cases brace <;> decide
        · apply not_mem_append ref_read
          rw [List.mem_singleton]
          exact Ne.symm (closing_other brace).1
  · exact read

end Clean

namespace Line

variable {line : Line} {m : Dollarless}

theorem forall_parts {P : Simple → Prop} :
    (∀ part ∈ line.parts, P part) ↔ ∀ token ∈ line.tokens, ∀ part ∈ token.parts, P part := by
  constructor
  · intro all token token_member part member
    exact all part (List.mem_flatMap.mpr ⟨token, token_member, member⟩)
  · intro all part member
    rw [parts, List.mem_flatMap] at member
    rcases member with ⟨token, token_member, part_member⟩
    exact all token token_member part part_member

theorem clean_tokens (clean : ∀ part ∈ line.parts, part.Clean m) :
    ∀ token ∈ line.tokens, Copies m.env m.tp token.text (token.out m.value) :=
  fun token member => Token.clean_copies (line.ok token member) (forall_parts.mp clean token member)

theorem dangling_fault (dangling : line.dangling = true) (clean : ∀ part ∈ line.parts, part.Clean m) :
    Settles (fun fuel => expandstring m.env fuel line.text m.tp) (.error .fault) := by
  have front := Copies.flatMap (clean_tokens clean)
  rw [text, dangling]
  exact front _ _ _ (runs_lone _)

theorem clean_quoted (whole : line.dangling = false) (clean : ∀ part ∈ line.parts, part.Clean m) :
    line.Quoted m := by
  have tokens := clean_tokens clean
  have gives := (Copies.flatMap tokens).gives
  constructor
  · intro part member
    have ok : part.Ok := by
      have all := forall_parts.mpr fun token token_member => (line.ok token token_member).parts
      exact all part member
    exact (Simple.Clean.copies ok (clean part member)).gives
  · refine ⟨line.tokens.flatMap (Token.out m.value), ?_, ?_, ?_⟩
    · rw [text, whole]
      have same : line.tokens.flatMap Token.text ++ (if false = true then [ch '$'] else []) =
          line.tokens.flatMap Token.text := List.append_nil _
      rw [same]
      exact gives
    · intro env tp
      exact expandstring_again (gives_closed gives)
    · have string : 0 ∉ line.tokens.flatMap (Token.out m.value) := by
        intro member
        rw [List.mem_flatMap] at member
        rcases member with ⟨token, token_member, here⟩
        exact Token.out_string m (line.string token token_member) here
      have string' : 0 ∉ skip (line.tokens.flatMap (Token.out m.value)) := (not_mem_split _ string).2
      have each : ∀ token ∈ line.tokens, undouble (token.out m.value) = token.shown m.value := fun token member =>
        Token.undouble_out (line.ok token member) (forall_parts.mp clean token member)
      rw [launched, unescape_eq string', undouble_skip]
      rw [undouble_flatMap (fun token member => gives_closed (tokens token member).gives) each]

end Line

/-- `echo $$ $` without any macros. -/
def echo : Line where
  tokens := [.simple (.lit (ch 'e')), .simple (.lit (ch 'c')), .simple (.lit (ch 'h')), .simple (.lit (ch 'o')),
    .simple (.lit (ch ' ')), .simple .dollars, .simple (.lit (ch ' '))]
  dangling := true
  ok := by
    simp only [List.forall_mem_cons, Token.Ok, Simple.Ok]
    exact ⟨by decide, by decide, by decide, by decide, by decide, trivial, by decide, nofun⟩
  string := by decide

def noMacros : Dollarless where
  env := ⟨fun _ => [], fun _ => 0⟩
  tp := none
  plain := by
    intro ref
    cases ref <;> exact List.not_mem_nil
  string := by
    intro ref
    cases ref <;> exact List.not_mem_nil

end Scc.Make.Expand
