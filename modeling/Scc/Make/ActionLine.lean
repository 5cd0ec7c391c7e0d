import Scc.Make.Expand

/-!
# Lines with references

A line is a sequence of characters, doubled dollars and references. What `expandstring()` copies for every part of
it is known when the values of the references are.
-/

namespace Scc.Make.Expand

set_option autoImplicit false

open Scc.Lib.Fuel

/-- A macro or one of `@`, `<`, `*` and `?`. -/
inductive Ref
  | named (name : Bytes)
  | auto (c : UInt8)

inductive Simple
  | lit (c : UInt8)
  | dollars
  /-- `$c` -/
  | short (c : UInt8)
  /-- `$(name)` or `${name}` -/
  | within (brace : Bool) (ref : Ref)

inductive Token
  | simple (part : Simple)
  /-- `$(name:old=new)` or `${name:old=new}` -/
  | subst (brace : Bool) (ref : Ref) (old new : List Simple)

def opening (brace : Bool) : UInt8 := if brace then ch '{' else ch '('

def closing (brace : Bool) : UInt8 := if brace then ch '}' else ch ')'

def Ref.text : Ref → Bytes
  | named name => name
  | auto c => [c]

/-- The reference in `$c`. -/
def Ref.ofChar (c : UInt8) : Ref := if internal c then .auto c else .named [c]

def Ref.Ok : Ref → Prop
  | named name => name.length < MAXTOKEN ∧ ∀ c ∈ name, validchar c = true
  | auto c => internal c = true

namespace Simple

def text : Simple → Bytes
  | lit c => [c]
  | dollars => [ch '$', ch '$']
  | short c => [ch '$', c]
  | within brace ref => ch '$' :: opening brace :: (ref.text ++ [closing brace])

def Ok : Simple → Prop
  | lit c => c ≠ ch '$'
  | dollars => True
  | short c => c ≠ ch '$' ∧ c ≠ ch '(' ∧ c ≠ ch '{'
  | within _ ref => ref.Ok

def refs : Simple → List Ref
  | lit _ => []
  | dollars => []
  | short c => [Ref.ofChar c]
  | within _ ref => [ref]

/-- What is copied when the references have these values. -/
def out (value : Ref → Bytes) : Simple → Bytes
  | lit c => [c]
  | dollars => [ch '$', ch '$']
  | short c => value (Ref.ofChar c)
  | within _ ref => value ref

end Simple

def textOf (parts : List Simple) : Bytes := parts.flatMap Simple.text

def outOf (value : Ref → Bytes) (parts : List Simple) : Bytes := parts.flatMap (Simple.out value)

namespace Token

def text : Token → Bytes
  | simple part => part.text
  | subst brace ref old new =>
    ch '$' :: opening brace ::
      (ref.text ++ ch ':' :: (textOf old ++ ch '=' :: (textOf new ++ [closing brace])))

def Ok : Token → Prop
  | simple part => part.Ok
  | subst brace ref old new =>
    ref.Ok ∧ (∀ part ∈ old ++ new, part.Ok) ∧
    ((textOf old).length < MAXREPL ∧ ch '=' ∉ textOf old ∧ closing brace ∉ textOf old) ∧
    ((textOf new).length < MAXREPL ∧ closing brace ∉ textOf new)

def parts : Token → List Simple
  | simple part => [part]
  | subst brace ref old new => .within brace ref :: (old ++ new)

def out (value : Ref → Bytes) : Token → Bytes
  | simple part => part.out value
  | subst _ ref old new => replace (value ref) (outOf value old) (outOf value new)

end Token

section Scan

variable {calls : Calls} {env : Env} {tp : Option Target}

theorem differ {p : UInt8 → Bool} {c d : UInt8} (is : p c = true) (no : p d = false) : c ≠ d := by
  intro same
  rw [same, no] at is
  cases is

variable {c : UInt8} {ref : Ref}

theorem validchar_other (valid : validchar c = true) :
    c ≠ 255 ∧ c ≠ ch ':' ∧ (∀ brace, c ≠ closing brace) ∧ internal c = false := by
  have differs (d : UInt8) (invalid : validchar d = false) : c ≠ d := differ valid invalid
  constructor
  · exact differs 255 (by decide)
  · constructor
    · exact differs (ch ':') (by decide)
    · constructor
      · intro brace
        cases brace with
        | false => exact differs (ch ')') (by decide)
        | true => exact differs (ch '}') (by decide)
      · rw [internal, decide_eq_false (differs (ch '@') (by decide)), decide_eq_false (differs (ch '?') (by decide)),
          decide_eq_false (differs (ch '*') (by decide)), decide_eq_false (differs (ch '<') (by decide))]
        rfl

variable (brace : Bool)

theorem closing_other : closing brace ≠ 255 ∧ closing brace ≠ ch ':' ∧ closing brace ≠ ch '=' := by
  cases brace <;> decide

theorem internal_other (is : internal c = true) : c ≠ 255 ∧ c ≠ ch ':' ∧ (∀ brace, c ≠ closing brace) := by
  have differs (d : UInt8) (no : internal d = false) : c ≠ d := differ is no
  constructor
  · exact differs 255 (by decide)
  · constructor
    · exact differs (ch ':') (by decide)
    · intro brace
      cases brace with
      | false => exact differs (ch ')') (by decide)
      | true => exact differs (ch '}') (by decide)

attribute [local simp] scan in
theorem scan_name (more : Bytes) (valid : ∀ c ∈ more, validchar c = true) (name text : Bytes)
    (fits : name.length + more.length < MAXTOKEN) :
    scan calls env tp (closing brace) (.STBEGIN name) (more ++ text) =
      scan calls env tp (closing brace) (.STBEGIN (name ++ more)) text := by
  induction more generalizing name with
  | nil => rw [List.append_nil, List.nil_append]
  | cons c more ih =>
    rw [List.forall_mem_cons] at valid
    rw [List.length_cons] at fits
    have other := validchar_other valid.1
    have room : name.length ≠ MAXTOKEN - 1 := by omega
    have plain : ¬(name = [] ∧ internal c = true) := by
      intro both
      rw [other.2.2.2] at both
      cases both.2
    have next := ih valid.2 (name ++ [c]) (by rw [List.length_append, List.length_singleton]; omega)
    rw [List.cons_append, scan, if_neg other.1]
    rw [if_neg other.2.1, if_neg (other.2.2.1 brace), if_neg room, if_neg plain, valid.1]
    rw [List.append_assoc] at next
    exact next

/-- The call for a reference in delimiters. -/
def Ref.call (calls : Calls) (env : Env) (tp : Option Target) : Ref → Result Stop Bytes
  | named name => expandmacro calls env name
  | auto c => calls [ch '$', c] tp

theorem scan_ref (ok : ref.Ok) (text : Bytes) :
    scan calls env tp (closing brace) (.STBEGIN []) (ref.text ++ closing brace :: text) =
      (ref.call calls env tp).andThen fun s => .ok (s ++ text) := by
  have other := closing_other brace
  cases ref with
  | named name =>
    rw [Ref.text, scan_name brace name ok.2 [] _ (by rw [List.length_nil, Nat.zero_add]; exact ok.1)]
    rw [List.nil_append, scan, if_neg other.1]
    rw [if_neg other.2.1, if_pos rfl]
    rfl
  | auto c =>
    have here := internal_other ok
    rw [Ref.text, List.singleton_append, scan, if_neg here.1]
    rw [if_neg here.2.1, if_neg (here.2.2 brace), if_neg (by decide), if_pos ⟨rfl, ok⟩]
    apply congrArg
    funext s
    rw [scan, if_neg other.1]
    exact if_pos rfl

theorem scan_ref_colon (ok : ref.Ok) (text : Bytes) :
    scan calls env tp (closing brace) (.STBEGIN []) (ref.text ++ ch ':' :: text) =
      (ref.call calls env tp).andThen fun s => scan calls env tp (closing brace) (.STREPLACE s []) text := by
  have other := closing_other brace
  cases ref with
  | named name =>
    rw [Ref.text, scan_name brace name ok.2 [] _ (by rw [List.length_nil, Nat.zero_add]; exact ok.1)]
    rw [List.nil_append, scan, if_neg (by decide)]
    exact if_pos rfl
  | auto c =>
    have here := internal_other ok
    rw [Ref.text, List.singleton_append, scan, if_neg here.1]
    rw [if_neg here.2.1, if_neg (here.2.2 brace), if_neg (by decide), if_pos ⟨rfl, ok⟩]
    apply congrArg
    funext s
    rw [scan, if_neg (by decide)]
    rw [if_neg (Ne.symm other.2.1)]
    exact if_neg (not_not.mpr rfl)

theorem scan_replace (delim : UInt8) (s more repl text : Bytes) (read : 255 ∉ more) (equals : ch '=' ∉ more)
    (inside : delim ∉ more) (fits : repl.length + more.length < MAXREPL) :
    scan calls env tp delim (.STREPLACE s repl) (more ++ ch '=' :: text) =
      scan calls env tp delim (.STTO s (repl ++ more) []) text := by
  induction more generalizing repl with
  | nil =>
    rw [List.nil_append, List.append_nil, scan, if_neg (by decide)]
    exact if_pos rfl
  | cons c more ih =>
    rw [List.mem_cons, not_or] at read equals inside
    rw [List.length_cons] at fits
    have room : repl.length ≠ MAXREPL - 1 := by omega
    have next := ih (repl ++ [c]) read.2 equals.2 inside.2 (by rw [List.length_append, List.length_singleton]; omega)
    rw [List.cons_append, scan, if_neg (Ne.symm read.1)]
    rw [if_neg (Ne.symm equals.1), if_neg (Ne.symm inside.1), if_neg room]
    rw [List.append_assoc] at next
    exact next

theorem scan_to (delim : UInt8) (delim_read : delim ≠ 255) (s repl more to_ text : Bytes) (read : 255 ∉ more)
    (inside : delim ∉ more) (fits : to_.length + more.length < MAXREPL) :
    scan calls env tp delim (.STTO s repl to_) (more ++ delim :: text) =
      (calls repl tp).andThen fun erepl => .ok (replace s erepl (to_ ++ more) ++ text) := by
  induction more generalizing to_ with
  | nil =>
    rw [List.nil_append, List.append_nil, scan, if_neg delim_read]
    exact if_pos rfl
  | cons c more ih =>
    rw [List.mem_cons, not_or] at read inside
    rw [List.length_cons] at fits
    have room : to_.length ≠ MAXREPL - 1 := by omega
    have next := ih (to_ ++ [c]) read.2 inside.2 (by rw [List.length_append, List.length_singleton]; omega)
    rw [List.cons_append, scan, if_neg (Ne.symm read.1)]
    rw [if_neg (Ne.symm inside.1), if_neg room]
    rw [List.append_assoc] at next
    exact next

theorem expansion_opening (text : Bytes) :
    expansion calls env tp (opening brace :: text) = scan calls env tp (closing brace) (.STBEGIN []) text := by
  cases brace <;> rfl

theorem expansion_within (ok : ref.Ok) (text : Bytes) :
    expansion calls env tp (opening brace :: (ref.text ++ closing brace :: text)) =
      (ref.call calls env tp).andThen fun s => .ok (s ++ text) := by
  rw [expansion_opening, scan_ref brace ok]

theorem expansion_subst {old new : List Simple} (ok : (Token.subst brace ref old new).Ok)
    (read_old : 255 ∉ textOf old) (read_new : 255 ∉ textOf new) (text : Bytes) :
    expansion calls env tp (opening brace ::
        (ref.text ++ ch ':' :: (textOf old ++ ch '=' :: (textOf new ++ closing brace :: text)))) =
      (ref.call calls env tp).andThen fun s =>
        (calls (textOf old) tp).andThen fun erepl => .ok (replace s erepl (textOf new) ++ text) := by
  rcases ok with ⟨ref_ok, _, ⟨old_fits, equals, inside⟩, new_fits, inside'⟩
  rw [expansion_opening, scan_ref_colon brace ref_ok]
  apply congrArg
  funext s
  rw [scan_replace _ s _ [] _ read_old equals inside (by rw [List.length_nil, Nat.zero_add]; exact old_fits)]
  rw [scan_to _ (closing_other brace).1 s _ _ [] _ read_new inside'
    (by rw [List.length_nil, Nat.zero_add]; exact new_fits)]
  rfl

theorem expansion_short (ok : (Simple.short c).Ok) (read : c ≠ 255) (text : Bytes) :
    expansion calls env tp (c :: text) =
      if internal c then .ok (automatic env c tp ++ text)
      else ( expandmacro calls env [c]).andThen fun s => .ok (s ++ text) := by
  rw [expansion, nextc_cons read]
  dsimp only
  rw [if_neg fun same => ok.2.1 (Option.some.inj same), if_neg fun same => ok.2.2 (Option.some.inj same)]
  rw [back, expandsimple, nextc_cons read]

theorem head_opening (text : Bytes) :
    (opening brace :: text).head? ≠ some (ch '$') ∧ (opening brace :: text).head? ≠ some 255 := by
  cases brace <;> exact ⟨by rw [List.head?_cons]; decide, by rw [List.head?_cons]; decide⟩

theorem loop_short (fuel : Nat) (ok : (Simple.short c).Ok) (read : c ≠ 255) (text s : Bytes) :
    loop env (fuel + 1) tp ((Simple.short c).text ++ text) s =
      if internal c then loop env fuel tp (automatic env c tp ++ text) s
      else ( expandmacro (Expand.calls env fuel) env [c]).andThen fun value =>
        loop env fuel tp (value ++ text) s := by
  have other : (c :: text).head? ≠ some (ch '$') := fun same => ok.1 (Option.some.inj same)
  have other' : (c :: text).head? ≠ some 255 := fun same => read (Option.some.inj same)
  change loop env (fuel + 1) tp (ch '$' :: (c :: text)) s = _
  rw [loop_reference fuel other other', expansion_short ok read]
  split_ifs
  · rfl
  · exact Result.andThen_assoc _ _ _

theorem loop_within (fuel : Nat) (brace : Bool) (ok : ref.Ok) (text s : Bytes) :
    loop env (fuel + 1) tp ((Simple.within brace ref).text ++ text) s =
      (ref.call (Expand.calls env fuel) env tp).andThen fun value => loop env fuel tp (value ++ text) s := by
  have head := head_opening brace (ref.text ++ closing brace :: text)
  have line : (Simple.within brace ref).text ++ text =
      ch '$' :: opening brace :: (ref.text ++ closing brace :: text) := by
    simp only [Simple.text, List.cons_append, List.append_assoc, List.nil_append]
  rw [line, loop_reference fuel head.1 head.2, expansion_within brace ok]
  exact Result.andThen_assoc _ _ _

theorem loop_subst (fuel : Nat) {brace : Bool} {old new : List Simple}
    (ok : (Token.subst brace ref old new).Ok) (read_old : 255 ∉ textOf old) (read_new : 255 ∉ textOf new)
    (text s : Bytes) : loop env (fuel + 1) tp ((Token.subst brace ref old new).text ++ text) s =
      (ref.call (Expand.calls env fuel) env tp).andThen fun value =>
        (Expand.calls env fuel (textOf old) tp).andThen fun erepl =>
          loop env fuel tp (replace value erepl (textOf new) ++ text) s := by
  have head := head_opening brace
    (ref.text ++ ch ':' :: (textOf old ++ ch '=' :: (textOf new ++ closing brace :: text)))
  have line : (Token.subst brace ref old new).text ++ text = ch '$' :: opening brace ::
      (ref.text ++ ch ':' :: (textOf old ++ ch '=' :: (textOf new ++ closing brace :: text))) := by
    simp only [Token.text, List.cons_append, List.append_assoc, List.nil_append]
  rw [line, loop_reference fuel head.1 head.2, expansion_subst brace ok read_old read_new, Result.andThen_assoc]
  apply congrArg
  funext value
  exact Result.andThen_assoc _ _ _

end Scan

theorem replace_blocks {Related : Bytes → Bytes → Prop} {Block : Bytes → Prop} {repl dest dest' : Bytes}
    (nil : Related [] []) (append : ∀ {a a' b b'}, Related a a' → Related b b' → Related (a ++ b) (a' ++ b'))
    (block : ∀ {text}, Block text → Related text text)
    (split : ∀ (p : UInt8 → Bool) {text}, Block text → Block (text.takeWhile p) ∧ Block (text.dropWhile p))
    (cut : ∀ {text}, Block (text ++ repl) → Block text) (suffix : Related dest dest') {line : Bytes}
    (value : Block line) : Related (replace line repl dest) (replace line repl dest') := by
  have words {word : Bytes} (value : Block word) :
      Related (replaceWord repl dest word) (replaceWord repl dest' word) := by
    unfold replaceWord
    split_ifs with other
    · exact block value
    · rw [not_or, not_not] at other
      apply append _ suffix
      apply block
      apply cut
      have whole := List.take_append_drop (word.length - repl.length) word
      rw [other.2] at whole
      rw [whole]
      exact value
  have turns (turns : Nat) {line : Bytes} (value : Block line) :
      Related (replaceLoop repl dest turns line) (replaceLoop repl dest' turns line) := by
    induction turns generalizing line with
    | zero => exact nil
    | succ turns ih =>
      cases line with
      | nil => exact nil
      | cons c line =>
        have parts := split isblank value
        have parts' := split (fun c => !isblank c) parts.2
        exact append (append (block parts.1) (words parts'.1)) (ih parts'.2)
  exact turns line.length value

theorem Closed.split (p : UInt8 → Bool) {text : Bytes} (closed : Closed text) :
    Closed (text.takeWhile p) ∧ Closed (text.dropWhile p) := by
  induction closed with
  | nil => exact ⟨.nil, .nil⟩
  | @lit c text plain read rest ih =>
    cases here : p c with
    | false =>
      rw [List.takeWhile_cons_of_neg (by rw [here]; nofun), List.dropWhile_cons_of_neg (by rw [here]; nofun)]
      exact ⟨.nil, .lit plain read rest⟩
    | true =>
      rw [List.takeWhile_cons_of_pos here, List.dropWhile_cons_of_pos here]
      exact ⟨.lit plain read ih.1, ih.2⟩
  | @dollars text rest ih =>
    cases here : p (ch '$') with
    | false =>
      rw [List.takeWhile_cons_of_neg (by rw [here]; nofun), List.dropWhile_cons_of_neg (by rw [here]; nofun)]
      exact ⟨.nil, .dollars rest⟩
    | true =>
      rw [List.takeWhile_cons_of_pos here, List.takeWhile_cons_of_pos here, List.dropWhile_cons_of_pos here,
        List.dropWhile_cons_of_pos here]
      exact ⟨.dollars ih.1, ih.2⟩

theorem Closed.of_dollars {text : Bytes} (closed : Closed (ch '$' :: ch '$' :: text)) : Closed text := by
  cases closed with
  | lit plain => exact absurd rfl plain
  | dollars rest => exact rest

theorem Closed.not_one_more {text : Bytes} (closed : Closed text) : ¬Closed (ch '$' :: text) := by
  induction closed with
  | nil =>
    intro one
    cases one with
    | lit plain => exact plain rfl
  | lit plain =>
    intro one
    cases one with
    | lit plain' => exact plain' rfl
    | dollars => exact plain rfl
  | dollars rest ih =>
    intro one
    exact ih (Closed.of_dollars one)

theorem Closed.of_append {front text : Bytes} (rest : Closed text) (closed : Closed (front ++ text)) :
    Closed front := by
  generalize whole : front ++ text = all at closed
  induction closed generalizing front with
  | nil =>
    rw [List.append_eq_nil_iff] at whole
    rw [whole.1]
    exact .nil
  | lit plain read closed ih =>
    cases front with
    | nil => exact .nil
    | cons d front =>
      cases whole
      exact .lit plain read (ih rfl)
  | dollars closed ih =>
    cases front with
    | nil => exact .nil
    | cons d front =>
      cases front with
      | nil =>
        cases whole
        exact absurd rest (Closed.not_one_more closed)
      | cons d' front =>
        cases whole
        exact .dollars (ih rfl)

section Copies

variable {env : Env} {tp : Option Target}

/-- When the one is read the other is copied. -/
def Copies (env : Env) (tp : Option Target) (text out : Bytes) : Prop :=
  ∀ (rest s : Bytes) (result : Result Stop Bytes),
    Runs env tp rest (s ++ out) result → Runs env tp (text ++ rest) s result

namespace Copies

theorem nil : Copies env tp [] [] := by
  intro rest s result runs
  rw [List.append_nil] at runs
  exact runs

theorem append {text out text' out' : Bytes} (first : Copies env tp text out) (second : Copies env tp text' out') :
    Copies env tp (text ++ text') (out ++ out') := by
  intro rest s result runs
  rw [List.append_assoc]
  apply first
  apply second
  rw [List.append_assoc]
  exact runs

theorem closed {text : Bytes} (closed : Closed text) : Copies env tp text text := by
  intro rest s result runs
  exact Runs.closed closed runs

theorem flatMap {α : Type} {text out : α → Bytes} {parts : List α}
    (each : ∀ part ∈ parts, Copies env tp (text part) (out part)) :
    Copies env tp (parts.flatMap text) (parts.flatMap out) := by
  induction parts with
  | nil => exact nil
  | cons part parts ih =>
    rw [List.forall_mem_cons] at each
    rw [List.flatMap_cons, List.flatMap_cons]
    exact append each.1 (ih each.2)

theorem gives {text out : Bytes} (copies : Copies env tp text out) :
    Settles (fun fuel => expandstring env fuel text tp) (.ok out) := by
  have runs := copies [] [] (.ok out) Runs.nil
  rw [List.append_nil] at runs
  exact runs

end Copies

theorem gives_closed {text out : Bytes} (gives : Settles (fun fuel => expandstring env fuel text tp) (.ok out)) :
    Closed out := by
  rcases gives with ⟨enough, same⟩
  exact expandstring_closed (same enough le_rfl)

/-- The value of a reference. An internal one is pushed as it is. -/
def Ref.Has (env : Env) (tp : Option Target) : Ref → Bytes → Prop
  | named name, value => Settles (fun fuel => expandmacro (calls env fuel) env name) (.ok value)
  | auto c, value => value = automatic env c tp ∧ Closed value

theorem Ref.Has.closed {ref : Ref} {value : Bytes} (has : ref.Has env tp value) : Closed value := by
  cases ref with
  | named name => exact @gives_closed env none _ _ has
  | auto c => exact has.2

variable {value : Bytes}

theorem copies_short {c : UInt8} (ok : (Simple.short c).Ok) (read : c ≠ 255)
    (has : (Ref.ofChar c).Has env tp value) : Copies env tp (Simple.short c).text value := by
  intro rest s result runs
  have more := Runs.closed has.closed runs
  rw [Ref.ofChar] at has
  split_ifs at has with is
  · rw [has.1] at more
    exact Settles.step (fun fuel => (loop_short fuel ok read rest s).trans (if_pos is)) more
  · have expanded := @Settles.bind _ _ _ _ _ (fun fuel value => loop env fuel tp (value ++ rest) s) _ has more
    exact Settles.step (fun fuel => (loop_short fuel ok read rest s).trans (if_neg is)) expanded

theorem internal_short {c : UInt8} (is : internal c = true) : (Simple.short c).Ok := by
  have differs (d : UInt8) (no : internal d = false) : c ≠ d := differ is no
  exact ⟨differs _ (by decide), differs _ (by decide), differs _ (by decide)⟩

theorem Ref.Has.call {ref : Ref} (ok : ref.Ok) (has : ref.Has env tp value) :
    Settles (fun fuel => ref.call (calls env fuel) env tp) (.ok value) := by
  cases ref with
  | named name => exact has
  | auto c =>
    have same : Ref.ofChar c = .auto c := if_pos ok
    rw [← same] at has
    exact (copies_short (internal_short ok) (internal_other ok).1 has).gives

theorem copies_within (brace : Bool) {ref : Ref} (ok : ref.Ok) (has : ref.Has env tp value) :
    Copies env tp (Simple.within brace ref).text value := by
  intro rest s result runs
  have more := Runs.closed has.closed runs
  have expanded := @Settles.bind _ _ _ _ _ (fun fuel value => loop env fuel tp (value ++ rest) s) _ (has.call ok) more
  exact Settles.step (fun fuel => loop_within fuel brace ok rest s) expanded

theorem Simple.copies {part : Simple} {value : Ref → Bytes} (ok : part.Ok) (read : 255 ∉ part.text)
    (has : ∀ ref ∈ part.refs, ref.Has env tp (value ref)) : Copies env tp part.text (part.out value) := by
  cases part with
  | lit c =>
    rw [Simple.text, List.mem_singleton] at read
    exact Copies.closed (.lit ok (Ne.symm read) .nil)
  | dollars => exact Copies.closed (.dollars .nil)
  | short c =>
    rw [Simple.text, List.mem_cons, List.mem_singleton, not_or] at read
    exact copies_short ok (Ne.symm read.2) (has _ List.mem_cons_self)
  | within brace ref => exact copies_within brace ok (has _ List.mem_cons_self)

theorem copies_parts {parts : List Simple} {value : Ref → Bytes} (ok : ∀ part ∈ parts, part.Ok)
    (read : ∀ part ∈ parts, 255 ∉ part.text)
    (has : ∀ part ∈ parts, ∀ ref ∈ part.refs, ref.Has env tp (value ref)) :
    Copies env tp (textOf parts) (outOf value parts) :=
  Copies.flatMap fun part member => Simple.copies (ok part member) (read part member) (has part member)

theorem not_mem_textOf {parts : List Simple} (read : ∀ part ∈ parts, 255 ∉ part.text) : 255 ∉ textOf parts := by
  intro member
  rw [textOf, List.mem_flatMap] at member
  rcases member with ⟨part, part_member, here⟩
  exact read part part_member here

theorem Token.copies {token : Token} {value : Ref → Bytes} (ok : token.Ok)
    (read : ∀ part ∈ token.parts, 255 ∉ part.text)
    (has : ∀ part ∈ token.parts, ∀ ref ∈ part.refs, ref.Has env tp (value ref)) :
    Copies env tp token.text (token.out value) := by
  cases token with
  | simple part => exact Simple.copies ok (read part List.mem_cons_self) (has part List.mem_cons_self)
  | subst brace ref old new =>
    rw [Token.parts, List.forall_mem_cons, List.forall_mem_append] at read has
    have parts_ok := List.forall_mem_append.mp ok.2.1
    have value_has := has.1 ref List.mem_cons_self
    have erepl := copies_parts parts_ok.1 read.2.1 has.2.1
    have replaced : Copies env tp (replace (value ref) (outOf value old) (textOf new))
        (replace (value ref) (outOf value old) (outOf value new)) :=
      replace_blocks Copies.nil Copies.append Copies.closed Closed.split
        (fun closed => Closed.of_append (gives_closed erepl.gives) closed)
        (copies_parts parts_ok.2 read.2.2 has.2.2) value_has.closed
    intro rest s result runs
    have more := replaced rest s result runs
    have inner := @Settles.bind _ _ _ _ _ (fun fuel erepl =>
      loop env fuel tp (replace (value ref) erepl (textOf new) ++ rest) s) _ erepl.gives more
    have outer := @Settles.bind _ _ _ _ _ (fun fuel value => (calls env fuel (textOf old) tp).andThen fun erepl =>
      loop env fuel tp (replace value erepl (textOf new) ++ rest) s) _ (value_has.call ok.1) inner
    exact Settles.step (fun fuel => loop_subst fuel ok (not_mem_textOf read.2.1) (not_mem_textOf read.2.2) rest s) outer

end Copies

end Scc.Make.Expand
