import Scc.Lib.Acyclic
import Scc.Make.ActionLine

/-!
# Recursive macros

`expandmacro()` does not know which macros are being expanded. The expansion of a line ends as long as no macro that is
reached from it is on a cycle.
-/

namespace Scc.Make.Expand

set_option autoImplicit false

open Scc.Lib Scc.Lib.Fuel

def Good (tokens : List Token) : Prop := ∀ token ∈ tokens, token.Ok ∧ ∀ part ∈ token.parts, 255 ∉ part.text

/-- The parts that are read whatever the values are: all but the text that suffixes are replaced by. -/
def Token.sure : Token → List Simple
  | simple part => [part]
  | subst brace ref old _ => .within brace ref :: old

def tokensText (tokens : List Token) : Bytes := tokens.flatMap Token.text

/-- The macros that have been defined, and the times of the files. -/
structure Makefile where
  stamp : Bytes → Int
  macros : Bytes → List Token
  defined : List Bytes
  undefined : ∀ name ∉ defined, macros name = []
  good : ∀ name, Good (macros name)

def Makefile.env (m : Makefile) : Env := ⟨fun name => tokensText (m.macros name), m.stamp⟩

/-- A string and the target it is expanded for. -/
structure Reading (m : Makefile) where
  tokens : List Token
  good : Good tokens
  tp : Option Target
  names : ∀ c, Closed (automatic m.env c tp)

/-- No references are in the texts that suffixes are replaced by. -/
def Static (tokens : List Token) : Prop := ∀ token ∈ tokens, ∀ part ∈ token.parts, part ∈ token.sure ∨ part.refs = []

section References

variable (which : Token → List Simple)

/-- The text refers to the macro in one of these parts. -/
def Mentions (tokens : List Token) (name : Bytes) : Prop :=
  ∃ token ∈ tokens, ∃ part ∈ which token, Ref.named name ∈ part.refs

def Makefile.Refers (m : Makefile) (name name' : Bytes) : Prop := Mentions which (m.macros name) name'

/-- None of the macros that the text refers to, directly or through others, refers to itself. -/
def Makefile.NotRecursive (m : Makefile) (tokens : List Token) : Prop :=
  ∀ name name', Mentions which tokens name → Relation.ReflTransGen (m.Refers which) name name' →
    ¬Relation.TransGen (m.Refers which) name' name'

def Makefile.AccOf (m : Makefile) (name : Bytes) : Prop := Acc (fun next name => m.Refers which name next) name

end References

/-- `expandstring()` comes back, with a text in which nothing is left to expand or with an error. -/
def Reading.Ends {m : Makefile} (r : Reading m) : Prop :=
  (∃ out, Settles (fun fuel => expandstring m.env fuel (tokensText r.tokens) r.tp) (.ok out) ∧ Closed out) ∨
    ∃ message, Settles (fun fuel => expandstring m.env fuel (tokensText r.tokens) r.tp) (.error (.error message))

theorem notRecursive_iff (which : Token → List Simple) (m : Makefile) (tokens : List Token) :
    m.NotRecursive which tokens ↔ ∀ name, Mentions which tokens name → m.AccOf which name := by
  have finite : ∀ name name', m.Refers which name name' → name ∈ m.defined := by
    intro name name' refers
    by_contra undefined
    rw [Makefile.Refers, m.undefined name undefined] at refers
    rcases refers with ⟨token, member, _⟩
    cases member
  constructor
  · intro none_ name mentions
    rw [Makefile.AccOf, acc_iff_no_cycle finite]
    exact fun name' reaches => none_ name name' mentions reaches
  · intro ends name name' mentions reaches
    exact (acc_iff_no_cycle finite name).mp (ends name mentions) name' reaches

theorem tokens_copies {m : Makefile} {tp : Option Target} (names : ∀ c, Closed (automatic m.env c tp))
    {tokens : List Token} (good : Good tokens)
    (each : ∀ name, Mentions Token.parts tokens name → ∃ value, (Ref.named name).Has m.env tp value) :
    ∃ out, Copies m.env tp (tokensText tokens) out := by
  have some_ (ref : Ref) : ∃ value, (∃ token ∈ tokens, ∃ part ∈ token.parts, ref ∈ part.refs) →
      ref.Has m.env tp value := by
    cases ref with
    | named name =>
      by_cases mentions : Mentions Token.parts tokens name
      · rcases each name mentions with ⟨value, has⟩
        exact ⟨value, fun _ => has⟩
      · exact ⟨[], fun mentions' => absurd mentions' mentions⟩
    | auto c => exact ⟨_, fun _ => ⟨rfl, names c⟩⟩
  choose value has using some_
  exists tokens.flatMap (Token.out value)
  apply Copies.flatMap
  intro token member
  apply Token.copies (good token member).1 (good token member).2
  intro part part_member ref ref_member
  exact has ref ⟨token, member, part, part_member, ref_member⟩

theorem macro_ends (m : Makefile) {name : Bytes} (ends : m.AccOf Token.parts name)
    (tp : Option Target) : ∃ value, (Ref.named name).Has m.env tp value := by
  induction ends generalizing tp with
  | intro name _ ih =>
    have names : ∀ c, Closed (automatic m.env c none) := fun c => Closed.nil
    rcases tokens_copies names (m.good name) fun name' refers => ih name' refers none with ⟨out, copies⟩
    exact ⟨out, copies.gives⟩

theorem Reading.ends_of_acc {m : Makefile} (r : Reading m)
    (ends : ∀ name, Mentions Token.parts r.tokens name → m.AccOf Token.parts name) : r.Ends := by
  have each := fun name mentions => macro_ends m (ends name mentions) r.tp
  rcases tokens_copies r.names r.good each with ⟨out, copies⟩
  exact .inl ⟨out, copies.gives, gives_closed copies.gives⟩

theorem Closed.parts {text : Bytes} (closed : Closed text) :
    ∃ parts : List Simple, (∀ part ∈ parts, part.Ok ∧ 255 ∉ part.text) ∧ textOf parts = text := by
  induction closed with
  | nil => exact ⟨[], nofun, rfl⟩
  | @lit c text plain read _ ih =>
    rcases ih with ⟨parts, good, same⟩
    have c_read : 255 ∉ (Simple.lit c).text := by
      rw [Simple.text, List.mem_singleton]
      exact Ne.symm read
    exact ⟨.lit c :: parts, List.forall_mem_cons.mpr ⟨⟨plain, c_read⟩, good⟩, congrArg (List.cons c) same⟩
  | @dollars text _ ih =>
    rcases ih with ⟨parts, good, same⟩
    have two (text : Bytes) : ch '$' :: ch '$' :: text = [ch '$', ch '$'] ++ text := rfl
    refine ⟨.dollars :: parts, List.forall_mem_cons.mpr ⟨⟨trivial, by decide⟩, good⟩, ?_⟩
    rw [two, ← same]
    rfl

theorem good_simple {parts : List Simple} (good : ∀ part ∈ parts, part.Ok ∧ 255 ∉ part.text) :
    Good (parts.map .simple) := by
  rw [Good, List.forall_mem_map]
  intro part member
  exact ⟨(good part member).1, List.forall_mem_singleton.mpr (good part member).2⟩

theorem tokensText_simple (parts : List Simple) : tokensText (parts.map .simple) = textOf parts := by
  rw [tokensText, List.flatMap_map]
  rfl

theorem replace_parts {value erepl : Bytes} {new : List Simple} (value_closed : Closed value)
    (erepl_closed : Closed erepl) (good : ∀ part ∈ new, part.Ok ∧ 255 ∉ part.text) :
    ∃ parts : List Simple, (∀ part ∈ parts, part.Ok ∧ 255 ∉ part.text) ∧
      textOf parts = replace value erepl (textOf new) := by
  apply @replace_blocks
    (fun text _ => ∃ parts, (∀ part ∈ parts, part.Ok ∧ 255 ∉ part.text) ∧ textOf parts = text)
    Closed erepl (textOf new) [] _ _ _ Closed.split (Closed.of_append erepl_closed) ⟨new, good, rfl⟩ value value_closed
  · exact ⟨[], nofun, rfl⟩
  · intro a a' b b' first second
    rcases first with ⟨parts, good, same⟩
    rcases second with ⟨parts', good', same'⟩
    exists parts ++ parts'
    constructor
    · exact List.forall_mem_append.mpr ⟨good, good'⟩
    · rw [textOf, List.flatMap_append, ← same, ← same']
      rfl
  · exact Closed.parts

theorem andThen_eq_some {ε α β : Type} {first : Result ε α} {next : α → Result ε β} {result : Except ε β}
    (gives : first.andThen next = some result) : ∃ result', first = some result' := by
  cases first with
  | none => cases gives
  | some result' => exact ⟨result', rfl⟩

section Recursion

variable (m : Makefile)

/-- What is known of the text that is read first with less fuel. -/
def Known (fuel : Nat) : Prop :=
  ∀ fuel' < fuel, ∀ tp, (∀ c, Closed (automatic m.env c tp)) → ∀ tokens, Good tokens →
    ∀ (text s : Bytes) (result : Except Stop Bytes),
      loop m.env fuel' tp (tokensText tokens ++ text) s = some result →
        (∀ name, Mentions Token.sure tokens name → m.AccOf Token.sure name) ∧
          ∃ fuel'' ≤ fuel', ∃ s', loop m.env fuel'' tp text s' = some result

variable {m}

theorem known_expands {fuel : Nat} (known : Known m (fuel + 1)) {tp : Option Target}
    (names : ∀ c, Closed (automatic m.env c tp)) {tokens : List Token} (good : Good tokens)
    {result : Except Stop Bytes} (gives : calls m.env fuel (tokensText tokens) tp = some result) :
    (∃ out, result = .ok out ∧ Closed out) ∧ ∀ name, Mentions Token.sure tokens name → m.AccOf Token.sure name := by
  have runs : loop m.env fuel tp (tokensText tokens ++ []) [] = some result := by
    rw [List.append_nil]
    exact gives
  rcases known fuel (Nat.lt_succ_self fuel) tp names tokens good [] [] result runs with ⟨ends, fuel', _, s, rest⟩
  cases fuel' with
  | zero => cases rest
  | succ fuel' =>
    cases rest
    exact ⟨⟨s, rfl, loop_closed fuel gives .nil⟩, ends⟩

variable {fuel : Nat} {result : Except Stop Bytes}

theorem known_named (known : Known m (fuel + 1)) {name : Bytes}
    (gives : expandmacro (calls m.env fuel) m.env name = some result) :
    (∃ out, result = .ok out ∧ Closed out) ∧ m.AccOf Token.sure name := by
  have both := @known_expands m fuel known none (fun _ => Closed.nil) _ (m.good name) _ gives
  exact ⟨both.1, Acc.intro name both.2⟩

theorem known_ref (known : Known m (fuel + 1)) {tp : Option Target}
    (names : ∀ c, Closed (automatic m.env c tp)) {ref : Ref} (ok : ref.Ok)
    (gives : ref.call (calls m.env fuel) m.env tp = some result) :
    (∃ out, result = .ok out ∧ Closed out) ∧ ∀ name, Ref.named name ∈ [ref] → m.AccOf Token.sure name := by
  cases ref with
  | named name =>
    have both := known_named known gives
    constructor
    · exact both.1
    · intro name' member
      cases List.mem_singleton.mp member
      exact both.2
  | auto c =>
    have read : 255 ∉ (Simple.short c).text := by
      rw [Simple.text, List.mem_cons, List.mem_singleton, not_or]
      exact ⟨by decide, Ne.symm (internal_other ok).1⟩
    have good : Good ([Simple.short c].map .simple) :=
      good_simple (List.forall_mem_singleton.mpr ⟨internal_short ok, read⟩)
    have both := known_expands known names good gives
    refine ⟨both.1, ?_⟩
    intro name member
    cases List.mem_singleton.mp member

theorem known_token (known : Known m fuel) {tp : Option Target}
    (names : ∀ c, Closed (automatic m.env c tp)) {token : Token} (ok : token.Ok)
    (read : ∀ part ∈ token.parts, 255 ∉ part.text) {text s : Bytes}
    (runs : loop m.env fuel tp (token.text ++ text) s = some result) :
    (∀ part ∈ token.sure, ∀ name, Ref.named name ∈ part.refs → m.AccOf Token.sure name) ∧
      ∃ fuel' < fuel, ∃ s', loop m.env fuel' tp text s' = some result := by
  cases fuel with
  | zero => cases runs
  | succ fuel =>
    have past {parts : List Simple} (good : ∀ part ∈ parts, part.Ok ∧ 255 ∉ part.text) {s' : Bytes}
        (rest : loop m.env fuel tp (textOf parts ++ text) s' = some result) :
        ∃ fuel' < fuel + 1, ∃ s', loop m.env fuel' tp text s' = some result := by
      rw [← tokensText_simple] at rest
      have both := known fuel (Nat.lt_succ_self fuel) tp names _ (good_simple good) text s' result rest
      rcases both.2 with ⟨fuel', le, more⟩
      exact ⟨fuel', Nat.lt_succ_of_le le, more⟩
    have past_closed {front s' : Bytes} (closed : Closed front)
        (rest : loop m.env fuel tp (front ++ text) s' = some result) :
        ∃ fuel' < fuel + 1, ∃ s', loop m.env fuel' tp text s' = some result := by
      rcases closed.parts with ⟨parts, good, same⟩
      rw [← same] at rest
      exact past good rest
    cases token with
    | simple part =>
      rw [Token.parts, List.forall_mem_singleton] at read
      rw [Token.sure, List.forall_mem_singleton]
      cases part with
      | lit c =>
        have c_read : c ≠ 255 := fun same => read (by rw [same]; exact List.mem_cons_self)
        have rest : loop m.env fuel tp text (s ++ [c]) = some result := by
          rw [← loop_lit fuel ok c_read]
          exact runs
        exact ⟨fun name member => absurd member List.not_mem_nil, fuel, Nat.lt_succ_self fuel, _, rest⟩
      | dollars =>
        have rest : loop m.env fuel tp text (s ++ [ch '$', ch '$']) = some result := by
          rw [← loop_dollars]
          exact runs
        exact ⟨fun name member => absurd member List.not_mem_nil, fuel, Nat.lt_succ_self fuel, _, rest⟩
      | short c =>
        have c_read : c ≠ 255 := fun same => read (by rw [same]; exact List.mem_cons_of_mem _ List.mem_cons_self)
        rw [Token.text, loop_short fuel ok c_read] at runs
        rw [Simple.refs, Ref.ofChar]
        split_ifs at runs ⊢ with is
        · constructor
          · intro name member
            rw [List.mem_singleton] at member
            cases member
          · exact past_closed (names c) runs
        · rcases andThen_eq_some runs with ⟨result', gives⟩
          rcases known_named known gives with ⟨⟨value, same, closed⟩, ends⟩
          rw [gives, same] at runs
          constructor
          · intro name member
            cases List.mem_singleton.mp member
            exact ends
          · exact past_closed closed runs
      | within brace ref =>
        rw [Token.text, loop_within fuel brace ok] at runs
        rcases andThen_eq_some runs with ⟨result', gives⟩
        rcases known_ref known names ok gives with ⟨⟨value, same, closed⟩, ends⟩
        rw [gives, same] at runs
        exact ⟨ends, past_closed closed runs⟩
    | subst brace ref old new =>
      rw [Token.parts, List.forall_mem_cons, List.forall_mem_append] at read
      have parts_ok := List.forall_mem_append.mp ok.2.1
      rw [loop_subst fuel ok (not_mem_textOf read.2.1) (not_mem_textOf read.2.2)] at runs
      rcases andThen_eq_some runs with ⟨result', gives⟩
      rcases known_ref known names ok.1 gives with ⟨⟨value, same, value_closed⟩, ref_ends⟩
      rw [gives, same] at runs
      change (calls m.env fuel (textOf old) tp).andThen _ = some result at runs
      rcases andThen_eq_some runs with ⟨result'', gives'⟩
      rw [← tokensText_simple] at gives'
      have old_good := good_simple fun part member => ⟨parts_ok.1 part member, read.2.1 part member⟩
      rcases known_expands known names old_good gives' with ⟨⟨erepl, same', erepl_closed⟩, old_ends⟩
      rw [← tokensText_simple, gives', same'] at runs
      have new_good := fun part member => And.intro (parts_ok.2 part member) (read.2.2 part member)
      have replaced := replace_parts value_closed erepl_closed new_good
      rcases replaced with ⟨parts, good, pushed⟩
      constructor
      · rw [Token.sure, List.forall_mem_cons]
        constructor
        · exact ref_ends
        · intro part member name here
          exact old_ends name ⟨.simple part, List.mem_map_of_mem member, part, List.mem_cons_self, here⟩
      · have rest : loop m.env fuel tp (replace value erepl (textOf new) ++ text) s = some result := runs
        rw [← pushed] at rest
        exact past good rest

theorem known_all (fuel : Nat) : Known m fuel := by
  induction fuel using Nat.strong_induction_on with
  | h fuel ih =>
    intro fuel' less tp names tokens good text s result runs
    cases tokens with
    | nil =>
      constructor
      · intro name mentions
        rcases mentions with ⟨token, member, _⟩
        cases member
      · exact ⟨fuel', le_rfl, s, runs⟩
    | cons token tokens =>
      rw [Good, List.forall_mem_cons] at good
      rw [tokensText, List.flatMap_cons, List.append_assoc] at runs
      rcases known_token (ih fuel' less) names good.1.1 good.1.2 runs with ⟨ends, fuel₁, less', s', rest⟩
      rcases ih fuel' less fuel₁ less' tp names tokens good.2 text s' result rest with ⟨more, fuel₂, le, last⟩
      constructor
      · intro name mentions
        rcases mentions with ⟨token', member, part, part_member, here⟩
        rcases List.mem_cons.mp member with same | later
        · rw [same] at part_member
          exact ends part part_member name here
        · exact more name ⟨token', later, part, part_member, here⟩
      · exact ⟨fuel₂, by omega, last⟩

end Recursion

theorem Reading.acc_of_ends {m : Makefile} (r : Reading m) (ends : r.Ends) :
    ∀ name, Mentions Token.sure r.tokens name → m.AccOf Token.sure name := by
  have some_ : ∃ fuel result, calls m.env fuel (tokensText r.tokens) r.tp = some result := by
    rcases ends with ⟨out, ⟨enough, same⟩, _⟩ | ⟨message, enough, same⟩
    · exact ⟨enough, _, same enough le_rfl⟩
    · exact ⟨enough, _, same enough le_rfl⟩
  rcases some_ with ⟨fuel, result, gives⟩
  exact (known_expands (known_all (fuel + 1)) r.names r.good gives).2

theorem mentions_sure {tokens : List Token} (static : Static tokens) {name : Bytes} :
    Mentions Token.parts tokens name ↔ Mentions Token.sure tokens name := by
  constructor
  · intro mentions
    rcases mentions with ⟨token, member, part, part_member, here⟩
    rcases static token member part part_member with sure | none_
    · exact ⟨token, member, part, sure, here⟩
    · rw [none_] at here
      cases here
  · intro mentions
    rcases mentions with ⟨token, member, part, part_member, here⟩
    refine ⟨token, member, part, ?_, here⟩
    cases token with
    | simple part' => exact part_member
    | subst brace ref old new =>
      rw [Token.sure, List.mem_cons] at part_member
      rw [Token.parts, List.mem_cons, List.mem_append]
      rcases part_member with same | member
      · exact .inl same
      · exact .inr (.inl member)

/-- `A = $(A)` -/
def selfish : Makefile where
  stamp := fun _ => 0
  macros := fun name => if name = [ch 'A'] then [.simple (.within false (.named [ch 'A']))] else []
  defined := [[ch 'A']]
  undefined := by
    intro name absent
    exact if_neg fun same => absent (List.mem_singleton.mpr same)
  good := by
    intro name
    split_ifs
    · rw [Good, List.forall_mem_singleton, Token.parts, List.forall_mem_singleton]
      exact ⟨⟨by decide, List.forall_mem_singleton.mpr rfl⟩, by decide⟩
    · exact nofun

/-- `$(A)` -/
def readA : Reading selfish where
  tokens := [.simple (.within false (.named [ch 'A']))]
  good := selfish.good [ch 'A']
  tp := none
  names := fun _ => .nil

end Scc.Make.Expand
