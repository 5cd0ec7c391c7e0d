import Mathlib.Data.List.TakeWhile

/-!
# Replacing suffixes

`replace()` takes a value apart into blanks and words. When there are blanks at the end, an empty word comes after
them, and an empty suffix is replaced there, too.
-/

namespace Scc.Make.Expand

set_option autoImplicit false

abbrev Bytes := List UInt8

def isblank (c : UInt8) : Bool := c = 32 || c = 9

/-- One word; `at` is the place where the suffix would begin. -/
def replaceWord (repl dest word : Bytes) : Bytes :=
  if word.length < repl.length ∨ word.drop (word.length - repl.length) ≠ repl then word
  else word.take (word.length - repl.length) ++ dest

/-- Every turn takes some blanks and a word. -/
def replaceLoop (repl dest : Bytes) : Nat → Bytes → Bytes
  | 0, _ => []
  | _ + 1, [] => []
  | turns + 1, line@(_ :: _) =>
    let word := (line.dropWhile isblank).takeWhile fun c => !isblank c
    let rest := (line.dropWhile isblank).dropWhile fun c => !isblank c
    line.takeWhile isblank ++ replaceWord repl dest word ++ replaceLoop repl dest turns rest

/-- Every turn takes at least one character. -/
def replace (line repl dest : Bytes) : Bytes := replaceLoop repl dest line.length line

/-- A value: words with the blanks before them, and the blanks at the end. -/
structure Words where
  parts : List (Bytes × Bytes)
  trailing : Bytes
  blanks : ∀ part ∈ parts, ∀ c ∈ part.1, isblank c = true
  words : ∀ part ∈ parts, part.2 ≠ [] ∧ ∀ c ∈ part.2, isblank c = false
  apart : ∀ part ∈ parts.tail, part.1 ≠ []
  after : ∀ c ∈ trailing, isblank c = true

def Words.text (value : Words) : Bytes := value.parts.flatMap (fun part => part.1 ++ part.2) ++ value.trailing

/-- The word with its suffix replaced, if it has the suffix. -/
def withSuffix (old new word : Bytes) : Bytes :=
  if old <:+ word then word.take (word.length - old.length) ++ new else word

def Words.withSuffix (value : Words) (old new : Bytes) : Bytes :=
  value.parts.flatMap (fun part => part.1 ++ Expand.withSuffix old new part.2) ++ value.trailing

theorem replaceWord_eq (old new word : Bytes) : replaceWord old new word = withSuffix old new word := by
  unfold replaceWord withSuffix
  by_cases suffix : old <:+ word
  · have here : word.drop (word.length - old.length) = old := List.suffix_iff_eq_drop.mp suffix |>.symm
    rw [if_pos suffix, if_neg]
    rw [not_or, not_lt, not_not]
    exact ⟨suffix.length_le, here⟩
  · rw [if_neg suffix, if_pos]
    by_contra neither
    rw [not_or, not_lt, not_not] at neither
    exact suffix (List.suffix_iff_eq_drop.mpr neither.2.symm)

theorem takeWhile_all {p : UInt8 → Bool} {front rest : Bytes} (all : ∀ c ∈ front, p c = true)
    (stops : ∀ c, rest.head? = some c → p c = false) :
    (front ++ rest).takeWhile p = front ∧ (front ++ rest).dropWhile p = rest := by
  have none_ : rest.takeWhile p = [] ∧ rest.dropWhile p = rest := by
    cases rest with
    | nil => exact ⟨rfl, rfl⟩
    | cons c rest =>
      have no := stops c rfl
      constructor
      · rw [List.takeWhile_cons_of_neg (by rw [no]; nofun)]
      · rw [List.dropWhile_cons_of_neg (by rw [no]; nofun)]
  rw [List.takeWhile_append_of_pos all, List.dropWhile_append_of_pos all, none_.1, none_.2, List.append_nil]
  exact ⟨rfl, rfl⟩

theorem replaceLoop_part (old new : Bytes) (turns : Nat) {blanks word rest : Bytes}
    (areBlanks : ∀ c ∈ blanks, isblank c = true) (isWord : ∀ c ∈ word, isblank c = false)
    (some_ : blanks ++ word ≠ []) (after : ∀ c, rest.head? = some c → isblank c = true)
    (alone : word = [] → rest = []) : replaceLoop old new (turns + 1) (blanks ++ word ++ rest) =
      blanks ++ withSuffix old new word ++ replaceLoop old new turns rest := by
  have stops : ∀ c, (word ++ rest).head? = some c → isblank c = false := by
    intro c head
    cases word with
    | nil =>
      rw [alone rfl] at head
      cases head
    | cons c' word =>
      cases head
      exact isWord c List.mem_cons_self
  have first := takeWhile_all areBlanks stops
  have second := @takeWhile_all (fun c => !isblank c) word rest
    (fun c member => by rw [isWord c member]; rfl) (fun c head => by rw [after c head]; rfl)
  rw [List.append_assoc]
  cases line : blanks ++ (word ++ rest) with
  | nil =>
    rw [← List.append_assoc, List.append_eq_nil_iff] at line
    exact absurd line.1 some_
  | cons c line' =>
    rw [replaceLoop, ← line, first.1, first.2, second.1, second.2, replaceWord_eq]

def extra (value : Words) (old new : Bytes) : Bytes := if value.trailing ≠ [] ∧ old = [] then new else []

theorem withSuffix_nil (old new : Bytes) : withSuffix old new [] = if old = [] then new else [] := by
  cases old with
  | nil => rfl
  | cons c old =>
    unfold withSuffix
    rw [if_neg (fun suffix => List.cons_ne_nil c old (List.suffix_nil.mp suffix)), if_neg (List.cons_ne_nil c old)]

theorem replaceLoop_trailing (old new : Bytes) {turns : Nat} {trailing : Bytes}
    (after : ∀ c ∈ trailing, isblank c = true) (enough : trailing.length ≤ turns) :
    replaceLoop old new turns trailing = trailing ++ if trailing ≠ [] ∧ old = [] then new else [] := by
  cases trailing with
  | nil =>
    cases turns <;> rfl
  | cons c trailing =>
    cases turns with
    | zero => cases enough
    | succ turns =>
      have one := @replaceLoop_part old new turns (c :: trailing) [] [] after nofun (by simp) nofun (fun _ => rfl)
      rw [List.append_nil, List.append_nil] at one
      have nothing : replaceLoop old new turns [] = [] := by
        cases turns <;> rfl
      rw [one, nothing, withSuffix_nil, List.append_nil]
      simp

theorem replace_text (value : Words) (old new : Bytes) :
    replace value.text old new = value.withSuffix old new ++ extra value old new := by
  rcases value with ⟨parts, trailing, blanks, words, apart, after⟩
  unfold replace Words.text Words.withSuffix extra
  dsimp only
  have loop (turns : Nat) (enough : (parts.flatMap (fun part => part.1 ++ part.2) ++ trailing).length ≤ turns) :
      replaceLoop old new turns (parts.flatMap (fun part => part.1 ++ part.2) ++ trailing) =
        parts.flatMap (fun part => part.1 ++ withSuffix old new part.2) ++
          (trailing ++ if trailing ≠ [] ∧ old = [] then new else []) := by
    induction parts generalizing turns with
    | nil => exact replaceLoop_trailing old new after enough
    | cons part parts ih =>
      rw [List.forall_mem_cons] at blanks words
      have word := words.1
      have length : 0 < part.2.length := List.length_pos_iff.mpr word.1
      rw [List.flatMap_cons, List.length_append, List.length_append, List.length_append] at enough
      cases turns with
      | zero => omega
      | succ turns =>
        have rest := ih blanks.2 words.2 (fun part member => apart part (List.mem_of_mem_tail member)) turns (by
          rw [List.length_append]
          omega)
        have blankAfter : ∀ c,
            (parts.flatMap (fun part => part.1 ++ part.2) ++ trailing).head? = some c → isblank c = true := by
          intro c head
          cases parts with
          | nil => exact after c (List.mem_of_head? head)
          | cons part' parts =>
            have some_ := apart part' List.mem_cons_self
            cases here : part'.1 with
            | nil => exact absurd here some_
            | cons c' blanks' =>
              rw [List.flatMap_cons, here] at head
              cases head
              exact blanks.2 part' List.mem_cons_self c (by rw [here]; exact List.mem_cons_self)
        rw [List.flatMap_cons, List.flatMap_cons, List.append_assoc (part.1 ++ part.2)]
        rw [replaceLoop_part old new turns blanks.1 word.2 (by simp [word.1]) blankAfter
          (fun none_ => absurd none_ word.1), rest]
        simp only [List.append_assoc]
  rw [loop _ (le_refl _), List.append_assoc]

theorem words_exist (line : Bytes) : ∃ value : Words, value.text = line := by
  induction length : line.length using Nat.strong_induction_on generalizing line with
  | h n ih =>
    by_cases blank : ∀ c ∈ line, isblank c = true
    · exact ⟨⟨[], line, nofun, nofun, nofun, blank⟩, rfl⟩
    · have left : line.dropWhile isblank ≠ [] := by
        intro none_
        exact blank fun c member => List.dropWhile_eq_nil_iff.mp none_ c member
      have first : isblank ((line.dropWhile isblank).head left) = false := by
        have no := List.head_dropWhile_not isblank left
        simpa using no
      generalize rest : line.dropWhile isblank = text at left first
      have split : line = line.takeWhile isblank ++ text := by
        rw [← rest, List.takeWhile_append_dropWhile]
      have split' : text = text.takeWhile (fun c => !isblank c) ++ text.dropWhile fun c => !isblank c := by
        rw [List.takeWhile_append_dropWhile]
      have word : text.takeWhile (fun c => !isblank c) ≠ [] := by
        cases text with
        | nil => exact absurd rfl left
        | cons c text =>
          rw [List.takeWhile_cons_of_pos (by
            have no : isblank c = false := first
            rw [no]
            rfl)]
          exact List.cons_ne_nil _ _
      have shorter : (text.dropWhile fun c => !isblank c).length < n := by
        have sizes := congrArg List.length split
        have sizes' := congrArg List.length split'
        rw [List.length_append] at sizes sizes'
        have some_ := List.length_pos_iff.mpr word
        omega
      rcases ih _ shorter _ rfl with ⟨value, same⟩
      have starts : ∀ c, (text.dropWhile fun c => !isblank c).head? = some c → isblank c = true := by
        intro c head
        have no := List.head?_dropWhile_not (fun c => !isblank c) text
        rw [head] at no
        simpa using no
      have apart : ∀ part ∈ value.parts, part.1 ≠ [] := by
        intro part member
        cases here : value.parts with
        | nil =>
          rw [here] at member
          cases member
        | cons part' parts =>
          rw [here] at member
          rcases List.mem_cons.mp member with rfl | later
          · intro none_
            have nonblank := value.words part (by rw [here]; exact List.mem_cons_self)
            cases chars : part.2 with
            | nil => exact absurd chars nonblank.1
            | cons c word =>
              have head : (text.dropWhile fun c => !isblank c).head? = some c := by
                rw [← same, Words.text, here, List.flatMap_cons, none_, chars]
                rfl
              have no := nonblank.2 c (by rw [chars]; exact List.mem_cons_self)
              rw [starts c head] at no
              cases no
          · exact value.apart part (by rw [here]; exact later)
      refine ⟨⟨(line.takeWhile isblank, text.takeWhile fun c => !isblank c) :: value.parts, value.trailing, ?_, ?_,
        apart, value.after⟩, ?_⟩
      · rw [List.forall_mem_cons]
        exact ⟨fun c member => List.mem_takeWhile_imp member, value.blanks⟩
      · rw [List.forall_mem_cons]
        refine ⟨⟨word, fun c member => ?_⟩, value.words⟩
        simpa using List.mem_takeWhile_imp member
      · rw [Words.text, List.flatMap_cons, List.append_assoc]
        change _ ++ value.text = line
        rw [same, List.append_assoc, ← split', ← split]

/-- Suffixes are replaced rightly unless an empty one is replaced in a value with blanks at the end. -/
theorem replace_right_iff (value : Words) (old new : Bytes) :
    replace value.text old new = value.withSuffix old new ↔ old ≠ [] ∨ new = [] ∨ value.trailing = [] := by
  rw [replace_text, List.append_right_eq_self]
  unfold extra
  split_ifs with wrong
  · constructor
    · intro nothing
      exact .inr (.inl nothing)
    · intro either
      rcases either with some_ | nothing | none_
      · exact absurd wrong.2 some_
      · exact nothing
      · exact absurd none_ wrong.1
  · constructor
    · intro _
      by_contra neither
      rw [not_or, not_or, not_not] at neither
      exact wrong ⟨neither.2.2, neither.1⟩
    · intro _
      rfl

/-- `a` and a blank. -/
def aBlank : Words where
  parts := [([], [97])]
  trailing := [32]
  blanks := List.forall_mem_singleton.mpr nofun
  words := List.forall_mem_singleton.mpr ⟨List.cons_ne_nil _ _, List.forall_mem_singleton.mpr rfl⟩
  apart := nofun
  after := List.forall_mem_singleton.mpr rfl

/-- `$(A:=.o)` where A is `a` and a blank. -/
theorem blank_replaced : ¬ ∀ (value : Words) (old new : Bytes),
    replace value.text old new = value.withSuffix old new := by
  intro all
  exact absurd (all aBlank [] [46, 111]) (by decide)

end Scc.Make.Expand
