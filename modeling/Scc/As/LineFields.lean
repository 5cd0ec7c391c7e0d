import Mathlib.Data.List.TakeDrop
import Mathlib.Data.List.Forall2
import Mathlib.Data.List.TakeWhile
import Scc.As.Lexer

/-!
# Fields of a line

`extract()` takes a label, an operation and arguments out of a line. `field()` writes zeros into the buffer
of the line and moves a pointer that the three calls share.
-/

namespace Scc.As.LineFields

set_option autoImplicit false

/-- The buffer of a line, and where it has been written, the last first. -/
structure Buffer where
  text : Text
  writes : List Nat

def Buffer.get (b : Buffer) (i : Nat) : Char := b.text.getD i '\x00'

def Buffer.zero (b : Buffer) (i : Nat) : Buffer := ⟨b.text.set i '\x00', i :: b.writes⟩

/-- The loop that passes over some characters. -/
def skip (p : Char → Bool) (text : Text) (i : Nat) : Nat :=
  if i < text.length ∧ p (text.getD i '\x00') = true then skip p text (i + 1) else i
termination_by text.length - i

def blank (c : Char) : Bool := isspace c && c ≠ '\t'

def inside (c : Char) : Bool := c ≠ '\t'

/-- The loop that goes back from a place as long as it finds blanks. -/
def trim (b : Buffer) (s : Nat) : Nat → Buffer
  | 0 => if s = 0 ∧ isspace (b.get 0) then b.zero 0 else b
  | t + 1 => if s ≤ t + 1 ∧ isspace (b.get (t + 1)) then trim (b.zero (t + 1)) s t else b

/-- A tab that ends a field becomes a zero. -/
def cutTab (b : Buffer) (t : Nat) : Buffer × Nat := if b.get t = '\t' then (b.zero t, t + 1) else (b, t)

/-- The field, `*oldp` and the buffer. -/
def field (b : Buffer) (oldp : Option Nat) : Option Nat × Option Nat × Buffer :=
  match oldp with
  | none => (none, none, b)
  | some start =>
    let s := skip blank b.text start
    if b.get s = '\x00' ∨ b.get s = '#' then (none, none, b.zero s)
    else
      let cut := cutTab b (skip (fun c => c ≠ '\x00' && inside c) b.text s)
      let b := trim cut.1 s cut.2
      (if b.get s ≠ '\x00' then some s else none, some cut.2, b)

/-- The fields taken by calls of `field()`, the pointer behind them and the buffer. -/
def calls : Nat → Buffer → Option Nat → List (Option Nat) × Option Nat × Buffer
  | 0, b, s => ([], s, b)
  | n + 1, b, s =>
    let first := field b s
    let more := calls n first.2.2 first.2.1
    (first.1 :: more.1, more.2)

def validlabel (b : Buffer) (i : Nat) : Bool × Buffer :=
  if i < b.text.length ∧ b.get i ≠ '\x00' then
    if (b.get i).isAlphanum ∨ b.get i ∈ ['_', '.', '$'] then validlabel b (i + 1)
    else if b.get i = ':' then if b.get (i + 1) ≠ '\x00' then (false, b) else (true, b.zero i)
    else (false, b)
  else (true, b)
termination_by b.text.length - i

inductive Error
  | trailing
  | label
deriving DecidableEq

/-- `struct line` with the pointer `s`, and the buffer. -/
structure Extracted where
  fields : List (Option Nat)
  s : Option Nat
  buffer : Buffer
  error : Option Error

/-- Something other than a comment is left. -/
def trailing (b : Buffer) (s : Option Nat) : Bool := s.any fun s => b.get s ≠ '\x00' && b.get s ≠ '#'

/-- The label, the operation and the arguments. -/
def extract (line : Text) : Extracted :=
  let taken := calls 3 ⟨line ++ ['\x00'], []⟩ (some 0)
  if trailing taken.2.2 taken.2.1 then ⟨taken.1, taken.2.1, taken.2.2, some .trailing⟩
  else
    match taken.1.head? with
    | some (some label) =>
      let valid := validlabel taken.2.2 label
      ⟨taken.1, taken.2.1, valid.2, if valid.1 then none else some .label⟩
    | _ => ⟨taken.1, taken.2.1, taken.2.2, none⟩

def cstring (text : Text) (s : Nat) : Text := (text.drop s).takeWhile (· ≠ '\x00')

/-- The strings that the three calls leave, and whether something stands behind them. -/
def split (line : Text) : List (Option Text) × Bool :=
  let taken := calls 3 ⟨line ++ ['\x00'], []⟩ (some 0)
  (taken.1.map fun s => s.map (cstring taken.2.2.text), trailing taken.2.2 taken.2.1)

def rstrip : Text → Text
  | [] => []
  | c :: text => if rstrip text = [] ∧ isspace c = true then [] else c :: rstrip text

/-- The fields of a line: what stands between tabs, with the blanks and the further tabs next to a tab, and
the blanks at both ends of the line. -/
def parts (text : Text) : List Text :=
  rstrip ((text.takeWhile inside).dropWhile isspace) ::
    match _behind : text.dropWhile inside with
    | [] => []
    | _ :: rest => parts (rest.dropWhile isspace)
termination_by text.length
decreasing_by
  have kept := List.length_dropWhile_le inside text
  have less := List.length_dropWhile_le isspace rest
  rw [_behind, List.length_cons] at kept
  omega

/-- The line with one tab in place of tabs and of the blanks next to them, and no blanks at its end. -/
def normalise (text : Text) : Text :=
  rstrip (text.takeWhile inside) ++
    match _behind : text.dropWhile inside with
    | [] => []
    | _ :: rest => '\t' :: normalise (rest.dropWhile isspace)
termination_by text.length
decreasing_by
  have kept := List.length_dropWhile_le inside text
  have less := List.length_dropWhile_le isspace rest
  rw [_behind, List.length_cons] at kept
  omega

def comment (text : Text) : Bool := text.head? = some '#'

def uncommented (line : Text) : List Text := (parts line).takeWhile fun f => !comment f

def given (f : Option Text) : Option Text := f.filter (· ≠ [])

/-- The first three fields, and whether there are others. -/
def ideal (line : Text) : List (Option Text) × Bool :=
  ((List.range 3).map fun i => given (uncommented line)[i]?, ((uncommented line).drop 3).any (· ≠ []))

def Nothing (text : Text) : Prop := text.dropWhile isspace = [] ∨ comment (text.dropWhile isspace) = true

/-- None of so many fields ends with a blank, and no blank or tab stands behind the tab that ends one of
them, unless nothing or a comment follows. -/
def Plain : Nat → Text → Prop
  | 0, _ => True
  | n + 1, text =>
    text.dropWhile blank = [] ∨ comment (text.dropWhile blank) = true ∨
      rstrip ((text.dropWhile blank).takeWhile inside) = (text.dropWhile blank).takeWhile inside ∧
        ∀ c rest, (text.dropWhile blank).dropWhile inside = c :: rest →
          if rest.head?.any isspace then Nothing rest else Plain n rest

/-- The line is split into its fields, as it is split when its blanks are normalised, and nothing is
written outside the buffer. -/
def Correct (line : Text) : Prop :=
  split line = ideal line ∧ split line = split (normalise line) ∧
    ∀ i ∈ (extract line).buffer.writes, i < line.length + 1

theorem getD_behind (pre more : Text) (c d : Char) : (pre ++ c :: more).getD pre.length d = c := by
  rw [List.getD_eq_getElem?_getD, List.getElem?_append_right (Nat.le_refl _), Nat.sub_self]
  rfl

theorem set_behind (pre more : Text) (c d : Char) :
    (pre ++ c :: more).set pre.length d = pre ++ d :: more := by
  rw [List.set_append_right _ _ (Nat.le_refl _), Nat.sub_self]
  rfl

theorem skip_run {p : Char → Bool} (stops : p '\x00' = false) (pre l post : Text) :
    skip p (pre ++ (l ++ '\x00' :: post)) pre.length = pre.length + (l.takeWhile p).length := by
  induction l generalizing pre with
  | nil =>
    rw [skip, List.nil_append, getD_behind, if_neg (by simp [stops])]
    rfl
  | cons c l ih =>
    have inBuffer : pre.length < (pre ++ (c :: l ++ '\x00' :: post)).length := by
      simp
    rw [skip, List.cons_append, getD_behind]
    cases passes : p c with
    | false => rw [if_neg (by simp), List.takeWhile_cons_of_neg (by simp [passes]), List.length_nil,
        Nat.add_zero]
    | true =>
      have shifted : pre ++ c :: (l ++ '\x00' :: post) = (pre ++ [c]) ++ (l ++ '\x00' :: post) := by
        rw [List.append_assoc]
        rfl
      have length : (pre ++ [c]).length = pre.length + 1 := List.length_append
      rw [if_pos ⟨inBuffer, rfl⟩, shifted, ← length, ih, List.takeWhile_cons_of_pos passes,
        List.length_cons, length]
      omega

variable {b : Buffer} {l rest : Text}

theorem trim_stop (s t : Nat) (other : isspace (b.get t) = false) : trim b s t = b := by
  cases t with
  | zero => rw [trim, if_neg (by simp [other])]
  | succ t => rw [trim, if_neg (by simp [other])]

/-- What a call of `field()` takes from a text and what it leaves. -/
def fieldText (l : Text) : Option Text × Option Text :=
  match l.dropWhile blank with
  | [] => (none, none)
  | c :: s =>
    if c = '#' then (none, none)
    else
      (given (some ((c :: s).takeWhile inside)),
        some (match (c :: s).dropWhile inside with
          | [] => []
          | _ :: rest => if rest.head?.any isspace then [] else rest))

section Field

variable {b : Buffer} {pre l post : Text}

theorem field_skips (text : b.text = pre ++ (l ++ '\x00' :: post)) :
    skip blank b.text pre.length = (pre ++ l.takeWhile blank).length ∧
      b.text = (pre ++ l.takeWhile blank) ++ (l.dropWhile blank ++ '\x00' :: post) := by
  constructor
  · rw [text, skip_run (by decide), List.length_append]
  · rw [text, List.append_assoc, ← List.append_assoc (l.takeWhile blank), List.takeWhile_append_dropWhile]

theorem field_nothing (text : b.text = pre ++ (l ++ '\x00' :: post))
    (nothing : l.dropWhile blank = [] ∨ comment (l.dropWhile blank) = true) :
    field b (some pre.length) = (none, none, b.zero (pre ++ l.takeWhile blank).length) := by
  have ⟨skipped, split_⟩ := field_skips text
  have stops : b.get (pre ++ l.takeWhile blank).length = '\x00' ∨
      b.get (pre ++ l.takeWhile blank).length = '#' := by
    unfold Buffer.get
    rw [split_]
    cases rest : l.dropWhile blank with
    | nil => exact Or.inl (getD_behind _ _ _ _)
    | cons c s =>
      rw [rest] at nothing
      have mark : c = '#' := by simpa [comment] using nothing
      rw [List.cons_append, getD_behind]
      exact Or.inr mark
  unfold field
  dsimp only
  rw [skipped, if_pos stops]

theorem field_last (text : b.text = pre ++ (l ++ '\x00' :: post)) (clean : '\x00' ∉ l)
    (some_ : l.dropWhile blank ≠ []) (notComment : comment (l.dropWhile blank) = false)
    (noTab : (l.dropWhile blank).dropWhile inside = []) : field b (some pre.length) =
      (some (pre ++ l.takeWhile blank).length, some (pre ++ l).length, b) := by
  have ⟨skipped, split_⟩ := field_skips text
  have whole : (l.dropWhile blank).takeWhile inside = l.dropWhile blank := by
    have parts := @List.takeWhile_append_dropWhile _ inside (l.dropWhile blank)
    rwa [noTab, List.append_nil] at parts
  have members : ∀ c ∈ l.dropWhile blank, c ≠ '\x00' ∧ inside c = true := by
    intro c member
    constructor
    · rintro rfl
      exact clean ((List.dropWhile_sublist _).subset member)
    · rw [← whole] at member
      exact List.mem_takeWhile_imp member
  have run : (l.dropWhile blank).takeWhile (fun c => c ≠ '\x00' && inside c) = l.dropWhile blank := by
    rw [List.takeWhile_eq_self_iff]
    intro c member
    have ⟨nonzero, within⟩ := members c member
    simp [nonzero, within]
  have together : (pre ++ l.takeWhile blank).length + (l.dropWhile blank).length = (pre ++ l).length := by
    have parts := congrArg List.length (@List.takeWhile_append_dropWhile _ blank l)
    simp only [List.length_append] at parts ⊢
    omega
  have ends : skip (fun c => c ≠ '\x00' && inside c) b.text (pre ++ l.takeWhile blank).length =
      (pre ++ l).length := by
    rw [split_, skip_run (by decide), run, together]
  have last : b.get (pre ++ l).length = '\x00' := by
    unfold Buffer.get
    rw [text, ← List.append_assoc, getD_behind]
  have begins : b.get (pre ++ l.takeWhile blank).length ≠ '\x00' ∧
      b.get (pre ++ l.takeWhile blank).length ≠ '#' := by
    unfold Buffer.get
    rw [split_]
    cases rest : l.dropWhile blank with
    | nil => exact absurd rest some_
    | cons c s =>
      rw [List.cons_append, getD_behind]
      rw [rest] at notComment
      exact ⟨(members c (by rw [rest]; exact List.mem_cons_self)).1, by simpa [comment] using notComment⟩
  have kept : cutTab b (pre ++ l).length = (b, (pre ++ l).length) := by
    rw [cutTab, last, if_neg (by decide)]
  unfold field
  dsimp only
  rw [skipped, if_neg (not_or.mpr begins), ends, kept]
  dsimp only
  rw [trim_stop _ _ (by rw [last]; decide), if_pos begins.1]

theorem field_tab (text : b.text = pre ++ (l ++ '\x00' :: post)) (clean : '\x00' ∉ l) {f rest : Text}
    (ends : l.dropWhile blank = f ++ '\t' :: rest) (noTab : ∀ c ∈ f, inside c = true)
    (notComment : comment (l.dropWhile blank) = false) : ∃ b', field b (some pre.length) =
        (if f = [] then none else some (pre ++ l.takeWhile blank).length,
          some (pre ++ l.takeWhile blank ++ f ++ ['\x00']).length, b') ∧
      b'.text = (pre ++ l.takeWhile blank ++ f ++ ['\x00']) ++
        ((if rest.head?.any isspace then [] else rest) ++ '\x00' ::
          (if rest.head?.any isspace then rest.tail ++ '\x00' :: post else post)) ∧
      ∀ w ∈ b'.writes, w ∈ b.writes ∨ w < b.text.length := by
  have ⟨skipped, split_⟩ := field_skips text
  generalize l.takeWhile blank = k at *
  have members : ∀ c ∈ f ++ '\t' :: rest, c ≠ '\x00' := by
    rintro c member rfl
    rw [← ends] at member
    exact clean ((List.dropWhile_sublist _).subset member)
  have run : (f ++ '\t' :: rest).takeWhile (fun c => c ≠ '\x00' && inside c) = f := by
    rw [List.takeWhile_append_of_pos, List.takeWhile_cons_of_neg (by decide), List.append_nil]
    intro c member
    have nonzero := members c (List.mem_append_left _ member)
    simp [nonzero, noTab c member]
  have stops : skip (fun c => c ≠ '\x00' && inside c) b.text (pre ++ k).length = (pre ++ k ++ f).length := by
    rw [split_, ends, skip_run (by decide), run, @List.length_append _ _ f]
  have tabbed : b.text = (pre ++ k ++ f) ++ '\t' :: (rest ++ '\x00' :: post) := by
    rw [split_, ends]
    simp only [List.append_assoc, List.cons_append]
  have begins : ¬ (b.get (pre ++ k).length = '\x00' ∨ b.get (pre ++ k).length = '#') := by
    unfold Buffer.get
    rw [split_]
    rw [ends] at notComment ⊢
    cases f with
    | nil =>
      rw [List.nil_append, List.cons_append, getD_behind]
      decide
    | cons c f =>
      have nonzero := members c List.mem_cons_self
      rw [List.cons_append, List.cons_append, getD_behind]
      simp only [nonzero, false_or]
      simpa [comment] using notComment
  have length : (pre ++ k ++ f ++ ['\x00']).length = (pre ++ k ++ f).length + 1 := List.length_append
  have cut : cutTab b (pre ++ k ++ f).length =
      (b.zero (pre ++ k ++ f).length, (pre ++ k ++ f ++ ['\x00']).length) := by
    have isTab : b.get (pre ++ k ++ f).length = '\t' := by
      unfold Buffer.get
      rw [tabbed, getD_behind]
    rw [cutTab, if_pos isTab, length]
  have zeroed : (b.zero (pre ++ k ++ f).length).text =
      (pre ++ k ++ f ++ ['\x00']) ++ (rest ++ '\x00' :: post) := by
    unfold Buffer.zero
    rw [tabbed, set_behind]
    simp only [List.append_assoc, List.cons_append, List.nil_append]
  have inBuffer : (pre ++ k ++ f ++ ['\x00']).length < b.text.length := by
    rw [tabbed]
    simp only [List.length_append, List.length_cons, List.length_nil]
    omega
  have begun (more : Text) (b' : Buffer) (text' : b'.text = (pre ++ k ++ f ++ ['\x00']) ++ more) :
      (if b'.get (pre ++ k).length ≠ '\x00' then some (pre ++ k).length else none) =
        if f = [] then none else some (pre ++ k).length := by
    unfold Buffer.get
    rw [text', List.append_assoc, List.append_assoc (pre ++ k)]
    cases f with
    | nil =>
      rw [List.nil_append, List.cons_append, getD_behind]
      rfl
    | cons c f =>
      have nonzero := members c List.mem_cons_self
      rw [List.cons_append, getD_behind, if_pos nonzero]
      rfl
  have result : field b (some pre.length) =
      let b' := trim (b.zero (pre ++ k ++ f).length) (pre ++ k).length (pre ++ k ++ f ++ ['\x00']).length
      (if b'.get (pre ++ k).length ≠ '\x00' then some (pre ++ k).length else none,
        some (pre ++ k ++ f ++ ['\x00']).length, b') := by
    unfold field
    dsimp only
    rw [skipped, if_neg begins, stops, cut]
  cases first : rest.head?.any isspace with
  | false =>
    have stays : trim (b.zero (pre ++ k ++ f).length) (pre ++ k).length
        (pre ++ k ++ f ++ ['\x00']).length = b.zero (pre ++ k ++ f).length := by
      apply trim_stop
      unfold Buffer.get
      rw [zeroed]
      cases rest with
      | nil =>
        rw [List.nil_append, getD_behind]
        decide
      | cons c rest =>
        rw [List.cons_append, getD_behind]
        exact first
    rw [stays] at result
    dsimp only at result
    rw [begun _ _ zeroed] at result
    refine ⟨_, result, zeroed, ?_⟩
    intro w member
    rcases List.mem_cons.mp member with rfl | old
    · right
      omega
    · exact Or.inl old
  | true =>
    cases rest with
    | nil => cases first
    | cons c rest =>
      have again : ((b.zero (pre ++ k ++ f).length).zero (pre ++ k ++ f ++ ['\x00']).length).text =
          (pre ++ k ++ f ++ ['\x00']) ++ '\x00' :: (rest ++ '\x00' :: post) := by
        rw [Buffer.zero, zeroed, List.cons_append, set_behind]
      have erased : trim (b.zero (pre ++ k ++ f).length) (pre ++ k).length
          (pre ++ k ++ f ++ ['\x00']).length =
          (b.zero (pre ++ k ++ f).length).zero (pre ++ k ++ f ++ ['\x00']).length := by
        have space : isspace ((b.zero (pre ++ k ++ f).length).get
            (pre ++ k ++ f ++ ['\x00']).length) = true := by
          unfold Buffer.get
          rw [zeroed, List.cons_append, getD_behind]
          exact first
        have behind : (pre ++ k).length ≤ (pre ++ k ++ f).length + 1 := by
          rw [@List.length_append _ _ f]
          omega
        have zero : ((b.zero (pre ++ k ++ f).length).zero (pre ++ k ++ f ++ ['\x00']).length).get
            (pre ++ k ++ f).length = '\x00' := by
          unfold Buffer.get
          rw [again, List.append_assoc _ ['\x00'], List.cons_append, getD_behind]
        rw [length] at space zero ⊢
        rw [trim, if_pos ⟨behind, space⟩, trim_stop _ _ (by rw [zero]; decide)]
      rw [erased] at result
      dsimp only at result
      rw [begun _ _ again] at result
      refine ⟨_, result, again, ?_⟩
      intro w member
      rcases List.mem_cons.mp member with rfl | member
      · exact Or.inr inBuffer
      · rcases List.mem_cons.mp member with rfl | old
        · right
          omega
        · exact Or.inl old

end Field

/-- The texts that some calls take, and the text that they leave. -/
def callsText : Nat → Option Text → List (Option Text) × Option Text
  | 0, l => ([], l)
  | n + 1, none => (none :: (callsText n none).1, none)
  | n + 1, some l =>
    ((fieldText l).1 :: (callsText n (fieldText l).2).1, (callsText n (fieldText l).2).2)

/-- A pointer to a string that begins at a place or behind it. -/
def PointsTo (low : Nat) (text : Text) : Option Nat → Option Text → Prop
  | none, none => True
  | some s, some f => low ≤ s ∧ ∃ p q, text = p ++ (f ++ '\x00' :: q) ∧ p.length = s ∧ '\x00' ∉ f
  | _, _ => False

variable {text : Text} {c : Char}

theorem PointsTo.lower {low low' : Nat} {s : Option Nat} {f : Option Text} (less : low' ≤ low)
    (points : PointsTo low text s f) : PointsTo low' text s f := by
  cases s with
  | none =>
    cases f with
    | none => trivial
    | some f => cases points
  | some s =>
    cases f with
    | none => cases points
    | some f => exact ⟨Nat.le_trans less points.1, points.2⟩

theorem pointsTo_none (low : Nat) (text : Text) (n : Nat) :
    List.Forall₂ (PointsTo low text) (List.replicate n none) (List.replicate n none) := by
  induction n with
  | zero => exact .nil
  | succ n ih => exact .cons trivial ih

variable (n : Nat)

theorem calls_none (b : Buffer) : calls n b none = (List.replicate n none, none, b) := by
  induction n with
  | zero => rfl
  | succ n ih =>
    rw [calls]
    have first : field b none = (none, none, b) := rfl
    rw [first]
    dsimp only
    rw [ih]
    rfl

theorem callsText_none : callsText n none = (List.replicate n none, none) := by
  induction n with
  | zero => rfl
  | succ n ih =>
    rw [callsText, ih]
    rfl

/-- What some calls leave in the buffer behind a place. -/
structure Leaves (b : Buffer) (pre l post : Text) (n : Nat) (result : List (Option Nat) × Option Nat × Buffer) :
    Prop where
  behind : ∃ tail, result.2.2.text = pre ++ tail ∧ (l = [] → tail = '\x00' :: post)
  writes : ∀ w ∈ result.2.2.writes, w ∈ b.writes ∨ w < b.text.length
  length : result.2.2.text.length = b.text.length
  fields : List.Forall₂ (PointsTo pre.length result.2.2.text) result.1 (callsText n (some l)).1
  rest : PointsTo 0 result.2.2.text result.2.1 (callsText n (some l)).2

theorem fieldText_nothing
    (nothing : l.dropWhile blank = [] ∨ comment (l.dropWhile blank) = true) : fieldText l = (none, none) := by
  unfold fieldText
  cases rest : l.dropWhile blank with
  | nil => rfl
  | cons c s =>
    rw [rest] at nothing
    have mark : c = '#' := by simpa [comment] using nothing
    dsimp only
    rw [if_pos mark]

theorem fieldText_some (some_ : l.dropWhile blank ≠ []) (notComment : comment (l.dropWhile blank) = false) :
    fieldText l = (given (some ((l.dropWhile blank).takeWhile inside)),
      some (match (l.dropWhile blank).dropWhile inside with
        | [] => []
        | _ :: rest => if rest.head?.any isspace then [] else rest)) := by
  unfold fieldText
  cases rest : l.dropWhile blank with
  | nil => exact absurd rest some_
  | cons c s =>
    rw [rest] at notComment
    have other : c ≠ '#' := by simpa [comment] using notComment
    dsimp only
    rw [if_neg other]

theorem given_some (f : Text) : given (some f) = if f = [] then none else some f := by
  unfold given
  cases f with
  | nil => rfl
  | cons c f => rfl

theorem calls_text {pre l post : Text} (text : b.text = pre ++ (l ++ '\x00' :: post))
    (clean : '\x00' ∉ l) : Leaves b pre l post n (calls n b (some pre.length)) := by
  induction n generalizing b pre l post with
  | zero =>
    refine ⟨⟨l ++ '\x00' :: post, text, ?_⟩, fun w => Or.inl, rfl, .nil, Nat.zero_le _, pre, post, text, rfl,
      clean⟩
    rintro rfl
    rfl
  | succ n ih =>
    by_cases nothing : l.dropWhile blank = [] ∨ comment (l.dropWhile blank) = true
    · have first := field_nothing text nothing
      have ⟨_, split_⟩ := field_skips text
      have tail : ∃ tail, (b.zero (pre ++ l.takeWhile blank).length).text = pre ++ tail ∧
          (l = [] → tail = '\x00' :: post) := by
        unfold Buffer.zero
        rw [split_]
        cases rest : l.dropWhile blank with
        | nil =>
          refine ⟨l.takeWhile blank ++ '\x00' :: post, ?_, ?_⟩
          · rw [List.nil_append, set_behind, List.append_assoc]
          · rintro rfl
            rfl
        | cons c s =>
          refine ⟨l.takeWhile blank ++ '\x00' :: (s ++ '\x00' :: post), ?_, ?_⟩
          · rw [List.cons_append, set_behind, List.append_assoc]
          · rintro rfl
            cases rest
      have inBuffer : (pre ++ l.takeWhile blank).length < b.text.length := by
        rw [split_]
        simp only [List.length_append, List.length_cons]
        omega
      have run : calls (n + 1) b (some pre.length) =
          (none :: List.replicate n none, none, b.zero (pre ++ l.takeWhile blank).length) := by
        rw [calls, first]
        dsimp only
        rw [calls_none]
      have texts : callsText (n + 1) (some l) = (none :: List.replicate n none, none) := by
        rw [callsText, fieldText_nothing nothing, callsText_none]
      rw [run]
      refine ⟨tail, ?_, List.length_set, ?_, ?_⟩
      · intro w member
        rcases List.mem_cons.mp member with rfl | old
        · exact Or.inr inBuffer
        · exact Or.inl old
      · rw [texts]
        exact .cons trivial (pointsTo_none pre.length _ n)
      · rw [texts]
        trivial
    · have ⟨some_, other⟩ := not_or.mp nothing
      have notComment := eq_false_of_ne_true other
      have known := fieldText_some some_ notComment
      have within : '\x00' ∉ l.dropWhile blank := fun member => clean ((List.dropWhile_sublist _).subset member)
      have behindBlanks : pre.length ≤ (pre ++ l.takeWhile blank).length := by
        rw [List.length_append]
        omega
      cases noTab : (l.dropWhile blank).dropWhile inside with
      | nil =>
        have first := field_last text clean some_ notComment noTab
        have whole : (l.dropWhile blank).takeWhile inside = l.dropWhile blank := by
          have parts := @List.takeWhile_append_dropWhile _ inside (l.dropWhile blank)
          rwa [noTab, List.append_nil] at parts
        rw [noTab, whole, given_some, if_neg some_] at known
        dsimp only at known
        have text' : b.text = (pre ++ l) ++ ([] ++ '\x00' :: post) := by
          rw [text, List.append_assoc]
          rfl
        have more := ih text' List.not_mem_nil
        have ⟨tail, left, same⟩ := more.behind
        have run : calls (n + 1) b (some pre.length) =
            (some (pre ++ l.takeWhile blank).length :: (calls n b (some (pre ++ l).length)).1,
              (calls n b (some (pre ++ l).length)).2) := by
          rw [calls, first]
        have texts : callsText (n + 1) (some l) =
            (some (l.dropWhile blank) :: (callsText n (some [])).1, (callsText n (some [])).2) := by
          rw [callsText, known]
        rw [run]
        refine ⟨⟨l ++ tail, by rw [← List.append_assoc]; exact left, ?_⟩, more.writes, more.length, ?_, ?_⟩
        · rintro rfl
          exact absurd rfl some_
        · rw [texts]
          refine .cons ⟨behindBlanks, pre ++ l.takeWhile blank, post, ?_, rfl, within⟩ ?_
          · rw [left, same rfl]
            exact text'.symm.trans (field_skips text).2
          · refine more.fields.imp fun s f => PointsTo.lower ?_
            rw [List.length_append]
            omega
        · rw [texts]
          exact more.rest
      | cons c rest =>
        have tab : c = '\t' := by
          have stops := List.head_dropWhile_not inside (show (l.dropWhile blank).dropWhile inside ≠ [] by simp [noTab])
          simp only [noTab, List.head_cons] at stops
          simpa [inside] using stops
        subst tab
        have ends : l.dropWhile blank = (l.dropWhile blank).takeWhile inside ++ '\t' :: rest := by
          rw [← noTab, List.takeWhile_append_dropWhile]
        rw [noTab, given_some] at known
        dsimp only at known
        have within' : ∀ c ∈ (l.dropWhile blank).takeWhile inside, inside c = true :=
          fun c => List.mem_takeWhile_imp
        generalize (l.dropWhile blank).takeWhile inside = f at *
        have ⟨b', first, text', wrote⟩ := field_tab text clean ends within' notComment
        have cleanField : '\x00' ∉ f := by
          intro member
          rw [ends] at within
          exact within (List.mem_append_left _ member)
        have cleanRest : '\x00' ∉ (if rest.head?.any isspace then [] else rest) := by
          intro member
          rw [ends] at within
          split_ifs at member
          · cases member
          · exact within (List.mem_append_right _ (List.mem_cons_of_mem _ member))
        have more := ih text' cleanRest
        have ⟨tail, left, _⟩ := more.behind
        have size : b'.text.length = b.text.length := by
          rw [text', (field_skips text).2, ends]
          split_ifs with space
          · cases rest with
            | nil => cases space
            | cons c rest =>
              simp only [List.length_append, List.length_cons, List.length_nil, List.tail_cons]
              omega
          · simp only [List.length_append, List.length_cons, List.length_nil]
            omega
        have run : calls (n + 1) b (some pre.length) =
            ((if f = [] then none else some (pre ++ l.takeWhile blank).length) ::
                (calls n b' (some (pre ++ l.takeWhile blank ++ f ++ ['\x00']).length)).1,
              (calls n b' (some (pre ++ l.takeWhile blank ++ f ++ ['\x00']).length)).2) := by
          rw [calls, first]
        have texts : callsText (n + 1) (some l) =
            ((if f = [] then none else some f) ::
                (callsText n (some (if rest.head?.any isspace then [] else rest))).1,
              (callsText n (some (if rest.head?.any isspace then [] else rest))).2) := by
          rw [callsText, known]
        rw [run]
        refine ⟨⟨l.takeWhile blank ++ f ++ ['\x00'] ++ tail, ?_, ?_⟩, ?_, more.length.trans size, ?_, ?_⟩
        · rw [left]
          simp only [List.append_assoc]
        · rintro rfl
          exact absurd rfl some_
        · intro w member
          rcases more.writes w member with old | new
          · exact wrote w old
          · exact Or.inr (size ▸ new)
        · rw [texts]
          refine .cons ?_ ?_
          · split_ifs
            · trivial
            · refine ⟨behindBlanks, pre ++ l.takeWhile blank, tail, ?_, rfl, cleanField⟩
              rw [left]
              simp only [List.append_assoc, List.cons_append, List.nil_append]
          · refine more.fields.imp fun s f => PointsTo.lower ?_
            simp only [List.length_append]
            omega
        · rw [texts]
          exact more.rest

theorem cstring_pointsTo {low s : Nat} {text f : Text} (points : PointsTo low text (some s) (some f)) :
    cstring text s = f := by
  have ⟨_, p, q, split_, length, clean⟩ := points
  have members : ∀ c ∈ f, (c ≠ '\x00' : Bool) = true := by
    intro c member
    rw [decide_eq_true_eq]
    rintro rfl
    exact clean member
  rw [cstring, split_, ← length, List.drop_left, List.takeWhile_append_of_pos members,
    List.takeWhile_cons_of_neg (by decide), List.append_nil]

structure Line where
  text : Text
  clean : '\x00' ∉ text

def trailingText (l : Option Text) : Bool := l.any fun l => l ≠ [] && !comment l

theorem strings_pointsTo {low : Nat} {fields : List (Option Nat)} {texts : List (Option Text)}
    (points : List.Forall₂ (PointsTo low text) fields texts) :
    (fields.map fun s => s.map (cstring text)) = texts := by
  induction points with
  | nil => rfl
  | @cons s f fields texts first _ ih =>
    rw [List.map_cons, ih]
    cases s with
    | none =>
      cases f with
      | none => rfl
      | some f => cases first
    | some s =>
      cases f with
      | none => cases first
      | some f => rw [Option.map_some, cstring_pointsTo first]

theorem trailing_pointsTo {s : Option Nat} {l : Option Text} (points : PointsTo 0 b.text s l) :
    trailing b s = trailingText l := by
  cases s with
  | none =>
    cases l with
    | none => rfl
    | some l => cases points
  | some s =>
    cases l with
    | none => cases points
    | some l =>
      have ⟨_, p, q, split_, length, clean⟩ := points
      unfold trailing trailingText Buffer.get
      rw [Option.any_some, Option.any_some, split_, ← length]
      cases l with
      | nil =>
        rw [List.nil_append, getD_behind]
        rfl
      | cons c l =>
        have nonzero : c ≠ '\x00' := by
          rintro rfl
          exact clean List.mem_cons_self
        rw [List.cons_append, getD_behind]
        simp [nonzero, comment]

theorem split_callsText {line : Text} (clean : '\x00' ∉ line) :
    split line = ((callsText 3 (some line)).1, trailingText (callsText 3 (some line)).2) := by
  have text : (⟨line ++ ['\x00'], []⟩ : Buffer).text = [] ++ (line ++ '\x00' :: []) := rfl
  have left := calls_text 3 text clean
  unfold split
  dsimp only
  exact Prod.ext (strings_pointsTo left.fields) (trailing_pointsTo left.rest)

theorem validlabel_writes (b : Buffer) (i : Nat) :
    ∀ w ∈ (validlabel b i).2.writes, w ∈ b.writes ∨ w < b.text.length := by
  fun_induction validlabel b i with
  | case1 i _ _ ih => exact ih
  | case3 i inBuffer _ _ _ =>
    intro w member
    rcases List.mem_cons.mp member with rfl | old
    · exact Or.inr inBuffer.1
    · exact Or.inl old
  | _ => exact fun w => Or.inl

theorem extract_writes {line : Text} (clean : '\x00' ∉ line) :
    ∀ i ∈ (extract line).buffer.writes, i < line.length + 1 := by
  have text : (⟨line ++ ['\x00'], []⟩ : Buffer).text = [] ++ (line ++ '\x00' :: []) := rfl
  have left := calls_text 3 text clean
  have size : (⟨line ++ ['\x00'], []⟩ : Buffer).text.length = line.length + 1 := List.length_append
  have taken : ∀ w ∈ (calls 3 ⟨line ++ ['\x00'], []⟩ (some 0)).2.2.writes, w < line.length + 1 := by
    intro w member
    rcases left.writes w member with old | new
    · cases old
    · omega
  have length := left.length
  rw [size] at length
  unfold extract
  dsimp only
  split_ifs
  · exact taken
  · split
    · intro w member
      rcases validlabel_writes _ _ w member with old | new
      · exact taken w old
      · exact length ▸ new
    · exact taken

theorem rstrip_cons (text : Text) (other : isspace c = false) : rstrip (c :: text) = c :: rstrip text := by
  rw [rstrip, if_neg (by simp [other])]

theorem mem_rstrip (member : c ∈ rstrip text) : c ∈ text := by
  induction text with
  | nil => exact member
  | cons d text ih =>
    rw [rstrip] at member
    split_ifs at member
    · cases member
    · rcases List.mem_cons.mp member with rfl | more
      · exact List.mem_cons_self
      · exact List.mem_cons_of_mem _ (ih more)

theorem dropWhile_rstrip (text : Text) :
    (rstrip text).dropWhile isspace = rstrip (text.dropWhile isspace) := by
  induction text with
  | nil => rfl
  | cons c text ih =>
    cases space : isspace c with
    | false => rw [rstrip_cons text space, List.dropWhile_cons_of_neg (by simp [space]),
        List.dropWhile_cons_of_neg (by simp [space]), rstrip_cons text space]
    | true =>
      rw [List.dropWhile_cons_of_pos space, ← ih, rstrip]
      split_ifs with blanks
      · rw [blanks.1]
      · rw [List.dropWhile_cons_of_pos space]

theorem rstrip_rstrip (text : Text) : rstrip (rstrip text) = rstrip text := by
  induction text with
  | nil => rfl
  | cons c text ih =>
    rw [rstrip]
    split_ifs with blanks
    · rfl
    · rw [rstrip, ih, if_neg blanks]

theorem blank_space (isBlank : blank c = true) : isspace c = true ∧ inside c = true := by
  simpa [blank, inside] using isBlank

theorem not_blank (other : blank c = false) : c = '\t' ∨ isspace c = false ∧ inside c = true := by
  unfold blank inside at *
  cases space : isspace c with
  | false =>
    refine Or.inr ⟨rfl, ?_⟩
    rw [decide_eq_true_eq]
    rintro rfl
    cases space
  | true => simpa [space] using other

theorem first_field (l : Text) :
    (l.takeWhile inside).dropWhile isspace = (l.dropWhile blank).takeWhile inside ∧
      l.dropWhile inside = (l.dropWhile blank).dropWhile inside := by
  induction l with
  | nil => exact ⟨rfl, rfl⟩
  | cons c l ih =>
    cases kind : blank c with
    | true =>
      have ⟨space, within⟩ := blank_space kind
      rw [List.takeWhile_cons_of_pos within, List.dropWhile_cons_of_pos space,
        List.dropWhile_cons_of_pos within, List.dropWhile_cons_of_pos kind]
      exact ih
    | false =>
      rw [@List.dropWhile_cons_of_neg _ blank _ _ (by simp [kind])]
      refine ⟨?_, rfl⟩
      rcases not_blank kind with rfl | ⟨other, within⟩
      · rfl
      · rw [List.takeWhile_cons_of_pos within, List.dropWhile_cons_of_neg (by simp [other])]

theorem parts_last (noTab : l.dropWhile inside = []) :
    parts l = [rstrip ((l.dropWhile blank).takeWhile inside)] := by
  rw [parts, (first_field l).1]
  split
  · rfl
  · next same =>
      rw [noTab] at same
      cases same

theorem parts_tab (tab : l.dropWhile inside = c :: rest) :
    parts l = rstrip ((l.dropWhile blank).takeWhile inside) :: parts (rest.dropWhile isspace) := by
  rw [parts, (first_field l).1]
  split
  · next same =>
      rw [tab] at same
      cases same
  · next same =>
      rw [tab] at same
      cases same
      rfl

theorem parts_first (l : Text) : ∃ more, parts l = rstrip ((l.dropWhile blank).takeWhile inside) :: more := by
  cases tab : l.dropWhile inside with
  | nil => exact ⟨[], parts_last tab⟩
  | cons c rest => exact ⟨_, parts_tab tab⟩

def idealOf (n : Nat) (fields : List Text) : List (Option Text) × Bool :=
  ((List.range n).map fun i => given fields[i]?, (fields.drop n).any (· ≠ []))

theorem idealOf_nil : idealOf n [] = (List.replicate n none, false) := by
  unfold idealOf
  rw [List.drop_nil, List.any_nil, Prod.mk.injEq]
  refine ⟨?_, rfl⟩
  rw [List.eq_replicate_iff]
  refine ⟨by rw [List.length_map, List.length_range], ?_⟩
  intro f member
  have ⟨i, _, same⟩ := List.mem_map.mp member
  rw [← same, List.getElem?_nil]
  rfl

theorem idealOf_cons (f : Text) (fields : List Text) : idealOf (n + 1) (f :: fields) =
      (given (some f) :: (idealOf n fields).1, (idealOf n fields).2) := by
  unfold idealOf
  rw [List.range_succ_eq_map, List.map_cons, List.map_map]
  rfl

def textOf (n : Nat) (l : Option Text) : List (Option Text) × Bool :=
  ((callsText n l).1, trailingText (callsText n l).2)

theorem textOf_nil : textOf n (some []) = (List.replicate n none, false) := by
  cases n with
  | zero => rfl
  | succ n =>
    have first : fieldText [] = (none, none) := rfl
    rw [textOf, callsText, first]
    dsimp only
    rw [callsText_none]
    rfl

theorem started (l : Text) (other : isspace c = false) :
    (c :: l).dropWhile blank = c :: l ∧ (c :: l).takeWhile inside = c :: l.takeWhile inside := by
  have notBlank : blank c = false := by
    unfold blank
    rw [other]
    rfl
  have within : inside c = true := by
    unfold inside
    rw [decide_eq_true_eq]
    rintro rfl
    cases other
  rw [List.dropWhile_cons_of_neg (by simp [notBlank]), List.takeWhile_cons_of_pos within]
  exact ⟨rfl, rfl⟩

theorem uncommented_started (l : Text) (other : isspace c = false) :
    if c = '#' then uncommented (c :: l) = []
    else ∃ more, uncommented (c :: l) = (c :: rstrip (l.takeWhile inside)) :: more := by
  have ⟨more, first⟩ := parts_first (c :: l)
  have ⟨begins, takes⟩ := started l other
  rw [begins, takes, rstrip_cons _ other] at first
  unfold uncommented
  rw [first]
  split_ifs with mark
  · exact List.takeWhile_cons_of_neg (by simp [comment, mark])
  · exact ⟨_, List.takeWhile_cons_of_pos (by simp [comment, mark])⟩

theorem idealOf_nothing (starts : l.head?.any isspace = false) :
    idealOf n (uncommented l) = (List.replicate n none, false) ↔ l = [] ∨ comment l = true := by
  cases l with
  | nil =>
    have empty : uncommented [] = [[]] := by
      unfold uncommented
      rw [parts_last rfl]
      rfl
    rw [empty]
    refine iff_of_true ?_ (Or.inl rfl)
    cases n with
    | zero => rfl
    | succ n =>
      rw [idealOf_cons, idealOf_nil]
      rfl
  | cons c l =>
    have first := uncommented_started l starts
    by_cases mark : c = '#'
    · rw [if_pos mark] at first
      rw [first, idealOf_nil]
      exact iff_of_true rfl (Or.inr (by simp [comment, mark]))
    · rw [if_neg mark] at first
      have ⟨more, same⟩ := first
      rw [same]
      refine iff_of_false ?_ (by simp [comment, mark])
      intro nothing
      cases n with
      | zero =>
        have any := congrArg Prod.snd nothing
        cases any
      | succ n =>
        rw [idealOf_cons] at nothing
        have head := congrArg (fun p => p.1.head?) nothing
        cases head

theorem trailingText_nothing (l : Text) : trailingText (some l) = false ↔ l = [] ∨ comment l = true := by
  simp [trailingText]
  tauto

theorem idealOf_blank (nothing : l.dropWhile blank = [] ∨ comment (l.dropWhile blank) = true) :
    idealOf n (uncommented l) = (List.replicate n none, false) := by
  cases rest : l.dropWhile blank with
  | nil =>
    have noTab : l.dropWhile inside = [] := by
      rw [(first_field l).2, rest]
      rfl
    have empty : uncommented l = uncommented [] := by
      unfold uncommented
      rw [parts_last noTab, rest, parts_last rfl]
      rfl
    rw [empty, idealOf_nothing n rfl]
    exact Or.inl rfl
  | cons c s =>
    rw [rest] at nothing
    have mark : c = '#' := by simpa [comment] using nothing
    have ⟨more, first⟩ := parts_first l
    have none_ : uncommented l = [] := by
      unfold uncommented
      rw [first, rest, mark, (started s (by decide)).2, rstrip_cons _ (by decide)]
      exact List.takeWhile_cons_of_neg (by simp [comment])
    rw [none_, idealOf_nil]

theorem field_begins (l : Text) {c : Char} {f : Text}
    (begins : (l.dropWhile blank).takeWhile inside = c :: f) : isspace c = false := by
  cases rest : l.dropWhile blank with
  | nil =>
    rw [rest] at begins
    cases begins
  | cons d s =>
    have stops := List.head_dropWhile_not blank (show l.dropWhile blank ≠ [] by simp [rest])
    simp only [rest, List.head_cons] at stops
    rw [rest] at begins
    rcases not_blank stops with rfl | ⟨other, within⟩
    · cases begins
    · rw [List.takeWhile_cons_of_pos within] at begins
      cases begins
      exact other

theorem given_rstrip (l : Text) : given (some ((l.dropWhile blank).takeWhile inside)) =
        given (some (rstrip ((l.dropWhile blank).takeWhile inside))) ↔
      rstrip ((l.dropWhile blank).takeWhile inside) = (l.dropWhile blank).takeWhile inside := by
  have begins := @field_begins l
  generalize (l.dropWhile blank).takeWhile inside = f at *
  rw [given_some, given_some]
  cases f with
  | nil => exact iff_of_true rfl rfl
  | cons c f =>
    rw [rstrip_cons f (begins rfl), if_neg (by simp), if_neg (by simp), Option.some.injEq]
    exact eq_comm

theorem uncommented_field (notComment : comment (l.dropWhile blank) = false) :
    uncommented l = rstrip ((l.dropWhile blank).takeWhile inside) ::
      match (l.dropWhile blank).dropWhile inside with
      | [] => []
      | _ :: rest => uncommented (rest.dropWhile isspace) := by
  have other : comment (rstrip ((l.dropWhile blank).takeWhile inside)) = false := by
    cases first : (l.dropWhile blank).takeWhile inside with
    | nil => rfl
    | cons c f =>
      have space := field_begins l first
      cases rest : l.dropWhile blank with
      | nil =>
        rw [rest] at first
        cases first
      | cons d s =>
        rw [rest] at first notComment
        have same : d = c := by
          by_cases within : inside d = true
          · rw [List.takeWhile_cons_of_pos within] at first
            exact (List.cons.inj first).1
          · rw [List.takeWhile_cons_of_neg within] at first
            cases first
        rw [rstrip_cons f space, ← same]
        simpa [comment] using notComment
  rw [← (first_field l).2]
  unfold uncommented
  cases tab : l.dropWhile inside with
  | nil =>
    rw [parts_last tab, List.takeWhile_cons_of_pos (by simp [other])]
    rfl
  | cons c rest => rw [parts_tab tab, List.takeWhile_cons_of_pos (by simp [other])]

theorem textOf_iff (l : Text) (starts : n = 0 → l.head?.any isspace = false) :
    textOf n (some l) = idealOf n (uncommented l) ↔ Plain n l := by
  induction n generalizing l with
  | zero =>
    refine iff_of_true ?_ trivial
    have ideal := idealOf_nothing 0 (starts rfl)
    have left : idealOf 0 (uncommented l) = ([], false) ↔ trailingText (some l) = false := by
      rw [trailingText_nothing]
      exact ideal
    have pairs : idealOf 0 (uncommented l) = ([], (idealOf 0 (uncommented l)).2) := rfl
    rw [pairs, Prod.mk.injEq] at left
    have flags : (idealOf 0 (uncommented l)).2 = false ↔ trailingText (some l) = false := by
      simpa using left
    rw [pairs]
    have text : textOf 0 (some l) = ([], trailingText (some l)) := rfl
    rw [text, Prod.mk.injEq]
    refine ⟨rfl, ?_⟩
    cases given_ : trailingText (some l) with
    | false => exact (flags.mpr given_).symm
    | true => exact (eq_true_of_ne_false fun none_ => by simp [flags.mp none_] at given_).symm
  | succ n ih =>
    by_cases nothing : l.dropWhile blank = [] ∨ comment (l.dropWhile blank) = true
    · have taken : textOf (n + 1) (some l) = (List.replicate (n + 1) none, false) := by
        rw [textOf, callsText, fieldText_nothing nothing]
        dsimp only
        rw [callsText_none]
        rfl
      rw [taken, idealOf_blank (n + 1) nothing]
      refine iff_of_true rfl ?_
      rcases nothing with empty | mark
      · exact Or.inl empty
      · exact Or.inr (Or.inl mark)
    · have ⟨some_, other⟩ := not_or.mp nothing
      have notComment := eq_false_of_ne_true other
      have plain : Plain (n + 1) l ↔
          rstrip ((l.dropWhile blank).takeWhile inside) = (l.dropWhile blank).takeWhile inside ∧
            ∀ c rest, (l.dropWhile blank).dropWhile inside = c :: rest →
              if rest.head?.any isspace then Nothing rest else Plain n rest := by
        rw [Plain]
        simp only [some_, other, false_or, Bool.false_eq_true]
      have taken : textOf (n + 1) (some l) = ((fieldText l).1 :: (textOf n (fieldText l).2).1,
          (textOf n (fieldText l).2).2) := rfl
      rw [plain, taken, fieldText_some some_ notComment, uncommented_field notComment, idealOf_cons,
        Prod.mk.injEq, List.cons.injEq, and_assoc, given_rstrip, ← Prod.ext_iff]
      apply and_congr_right
      intro _
      cases tab : (l.dropWhile blank).dropWhile inside with
      | nil =>
        dsimp only
        rw [textOf_nil, idealOf_nil]
        exact iff_of_true rfl fun c rest same => by cases same
      | cons c rest =>
        have following : (∀ c' rest', c :: rest = c' :: rest' →
            if rest'.head?.any isspace then Nothing rest' else Plain n rest') ↔
            if rest.head?.any isspace then Nothing rest else Plain n rest := by
          constructor
          · intro all
            exact all c rest rfl
          · intro one c' rest' same
            cases same
            exact one
        dsimp only
        rw [following]
        have begins : (rest.dropWhile isspace).head?.any isspace = false := by
          have stops := List.head?_dropWhile_not isspace rest
          cases first : (rest.dropWhile isspace).head? with
          | none => rfl
          | some d =>
            rw [first] at stops
            simpa using stops
        split_ifs with space
        · rw [textOf_nil, eq_comm, idealOf_nothing n begins]
          exact Iff.rfl
        · have kept : rest.dropWhile isspace = rest := by
            cases rest with
            | nil => rfl
            | cons d rest => exact List.dropWhile_cons_of_neg (by simpa using space)
          rw [kept]
          exact ih rest fun _ => eq_false_of_ne_true space

theorem normalise_last (noTab : l.dropWhile inside = []) : normalise l = rstrip (l.takeWhile inside) := by
  rw [normalise]
  split
  · exact List.append_nil _
  · next same =>
      rw [noTab] at same
      cases same

theorem normalise_tab (tab : l.dropWhile inside = c :: rest) :
    normalise l = rstrip (l.takeWhile inside) ++ '\t' :: normalise (rest.dropWhile isspace) := by
  rw [normalise]
  split
  · next same =>
      rw [tab] at same
      cases same
  · next same =>
      rw [tab] at same
      cases same
      rfl

theorem behind_shorter (tab : l.dropWhile inside = c :: rest) :
    (rest.dropWhile isspace).length < l.length := by
  have kept := List.length_dropWhile_le inside l
  have less := List.length_dropWhile_le isspace rest
  rw [tab, List.length_cons] at kept
  omega

theorem fields_induction {motive : Text → Prop} (last : ∀ l, l.dropWhile inside = [] → motive l)
    (tab : ∀ l c rest, l.dropWhile inside = c :: rest → motive (rest.dropWhile isspace) → motive l)
    (l : Text) : motive l := by
  induction size : l.length using Nat.strong_induction_on generalizing l with
  | _ n ih =>
    cases behind : l.dropWhile inside with
    | nil => exact last l behind
    | cons c rest =>
      have shorter := behind_shorter behind
      rw [size] at shorter
      exact tab l c rest behind (ih _ shorter _ rfl)

theorem dropWhile_starts (l : Text) : (l.dropWhile isspace).head?.any isspace = false := by
  have stops := List.head?_dropWhile_not isspace l
  cases first : (l.dropWhile isspace).head? with
  | none => rfl
  | some d =>
    rw [first] at stops
    simpa using stops

theorem dropWhile_started (starts : l.head?.any isspace = false) : l.dropWhile isspace = l := by
  cases l with
  | nil => rfl
  | cons c l => exact List.dropWhile_cons_of_neg (by simpa using starts)

theorem normalise_starts (starts : l.head?.any isspace = false) :
    (normalise l).head?.any isspace = false := by
  cases l with
  | nil => rw [normalise_last rfl]; rfl
  | cons c l =>
    have takes := (started l starts).2
    have begins : ∃ more, normalise (c :: l) = c :: more := by
      cases tab : (c :: l).dropWhile inside with
      | nil => exact ⟨_, by rw [normalise_last tab, takes, rstrip_cons _ starts]⟩
      | cons d rest =>
        exact ⟨_, by rw [normalise_tab tab, takes, rstrip_cons _ starts, List.cons_append]⟩
    have ⟨more, same⟩ := begins
    rw [same]
    exact starts

theorem normalise_cut {l more : Text} (whole : normalise l = rstrip (l.takeWhile inside) ++ more)
    (tabbed : more = [] ∨ ∃ rest, more = '\t' :: rest) :
    (normalise l).takeWhile inside = rstrip (l.takeWhile inside) ∧ (normalise l).dropWhile inside = more := by
  have members : ∀ c ∈ rstrip (l.takeWhile inside), inside c = true :=
    fun c member => List.mem_takeWhile_imp (mem_rstrip member)
  rw [whole, List.takeWhile_append_of_pos members, List.dropWhile_append_of_pos members]
  rcases tabbed with rfl | ⟨rest, rfl⟩
  · exact ⟨List.append_nil _, rfl⟩
  · exact ⟨List.append_nil _, rfl⟩

theorem normalise_whole (noTab : l.dropWhile inside = []) :
    (normalise l).takeWhile inside = rstrip (l.takeWhile inside) ∧ (normalise l).dropWhile inside = [] := by
  have whole : normalise l = rstrip (l.takeWhile inside) ++ [] := by
    rw [normalise_last noTab, List.append_nil]
  exact normalise_cut whole (Or.inl rfl)

theorem parts_normalise (l : Text) : parts (normalise l) = parts l := by
  induction l using fields_induction with
  | last l noTab =>
    have ⟨takes, drops⟩ := normalise_whole noTab
    rw [parts_last drops, parts_last noTab, ← (first_field _).1, ← (first_field l).1, takes,
      dropWhile_rstrip, rstrip_rstrip]
  | tab l c rest tab ih =>
    have ⟨takes, drops⟩ := normalise_cut (normalise_tab tab) (Or.inr ⟨_, rfl⟩)
    have starts := normalise_starts (dropWhile_starts rest)
    rw [parts_tab drops, parts_tab tab, ← (first_field _).1, ← (first_field l).1, takes,
      dropWhile_rstrip, rstrip_rstrip, dropWhile_started starts, ih]

theorem mem_normalise (member : c ∈ normalise l) : c ∈ l ∨ c = '\t' := by
  induction l using fields_induction with
  | last l noTab =>
    rw [normalise_last noTab] at member
    exact Or.inl ((List.takeWhile_sublist _).subset (mem_rstrip member))
  | tab l d rest tab ih =>
    rw [normalise_tab tab, List.mem_append, List.mem_cons] at member
    rcases member with first | same | more
    · exact Or.inl ((List.takeWhile_sublist _).subset (mem_rstrip first))
    · exact Or.inr same
    · rcases ih more with old | same
      · left
        have behind : c ∈ l.dropWhile inside := by
          rw [tab]
          exact List.mem_cons_of_mem _ ((List.dropWhile_sublist _).subset old)
        exact (List.dropWhile_sublist _).subset behind
      · exact Or.inr same

theorem normal_field {l g : Text} (takes : (normalise l).takeWhile inside = rstrip g) :
    rstrip (((normalise l).dropWhile blank).takeWhile inside) =
      ((normalise l).dropWhile blank).takeWhile inside := by
  rw [← (first_field (normalise l)).1, takes, ← dropWhile_rstrip, rstrip_rstrip]

theorem plain_normalise (l : Text) : ∀ n, Plain n (normalise l) := by
  induction l using fields_induction with
  | last l noTab =>
    intro n
    have ⟨takes, drops⟩ := normalise_whole noTab
    cases n with
    | zero => trivial
    | succ n =>
      refine Or.inr (Or.inr ⟨normal_field takes, ?_⟩)
      intro c rest same
      rw [← (first_field _).2, drops] at same
      cases same
  | tab l c rest tab ih =>
    intro n
    have ⟨takes, drops⟩ := normalise_cut (normalise_tab tab) (Or.inr ⟨_, rfl⟩)
    have starts := normalise_starts (dropWhile_starts rest)
    cases n with
    | zero => trivial
    | succ n =>
      refine Or.inr (Or.inr ⟨normal_field takes, ?_⟩)
      intro c' rest' same
      rw [← (first_field _).2, drops] at same
      cases same
      rw [if_neg (by simp [starts])]
      exact ih n

/-- A line is split correctly if and only if it is plain. -/
theorem correct_iff_plain (line : Line) : Correct line.text ↔ Plain 3 line.text := by
  have clean : '\x00' ∉ normalise line.text := by
    intro member
    rcases mem_normalise member with old | same
    · exact line.clean old
    · cases same
  have texts : split line.text = textOf 3 (some line.text) := split_callsText line.clean
  have texts' : split (normalise line.text) = textOf 3 (some (normalise line.text)) := split_callsText clean
  have fields (l : Text) : ideal l = idealOf 3 (uncommented l) := rfl
  have same : uncommented (normalise line.text) = uncommented line.text := by
    unfold uncommented
    rw [parts_normalise]
  have normal := (textOf_iff 3 (normalise line.text) nofun).mpr (plain_normalise line.text 3)
  have own := textOf_iff 3 line.text nofun
  unfold Correct
  rw [texts, texts', fields, normal, same]
  constructor
  · rintro ⟨same, _⟩
    exact own.mp same
  · intro plain
    have ideal_ := own.mpr plain
    exact ⟨ideal_, ideal_, extract_writes line.clean⟩

/-- A second tab erases what stands behind it. -/
theorem second_tab_erases : ¬ ∀ line : Line, Correct line.text := by
  intro all
  have ⟨same, _⟩ := all ⟨['a', '\t', '\t', 'b'], by decide⟩
  rw [split_callsText (by decide)] at same
  rcases (textOf_iff 3 ['a', '\t', '\t', 'b'] nofun).mp same with empty | mark | ⟨_, behind⟩
  · exact absurd empty (by decide)
  · exact absurd mark (by decide)
  · have nothing := behind '\t' ['\t', 'b'] (by decide)
    rw [if_pos (by decide)] at nothing
    rcases nothing with empty | mark
    · exact absurd empty (by decide)
    · exact absurd mark (by decide)

end Scc.As.LineFields
