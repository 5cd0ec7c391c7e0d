import Mathlib.Data.List.Infix
import Scc.Cc1.MacroArgument

/-!
# Literals that do not survive

A literal whose bytes are written back without their escape sequences is read as
another one. The bytes in front of the first quote, backslash or zero byte stay as
they are, and what is read behind them differs, also when it is written and read
once more.
-/

namespace Scc.Cc1.Lex

set_option autoImplicit false

/-- A character that ends a word of a literal. -/
def stops (c : Char) : Bool := c = '"' || c = ' ' || c = '\x00'

def word (bytes : Text) : Text := bytes.takeWhile fun c => !stops c

/-- The text holds the word, or ends in it, or goes on with a stop. -/
def Upto (start input : Text) : Prop :=
  input <+: start ∨ ∃ stop after, (stop = '"' ∨ stop = ' ') ∧ input = start ++ stop :: after

/-- The text behind the opening quote of a literal that is written back. A zero byte
cuts it off, and then a blank follows or nothing. -/
def Behind (bytes input : Text) : Prop :=
  if '\x00' ∈ bytes then input <+: cstring bytes ∨ ∃ after, input = cstring bytes ++ ' ' :: after
  else ∃ after, input = bytes ++ '"' :: after

variable {c : Char} {room : Nat}

theorem stops_false (inside : stops c = false) : c ≠ '"' ∧ c ≠ ' ' ∧ c ≠ '\x00' := by
  simpa [stops, and_assoc] using inside

theorem string_empty (disescape esc : Bool) (room : Nat) : string disescape room esc [] = none := by
  rw [string]

theorem word_cons (bytes : Text) : word (c :: bytes) = if stops c = true then [] else c :: word bytes := by
  unfold word
  rw [List.takeWhile_cons]
  cases stops c <;> rfl

theorem word_cons_length (c : Char) (bytes : Text) :
    (word (c :: bytes)).length ≤ (word bytes).length + 1 := by
  rw [word_cons]
  split_ifs
  · exact Nat.zero_le _
  · exact Nat.le_refl _

theorem Upto.cons {c : Char} {start input : Text} (upto : Upto (c :: start) input) :
    input = [] ∨ ∃ input', input = c :: input' ∧ Upto start input' := by
  rcases upto with isPrefix | ⟨stop, after, isStop, rfl⟩
  · cases input with
    | nil => exact Or.inl rfl
    | cons d input =>
      rcases List.cons_prefix_cons.mp isPrefix with ⟨rfl, later⟩
      exact Or.inr ⟨input, rfl, Or.inl later⟩
  · exact Or.inr ⟨start ++ stop :: after, rfl, Or.inr ⟨stop, after, isStop, rfl⟩⟩

theorem Upto.drop {start input : Text} (upto : Upto start input) {n : Nat}
    (inside : n ≤ start.length) : Upto (start.drop n) (input.drop n) := by
  rcases upto with isPrefix | ⟨stop, after, isStop, rfl⟩
  · exact Or.inl (List.IsPrefix.drop isPrefix n)
  · apply Or.inr
    exact ⟨stop, after, isStop, List.drop_append_of_le_length inside⟩

theorem escape_upto {p : Char} {start input : Text} {value n : Nat}
    (upto : Upto (p :: start) input) (done : escape input = some (value, n)) :
    1 ≤ n ∧ n ≤ (p :: start).length := by
  rcases upto with isPrefix | ⟨stop, after, isStop, rfl⟩
  · cases input with
    | nil => cases done
    | cons q input =>
      rcases escape_taken done with ⟨_, more, same, inside, _⟩
      have shorter := isPrefix.length_le
      simp only [List.length_cons] at shorter ⊢
      omega
  · have isStop' : Stop stop := by
      rcases isStop with rfl | rfl
      · exact Or.inl rfl
      · exact Or.inr (Or.inr rfl)
    rcases escape_before isStop' done with ⟨_, more, same, inside, _⟩
    rw [List.length_cons]
    omega

theorem string_word {start input bytes rest : Text}
    (inner : ∀ c ∈ start, stops c = false) (upto : Upto start input)
    (done : string false room false input = some (bytes, rest)) :
    (word bytes).length ≤ start.length ∧ ('\\' ∈ start → (word bytes).length < start.length) := by
  induction hlen : start.length using Nat.strongRecOn generalizing start input room bytes with
  | ind len ih =>
    cases start with
    | nil =>
      have nothing : word bytes = [] := by
        rcases upto with isPrefix | ⟨stop, after, isStop, rfl⟩
        · rw [List.prefix_nil.mp isPrefix, string_empty] at done
          cases done
        · rcases isStop with rfl | rfl
          · rw [List.nil_append, string, if_pos (by simp)] at done
            cases done
            rfl
          · rcases string_plain_some (by simp) (by simp) done with ⟨_, bytes', _, _, rfl, _⟩
            rfl
      rw [nothing]
      exact ⟨Nat.zero_le _, fun member => by cases member⟩
    | cons c start =>
      simp only [List.length_cons] at hlen
      have notStop := stops_false (inner c List.mem_cons_self)
      rcases upto.cons with rfl | ⟨input', rfl, later⟩
      · rw [string_empty] at done
        cases done
      by_cases backslash : c = '\\'
      · subst backslash
        have fewer : (word bytes).length ≤ start.length := by
          rcases string_escape_some rfl done with ⟨less, e, n, bytes', _, escaped, rfl, read⟩
          have longer := word_cons_length (toChar e) bytes'
          cases start with
          | nil =>
            rcases later with isPrefix | ⟨stop, after, isStop, rfl⟩
            · rw [List.prefix_nil.mp isPrefix] at escaped
              cases escaped
            · rcases isStop with rfl | rfl
              · cases escaped
                exact Nat.le_refl 0
              · cases escaped
                exact Nat.le_refl 0
          | cons p start =>
            have taken := escape_upto later escaped
            have behind := ih ((p :: start).drop n).length
              (by rw [List.length_drop]; omega)
              (fun d member => inner d (List.mem_cons_of_mem _ (List.mem_of_mem_drop member)))
              (later.drop taken.2) read rfl
            rw [List.length_drop] at behind
            omega
        exact ⟨by omega, fun _ => by omega⟩
      · rcases string_plain_some (by simp [notStop]) (by simp [backslash]) done with
          ⟨less, bytes', _, _, rfl, read⟩
        simp only [backslash, decide_false, Bool.false_and] at read
        have behind := ih start.length (by omega)
          (fun d member => inner d (List.mem_cons_of_mem c member)) later read rfl
        have longer := word_cons_length c bytes'
        constructor
        · omega
        · intro member
          rcases List.mem_cons.mp member with same | inStart
          · exact absurd same.symm backslash
          · have shorter := behind.2 inStart
            omega

theorem cstring_cons (notNul : c ≠ '\x00') (text : Text) : cstring (c :: text) = c :: cstring text := by
  simp [cstring, notNul]

theorem Behind.cons {c : Char} {bytes input : Text} (notNul : c ≠ '\x00')
    (behind : Behind (c :: bytes) input) :
    input = [] ∨ ∃ input', input = c :: input' ∧ Behind bytes input' := by
  unfold Behind at behind ⊢
  have nul : '\x00' ∈ c :: bytes ↔ '\x00' ∈ bytes := by simp [notNul.symm]
  simp only [nul, cstring_cons notNul] at behind
  split_ifs at behind ⊢ with cut
  · rcases behind with isPrefix | ⟨after, rfl⟩
    · cases input with
      | nil => exact Or.inl rfl
      | cons d input =>
        rcases List.cons_prefix_cons.mp isPrefix with ⟨rfl, later⟩
        exact Or.inr ⟨input, rfl, Or.inl later⟩
    · exact Or.inr ⟨_, rfl, Or.inr ⟨after, rfl⟩⟩
  · rcases behind with ⟨after, rfl⟩
    exact Or.inr ⟨_, rfl, after, rfl⟩

theorem Behind.upto {bytes input : Text} (behind : Behind bytes input) : Upto (word bytes) input := by
  induction bytes generalizing input with
  | nil =>
    rcases behind with ⟨after, rfl⟩
    exact Or.inr ⟨'"', after, Or.inl rfl, rfl⟩
  | cons c bytes ih =>
    rw [word_cons]
    by_cases nul : c = '\x00'
    · subst nul
      rw [if_pos (by decide)]
      unfold Behind at behind
      rw [if_pos List.mem_cons_self] at behind
      rcases behind with isPrefix | ⟨after, rfl⟩
      · exact Or.inl isPrefix
      · exact Or.inr ⟨' ', after, Or.inr rfl, rfl⟩
    · rcases behind.cons nul with rfl | ⟨input', rfl, later⟩
      · exact Or.inl List.nil_prefix
      · split_ifs with stop
        · have isStop : c = '"' ∨ c = ' ' := by simpa [stops, nul] using stop
          exact Or.inr ⟨c, input', isStop, rfl⟩
        · rcases ih later with isPrefix | ⟨stop, after, isStop, rfl⟩
          · exact Or.inl (List.cons_prefix_cons.mpr ⟨rfl, isPrefix⟩)
          · exact Or.inr ⟨stop, after, isStop, rfl⟩

theorem Behind.start {start bytes input read rest : Text}
    (plain : start.all verbatim = true) (behind : Behind (start ++ bytes) input)
    (done : string false room false input = some (read, rest)) :
    ∃ room' input' read', read = start ++ read' ∧ Behind bytes input' ∧
      string false room' false input' = some (read', rest) := by
  induction start generalizing input room read with
  | nil => exact ⟨room, input, read, rfl, behind, done⟩
  | cons c start ih =>
    rw [List.all_cons, Bool.and_eq_true] at plain
    have spec := verbatim_spec plain.1
    rcases behind.cons spec.2.2 with rfl | ⟨input', rfl, later⟩
    · rw [string_empty] at done
      cases done
    · rcases string_plain_some (by simp [spec]) (by simp [spec]) done with
        ⟨less, bytes', _, _, rfl, inner⟩
      simp only [spec, decide_false, Bool.false_and] at inner
      rcases ih plain.2 later inner with ⟨room', input'', read', rfl, found⟩
      exact ⟨room', input'', read', rfl, found⟩

/-- What is read instead of bytes that do not begin with a plain one. -/
def Off (bytes read : Text) : Prop :=
  (∃ c after, bytes = c :: after ∧ verbatim c = false) ∧
    (read = [] ∨ read.head? = some ' ' ∨ (word read).length < (word bytes).length)

/-- The literal with its plain start and something else behind it. -/
def Mangled (bytes read : Text) : Prop :=
  ∃ start bytes' read', start.all verbatim = true ∧ bytes = start ++ bytes' ∧
    read = start ++ read' ∧ Off bytes' read'

theorem Off.ne {bytes read : Text} (off : Off bytes read) : read ≠ bytes := by
  rcases off with ⟨⟨c, after, rfl, special⟩, rfl | blank | shorter⟩
  · simp
  · rintro rfl
    cases blank
    cases special
  · rintro rfl
    exact absurd shorter (Nat.lt_irrefl _)

theorem Mangled.ne {bytes read : Text} (mangled : Mangled bytes read) : read ≠ bytes := by
  rcases mangled with ⟨start, bytes', read', _, rfl, rfl, off⟩
  intro same
  exact off.ne (List.append_cancel_left same)

theorem off_of_behind {after input read rest : Text}
    (special : verbatim c = false) (behind : Behind (c :: after) input)
    (done : string false room false input = some (read, rest)) : Off (c :: after) read := by
  constructor
  · exact ⟨c, after, rfl, special⟩
  by_cases nul : c = '\x00'
  · subst nul
    unfold Behind at behind
    rw [if_pos List.mem_cons_self] at behind
    rcases behind with isPrefix | ⟨later, rfl⟩
    · rw [List.prefix_nil.mp isPrefix, string_empty] at done
      cases done
    · rcases string_plain_some (by simp) (by simp) done with ⟨_, bytes', _, _, rfl, _⟩
      exact Or.inr (Or.inl rfl)
  · by_cases quote : c = '"'
    · subst quote
      rcases behind.cons nul with rfl | ⟨input', rfl, later⟩
      · rw [string_empty] at done
        cases done
      · rw [string, if_pos (by simp)] at done
        cases done
        exact Or.inl rfl
    · have backslash : c = '\\' := by
        simpa [verbatim, quote, nul] using special
      subst backslash
      have inner : ∀ d ∈ word ('\\' :: after), stops d = false := by
        intro d member
        simpa using List.mem_takeWhile_imp member
      have inWord : '\\' ∈ word ('\\' :: after) := by
        rw [word_cons, if_neg (by decide)]
        exact List.mem_cons_self
      exact Or.inr (Or.inr ((string_word inner behind.upto done).2 inWord))

theorem mangled_of_behind {bytes input read rest : Text}
    (notPlain : bytes.all verbatim = false) (behind : Behind bytes input)
    (done : string false room false input = some (read, rest)) : Mangled bytes read := by
  have parts : bytes.takeWhile verbatim ++ bytes.dropWhile verbatim = bytes :=
    List.takeWhile_append_dropWhile
  have plain : (bytes.takeWhile verbatim).all verbatim = true :=
    List.all_eq_true.mpr fun c member => List.mem_takeWhile_imp member
  rw [← parts] at behind
  rcases behind.start plain done with ⟨room', input', read', rfl, later, inner⟩
  cases special : bytes.dropWhile verbatim with
  | nil =>
    have allPlain : bytes.all verbatim = true :=
      List.all_eq_true.mpr (List.dropWhile_eq_nil_iff.mp special)
    rw [allPlain] at notPlain
    cases notPlain
  | cons c after =>
    have fails : verbatim c = false := by
      have head := List.head?_dropWhile_not verbatim bytes
      rw [special] at head
      simpa using head
    rw [special] at later
    refine ⟨bytes.takeWhile verbatim, c :: after, read', plain, ?_, rfl, off_of_behind fails later inner⟩
    rw [← special, parts]

theorem Off.again {bytes read input read' rest : Text} (off : Off bytes read)
    (behind : Behind read input) (done : string false room false input = some (read', rest)) :
    Off bytes read' := by
  rcases off with ⟨special, rfl | blank | shorter⟩
  · rcases behind with ⟨after, rfl⟩
    rw [List.nil_append, string, if_pos (by simp)] at done
    cases done
    exact ⟨special, Or.inl rfl⟩
  · rcases List.head?_eq_some_iff.mp blank with ⟨tail, rfl⟩
    rcases behind.cons (by decide) with rfl | ⟨input', rfl, later⟩
    · rw [string_empty] at done
      cases done
    · rcases string_plain_some (by simp) (by simp) done with ⟨_, bytes', _, _, rfl, _⟩
      exact ⟨special, Or.inr (Or.inl rfl)⟩
  · have inner : ∀ d ∈ word read, stops d = false := by
      intro d member
      simpa using List.mem_takeWhile_imp member
    have fewer := (string_word inner behind.upto done).1
    exact ⟨special, Or.inr (Or.inr (Nat.lt_of_le_of_lt fewer shorter))⟩

theorem Mangled.again {bytes read input read' rest : Text}
    (mangled : Mangled bytes read) (behind : Behind read input)
    (done : string false room false input = some (read', rest)) : Mangled bytes read' := by
  rcases mangled with ⟨start, bytes', inner, plain, same, rfl, off⟩
  rcases behind.start plain done with ⟨room', input', read'', rfl, later, read⟩
  exact ⟨start, bytes', read'', plain, same, rfl, off.again later read⟩

end Scc.Cc1.Lex
