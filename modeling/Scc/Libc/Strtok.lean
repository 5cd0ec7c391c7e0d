import Mathlib.Data.List.TakeWhile

/-!
# Cutting a string into tokens

`strtok()` keeps a pointer to what is left of a string from one call to the next, and puts a NUL behind
each token. A pointer is an index of the memory that holds the string.
-/

namespace Scc.Libc.Strtok

set_option autoImplicit false

/-- `map[ch]` after the loop over a set of characters. -/
def map (set : List UInt8) : UInt8 → Bool :=
  set.foldl (fun map ch => Function.update map ch true) fun _ => false

/-- How many characters there are before the NUL or one that is not accepted, without a result when the
memory ends before. -/
def span (accepted : UInt8 → Bool) : List UInt8 → Option Nat
  | [] => none
  | ch :: s => if ch ≠ 0 ∧ accepted ch = true then (span accepted s).map (· + 1) else some 0

def strspn (s accept : List UInt8) : Option Nat := span (map accept) s

def strcspn (s reject : List UInt8) : Option Nat := span (fun ch => !map reject ch) s

structure State where
  memory : List UInt8
  line : Option Nat
deriving DecidableEq

/-- One call, with what it returns and the state after it. -/
def strtok (st : State) (s1 : Option Nat) (s2 : List UInt8) : Option (Option Nat × State) :=
  match s1.or st.line with
  | none => some (none, st)
  | some line =>
    (strspn (st.memory.drop line) s2).bind fun n =>
      let s1 := line + n
      if st.memory[s1]? = some 0 then some (none, { st with line := none })
      else
        (strcspn (st.memory.drop s1) s2).map fun m =>
          let line := s1 + m
          if st.memory[line]? = some 0 then (some s1, { st with line := none })
          else (some s1, ⟨st.memory.set line 0, some (line + 1)⟩)

/-- A call for each set of delimiters, with `NULL` in all calls after the first. -/
def calls : State → Option Nat → List (List UInt8) → Option (List (Option Nat) × State)
  | st, _, [] => some ([], st)
  | st, s1, s2 :: sets =>
    (strtok st s1 s2).bind fun (r, st) => (calls st none sets).map fun (rs, last) => (r :: rs, last)

structure Token where
  pos : Nat
  text : List UInt8
  /-- Whether a delimiter ends it, and not the string. -/
  delimited : Bool
deriving DecidableEq

def Token.stop (t : Token) : Nat := t.pos + t.text.length

/-- The tokens of a text: each is a run without delimiters between two delimiters, or an end of the text, and
what is behind it is cut with the next set. -/
inductive Cuts : Nat → List UInt8 → List (List UInt8) → List Token → Prop
  | done (pos : Nat) (text : List UInt8) : Cuts pos text [] []
  | none {pos : Nat} {text : List UInt8} {set : List UInt8} {sets : List (List UInt8)} (all : ∀ c ∈ text, c ∈ set) :
      Cuts pos text (set :: sets) []
  | last {pos : Nat} {lead text : List UInt8} {set : List UInt8} {sets : List (List UInt8)} (skipped : ∀ c ∈ lead, c ∈ set)
      (some_ : text ≠ []) (run : ∀ c ∈ text, c ∉ set) :
      Cuts pos (lead ++ text) (set :: sets) [⟨pos + lead.length, text, false⟩]
  | cut {pos : Nat} {lead text rest : List UInt8} {c : UInt8} {set : List UInt8} {sets : List (List UInt8)}
      {tokens : List Token} (skipped : ∀ c ∈ lead, c ∈ set) (some_ : text ≠ []) (run : ∀ c ∈ text, c ∉ set)
      (delimiter : c ∈ set) (onward : Cuts (pos + lead.length + text.length + 1) rest sets tokens) :
      Cuts pos (lead ++ text ++ c :: rest) (set :: sets) (⟨pos + lead.length, text, true⟩ :: tokens)

structure Buffer where
  before : List UInt8
  text : List UInt8
  behind : List UInt8
  text_nul : 0 ∉ text

def Buffer.memory (b : Buffer) : List UInt8 := b.before ++ (b.text ++ 0 :: b.behind)

/-- The results and the memory after calls with these sets. -/
structure Tokenizes (b : Buffer) (sets : List (List UInt8)) (results : List (Option Nat)) (memory : List UInt8)
    (tokens : List Token) : Prop where
  cuts : Cuts b.before.length b.text sets tokens
  /-- The tokens and then `NULL`. -/
  results : results = tokens.map (fun t => some t.pos) ++ List.replicate (sets.length - tokens.length) none
  /-- Nothing is changed but the delimiters that end a token. -/
  changed : ∀ i, memory[i]? = if ∃ t ∈ tokens, t.delimited = true ∧ i = t.stop then some 0 else b.memory[i]?
  ended : ∀ t ∈ tokens, (∀ i < t.text.length, memory[t.pos + i]? = t.text[i]?) ∧ memory[t.stop]? = some 0

theorem map_iff (set : List UInt8) (c : UInt8) : map set c = true ↔ c ∈ set := by
  have table (set : List UInt8) (old : UInt8 → Bool) :
      set.foldl (fun map ch => Function.update map ch true) old c = true ↔ c ∈ set ∨ old c = true := by
    induction set generalizing old with
    | nil => simp
    | cons d set ih =>
      rw [List.foldl_cons, ih]
      by_cases same : c = d
      · subst same
        simp
      · rw [Function.update_of_ne same]
        simp [same]
  unfold map
  rw [table]
  simp

variable {lead set text : List UInt8}

theorem span_stop {accepted : UInt8 → Bool} (all : ∀ c ∈ lead, c ≠ 0 ∧ accepted c = true)
    {stop : UInt8} (stops : stop = 0 ∨ accepted stop = false) (rest : List UInt8) :
    span accepted (lead ++ stop :: rest) = some lead.length := by
  induction lead with
  | nil =>
    refine if_neg fun both => ?_
    rcases stops with nul | refused
    · exact both.1 nul
    · rw [refused] at both
      cases both.2
  | cons c lead ih =>
    rw [List.forall_mem_cons] at all
    have step : span accepted (c :: lead ++ stop :: rest) = (span accepted (lead ++ stop :: rest)).map (· + 1) :=
      if_pos all.1
    rw [step, ih all.2]
    rfl

theorem strspn_stop (nul : 0 ∉ lead) (all : ∀ c ∈ lead, c ∈ set) {stop : UInt8}
    (stops : stop = 0 ∨ stop ∉ set) (rest : List UInt8) : strspn (lead ++ stop :: rest) set = some lead.length := by
  refine span_stop (fun c member => ⟨fun same => nul (same ▸ member), (map_iff set c).mpr (all c member)⟩) ?_ rest
  rw [Bool.eq_false_iff, Ne, map_iff]
  exact stops

theorem strcspn_stop {set lead : List UInt8} (nul : 0 ∉ lead) (all : ∀ c ∈ lead, c ∉ set) {stop : UInt8}
    (stops : stop = 0 ∨ stop ∈ set) (rest : List UInt8) : strcspn (lead ++ stop :: rest) set = some lead.length := by
  refine span_stop (fun c member => ⟨fun same => nul (same ▸ member), ?_⟩) ?_ rest
  · rw [Bool.not_eq_true', Bool.eq_false_iff, Ne, map_iff]
    exact all c member
  · rw [Bool.not_eq_false', map_iff]
    exact stops

theorem run_split (p : UInt8 → Prop) [DecidablePred p] (text : List UInt8) :
    ∃ lead rest, text = lead ++ rest ∧ (∀ c ∈ lead, p c) ∧ ∀ c ∈ rest.head?, ¬ p c := by
  refine ⟨text.takeWhile p, text.dropWhile p, (List.takeWhile_append_dropWhile).symm, fun c member => ?_, fun c member => ?_⟩
  · simpa using List.mem_takeWhile_imp member
  · have stops := List.head?_dropWhile_not (fun c => decide (p c)) text
    cases first : (text.dropWhile fun c => decide (p c)).head? with
    | none =>
      rw [first] at member
      cases member
    | some d =>
      rw [first] at stops member
      cases member
      simpa using stops

theorem calls_none (memory : List UInt8) (sets : List (List UInt8)) :
    calls ⟨memory, none⟩ none sets = some (List.replicate sets.length none, ⟨memory, none⟩) := by
  induction sets with
  | nil => rfl
  | cons set sets ih =>
    have nothing : strtok ⟨memory, none⟩ none set = some (none, ⟨memory, none⟩) := rfl
    unfold calls
    rw [nothing, Option.bind_some]
    dsimp only
    rw [ih]
    rfl

theorem Cuts.pos_le {pos : Nat} {sets : List (List UInt8)} {tokens : List Token}
    (cuts : Cuts pos text sets tokens) : ∀ t ∈ tokens, pos ≤ t.pos := by
  induction cuts with
  | done => simp
  | none => simp
  | last => simp
  | cut _ _ _ _ _ ih =>
    rw [List.forall_mem_cons]
    refine ⟨by simp, fun t member => ?_⟩
    have later := ih t member
    omega

section Step

variable {before lead text rest behind : List UInt8} {st : State} {s1 : Option Nat} {set : List UInt8}

theorem strtok_none (line : s1.or st.line = some before.length) (memory : st.memory = before ++ (text ++ 0 :: behind))
    (nul : 0 ∉ text) (all : ∀ c ∈ text, c ∈ set) : strtok st s1 set = some (none, ⟨st.memory, none⟩) := by
  have skipped := strspn_stop nul all (.inl rfl) behind
  unfold strtok
  rw [line]
  dsimp only
  rw [memory, List.drop_left, skipped, Option.bind_some]
  simp

theorem strtok_begin (line : s1.or st.line = some before.length)
    (memory : st.memory = before ++ (lead ++ (text ++ 0 :: behind))) (nul : 0 ∉ lead) (nul' : 0 ∉ text)
    (skipped : ∀ c ∈ lead, c ∈ set) (some_ : text ≠ []) (first : ∀ c ∈ text.head?, c ∉ set) :
    strtok st s1 set = (strcspn (text ++ 0 :: behind) set).map fun m =>
      if st.memory[before.length + lead.length + m]? = some 0 then
        (some (before.length + lead.length), { st with line := none })
      else
        (some (before.length + lead.length),
          ⟨st.memory.set (before.length + lead.length + m) 0, some (before.length + lead.length + m + 1)⟩) := by
  cases text with
  | nil => exact absurd rfl some_
  | cons c text =>
    have other : c ∉ set := first c rfl
    have leads := strspn_stop nul skipped (.inr other) (text ++ 0 :: behind)
    have here : st.memory[before.length + lead.length]? = some c := by
      rw [memory, List.getElem?_append_right (by omega), List.getElem?_append_right (by omega)]
      simp
    have proper : ¬ some c = some (0 : UInt8) := fun same => nul' (Option.some.inj same ▸ List.mem_cons_self)
    unfold strtok
    rw [line]
    dsimp only
    have onward : st.memory.drop before.length = lead ++ c :: (text ++ 0 :: behind) := by
      rw [memory, List.drop_left]
      rfl
    have onward' : st.memory.drop (before.length + lead.length) = c :: text ++ 0 :: behind := by
      rw [← List.drop_drop, onward, List.drop_left]
      rfl
    rw [onward, leads, Option.bind_some, here, if_neg proper, onward']

end Step

theorem memory_at (before lead text : List UInt8) (i : Nat) :
    (before ++ (lead ++ text))[before.length + lead.length + i]? = text[i]? := by
  rw [List.getElem?_append_right (by omega), List.getElem?_append_right (by omega)]
  congr 1
  omega

theorem calls_cons (st : State) (s1 : Option Nat) (set : List UInt8) (sets : List (List UInt8)) {r : Option Nat}
    {st' : State} (one : strtok st s1 set = some (r, st')) {rs : List (Option Nat)} {last : State}
    (rest : calls st' none sets = some (rs, last)) : calls st s1 (set :: sets) = some (r :: rs, last) := by
  unfold calls
  rw [one, Option.bind_some]
  dsimp only
  rw [rest]
  rfl

theorem tokenize_last {b : Buffer} (sets : List (List UInt8))
    (parts : b.text = lead ++ text) (skipped : ∀ c ∈ lead, c ∈ set) (some_ : text ≠ []) (run : ∀ c ∈ text, c ∉ set) :
    Tokenizes b (set :: sets) (some (b.before.length + lead.length) :: List.replicate sets.length none) b.memory
      [⟨b.before.length + lead.length, text, false⟩] := by
  have whole : b.memory = b.before ++ (lead ++ (text ++ 0 :: b.behind)) := by
    unfold Buffer.memory
    rw [parts, List.append_assoc]
  constructor
  case cuts =>
    rw [parts]
    exact .last skipped some_ run
  case results => rfl
  case changed => simp
  case ended =>
    intro t member
    cases List.mem_singleton.mp member
    constructor
    · intro i inside
      rw [whole, memory_at, List.getElem?_append_left inside]
    · unfold Token.stop
      rw [whole, memory_at, List.getElem?_append_right (Nat.le_refl _), Nat.sub_self]
      rfl

theorem tokenize_cut {b b' : Buffer} {c : UInt8} {sets : List (List UInt8)}
    (parts : b.text = lead ++ text ++ c :: b'.text) (before : b'.before = b.before ++ (lead ++ (text ++ [0])))
    (behind : b'.behind = b.behind) (skipped : ∀ c ∈ lead, c ∈ set) (some_ : text ≠ []) (run : ∀ c ∈ text, c ∉ set)
    (delimiter : c ∈ set) {results : List (Option Nat)} {memory : List UInt8} {tokens : List Token}
    (onward : Tokenizes b' sets results memory tokens) :
    Tokenizes b (set :: sets) (some (b.before.length + lead.length) :: results) memory
      (⟨b.before.length + lead.length, text, true⟩ :: tokens) := by
  have next : b'.before.length = b.before.length + lead.length + text.length + 1 := by
    rw [before]
    simp
    omega
  have later (t : Token) (member : t ∈ tokens) : b.before.length + lead.length + text.length < t.stop := by
    have pos := onward.cuts.pos_le t member
    unfold Token.stop
    omega
  have whole : b.memory = b.before ++ (lead ++ (text ++ c :: (b'.text ++ 0 :: b.behind))) := by
    unfold Buffer.memory
    rw [parts]
    simp
  have whole' : b'.memory = b.before ++ (lead ++ (text ++ 0 :: (b'.text ++ 0 :: b.behind))) := by
    unfold Buffer.memory
    rw [before, behind]
    simp
  have cut_ : b'.memory = b.memory.set (b.before.length + lead.length + text.length) 0 := by
    rw [whole, whole', List.set_append_right _ _ (by omega), List.set_append_right _ _ (by omega),
      List.set_append_right _ _ (by omega)]
    have at_ : b.before.length + lead.length + text.length - b.before.length - lead.length - text.length = 0 := by omega
    rw [at_]
    rfl
  have early {i : Nat} (small : i ≤ b.before.length + lead.length + text.length) : memory[i]? = b'.memory[i]? := by
    rw [onward.changed i]
    refine if_neg ?_
    rintro ⟨t, member, _, same⟩
    have far := later t member
    omega
  constructor
  case cuts =>
    rw [parts]
    refine .cut skipped some_ run delimiter ?_
    rw [← next]
    exact onward.cuts
  case results =>
    rw [onward.results]
    simp
  case changed =>
    intro i
    rw [onward.changed i, cut_]
    have inside : b.before.length + lead.length + text.length < b.memory.length := by
      rw [whole]
      simp only [List.length_append, List.length_cons]
      omega
    by_cases rest : ∃ t ∈ tokens, t.delimited = true ∧ i = t.stop
    · rcases rest with ⟨t, member, delimited, same⟩
      rw [if_pos ⟨t, member, delimited, same⟩, if_pos ⟨t, List.mem_cons_of_mem _ member, delimited, same⟩]
    · rw [if_neg rest, List.getElem?_set]
      by_cases here : b.before.length + lead.length + text.length = i
      · rw [if_pos here, if_pos inside, if_pos ⟨_, List.mem_cons_self, rfl, here.symm⟩]
      · rw [if_neg here, if_neg]
        rintro ⟨t, member, delimited, same⟩
        rcases List.mem_cons.mp member with rfl | member
        · exact here same.symm
        · exact rest ⟨t, member, delimited, same⟩
  case ended =>
    rw [List.forall_mem_cons]
    refine ⟨⟨fun i inside => ?_, ?_⟩, onward.ended⟩
    · dsimp only at inside ⊢
      rw [early (by omega), whole', memory_at, List.getElem?_append_left inside]
    · unfold Token.stop
      rw [early (Nat.le_refl _), whole', memory_at, List.getElem?_append_right (Nat.le_refl _), Nat.sub_self]
      rfl

theorem calls_tokenize (b : Buffer) {st : State} {s1 : Option Nat} (line : s1.or st.line = some b.before.length)
    (memory : st.memory = b.memory) (sets : List (List UInt8)) :
    ∃ results last tokens, calls st s1 sets = some (results, last) ∧ Tokenizes b sets results last.memory tokens := by
  induction sets generalizing b st s1 with
  | nil =>
    refine ⟨[], st, [], rfl, .done _ _, rfl, ?_, by simp⟩
    rw [memory]
    simp
  | cons set sets ih =>
    rcases run_split (· ∈ set) b.text with ⟨lead, rest, parts, skipped, stop⟩
    have nul : 0 ∉ lead ∧ 0 ∉ rest := by
      have nul := b.text_nul
      rw [parts, List.mem_append, not_or] at nul
      exact nul
    have whole : st.memory = b.before ++ (lead ++ (rest ++ 0 :: b.behind)) := by
      rw [memory, Buffer.memory, parts, List.append_assoc]
    by_cases empty : rest = []
    · subst empty
      rw [List.append_nil] at parts
      have none_ := strtok_none line memory b.text_nul (parts ▸ skipped)
      refine ⟨_, _, [], calls_cons st s1 set sets none_ (calls_none st.memory sets), .none (parts ▸ skipped), rfl, ?_, by simp⟩
      rw [memory]
      simp
    rcases run_split (· ∉ set) rest with ⟨text, after, parts', run, stop'⟩
    have nul' : 0 ∉ text ∧ 0 ∉ after := by
      have nul' := nul.2
      rw [parts', List.mem_append, not_or] at nul'
      exact nul'
    have some_ : text ≠ [] := by
      rintro rfl
      rw [List.nil_append] at parts'
      subst parts'
      cases rest with
      | nil => exact empty rfl
      | cons c rest => exact stop' c rfl (stop c rfl)
    have begins := strtok_begin line whole nul.1 nul.2 skipped empty stop
    cases after with
    | nil =>
      rw [List.append_nil] at parts'
      subst parts'
      have ends := @strcspn_stop set _ nul'.1 run _ (.inl rfl) b.behind
      have terminated : st.memory[b.before.length + lead.length + rest.length]? = some 0 := by
        rw [whole, memory_at, List.getElem?_append_right (Nat.le_refl _), Nat.sub_self]
        rfl
      rw [ends, Option.map_some, if_pos terminated] at begins
      have tokenizes := tokenize_last sets parts skipped some_ run
      rw [← memory] at tokenizes
      exact ⟨_, _, _, calls_cons st s1 set sets begins (calls_none st.memory sets), tokenizes⟩
    | cons c after =>
      have delimiter : c ∈ set := not_not.mp (stop' c rfl)
      have ends := strcspn_stop nul'.1 run (.inr delimiter) (after ++ 0 :: b.behind)
      have same : rest ++ 0 :: b.behind = text ++ c :: (after ++ 0 :: b.behind) := by
        rw [parts', List.append_assoc, List.cons_append]
      have proper : ¬ st.memory[b.before.length + lead.length + text.length]? = some 0 := by
        rw [whole, same, memory_at, List.getElem?_append_right (Nat.le_refl _), Nat.sub_self]
        exact fun zero => nul'.2 (Option.some.inj zero ▸ List.mem_cons_self)
      rw [same, ends, Option.map_some, if_neg proper] at begins
      let b' : Buffer := ⟨b.before ++ (lead ++ (text ++ [0])), after, b.behind, fun inside =>
        nul'.2 (List.mem_cons_of_mem _ inside)⟩
      have next : b'.before.length = b.before.length + lead.length + text.length + 1 := by
        simp [b']
        omega
      have memory' : st.memory.set (b.before.length + lead.length + text.length) 0 = b'.memory := by
        rw [whole, same, List.set_append_right _ _ (by omega), List.set_append_right _ _ (by omega),
          List.set_append_right _ _ (by omega)]
        have at_ : b.before.length + lead.length + text.length - b.before.length - lead.length - text.length = 0 := by
          omega
        rw [at_]
        simp [b', Buffer.memory]
      rcases @ih b' ⟨st.memory.set (b.before.length + lead.length + text.length) 0,
        some (b.before.length + lead.length + text.length + 1)⟩ none (congrArg some next.symm) memory' with
        ⟨results, last, tokens, runs, onward⟩
      have split : b.text = lead ++ text ++ c :: b'.text := by rw [parts, parts', List.append_assoc]
      exact ⟨_, _, _, calls_cons st s1 set sets begins runs,
        tokenize_cut split rfl rfl skipped some_ run delimiter onward⟩

end Scc.Libc.Strtok
