import Scc.Ranlib.SymbolRun

/-!
# What the index holds

The index of a library should tell for every name the first member that defines it, and
references should not count. It does when every reference comes before the definition.
-/

namespace Scc.Ranlib

open Scc.Lib Scc.Ar

set_option autoImplicit false

structure Object where
  /-- Where the header of the member ends. -/
  offset : Int
  syms : List Symbol

def objects (objs : Objects) (file : Bytes) (visits : List Visit) : List Object :=
  visits.filterMap fun v =>
    (objs.objprobe file (v.pos + hdrsize)).bind fun t =>
      (objs.readobj t file (v.pos + hdrsize)).map fun syms => ⟨(v.pos + hdrsize : Nat), syms⟩

def members : List Visit → List Visit
  | [] => []
  | v :: visits => if isIndex v.name then visits else v :: visits

def Object.has (ob : Object) (name : Name) (type : Char → Bool) : Bool :=
  ob.syms.any fun sym => counted sym && sym.name = name && type sym.type

def Object.defines (ob : Object) (name : Name) : Bool := ob.has name proper

/-- Common symbols define a name when no member does it properly. -/
def definer (obs : List Object) (name : Name) : Option Int :=
  ((obs.find? fun ob => ob.defines name).or (obs.find? fun ob => ob.has name fun type => type = 'C')).map Object.offset

structure Indexed (tab : Table) (obs : List Object) : Prop where
  names : (tab.head.map Symdef.name).Nodup
  /-- The names are those that are defined, each with the first member that defines it. -/
  entry : ∀ name, (tab.entry name).map Prod.snd = definer obs name
  /-- There is a message exactly about the names that two members define. -/
  multiple : ∀ name, name ∈ tab.multiple ↔ 2 ≤ obs.countP fun ob => ob.defines name

def Object.uses (ob : Object) : List (Int × Symbol) := ob.syms.map fun sym => (ob.offset, sym)

/-- No reference comes after the definition: the first proper one, or else the first common one. -/
def Plain (uses : List (Char × Int)) : Prop :=
  uses = [] ∨ ∃ before d after, uses = before ++ d :: after ∧ (∀ x ∈ after, x.1 ≠ 'U') ∧
    (∀ x ∈ before, proper x.1 = false) ∧
    (proper d.1 = true ∨ d.1 = 'C' ∧ (∀ x ∈ before, x.1 ≠ 'C') ∧ ∀ x ∈ after, proper x.1 = false)

/-- Definitions follow the references, and a repeated definition is in another member and is the last
symbol there. -/
structure Consistent (obs : List Object) : Prop where
  plain : ∀ name, Plain (word name (obs.flatMap Object.uses))
  once : ∀ ob ∈ obs, ∀ name, (word name ob.uses).countP (fun x => proper x.1) ≤ 1
  last : ∀ before ob after syms sym rest, obs = before ++ ob :: after → ob.syms = syms ++ sym :: rest →
    counted sym = true → proper sym.type = true →
    (∃ x ∈ word sym.name (before.flatMap Object.uses), proper x.1 = true) → ∀ sym ∈ rest, counted sym = false

/-- The name is not defined twice, nor listed twice by one object. -/
structure Regular (obs : List Object) : Prop where
  single : ∀ name, obs.countP (fun ob => ob.defines name) ≤ 1
  once : ∀ name, ((word name (obs.flatMap Object.uses)).map Prod.snd).Nodup

theorem combine_some (old x : Char × Int) : combine (some old) x =
    if proper old.1 = true ∨ old.1 = 'C' ∧ x.1 = 'C' then some old else some x := by
  unfold combine proper
  by_cases common : old.1 = 'C'
  · by_cases again : x.1 = 'C' <;> simp [common, again]
  · by_cases reference : old.1 = 'U' <;> simp [common, reference]

variable {d x y : Char × Int} {old : Option (Char × Int)} {w after before : List (Char × Int)}
  {name : Name}

theorem combine_proper (isProper : proper d.1 = true) (w : List (Char × Int)) :
    w.foldl combine (some d) = some d := by
  induction w with
  | nil => rfl
  | cons x w ih => rw [List.foldl_cons, combine_some, if_pos (.inl isProper), ih]

theorem combine_mem (result : combine old x = some y) : y = x ∨ old = some y := by
  cases old with
  | none => exact .inl (Option.some.inj result).symm
  | some old =>
    rw [combine_some] at result
    split_ifs at result
    · exact .inr result
    · exact .inl (Option.some.inj result).symm

theorem fold_mem (result : w.foldl combine old = some y) : y ∈ w ∨ old = some y := by
  induction w generalizing old with
  | nil => exact .inr result
  | cons x w ih =>
    rcases ih result with later | first
    · exact .inl (List.mem_cons_of_mem x later)
    · rcases combine_mem first with rfl | before
      · exact .inl List.mem_cons_self
      · exact .inr before

theorem fold_improper (improper : ∀ x ∈ w, proper x.1 = false)
    (result : w.foldl combine none = some y) : proper y.1 = false := by
  rcases fold_mem result with member | start_
  · exact improper y member
  · cases start_

theorem fold_first (isProper : proper d.1 = true)
    (improper : ∀ x ∈ before, proper x.1 = false) : (before ++ d :: after).foldl combine none = some d := by
  have here : combine (before.foldl combine none) d = some d := by
    cases old : before.foldl combine none with
    | none => rfl
    | some x =>
      rw [combine_some, if_neg]
      simp only [fold_improper improper old, Bool.false_eq_true, false_or, not_and]
      intro _ common
      rw [common] at isProper
      cases isProper
  rw [List.foldl_append, List.foldl_cons, here, combine_proper isProper]

theorem fold_commons (common : d.1 = 'C') (commons : ∀ x ∈ w, x.1 = 'C') :
    w.foldl combine (some d) = some d := by
  induction w with
  | nil => rfl
  | cons x w ih =>
    rw [List.foldl_cons, combine_some, if_pos (.inr ⟨common, commons x List.mem_cons_self⟩)]
    exact ih fun x member => commons x (List.mem_cons_of_mem _ member)

def pick (w : List (Char × Int)) : Option (Char × Int) :=
  (w.find? fun x => proper x.1).or (w.find? fun x => x.1 = 'C')

theorem find_first {p : Char × Int → Bool} (holds : p d = true)
    (first : ∀ x ∈ before, p x = false) : (before ++ d :: after).find? p = some d := by
  rw [List.find?_append, List.find?_eq_none.mpr fun x member => by simp [first x member],
    List.find?_cons_of_pos holds]
  rfl

theorem proper_or (type : Char) : proper type = true ∨ type = 'U' ∨ type = 'C' := by
  unfold proper
  by_cases reference : type = 'U'
  · exact .inr (.inl reference)
  · by_cases common : type = 'C'
    · exact .inr (.inr common)
    · left
      simp [reference, common]

theorem Plain.run {w : List (Char × Int)} (plain : Plain w) : w.foldl combine none = pick w := by
  rcases plain with rfl | ⟨before, d, after, rfl, references, improper, isProper | ⟨common, first, improper'⟩⟩
  · rfl
  · rw [fold_first isProper improper, pick, find_first (p := fun x => proper x.1) isProper improper]
    rfl
  · have none_ : (before ++ d :: after).find? (fun x => proper x.1) = none := by
      rw [List.find?_eq_none]
      intro x member
      rcases List.mem_append.mp member with member | member
      · simp [improper x member]
      · rcases List.mem_cons.mp member with rfl | member
        · simp [proper, common]
        · simp [improper' x member]
    have commons : ∀ x ∈ after, x.1 = 'C' := by
      intro x member
      rcases proper_or x.1 with isProper | reference | common
      · rw [improper' x member] at isProper
        cases isProper
      · exact absurd reference (references x member)
      · exact common
    have here : combine (before.foldl combine none) d = some d := by
      cases old : before.foldl combine none with
      | none => rfl
      | some x =>
        rw [combine_some, if_neg]
        simp only [fold_improper improper old, Bool.false_eq_true, false_or, not_and]
        intro earlier
        rcases fold_mem old with member | start_
        · exact absurd earlier (first x member)
        · cases start_
    rw [pick, none_, find_first (p := fun x => x.1 = 'C') (by simpa using common)
      (fun x member => by simpa using first x member), List.foldl_append, List.foldl_cons, here,
      fold_commons common commons]
    rfl

theorem exists_first {p : Char × Int → Bool} (some_ : ∃ x ∈ w, p x = true) :
    ∃ before d after, w = before ++ d :: after ∧ p d = true ∧ ∀ x ∈ before, p x = false := by
  have found : (w.find? p).isSome := List.find?_isSome.mpr some_
  rcases Option.isSome_iff_exists.mp found with ⟨d, eq⟩
  rcases List.find?_eq_some_iff_append.mp eq with ⟨holds, before, after, same, first⟩
  exact ⟨before, d, after, same, holds, fun x member => by simpa using first x member⟩

theorem Plain.after_proper
    (plain : Plain (before ++ x :: after)) (member : y ∈ before) (isProper : proper y.1 = true) : x.1 ≠ 'U' := by
  rcases plain with nothing | ⟨pre, d, post, same, references, improper, kind⟩
  · cases before <;> cases nothing
  · rcases List.append_eq_append_iff.mp same with ⟨rest, rfl, -⟩ | ⟨rest, rfl, right⟩
    · rw [improper y (List.mem_append_left rest member)] at isProper
      cases isProper
    · cases rest with
      | nil =>
        rw [List.append_nil] at member
        rw [improper y member] at isProper
        cases isProper
      | cons first rest =>
        rcases List.cons.inj right with ⟨rfl, later⟩
        exact references x (later ▸ List.mem_append_right rest List.mem_cons_self)

theorem clash_cases {type : Char} (clashes : clash old type = true) :
    ∃ d, old = some d ∧ proper d.1 = true ∧ type ≠ 'C' := by
  unfold clash at clashes
  cases old with
  | none => cases clashes
  | some d =>
    simp only [Option.any_some, Bool.and_eq_true, decide_eq_true_eq] at clashes
    exact ⟨d, rfl, clashes⟩

theorem Plain.clash_iff (plain : Plain w) :
    (∃ before x after, w = before ++ x :: after ∧ clash (before.foldl combine none) x.1 = true) ↔
      2 ≤ w.countP fun x => proper x.1 := by
  constructor
  · rintro ⟨before, x, after, rfl, clashes⟩
    rcases clash_cases clashes with ⟨d, old, isProper, notcommon⟩
    have member : d ∈ before := (fold_mem old).resolve_right (by simp)
    have again : proper x.1 = true :=
      (proper_or x.1).resolve_right (not_or.mpr ⟨plain.after_proper member isProper, notcommon⟩)
    have one : 0 < before.countP fun x => proper x.1 := List.countP_pos_iff.mpr ⟨d, member, isProper⟩
    rw [List.countP_append, List.countP_cons_of_pos (p := fun x : Char × Int => proper x.1) again]
    omega
  · intro twice
    have some_ : ∃ x ∈ w, proper x.1 = true := List.countP_pos_iff.mp (by omega)
    rcases exists_first some_ with ⟨before, d, after, rfl, isProper, improper⟩
    rw [List.countP_append, List.countP_cons_of_pos (p := fun x : Char × Int => proper x.1) isProper, List.countP_eq_zero.mpr fun x member => by
      simp [improper x member]] at twice
    have again : ∃ x ∈ after, proper x.1 = true := List.countP_pos_iff.mp (by omega)
    rcases exists_first again with ⟨between, x, rest, rfl, isProper', -⟩
    refine ⟨before ++ d :: between, x, rest, by simp, ?_⟩
    rw [fold_first isProper improper]
    unfold clash
    rw [Option.any_some, isProper]
    unfold proper at isProper'
    simp only [Bool.and_eq_true, decide_eq_true_eq] at isProper'
    simpa using isProper'.2

theorem word_uses (ob : Object) (name : Name) : word name ob.uses =
    (ob.syms.filter fun sym => counted sym && sym.name = name).map fun sym => (sym.type, ob.offset) := by
  unfold word Object.uses
  rw [List.filter_map, List.map_map]
  rfl

theorem has_iff {ob : Object} {type : Char → Bool} :
    ob.has name type = true ↔ ∃ x ∈ word name ob.uses, type x.1 = true := by
  rw [word_uses]
  unfold Object.has
  simp only [List.any_eq_true, Bool.and_eq_true, decide_eq_true_eq, List.mem_map, List.mem_filter]
  constructor
  · rintro ⟨sym, member, ⟨yes, named⟩, typed⟩
    exact ⟨_, ⟨sym, ⟨member, yes, named⟩, rfl⟩, typed⟩
  · rintro ⟨_, ⟨sym, ⟨member, yes, named⟩, rfl⟩, typed⟩
    exact ⟨sym, member, ⟨yes, named⟩, typed⟩

theorem word_offset {ob : Object} (member : x ∈ word name ob.uses) : x.2 = ob.offset := by
  rw [word_uses] at member
  rcases List.mem_map.mp member with ⟨sym, -, rfl⟩
  rfl

theorem find_word (obs : List Object) (name : Name) (type : Char → Bool) :
    ((word name (obs.flatMap Object.uses)).find? fun x => type x.1).map Prod.snd =
      (obs.find? fun ob => ob.has name type).map Object.offset := by
  induction obs with
  | nil => rfl
  | cons ob obs ih =>
    rw [List.flatMap_cons, word_append, List.find?_append]
    cases here : ob.has name type with
    | true =>
      rcases exists_first (has_iff.mp here) with ⟨before, d, after, same, holds, first⟩
      have found : (word name ob.uses).find? (fun x => type x.1) = some d := by
        rw [same]
        exact find_first (p := fun x => type x.1) holds first
      have inside : d ∈ word name ob.uses := by simp [same]
      have offset := word_offset inside
      rw [found, List.find?_cons_of_pos (p := fun ob : Object => ob.has name type) here]
      exact congrArg some offset
    | false =>
      have none_ : (word name ob.uses).find? (fun x => type x.1) = none := by
        rw [List.find?_eq_none]
        intro x member holds
        rw [has_iff.mpr ⟨x, member, holds⟩] at here
        cases here
      rw [none_, List.find?_cons_of_neg (by simp [here]), Option.none_or, ih]

theorem definer_eq (obs : List Object) (name : Name) :
    definer obs name = (pick (word name (obs.flatMap Object.uses))).map Prod.snd := by
  unfold definer pick
  rw [Option.map_or, Option.map_or, find_word obs name proper,
    find_word obs name fun type => type = 'C']
  rfl

theorem count_word {obs : List Object}
    (once : ∀ ob ∈ obs, (word name ob.uses).countP (fun x => proper x.1) ≤ 1) :
    (word name (obs.flatMap Object.uses)).countP (fun x => proper x.1) = obs.countP fun ob => ob.defines name := by
  induction obs with
  | nil => rfl
  | cons ob obs ih =>
    rw [List.flatMap_cons, word_append, List.countP_append,
      ih fun ob' member => once ob' (List.mem_cons_of_mem _ member), List.countP_cons]
    have one := once ob List.mem_cons_self
    have pos : 0 < (word name ob.uses).countP (fun x => proper x.1) ↔ ob.defines name = true := by
      rw [List.countP_pos_iff]
      exact has_iff.symm
    by_cases here : ob.defines name = true
    · rw [if_pos here]
      have := pos.mpr here
      omega
    · rw [if_neg here]
      have : ¬ 0 < (word name ob.uses).countP (fun x => proper x.1) := fun some_ => here (pos.mp some_)
      omega

end Scc.Ranlib
