import Scc.Ranlib.Symbols

/-!
# Reading all symbols

What the table holds for a name depends only on the symbols of this name, in the order in
which they are read.
-/

namespace Scc.Ranlib

open Scc.Ar

set_option autoImplicit false

variable {genhash : Name → Nat}

theorem lookup_eq (name : Name) (head : List Symdef) :
    lookup genhash name head = head.find? fun dp => dp.name = name := by
  unfold lookup
  induction head with
  | nil => rfl
  | cons dp head ih =>
    by_cases same : genhash dp.name % NR_SYMDEF ≠ genhash name % NR_SYMDEF
    · rw [List.dropWhile_cons_of_pos (by simpa using same), List.find?_cons_of_neg]
      · exact ih
      · simp only [decide_eq_true_eq]
        rintro rfl
        exact same rfl
    · rw [List.dropWhile_cons_of_neg (by simpa using same)]

/-- What is remembered for a name: the type and the place of the last definition. -/
def Table.entry (tab : Table) (name : Name) : Option (Char × Int) :=
  (tab.head.find? fun dp => dp.name = name).map fun dp => (dp.type, dp.offset)

def proper (type : Char) : Bool := type ≠ 'U' && type ≠ 'C'

/-- How what is remembered for a name goes on. -/
def combine : Option (Char × Int) → Char × Int → Option (Char × Int)
  | none, sym => some sym
  | some old, sym =>
    if old.1 = 'C' then if sym.1 = 'C' then some old else some sym
    else if old.1 = 'U' then some sym
    else some old

def clash (old : Option (Char × Int)) (type : Char) : Bool := old.any (fun old => proper old.1) && type ≠ 'C'

theorem entry_set {head : List Symdef} {name other : Name} {f : Symdef → Symdef} (keeps : ∀ dp, (f dp).name = dp.name) :
    ((head.map fun dp => if dp.name = name then f dp else dp).find? fun dp => dp.name = other) =
      (head.find? fun dp => dp.name = other).map fun dp => if other = name then f dp else dp := by
  induction head with
  | nil => rfl
  | cons dp head ih =>
    have kept : (if dp.name = name then f dp else dp).name = dp.name := by
      split_ifs
      · exact keeps dp
      · rfl
    by_cases here : dp.name = other
    · rw [List.map_cons, List.find?_cons_of_pos (by simpa [kept] using here),
        List.find?_cons_of_pos (by simpa using here), Option.map_some, here]
    · rw [List.map_cons, List.find?_cons_of_neg (by simpa [kept] using here),
        List.find?_cons_of_neg (by simpa using here), ih]

theorem uncounted {sym : Symbol} (no : counted sym = false) (offset : Int) (tab : Table) :
    newsymbol genhash offset tab sym = (tab, true) := by
  unfold newsymbol
  simp [no]

theorem newsymbol_spec {sym : Symbol} (yes : counted sym = true) (offset : Int) (tab : Table) :
    (∀ name, (newsymbol genhash offset tab sym).1.entry name =
      if name = sym.name then combine (tab.entry name) (sym.type, offset) else tab.entry name) ∧
    (newsymbol genhash offset tab sym).2 = !clash (tab.entry sym.name) sym.type ∧
    (newsymbol genhash offset tab sym).1.multiple =
      tab.multiple ++ if clash (tab.entry sym.name) sym.type then [sym.name] else [] := by
  have keeps (dp : Symdef) : ({ dp with type := sym.type, offset := offset } : Symdef).name = dp.name := rfl
  unfold newsymbol
  rw [if_neg (by simp [yes]), lookup_eq]
  cases found : tab.head.find? fun dp => dp.name = sym.name with
  | none =>
    have absent : tab.entry sym.name = none := by
      unfold Table.entry
      rw [found]
      rfl
    rw [absent]
    dsimp only
    rw [if_neg (by decide), if_pos rfl]
    refine ⟨fun name => ?_, rfl, (List.append_nil _).symm⟩
    unfold Table.entry at absent ⊢
    rw [entry_set keeps]
    by_cases here : name = sym.name
    · rw [here, if_pos rfl, absent, List.find?_cons_of_pos (by simp)]
      simp [combine]
    · rw [if_neg here, List.find?_cons_of_neg (by simpa using Ne.symm here)]
      simp [here]
  | some np =>
    have named : np.name = sym.name := by simpa using List.find?_some found
    have old : tab.entry sym.name = some (np.type, np.offset) := by
      unfold Table.entry
      rw [found]
      rfl
    have set_ (name : Name) : (Table.entry { tab with head := tab.head.map fun dp =>
        if dp.name = np.name then { dp with type := sym.type, offset := offset } else dp } name) =
        if name = sym.name then some (sym.type, offset) else tab.entry name := by
      unfold Table.entry
      rw [named, entry_set keeps]
      by_cases here : name = sym.name
      · rw [here, if_pos rfl, found]
        simp
      · rw [if_neg here]
        simp [here]
    have same (name : Name) : tab.entry name = if name = sym.name then tab.entry sym.name else tab.entry name := by
      by_cases here : name = sym.name
      · rw [if_pos here, here]
      · rw [if_neg here]
    dsimp only
    by_cases common : np.type = 'C'
    · by_cases again : sym.type = 'C'
      · rw [if_pos common, if_pos again, old]
        refine ⟨fun name => (same name).trans ?_, ?_, ?_⟩
        · by_cases here : name = sym.name
          · simp [here, old, combine, common, again]
          · simp [here]
        · simp [clash, again]
        · simp [clash, again]
      · rw [if_pos common, if_neg again, old]
        refine ⟨fun name => (set_ name).trans ?_, ?_, ?_⟩
        · by_cases here : name = sym.name
          · simp [here, old, combine, common, again]
          · simp [here]
        · simp [clash, proper, common]
        · simp [clash, proper, common]
    · by_cases undefined_ : np.type = 'U'
      · rw [if_neg common, if_pos undefined_, old]
        refine ⟨fun name => (set_ name).trans ?_, ?_, ?_⟩
        · by_cases here : name = sym.name
          · simp [here, old, combine, undefined_]
          · simp [here]
        · simp [clash, proper, undefined_]
        · simp [clash, proper, undefined_]
      · rw [if_neg common, if_neg undefined_, old]
        by_cases again : sym.type = 'C'
        · rw [if_neg (by simpa using again)]
          refine ⟨fun name => (same name).trans ?_, ?_, ?_⟩
          · by_cases here : name = sym.name
            · simp [here, old, combine, common, undefined_]
            · simp [here]
          · simp [clash, again]
          · simp [clash, again]
        · rw [if_pos (by simpa using again)]
          refine ⟨fun name => (same name).trans ?_, ?_, ?_⟩
          · by_cases here : name = sym.name
            · simp [here, old, combine, common, undefined_]
            · simp [here]
          · simp [clash, proper, common, undefined_, again]
          · simp [clash, proper, common, undefined_, again]

variable (genhash) in
theorem newsymbol_names (offset : Int) {tab : Table} (sym : Symbol) (distinct : (tab.head.map Symdef.name).Nodup) :
    ((newsymbol genhash offset tab sym).1.head.map Symdef.name).Nodup := by
  have renamed (head : List Symdef) (name : Name) : (head.map fun dp =>
      if dp.name = name then { dp with type := sym.type, offset := offset } else dp).map Symdef.name =
      head.map Symdef.name := by
    rw [List.map_map]
    refine List.map_congr_left fun dp _ => ?_
    by_cases here : dp.name = name <;> simp [here]
  cases yes : counted sym with
  | false =>
    rw [uncounted yes]
    exact distinct
  | true =>
    unfold newsymbol
    rw [if_neg (by simp [yes]), lookup_eq]
    cases found : tab.head.find? fun dp => dp.name = sym.name with
    | none =>
      dsimp only
      rw [if_neg (by decide), if_pos rfl]
      dsimp only
      rw [renamed, List.map_cons, List.nodup_cons]
      refine ⟨?_, distinct⟩
      intro member
      rcases List.mem_map.mp member with ⟨dp, member, same⟩
      have other := List.find?_eq_none.mp found dp member
      simp [same] at other
    | some np =>
      dsimp only
      have kept := renamed tab.head np.name
      split_ifs
      · exact distinct
      · exact kept ▸ distinct
      · exact kept ▸ distinct
      · exact distinct
      · exact distinct

theorem newsymbols_names {offset : Int} {syms : List Symbol} {tab : Table}
    (distinct : (tab.head.map Symdef.name).Nodup) :
    ((newsymbols genhash offset tab syms).head.map Symdef.name).Nodup := by
  induction syms generalizing tab with
  | nil => exact distinct
  | cons sym syms ih =>
    have one := newsymbol_names genhash offset sym distinct
    unfold newsymbols
    split
    next tab' same =>
      rw [same] at one
      exact ih one
    next tab' same =>
      rw [same] at one
      exact one

/-- The table after a symbol, when the loop goes on. -/
def record (genhash : Name → Nat) (tab : Table) (use : Int × Symbol) : Table :=
  (newsymbol genhash use.1 tab use.2).1

/-- The symbols of a name that count, each with the place of its member. -/
def word (name : Name) (uses : List (Int × Symbol)) : List (Char × Int) :=
  (uses.filter fun use => counted use.2 && use.2.name = name).map fun use => (use.2.type, use.1)

theorem word_append (name : Name) (uses uses' : List (Int × Symbol)) :
    word name (uses ++ uses') = word name uses ++ word name uses' := by
  unfold word
  rw [List.filter_append, List.map_append]

theorem record_entry (tab : Table) (use : Int × Symbol) (name : Name) :
    (record genhash tab use).entry name = (word name [use]).foldl combine (tab.entry name) := by
  unfold record word
  cases yes : counted use.2 with
  | false =>
    rw [uncounted yes]
    simp [yes]
  | true =>
    rw [(newsymbol_spec yes use.1 tab).1]
    by_cases here : use.2.name = name
    · simp [yes, here]
    · simp [yes, here, Ne.symm here]

theorem records_entry (uses : List (Int × Symbol)) (tab : Table) (name : Name) :
    (uses.foldl (record genhash) tab).entry name = (word name uses).foldl combine (tab.entry name) := by
  induction uses generalizing tab with
  | nil => rfl
  | cons use uses ih =>
    rw [List.foldl_cons, ih, record_entry, ← List.foldl_append, ← word_append]
    rfl

theorem splits_cons {α : Type} {x : α} {xs : List α} {p : List α → α → Prop} :
    (∃ before y after, x :: xs = before ++ y :: after ∧ p before y) ↔
      p [] x ∨ ∃ before y after, xs = before ++ y :: after ∧ p (x :: before) y := by
  constructor
  · rintro ⟨before, y, after, same, holds⟩
    cases before with
    | nil =>
      cases same
      exact .inl holds
    | cons first before =>
      cases same
      exact .inr ⟨before, y, after, rfl, holds⟩
  · rintro (holds | ⟨before, y, after, rfl, holds⟩)
    · exact ⟨[], x, xs, rfl, holds⟩
    · exact ⟨x :: before, y, after, rfl, holds⟩

theorem records_multiple (uses : List (Int × Symbol)) (tab : Table) (name : Name) :
    name ∈ (uses.foldl (record genhash) tab).multiple ↔ name ∈ tab.multiple ∨
      ∃ before sym after, word name uses = before ++ sym :: after ∧
        clash (before.foldl combine (tab.entry name)) sym.1 = true := by
  induction uses generalizing tab with
  | nil =>
    have none_ : ∀ before sym after, ¬ word name [] = before ++ sym :: after := by
      intro before sym after same
      cases before <;> cases same
    simp [none_]
  | cons use uses ih =>
    rw [List.foldl_cons, ih, record_entry]
    have parts : word name (use :: uses) = word name [use] ++ word name uses := word_append name [use] uses
    rw [parts]
    unfold record
    cases yes : counted use.2 with
    | false =>
      rw [uncounted yes]
      simp [word, yes]
    | true =>
      rw [(newsymbol_spec yes use.1 tab).2.2]
      by_cases here : use.2.name = name
      · have one : word name [use] = [(use.2.type, use.1)] := by simp [word, yes, here]
        rw [one, List.singleton_append, splits_cons, here, List.mem_append]
        simp only [List.foldl_cons, List.foldl_nil]
        by_cases clashes : clash (tab.entry name) use.2.type = true
        · simp [clashes]
        · simp [clashes]
      · have other : word name [use] = [] := by simp [word, here]
        rw [other, List.mem_append]
        have unnamed : name ∉ (if clash (tab.entry use.2.name) use.2.type = true then [use.2.name] else []) := by
          split_ifs
          · simpa using Ne.symm here
          · simp
        simp [unnamed]

end Scc.Ranlib
