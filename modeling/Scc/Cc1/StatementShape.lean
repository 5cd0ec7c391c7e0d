import Mathlib.Data.List.Nodup
import Mathlib.Data.List.Perm.Basic
import Scc.Cc1.Statement

/-!
# The shape of the records

Every label of a function is written once, so a jump to it goes to what follows there. The
records of a switch are well nested.
-/

namespace Scc.Cc1.Lowering

set_option autoImplicit false

variable {arch : Arch}

def labels (code : List Emit) : List Label :=
  code.filterMap fun record =>
    match record with
    | .OLABEL sym => some sym
    | _ => none

@[simp] theorem labels_nil : labels [] = [] := rfl

@[simp] theorem labels_append (code code' : List Emit) :
    labels (code ++ code') = labels code ++ labels code' := List.filterMap_append

theorem labels_cons (record : Emit) (code : List Emit) : labels (record :: code) =
      match record with
      | .OLABEL sym => sym :: labels code
      | _ => labels code := by
  cases record <;> rfl

@[simp] theorem labels_branch (sym : Label) (np : Option Node) : labels (branch sym np) = [] := by
  unfold branch
  split
  · rfl
  · split_ifs <;> rfl
  · rfl

/-- A label that is made between two states. -/
def New (st st' : State) : Label → Prop
  | .user name => name ∉ st.defined ∧ name ∈ st'.defined
  | .fresh id => st.fresh ≤ id ∧ id < st'.fresh

/-- The labels that are made between two states. -/
structure Spans (st st' : State) (ls : List Label) : Prop where
  fresh : st.fresh ≤ st'.fresh
  defined : ∀ name ∈ st.defined, name ∈ st'.defined
  nodup : ls.Nodup
  new : ∀ l ∈ ls, New st st' l

variable {st st' : State} {ls ls' : List Label} {program rest code : List Emit} {sym : Label}
  {record : Emit} {key : Key}

theorem Spans.nil (fresh : st.fresh ≤ st'.fresh)
    (defined : ∀ name ∈ st.defined, name ∈ st'.defined) : Spans st st' [] :=
  ⟨fresh, defined, List.nodup_nil, by simp⟩

theorem Spans.append {st middle st' : State} (first : Spans st middle ls)
    (second : Spans middle st' ls') : Spans st st' (ls ++ ls') := by
  constructor
  · exact Nat.le_trans first.fresh second.fresh
  · exact fun name defined => second.defined name (first.defined name defined)
  · rw [List.nodup_append]
    refine ⟨first.nodup, second.nodup, ?_⟩
    rintro l early l' late rfl
    have before := first.new l early
    have after := second.new l late
    cases l with
    | user name => exact after.1 before.2
    | fresh id => exact absurd before.2 (Nat.not_lt.mpr after.1)
  · intro l member
    rcases List.mem_append.mp member with early | late
    · have before := first.new l early
      cases l with
      | user name => exact ⟨before.1, second.defined name before.2⟩
      | fresh id => exact ⟨before.1, Nat.lt_of_lt_of_le before.2 second.fresh⟩
    · have after := second.new l late
      cases l with
      | user name => exact ⟨fun defined => after.1 (first.defined name defined), after.2⟩
      | fresh id => exact ⟨Nat.le_trans first.fresh after.1, after.2⟩

theorem Spans.perm (spans : Spans st st' ls) (perm : ls.Perm ls') : Spans st st' ls' :=
  ⟨spans.fresh, spans.defined, perm.nodup_iff.mp spans.nodup,
    fun l member => spans.new l (perm.mem_iff.mpr member)⟩

theorem label_injective (st : State) : Function.Injective st.label := by
  intro i j same
  exact Nat.add_left_cancel (Label.fresh.inj same)

theorem Spans.own (n : Nat) (fresh : st'.fresh = st.fresh + n)
    (defined : st'.defined = st.defined) : Spans st st' ((List.range n).map st.label) := by
  refine ⟨by omega, fun name member => defined ▸ member, ?_, ?_⟩
  · exact List.nodup_range.map (label_injective st)
  · intro l member
    rcases List.mem_map.mp member with ⟨later, few, rfl⟩
    rw [List.mem_range] at few
    exact ⟨Nat.le_add_right _ _, by omega⟩

theorem mark_spans {m : Mark} {before : List Emit × State}
    (made : mark arch st m = some before) : Spans st before.2 (labels before.1) := by
  cases m with
  | label name =>
    unfold mark at made
    dsimp only at made
    split_ifs at made with known
    cases made
    refine ⟨Nat.le_refl _, fun other defined => List.mem_cons_of_mem _ defined,
      List.nodup_singleton _, ?_⟩
    intro l member
    rw [List.mem_singleton.mp member]
    exact ⟨known, List.mem_cons_self⟩
  | case type value fits =>
    rcases Option.bind_eq_some_iff.mp made with ⟨np, _, made⟩
    rcases Option.bind_eq_some_iff.mp made with ⟨sw, _, made⟩
    split_ifs at made
    cases made
    exact Spans.own 1 rfl rfl
  | default =>
    rcases Option.bind_eq_some_iff.mp made with ⟨sw, _, made⟩
    split_ifs at made
    cases made
    exact Spans.own 1 rfl rfl

theorem count_perm (counts : ∀ l, ls.count l = ls'.count l) : ls.Perm ls' :=
  List.perm_iff_count.mpr counts

theorem stmt_spans {s : Stmt arch} : ∀ {lbreak lcont : Option Label} {st st' : State} {code : List Emit},
      stmt s lbreak lcont st = some (code, st') → Spans st st' (labels code) := by
  induction s with
  | null =>
    intro lbreak lcont st st' code made
    cases made
    exact Spans.nil (Nat.le_refl _) fun _ => id
  | exp e =>
    intro lbreak lcont st st' code made
    rcases Option.map_eq_some_iff.mp made with ⟨np, _, built⟩
    cases built
    exact Spans.nil (Nat.le_refl _) fun _ => id
  | mark m s ih =>
    intro lbreak lcont st st' code made
    rcases Option.bind_eq_some_iff.mp made with ⟨before, marked, made⟩
    rcases Option.map_eq_some_iff.mp made with ⟨⟨inner, last⟩, body, built⟩
    cases built
    rw [labels_append]
    exact (mark_spans marked).append (ih body)
  | compound items ih =>
    intro lbreak lcont st st' code made
    unfold stmt at made
    split_ifs at made
    rcases Option.map_eq_some_iff.mp made with ⟨⟨inner, last⟩, body, built⟩
    cases built
    have spans := ih body
    exact ⟨spans.fresh, spans.defined, spans.nodup, spans.new⟩
  | item s rest ih ih' =>
    intro lbreak lcont st st' code made
    rcases Option.bind_eq_some_iff.mp made with ⟨⟨first, middle⟩, head, made⟩
    rcases Option.map_eq_some_iff.mp made with ⟨⟨second, last⟩, tail, built⟩
    cases built
    rw [labels_append]
    exact (ih head).append (ih' tail)
  | If cond s ih =>
    intro lbreak lcont st st' code made
    rcases Option.bind_eq_some_iff.mp made with ⟨np, _, made⟩
    rcases Option.map_eq_some_iff.mp made with ⟨⟨inner, last⟩, body, built⟩
    cases built
    have own : Spans st (st.newlabels 1) [st.label 0] :=
      Spans.own 1 rfl rfl
    apply (own.append (ih body)).perm
    apply count_perm
    intro l
    simp only [labels_append, labels_branch, labels_cons, labels_nil, List.count_append,
      List.count_cons, List.count_nil]
    omega
  | Ifelse cond s lelse ih ih' =>
    intro lbreak lcont st st' code made
    rcases Option.bind_eq_some_iff.mp made with ⟨np, _, made⟩
    rcases Option.bind_eq_some_iff.mp made with ⟨⟨first, middle⟩, yes, made⟩
    rcases Option.map_eq_some_iff.mp made with ⟨⟨second, last⟩, no, built⟩
    cases built
    have own : Spans st (st.newlabels 1) [st.label 0] :=
      Spans.own 1 rfl rfl
    have own' : Spans middle (middle.newlabels 1) [middle.label 0] :=
      Spans.own 1 rfl rfl
    apply ((own.append (ih yes)).append (own'.append (ih' no))).perm
    apply count_perm
    intro l
    simp only [labels_append, labels_branch, labels_cons, labels_nil, List.count_append,
      List.count_cons, List.count_nil]
    omega
  | While cond s ih =>
    intro lbreak lcont st st' code made
    rcases Option.bind_eq_some_iff.mp made with ⟨np, _, made⟩
    rcases Option.map_eq_some_iff.mp made with ⟨⟨inner, last⟩, body, built⟩
    cases built
    have own : Spans st (st.newlabels 3) [st.label 0, st.label 1, st.label 2] :=
      Spans.own 3 rfl rfl
    apply (own.append (ih body)).perm
    apply count_perm
    intro l
    simp only [labels_append, labels_branch, labels_cons, labels_nil, List.count_append,
      List.count_cons, List.count_nil]
    omega
  | Dowhile s cond ih =>
    intro lbreak lcont st st' code made
    rcases Option.bind_eq_some_iff.mp made with ⟨⟨inner, last⟩, body, made⟩
    rcases Option.map_eq_some_iff.mp made with ⟨np, _, built⟩
    cases built
    have own : Spans st (st.newlabels 3) [st.label 0, st.label 1, st.label 2] :=
      Spans.own 3 rfl rfl
    apply (own.append (ih body)).perm
    apply count_perm
    intro l
    simp only [labels_append, labels_branch, labels_cons, labels_nil, List.count_append,
      List.count_cons, List.count_nil]
    omega
  | For init cond inc s ih =>
    intro lbreak lcont st st' code made
    rcases Option.bind_eq_some_iff.mp made with ⟨einit, _, made⟩
    rcases Option.bind_eq_some_iff.mp made with ⟨econd, _, made⟩
    rcases Option.bind_eq_some_iff.mp made with ⟨einc, _, made⟩
    rcases Option.map_eq_some_iff.mp made with ⟨⟨inner, last⟩, body, built⟩
    cases built
    have own : Spans st (st.newlabels 4) [st.label 0, st.label 1, st.label 2, st.label 3] :=
      Spans.own 4 rfl rfl
    have starts : labels (einit.toList.map fun np => Emit.OEXPR (some np)) = [] ∧
        labels (if econd.isSome then [Emit.OJUMP (st.label 2)] else []) = [] := by
      cases einit <;> cases econd <;> exact ⟨rfl, rfl⟩
    apply (own.append (ih body)).perm
    apply count_perm
    intro l
    simp only [labels_append, starts, labels_branch, labels_cons, labels_nil, List.count_append,
      List.count_cons, List.count_nil]
    omega
  | Break =>
    intro lbreak lcont st st' code made
    rcases Option.map_eq_some_iff.mp made with ⟨sym, _, built⟩
    cases built
    exact Spans.nil (Nat.le_refl _) fun _ => id
  | Continue =>
    intro lbreak lcont st st' code made
    rcases Option.map_eq_some_iff.mp made with ⟨sym, _, built⟩
    cases built
    exact Spans.nil (Nat.le_refl _) fun _ => id
  | Goto name =>
    intro lbreak lcont st st' code made
    cases made
    exact Spans.nil (Nat.le_refl _) fun _ => id
  | Return e =>
    intro lbreak lcont st st' code made
    rcases Option.map_eq_some_iff.mp made with ⟨np, _, built⟩
    cases built
    exact Spans.nil (Nat.le_refl _) fun _ => id
  | Swtch cond s ih =>
    intro lbreak lcont st st' code made
    rcases Option.bind_eq_some_iff.mp made with ⟨np, _, made⟩
    rcases Option.map_eq_some_iff.mp made with ⟨⟨inner, last⟩, body, built⟩
    cases built
    have own : Spans st { st.newlabels 1 with lswitch := some ⟨0, false⟩ } [st.label 0] :=
      Spans.own 1 rfl rfl
    have both := own.append (ih body)
    apply Spans.perm (show Spans st { last with lswitch := st.lswitch } ([st.label 0] ++ labels inner) from
      ⟨both.fresh, both.defined, both.nodup, both.new⟩)
    apply count_perm
    intro l
    simp only [labels_append, labels_cons, labels_nil, List.count_append, List.count_cons, List.count_nil]
    omega

theorem target_none (absent : sym ∉ labels program) : target program sym = none := by
  induction program with
  | nil => rfl
  | cons record rest ih =>
    rw [labels_cons] at absent
    unfold target
    by_cases here : record = .OLABEL sym
    · subst here
      exact absurd List.mem_cons_self absent
    · rw [if_neg here]
      apply ih
      intro member
      apply absent
      cases record with
      | OLABEL other => exact List.mem_cons_of_mem _ member
      | _ => exact member

theorem target_suffix (once : (labels program).Nodup)
    (suffix : .OLABEL sym :: rest <:+ program) : target program sym = some rest := by
  induction program with
  | nil =>
    have empty := List.suffix_nil.mp suffix
    cases empty
  | cons record program ih =>
    unfold target
    rcases List.suffix_cons_iff.mp suffix with whole | later
    · cases whole
      rw [if_pos rfl]
    · have inside : sym ∈ labels program := by
        rcases later with ⟨before, rfl⟩
        rw [labels_append, labels_cons]
        exact List.mem_append_right _ List.mem_cons_self
      have notHere : record ≠ .OLABEL sym := by
        intro here
        subst here
        rw [labels_cons] at once
        exact (List.nodup_cons.mp once).1 inside
      rw [if_neg notHere]
      apply ih _ later
      rw [labels_cons] at once
      cases record with
      | OLABEL other => exact (List.nodup_cons.mp once).2
      | _ => exact once

theorem suffix_of_target (found : target program sym = some rest) : rest <:+ program := by
  induction program with
  | nil => cases found
  | cons record program ih =>
    unfold target at found
    split_ifs at found with here
    · cases found
      exact List.suffix_cons _ _
    · exact (ih found).trans (List.suffix_cons _ _)

def Emit.flat : Emit → Bool
  | .OBSWITCH => false
  | .OESWITCH _ => false
  | _ => true

inductive Balanced : List Emit → Prop
  | nil : Balanced []
  | plain {record : Emit} {rest : List Emit} (flat : record.flat = true) (tail : Balanced rest) :
      Balanced (record :: rest)
  | switch {inner rest : List Emit} (sym : Label) (inside : Balanced inner) (tail : Balanced rest) :
      Balanced (.OBSWITCH :: (inner ++ .OESWITCH sym :: rest))

theorem Balanced.append {code code' : List Emit} (first : Balanced code) (second : Balanced code') :
    Balanced (code ++ code') := by
  induction first with
  | nil => exact second
  | plain flat _ ih => exact .plain flat ih
  | switch sym inside _ _ ih =>
    rw [List.cons_append, List.append_assoc, List.cons_append]
    exact .switch sym inside ih

theorem Balanced.flat (all : code.all Emit.flat = true) : Balanced code := by
  induction code with
  | nil => exact .nil
  | cons record code ih =>
    rw [List.all_cons, Bool.and_eq_true] at all
    exact .plain all.1 (ih all.2)

theorem branch_flat (sym : Label) (np : Option Node) : (branch sym np).all Emit.flat = true := by
  unfold branch
  split
  · rfl
  · split_ifs <;> rfl
  · rfl

theorem mark_flat {m : Mark} {before : List Emit × State}
    (made : mark arch st m = some before) : before.1.all Emit.flat = true := by
  cases m with
  | label name =>
    unfold mark at made
    dsimp only at made
    split_ifs at made
    cases made
    rfl
  | case type value fits =>
    rcases Option.bind_eq_some_iff.mp made with ⟨np, _, made⟩
    rcases Option.bind_eq_some_iff.mp made with ⟨sw, _, made⟩
    split_ifs at made
    cases made
    rfl
  | default =>
    rcases Option.bind_eq_some_iff.mp made with ⟨sw, _, made⟩
    split_ifs at made
    cases made
    rfl

theorem stmt_balanced {s : Stmt arch} : ∀ {lbreak lcont : Option Label} {st st' : State} {code : List Emit},
      stmt s lbreak lcont st = some (code, st') → Balanced code := by
  induction s with
  | null =>
    intro lbreak lcont st st' code made
    cases made
    exact .nil
  | exp e =>
    intro lbreak lcont st st' code made
    rcases Option.map_eq_some_iff.mp made with ⟨np, _, built⟩
    cases built
    exact Balanced.flat rfl
  | mark m s ih =>
    intro lbreak lcont st st' code made
    rcases Option.bind_eq_some_iff.mp made with ⟨before, marked, made⟩
    rcases Option.map_eq_some_iff.mp made with ⟨⟨inner, last⟩, body, built⟩
    cases built
    exact (Balanced.flat (mark_flat marked)).append (ih body)
  | compound items ih =>
    intro lbreak lcont st st' code made
    unfold stmt at made
    split_ifs at made
    rcases Option.map_eq_some_iff.mp made with ⟨⟨inner, last⟩, body, built⟩
    cases built
    exact ih body
  | item s rest ih ih' =>
    intro lbreak lcont st st' code made
    rcases Option.bind_eq_some_iff.mp made with ⟨⟨first, middle⟩, head, made⟩
    rcases Option.map_eq_some_iff.mp made with ⟨⟨second, last⟩, tail, built⟩
    cases built
    exact (ih head).append (ih' tail)
  | If cond s ih =>
    intro lbreak lcont st st' code made
    rcases Option.bind_eq_some_iff.mp made with ⟨np, _, made⟩
    rcases Option.map_eq_some_iff.mp made with ⟨⟨inner, last⟩, body, built⟩
    cases built
    exact ((Balanced.flat (branch_flat _ _)).append (ih body)).append (.plain rfl .nil)
  | Ifelse cond s lelse ih ih' =>
    intro lbreak lcont st st' code made
    rcases Option.bind_eq_some_iff.mp made with ⟨np, _, made⟩
    rcases Option.bind_eq_some_iff.mp made with ⟨⟨first, middle⟩, yes, made⟩
    rcases Option.map_eq_some_iff.mp made with ⟨⟨second, last⟩, no, built⟩
    cases built
    exact (((Balanced.flat (branch_flat _ _)).append (ih yes)).append
      (.plain rfl (.plain rfl (ih' no)))).append (.plain rfl .nil)
  | While cond s ih =>
    intro lbreak lcont st st' code made
    rcases Option.bind_eq_some_iff.mp made with ⟨np, _, made⟩
    rcases Option.map_eq_some_iff.mp made with ⟨⟨inner, last⟩, body, built⟩
    cases built
    exact ((Balanced.plain rfl (.plain rfl (.plain rfl (ih body)))).append (.plain rfl (.plain rfl
      (Balanced.flat (branch_flat _ _))))).append (.plain rfl .nil)
  | Dowhile s cond ih =>
    intro lbreak lcont st st' code made
    rcases Option.bind_eq_some_iff.mp made with ⟨⟨inner, last⟩, body, made⟩
    rcases Option.map_eq_some_iff.mp made with ⟨np, _, built⟩
    cases built
    exact ((Balanced.plain rfl (.plain rfl (ih body))).append (.plain rfl (.plain rfl
      (Balanced.flat (branch_flat _ _))))).append (.plain rfl .nil)
  | For init cond inc s ih =>
    intro lbreak lcont st st' code made
    rcases Option.bind_eq_some_iff.mp made with ⟨einit, _, made⟩
    rcases Option.bind_eq_some_iff.mp made with ⟨econd, _, made⟩
    rcases Option.bind_eq_some_iff.mp made with ⟨einc, _, made⟩
    rcases Option.map_eq_some_iff.mp made with ⟨⟨inner, last⟩, body, built⟩
    cases built
    have starts : ((einit.toList.map fun np => Emit.OEXPR (some np)) ++
        (if econd.isSome then [Emit.OJUMP (st.label 2)] else [])).all Emit.flat = true := by
      cases einit <;> cases econd <;> rfl
    exact (((Balanced.flat starts).append (.plain rfl (.plain rfl (ih body)))).append
      (.plain rfl (.plain rfl (.plain rfl (.plain rfl (Balanced.flat (branch_flat _ _))))))).append
        (.plain rfl .nil)
  | Break =>
    intro lbreak lcont st st' code made
    rcases Option.map_eq_some_iff.mp made with ⟨sym, _, built⟩
    cases built
    exact Balanced.flat rfl
  | Continue =>
    intro lbreak lcont st st' code made
    rcases Option.map_eq_some_iff.mp made with ⟨sym, _, built⟩
    cases built
    exact Balanced.flat rfl
  | Goto name =>
    intro lbreak lcont st st' code made
    cases made
    exact Balanced.flat rfl
  | Return e =>
    intro lbreak lcont st st' code made
    rcases Option.map_eq_some_iff.mp made with ⟨np, _, built⟩
    cases built
    exact Balanced.flat rfl
  | Swtch cond s ih =>
    intro lbreak lcont st st' code made
    rcases Option.bind_eq_some_iff.mp made with ⟨np, _, made⟩
    rcases Option.map_eq_some_iff.mp made with ⟨⟨inner, last⟩, body, built⟩
    cases built
    have inside : Balanced (.OEXPR (some (simplify arch np)) :: inner) := .plain rfl (ih body)
    exact Balanced.switch (st.label 0) inside (.plain rfl .nil)

theorem nest_flat (flat : record.flat = true) (depth : Nat) : nest depth record = depth := by
  cases record with
  | OBSWITCH => cases flat
  | OESWITCH sym => cases flat
  | _ => rfl

theorem search_cons (key : Key) (depth : Nat) (record : Emit) (rest : List Emit) :
    search arch key depth (record :: rest) =
      if depth = 0 || key.everywhere then
        match hit arch key record rest with
        | some sym => some sym
        | none =>
          if record.ends && !key.everywhere then none else search arch key (nest depth record) rest
      else search arch key (nest depth record) rest := rfl

theorem search_deep (balanced : Balanced code) (local_ : key.everywhere = false) :
    ∀ depth tail, search arch key (depth + 1) (code ++ tail) = search arch key (depth + 1) tail := by
  have skips : ∀ depth record rest,
      search arch key (depth + 1) (record :: rest) = search arch key (nest (depth + 1) record) rest := by
    intro depth record rest
    rw [search_cons, local_]
    simp
  induction balanced with
  | nil => exact fun _ _ => rfl
  | plain flat _ ih =>
    intro depth tail
    rw [List.cons_append, skips, nest_flat flat]
    exact ih depth tail
  | switch sym _ _ ih ih' =>
    intro depth tail
    rw [List.cons_append, List.append_assoc, List.cons_append, skips]
    change search arch key (depth + 1 + 1) _ = _
    rw [ih, skips]
    exact ih' depth tail

theorem search_plain {depth : Nat} (misses : hit arch key record rest = none) (flat : record.flat = true) :
    search arch key depth (record :: rest) = search arch key depth rest := by
  have goesOn : record.ends = false := by
    cases record with
    | OESWITCH sym => cases flat
    | _ => rfl
  rw [search_cons, misses, goesOn, nest_flat flat]
  simp

theorem search_hit {depth : Nat}
    (here : depth = 0 ∨ key.everywhere = true) (hits : hit arch key record rest = some sym) :
    search arch key depth (record :: rest) = some sym := by
  rw [search_cons, hits, if_pos (by simpa using here)]

theorem search_exit (balanced : Balanced code) :
    ∀ tail, search arch .exit 0 (code ++ tail) = search arch .exit 0 tail := by
  induction balanced with
  | nil => exact fun _ => rfl
  | @plain record rest flat _ ih =>
    intro tail
    have misses : hit arch .exit record (rest ++ tail) = none := by
      cases record with
      | OESWITCH sym => cases flat
      | _ => rfl
    rw [List.cons_append, search_plain misses flat]
    exact ih tail
  | @switch inner rest sym inside _ _ ih' =>
    intro tail
    rw [List.cons_append, List.append_assoc, List.cons_append, search_cons]
    change search arch .exit 1 _ = _
    rw [search_deep inside rfl 0, search_cons]
    exact ih' tail

end Scc.Cc1.Lowering
