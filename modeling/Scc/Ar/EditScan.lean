import Scc.Ar.Edit

/-!
# Scanning the members

`r` and `m` go through the members alike: before the position member they write one temporary
file, and after it another.
-/

namespace Scc.Ar.Edit

set_option autoImplicit false

variable {α : Type} {o : Options} {files : Files α}

def paths (argv : List (Option Name)) : List Name := argv.filterMap id

def use (args : List Name) (fname : Name) : List Name := args.eraseP fun arg => canonical arg = fname

def argument (args : List Name) (fname : Name) : Option Name := args.find? fun arg => canonical arg = fname

theorem paths_some (argv : List Name) : paths (argv.map some) = argv := by
  unfold paths
  rw [List.filterMap_map]
  exact List.filterMap_some

theorem inlist_none {fname : Name} {argv : List (Option Name)} (absent : inlist fname argv = none) :
    argument (paths argv) fname = none ∧ use (paths argv) fname = paths argv := by
  have no : ∀ arg ∈ paths argv, ¬ canonical arg = fname := by
    induction argv with
    | nil => simp [paths]
    | cons arg argv ih =>
      cases arg with
      | none => exact ih (Option.map_eq_none_iff.mp absent)
      | some arg =>
        unfold inlist at absent
        split_ifs at absent with here
        intro arg' member
        rcases List.mem_cons.mp member with rfl | later
        · exact here
        · exact ih (Option.map_eq_none_iff.mp absent) arg' later
  constructor
  · exact List.find?_eq_none.mpr fun arg member => by simpa using no arg member
  · exact List.eraseP_of_forall_not fun arg member => by simpa using no arg member

theorem inlist_some {fname : Name} {argv argv' : List (Option Name)} {arg : Name}
    (found : inlist fname argv = some (arg, argv')) :
    argument (paths argv) fname = some arg ∧ paths argv' = use (paths argv) fname := by
  induction argv generalizing argv' with
  | nil => cases found
  | cons first argv ih =>
    cases first with
    | none =>
      rcases Option.map_eq_some_iff.mp found with ⟨⟨arg', rest⟩, later, same⟩
      cases same
      have rest_ := ih later
      exact rest_
    | some first =>
      unfold inlist at found
      split_ifs at found with here
      · cases found
        exact ⟨List.find?_cons_of_pos (by simpa using here), (List.eraseP_cons_of_pos (by simpa using here)).symm⟩
      · rcases Option.map_eq_some_iff.mp found with ⟨⟨arg', rest⟩, later, same⟩
        cases same
        rcases ih later with ⟨first_, others⟩
        constructor
        · exact (List.find?_cons_of_neg (by simpa using here)).trans first_
        · change first :: paths rest = use (first :: paths argv) fname
          rw [others, use, use, List.eraseP_cons_of_neg (by simpa using here)]

theorem argument_use {args : List Name} {fname other : Name} (different : fname ≠ other) :
    argument (use args fname) other = argument args other := by
  induction args with
  | nil => rfl
  | cons arg args ih =>
    unfold use argument at *
    by_cases here : canonical arg = fname
    · rw [List.eraseP_cons_of_pos (by simpa using here), List.find?_cons_of_neg]
      rw [here]
      simpa using different
    · rw [List.eraseP_cons_of_neg (by simpa using here)]
      by_cases found : canonical arg = other
      · rw [List.find?_cons_of_pos (by simpa using found), List.find?_cons_of_pos (by simpa using found)]
      · rw [List.find?_cons_of_neg (by simpa using found), List.find?_cons_of_neg (by simpa using found)]
        exact ih

theorem named_iff {args : List Name} {m : Member α} : Named args m ↔ (argument args m.fname).isSome := by
  unfold Named argument
  simp [List.find?_isSome]

/-- What goes through the members: some are kept where the run is, and some are moved. -/
structure Ran (st st' : State α) (kept moved : List (Member α)) (names : List Name) : Prop where
  before : st'.before = st.before ++ if st.cur = .BEFORE then kept else []
  indot : st'.indot = st.indot ++ moved
  after : st'.after = st.after ++ if st.cur = .AFTER then kept else []
  cur : st'.cur = st.cur
  argv : paths st'.argv = names.foldl use (paths st.argv)

theorem Ran.nil (st : State α) : Ran st st [] [] [] := by
  constructor <;> simp

theorem Ran.trans {st st₁ st₂ : State α} {kept kept' moved moved' : List (Member α)} {names names' : List Name}
    (first : Ran st st₁ kept moved names) (second : Ran st₁ st₂ kept' moved' names') :
    Ran st st₂ (kept ++ kept') (moved ++ moved') (names ++ names') := by
  constructor
  · rw [second.before, first.before, first.cur]
    split_ifs <;> simp
  · rw [second.indot, first.indot, List.append_assoc]
  · rw [second.after, first.after, first.cur]
    split_ifs <;> simp
  · rw [second.cur, first.cur]
  · rw [second.argv, first.argv, List.foldl_append]

/-- What a command does with a member depends on the argument for it: some of the member is kept
where the run is, and some is moved. The position member is where the run goes on to `AFTER`, unless it is
taken. -/
structure Step (o : Options) (f : State α → Member α → Option (State α))
    (kept moved : List Name → Member α → List (Member α)) (taken : List Name → Member α → Prop) : Prop where
  kept_of : ∀ {args args' : List Name} {m : Member α}, argument args m.fname = argument args' m.fname →
    kept args m = kept args' m
  moved_of : ∀ {args args' : List Name} {m : Member α}, argument args m.fname = argument args' m.fname →
    moved args m = moved args' m
  taken_of : ∀ {args args' : List Name} {m : Member α}, argument args m.fname = argument args' m.fname →
    taken args m → taken args' m
  ran : ∀ {st st' : State α} {m : Member α}, f st m = some st' → st.cur ≠ .INDOT →
    o.posname ≠ some m.fname ∨ taken (paths st.argv) m →
    Ran st st' (kept (paths st.argv) m) (moved (paths st.argv) m) [m.fname]
  stayed : ∀ {st st' : State α} {m : Member α}, f st m = some st' → o.posname = some m.fname →
    ¬ taken (paths st.argv) m → kept (paths st.argv) m = [m] ∧ moved (paths st.argv) m = [] ∧
    paths st'.argv = use (paths st.argv) m.fname ∧
    st' = { (State.put { st with argv := st'.argv } m (if o.bflag then .AFTER else .BEFORE)) with cur := .AFTER }

section Scan

variable {f : State α → Member α → Option (State α)} {kept moved : List Name → Member α → List (Member α)}
  {taken : List Name → Member α → Prop}

theorem argument_uses {args : List Name} {names : List Name} {fname : Name} (different : fname ∉ names) :
    argument (names.foldl use args) fname = argument args fname := by
  induction names generalizing args with
  | nil => rfl
  | cons name names ih =>
    rw [List.mem_cons, not_or] at different
    rw [List.foldl_cons, ih different.2, argument_use (Ne.symm different.1)]

theorem Step.rans (step : Step o f kept moved taken) {ms : List (Member α)} (distinct : (ms.map Member.fname).Nodup)
    {st st' : State α} (place : st.cur ≠ .INDOT)
    (elsewhere : ∀ m ∈ ms, o.posname ≠ some m.fname ∨ taken (paths st.argv) m) (run : ms.foldlM f st = some st') :
    Ran st st' (ms.flatMap (kept (paths st.argv))) (ms.flatMap (moved (paths st.argv))) (ms.map Member.fname) := by
  induction ms generalizing st with
  | nil =>
    cases run
    exact Ran.nil _
  | cons m ms ih =>
    rw [List.map_cons, List.nodup_cons] at distinct
    rw [List.foldlM_cons] at run
    rcases Option.bind_eq_some_iff.mp run with ⟨st₁, first, rest⟩
    have ran := step.ran first place (elsewhere m List.mem_cons_self)
    have same : ∀ m' ∈ ms, argument (paths st₁.argv) m'.fname = argument (paths st.argv) m'.fname := by
      intro m' member
      rw [ran.argv]
      refine argument_uses ?_
      intro same
      rw [List.mem_singleton] at same
      rw [← same] at distinct
      exact distinct.1 (List.mem_map_of_mem member)
    have place₁ : st₁.cur ≠ .INDOT := by
      rw [ran.cur]
      exact place
    have ran' := ih distinct.2 place₁ (fun m' member =>
      (elsewhere m' (List.mem_cons_of_mem _ member)).imp_right (step.taken_of (same m' member).symm)) rest
    rw [List.flatMap_congr fun m' member => step.kept_of (same m' member),
      List.flatMap_congr fun m' member => step.moved_of (same m' member)] at ran'
    exact ran.trans ran'

theorem Step.passes (step : Step o f kept moved taken) {pre post : List (Member α)} {p : Member α}
    (distinct : ((pre ++ p :: post).map Member.fname).Nodup) {st st' : State α} (place : st.cur = .BEFORE)
    (position : o.posname = some p.fname) (stays : ¬ taken (paths st.argv) p)
    (run : (pre ++ p :: post).foldlM f st = some st') :
    paths st'.argv = ((pre ++ p :: post).map Member.fname).foldl use (paths st.argv) ∧
    st'.before = st.before ++ (pre.flatMap (kept (paths st.argv)) ++ if o.bflag then [] else [p]) ∧
    st'.indot = st.indot ++ (pre ++ p :: post).flatMap (moved (paths st.argv)) ∧
    st'.after = st.after ++ ((if o.bflag then [p] else []) ++ post.flatMap (kept (paths st.argv))) := by
  rw [List.map_append, List.map_cons, List.nodup_append, List.nodup_cons] at distinct
  rcases distinct with ⟨distinct, ⟨notpost, distinct'⟩, apart⟩
  have notpre : p.fname ∉ pre.map Member.fname := fun member => apart _ member _ List.mem_cons_self rfl
  rw [List.foldlM_append] at run
  rcases Option.bind_eq_some_iff.mp run with ⟨st₁, first, run⟩
  rw [List.foldlM_cons] at run
  rcases Option.bind_eq_some_iff.mp run with ⟨st₂, second, third⟩
  have elsewhere : ∀ m ∈ pre, o.posname ≠ some m.fname ∨ taken (paths st.argv) m := by
    intro m member
    left
    rw [position]
    intro same
    rw [Option.some.inj same] at notpre
    exact notpre (List.mem_map_of_mem member)
  have ran := step.rans distinct (by rw [place]; decide) elsewhere first
  have samep : argument (paths st₁.argv) p.fname = argument (paths st.argv) p.fname := by
    rw [ran.argv]
    exact argument_uses notpre
  rcases step.stayed second position (fun taken => stays (step.taken_of samep taken)) with ⟨keptp, movedp, argvp, st₂_eq⟩
  rw [step.moved_of samep] at movedp
  have cur₂ : st₂.cur = .AFTER := by rw [st₂_eq]
  have elsewhere' : ∀ m ∈ post, o.posname ≠ some m.fname ∨ taken (paths st₂.argv) m := by
    intro m member
    left
    rw [position]
    intro same
    rw [Option.some.inj same] at notpost
    exact notpost (List.mem_map_of_mem member)
  have ran' := step.rans distinct' (by rw [cur₂]; decide) elsewhere' third
  have same : ∀ m ∈ post, argument (paths st₂.argv) m.fname = argument (paths st.argv) m.fname := by
    intro m member
    have notsame : p.fname ≠ m.fname := by
      intro same
      rw [same] at notpost
      exact notpost (List.mem_map_of_mem member)
    rw [argvp, argument_use notsame, ran.argv]
    refine argument_uses fun member' => apart _ member' _ (List.mem_cons_of_mem _ (List.mem_map_of_mem member)) rfl
  rw [List.flatMap_congr fun m member => step.kept_of (same m member),
    List.flatMap_congr fun m member => step.moved_of (same m member)] at ran'
  have before₂ : st₂.before = st₁.before ++ if o.bflag then [] else [p] := by
    rw [st₂_eq]
    cases o.bflag <;> simp [State.put]
  have indot₂ : st₂.indot = st₁.indot := by
    rw [st₂_eq]
    cases o.bflag <;> simp [State.put]
  have after₂ : st₂.after = st₁.after ++ if o.bflag then [p] else [] := by
    rw [st₂_eq]
    cases o.bflag <;> simp [State.put]
  refine ⟨?_, ?_, ?_, ?_⟩
  · rw [ran'.argv, argvp, ran.argv, List.map_append, List.foldl_append]
    rfl
  · rw [ran'.before, before₂, ran.before, place, cur₂]
    simp
  · rw [ran'.indot, indot₂, ran.indot, List.flatMap_append, List.flatMap_cons, movedp]
    simp
  · rw [ran'.after, after₂, ran.after, place, cur₂]
    simp

theorem Step.scans (step : Step o f kept moved taken) {ms : List (Member α)} (distinct : (ms.map Member.fname).Nodup)
    (present : ∀ p, o.posname = some p → p ∈ ms.map Member.fname) {argv : List Name} {st' : State α}
    (run : ms.foldlM f ⟨[], [], [], .BEFORE, argv.map some⟩ = some st') :
    paths st'.argv = (ms.map Member.fname).foldl use argv ∧ st'.indot = ms.flatMap (moved argv) ∧
    ((∀ m ∈ ms, o.posname = some m.fname → taken argv m) ∧
        st'.before = ms.flatMap (kept argv) ∧ st'.after = [] ∨
      ∃ pre p post, ms = pre ++ p :: post ∧ o.posname = some p.fname ∧ ¬ taken argv p ∧
        st'.before = pre.flatMap (kept argv) ++ (if o.bflag then [] else [p]) ∧
        st'.after = (if o.bflag then [p] else []) ++ post.flatMap (kept argv)) := by
  by_cases every : ∀ m ∈ ms, o.posname = some m.fname → taken argv m
  · have ran := step.rans distinct (show Tmp.BEFORE ≠ .INDOT by decide) (fun m member => by
      rw [paths_some]
      exact Classical.or_iff_not_imp_left.mpr fun position => every m member (not_not.mp position)) run
    rw [paths_some] at ran
    exact ⟨by simpa [paths_some] using ran.argv, by simpa using ran.indot,
      .inl ⟨every, by simpa using ran.before, by simpa using ran.after⟩⟩
  · push Not at every
    rcases every with ⟨p, member, position, stays⟩
    rcases List.append_of_mem member with ⟨pre, post, rfl⟩
    rcases step.passes distinct rfl position (by rw [paths_some]; exact stays) run with ⟨argv', before, indot, after⟩
    rw [paths_some] at argv' before indot after
    exact ⟨argv', by simpa using indot, .inr ⟨pre, p, post, rfl, position, stays, by simpa using before, by simpa using after⟩⟩

end Scan

end Scc.Ar.Edit
