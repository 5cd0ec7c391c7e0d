import Mathlib.Data.List.Count
import Scc.Ar.EditScan

/-!
# The law of editing

What `r`, `m` and `d` leave in the archive is what they should leave, except where the
position member is itself replaced or moved, or an argument is repeated.
-/

namespace Scc.Ar.Edit

set_option autoImplicit false

variable {α : Type} {o : Options} {files : Files α}

@[simp]
theorem put_argv (st : State α) (m : Member α) (place : Tmp) : (st.put m place).argv = st.argv := by
  cases place <;> rfl

theorem stay_argv (st : State α) (m : Member α) : (stay o st m).argv = st.argv := by
  unfold stay
  split_ifs <;> simp

variable {m : Member α} {args args' : List Name} {st st' : State α}

theorem stay_ran (st : State α) (place : st.cur ≠ .INDOT) (elsewhere : o.posname ≠ some m.fname) :
    Ran st (stay o st m) [m] [] [] := by
  unfold stay
  rw [if_neg elsewhere]
  cases here : st.cur with
  | BEFORE => constructor <;> simp [State.put, here]
  | INDOT => exact absurd here place
  | AFTER => constructor <;> simp [State.put, here]

theorem Named.congr (same : argument args m.fname = argument args' m.fname) :
    Named args m ↔ Named args' m := by
  rw [named_iff, named_iff, same]

theorem not_named {argv : List (Option Name)} (found : inlist m.fname argv = none) :
    ¬ Named (paths argv) m := by
  rw [named_iff, (inlist_none found).1]
  decide

theorem named {argv argv' : List (Option Name)} {arg : Name}
    (found : inlist m.fname argv = some (arg, argv')) : Named (paths argv) m := by
  rw [named_iff, (inlist_some found).1]
  rfl

theorem move_step : Step o (move o) (fun args (m : Member α) => if Named args m then [] else [m])
    (fun args m => if Named args m then [m] else []) Named := by
  constructor
  case kept_of =>
    intro args args' m same
    simp only [Named.congr same]
  case moved_of =>
    intro args args' m same
    simp only [Named.congr same]
  case taken_of =>
    intro args args' m same
    exact (Named.congr same).mp
  case ran =>
    intro st st' m moved place elsewhere
    unfold move at moved
    cases found : inlist m.fname st.argv with
    | none =>
      rw [found] at moved
      cases moved
      have unnamed := not_named found
      rw [if_neg unnamed, if_neg unnamed]
      have ran := stay_ran st place (elsewhere.resolve_right unnamed)
      exact ⟨ran.before, ran.indot, ran.after, ran.cur, ran.argv.trans (inlist_none found).2.symm⟩
    | some r =>
      rcases r with ⟨arg, argv⟩
      rw [found] at moved
      cases moved
      rw [if_pos (named found), if_pos (named found)]
      refine ⟨?_, rfl, ?_, rfl, (inlist_some found).2⟩
      · simp [State.put]
      · simp [State.put]
  case stayed =>
    intro st st' m moved position stays
    rw [if_neg stays, if_neg stays]
    unfold move at moved
    cases found : inlist m.fname st.argv with
    | some r => exact absurd (named found) stays
    | none =>
      rw [found] at moved
      cases moved
      unfold stay
      rw [if_pos position]
      refine ⟨rfl, rfl, ?_, ?_⟩
      · cases o.bflag <;> exact (inlist_none found).2.symm
      · cases o.bflag <;> rfl

theorem replacement_eq : replacement o files args m =
    (argument args m.fname).filter fun arg => !o.uflag || files.older m.body arg = some true := rfl

theorem replacement_congr (same : argument args m.fname = argument args' m.fname) :
    replacement o files args m = replacement o files args' m := by
  rw [replacement_eq, replacement_eq, same]

theorem current_congr (same : argument args m.fname = argument args' m.fname) :
    current o files args m = current o files args' m := by
  unfold current
  rw [replacement_congr same]

theorem current_of_none (unreplaced : replacement o files args m = none) : current o files args m = m := by
  unfold current
  rw [unreplaced]
  rfl

theorem current_fname (args : List Name) (m : Member α) : (current o files args m).fname = m.fname := by
  unfold current
  split <;> rfl

theorem update_cases (updated : update o files st m = some st') :
    paths st'.argv = use (paths st.argv) m.fname ∧ ((replacement o files (paths st.argv) m).isSome ∧
        st' = State.put { st with argv := st'.argv } (current o files (paths st.argv) m) st.cur ∨
      replacement o files (paths st.argv) m = none ∧ st' = stay o { st with argv := st'.argv } m) := by
  unfold update at updated
  cases found : inlist m.fname st.argv with
  | none =>
    rw [found] at updated
    cases updated
    rw [stay_argv]
    refine ⟨(inlist_none found).2.symm, .inr ⟨?_, rfl⟩⟩
    rw [replacement_eq, (inlist_none found).1]
    rfl
  | some r =>
    rcases r with ⟨arg, argv⟩
    rw [found] at updated
    rcases Option.bind_eq_some_iff.mp updated with ⟨newer, older, written⟩
    have used := inlist_some found
    have canon : canonical arg = m.fname := by simpa using List.find?_some used.1
    cases newer with
    | true =>
      rw [if_pos rfl] at written
      rcases Option.map_eq_some_iff.mp written with ⟨new, archived, rfl⟩
      rcases Option.map_eq_some_iff.mp archived with ⟨body, opened, rfl⟩
      have replaced : replacement o files (paths st.argv) m = some arg := by
        rw [replacement_eq, used.1, Option.filter_some, if_pos]
        by_cases uflag : o.uflag
        · rw [if_pos uflag] at older
          simp [older]
        · simp [uflag]
      have new_eq : current o files (paths st.argv) m = ⟨canonical arg, body⟩ := by
        unfold current
        rw [replaced, canon]
        simp [opened]
      rw [new_eq, replaced]
      refine ⟨?_, .inl ⟨rfl, ?_⟩⟩
      · cases st.cur <;> exact used.2
      · cases st.cur <;> rfl
    | false =>
      cases written
      rw [stay_argv]
      refine ⟨used.2, .inr ⟨?_, rfl⟩⟩
      rw [replacement_eq, used.1, Option.filter_some, if_neg]
      split_ifs at older with uflag
      · simp [uflag, older]
      · cases older

theorem update_step : Step o (update o files) (fun args m => [current o files args m])
    (fun _ _ => []) (fun args m => (replacement o files args m).isSome) := by
  constructor
  case kept_of =>
    intro args args' m same
    simp only [current_congr same]
  case moved_of =>
    intro args args' m _
    rfl
  case taken_of =>
    intro args args' m same
    rw [replacement_congr same]
    exact id
  case ran =>
    intro st st' m updated place elsewhere
    rcases update_cases updated with ⟨argv, ⟨-, written⟩ | ⟨unreplaced, stayed⟩⟩
    · rw [written] at argv ⊢
      cases here : st.cur with
      | BEFORE => exact ⟨by simp [State.put, here], by simp [State.put], by simp [State.put, here], here.symm, by simpa [State.put, here] using argv⟩
      | INDOT => exact absurd here place
      | AFTER => exact ⟨by simp [State.put, here], by simp [State.put], by simp [State.put, here], here.symm, by simpa [State.put, here] using argv⟩
    · have elsewhere' : o.posname ≠ some m.fname := by
        refine elsewhere.resolve_right ?_
        rw [unreplaced]
        decide
      have ran : Ran { st with argv := st'.argv } st' [m] [] [] := by
        have ran := stay_ran { st with argv := st'.argv } place elsewhere'
        rw [← stayed] at ran
        exact ran
      rw [current_of_none unreplaced]
      exact ⟨ran.before, ran.indot, ran.after, ran.cur, argv⟩
  case stayed =>
    intro st st' m updated position stays
    rcases update_cases updated with ⟨argv, ⟨replaced, -⟩ | ⟨unreplaced, stayed⟩⟩
    · exact absurd replaced stays
    · refine ⟨?_, rfl, argv, ?_⟩
      · rw [current_of_none unreplaced]
      · unfold stay at stayed
        rw [if_pos position] at stayed
        exact stayed

theorem dels {ms : List (Member α)} (distinct : (ms.map Member.fname).Nodup)
    (run : ms.foldlM del st = some st') :
    st'.before = st.before ++ ms.filter (fun m => ¬ Named (paths st.argv) m) ∧ st'.indot = st.indot ∧
    st'.after = st.after := by
  induction ms generalizing st with
  | nil =>
    cases run
    simp
  | cons m ms ih =>
    rw [List.map_cons, List.nodup_cons] at distinct
    rw [List.foldlM_cons] at run
    rcases Option.bind_eq_some_iff.mp run with ⟨st₁, first, rest⟩
    have rest_ := ih distinct.2 rest
    have one : st₁.before = st.before ++ (if Named (paths st.argv) m then [] else [m]) ∧ st₁.indot = st.indot ∧
        st₁.after = st.after ∧ paths st₁.argv = use (paths st.argv) m.fname := by
      unfold del at first
      cases found : inlist m.fname st.argv with
      | none =>
        rw [found] at first
        cases first
        rw [if_neg (not_named found)]
        exact ⟨rfl, rfl, rfl, (inlist_none found).2.symm⟩
      | some r =>
        rw [found] at first
        cases first
        rw [if_pos (named found)]
        exact ⟨(List.append_nil _).symm, rfl, rfl, (inlist_some found).2⟩
    have same : ms.filter (fun m => ¬ Named (paths st₁.argv) m) = ms.filter fun m => ¬ Named (paths st.argv) m := by
      refine List.filter_congr fun m' member => ?_
      have different : m.fname ≠ m'.fname := by
        intro same
        rw [same] at distinct
        exact distinct.1 (List.mem_map_of_mem member)
      have named_ : Named (paths st₁.argv) m' ↔ Named (paths st.argv) m' := by
        rw [one.2.2.2]
        exact Named.congr (argument_use different)
      simp [named_]
    rw [rest_.1, rest_.2.1, rest_.2.2, one.1, one.2.1, one.2.2.1, same, List.filter_cons]
    refine ⟨?_, rfl, rfl⟩
    by_cases named_ : Named (paths st.argv) m <;> simp [named_]

theorem insert_eq (inserted : insert files st = some st') :
    ∃ new, (paths st.argv).mapM (archive files) = some new ∧ st'.before = st.before ∧
      st'.indot = st.indot ++ new ∧ st'.after = st.after := by
  unfold insert at inserted
  generalize st.argv = argv at inserted ⊢
  induction argv generalizing st with
  | nil =>
    cases inserted
    exact ⟨[], rfl, rfl, (List.append_nil _).symm, rfl⟩
  | cons arg argv ih =>
    rw [List.foldlM_cons] at inserted
    rcases Option.bind_eq_some_iff.mp inserted with ⟨st₁, first, rest⟩
    rcases ih rest with ⟨new, archived, before, indot, after⟩
    cases arg with
    | none =>
      cases first
      exact ⟨new, archived, before, indot, after⟩
    | some arg =>
      rcases Option.map_eq_some_iff.mp first with ⟨m, opened, rfl⟩
      refine ⟨m :: new, ?_, before, ?_, after⟩
      · change (arg :: paths argv).mapM (archive files) = _
        rw [List.mapM_cons, opened, archived]
        rfl
      · rw [indot]
        simp [State.put]

theorem use_canonical (args : List Name) (fname : Name) :
    (use args fname).map canonical = (args.map canonical).erase fname := by
  induction args with
  | nil => rfl
  | cons arg args ih =>
    unfold use at *
    rw [List.map_cons, List.erase_cons]
    by_cases here : canonical arg = fname
    · rw [List.eraseP_cons_of_pos (by simpa using here), if_pos (by simpa using here)]
    · rw [List.eraseP_cons_of_neg (by simpa using here), if_neg (by simpa using here), List.map_cons, ih]

theorem uses_canonical (args names : List Name) :
    (names.foldl use args).map canonical = (args.map canonical).diff names := by
  induction names generalizing args with
  | nil => rfl
  | cons name names ih => rw [List.foldl_cons, ih, use_canonical, List.diff_cons]

theorem use_distinct (distinct : (args.map canonical).Nodup) (fname : Name) :
    use args fname = args.filter fun arg => canonical arg ≠ fname := by
  induction args with
  | nil => rfl
  | cons arg args ih =>
    rw [List.map_cons, List.nodup_cons] at distinct
    unfold use at *
    by_cases here : canonical arg = fname
    · rw [List.eraseP_cons_of_pos (by simpa using here), List.filter_cons_of_neg (by simpa using here)]
      refine (List.filter_eq_self.mpr fun other member => ?_).symm
      simp only [decide_eq_true_eq]
      intro same
      rw [here, ← same] at distinct
      exact distinct.1 (List.mem_map_of_mem member)
    · rw [List.eraseP_cons_of_neg (by simpa using here), List.filter_cons_of_pos (by simpa using here), ih distinct.2]

theorem uses_distinct (distinct : (args.map canonical).Nodup) (names : List Name) :
    names.foldl use args = args.filter fun arg => canonical arg ∉ names := by
  induction names generalizing args with
  | nil => simp
  | cons name names ih =>
    have fewer : ((use args name).map canonical).Nodup := by
      rw [use_canonical]
      exact distinct.erase name
    rw [List.foldl_cons, ih fewer, use_distinct distinct, List.filter_filter]
    refine List.filter_congr fun arg _ => ?_
    simp [Bool.and_comm]

theorem fresh_eq {argv : List Name} (distinct : (argv.map canonical).Nodup) (members : List (Member α)) :
    (members.map Member.fname).foldl use argv = fresh members argv := by
  rw [uses_distinct distinct]
  refine List.filter_congr fun arg _ => ?_
  simp

theorem archived_names {new : List (Member α)} (archived : args.mapM (archive files) = some new) :
    new.map Member.fname = args.map canonical := by
  induction args generalizing new with
  | nil =>
    cases archived
    rfl
  | cons arg args ih =>
    rw [List.mapM_cons] at archived
    rcases Option.bind_eq_some_iff.mp archived with ⟨m, first, rest⟩
    rcases Option.bind_eq_some_iff.mp rest with ⟨ms, others, same⟩
    cases same
    rcases Option.map_eq_some_iff.mp first with ⟨body, -, rfl⟩
    rw [List.map_cons, List.map_cons, ih others]

theorem nodup_added {names args : List Name} (distinct : names.Nodup) :
    (names ++ args.diff names).Nodup ↔ args.Nodup := by
  rw [List.nodup_iff_count_le_one, List.nodup_iff_count_le_one]
  rw [List.nodup_iff_count_le_one] at distinct
  refine forall_congr' fun name => ?_
  have once := distinct name
  rw [List.count_append, List.count_diff]
  omega

theorem place_unique {pre pre' post post' : List (Member α)} {m m' : Member α}
    (distinct : ((pre ++ m :: post).map Member.fname).Nodup) (same : pre ++ m :: post = pre' ++ m' :: post')
    (name : m.fname = m'.fname) : pre = pre' ∧ m = m' ∧ post = post' := by
  induction pre generalizing pre' with
  | nil =>
    cases pre' with
    | nil => exact ⟨rfl, List.cons.inj same⟩
    | cons first pre' =>
      rcases List.cons.inj same with ⟨rfl, rfl⟩
      rw [List.nil_append, List.map_cons, List.nodup_cons, name] at distinct
      exact absurd (List.mem_map_of_mem (List.mem_append_right _ List.mem_cons_self)) distinct.1
  | cons first pre ih =>
    rw [List.cons_append, List.map_cons, List.nodup_cons] at distinct
    cases pre' with
    | nil =>
      rcases List.cons.inj same with ⟨rfl, rfl⟩
      rw [← name] at distinct
      exact absurd (List.mem_map_of_mem (List.mem_append_right _ List.mem_cons_self)) distinct.1
    | cons first' pre' =>
      rcases List.cons.inj same with ⟨rfl, later⟩
      rcases ih distinct.2 later with ⟨rfl, rest⟩
      exact ⟨rfl, rest⟩

theorem append_comm_iff {group tail : List (Member α)} (apart : ∀ m ∈ group, ∀ m' ∈ tail, m.fname ≠ m'.fname) :
    tail ++ group = group ++ tail ↔ group = [] ∨ tail = [] := by
  constructor
  · intro same
    cases group with
    | nil => exact .inl rfl
    | cons m group =>
      cases tail with
      | nil => exact .inr rfl
      | cons m' tail =>
        have heads := (List.cons.inj same).1
        exact absurd (by rw [heads]) (apart m List.mem_cons_self m' List.mem_cons_self)
  · rintro (rfl | rfl) <;> simp

theorem placed_nil {base : List (Member α)} (present : ∀ p, o.posname = some p → p ∈ base.map Member.fname) :
    Placed o [] base base := by
  unfold Placed
  cases position : o.posname with
  | none => exact (List.append_nil _).symm
  | some p =>
    rcases List.mem_map.mp (present p position) with ⟨m, member, rfl⟩
    rcases List.append_of_mem member with ⟨pre, post, rfl⟩
    exact ⟨pre, m, post, rfl, rfl, by simp⟩

theorem placed_last {group pre post : List (Member α)} {m : Member α} (position : o.posname = some m.fname)
    (distinct : ((pre ++ m :: post).map Member.fname).Nodup)
    (apart : ∀ g ∈ group, ∀ m' ∈ pre ++ m :: post, g.fname ≠ m'.fname) :
    Placed o group (pre ++ m :: post) (pre ++ m :: post ++ group) ↔ group = [] ∨ o.bflag = false ∧ post = [] := by
  have here : Placed o group (pre ++ m :: post) (pre ++ m :: post ++ group) ↔ pre ++ m :: post ++ group =
      if o.bflag then pre ++ group ++ m :: post else pre ++ m :: (group ++ post) := by
    unfold Placed
    rw [position]
    constructor
    · rintro ⟨pre', m', post', same, name, placed⟩
      rcases place_unique distinct same name.symm with ⟨rfl, rfl, rfl⟩
      exact placed
    · exact fun placed => ⟨pre, m, post, rfl, rfl, placed⟩
  rw [here]
  cases o.bflag with
  | true =>
    have comm := append_comm_iff fun g member m' member' => apart g member m' (List.mem_append_right pre member')
    simpa using comm
  | false =>
    have comm := append_comm_iff fun g member m' member' =>
      apart g member m' (List.mem_append_right pre (List.mem_cons_of_mem m member'))
    simpa using comm

/-- Nothing moves away from the position or is replaced there while new members are added, unless these
belong at the end, and no argument is repeated. -/
def Meets (o : Options) (files : Files α) (key : Key) (members : List (Member α)) (argv : List Name) : Prop :=
  match key with
  | .d => True
  | .m => ∀ p, o.posname = some p → p ∉ argv.map canonical
  | .r => (argv.map canonical).Nodup ∧ ∀ pre m post, members = pre ++ m :: post → o.posname = some m.fname →
      (replacement o files argv m).isSome → fresh members argv = [] ∨ o.bflag = false ∧ post = []

section Laws

variable {members result : List (Member α)} {argv : List Name}

theorem not_named_nil (m : Member α) : ¬ Named [] m := by
  rintro ⟨arg, member, -⟩
  cases member

variable (files) in
theorem law_nil (distinct : (members.map Member.fname).Nodup)
    (present : ∀ p, o.posname = some p → p ∈ members.map Member.fname) (key : Key) :
    Law o files key members [] members ∧ Meets o files key members [] := by
  have unnamed : members.filter (fun m => ¬ Named [] m) = members :=
    List.filter_eq_self.mpr fun m _ => by simpa using not_named_nil m
  cases key with
  | r =>
    have same : members.map (current o files []) = members :=
      (List.map_congr_left fun m _ => current_of_none rfl).trans (List.map_id members)
    refine ⟨⟨distinct, [], rfl, ?_⟩, List.nodup_nil, fun _ _ _ _ _ _ => .inl rfl⟩
    rw [same]
    exact placed_nil present
  | m =>
    refine ⟨?_, fun p _ member => by cases member⟩
    have none_named : members.filter (fun m => Named [] m) = [] :=
      List.filter_eq_nil_iff.mpr fun m _ => by simpa using not_named_nil m
    unfold Law
    rw [unnamed, none_named]
    exact placed_nil present
  | d => exact ⟨unnamed.symm, trivial⟩

theorem named_mem {m : Member α} : Named argv m ↔ m.fname ∈ argv.map canonical := by
  unfold Named
  rw [List.mem_map]

theorem flatMap_ite {β : Type} (p : β → Prop) [DecidablePred p] (ms : List β) :
    (ms.flatMap fun m => if p m then [m] else []) = ms.filter p := by
  induction ms with
  | nil => rfl
  | cons m ms ih => by_cases here : p m <;> simp [here, ih]

theorem move_law (distinct : (members.map Member.fname).Nodup)
    (present : ∀ p, o.posname = some p → p ∈ members.map Member.fname) {st : State α}
    (run : members.foldlM (move o) ⟨[], [], [], .BEFORE, argv.map some⟩ = some st) :
    Law o files .m members argv (merge st) ↔ Meets o files .m members argv := by
  have kept (ms : List (Member α)) : ms.flatMap (fun m => if Named argv m then [] else [m]) =
      ms.filter fun m => ¬ Named argv m := by
    rw [← flatMap_ite]
    refine List.flatMap_congr fun m _ => ?_
    by_cases here : Named argv m <;> simp [here]
  have moved : members.flatMap (fun m => if Named argv m then [m] else []) = members.filter fun m => Named argv m :=
    flatMap_ite _ members
  rcases move_step.scans distinct present run with ⟨-, indot, ⟨every, before, after⟩ |
    ⟨pre, p, post, rfl, position, stays, before, after⟩⟩
  · rw [kept] at before
    rw [moved] at indot
    unfold Law Meets merge
    rw [before, indot, after, List.append_nil]
    cases position : o.posname with
    | none =>
      have placed : Placed o (members.filter fun m => Named argv m) (members.filter fun m => ¬ Named argv m)
          ((members.filter fun m => ¬ Named argv m) ++ members.filter fun m => Named argv m) := by
        unfold Placed
        rw [position]
      exact iff_of_true placed (by simp)
    | some p =>
      rcases List.mem_map.mp (present p position) with ⟨m, member, rfl⟩
      have named_ : m.fname ∈ argv.map canonical := named_mem.mp (every m member position)
      refine iff_of_false ?_ (fun meets => meets _ rfl named_)
      unfold Placed
      rw [position]
      rintro ⟨pre, m', post, base, name, -⟩
      have kept_ : m' ∈ members.filter fun m => ¬ Named argv m := by
        rw [base]
        exact List.mem_append_right _ List.mem_cons_self
      have unnamed := (List.mem_filter.mp kept_).2
      simp only [decide_eq_true_eq] at unnamed
      rw [named_mem, name] at unnamed
      exact unnamed named_
  · rw [kept] at before after
    rw [moved] at indot
    refine iff_of_true ?_ ?_
    · unfold Law Placed merge
      rw [position, before, indot, after]
      refine ⟨pre.filter (fun m => ¬ Named argv m), p, post.filter (fun m => ¬ Named argv m), ?_, rfl, ?_⟩
      · rw [List.filter_append, List.filter_cons_of_pos (by simpa using stays)]
      · cases o.bflag <;> simp
    · intro name at_
      rw [position] at at_
      rw [← Option.some.inj at_, ← named_mem]
      exact stays

theorem update_merge (distinct : (members.map Member.fname).Nodup)
    (present : ∀ p, o.posname = some p → p ∈ members.map Member.fname) {st st' : State α}
    (run : members.foldlM (update o files) ⟨[], [], [], .BEFORE, argv.map some⟩ = some st)
    (inserted : insert files st = some st') :
    ∃ new, ((members.map Member.fname).foldl use argv).mapM (archive files) = some new ∧
      ((∀ m ∈ members, o.posname = some m.fname → (replacement o files argv m).isSome) ∧
          merge st' = members.map (current o files argv) ++ new ∨
        ∃ pre p post, members = pre ++ p :: post ∧ o.posname = some p.fname ∧
          ¬ (replacement o files argv p).isSome ∧ merge st' = pre.map (current o files argv) ++
            (if o.bflag then new ++ [p] else p :: new) ++ post.map (current o files argv)) := by
  have single (ms : List (Member α)) : ms.flatMap (fun m => [current o files argv m]) = ms.map (current o files argv) :=
    List.map_eq_flatMap.symm
  rcases update_step.scans distinct present run with ⟨left, indot, places⟩
  rcases insert_eq inserted with ⟨new, archived, before', indot', after'⟩
  rw [left] at archived
  have nothing : st.indot = [] := indot.trans (List.flatMap_eq_nil_iff.mpr fun _ _ => rfl)
  refine ⟨new, archived, ?_⟩
  unfold merge
  rw [before', indot', after', nothing, List.nil_append]
  rcases places with ⟨every, before, after⟩ | ⟨pre, p, post, same, position, stays, before, after⟩
  · left
    rw [single] at before
    refine ⟨every, ?_⟩
    rw [before, after, List.append_nil]
  · right
    rw [single] at before after
    refine ⟨pre, p, post, same, position, stays, ?_⟩
    rw [before, after]
    cases o.bflag <;> simp

variable (o files argv) in
theorem currents_fname (ms : List (Member α)) :
    (ms.map (current o files argv)).map Member.fname = ms.map Member.fname := by
  rw [List.map_map]
  exact List.map_congr_left fun m _ => current_fname argv m

theorem replaced_placed (distinct : (members.map Member.fname).Nodup)
    (present : ∀ p, o.posname = some p → p ∈ members.map Member.fname) {new : List (Member α)}
    (archived : (fresh members argv).mapM (archive files) = some new)
    (every : ∀ m ∈ members, o.posname = some m.fname → (replacement o files argv m).isSome) :
    Placed o new (members.map (current o files argv)) (members.map (current o files argv) ++ new) ↔
      ∀ pre m post, members = pre ++ m :: post → o.posname = some m.fname →
        (replacement o files argv m).isSome → fresh members argv = [] ∨ o.bflag = false ∧ post = [] := by
  have names := archived_names archived
  have none_new : new = [] ↔ fresh members argv = [] := by
    rw [← List.map_eq_nil_iff (f := Member.fname), names, List.map_eq_nil_iff]
  cases position : o.posname with
  | none =>
    refine iff_of_true ?_ (by simp)
    unfold Placed
    rw [position]
  | some p =>
    rcases List.mem_map.mp (present p position) with ⟨m, member, rfl⟩
    rcases List.append_of_mem member with ⟨pre, post, same⟩
    have apart : ∀ g ∈ new, ∀ m' ∈ members.map (current o files argv), g.fname ≠ m'.fname := by
      intro g new_ m' old
      have g_name : g.fname ∈ (fresh members argv).map canonical := by
        rw [← names]
        exact List.mem_map_of_mem new_
      rcases List.mem_map.mp g_name with ⟨arg, argmem, canon⟩
      rcases List.mem_map.mp old with ⟨m₀, old₀, rfl⟩
      have notmember := (List.mem_filter.mp argmem).2
      simp only [decide_eq_true_eq] at notmember
      rw [← canon, current_fname]
      exact (notmember m₀ old₀).symm
    have distinct' := distinct
    rw [← currents_fname o files argv, same, List.map_append, List.map_cons] at distinct'
    rw [same, List.map_append, List.map_cons] at apart
    have last := placed_last (position.trans (congrArg some (current_fname argv m).symm)) distinct' apart
    rw [same, List.map_append, List.map_cons, last, ← same, none_new, List.map_eq_nil_iff]
    constructor
    · intro placed pre' m' post' same' position' _
      rw [same] at distinct same'
      rcases place_unique distinct same' (Option.some.inj position') with ⟨rfl, rfl, rfl⟩
      exact placed
    · intro condition
      exact condition pre m post same rfl (every m member position)

theorem update_law (distinct : (members.map Member.fname).Nodup)
    (present : ∀ p, o.posname = some p → p ∈ members.map Member.fname) {st st' : State α}
    (run : members.foldlM (update o files) ⟨[], [], [], .BEFORE, argv.map some⟩ = some st)
    (inserted : insert files st = some st') :
    Law o files .r members argv (merge st') ↔ Meets o files .r members argv := by
  rcases update_merge distinct present run inserted with ⟨new, archived, places⟩
  have names := archived_names archived
  rw [uses_canonical] at names
  have perm : ((merge st').map Member.fname).Perm
      (members.map Member.fname ++ (argv.map canonical).diff (members.map Member.fname)) := by
    rw [← names]
    rcases places with ⟨-, merged⟩ | ⟨pre, p, post, rfl, -, -, merged⟩
    · rw [merged, List.map_append, currents_fname o files argv]
    · rw [merged, List.map_append, List.map_append, currents_fname o files argv, currents_fname o files argv, List.perm_iff_count]
      intro name
      cases o.bflag <;> simp [List.count_append, List.count_cons] <;> omega
  unfold Law Meets
  by_cases once : (argv.map canonical).Nodup
  · rw [fresh_eq once] at archived
    have result : (∃ new', (fresh members argv).mapM (archive files) = some new' ∧
        Placed o new' (members.map (current o files argv)) (merge st')) ↔
        Placed o new (members.map (current o files argv)) (merge st') := by
      rw [archived]
      simp
    have nodup := perm.nodup_iff.mpr ((nodup_added distinct).mpr once)
    refine (and_iff_right nodup).trans (result.trans (Iff.trans ?_ (and_iff_right once).symm))
    rcases places with ⟨every, merged⟩ | ⟨pre, p, post, same, position, stays, merged⟩
    · rw [merged]
      exact replaced_placed distinct present archived every
    · refine iff_of_true ?_ ?_
      · unfold Placed
        rw [position, merged, same]
        refine ⟨pre.map (current o files argv), p, post.map (current o files argv), ?_, rfl, ?_⟩
        · rw [List.map_append, List.map_cons, current_of_none (by simpa using stays)]
        · cases o.bflag <;> simp
      · intro pre' m' post' same' position' replaced
        rw [same] at distinct same'
        have names' : p.fname = m'.fname := Option.some.inj (position.symm.trans position')
        rcases place_unique distinct same' names' with ⟨-, rfl, -⟩
        exact absurd replaced stays
  · refine iff_of_false ?_ fun meets => once meets.1
    intro law
    exact once ((nodup_added distinct).mp (perm.nodup_iff.mp law.1))

/-- The result is what it should be exactly in these cases. -/
theorem edits_iff (distinct : (members.map Member.fname).Nodup)
    (present : ∀ p, o.posname = some p → p ∈ members.map Member.fname) {key : Key}
    (run : ar o files key members argv = some result) :
    Law o files key members argv result ↔ Meets o files key members argv := by
  unfold ar at run
  split_ifs at run with names nothing
  · cases run
    rw [nothing]
    have both := law_nil files distinct present key
    exact iff_of_true both.1 both.2
  · cases key with
    | r =>
      rcases Option.map_eq_some_iff.mp run with ⟨st', both, rfl⟩
      rcases Option.bind_eq_some_iff.mp both with ⟨st, updated, inserted⟩
      exact update_law distinct present updated inserted
    | m =>
      rcases Option.map_eq_some_iff.mp run with ⟨st, moved, rfl⟩
      exact move_law distinct present moved
    | d =>
      rcases Option.map_eq_some_iff.mp run with ⟨st, deleted, rfl⟩
      rcases dels distinct deleted with ⟨before, indot, after⟩
      refine iff_of_true ?_ trivial
      unfold Law merge
      rw [before, indot, after, paths_some]
      simp

/-- Files of which the member `b` is replaced. -/
def someFiles : Files Nat := ⟨fun fname => if fname = ['b'] then some 7 else some 8, fun _ _ => some true⟩

theorem edits_iff_before : ar ⟨some ['c'], true, false⟩ someFiles .r [⟨['b'], 1⟩, ⟨['c'], 2⟩] [['b'], ['d']] =
      some [⟨['b'], 7⟩, ⟨['d'], 8⟩, ⟨['c'], 2⟩] ∧
    (Law ⟨some ['c'], true, false⟩ someFiles .r [⟨['b'], 1⟩, ⟨['c'], 2⟩] [['b'], ['d']]
        [⟨['b'], 7⟩, ⟨['d'], 8⟩, ⟨['c'], 2⟩] ↔
      Meets ⟨some ['c'], true, false⟩ someFiles .r [⟨['b'], 1⟩, ⟨['c'], 2⟩] [['b'], ['d']]) :=
  ⟨by decide, edits_iff (by decide) (by simp) (by decide)⟩

/-- `ar -r -a b`, where `b` is itself replaced: the new member `d` does not come after it. -/
theorem position_replaced :
    ∃ (o : Options) (files : Files Nat) (members result : List (Member Nat)) (argv : List Name),
      (members.map Member.fname).Nodup ∧ (∀ p, o.posname = some p → p ∈ members.map Member.fname) ∧
      ar o files .r members argv = some result ∧ ¬ Law o files .r members argv result := by
  refine ⟨⟨some ['b'], false, false⟩, someFiles, [⟨['b'], 1⟩, ⟨['c'], 2⟩], [⟨['b'], 7⟩, ⟨['c'], 2⟩, ⟨['d'], 8⟩],
    [['b'], ['d']], by decide, by simp, by decide, ?_⟩
  rintro ⟨-, new, archived, placed⟩
  have new_eq : new = [⟨['d'], 8⟩] := Option.some.inj (archived.symm.trans (by decide))
  have base : [⟨['b'], 1⟩, ⟨['c'], 2⟩].map (current ⟨some ['b'], false, false⟩ someFiles [['b'], ['d']]) =
      [⟨['b'], 7⟩, ⟨['c'], 2⟩] := by decide
  rw [base, new_eq] at placed
  rcases placed with ⟨pre, m, post, same, name, result⟩
  have first : [] ++ (⟨['b'], 7⟩ : Member Nat) :: [⟨['c'], 2⟩] = pre ++ m :: post := same
  rcases place_unique (by decide) first name.symm with ⟨rfl, rfl, rfl⟩
  exact absurd result (by decide)

end Laws

end Scc.Ar.Edit
