import Scc.Cc1.StatementPlace
import Scc.Cc1.SwitchValue

/-!
# Labels and cases

A marked statement is found among the statements if and only if its label is found among
the records, and the label leads to the records of that statement.
-/

namespace Scc.Cc1.Lowering

set_option autoImplicit false

variable {arch : Arch} {program : List Emit} {key : Key}

/-- A record that neither marks a statement nor belongs to a switch. -/
def Emit.quiet : Emit → Bool
  | .OLABEL (.user _) => false
  | .OCASE _ => false
  | .ODEFAULT _ => false
  | record => record.flat

/-- What is looked for when control is passed to a marked statement. -/
def Key.marks : Key → Bool
  | .label (.fresh _) => false
  | .exit => false
  | _ => true

theorem hit_quiet {record : Emit} (quiet : record.quiet = true) (marks : key.marks = true)
    (rest : List Emit) : hit arch key record rest = none := by
  cases record with
  | OLABEL sym =>
    cases sym with
    | user name => cases quiet
    | fresh id =>
      cases key with
      | label sym =>
        cases sym with
        | user name => rfl
        | fresh _ => cases marks
      | _ => rfl
  | OCASE sym => cases quiet
  | ODEFAULT sym => cases quiet
  | OESWITCH sym => cases quiet
  | _ => rfl

theorem quiet_flat {record : Emit} (quiet : record.quiet = true) : record.flat = true := by
  cases record with
  | OBSWITCH => cases quiet
  | OESWITCH sym => cases quiet
  | _ => rfl

variable {code : List Emit} {goal : Target} {st st' : State} {s : Stmt arch}

theorem search_quiet (quiet : code.all Emit.quiet = true)
    (marks : key.marks = true) (depth : Nat) (tail : List Emit) :
    search arch key depth (code ++ tail) = search arch key depth tail := by
  induction code with
  | nil => rfl
  | cons record code ih =>
    rw [List.all_cons, Bool.and_eq_true] at quiet
    rw [List.cons_append, search_plain (hit_quiet quiet.1 marks _) (quiet_flat quiet.1)]
    exact ih quiet.2

theorem branch_quiet (sym : Label) (np : Option Node) : (branch sym np).all Emit.quiet = true := by
  unfold branch
  split
  · rfl
  · split_ifs <;> rfl
  · rfl

def Key.visible (key : Key) (depth : Nat) : Prop := depth = 0 ∨ key.everywhere = true

/-- The records of a statement have what is found in the statement, and nothing else. -/
def Finds (program : List Emit) (key : Key) (found : Option (Stmt arch × Cont arch))
    (code : List Emit) : Prop :=
  match found with
  | none => ∀ depth tail, key.visible depth →
      search arch key depth (code ++ tail) = search arch key depth tail
  | some (s, k) => ∃ sym rest, (∀ depth tail, key.visible depth →
      search arch key depth (code ++ tail) = some sym) ∧ target program sym = some rest ∧
        Placed program s k rest

theorem Finds.quiet (quiet : code.all Emit.quiet = true)
    (marks : key.marks = true) : Finds program key (none : Option (Stmt arch × Cont arch)) code :=
  fun depth tail _ => search_quiet quiet marks depth tail

theorem Finds.append {found found' : Option (Stmt arch × Cont arch)} {code code' : List Emit}
    (first : Finds program key found code) (second : Finds program key found' code') :
    Finds program key (found.or found') (code ++ code') := by
  cases found with
  | some place =>
    rcases first with ⟨sym, rest, searched, found, placed⟩
    refine ⟨sym, rest, fun depth tail visible => ?_, found, placed⟩
    rw [List.append_assoc]
    exact searched depth _ visible
  | none =>
    cases found' with
    | some place =>
      rcases second with ⟨sym, rest, searched, found, placed⟩
      refine ⟨sym, rest, fun depth tail visible => ?_, found, placed⟩
      rw [List.append_assoc, first depth _ visible]
      exact searched depth _ visible
    | none =>
      intro depth tail visible
      rw [List.append_assoc, first depth _ visible]
      exact second depth _ visible

theorem Finds.inside {found : Option (Stmt arch × Cont arch)}
    (inner : Finds program key found code) (marks : key.marks = true) (before behind : List Emit)
    (start : before.all Emit.quiet = true) (finish : behind.all Emit.quiet = true) :
    Finds program key found (before ++ (code ++ behind)) := by
  have around := (Finds.quiet start marks).append (inner.append (Finds.quiet finish marks))
  rwa [Option.or_none, Option.none_or] at around

/-- The key of a place that control is passed to. -/
def Seeks (arch : Arch) : Target → Key → Prop
  | .label name, .label sym => sym = .user name
  | .case type value, .case value' => ∀ c, type.wrap c = value ↔ arch.inttype.wrap c = value'
  | .default, .default => True
  | _, _ => False

theorem Seeks.marks (seeks : Seeks arch goal key) : key.marks = true := by
  cases goal <;> cases key <;> first | rfl | (cases seeks; done) | skip
  cases seeks
  rfl

theorem hit_label (sym sym' : Label) (rest : List Emit) :
    hit arch (.label sym') (.OLABEL sym) rest = if sym = sym' then some sym else none := rfl

theorem hit_case {rest : List Emit} {value : Int} (constant_ : constant arch rest = some value)
    (sym : Label) (value' : Int) :
    hit arch (.case value') (.OCASE sym) rest = if value = value' then some sym else none := by
  unfold hit
  dsimp only
  rw [constant_]
  simp

theorem mark_finds (seeks : Seeks arch goal key) {m : Mark}
    {before : List Emit × State} (made : mark arch st m = some before) :
    ∃ start sym, before.1 = start ++ [.OLABEL sym] ∧
      ∀ depth tail, key.visible depth → search arch key depth (before.1 ++ tail) =
        if goal.matches m then some sym else search arch key depth tail := by
  cases m with
  | label name =>
    unfold mark at made
    dsimp only at made
    split_ifs at made
    cases made
    refine ⟨[], .user name, rfl, fun depth tail visible => ?_⟩
    change search arch key depth (.OLABEL (.user name) :: tail) = _
    cases goal with
    | label name' =>
      cases key with
      | label sym =>
        have same : sym = .user name' := seeks
        subst same
        by_cases here : name' = name
        · subst here
          rw [search_hit visible ((hit_label _ _ _).trans (if_pos rfl))]
          simp [Target.matches]
        · have other : Label.user name ≠ .user name' := fun same => here (Label.user.inj same).symm
          rw [search_plain ((hit_label _ _ _).trans (if_neg other)) rfl]
          simp [Target.matches, here]
      | _ => cases seeks
    | case type value =>
      cases key with
      | case value' => exact search_plain rfl rfl
      | _ => cases seeks
    | default =>
      cases key with
      | default => exact search_plain rfl rfl
      | _ => cases seeks
  | case type value fits =>
    rcases Option.bind_eq_some_iff.mp made with ⟨np, folded, made⟩
    rcases Option.bind_eq_some_iff.mp made with ⟨sw, _, made⟩
    split_ifs at made
    cases made
    refine ⟨[.OCASE (st.label 0), .OEXPR (some np)], st.label 0, rfl, fun depth tail visible => ?_⟩
    have others : search arch key depth (.OEXPR (some np) :: .OLABEL (st.label 0) :: tail) =
        search arch key depth tail :=
      search_quiet (show [Emit.OEXPR (some np), .OLABEL (st.label 0)].all Emit.quiet = true from rfl)
        seeks.marks depth tail
    change search arch key depth (.OCASE (st.label 0) :: .OEXPR (some np) :: .OLABEL (st.label 0) ::
      tail) = _
    have constant_ := constexpr_eval fits folded (.OLABEL (st.label 0) :: tail)
    cases goal with
    | label name =>
      cases key with
      | label sym => exact (search_plain rfl rfl).trans others
      | _ => cases seeks
    | case type' value' =>
      cases key with
      | case value'' =>
        have told := seeks value
        have hits := hit_case constant_ (st.label 0) value''
        by_cases here : type'.wrap value = value'
        · rw [search_hit visible (hits.trans (if_pos (told.mp here)))]
          simp [Target.matches, here]
        · have other : arch.inttype.wrap value ≠ value'' := fun same => here (told.mpr same)
          rw [search_plain (hits.trans (if_neg other)) rfl, others]
          simp [Target.matches, here]
      | _ => cases seeks
    | default =>
      cases key with
      | default => exact (search_plain rfl rfl).trans others
      | _ => cases seeks
  | default =>
    rcases Option.bind_eq_some_iff.mp made with ⟨sw, _, made⟩
    split_ifs at made
    cases made
    refine ⟨[.ODEFAULT (st.label 0)], st.label 0, rfl, fun depth tail visible => ?_⟩
    have others : search arch key depth (.OLABEL (st.label 0) :: tail) = search arch key depth tail :=
      search_quiet (show [Emit.OLABEL (st.label 0)].all Emit.quiet = true from rfl) seeks.marks depth
        tail
    change search arch key depth (.ODEFAULT (st.label 0) :: .OLABEL (st.label 0) :: tail) = _
    cases goal with
    | label name =>
      cases key with
      | label sym => exact (search_plain rfl rfl).trans others
      | _ => cases seeks
    | case type value =>
      cases key with
      | case value' => exact (search_plain rfl rfl).trans others
      | _ => cases seeks
    | default =>
      cases key with
      | default => exact search_hit visible rfl
      | _ => cases seeks


theorem Placed.of {k : Cont arch} {lbreak lcont : Option Label}
    {code more : List Emit} (made : stmt s lbreak lcont st = some (code, st'))
    (suffix : code ++ more <:+ program) (later : Resumes program lbreak lcont k more) :
    Placed program s k (code ++ more) :=
  ⟨suffix, lbreak, lcont, st, code, st', more, made, rfl, later⟩

theorem suffix_behind (before : List Emit) (suffix : before ++ code <:+ program) : code <:+ program :=
  (List.suffix_append before code).trans suffix

theorem loopTail_quiet (again last : Nat) (econd : Option Node) :
    (loopTail (.fresh again) (.fresh last) econd []).all Emit.quiet = true := by
  rw [loopTail, List.all_cons, List.all_append, branch_quiet]
  rfl

theorem forHead_quiet (test : Label) (einit econd : Option Node) :
    (forHead test einit econd).all Emit.quiet = true := by
  cases einit <;> cases econd <;> rfl

theorem search_out {sym : Label} (depth last : Nat) (tail : List Emit) :
    search arch (.label sym) (depth + 1) (.OESWITCH (.fresh last) :: tail) =
      search arch (.label sym) depth tail := by
  rw [search_cons]
  rfl

theorem Finds.swtch {name : String} {found : Option (Stmt arch × Cont arch)} {inner : List Emit}
    (finds : Finds program (.label (.user name)) found inner) (np : Node) (last : Nat) :
    Finds program (.label (.user name)) found (.OBSWITCH :: .OEXPR (some np) ::
      (inner ++ [.OESWITCH (.fresh last), .OLABEL (.fresh last)])) := by
  have enters : ∀ depth tail, search arch (.label (.user name)) depth
      ((.OBSWITCH :: .OEXPR (some np) ::
        (inner ++ [.OESWITCH (.fresh last), .OLABEL (.fresh last)])) ++ tail) =
      search arch (.label (.user name)) (depth + 1)
        (inner ++ .OESWITCH (.fresh last) :: .OLABEL (.fresh last) :: tail) := by
    intro depth tail
    have operand : ∀ rest, search arch (.label (.user name)) (depth + 1) (.OEXPR (some np) :: rest) =
        search arch (.label (.user name)) (depth + 1) rest := fun rest => search_plain rfl rfl
    simp only [List.cons_append, List.append_assoc, List.nil_append]
    rw [search_cons, ← operand]
    cases depth <;> rfl
  cases found with
  | some place =>
    rcases finds with ⟨sym, rest, searched, found, placed⟩
    refine ⟨sym, rest, fun depth tail _ => ?_, found, placed⟩
    rw [enters]
    exact searched (depth + 1) _ (Or.inr rfl)
  | none =>
    intro depth tail _
    rw [enters, finds (depth + 1) _ (Or.inr rfl), search_out]
    exact search_plain rfl rfl

theorem Finds.closed {inner : List Emit} (balanced : Balanced inner) (marks : key.marks = true)
    (local_ : key.everywhere = false) (np : Node) (last : Nat) :
    Finds program key (none : Option (Stmt arch × Cont arch)) (.OBSWITCH :: .OEXPR (some np) ::
      (inner ++ [.OESWITCH (.fresh last), .OLABEL (.fresh last)])) := by
  intro depth tail visible
  have outside : depth = 0 := visible.resolve_right (by rw [local_]; decide)
  subst outside
  have inside : Balanced (.OEXPR (some np) :: inner) := .plain rfl balanced
  have enters : search arch key 0 (.OBSWITCH :: ((.OEXPR (some np) :: inner) ++
      .OESWITCH (.fresh last) :: .OLABEL (.fresh last) :: tail)) =
      search arch key 0 (.OLABEL (.fresh last) :: tail) := by
    have misses : ∀ rest, hit arch key .OBSWITCH rest = none := fun rest => rfl
    rw [search_cons, misses]
    change search arch key 1 _ = _
    rw [search_deep inside local_ 0, search_cons, local_]
    rfl
  simp only [List.cons_append, List.append_assoc, List.nil_append] at enters ⊢
  rw [enters]
  exact search_plain (hit_quiet rfl marks _) rfl

theorem find_finds (once : (labels program).Nodup) (seeks : Seeks arch goal key) :
    ∀ {k : Cont arch} {lbreak lcont : Option Label} {st st' : State} {code more : List Emit},
      stmt s lbreak lcont st = some (code, st') → code ++ more <:+ program →
        Resumes program lbreak lcont k more → Finds program key (find goal s k) code := by
  have marks := seeks.marks
  induction s with
  | null =>
    intro k lbreak lcont st st' code more made suffix later
    cases made
    exact Finds.quiet rfl marks
  | exp e =>
    intro k lbreak lcont st st' code more made suffix later
    rcases Option.map_eq_some_iff.mp made with ⟨np, _, built⟩
    cases built
    exact Finds.quiet rfl marks
  | mark m s ih =>
    intro k lbreak lcont st st' code more made suffix later
    rcases stmt_mark made with ⟨before, inner, marked, body, rfl⟩
    rw [List.append_assoc] at suffix
    rcases mark_finds seeks marked with ⟨start, sym, shape, searched⟩
    have rest : Finds program key (find goal s k) inner := ih body (suffix_behind _ suffix) later
    unfold find
    by_cases here : goal.matches m = true
    · rw [if_pos here]
      refine ⟨sym, inner ++ more, fun depth tail visible => ?_, ?_, ?_⟩
      · rw [List.append_assoc, searched depth _ visible, if_pos here]
      · apply target_suffix once
        rw [shape, List.append_assoc] at suffix
        exact suffix_behind _ suffix
      · exact Placed.of body (suffix_behind _ suffix) later
    · rw [if_neg here]
      have nothing : Finds program key (none : Option (Stmt arch × Cont arch)) before.1 := by
        intro depth tail visible
        rw [searched depth tail visible, if_neg here]
      have both := nothing.append rest
      rwa [Option.none_or] at both
  | compound items ih =>
    intro k lbreak lcont st st' code more made suffix later
    rcases stmt_compound made with ⟨st₁, st₂, body⟩
    exact ih body suffix later
  | item s rest ih ih' =>
    intro k lbreak lcont st st' code more made suffix later
    rcases stmt_item made with ⟨first, second, middle, head, tail, rfl⟩
    rw [List.append_assoc] at suffix
    exact (ih head suffix (.item tail later)).append (ih' tail (suffix_behind _ suffix) later)
  | If cond s ih =>
    intro k lbreak lcont st st' code more made suffix later
    rcases stmt_if made with ⟨np, lelse, inner, st₁, st₂, _, body, rfl⟩
    rw [List.append_assoc, List.append_assoc] at suffix
    exact (ih body (suffix_behind _ suffix) (.label _ (.fi later))).inside marks _ _ (branch_quiet _ _) rfl
  | Ifelse cond s lelse ih ih' =>
    intro k lbreak lcont st st' code more made suffix later
    rcases stmt_ifelse made with ⟨np, no, last, first, second, st₁, st₂, st₃, st₄, _, yes, other, rfl⟩
    simp only [List.append_assoc, List.cons_append] at suffix
    have second_suffix : .OLABEL (.fresh no) :: (second ++ ([.OLABEL (.fresh last)] ++ more)) <:+
        program := (List.suffix_cons _ _).trans (suffix_behind _ (suffix_behind _ suffix))
    have inner_suffix := (List.suffix_cons _ _).trans second_suffix
    have last_label : target program (.fresh last) = some more :=
      target_suffix once (suffix_behind _ inner_suffix)
    have found := ih yes (suffix_behind _ suffix) (.jump _ last_label (.fi later))
    have found' := ih' other inner_suffix (.label _ (.fi later))
    have both := found.append
      (found'.inside marks [.OJUMP (.fresh last), .OLABEL (.fresh no)] [.OLABEL (.fresh last)] rfl rfl)
    have whole := both.inside marks (branch (.fresh no) (some np)) [] (branch_quiet _ _) rfl
    rwa [List.append_nil] at whole
  | While cond s ih =>
    intro k lbreak lcont st st' code more made suffix later
    rcases stmt_while made with ⟨np, again, test, last, inner, st₁, st₂, tested, body, rfl⟩
    simp only [List.append_assoc, List.cons_append, loopTail_append] at suffix
    have loop := Loop.of_suffix once body ((List.suffix_cons _ _).trans suffix) (loopTail_last _ _ _ _)
    have found := ih body (suffix_behind [_, _, _] suffix) (.label _ (.loop tested loop later))
    exact found.inside marks [_, _, _] _ rfl (loopTail_quiet again last (some np))
  | Dowhile s cond ih =>
    intro k lbreak lcont st st' code more made suffix later
    rcases stmt_dowhile made with ⟨np, again, test, last, inner, st₁, st₂, tested, body, rfl⟩
    simp only [List.append_assoc, List.cons_append, loopTail_append] at suffix
    have loop := Loop.of_suffix once body suffix (loopTail_last _ _ _ _)
    have found := ih body (suffix_behind [_, _] suffix) (.label _ (.loop tested loop later))
    exact found.inside marks [_, _] _ rfl (loopTail_quiet again last (some np))
  | For init cond inc s ih =>
    intro k lbreak lcont st st' code more made suffix later
    rcases stmt_for made with ⟨einit, econd, einc, again, next, test, last, inner, st₁, st₂, _, tested,
      increased, body, rfl⟩
    simp only [List.append_assoc, List.cons_append, forTail_append] at suffix
    have loop := Loop.of_suffix once body (suffix_behind _ suffix) (forTail_last _ _ _ _ _ _)
    have found := ih body (suffix_behind [_, _] (suffix_behind _ suffix))
      (.label _ (.forinc tested increased loop later))
    have inside := found.inside marks [.OLABEL (.fresh again), .OBLOOP]
      (.OLABEL (.fresh next) :: forTail (.fresh again) (.fresh test) (.fresh last) econd einc []) rfl
      (loopTail_quiet again last econd)
    have whole := inside.inside marks (forHead (.fresh test) einit econd) [] (forHead_quiet _ _ _) rfl
    rwa [List.append_nil] at whole
  | Break =>
    intro k lbreak lcont st st' code more made suffix later
    rcases Option.map_eq_some_iff.mp made with ⟨sym, _, built⟩
    cases built
    exact Finds.quiet rfl marks
  | Continue =>
    intro k lbreak lcont st st' code more made suffix later
    rcases Option.map_eq_some_iff.mp made with ⟨sym, _, built⟩
    cases built
    exact Finds.quiet rfl marks
  | Goto name =>
    intro k lbreak lcont st st' code more made suffix later
    cases made
    exact Finds.quiet rfl marks
  | Return e =>
    intro k lbreak lcont st st' code more made suffix later
    rcases Option.map_eq_some_iff.mp made with ⟨np, _, built⟩
    cases built
    exact Finds.quiet rfl marks
  | Swtch cond s ih =>
    intro k lbreak lcont st st' code more made suffix later
    rcases stmt_swtch made with ⟨np, last, inner, st₁, st₂, _, body, rfl⟩
    simp only [List.append_assoc, List.cons_append, List.nil_append] at suffix
    have leaves : target program (.fresh last) = some more :=
      target_suffix once ((List.suffix_cons _ _).trans (suffix_behind _ (suffix_behind [_, _] suffix)))
    have found := ih body (suffix_behind [_, _] suffix) (.eswitch _ (.label _ (.swtch leaves later)))
    cases goal with
    | label name =>
      cases key with
      | label sym =>
        have same : sym = .user name := seeks
        subst same
        exact found.swtch _ last
      | _ => cases seeks
    | case type value =>
      cases key with
      | case value' => exact Finds.closed (stmt_balanced body) marks rfl _ last
      | _ => cases seeks
    | default =>
      cases key with
      | default => exact Finds.closed (stmt_balanced body) marks rfl _ last
      | _ => cases seeks

theorem search_label (sym : Label) :
    ∀ depth, search arch (.label sym) depth code = if sym ∈ labels code then some sym else none := by
  induction code with
  | nil => exact fun _ => rfl
  | cons record rest ih =>
    intro depth
    have everywhere : (decide (depth = 0) || (Key.label sym).everywhere) = true := Bool.or_true _
    rw [search_cons, if_pos everywhere]
    by_cases here : record = .OLABEL sym
    · subst here
      have member : sym ∈ labels (.OLABEL sym :: rest) := List.mem_cons_self
      rw [hit_label, if_pos rfl, if_pos member]
    · have misses : hit arch (.label sym) record rest = none := by
        cases record with
        | OLABEL other => exact if_neg fun same => here (congrArg Emit.OLABEL same)
        | _ => rfl
      have same : sym ∈ labels (record :: rest) ↔ sym ∈ labels rest := by
        cases record with
        | OLABEL other =>
          have different : sym ≠ other := fun same => here (congrArg Emit.OLABEL same.symm)
          rw [labels_cons, List.mem_cons]
          exact or_iff_right different
        | _ => rfl
      have goesOn : (record.ends && !(Key.label sym).everywhere) = false := Bool.and_false _
      simp only [misses, goesOn, same]
      exact ih _

theorem goto_target {body : Stmt arch} (made : stmt body none none st = some (program, st')) (name : String) :
    match find (.label name) body .stop with
    | none => target program (.user name) = none
    | some (s, k) => ∃ rest, target program (.user name) = some rest ∧ Placed program s k rest := by
  have once := (stmt_spans made).nodup
  have whole : program ++ [] <:+ program := by rw [List.append_nil]
  have seeks : Seeks arch (.label name) (.label (.user name)) := rfl
  have finds := find_finds once seeks made whole .stop
  cases found : find (.label name) body .stop with
  | none =>
    rw [found] at finds
    have nowhere := finds 0 [] (Or.inl rfl)
    rw [List.append_nil, search_label] at nowhere
    apply target_none
    intro member
    rw [if_pos member] at nowhere
    cases nowhere
  | some place =>
    rw [found] at finds
    rcases finds with ⟨sym, rest, searched, hit, placed⟩
    have searched := searched 0 [] (Or.inl rfl)
    rw [search_label] at searched
    split_ifs at searched
    cases searched
    exact ⟨rest, hit, placed⟩

theorem search_end {sym : Label} {tail : List Emit} (marks : key.marks = true)
    (local_ : key.everywhere = false) : search arch key 0 (.OESWITCH sym :: tail) = none := by
  have misses : hit arch key (.OESWITCH sym) tail = none := by
    cases key with
    | exit => cases marks
    | _ => rfl
  rw [search_cons, misses, local_]
  rfl

theorem select_target {type : Ty} {value : Int} {k : Cont arch}
    {lbreak lcont : Option Label} {inner more : List Emit} {last : Nat}
    (once : (labels program).Nodup) (integer : type.integer) (narrow : type.size ≤ arch.intsize)
    (fits : type.wrap value = value) (made : stmt s (some (.fresh last)) lcont st = some (inner, st'))
    (suffix : inner ++ .OESWITCH (.fresh last) :: .OLABEL (.fresh last) :: more <:+ program)
    (later : Resumes program lbreak lcont k more) : ∃ sym rest, dispatch arch (arch.inttype.wrap value)
        (inner ++ .OESWITCH (.fresh last) :: .OLABEL (.fresh last) :: more) = some sym ∧
      target program sym = some rest ∧
      Placed program (select type value s k).1 (select type value s k).2 rest := by
  have leaves : target program (.fresh last) = some more :=
    target_suffix once ((List.suffix_cons _ _).trans (suffix_behind _ suffix))
  have behind : Resumes program (some (.fresh last)) lcont (.swtch k)
      (.OESWITCH (.fresh last) :: .OLABEL (.fresh last) :: more) :=
    .eswitch _ (.label _ (.swtch leaves later))
  have seeks : Seeks arch (.case (promoted arch type) value) (.case (arch.inttype.wrap value)) :=
    case_matches integer narrow fits
  have cases_ := find_finds once seeks made suffix behind
  have defaults := find_finds once (show Seeks arch .default .default from trivial) made suffix behind
  unfold dispatch select
  cases found : find (.case (promoted arch type) value) s (.swtch k) with
  | some place =>
    rw [found] at cases_
    rcases cases_ with ⟨sym, rest, searched, hit, placed⟩
    exact ⟨sym, rest, by rw [searched 0 _ (Or.inl rfl), Option.some_or], hit, placed⟩
  | none =>
    rw [found] at cases_
    rw [cases_ 0 _ (Or.inl rfl), search_end rfl rfl, Option.none_or, Option.none_or]
    cases found' : find .default s (.swtch k) with
    | some place =>
      rw [found'] at defaults
      rcases defaults with ⟨sym, rest, searched, hit, placed⟩
      exact ⟨sym, rest, by rw [searched 0 _ (Or.inl rfl), Option.some_or], hit, placed⟩
    | none =>
      rw [found'] at defaults
      rw [defaults 0 _ (Or.inl rfl), search_end rfl rfl, Option.none_or, search_exit (stmt_balanced made)]
      refine ⟨.fresh last, more, search_hit (Or.inl rfl) rfl, leaves, ?_⟩
      exact Placed.null (suffix_behind [_, _] (suffix_behind _ suffix)) later

end Scc.Cc1.Lowering
