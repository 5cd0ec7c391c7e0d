import Scc.Cc1.Conditional

/-!
# Selection of the first true group

`#elif` and `#else` only flip the section they are in, so the code does not
know that a group was taken once the group after it is skipped. `Meets` is the
condition under which that is never asked. Under it the run of `cpp()` over
complete lines keeps the stack and the counter and lets exactly the selected
lines through; without it some mark differs.
-/

namespace Scc.Cc1.Conditional

set_option autoImplicit false

variable {Env Expr Name Dir Text : Type} (M : Meaning Env Expr Name Dir)

/-- Where a live section stands: no group taken yet, in the taken group, or in
a group after the taken one. -/
inductive Phase where
  | before
  | taken
  | past
deriving DecidableEq

def Phase.enabled : Phase → Bool
  | .taken => true
  | _ => false

def Phase.done : Phase → Bool
  | .before => false
  | _ => true

/-- The phase in the next group, which C takes or not. -/
def Phase.next : Phase → Bool → Phase
  | .before, status => if status then .taken else .before
  | _, _ => .past

mutual

/-- In no live section is a skipped group that follows the taken one followed
in turn by `#else` or by an `#elif` whose condition is not zero. -/
def Lines.Meets (env : Env) : Lines Expr Name Dir Text → Prop
  | .nil => True
  | .text _ rest => rest.Meets env
  | .other directive rest =>
    ∀ next, M.directive env directive = some next → rest.Meets next
  | .conditional opening body groups rest =>
    ∀ status, opening.status M env = some status →
      (status = true → body.Meets env) ∧
      ∀ first, body.select M status env = some first →
        groups.Meets (Phase.before.next status) first.2 ∧
        ∀ later, groups.select M true status first.2 = some later → rest.Meets later.2

def Groups.Meets (phase : Phase) (env : Env) : Groups Expr Name Dir Text → Prop
  | .endif => True
  | .elif expr body groups =>
    (phase = .past → M.constexpr env expr = some 0) ∧
    ∀ status, (if phase.done then some false else exprStatus M expr env) = some status →
      (status = true → body.Meets env) ∧
      ∀ group, body.select M status env = some group →
        groups.Meets (phase.next status) group.2
  | .cppelse body => phase ≠ .past ∧ (phase = .before → body.Meets env)

end

/-- Inside a section opened when the counter was `off`. -/
def inSection (below : List IfState) (off : Int) (iselse enabled : Bool) (env : Env) :
    State Env :=
  ⟨⟨enabled, iselse⟩ :: below, if enabled then off else off + 1, env⟩

theorem push_status (state : State Env) (status : Bool) :
    pushStatus state status = inSection state.ifstate state.cppoff false status state.env := by
  cases status <;> rfl

theorem cpp_opening_live (state : State Env) (live : state.cppoff = 0)
    (shallow : state.ifstate.length + 1 < NR_COND) (opening : Opening Expr Name) :
    cpp M state (.opening opening : Line Expr Name Dir Text) = (opening.status M state.env).map
        (inSection state.ifstate 0 false · state.env) := by
  have notFull : state.ifstate.length ≠ NR_COND - 1 := by omega
  cases opening <;>
    simp [cpp, cppif, ifdef, ifndef, ifclause, notFull, live, Opening.status, push_status]

theorem cpp_opening_dead (state : State Env) (dead : 0 < state.cppoff)
    (shallow : state.ifstate.length + 1 < NR_COND) (opening : Opening Expr Name) :
    cpp M state (.opening opening : Line Expr Name Dir Text) =
      some (inSection state.ifstate state.cppoff false false state.env) := by
  have notFull : state.ifstate.length ≠ NR_COND - 1 := by omega
  have off : state.cppoff ≠ 0 := by omega
  cases opening <;>
    simp [cpp, cppif, ifdef, ifndef, ifclause, notFull, off, push_status]

variable (below : List IfState)

theorem cpp_elif_skipped (off : Int) (env : Env) (expr : Expr) :
    cpp M (inSection below off false false env) (.elif expr : Line Expr Name Dir Text) =
      cpp M ⟨below, off, env⟩ (.opening (.cppif expr) : Line Expr Name Dir Text) := by
  simp [cpp, elif, elseclause, inSection, Int.add_assoc]

theorem cpp_elif_taken (off : Int) (env : Env) (expr : Expr) :
    cpp M (inSection below off false true env) (.elif expr : Line Expr Name Dir Text) =
      some (inSection below off false false env) := by
  simp [cpp, elif, elseclause, inSection]

theorem cpp_cppelse (off : Int) (enabled : Bool) (env : Env) :
    cpp M (inSection below off false enabled env) (.cppelse : Line Expr Name Dir Text) =
      some (inSection below off true (!enabled) env) := by
  cases enabled <;> simp [cpp, cppelse, elseclause, inSection, Int.add_assoc]

theorem cpp_endif (off : Int) (iselse enabled : Bool) (env : Env) :
    cpp M (inSection below off iselse enabled env) (.endif : Line Expr Name Dir Text) =
      some ⟨below, off, env⟩ := by
  cases enabled <;> simp [cpp, endif, inSection]

variable {marks : List Bool} {final state : State Env} {phase : Phase} {status : Bool} {off : Int}

theorem cpp_lines_cons {state next final : State Env} {line : Line Expr Name Dir Text}
    {rest : List (Line Expr Name Dir Text)} {mark : Bool}
    (stepped : cpp M state line = some next) (marked : decide (next.cppoff = 0) = mark)
    (ran : cppLines M next rest = some (marks, final)) :
    cppLines M state (line :: rest) = some (mark :: marks, final) := by
  simp [cppLines, stepped, ran, marked]

theorem cpp_lines_append (state : State Env) (first second : List (Line Expr Name Dir Text)) :
    cppLines M state (first ++ second) = (cppLines M state first).bind fun left =>
        (cppLines M left.2 second).map fun right => (left.1 ++ right.1, right.2) := by
  induction first generalizing state with
  | nil => simp [cppLines]
  | cons line rest ih =>
    simp only [List.cons_append, cppLines, ih]
    cases cpp M state line with
    | none => rfl
    | some next =>
      simp only [Option.bind_some]
      cases cppLines M next rest with
      | none => rfl
      | some left => simp [Function.comp_def]

theorem cpp_lines_append_of {state middle final : State Env}
    {first second : List (Line Expr Name Dir Text)} {left right : List Bool}
    (ranFirst : cppLines M state first = some (left, middle))
    (ranSecond : cppLines M middle second = some (right, final)) :
    cppLines M state (first ++ second) = some (left ++ right, final) := by
  simp [cpp_lines_append, ranFirst, ranSecond]

theorem cpp_lines_length {lines : List (Line Expr Name Dir Text)}
    (done : cppLines M state lines = some (marks, final)) : marks.length = lines.length := by
  induction lines generalizing state marks with
  | nil =>
    cases done
    rfl
  | cons line rest ih =>
    simp only [cppLines, Option.bind_eq_some_iff, Option.map_eq_some_iff] at done
    obtain ⟨next, -, ⟨tail, last⟩, ran, same⟩ := done
    cases same
    simp [ih ran]

mutual

theorem Lines.select_length (lines : Lines Expr Name Dir Text) {live : Bool} {env : Env}
    {result : List Bool × Env} (selected : lines.select M live env = some result) :
    result.1.length = lines.flatten.length := by
  cases lines with
  | nil =>
    cases selected
    rfl
  | text text rest =>
    simp only [Lines.select, Option.map_eq_some_iff] at selected
    obtain ⟨tail, tailSelected, rfl⟩ := selected
    simp [Lines.flatten, rest.select_length tailSelected]
  | other directive rest =>
    simp only [Lines.select, Option.bind_eq_some_iff, Option.map_eq_some_iff] at selected
    obtain ⟨next, -, tail, tailSelected, rfl⟩ := selected
    simp [Lines.flatten, rest.select_length tailSelected]
  | conditional opening body groups rest =>
    simp only [Lines.select, Option.bind_eq_some_iff, Option.map_eq_some_iff] at selected
    obtain ⟨taken, -, first, bodySelected, later, groupsSelected, tail, tailSelected, rfl⟩ :=
      selected
    simp [Lines.flatten, body.select_length bodySelected,
      groups.select_length groupsSelected, rest.select_length tailSelected]

theorem Groups.select_length (groups : Groups Expr Name Dir Text) {live done : Bool}
    {env : Env} {result : List Bool × Env} (selected : groups.select M live done env = some result) :
    result.1.length = groups.flatten.length := by
  cases groups with
  | endif =>
    cases selected
    rfl
  | elif expr body groups =>
    simp only [Groups.select, Option.bind_eq_some_iff, Option.map_eq_some_iff] at selected
    obtain ⟨taken, -, group, bodySelected, later, groupsSelected, rfl⟩ := selected
    simp [Groups.flatten, body.select_length bodySelected, groups.select_length groupsSelected]
  | cppelse body =>
    simp only [Groups.select, Option.map_eq_some_iff] at selected
    obtain ⟨group, bodySelected, rfl⟩ := selected
    simp [Groups.flatten, body.select_length bodySelected]

end

theorem cpp_lines_append_some {first second : List (Line Expr Name Dir Text)} {left right : List Bool}
    (aligned : left.length = first.length)
    (done : cppLines M state (first ++ second) = some (left ++ right, final)) :
    ∃ middle, cppLines M state first = some (left, middle) ∧
      cppLines M middle second = some (right, final) := by
  rw [cpp_lines_append] at done
  simp only [Option.bind_eq_some_iff, Option.map_eq_some_iff] at done
  obtain ⟨⟨marks, middle⟩, ranFirst, ⟨marks', last⟩, ranSecond, same⟩ := done
  have sameMarks : marks ++ marks' = left ++ right := congrArg Prod.fst same
  have sameLength : marks.length = left.length :=
    (cpp_lines_length M ranFirst).trans aligned.symm
  obtain ⟨rfl, rfl⟩ := List.append_inj sameMarks sameLength
  cases same
  exact ⟨middle, ranFirst, ranSecond⟩

theorem Phase.next_done (once : phase.done = true → status = false) :
    (phase.next status).done = (phase.done || status) := by
  cases phase <;> cases status <;> simp_all [Phase.next, Phase.done]

theorem Phase.next_enabled (once : phase.done = true → status = false) :
    (phase.next status).enabled = status := by
  cases phase <;> cases status <;> simp_all [Phase.next, Phase.enabled, Phase.done]

theorem of_decided {condition status : Bool} {evaluated : Option Bool}
    (decided : (if condition then evaluated else some false) = some status) :
    status = true → condition = true := by
  cases condition with
  | true => exact fun _ => rfl
  | false =>
    cases decided
    exact id

theorem in_section_mark (nonneg : 0 ≤ off) (below : List IfState)
    (iselse enabled : Bool) (env : Env) (reachable : enabled = true → off = 0) :
    decide ((inSection below off iselse enabled env).cppoff = 0) = enabled := by
  cases enabled with
  | true => simp [inSection, reachable rfl]
  | false =>
    have positive : off + 1 ≠ 0 := by omega
    simp [inSection, positive]

theorem in_section_nonneg (nonneg : 0 ≤ off) (below : List IfState) (iselse enabled : Bool) (env : Env) :
    0 ≤ (inSection below off iselse enabled env).cppoff := by
  simp only [inSection]
  split <;> omega

theorem cpp_opening_selected {live : Bool} {opening : Opening Expr Name}
    (counter : live = decide (state.cppoff = 0)) (nonneg : 0 ≤ state.cppoff)
    (shallow : state.ifstate.length + 1 < NR_COND)
    (decided : (if live then opening.status M state.env else some false) = some status) :
    cpp M state (.opening opening : Line Expr Name Dir Text) =
      some (inSection state.ifstate state.cppoff false status state.env) := by
  cases live with
  | true =>
    have zero : state.cppoff = 0 := by simpa using counter
    have value : opening.status M state.env = some status := decided
    rw [cpp_opening_live M state zero shallow, value, zero]
    rfl
  | false =>
    have nonzero : state.cppoff ≠ 0 := by simpa using counter
    cases decided
    exact cpp_opening_dead M state (by omega) shallow opening

/-- An `#elif` moves a section to the group C says, unless it is one with a
true condition after a group that follows the taken one. -/
theorem cpp_elif_selected {below : List IfState} {live : Bool}
    {env : Env} {expr : Expr} (counter : live = decide (off = 0))
    (nonneg : 0 ≤ off) (shallow : below.length + 1 < NR_COND)
    (meets : live = true → phase = .past → M.constexpr env expr = some 0)
    (decided : (if live && !phase.done then exprStatus M expr env else some false) = some status) :
    cpp M (inSection below off false (live && phase.enabled) env) (.elif expr : Line Expr Name Dir Text) =
      some (inSection below off false status env) := by
  cases live with
  | false =>
    have nonzero : off ≠ 0 := by simpa using counter
    cases decided
    rw [Bool.false_and, cpp_elif_skipped]
    exact cpp_opening_dead M ⟨below, off, env⟩ (by simp only; omega) shallow _
  | true =>
    obtain rfl : off = 0 := by simpa using counter
    have reopened : cpp M ⟨below, 0, env⟩
        (.opening (.cppif expr) : Line Expr Name Dir Text) = _ :=
      cpp_opening_live M ⟨below, 0, env⟩ rfl shallow (.cppif expr)
    cases phase with
    | before =>
      have value : exprStatus M expr env = some status := by
        simpa [Phase.done] using decided
      have enabled : Phase.before.enabled = false := rfl
      rw [Bool.true_and, enabled, cpp_elif_skipped, reopened]
      simp [Opening.status, value]
    | taken =>
      cases decided
      exact cpp_elif_taken M below 0 env expr
    | past =>
      cases decided
      have enabled : Phase.past.enabled = false := rfl
      rw [Bool.true_and, enabled, cpp_elif_skipped, reopened]
      simp [Opening.status, exprStatus, meets rfl rfl]

mutual

theorem Lines.run_selected (lines : Lines Expr Name Dir Text) (state : State Env) {live : Bool}
    (counter : live = decide (state.cppoff = 0)) (nonneg : 0 ≤ state.cppoff)
    (shallow : state.ifstate.length + lines.depth < NR_COND)
    (meets : live = true → lines.Meets M state.env) {result : List Bool × Env}
    (selected : lines.select M live state.env = some result) :
    cppLines M state lines.flatten = some (result.1, { state with env := result.2 }) := by
  cases lines with
  | nil =>
    cases selected
    rfl
  | text text rest =>
    simp only [Lines.select, Option.map_eq_some_iff] at selected
    obtain ⟨tail, tailSelected, rfl⟩ := selected
    have ran := rest.run_selected state counter nonneg shallow meets tailSelected
    exact cpp_lines_cons M rfl counter.symm ran
  | other directive rest =>
    simp only [Lines.select, Option.bind_eq_some_iff, Option.map_eq_some_iff] at selected
    obtain ⟨next, directed, tail, tailSelected, rfl⟩ := selected
    have stepped : cpp M state (.other directive : Line Expr Name Dir Text) =
        some { state with env := next } := by
      cases live with
      | true =>
        have zero : state.cppoff = 0 := by simpa using counter
        have known : M.directive state.env directive = some next := directed
        simp [cpp, zero, known]
      | false =>
        have skipped : state.cppoff ≠ 0 := by simpa using counter
        cases directed
        simp [cpp, skipped]
    have restMeets : live = true → rest.Meets M next := by
      rintro rfl
      exact meets rfl next directed
    have ran := rest.run_selected { state with env := next } counter nonneg
      shallow restMeets tailSelected
    exact cpp_lines_cons M stepped counter.symm ran
  | conditional opening body groups rest =>
    simp only [Lines.select, Option.bind_eq_some_iff, Option.map_eq_some_iff] at selected
    obtain ⟨status, decided, first, bodySelected, later, groupsSelected, tail, tailSelected, rfl⟩ := selected
    simp only [Lines.depth] at shallow
    have onlyLive : status = true → live = true := of_decided decided
    have meetsAt : live = true → _ := fun isLive =>
      meets isLive status (by subst isLive; exact decided)
    have mark := in_section_mark nonneg state.ifstate false status state.env
      fun taken => by simpa [counter] using onlyLive taken
    have ranBody := body.run_selected _ mark.symm
      (in_section_nonneg nonneg state.ifstate false status state.env)
      (by simp only [inSection, List.length_cons]; omega)
      (fun taken => (meetsAt (onlyLive taken)).1 taken) bodySelected
    have enabled : (live && (Phase.before.next status).enabled) = status := by
      cases status with
      | true => simp [onlyLive rfl, Phase.next, Phase.enabled]
      | false => simp [Phase.next, Phase.enabled]
    have ranGroups := groups.run_selected state.ifstate (Phase.before.next status) counter nonneg (by omega)
      (fun isLive => ((meetsAt isLive).2 first bodySelected).1)
      (by rw [Phase.next_done (by simp [Phase.done])]; exact groupsSelected)
    rw [enabled] at ranGroups
    have restMeets : live = true → rest.Meets M later.2 := by
      rintro rfl
      exact ((meetsAt rfl).2 first bodySelected).2 later groupsSelected
    have ranRest := rest.run_selected { state with env := later.2 } counter nonneg
      (by simp only; omega) restMeets tailSelected
    exact cpp_lines_cons M
      (cpp_opening_selected M counter nonneg (by omega) decided) mark
      (cpp_lines_append_of M ranBody (cpp_lines_append_of M ranGroups ranRest))

theorem Groups.run_selected (groups : Groups Expr Name Dir Text) (below : List IfState)
    {off : Int} {live : Bool} (phase : Phase) {env : Env}
    (counter : live = decide (off = 0)) (nonneg : 0 ≤ off)
    (shallow : below.length + 1 + groups.depth < NR_COND)
    (meets : live = true → groups.Meets M phase env) {result : List Bool × Env}
    (selected : groups.select M live phase.done env = some result) :
    cppLines M (inSection below off false (live && phase.enabled) env) groups.flatten =
      some (result.1, ⟨below, off, result.2⟩) := by
  cases groups with
  | endif =>
    cases selected
    exact cpp_lines_cons M (cpp_endif M below off false _ env) counter.symm rfl
  | elif expr body groups =>
    simp only [Groups.select, Option.bind_eq_some_iff, Option.map_eq_some_iff] at selected
    obtain ⟨status, decided, group, bodySelected, later, groupsSelected, rfl⟩ := selected
    simp only [Groups.depth] at shallow
    have onlyLive : status = true → live = true ∧ phase.done = false := by
      simpa using of_decided decided
    have once : phase.done = true → status = false := by
      intro done
      simpa [done] using onlyLive
    have meetsAt : live = true → _ := fun isLive =>
      (meets isLive).2 status (by subst isLive; revert decided; cases phase <;> exact id)
    have mark := in_section_mark nonneg below false status env
      fun taken => by simpa [counter] using (onlyLive taken).1
    have ranBody := body.run_selected _ mark.symm (in_section_nonneg nonneg below false status env)
      (by simp only [inSection, List.length_cons]; omega)
      (fun taken => (meetsAt (onlyLive taken).1).1 taken) bodySelected
    have enabled : (live && (phase.next status).enabled) = status := by
      rw [Phase.next_enabled once]
      simpa using fun taken => (onlyLive taken).1
    have ranGroups := groups.run_selected below (phase.next status) counter nonneg (by omega) (fun isLive => (meetsAt isLive).2 group bodySelected)
      (by rw [Phase.next_done once]; exact groupsSelected)
    rw [enabled] at ranGroups
    exact cpp_lines_cons M
      (cpp_elif_selected M counter nonneg (by omega) (fun isLive => (meets isLive).1) decided)
      mark (cpp_lines_append_of M ranBody ranGroups)
  | cppelse body =>
    simp only [Groups.select, Option.map_eq_some_iff] at selected
    obtain ⟨group, bodySelected, rfl⟩ := selected
    simp only [Groups.depth] at shallow
    have mark : decide ((inSection below off true (!(live && phase.enabled)) env).cppoff = 0) =
        (live && !phase.done) := by
      cases live with
      | false =>
        have nonzero : off ≠ 0 := by simpa using counter
        simp [inSection, nonzero]
      | true =>
        obtain rfl : off = 0 := by simpa using counter
        have notPast : phase ≠ .past := (meets rfl).1
        cases phase <;> simp_all [inSection, Phase.enabled, Phase.done]
    have bodyMeets : (live && !phase.done) = true → body.Meets M env := by
      cases phase with
      | before => simpa [Phase.done] using fun isLive => (meets isLive).2 rfl
      | taken => simp [Phase.done]
      | past => simp [Phase.done]
    have ranBody := body.run_selected _ mark.symm
      (in_section_nonneg nonneg below true _ env)
      (by simp only [inSection, List.length_cons]; omega) bodyMeets bodySelected
    exact cpp_lines_cons M (cpp_cppelse M below off _ env) mark
      (cpp_lines_append_of M ranBody
        (cpp_lines_cons M (cpp_endif M below off true _ group.2) counter.symm rfl))

end

theorem cpp_lines_cons_some {line : Line Expr Name Dir Text}
    {rest : List (Line Expr Name Dir Text)} {mark : Bool}
    (ran : cppLines M state (line :: rest) = some (mark :: marks, final)) :
    ∃ next, cpp M state line = some next ∧ decide (next.cppoff = 0) = mark ∧
      cppLines M next rest = some (marks, final) := by
  simp only [cppLines, Option.bind_eq_some_iff, Option.map_eq_some_iff] at ran
  obtain ⟨next, stepped, ⟨tail, last⟩, continued, same⟩ := ran
  cases same
  exact ⟨next, stepped, rfl, continued⟩

theorem elif_past {below : List IfState} {env : Env} {expr : Expr} {next : State Env}
    (shallow : below.length + 1 < NR_COND) (stepped : cpp M (inSection below 0 false false env)
      (.elif expr : Line Expr Name Dir Text) = some next)
    (skipped : decide (next.cppoff = 0) = false) : M.constexpr env expr = some 0 := by
  rw [cpp_elif_skipped, cpp_opening_live M ⟨below, 0, env⟩ rfl shallow] at stepped
  simp only [Opening.status, exprStatus, Option.map_map, Option.map_eq_some_iff, Function.comp] at stepped
  obtain ⟨value, evaluated, rfl⟩ := stepped
  have zero : value = 0 := by
    by_contra nonzero
    simp [inSection, nonzero] at skipped
  rw [evaluated, zero]

mutual

theorem Lines.meets_of_run (lines : Lines Expr Name Dir Text) (state : State Env)
    (live : state.cppoff = 0) (shallow : state.ifstate.length + lines.depth < NR_COND)
    {result : List Bool × Env} (selected : lines.select M true state.env = some result)
    {final : State Env} (ran : cppLines M state lines.flatten = some (result.1, final)) :
    lines.Meets M state.env := by
  cases lines with
  | nil => trivial
  | text text rest =>
    simp only [Lines.select, Option.map_eq_some_iff] at selected
    obtain ⟨tail, tailSelected, rfl⟩ := selected
    obtain ⟨next, stepped, -, continued⟩ := cpp_lines_cons_some M ran
    cases stepped
    exact rest.meets_of_run state live shallow tailSelected continued
  | other directive rest =>
    intro env directed
    simp only [Lines.select, if_true, directed, Option.bind_some, Option.map_eq_some_iff]
      at selected
    obtain ⟨tail, tailSelected, rfl⟩ := selected
    obtain ⟨next, stepped, -, continued⟩ := cpp_lines_cons_some M ran
    have same : { state with env := env } = next := by
      simpa [cpp, live, directed] using stepped
    subst same
    exact rest.meets_of_run { state with env := env } live shallow tailSelected continued
  | conditional opening body groups rest =>
    intro status decided
    simp only [Lines.select, if_true, decided, Option.bind_some, Option.bind_eq_some_iff,
      Option.map_eq_some_iff] at selected
    obtain ⟨first, bodySelected, later, groupsSelected, tail, tailSelected, rfl⟩ := selected
    simp only [Lines.depth] at shallow
    obtain ⟨next, stepped, -, continued⟩ := cpp_lines_cons_some M ran
    have counter : true = decide (state.cppoff = 0) := by simp [live]
    have opened : cpp M state (.opening opening : Line Expr Name Dir Text) = _ :=
      cpp_opening_selected M counter (Int.le_of_eq live.symm) (by omega) decided
    obtain rfl := Option.some.inj (opened.symm.trans stepped)
    obtain ⟨afterBody, bodyRan, continued⟩ :=
      cpp_lines_append_some M (body.select_length M bodySelected) continued
    obtain ⟨afterGroups, groupsRan, restRan⟩ :=
      cpp_lines_append_some M (groups.select_length M groupsSelected) continued
    have mark := in_section_mark (Int.le_of_eq live.symm) state.ifstate false status state.env
      fun _ => live
    have bodyShallow : (inSection state.ifstate state.cppoff false status
        state.env).ifstate.length + body.depth < NR_COND := by
      simp only [inSection, List.length_cons]
      omega
    have bodyMeets : status = true → body.Meets M state.env := by
      rintro rfl
      exact body.meets_of_run (inSection _ _ false true state.env) (by simpa using mark)
        bodyShallow bodySelected bodyRan
    refine ⟨bodyMeets, fun first' bodySelected' => ?_⟩
    obtain rfl := Option.some.inj (bodySelected.symm.trans bodySelected')
    have bodyRuns := body.run_selected M _ mark.symm
      (in_section_nonneg (Int.le_of_eq live.symm) state.ifstate false status state.env)
      bodyShallow bodyMeets bodySelected
    obtain rfl := congrArg Prod.snd (Option.some.inj (bodyRuns.symm.trans bodyRan))
    have enabled : (Phase.before.next status).enabled = status :=
      Phase.next_enabled (by simp [Phase.done])
    have done : (Phase.before.next status).done = status := by
      cases status <;> rfl
    have groupsStart : inSection state.ifstate 0 false (Phase.before.next status).enabled
        first.2 = { inSection state.ifstate state.cppoff false status state.env with
          env := first.2 } := by
      rw [enabled, live]
      rfl
    rw [← done] at groupsSelected
    rw [← groupsStart] at groupsRan
    have groupsMeets := groups.meets_of_run state.ifstate (Phase.before.next status)
      (by omega) groupsSelected groupsRan
    refine ⟨groupsMeets, fun later' groupsSelected' => ?_⟩
    rw [done] at groupsSelected
    obtain rfl := Option.some.inj (groupsSelected.symm.trans groupsSelected')
    rw [← done] at groupsSelected
    have groupsRuns : cppLines M (inSection state.ifstate 0 false
        (true && (Phase.before.next status).enabled) first.2) groups.flatten = _ :=
      groups.run_selected M state.ifstate (Phase.before.next status) rfl (Int.le_refl 0)
        (by omega) (fun _ => groupsMeets) groupsSelected
    obtain rfl := congrArg Prod.snd (Option.some.inj (groupsRuns.symm.trans groupsRan))
    exact rest.meets_of_run ⟨state.ifstate, 0, later.2⟩ rfl (by simp only; omega)
      tailSelected restRan

theorem Groups.meets_of_run (groups : Groups Expr Name Dir Text) (below : List IfState)
    (phase : Phase) {env : Env} (shallow : below.length + 1 + groups.depth < NR_COND)
    {result : List Bool × Env}
    (selected : groups.select M true phase.done env = some result) {final : State Env}
    (ran : cppLines M (inSection below 0 false phase.enabled env) groups.flatten = some (result.1, final)) :
    groups.Meets M phase env := by
  cases groups with
  | endif => trivial
  | elif expr body groups =>
    simp only [Groups.select, Option.bind_eq_some_iff, Option.map_eq_some_iff] at selected
    obtain ⟨status, decided, group, bodySelected, later, groupsSelected, rfl⟩ := selected
    simp only [Groups.depth] at shallow
    obtain ⟨next, stepped, marked, continued⟩ := cpp_lines_cons_some M ran
    have once : phase.done = true → status = false := by
      intro done
      simpa [done] using of_decided decided
    have past : phase = .past → M.constexpr env expr = some 0 := by
      rintro rfl
      rw [once rfl] at marked
      exact elif_past M (by omega) stepped marked
    have reached : cpp M (inSection below 0 false (true && phase.enabled) env)
        (.elif expr : Line Expr Name Dir Text) = _ :=
      cpp_elif_selected M rfl (Int.le_refl 0) (by omega) (fun _ => past) decided
    obtain rfl := Option.some.inj (reached.symm.trans stepped)
    obtain ⟨afterBody, bodyRan, groupsRan⟩ :=
      cpp_lines_append_some M (body.select_length M bodySelected) continued
    have bodyShallow : (inSection below 0 false status env).ifstate.length + body.depth <
        NR_COND := by
      simp only [inSection, List.length_cons]
      omega
    have bodyMeets : status = true → body.Meets M env := by
      rintro rfl
      exact body.meets_of_run (inSection below 0 false true env) (by simpa using marked)
        bodyShallow bodySelected bodyRan
    refine ⟨past, fun status' decided' => ?_⟩
    obtain rfl : status = status' := by
      revert decided decided'
      cases phase <;> simp_all [Phase.done]
    refine ⟨bodyMeets, fun group' bodySelected' => ?_⟩
    obtain rfl := Option.some.inj (bodySelected.symm.trans bodySelected')
    have bodyRuns := body.run_selected M _ marked.symm
      (in_section_nonneg (Int.le_refl 0) below false status env) bodyShallow bodyMeets bodySelected
    obtain rfl := congrArg Prod.snd (Option.some.inj (bodyRuns.symm.trans bodyRan))
    have groupsStart : inSection below 0 false (phase.next status).enabled group.2 =
        { inSection below 0 false status env with env := group.2 } := by
      rw [Phase.next_enabled once]
      rfl
    rw [← groupsStart] at groupsRan
    rw [← Phase.next_done once] at groupsSelected
    exact groups.meets_of_run below (phase.next status) (by omega) groupsSelected groupsRan
  | cppelse body =>
    simp only [Groups.select, Option.map_eq_some_iff] at selected
    obtain ⟨group, bodySelected, rfl⟩ := selected
    simp only [Groups.depth] at shallow
    obtain ⟨next, stepped, marked, continued⟩ := cpp_lines_cons_some M ran
    have flipped : cpp M (inSection below 0 false phase.enabled env)
        (.cppelse : Line Expr Name Dir Text) = _ := cpp_cppelse M below 0 phase.enabled env
    obtain rfl := Option.some.inj (flipped.symm.trans stepped)
    have notPast : phase ≠ .past := by
      rintro rfl
      simp [inSection, Phase.enabled, Phase.done] at marked
    refine ⟨notPast, ?_⟩
    rintro rfl
    obtain ⟨afterBody, bodyRan, -⟩ :=
      cpp_lines_append_some M (body.select_length M bodySelected) continued
    exact body.meets_of_run (inSection below 0 true true env) rfl
      (by simp only [inSection, List.length_cons]; omega) bodySelected bodyRan

end

/-- For every meaning of the directives and all well-nested lines that C gives
a meaning to, `cpp()` lets the lines through that C selects and takes the
groups that C takes exactly when no group after a taken and a skipped one is
asked for again. -/
theorem cpp_selects_first_group_iff (lines : Lines Expr Name Dir Text) (env : Env)
    (shallow : lines.depth < NR_COND) {result : List Bool × Env}
    (selected : lines.select M true env = some result) :
    (cppLines M (start env) lines.flatten).map Prod.fst = some result.1 ↔ lines.Meets M env := by
  have depth : (start env).ifstate.length + lines.depth < NR_COND := by
    simpa [start] using shallow
  constructor
  · intro ran
    obtain ⟨⟨marks, final⟩, ran, rfl⟩ := Option.map_eq_some_iff.mp ran
    exact lines.meets_of_run M (start env) rfl depth selected ran
  · intro meets
    have ran := lines.run_selected M (start env) rfl (Int.le_refl 0) depth (fun _ => meets)
      selected
    rw [ran]
    rfl

/-- Macros as the list of their names, conditions as the values they fold to,
and `#define` as the only other directive. -/
def nameMeaning : Meaning (List String) Int String String where
  constexpr := fun _ value => some value
  declared := fun names name => names.contains name
  directive := fun names name => some (name :: names)

/-- `#define A`, `#ifdef A`, `#define B`, `#elif 1`, `b`, `#endif` for the name `A`. -/
def definedThenElif (name : String) : Lines Int String String String :=
  .other name (.conditional (.ifdef name) (.other "B" .nil)
    (.elif 1 (.text "b" .nil) .endif) .nil)

theorem cpp_selects_first_group_elif :
    (cppLines nameMeaning (start []) (definedThenElif "A").flatten).map Prod.fst =
        some [true, true, true, false, false, true] ↔
      (definedThenElif "A").Meets nameMeaning [] := by
  have selected : (definedThenElif "A").select nameMeaning true [] =
      some ([true, true, true, false, false, true], ["B", "A"]) := by decide
  exact cpp_selects_first_group_iff nameMeaning (definedThenElif "A") [] (by decide) selected

/-- `#if 1`, `a`, `#elif 0`, `b`, `#else`, `c`, `#endif`. -/
def elseAfterSkippedElif : Lines Int String String String :=
  .conditional (.cppif 1) (.text "a" .nil)
    (.elif 0 (.text "b" .nil) (.cppelse (.text "c" .nil))) .nil

/-- Both `a` and `c` reach the lexer. -/
theorem cpp_takes_else_after_skipped_elif :
    ¬ ∀ (lines : Lines Int String String String) (result : List Bool × List String),
      lines.depth < NR_COND → lines.select nameMeaning true [] = some result →
        (cppLines nameMeaning (start []) lines.flatten).map Prod.fst = some result.1 := by
  intro all
  have selected : elseAfterSkippedElif.select nameMeaning true [] =
      some ([true, true, false, false, false, false, true], []) := by decide
  have agree := all elseAfterSkippedElif _ (by decide) selected
  revert agree
  decide

end Scc.Cc1.Conditional
