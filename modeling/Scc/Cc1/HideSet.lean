import Scc.Lib.Run

/-!
# Hide sets of macro expansion

`expand()` pushes the replacement text of a macro as an `IMACRO` input, and
while `copymacro()` writes that text it reads every argument as an `IPARAM`
input on top of it, where other macros may be expanded. The bit `hide` of a
symbol is set when a text is complete and cleared by `delmacro()` when the input
is popped.

The state is the stack of inputs together with the calls of `expand()` that are
under way, and an event is what the lexer can do next: every order of expansions,
pushed files, directives and exhausted inputs is a run. An error that `cc1`
reports ends the run.
-/

namespace Scc.Cc1.HideSet

open Scc.Lib.Run

set_option autoImplicit false

def NR_MACROARG : Nat := 127

/-- An input of the stack. `produced` says that `copymacro()` is done with the
text of a macro. -/
inductive Input (Sym : Type) where
  | IMACRO (sym : Sym) (hideset : List Sym) (produced : Bool)
  | IPARAM
  | IFILE
deriving DecidableEq

/-- How far a call of `expand()` is: looking for the parenthesis, collecting
the arguments, or in `copymacro()`. -/
inductive Call (Sym : Type) where
  | detected (sym : Sym)
  | collecting (sym : Sym)
  | copying
deriving DecidableEq

structure State (Sym : Type) where
  disexpand : Bool
  hide : Sym → Bool
  input : List (Input Sym)
  calls : List (Call Sym)

inductive Event (Sym : Type) where
  /-- `iden()` reads the name of a macro. -/
  | expand (sym : Sym)
  /-- `parsepars()` sees the parenthesis. -/
  | collect
  /-- `parsepars()` sees something else, and `expand()` gives up. -/
  | reject
  /-- The arguments are complete and the macro is pushed. -/
  | enter
  /-- `expandarg()` pushes an argument. -/
  | pushParam
  /-- `expandarg()` has read the argument. -/
  | endParam
  /-- `copymacro()` is done. -/
  | finish
  /-- `cpp()`, or a function of a directive, sets `disexpand`. -/
  | directive (disexpand : Bool)
  | pushFile
  /-- `moreinput()` drops the exhausted input. -/
  | exhaust
deriving DecidableEq

variable {Sym : Type} [DecidableEq Sym]

def addhideset (hideset : List Sym) (sym : Sym) : Option (List Sym) :=
  if sym ∈ hideset then some hideset
  else if hideset.length = NR_MACROARG then none
  else some (hideset ++ [sym])

/-- The loop of `expand()` over the inputs. -/
def addhidesets (sym : Sym) : List (Input Sym) → Option (List (Input Sym))
  | [] => some []
  | .IMACRO owner hideset produced :: below =>
    (addhideset hideset sym).bind fun added =>
      (addhidesets sym below).map fun rest => .IMACRO owner added produced :: rest
  | .IPARAM :: below => (addhidesets sym below).map fun rest => .IPARAM :: rest
  | .IFILE :: below => (addhidesets sym below).map fun rest => .IFILE :: rest

/-- `hide()` or `unhide()` on every symbol of a hide set. -/
def setHide (value : Bool) (hideset : List Sym) (hide : Sym → Bool) (sym : Sym) : Bool :=
  if sym ∈ hideset then value else hide sym

def addMacro (sym : Sym) (state : State Sym) : State Sym :=
  { state with input := .IMACRO sym [] false :: state.input, calls := .copying :: state.calls }

/-- No call is inside `copymacro()` proper, so the lexer is reading. -/
def reading (state : State Sym) : Bool :=
  match state.input with
  | .IMACRO _ _ false :: _ => false
  | _ => true

/-- The end of `expand()`, after `copymacro()`. -/
def finishExpand (state : State Sym) : Option (State Sym) :=
  match state.calls, state.input with
  | .copying :: callers, .IMACRO sym hideset false :: below =>
    (addhideset hideset sym).bind fun added =>
      (addhidesets sym below).map fun rest =>
        { state with
          hide := setHide true added state.hide
          input := .IMACRO sym added true :: rest
          calls := callers }
  | _, _ => none

/-- `delinput()` as `moreinput()` calls it. -/
def delinput (state : State Sym) : Option (State Sym) :=
  match state.input with
  | .IMACRO _ hideset true :: below =>
    some { state with hide := setHide false hideset state.hide, input := below }
  | .IFILE :: below => some { state with input := below }
  | _ => none

/-- One event; `functionLike` says which macros take arguments. -/
def step (functionLike : Sym → Bool) (state : State Sym) : Event Sym → Option (State Sym)
  | .expand sym =>
    if !reading state then none
    else if state.disexpand || state.hide sym then some state
    else if functionLike sym then
      some { state with calls := .detected sym :: state.calls }
    else some (addMacro sym state)
  | .collect =>
    match state.calls with
    | .detected sym :: callers =>
      some { state with disexpand := true, calls := .collecting sym :: callers }
    | _ => none
  | .reject =>
    match state.calls with
    | .detected _ :: callers => some { state with calls := callers }
    | _ => none
  | .enter =>
    match state.calls with
    | .collecting sym :: callers =>
      some (addMacro sym { state with disexpand := false, calls := callers })
    | _ => none
  | .pushParam =>
    match state.calls, state.input with
    | .copying :: _, .IMACRO _ _ false :: _ =>
      some { state with input := .IPARAM :: state.input }
    | _, _ => none
  | .endParam =>
    match state.calls, state.input with
    | .copying :: _, .IPARAM :: below => some { state with input := below }
    | _, _ => none
  | .finish => finishExpand state
  | .directive disexpand =>
    if reading state then some { state with disexpand := disexpand } else none
  | .pushFile =>
    if reading state then some { state with input := .IFILE :: state.input } else none
  | .exhaust => delinput state

def start : State Sym := ⟨false, fun _ => false, [.IFILE], []⟩

/-- The complete text of the macro is on the stack. -/
def Scanned (sym : Sym) (input : List (Input Sym)) : Prop :=
  ∃ hideset, Input.IMACRO sym hideset true ∈ input

/-- A symbol is hidden exactly while its complete text is on the stack. -/
def HideExact (state : State Sym) : Prop :=
  ∀ sym, state.hide sym = true ↔ Scanned sym state.input

/-- Below the text of a macro there is neither a complete text of that macro
nor one of a macro in its hide set, and a complete text has its own macro in
the hide set. -/
def Layered : List (Input Sym) → Prop
  | [] => True
  | .IMACRO sym hideset produced :: below =>
    ¬ Scanned sym below ∧ (∀ other ∈ hideset, ¬ Scanned other below) ∧
      (produced = true → sym ∈ hideset) ∧ Layered below
  | .IPARAM :: below => Layered below
  | .IFILE :: below => Layered below

structure Invariant (state : State Sym) : Prop where
  exact : HideExact state
  layered : Layered state.input

/-- What the invariant asks of the events: an entered macro is not hidden,
which only a directive among the arguments can break, and no other macro was
expanded in the arguments of a finished one. -/
def Orderly (state : State Sym) : Event Sym → Prop
  | .enter =>
    ∀ sym callers, state.calls = .collecting sym :: callers → state.hide sym = false
  | .finish =>
    ∀ sym hideset below, state.input = .IMACRO sym hideset false :: below →
      ∀ other ∈ hideset, other = sym
  | _ => True

variable {below : List (Input Sym)} {sym : Sym} {state next : State Sym}

omit [DecidableEq Sym] in
theorem scanned_IMACRO {sym owner : Sym} {hideset : List Sym} {produced : Bool} :
    Scanned sym (.IMACRO owner hideset produced :: below) ↔
      (sym = owner ∧ produced = true) ∨ Scanned sym below := by
  unfold Scanned
  constructor
  · rintro ⟨set, member⟩
    rcases List.mem_cons.mp member with same | later
    · cases same
      exact Or.inl ⟨rfl, rfl⟩
    · exact Or.inr ⟨set, later⟩
  · rintro (⟨rfl, rfl⟩ | ⟨set, later⟩)
    · exact ⟨hideset, List.mem_cons_self⟩
    · exact ⟨set, List.mem_cons_of_mem _ later⟩

omit [DecidableEq Sym] in
@[simp] theorem scanned_IPARAM :
    Scanned sym (.IPARAM :: below) ↔ Scanned sym below := by
  simp [Scanned]

omit [DecidableEq Sym] in
@[simp] theorem scanned_IFILE :
    Scanned sym (.IFILE :: below) ↔ Scanned sym below := by
  simp [Scanned]

theorem mem_addhideset {hideset added : List Sym} {sym other : Sym}
    (done : addhideset hideset sym = some added) : other ∈ added ↔ other ∈ hideset ∨ other = sym := by
  unfold addhideset at done
  split_ifs at done with member full
  · cases done
    constructor
    · exact Or.inl
    · rintro (known | rfl)
      · exact known
      · exact member
  · cases done
    simp

theorem scanned_addhidesets {sym other : Sym} {input added : List (Input Sym)}
    (done : addhidesets sym input = some added) : Scanned other added ↔ Scanned other input := by
  induction input generalizing added with
  | nil =>
    cases done
    exact Iff.rfl
  | cons top below ih =>
    cases top with
    | IMACRO owner hideset produced =>
      simp only [addhidesets, Option.bind_eq_some_iff, Option.map_eq_some_iff] at done
      obtain ⟨set, -, rest, ranRest, rfl⟩ := done
      rw [scanned_IMACRO, scanned_IMACRO, ih ranRest]
    | IPARAM =>
      simp only [addhidesets, Option.map_eq_some_iff] at done
      obtain ⟨rest, ranRest, rfl⟩ := done
      rw [scanned_IPARAM, scanned_IPARAM, ih ranRest]
    | IFILE =>
      simp only [addhidesets, Option.map_eq_some_iff] at done
      obtain ⟨rest, ranRest, rfl⟩ := done
      rw [scanned_IFILE, scanned_IFILE, ih ranRest]

theorem layered_addhidesets {input added : List (Input Sym)}
    (free : ¬ Scanned sym input) (layered : Layered input)
    (done : addhidesets sym input = some added) : Layered added := by
  induction input generalizing added with
  | nil =>
    cases done
    exact layered
  | cons top below ih =>
    cases top with
    | IMACRO owner hideset produced =>
      simp only [addhidesets, Option.bind_eq_some_iff, Option.map_eq_some_iff] at done
      obtain ⟨set, recorded, rest, ranRest, rfl⟩ := done
      rcases layered with ⟨ownerFree, setFree, self, belowLayered⟩
      have belowFree : ¬ Scanned sym below := fun scanned =>
        free (scanned_IMACRO.mpr (Or.inr scanned))
      refine ⟨?_, ?_, ?_, ih belowFree belowLayered ranRest⟩
      · rw [scanned_addhidesets ranRest]
        exact ownerFree
      · intro other member
        rw [scanned_addhidesets ranRest]
        rcases (mem_addhideset recorded).mp member with known | rfl
        · exact setFree other known
        · exact belowFree
      · intro complete
        exact (mem_addhideset recorded).mpr (Or.inl (self complete))
    | IPARAM =>
      simp only [addhidesets, Option.map_eq_some_iff] at done
      obtain ⟨rest, ranRest, rfl⟩ := done
      have belowFree : ¬ Scanned sym below := fun scanned => free (scanned_IPARAM.mpr scanned)
      change Layered rest
      exact ih belowFree layered ranRest
    | IFILE =>
      simp only [addhidesets, Option.map_eq_some_iff] at done
      obtain ⟨rest, ranRest, rfl⟩ := done
      have belowFree : ¬ Scanned sym below := fun scanned => free (scanned_IFILE.mpr scanned)
      change Layered rest
      exact ih belowFree layered ranRest

omit [DecidableEq Sym] in
theorem start_invariant : Invariant (start : State Sym) where
  exact := by
    intro sym
    simp [start, Scanned]
  layered := trivial

omit [DecidableEq Sym] in
theorem add_macro_invariant (inv : Invariant state)
    (visible : state.hide sym = false) : Invariant (addMacro sym state) where
  exact := by
    intro other
    change state.hide other = true ↔ Scanned other (.IMACRO sym [] false :: state.input)
    rw [scanned_IMACRO, inv.exact other]
    simp
  layered := by
    refine ⟨?_, ?_, ?_, inv.layered⟩
    · rw [← inv.exact sym, visible]
      decide
    · intro other member
      cases member
    · intro complete
      cases complete

theorem finish_expand_cases (done : finishExpand state = some next) : ∃ sym hideset below added rest,
      state.input = .IMACRO sym hideset false :: below ∧
      addhideset hideset sym = some added ∧ addhidesets sym below = some rest ∧
      next.hide = setHide true added state.hide ∧ next.input = .IMACRO sym added true :: rest := by
  unfold finishExpand at done
  split at done
  next callers sym hideset below calls input =>
    simp only [Option.bind_eq_some_iff, Option.map_eq_some_iff] at done
    obtain ⟨added, recorded, rest, ranRest, rfl⟩ := done
    exact ⟨sym, hideset, below, added, rest, input, recorded, ranRest, rfl, rfl⟩
  next => cases done

theorem finish_expand_layered (layered : Layered state.input)
    (done : finishExpand state = some next) : Layered next.input := by
  obtain ⟨sym, hideset, below, added, rest, input, recorded, ranRest, -, pushed⟩ :=
    finish_expand_cases done
  rw [input] at layered
  rcases layered with ⟨free, setFree, -, belowLayered⟩
  rw [pushed]
  refine ⟨?_, ?_, ?_, layered_addhidesets free belowLayered ranRest⟩
  · rw [scanned_addhidesets ranRest]
    exact free
  · intro other member
    rw [scanned_addhidesets ranRest]
    rcases (mem_addhideset recorded).mp member with known | rfl
    · exact setFree other known
    · exact free
  · intro _
    exact (mem_addhideset recorded).mpr (Or.inr rfl)

theorem finish_expand_exact_iff (inv : Invariant state) (done : finishExpand state = some next) :
    HideExact next ↔ Orderly state .finish := by
  obtain ⟨sym, hideset, below, added, rest, input, recorded, ranRest, hidden, pushed⟩ :=
    finish_expand_cases done
  have layered := inv.layered
  rw [input] at layered
  rcases layered with ⟨-, setFree, -, -⟩
  have scanned : ∀ other, Scanned other next.input ↔ other = sym ∨ Scanned other below := by
    intro other
    rw [pushed, scanned_IMACRO, scanned_addhidesets ranRest]
    simp
  have before : ∀ other, state.hide other = true ↔ Scanned other below := by
    intro other
    rw [inv.exact other, input, scanned_IMACRO]
    simp
  have after : ∀ other, next.hide other = true ↔
      other ∈ hideset ∨ other = sym ∨ Scanned other below := by
    intro other
    rw [hidden, setHide]
    split_ifs with member
    · have known := (mem_addhideset recorded).mp member
      constructor
      · intro _
        rcases known with known | rfl
        · exact Or.inl known
        · exact Or.inr (Or.inl rfl)
      · intro _
        rfl
    · rw [mem_addhideset recorded] at member
      rw [before other]
      constructor
      · intro found
        exact Or.inr (Or.inr found)
      · rintro (known | rfl | found)
        · exact absurd (Or.inl known) member
        · exact absurd (Or.inr rfl) member
        · exact found
  constructor
  · intro exact sym' hideset' below' input' other member
    rw [input] at input'
    cases input'
    have found : Scanned other next.input := (exact other).mp ((after other).mpr (Or.inl member))
    rcases (scanned other).mp found with same | deeper
    · exact same
    · exact absurd deeper (setFree other member)
  · intro orderly other
    rw [after other, scanned other]
    constructor
    · rintro (member | found)
      · exact Or.inl (orderly sym hideset below input other member)
      · exact found
    · exact Or.inr

theorem delinput_invariant (inv : Invariant state) (done : delinput state = some next) : Invariant next := by
  unfold delinput at done
  split at done
  next sym hideset below input =>
    cases done
    have layered := inv.layered
    rw [input] at layered
    rcases layered with ⟨-, setFree, self, belowLayered⟩
    refine ⟨?_, belowLayered⟩
    intro other
    have before := inv.exact other
    rw [input, scanned_IMACRO] at before
    change setHide false hideset state.hide other = true ↔ Scanned other below
    unfold setHide
    split_ifs with member
    · have free := setFree other member
      simp [free]
    · rw [before]
      constructor
      · rintro (⟨rfl, -⟩ | found)
        · exact absurd (self rfl) member
        · exact found
      · exact Or.inr
  next below input =>
    cases done
    have layered := inv.layered
    rw [input] at layered
    refine ⟨?_, layered⟩
    intro other
    have before := inv.exact other
    rw [input, scanned_IFILE] at before
    exact before
  next => cases done

omit [DecidableEq Sym] in
theorem Invariant.congr (inv : Invariant state) (hidden : next.hide = state.hide)
    (texts : ∀ sym, Scanned sym next.input ↔ Scanned sym state.input)
    (layered : Layered next.input) : Invariant next where
  exact := by
    intro sym
    rw [hidden, texts sym]
    exact inv.exact sym
  layered := layered

theorem step_invariant (functionLike : Sym → Bool) (state : State Sym) (event : Event Sym)
    (next : State Sym) (inv : Invariant state) (orderly : Orderly state event)
    (stepped : step functionLike state event = some next) : Invariant next := by
  cases event with
  | expand sym =>
    simp only [step] at stepped
    split_ifs at stepped with busy hidden function
    · cases stepped
      exact inv
    · cases stepped
      exact inv.congr rfl (fun _ => Iff.rfl) inv.layered
    · cases stepped
      have visible : state.hide sym = false := by
        simp only [Bool.or_eq_true, not_or, Bool.not_eq_true] at hidden
        exact hidden.2
      exact add_macro_invariant inv visible
  | collect =>
    simp only [step] at stepped
    split at stepped
    · cases stepped
      exact inv.congr rfl (fun _ => Iff.rfl) inv.layered
    · cases stepped
  | reject =>
    simp only [step] at stepped
    split at stepped
    · cases stepped
      exact inv.congr rfl (fun _ => Iff.rfl) inv.layered
    · cases stepped
  | enter =>
    simp only [step] at stepped
    split at stepped
    next sym callers calls =>
      cases stepped
      have collected : Invariant { state with disexpand := false, calls := callers } :=
        inv.congr rfl (fun _ => Iff.rfl) inv.layered
      exact add_macro_invariant collected (orderly sym callers calls)
    next => cases stepped
  | pushParam =>
    simp only [step] at stepped
    split at stepped
    · cases stepped
      exact inv.congr rfl (fun _ => scanned_IPARAM) inv.layered
    · cases stepped
  | endParam =>
    simp only [step] at stepped
    split at stepped
    next callers below calls input =>
      cases stepped
      have layered := inv.layered
      rw [input] at layered
      refine inv.congr rfl (fun sym => ?_) layered
      rw [input, scanned_IPARAM]
    next => cases stepped
  | finish =>
    exact ⟨(finish_expand_exact_iff inv stepped).mpr orderly, finish_expand_layered inv.layered stepped⟩
  | directive disexpand =>
    simp only [step] at stepped
    split_ifs at stepped
    cases stepped
    exact inv.congr rfl (fun _ => Iff.rfl) inv.layered
  | pushFile =>
    simp only [step] at stepped
    split_ifs at stepped
    cases stepped
    exact inv.congr rfl (fun _ => scanned_IFILE) inv.layered
  | exhaust => exact delinput_invariant inv stepped

theorem run_hide_invariant {functionLike : Sym → Bool} {events : List (Event Sym)}
    {final : State Sym} (orderly : Meets (step functionLike) Orderly start events)
    (ran : run (step functionLike) start events = some final) : Invariant final :=
  run_invariant Invariant (step_invariant functionLike) start_invariant orderly ran

theorem expand_hidden {functionLike : Sym → Bool} (hidden : state.hide sym = true)
    (stepped : step functionLike state (.expand sym) = some next) : next = state := by
  simp only [step, hidden, Bool.or_true, if_true] at stepped
  split_ifs at stepped
  exact (Option.some.inj stepped).symm

/-- In every state that an orderly run reaches, a macro is hidden exactly while
its complete text is on the stack; a macro whose text is being scanned is not
expanded, and without a macro on the stack no symbol is hidden. -/
theorem hidden_iff_scanned (functionLike : Sym → Bool) {events : List (Event Sym)}
    {final : State Sym} (orderly : Meets (step functionLike) Orderly start events)
    (ran : run (step functionLike) start events = some final) : HideExact final ∧
      (∀ sym next, Scanned sym final.input →
        step functionLike final (.expand sym) = some next → next = final) ∧
      ((∀ sym hideset produced, Input.IMACRO sym hideset produced ∉ final.input) →
        ∀ sym, final.hide sym = false) := by
  have inv := run_hide_invariant orderly ran
  refine ⟨inv.exact, ?_, ?_⟩
  · intro sym next scanned stepped
    exact expand_hidden ((inv.exact sym).mpr scanned) stepped
  · intro noMacro sym
    rw [Bool.eq_false_iff]
    intro hidden
    obtain ⟨hideset, member⟩ := (inv.exact sym).mp hidden
    exact noMacro sym hideset true member

/-- `#define f(x) x` and `f(f(1))`: the same macro expanded in its argument. -/
def nestedCall : List (Event String) :=
  [.expand "f", .collect, .enter, .pushParam, .expand "f", .collect, .enter, .pushParam,
    .endParam, .finish, .exhaust, .endParam, .finish]

theorem nested_call_hidden_iff_scanned : ∃ final, run (step fun _ => true) start nestedCall = some final ∧
      HideExact final ∧ (∀ sym next, Scanned sym final.input →
        step (fun _ => true) final (.expand sym) = some next → next = final) ∧
      ((∀ sym hideset produced, Input.IMACRO sym hideset produced ∉ final.input) →
        ∀ sym, final.hide sym = false) := by
  have orderly : Meets (step fun _ : String => true) Orderly start nestedCall := by
    simp [nestedCall, Meets, step, start, reading, addMacro, finishExpand, delinput,
      addhideset, addhidesets, Orderly, NR_MACROARG]
  have ran : (run (step fun _ : String => true) start nestedCall).isSome = true := by decide
  obtain ⟨final, ran⟩ := Option.isSome_iff_exists.mp ran
  exact ⟨final, ran, hidden_iff_scanned (fun _ => true) orderly ran⟩

/-- `#define g(x) x`, `#define f(x) x g(2)` and `f(g(1))`: while the text of `f`
is scanned `g` is hidden too, and its second call is not expanded. -/
def otherMacroInArgument : List (Event String) :=
  [.expand "f", .collect, .enter, .pushParam, .expand "g", .collect, .enter, .pushParam,
    .endParam, .finish, .exhaust, .endParam, .finish]

theorem argument_macro_stays_hidden : ¬ ∀ (events : List (Event String)) (final : State String),
      run (step fun _ => true) start events = some final → HideExact final := by
  intro all
  have hidden : (run (step fun _ => true) start otherMacroInArgument).map
      (fun final => (final.hide "g", final.input)) =
      some (true, [.IMACRO "f" ["g", "f"] true, .IFILE]) := by decide
  obtain ⟨final, ran, result⟩ := Option.map_eq_some_iff.mp hidden
  have hides : final.hide "g" = true := congrArg Prod.fst result
  have input : final.input = [.IMACRO "f" ["g", "f"] true, .IFILE] := congrArg Prod.snd result
  have scanned := (all _ final ran "g").mp hides
  rw [input] at scanned
  obtain ⟨hideset, member⟩ := scanned
  simp at member

end Scc.Cc1.HideSet
