import Mathlib.Data.List.Nodup
import Scc.As.Pass

/-!
# The layout of several files

The sections start again for every file, so what is left at the end are the bytes of the
last file, and labels count from the start of their own file.
-/

namespace Scc.As.Pass

set_option autoImplicit false

variable {maxaddr pass : Nat}

def Line.names (line : Line) : List String :=
  match line.label, line.op with
  | some label, .equ name _ => if name = label then [label] else [label, name]
  | some label, _ => [label]
  | none, .equ name _ => [name]
  | none, _ => []

variable {name : String} {s s' final : State} {line : Line} {files : List (List Line)}

theorem assign_some {value : Nat} (assigned : assign pass s name value = some s') :
    (pass = 1 → (s.syms name).fdef = false) ∧ s' = s.putSym name { s.syms name with value := value } := by
  unfold assign at assigned
  split_ifs at assigned with redefined
  cases assigned
  refine ⟨?_, rfl⟩
  intro first
  simpa [first] using redefined

theorem defsec_known {sec : Lsection} (alloc : Bool)
    (found : s.secs name = some sec) : defsec s name alloc = { s with cursec := name } := by
  unfold defsec
  rw [found]

theorem defsec_new (alloc : Bool) (absent : s.secs name = none) :
    defsec s name alloc = { s.putSec name ⟨alloc, 0, none⟩ with cursec := name } := by
  unfold defsec
  rw [absent]

theorem defsec_frame (s : State) (name : String) (alloc : Bool) :
    (defsec s name alloc).emitted = s.emitted ∧ (defsec s name alloc).labels = s.labels ∧
      (defsec s name alloc).syms = s.syms := by
  cases found : s.secs name with
  | none =>
    rw [defsec_new alloc found]
    exact ⟨rfl, rfl, rfl⟩
  | some sec =>
    rw [defsec_known alloc found]
    exact ⟨rfl, rfl, rfl⟩

theorem step_secs (stepped : step maxaddr pass s line = some s') :
    match line.op with
    | .emit _ => ∃ sec bytes, s.secs s.cursec = some sec ∧ s'.secs = Function.update s.secs s.cursec
          (some { sec with curpc := sec.curpc + bytes.length, fp := sec.fp.map (· ++ bytes) }) ∧
        s'.emitted = s.emitted ++ [(s.cursec, bytes)]
    | .section_ name alloc =>
      s'.secs = (defsec s name alloc).secs ∧ s'.emitted = s.emitted
    | _ => s'.secs = s.secs ∧ s'.emitted = s.emitted := by
  unfold step at stepped
  rcases Option.bind_eq_some_iff.mp stepped with ⟨s₁, labelling, rest⟩
  rcases Option.map_eq_some_iff.mp rest with ⟨s₂, performed, rfl⟩
  have noted : (note s line).secs = s.secs ∧ (note s line).emitted = s.emitted ∧
      (note s line).cursec = s.cursec := by
    unfold note
    cases line.defines <;> exact ⟨rfl, rfl, rfl⟩
  have labels : s₁.secs = s.secs ∧ s₁.emitted = s.emitted ∧ s₁.cursec = s.cursec := by
    unfold labelled at labelling
    cases label : line.label with
    | none =>
      rw [label] at labelling
      cases labelling
      exact noted
    | some name =>
      rw [label] at labelling
      rcases Option.bind_eq_some_iff.mp labelling with ⟨sec, _, assigned⟩
      rw [(assign_some assigned).2]
      exact noted
  have finished : (finishLine s₂ line).secs = s₂.secs ∧ (finishLine s₂ line).emitted = s₂.emitted := by
    unfold finishLine
    cases line.label <;> exact ⟨rfl, rfl⟩
  rw [finished.1, finished.2]
  cases op : line.op with
  | none =>
    rw [op] at performed
    cases performed
    exact ⟨labels.1, labels.2.1⟩
  | end_ =>
    rw [op] at performed
    cases performed
    exact ⟨labels.1, labels.2.1⟩
  | emit bytes =>
    rw [op] at performed
    rcases Option.bind_eq_some_iff.mp performed with ⟨bs, _, emitted⟩
    rcases Option.bind_eq_some_iff.mp emitted with ⟨sec, found, done⟩
    split_ifs at done with overflow
    cases done
    rw [labels.1, labels.2.2] at found
    refine ⟨sec, bs, found, ?_, ?_⟩
    · simp only [State.putSec, labels.1, labels.2.2]
    · simp only [labels.2.1, labels.2.2]
  | section_ name alloc =>
    rw [op] at performed
    unfold perform at performed
    dsimp only at performed
    split_ifs at performed
    cases performed
    refine ⟨?_, (defsec_frame s₁ name alloc).1.trans labels.2.1⟩
    cases found : s.secs name with
    | none =>
      rw [defsec_new alloc found, defsec_new alloc (by rw [labels.1, found])]
      simp only [State.putSec, labels.1]
    | some sec =>
      rw [defsec_known alloc found, defsec_known alloc ((congrFun labels.1 name).trans found)]
      exact labels.1
  | equ name value =>
    rw [op] at performed
    rcases Option.map_eq_some_iff.mp performed with ⟨s₃, assigned, rfl⟩
    rw [(assign_some assigned).2]
    exact ⟨labels.1, labels.2.1⟩

theorem perform_syms {op : Op} (performed : perform maxaddr pass s op = some s') : s'.labels = s.labels ∧
      match op with
      | .equ name _ => ∃ value, s'.syms = Function.update s.syms name ⟨value, true⟩ ∧
          (pass = 1 → (s.syms name).fdef = false)
      | _ => s'.syms = s.syms := by
  cases op with
  | none =>
    cases performed
    exact ⟨rfl, rfl⟩
  | end_ =>
    cases performed
    exact ⟨rfl, rfl⟩
  | emit bytes =>
    rcases Option.bind_eq_some_iff.mp performed with ⟨bs, _, emitted⟩
    rcases Option.bind_eq_some_iff.mp emitted with ⟨sec, _, done⟩
    split_ifs at done
    cases done
    exact ⟨rfl, rfl⟩
  | section_ name alloc =>
    unfold perform at performed
    dsimp only at performed
    split_ifs at performed
    cases performed
    exact ⟨(defsec_frame s name alloc).2.1, (defsec_frame s name alloc).2.2⟩
  | equ name value =>
    rcases Option.map_eq_some_iff.mp performed with ⟨s₃, assigned, rfl⟩
    rcases assign_some assigned with ⟨fresh, rfl⟩
    refine ⟨rfl, value s.values (getpc s), ?_, fresh⟩
    unfold define State.putSym
    dsimp only
    rw [Function.update_idem, Function.update_self]

theorem labelled_syms (labelling : labelled pass s line = some s') : s'.labels = s.labels ∧
      match line.label with
      | some name => s'.syms = Function.update s.syms name ⟨getpc s, (s.syms name).fdef⟩ ∧
          (pass = 1 → (s.syms name).fdef = false)
      | none => s'.syms = s.syms := by
  unfold labelled at labelling
  cases label : line.label with
  | none =>
    rw [label] at labelling
    cases labelling
    exact ⟨rfl, rfl⟩
  | some name =>
    rw [label] at labelling
    rcases Option.bind_eq_some_iff.mp labelling with ⟨sec, found, assigned⟩
    rcases assign_some assigned with ⟨fresh, rfl⟩
    have pc : getpc s = sec.curpc := by
      unfold getpc
      rw [found]
    refine ⟨rfl, ?_, fresh⟩
    rw [pc]
    rfl

def Line.noted (line : Line) (s : State) : List Label :=
  match line.defines with
  | some name => [⟨name, s.cursec, getpc s⟩]
  | none => []

theorem step_labels (stepped : step maxaddr pass s line = some s') :
    s'.labels = s.labels ++ line.noted s := by
  unfold step at stepped
  rcases Option.bind_eq_some_iff.mp stepped with ⟨s₁, labelling, rest⟩
  rcases Option.map_eq_some_iff.mp rest with ⟨s₂, performed, rfl⟩
  have finished : (finishLine s₂ line).labels = s₂.labels := by
    unfold finishLine
    cases line.label <;> rfl
  rw [finished, (perform_syms performed).1, (labelled_syms labelling).1]
  unfold note Line.noted
  cases line.defines with
  | none => simp
  | some name => rfl

/-- A line gives values to its own names only, which are defined after it and in the first
pass not before. -/
structure Assigns (pass : Nat) (s s' : State) (line : Line) : Prop where
  others : ∀ name, name ∉ line.names → s'.syms name = s.syms name
  fdef : ∀ name ∈ line.names, (s'.syms name).fdef = true
  fresh : pass = 1 → ∀ name ∈ line.names, (s.syms name).fdef = false
  value : ∀ name, line.defines = some name → (s'.syms name).value = getpc s

theorem assigns_label {s s₁ s₂ : State} (plain : ∀ name value, line.op ≠ .equ name value)
    (labelling : match line.label with
      | some name => s₁.syms = Function.update s.syms name ⟨getpc s, (s.syms name).fdef⟩ ∧
          (pass = 1 → (s.syms name).fdef = false)
      | none => s₁.syms = s.syms)
    (performed : s₂.syms = s₁.syms) : Assigns pass s (finishLine s₂ line) line := by
  rcases line with ⟨_ | label, op⟩
  · have names : (Line.mk none op).names = [] := by
      unfold Line.names
      cases op <;> first | rfl | exact absurd rfl (plain _ _)
    have syms : (finishLine s₂ ⟨none, op⟩).syms = s.syms := performed.trans labelling
    constructor
    · intro name _
      rw [syms]
    · intro name named
      rw [names] at named
      cases named
    · intro _ name named
      rw [names] at named
      cases named
    · intro name defined
      cases op <;> cases defined
  · have names : (Line.mk (some label) op).names = [label] := by
      unfold Line.names
      cases op <;> first | rfl | exact absurd rfl (plain _ _)
    have defines : (Line.mk (some label) op).defines = some label := by
      unfold Line.defines
      cases op <;> first | rfl | exact absurd rfl (plain _ _)
    have syms : (finishLine s₂ ⟨some label, op⟩).syms =
        Function.update s.syms label ⟨getpc s, true⟩ := by
      change Function.update s₂.syms label { s₂.syms label with fdef := true } = _
      rw [performed, labelling.1, Function.update_idem, Function.update_self]
    constructor
    · intro name other
      rw [names, List.mem_singleton] at other
      rw [syms, Function.update_of_ne other]
    · intro name named
      rw [names, List.mem_singleton] at named
      rw [syms, named, Function.update_self]
    · intro first name named
      rw [names, List.mem_singleton] at named
      rw [named]
      exact labelling.2 first
    · intro name defined
      rw [defines] at defined
      cases defined
      rw [syms, Function.update_self]

theorem assigns_equ {s s₁ s₂ : State} {label : Option String} {value : Values → Nat → Nat} {v : Nat}
    (labelling : match label with
      | some label => s₁.syms = Function.update s.syms label ⟨getpc s, (s.syms label).fdef⟩ ∧
          (pass = 1 → (s.syms label).fdef = false)
      | none => s₁.syms = s.syms) (performed : s₂.syms = Function.update s₁.syms name ⟨v, true⟩)
    (fresh : pass = 1 → (s₁.syms name).fdef = false) :
    Assigns pass s (finishLine s₂ ⟨label, .equ name value⟩) ⟨label, .equ name value⟩ := by
  cases label with
  | none =>
    dsimp only at labelling
    rw [labelling] at performed fresh
    have syms : (finishLine s₂ ⟨none, .equ name value⟩).syms =
        Function.update s.syms name ⟨v, true⟩ := performed
    constructor
    · intro other notNamed
      have ne : other ≠ name := by simpa [Line.names] using notNamed
      rw [syms, Function.update_of_ne ne]
    · intro other named
      have same : other = name := by simpa [Line.names] using named
      rw [syms, same, Function.update_self]
    · intro first other named
      have same : other = name := by simpa [Line.names] using named
      rw [same]
      exact fresh first
    · intro other defined
      cases defined
  | some label =>
    rcases labelling with ⟨labelling, labelFresh⟩
    have syms : (finishLine s₂ ⟨some label, .equ name value⟩).syms =
        Function.update s₂.syms label { s₂.syms label with fdef := true } := rfl
    by_cases itself : name = label
    · subst itself
      have names : (Line.mk (some name) (.equ name value)).names = [name] := by simp [Line.names]
      have all : (finishLine s₂ ⟨some name, .equ name value⟩).syms =
          Function.update s.syms name ⟨v, true⟩ := by
        rw [syms, performed, labelling]
        simp only [Function.update_idem, Function.update_self]
      constructor
      · intro other notNamed
        rw [names, List.mem_singleton] at notNamed
        rw [all, Function.update_of_ne notNamed]
      · intro other named
        rw [names, List.mem_singleton] at named
        rw [all, named, Function.update_self]
      · intro first other named
        rw [names, List.mem_singleton] at named
        rw [named]
        exact labelFresh first
      · intro other defined
        simp [Line.defines] at defined
    · have names : (Line.mk (some label) (.equ name value)).names = [label, name] := by
        simp [Line.names, itself]
      have ne : label ≠ name := fun same => itself same.symm
      have atLabel : s₂.syms label = ⟨getpc s, (s.syms label).fdef⟩ := by
        rw [performed, Function.update_of_ne ne, labelling, Function.update_self]
      constructor
      · intro other notNamed
        rw [names] at notNamed
        simp only [List.mem_cons, List.not_mem_nil, or_false, not_or] at notNamed
        rw [syms, Function.update_of_ne notNamed.1, performed, Function.update_of_ne notNamed.2,
          labelling, Function.update_of_ne notNamed.1]
      · intro other named
        rw [names] at named
        simp only [List.mem_cons, List.not_mem_nil, or_false] at named
        rcases named with rfl | rfl
        · rw [syms, Function.update_self]
        · rw [syms, Function.update_of_ne itself, performed, Function.update_self]
      · intro first other named
        rw [names] at named
        simp only [List.mem_cons, List.not_mem_nil, or_false] at named
        rcases named with rfl | rfl
        · exact labelFresh first
        · have before := fresh first
          rw [labelling, Function.update_of_ne itself] at before
          exact before
      · intro other defined
        simp only [Line.defines, if_neg itself, Option.some.injEq] at defined
        subst defined
        rw [syms, Function.update_self, atLabel]

theorem step_assigns (stepped : step maxaddr pass s line = some s') : Assigns pass s s' line := by
  unfold step at stepped
  rcases Option.bind_eq_some_iff.mp stepped with ⟨s₁, labelling, rest⟩
  rcases Option.map_eq_some_iff.mp rest with ⟨s₂, performed, rfl⟩
  have noted : (note s line).syms = s.syms ∧ getpc (note s line) = getpc s := by
    unfold note
    cases line.defines <;> exact ⟨rfl, rfl⟩
  have first := (labelled_syms labelling).2
  rw [noted.1, noted.2] at first
  have second := (perform_syms performed).2
  rcases line with ⟨label, op⟩
  cases op with
  | equ name value =>
    rcases second with ⟨v, second, fresh⟩
    exact assigns_equ first second fresh
  | none => exact assigns_label (fun _ _ same => by cases same) first second
  | end_ => exact assigns_label (fun _ _ same => by cases same) first second
  | emit bytes => exact assigns_label (fun _ _ same => by cases same) first second
  | section_ name alloc => exact assigns_label (fun _ _ same => by cases same) first second

theorem EndsLast.head {rest : List Line} (ends : EndsLast (line :: rest)) : line.op = .end_ → rest = [] := by
  intro isEnd
  cases rest with
  | nil => rfl
  | cons other rest => exact absurd isEnd (ends line List.mem_cons_self)

theorem EndsLast.tail {line : Line} {rest : List Line} (ends : EndsLast (line :: rest)) : EndsLast rest := by
  cases rest with
  | nil => exact fun other member => by cases member
  | cons other rest => exact fun line member => ends line (List.mem_cons_of_mem _ member)

theorem readLines_cons {rest : List Line} (goesOn : line.op = .end_ → rest = [])
    (read : readLines maxaddr pass (line :: rest) s = some s') :
    ∃ middle, step maxaddr pass s line = some middle ∧ readLines maxaddr pass rest middle = some s' := by
  unfold readLines at read
  rcases Option.bind_eq_some_iff.mp read with ⟨middle, stepped, later⟩
  refine ⟨middle, stepped, ?_⟩
  cases op : line.op with
  | end_ =>
    rw [op] at later
    cases later
    rw [goesOn op]
    rfl
  | none => simpa only [op] using later
  | emit bytes => simpa only [op] using later
  | section_ name alloc => simpa only [op] using later
  | equ name value => simpa only [op] using later

theorem readLines_induction {motive : List Line → State → State → Prop}
    (nil : ∀ s, motive [] s { s with rest := [] })
    (cons : ∀ line rest s middle s', step maxaddr pass s line = some middle →
      motive rest middle s' → motive (line :: rest) s s') (lines : List Line) :
    ∀ s s', EndsLast lines → readLines maxaddr pass lines s = some s' →
      motive lines s s' := by
  induction lines with
  | nil =>
    intro s s' _ read
    cases read
    exact nil s
  | cons line rest ih =>
    intro s s' ends read
    rcases readLines_cons ends.head read with ⟨middle, stepped, later⟩
    exact cons line rest s middle s' stepped (ih middle s' ends.tail later)

theorem step_known (stepped : step maxaddr pass s line = some s') (known : (s.secs name).isSome) :
    (s'.secs name).isSome := by
  have effect := step_secs stepped
  rcases line with ⟨label, op⟩
  cases op with
  | none => rwa [effect.1]
  | end_ => rwa [effect.1]
  | equ other value => rwa [effect.1]
  | emit bytes =>
    rcases effect with ⟨sec, bs, _, secs, _⟩
    rw [secs]
    by_cases same : name = s.cursec
    · subst same
      rw [Function.update_self]
      rfl
    · rwa [Function.update_of_ne same]
  | section_ other alloc =>
    rw [effect.1]
    cases found : s.secs other with
    | some sec => rwa [defsec_known alloc found]
    | none =>
      rw [defsec_new alloc found]
      by_cases same : name = other
      · subst same
        rw [found] at known
        cases known
      · change (Function.update s.secs other _ name).isSome
        rwa [Function.update_of_ne same]

theorem step_section {label : Option String} {alloc : Bool}
    (stepped : step maxaddr pass s ⟨label, .section_ name alloc⟩ = some s') : (s'.secs name).isSome := by
  rw [(step_secs stepped).1]
  cases found : s.secs name with
  | some sec =>
    rw [defsec_known alloc found]
    change (s.secs name).isSome
    rw [found]
    rfl
  | none =>
    rw [defsec_new alloc found]
    change (Function.update s.secs name _ name).isSome
    rw [Function.update_self]
    rfl

def Knows (s : State) (lines : List Line) : Prop :=
  ∀ line ∈ lines, ∀ name alloc, line.op = .section_ name alloc → (s.secs name).isSome

variable (lines : List Line)

theorem readLines_known (s s' : State) (ends : EndsLast lines)
    (read : readLines maxaddr pass lines s = some s') :
    (∀ name, (s.secs name).isSome → (s'.secs name).isSome) ∧ Knows s' lines := by
  apply readLines_induction (motive := fun lines s s' =>
    (∀ name, (s.secs name).isSome → (s'.secs name).isSome) ∧ Knows s' lines) ?_ ?_ lines s s' ends read
  · intro s
    exact ⟨fun _ known => known, fun line member => by cases member⟩
  · intro line rest s middle s' stepped later
    refine ⟨fun name known => later.1 name (step_known stepped known), ?_⟩
    intro other member name alloc isSection
    rcases List.mem_cons.mp member with rfl | member
    · rcases other with ⟨label, op⟩
      dsimp only at isSection
      subst isSection
      exact later.1 name (step_section stepped)
    · exact later.2 other member name alloc isSection

/-- A section without `SALLOC` never gets a file. -/
def NoFile (s : State) : Prop :=
  ∀ name sec, s.secs name = some sec → sec.alloc = false → sec.fp = none

theorem step_noFile (stepped : step maxaddr pass s line = some s') (noFile : NoFile s) : NoFile s' := by
  have effect := step_secs stepped
  intro name sec found notAlloc
  rcases line with ⟨label, op⟩
  cases op with
  | none =>
    rw [effect.1] at found
    exact noFile name sec found notAlloc
  | end_ =>
    rw [effect.1] at found
    exact noFile name sec found notAlloc
  | equ other value =>
    rw [effect.1] at found
    exact noFile name sec found notAlloc
  | emit bytes =>
    rcases effect with ⟨old, bs, current, secs, _⟩
    rw [secs] at found
    by_cases same : name = s.cursec
    · subst same
      rw [Function.update_self] at found
      cases found
      have none_ := noFile s.cursec old current notAlloc
      simp [none_]
    · rw [Function.update_of_ne same] at found
      exact noFile name sec found notAlloc
  | section_ other alloc =>
    rw [effect.1] at found
    cases known : s.secs other with
    | some old =>
      rw [defsec_known alloc known] at found
      exact noFile name sec found notAlloc
    | none =>
      rw [defsec_new alloc known] at found
      change Function.update s.secs other _ name = some sec at found
      by_cases same : name = other
      · subst same
        rw [Function.update_self] at found
        cases found
        rfl
      · rw [Function.update_of_ne same] at found
        exact noFile name sec found notAlloc

theorem readLines_noFile (s s' : State) (ends : EndsLast lines)
    (read : readLines maxaddr pass lines s = some s') (noFile : NoFile s) : NoFile s' := by
  apply readLines_induction (motive := fun _ s s' => NoFile s → NoFile s') ?_ ?_ lines s s' ends
    read noFile
  · intro s noFile
    exact noFile
  · intro line rest s middle s' stepped later noFile
    exact later (step_noFile stepped noFile)

theorem names_nodup (line : Line) : line.names.Nodup := by
  rcases line with ⟨_ | label, op⟩
  · cases op <;> simp [Line.names]
  · cases op with
    | equ name value =>
      by_cases same : name = label
      · simp [Line.names, same]
      · have ne : label ≠ name := fun eq => same eq.symm
        simp [Line.names, same, ne]
    | none => simp [Line.names]
    | emit bytes => simp [Line.names]
    | section_ name alloc => simp [Line.names]
    | end_ => simp [Line.names]

theorem defines_names (defined : line.defines = some name) : name ∈ line.names := by
  rcases line with ⟨_ | label, op⟩
  · cases op <;> cases defined
  · cases op with
    | equ other value =>
      by_cases same : other = label
      · simp [Line.defines, same] at defined
      · simp only [Line.defines, if_neg same, Option.some.injEq] at defined
        subst defined
        simp [Line.names, same]
    | none => simpa [Line.names, Line.defines, eq_comm] using defined
    | emit bytes => simpa [Line.names, Line.defines, eq_comm] using defined
    | section_ other alloc => simpa [Line.names, Line.defines, eq_comm] using defined
    | end_ => simpa [Line.names, Line.defines, eq_comm] using defined

/-- The first pass goes through when every symbol gets its value once. -/
structure FirstPass (names : List String) (s s' : State) : Prop where
  nodup : names.Nodup
  fresh : ∀ name ∈ names, (s.syms name).fdef = false
  fdef : ∀ name ∈ names, (s'.syms name).fdef = true
  keeps : ∀ name, (s.syms name).fdef = true → (s'.syms name).fdef = true

theorem FirstPass.nil (s s' : State) (same : s'.syms = s.syms) : FirstPass [] s s' :=
  ⟨List.nodup_nil, by simp, by simp, by simp [same]⟩

theorem FirstPass.append {names more : List String} {s middle s' : State}
    (first : FirstPass names s middle) (second : FirstPass more middle s') :
    FirstPass (names ++ more) s s' := by
  constructor
  · rw [List.nodup_append]
    refine ⟨first.nodup, second.nodup, ?_⟩
    rintro name early other late rfl
    have before := first.fdef name early
    rw [second.fresh name late] at before
    cases before
  · intro name member
    rcases List.mem_append.mp member with early | late
    · exact first.fresh name early
    · cases defined : (s.syms name).fdef with
      | false => rfl
      | true =>
        have before := first.keeps name defined
        rw [second.fresh name late] at before
        cases before
  · intro name member
    rcases List.mem_append.mp member with early | late
    · exact second.keeps name (first.fdef name early)
    · exact second.fdef name late
  · intro name defined
    exact second.keeps name (first.keeps name defined)

theorem step_firstPass (stepped : step maxaddr 1 s line = some s') : FirstPass line.names s s' := by
  have effect := step_assigns stepped
  refine ⟨names_nodup line, effect.fresh rfl, effect.fdef, ?_⟩
  intro name defined
  by_cases named : name ∈ line.names
  · exact effect.fdef name named
  · rw [effect.others name named]
    exact defined

theorem readLines_firstPass (s s' : State)
    (ends : EndsLast lines) (read : readLines maxaddr 1 lines s = some s') :
    FirstPass (lines.flatMap Line.names) s s' := by
  apply readLines_induction (motive := fun lines s s' => FirstPass (lines.flatMap Line.names) s s')
    ?_ ?_ lines s s' ends read
  · intro s
    exact FirstPass.nil s _ rfl
  · intro line rest s middle s' stepped later
    exact (step_firstPass stepped).append later

/-- What the labels of a file are worth afterwards. -/
structure Labelled (names : List String) (s s' : State) : Prop where
  others : ∀ name, name ∉ names → s'.syms name = s.syms name
  labels : ∀ label ∈ s'.labels, label ∈ s.labels ∨
    label.name ∈ names ∧ (s'.syms label.name).value = label.offset

theorem readLines_labelled (s s' : State)
    (ends : EndsLast lines) (read : readLines maxaddr pass lines s = some s')
    (nodup : (lines.flatMap Line.names).Nodup) : Labelled (lines.flatMap Line.names) s s' := by
  apply readLines_induction (motive := fun lines s s' =>
    (lines.flatMap Line.names).Nodup → Labelled (lines.flatMap Line.names) s s') ?_ ?_ lines s s'
    ends read nodup
  · intro s _
    exact ⟨fun _ _ => rfl, fun label member => Or.inl member⟩
  · intro line rest s middle s' stepped later nodup
    rw [List.flatMap_cons, List.nodup_append] at nodup
    rcases nodup with ⟨_, nodupRest, apart⟩
    have effect := step_assigns stepped
    have tail := later nodupRest
    constructor
    · intro name notNamed
      rw [List.flatMap_cons, List.mem_append, not_or] at notNamed
      rw [tail.others name notNamed.2, effect.others name notNamed.1]
    · intro label member
      rcases tail.labels label member with old | ⟨named, value⟩
      · rw [step_labels stepped] at old
        rcases List.mem_append.mp old with older | new
        · exact Or.inl older
        · right
          unfold Line.noted at new
          cases defined : line.defines with
          | none =>
            rw [defined] at new
            cases new
          | some name =>
            rw [defined] at new
            have same : label = ⟨name, s.cursec, getpc s⟩ := List.mem_singleton.mp new
            subst same
            have named := defines_names defined
            refine ⟨List.mem_append_left _ named, ?_⟩
            have notLater : name ∉ rest.flatMap Line.names := fun later =>
              apart name named name later rfl
            rw [tail.others name notLater]
            exact effect.value name defined
      · exact Or.inr ⟨List.mem_append_right _ named, value⟩

/-- The file of every section with bytes has what was emitted for it. -/
def Filled (s : State) : Prop :=
  ∀ name sec, s.secs name = some sec →
    sec.fp = if sec.alloc then some (contribution name ⟨s.emitted, s.labels⟩) else none

theorem contribution_snoc (name other : String) (emitted : List (String × List UInt8))
    (bytes : List UInt8) (labels more : List Label) :
    contribution name ⟨emitted ++ [(other, bytes)], labels⟩ =
      contribution name ⟨emitted, more⟩ ++ if other = name then bytes else [] := by
  unfold contribution
  rw [List.filter_append, List.flatMap_append]
  by_cases same : other = name
  · simp [same]
  · simp [same]

theorem contribution_emitted {log log' : Log} (same : log.emitted = log'.emitted) :
    contribution name log = contribution name log' := by
  unfold contribution
  rw [same]

theorem step_filled (stepped : step maxaddr pass s line = some s')
    (known : Knows s [line]) (filled : Filled s) : Filled s' := by
  have effect := step_secs stepped
  have unchanged : s'.secs = s.secs → s'.emitted = s.emitted → Filled s' := by
    intro secs emitted name sec found
    rw [secs] at found
    rw [contribution_emitted (show (Log.mk s'.emitted s'.labels).emitted = (Log.mk s.emitted s.labels).emitted
      from emitted)]
    exact filled name sec found
  rcases line with ⟨label, op⟩
  cases op with
  | none => exact unchanged effect.1 effect.2
  | end_ => exact unchanged effect.1 effect.2
  | equ name value => exact unchanged effect.1 effect.2
  | section_ name alloc =>
    have exists_ := known _ List.mem_cons_self name alloc rfl
    rcases Option.isSome_iff_exists.mp exists_ with ⟨sec, found⟩
    have secs : s'.secs = (defsec s name alloc).secs := effect.1
    rw [defsec_known alloc found] at secs
    exact unchanged secs effect.2
  | emit f =>
    rcases effect with ⟨old, bytes, current, secs, emitted⟩
    intro name sec found
    rw [secs] at found
    have grown := contribution_snoc name s.cursec s.emitted bytes s'.labels s.labels
    by_cases same : name = s.cursec
    · subst same
      rw [if_pos rfl] at grown
      rw [Function.update_self] at found
      cases found
      have before := filled s.cursec old current
      dsimp only
      rw [before, emitted, grown]
      cases old.alloc <;> rfl
    · rw [if_neg (fun eq => same eq.symm), List.append_nil] at grown
      rw [Function.update_of_ne same] at found
      rw [emitted, grown]
      exact filled name sec found

theorem readLines_filled (s s' : State)
    (ends : EndsLast lines) (read : readLines maxaddr pass lines s = some s')
    (known : Knows s lines) (filled : Filled s) : Filled s' := by
  apply readLines_induction (motive := fun lines s s' => Knows s lines → Filled s → Filled s')
    ?_ ?_ lines s s' ends read known filled
  · intro s _ filled
    exact filled
  · intro line rest s middle s' stepped later known filled
    apply later
    · intro other member name alloc isSection
      exact step_known stepped (known other (List.mem_cons_of_mem _ member) name alloc isSection)
    · apply step_filled stepped ?_ filled
      intro other member
      rcases List.mem_singleton.mp member with rfl
      exact known other List.mem_cons_self

theorem readLines_rest (s s' : State) (ends : EndsLast lines)
    (read : readLines maxaddr pass lines s = some s') : s'.rest = [] := by
  apply readLines_induction (motive := fun _ _ s' => s'.rest = []) ?_ ?_ lines s s' ends read
  · intro s
    rfl
  · intro line rest s middle s' _ later
    exact later

theorem dopass_lines {file : List Line} (rest : s.rest = []) (passed : dopass maxaddr pass s file = some s') :
    readLines maxaddr pass file (cleansecs pass s) = some s' := by
  unfold dopass at passed
  rwa [rest, List.append_nil] at passed

theorem cleansecs_known (known : (s.secs name).isSome) : ((cleansecs pass s).secs name).isSome := by
  change ((s.secs name).map (Lsection.clean pass)).isSome
  rwa [Option.isSome_map]

theorem cleansecs_noFile (noFile : NoFile s) : NoFile (cleansecs pass s) := by
  intro name sec found notAlloc
  rcases Option.map_eq_some_iff.mp found with ⟨old, oldFound, rfl⟩
  have notAlloc : old.alloc = false := notAlloc
  have closed : old.fp = none := noFile name old oldFound notAlloc
  change (if pass = 1 ∨ old.alloc = false then old.fp else some []) = none
  rw [if_pos (Or.inr notAlloc)]
  exact closed

theorem cleansecs_filled (noFile : NoFile s) : Filled (cleansecs 2 s) := by
  intro name sec found
  rcases Option.map_eq_some_iff.mp found with ⟨old, oldFound, rfl⟩
  change (if 2 = 1 ∨ old.alloc = false then old.fp else some []) =
    if old.alloc then some [] else none
  cases allocated : old.alloc with
  | true => simp
  | false => simp [noFile name old oldFound allocated]

def fileNames (file : List Line) : List String := file.flatMap Line.names

/-- What the first pass leaves for the second one. -/
structure Passed (files : List (List Line)) (s s' : State) : Prop where
  rest : s'.rest = []
  noFile : NoFile s → NoFile s'
  known : ∀ name, (s.secs name).isSome → (s'.secs name).isSome
  knows : ∀ file ∈ files, Knows s' file
  names : FirstPass (files.flatMap fileNames) s s'

theorem dopass_passed {file : List Line} (ends : EndsLast file)
    (rest : s.rest = []) (passed : dopass maxaddr 1 s file = some s') : Passed [file] s s' := by
  have read := dopass_lines rest passed
  have known := readLines_known file _ s' ends read
  constructor
  · exact readLines_rest file _ s' ends read
  · intro noFile
    exact readLines_noFile file _ s' ends read (cleansecs_noFile noFile)
  · intro name before
    exact known.1 name (cleansecs_known before)
  · intro other member
    rw [List.mem_singleton.mp member]
    exact known.2
  · have names := readLines_firstPass file _ s' ends read
    rw [List.flatMap_singleton]
    exact ⟨names.nodup, names.fresh, names.fdef, names.keeps⟩

theorem Passed.append {files more : List (List Line)} {s middle s' : State}
    (first : Passed files s middle) (second : Passed more middle s') : Passed (files ++ more) s s' := by
  constructor
  · exact second.rest
  · exact fun noFile => second.noFile (first.noFile noFile)
  · exact fun name known => second.known name (first.known name known)
  · intro file member line inFile name alloc isSection
    rcases List.mem_append.mp member with early | late
    · exact second.known name (first.knows file early line inFile name alloc isSection)
    · exact second.knows file late line inFile name alloc isSection
  · rw [List.flatMap_append]
    exact first.names.append second.names

theorem firstPass_passed (files : List (List Line)) : ∀ s s', (∀ file ∈ files, EndsLast file) → s.rest = [] →
      files.foldlM (dopass maxaddr 1) s = some s' → Passed files s s' := by
  induction files with
  | nil =>
    intro s s' _ rest done
    cases done
    exact ⟨rest, id, fun _ => id, (fun file member => by cases member), FirstPass.nil s s rfl⟩
  | cons file files ih =>
    intro s s' ends rest done
    rw [List.foldlM_cons] at done
    rcases Option.bind_eq_some_iff.mp done with ⟨middle, passed, later⟩
    have first := dopass_passed (ends file List.mem_cons_self) rest passed
    have second := ih middle s' (fun file member => ends file (List.mem_cons_of_mem _ member))
      first.rest later
    exact first.append second

structure Assembled (files : List (List Line)) (s final : State) (logs : List Log) : Prop where
  others : ∀ name, name ∉ files.flatMap fileNames → final.syms name = s.syms name
  labels : ∀ log ∈ logs, ∀ label ∈ log.labels, label.name ∈ files.flatMap fileNames ∧
    (final.syms label.name).value = label.offset
  bytes : ∀ last, logs.getLast? = some last → ∀ name sec, final.secs name = some sec →
    sec.fp = if sec.alloc then some (contribution name last) else none

theorem secondPass_nil (done : secondPass maxaddr files s = some (final, [])) : final = s := by
  cases files with
  | nil =>
    cases done
    rfl
  | cons file files =>
    rcases Option.bind_eq_some_iff.mp done with ⟨middle, _, rest⟩
    rcases Option.map_eq_some_iff.mp rest with ⟨result, _, built⟩
    cases built

theorem secondPass_assembled (files : List (List Line)) :
    ∀ s final logs, (∀ file ∈ files, EndsLast file) → s.rest = [] → NoFile s →
      (∀ file ∈ files, Knows s file) → (files.flatMap fileNames).Nodup →
      secondPass maxaddr files s = some (final, logs) → Assembled files s final logs := by
  induction files with
  | nil =>
    intro s final logs _ _ _ _ _ done
    cases done
    constructor
    · exact fun _ _ => rfl
    · exact fun log member => by cases member
    · exact fun last isLast => by cases isLast
  | cons file files ih =>
    intro s final logs ends rest noFile knows nodup done
    rcases Option.bind_eq_some_iff.mp done with ⟨middle, passed, later⟩
    rcases Option.map_eq_some_iff.mp later with ⟨⟨final', logs'⟩, finished, built⟩
    cases built
    have ends_ := ends file List.mem_cons_self
    have read := dopass_lines rest passed
    rw [List.flatMap_cons, List.nodup_append] at nodup
    rcases nodup with ⟨nodupFile, nodupRest, apart⟩
    have known := readLines_known file _ middle ends_ read
    have tail : Assembled files middle final' logs' := by
      apply ih middle final' logs' (fun file member => ends file (List.mem_cons_of_mem _ member))
      · exact readLines_rest file _ middle ends_ read
      · exact readLines_noFile file _ middle ends_ read (cleansecs_noFile noFile)
      · intro other member line inFile name alloc isSection
        exact known.1 name (cleansecs_known
          (knows other (List.mem_cons_of_mem _ member) line inFile name alloc isSection))
      · exact nodupRest
      · exact finished
    have labelled := readLines_labelled file _ middle ends_ read nodupFile
    have filled : Filled middle := by
      apply readLines_filled file _ middle ends_ read _ (cleansecs_filled noFile)
      intro line inFile name alloc isSection
      exact cleansecs_known (knows file List.mem_cons_self line inFile name alloc isSection)
    constructor
    · intro name notNamed
      rw [List.flatMap_cons, List.mem_append, not_or] at notNamed
      rw [tail.others name notNamed.2, labelled.others name notNamed.1]
      rfl
    · intro log member label inLog
      rw [List.flatMap_cons, List.mem_append]
      rcases List.mem_cons.mp member with rfl | member
      · rcases labelled.labels label inLog with old | ⟨named, value⟩
        · cases old
        · refine ⟨Or.inl named, ?_⟩
          have notLater : label.name ∉ files.flatMap fileNames := fun later =>
            apart label.name named label.name later rfl
          rw [tail.others label.name notLater]
          exact value
      · have later := tail.labels log member label inLog
        exact ⟨Or.inr later.1, later.2⟩
    · intro last isLast
      cases logs' with
      | nil =>
        cases isLast
        rw [secondPass_nil finished]
        exact filled
      | cons log logs' =>
        rw [List.getLast?_cons_cons] at isLast
        exact tail.bytes last isLast

theorem asm_assembled {logs : List Log}
    (ends : ∀ file ∈ files, EndsLast file) (done : asm maxaddr files = some (final, logs)) :
    ∃ s, Assembled files s final logs := by
  rcases Option.bind_eq_some_iff.mp done with ⟨s, first, second⟩
  have passed := firstPass_passed files State.init s ends rfl first
  have noFile : NoFile State.init := by
    intro name sec found _
    unfold State.init at found
    dsimp only at found
    split_ifs at found
    cases found
    rfl
  exact ⟨s, secondPass_assembled files s final logs ends passed.rest (passed.noFile noFile)
    passed.knows passed.names.nodup second⟩

theorem asm_nil (done : asm maxaddr files = some (final, [])) : final = State.init := by
  rcases Option.bind_eq_some_iff.mp done with ⟨s, first, second⟩
  cases files with
  | nil =>
    cases first
    cases second
    rfl
  | cons file files =>
    rcases Option.bind_eq_some_iff.mp second with ⟨middle, _, rest⟩
    rcases Option.map_eq_some_iff.mp rest with ⟨result, _, built⟩
    cases built

theorem dumpsec_eq {sec : Lsection} {bytes : List UInt8}
    (fp : sec.fp = if sec.alloc then some bytes else none) :
    dumpsec sec = if sec.alloc then bytes else [] := by
  unfold dumpsec
  rw [fp]
  cases sec.alloc <;> rfl

theorem bytes_iff (name : String) (alloc : Bool) (earlier : List Log) (last : Log) :
    (if alloc then contribution name last else []) = ((earlier ++ [last]).map (contribution name)).flatten ↔
      (∀ log ∈ earlier, contribution name log = []) ∧
        (alloc = false → ∀ log ∈ earlier ++ [last], contribution name log = []) := by
  rw [List.map_append, List.flatten_append]
  have empty : ((earlier.map (contribution name)).flatten = [] ↔
      ∀ log ∈ earlier, contribution name log = []) := by
    rw [List.flatten_eq_nil_iff, List.forall_mem_map]
  cases alloc with
  | true =>
    simp only [if_true, List.map_cons, List.map_nil, List.flatten_cons, List.flatten_nil,
      List.append_nil, List.self_eq_append_left, empty]
    simp
  | false =>
    simp only [Bool.false_eq_true, if_false, List.map_cons, List.map_nil, List.flatten_cons,
      List.flatten_nil, List.append_nil, forall_const]
    rw [eq_comm, List.append_eq_nil_iff, empty, List.forall_mem_append, List.forall_mem_singleton]
    exact ⟨fun both => ⟨both.1, both⟩, fun both => both.2⟩

theorem value_iff (sec : String) (offset : Nat) (earlier : List Log) :
    offset = (earlier.map fun log => (contribution sec log).length).sum + offset ↔
      ∀ log ∈ earlier, contribution sec log = [] := by
  have zero : offset = (earlier.map fun log => (contribution sec log).length).sum + offset ↔
      (earlier.map fun log => (contribution sec log).length).sum = 0 := by omega
  rw [zero, List.sum_eq_zero_iff_forall_eq_nat, List.forall_mem_map]
  simp only [List.length_eq_zero_iff]

def byteFile (byte : UInt8) (label : Option String) : List Line :=
  [⟨label, .emit fun _ _ => some [byte]⟩]

end Scc.As.Pass
