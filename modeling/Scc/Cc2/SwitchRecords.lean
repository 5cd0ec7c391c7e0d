import Mathlib.Data.List.Perm.Basic

/-!
# The records of the switches

`eswitch()` gives every switch of a function a record and `newswtch()` puts it at the
head of `list`. The lowering of the switch frees the array of the case nodes when it
makes a chain of comparisons and keeps it when it makes a table. `parse()` begins with
a call to `cleanswtch()`, which walks the list and releases what the function before
has left.

The memory is the list of the records that are allocated. A walk that reads anything
else has no result. `cleanswtch()` does not reset `list`, so what it has released is
visited by the next call.
-/

namespace Scc.Cc2.SwitchRecords

set_option autoImplicit false

/-- A `struct swtch` as `cleanswtch()` reads it; the nodes of the cases are numbered. -/
structure Swtch where
  nr : Nat
  cases : Option (List Nat)
  next : Option Nat
deriving DecidableEq

/-- The allocated records with their addresses, and `list`. `mallocs` counts the calls
to `xmalloc()`. -/
structure State where
  records : List (Nat × Swtch)
  list : Option Nat
  mallocs : Nat
deriving DecidableEq

def start : State where
  records := []
  list := none
  mallocs := 0

def State.live (state : State) : List Nat := state.records.map Prod.fst

/-- The address that the n-th call to `xmalloc()` returns is not one in use; it can be
one that was freed. -/
structure Malloc where
  addr : Nat → List Nat → Nat
  fresh : ∀ mallocs live, addr mallocs live ∉ live

def newswtch (malloc : Malloc) (swt : Swtch) (state : State) : State :=
  let addr := malloc.addr state.mallocs state.live
  { records := (addr, { swt with next := state.list }) :: state.records
    list := some addr
    mallocs := state.mallocs + 1 }

/-- What `bswitch()` and `addcase()` have made of the cases of a switch. -/
def swtchOf (cases : List Nat) : Swtch where
  nr := cases.length
  cases := if cases = [] then none else some cases
  next := none

def eswitch (malloc : Malloc) (cases : List Nat) (state : State) : State :=
  newswtch malloc (swtchOf cases) state

/-- `swtch_if()` puts the case nodes into the list of the statements and frees the
array, `swtch_dir()` leaves the record as it is. -/
def swtch (swtchif : Int) (swt : Swtch) : Swtch :=
  if (swt.nr : Int) < swtchif then { swt with cases := none } else swt

/-- The statements of a function, the cases of each of its switches in the order in
which the switches end. -/
def body (malloc : Malloc) : List (List Nat) → State → State
  | [], state => state
  | cases :: rest, state => body malloc rest (eswitch malloc cases state)

/-- The addresses of the records that `body` makes. -/
def created (malloc : Malloc) : List (List Nat) → State → List Nat
  | [], _ => []
  | cases :: rest, state =>
    malloc.addr state.mallocs state.live :: created malloc rest (eswitch malloc cases state)

def genaddr (swtchif : Int) (addrs : List Nat) (state : State) : State :=
  { state with
    records := state.records.map fun entry =>
      if entry.1 ∈ addrs then (entry.1, swtch swtchif entry.2) else entry }

/-- From the call to `cleanswtch()` in `parse()` to the next one. -/
def compile (malloc : Malloc) (swtchif : Int) (switches : List (List Nat)) (state : State) :
    State :=
  genaddr swtchif (created malloc switches state) (body malloc switches state)

/-- The nodes that the inner loop of `cleanswtch()` deletes. It advances `p` in the
place of `bp`: after the first node its condition reads `nr` behind the record. -/
def deleteCases (swt : Swtch) : Option (List Nat) :=
  match swt.cases with
  | none => some []
  | some _ => if swt.nr = 0 then some [] else none

structure Released where
  records : List (Nat × Swtch)
  freed : List Nat
  deleted : List Nat
deriving DecidableEq

def Released.free (addr : Nat) (nodes : List Nat) (later : Released) : Released :=
  { later with freed := addr :: later.freed, deleted := nodes ++ later.deleted }

/-- The outer loop; every turn frees a record, so it has no more turns than there are
records. -/
def walk : Nat → List (Nat × Swtch) → Option Nat → Option Released
  | _, records, none => some { records, freed := [], deleted := [] }
  | 0, _, some _ => none
  | fuel + 1, records, some p =>
    match records.lookup p with
    | none => none
    | some swt =>
      match deleteCases swt with
      | none => none
      | some nodes =>
        (walk fuel (records.eraseP fun entry => entry.1 == p) swt.next).map
          (Released.free p nodes)

def cleanswtch (state : State) : Option Released :=
  walk state.records.length state.records state.list

/-- The call leaves `list` as it was. -/
def Released.after (released : Released) (state : State) : State :=
  { state with records := released.records }

/-- The case nodes that the records at the addresses still keep. -/
def State.nodes (state : State) (addrs : List Nat) : List Nat :=
  addrs.flatMap fun addr => ((state.records.lookup addr).bind Swtch.cases).getD []

/-- The call releases every record of the function and every case node that is left
in one, each once, and no later call finds a record in `list`. -/
structure Clean (state : State) (addrs : List Nat) (released : Released) : Prop where
  returns : cleanswtch state = some released
  freed : released.freed.Perm addrs
  deleted : released.deleted.Perm (state.nodes addrs)
  empty : (released.after state).list = none

/-- The calls to `cleanswtch()` for the functions of a translation unit: `addrs` are
the records of the function before the first of them. -/
def Correct (malloc : Malloc) (swtchif : Int) :
    List (List (List Nat)) → State → List Nat → Prop
  | [], _, _ => True
  | switches :: rest, state, addrs =>
    ∃ released, Clean state addrs released ∧
      Correct malloc swtchif rest (compile malloc swtchif switches (released.after state))
        (created malloc switches (released.after state))

@[simp] theorem genaddr_list (swtchif : Int) (addrs : List Nat) (state : State) :
    (genaddr swtchif addrs state).list = state.list := rfl

@[simp] theorem after_list (released : Released) (state : State) :
    (released.after state).list = state.list := rfl

variable (malloc : Malloc)

theorem body_list_some (switches : List (List Nat)) (state : State)
    (some : state.list ≠ none) : (body malloc switches state).list ≠ none := by
  induction switches generalizing state with
  | nil => exact some
  | cons cases rest inductive_hypothesis =>
    apply inductive_hypothesis
    simp [eswitch, newswtch]

theorem compile_list (swtchif : Int) (switches : List (List Nat))
    (state : State) (empty : state.list = none) :
    (compile malloc swtchif switches state).list = none ↔ switches = [] := by
  cases switches with
  | nil => simp [compile, body, empty]
  | cons cases rest =>
    have kept : (body malloc rest (eswitch malloc cases state)).list ≠ none := by
      apply body_list_some
      simp [eswitch, newswtch]
    simp [compile, body, kept]

theorem Clean.was_empty {state : State} {addrs : List Nat} {released : Released}
    (clean : Clean state addrs released) : state.list = none := clean.empty

theorem cleanswtch_empty (state : State) (empty : state.list = none) :
    cleanswtch state = some { records := state.records, freed := [], deleted := [] } := by
  unfold cleanswtch
  rw [empty]
  cases state.records.length <;> rfl

theorem clean_empty (state : State) (empty : state.list = none) :
    Clean state [] { records := state.records, freed := [], deleted := [] } where
  returns := cleanswtch_empty state empty
  freed := List.Perm.refl _
  deleted := List.Perm.refl _
  empty := empty

@[simp] theorem compile_nil (swtchif : Int) (state : State) :
    compile malloc swtchif [] state = state := by
  simp [compile, body, created, genaddr]

theorem correct_iff_empty (swtchif : Int) (unit : List (List (List Nat)))
    (state : State) (empty : state.list = none) :
    Correct malloc swtchif unit state [] ↔ ∀ switches ∈ unit.dropLast, switches = [] := by
  induction unit generalizing state with
  | nil => simp [Correct]
  | cons switches rest inductive_hypothesis =>
    cases rest with
    | nil =>
      constructor
      · intro _ other member
        cases member
      · intro _
        exact ⟨_, clean_empty state empty, trivial⟩
    | cons second later =>
      rw [List.dropLast_cons_cons]
      constructor
      · rintro ⟨released, _, correct⟩
        -- the call for the second function finds the list empty
        have unchanged : (released.after state).list = none := empty
        have none_made : switches = [] := by
          obtain ⟨_, next, _⟩ := correct
          exact (compile_list malloc swtchif switches _ unchanged).mp next.was_empty
        subst none_made
        rw [compile_nil, created] at correct
        have rest_empty := (inductive_hypothesis _ unchanged).mp correct
        intro other member
        cases List.mem_cons.mp member with
        | inl same => exact same
        | inr inside => exact rest_empty other inside
      · intro none_made
        have first : switches = [] := none_made switches List.mem_cons_self
        subst first
        refine ⟨_, clean_empty state empty, ?_⟩
        rw [compile_nil, created]
        apply (inductive_hypothesis _ empty).mpr
        intro other member
        exact none_made other (List.mem_cons_of_mem _ member)

/-- The calls for a translation unit do what they have to do when no function has a
switch but the last one, for which there is no call. -/
theorem correct_iff_no_switch (malloc : Malloc) (swtchif : Int) (unit : List (List (List Nat))) :
    Correct malloc swtchif unit start [] ↔ ∀ switches ∈ unit.dropLast, switches = [] :=
  correct_iff_empty malloc swtchif unit start rfl

/-- An allocator that returns the address above all those in use. -/
def bump : Malloc where
  addr _ live := live.foldr max 0 + 1
  fresh := by
    intro mallocs live member
    have bound : ∀ addr ∈ live, addr ≤ live.foldr max 0 := by
      intro addr inside
      clear member
      induction live with
      | nil => cases inside
      | cons head tail inductive_hypothesis =>
        simp only [List.foldr_cons]
        cases List.mem_cons.mp inside with
        | inl same => omega
        | inr later =>
          have := inductive_hypothesis later
          omega
    have := bound _ member
    omega

/-- A function with one switch of two cases, and one function more. -/
theorem second_function_finds_released : ¬ Correct bump 2147483647 [[[1, 2]], []] start [] := by
  rw [correct_iff_empty bump _ _ start rfl]
  simp

/-- The records are linked in their order. -/
def Linked : List (Nat × Swtch) → Option Nat → Prop
  | [], list => list = none
  | (addr, swt) :: rest, list => list = some addr ∧ Linked rest swt.next

theorem walk_linked (records : List (Nat × Swtch)) (list : Option Nat)
    (linked : Linked records list) (lowered : ∀ entry ∈ records, entry.2.cases = none) :
    walk records.length records list =
      some { records := [], freed := records.map Prod.fst, deleted := [] } := by
  induction records generalizing list with
  | nil =>
    rw [show list = none from linked]
    rfl
  | cons entry rest inductive_hypothesis =>
    obtain ⟨addr, swt⟩ := entry
    obtain ⟨head, below⟩ := linked
    have without : swt.cases = none := lowered (addr, swt) List.mem_cons_self
    have later := inductive_hypothesis swt.next below
      fun other member => lowered other (List.mem_cons_of_mem _ member)
    rw [head]
    simp [walk, deleteCases, without, later, Released.free]

theorem body_linked (switches : List (List Nat)) (state : State) (linked : Linked state.records state.list) :
    Linked (body malloc switches state).records (body malloc switches state).list := by
  induction switches generalizing state with
  | nil => exact linked
  | cons cases rest inductive_hypothesis =>
    apply inductive_hypothesis
    exact ⟨rfl, linked⟩

theorem body_live (switches : List (List Nat)) (state : State) :
    (body malloc switches state).live = (created malloc switches state).reverse ++ state.live := by
  induction switches generalizing state with
  | nil => rfl
  | cons cases rest inductive_hypothesis =>
    simp only [body, created, inductive_hypothesis, List.reverse_cons, List.append_assoc]
    rfl

theorem body_live_nodup (switches : List (List Nat)) (state : State)
    (distinct : state.live.Nodup) : (body malloc switches state).live.Nodup := by
  induction switches generalizing state with
  | nil => exact distinct
  | cons cases rest inductive_hypothesis =>
    apply inductive_hypothesis
    exact List.nodup_cons.mpr ⟨malloc.fresh _ _, distinct⟩

theorem body_records (switches : List (List Nat)) (state : State)
    (entry : Nat × Swtch) (member : entry ∈ (body malloc switches state).records) :
    entry ∈ state.records ∨ ∃ cases ∈ switches, entry.2.nr = cases.length := by
  induction switches generalizing state with
  | nil => exact Or.inl member
  | cons cases rest inductive_hypothesis =>
    cases inductive_hypothesis _ member with
    | inl inside =>
      cases List.mem_cons.mp inside with
      | inl made =>
        rw [made]
        exact Or.inr ⟨cases, List.mem_cons_self, rfl⟩
      | inr old => exact Or.inl old
    | inr later =>
      obtain ⟨other, within, length⟩ := later
      exact Or.inr ⟨other, List.mem_cons_of_mem _ within, length⟩

theorem linked_genaddr (swtchif : Int) (addrs : List Nat) (state : State)
    (linked : Linked state.records state.list) : Linked (genaddr swtchif addrs state).records state.list := by
  obtain ⟨records, list, mallocs⟩ := state
  simp only [genaddr]
  induction records generalizing list with
  | nil => exact linked
  | cons entry rest inductive_hypothesis =>
    obtain ⟨addr, swt⟩ := entry
    obtain ⟨head, below⟩ := linked
    have later := inductive_hypothesis swt.next below
    by_cases lowered : addr ∈ addrs
    · have next : (swtch swtchif swt).next = swt.next := by
        unfold swtch
        split <;> rfl
      simp only [List.map_cons, lowered, if_true, Linked, next]
      exact ⟨head, later⟩
    · simp only [List.map_cons, lowered, if_false, Linked]
      exact ⟨head, later⟩

theorem first_call_releases (swtchif : Int) (switches : List (List Nat))
    (state : State) (records : state.records = []) (list : state.list = none)
    (chains : ∀ cases ∈ switches, (cases.length : Int) < swtchif) :
    ∃ released, cleanswtch (compile malloc swtchif switches state) = some released ∧
      released.freed = (created malloc switches state).reverse ∧ released.freed.Nodup ∧
      released.deleted = [] ∧ released.records = [] := by
  have live : (body malloc switches state).live = (created malloc switches state).reverse := by
    rw [body_live, State.live, records]
    simp
  have distinct : (body malloc switches state).live.Nodup := by
    apply body_live_nodup
    rw [State.live, records]
    exact List.nodup_nil
  have linked : Linked (compile malloc swtchif switches state).records
      (compile malloc swtchif switches state).list := by
    apply linked_genaddr
    apply body_linked
    rw [records, list]
    rfl
  have lowered : ∀ entry ∈ (compile malloc swtchif switches state).records,
      entry.2.cases = none := by
    intro entry member
    obtain ⟨before, inside, same⟩ := List.mem_map.mp member
    have mine : before.1 ∈ created malloc switches state := by
      rw [← List.mem_reverse, ← live]
      exact List.mem_map_of_mem inside
    rw [if_pos mine] at same
    rw [← same]
    cases body_records malloc switches state before inside with
    | inl old =>
      rw [records] at old
      cases old
    | inr found =>
      obtain ⟨cases, within, length⟩ := found
      have small : (before.2.nr : Int) < swtchif := by
        rw [length]
        exact chains cases within
      simp [swtch, small]
  have addresses : (compile malloc swtchif switches state).records.map Prod.fst =
      (body malloc switches state).live := by
    simp only [compile, genaddr, State.live, List.map_map]
    apply List.map_congr_left
    intro entry _
    simp only [Function.comp]
    split <;> rfl
  refine ⟨_, walk_linked _ _ linked lowered, ?_, ?_, rfl, rfl⟩
  · rw [addresses, live]
  · rw [addresses]
    exact distinct

theorem first_call_releases_two : ∃ released, cleanswtch (compile bump 8 [[1, 2], [3]] start) = some released ∧
    released.freed = (created bump [[1, 2], [3]] start).reverse ∧ released.freed.Nodup ∧ released.deleted = [] ∧
      released.records = [] :=
  first_call_releases bump 8 [[1, 2], [3]] start rfl rfl (by decide)

def Endless (records : List (Nat × Swtch)) : Prop := ∀ entry ∈ records, entry.2.next ≠ none

theorem lookup_mem {records : List (Nat × Swtch)} {addr : Nat} {swt : Swtch}
    (found : records.lookup addr = some swt) : (addr, swt) ∈ records := by
  obtain ⟨before, after, split, _⟩ := List.lookup_eq_some_iff.mp found
  rw [split]
  simp

theorem walk_endless (fuel : Nat) (records : List (Nat × Swtch)) (list : Option Nat)
    (endless : Endless records) (stale : list ≠ none) : walk fuel records list = none := by
  induction fuel generalizing records list with
  | zero =>
    cases list with
    | none => contradiction
    | some p => rfl
  | succ fuel inductive_hypothesis =>
    cases list with
    | none => contradiction
    | some p =>
      simp only [walk]
      split
      · rfl
      · next swt found =>
          split
          · rfl
          · have goes_on : swt.next ≠ none := endless _ (lookup_mem found)
            have left : Endless (records.eraseP fun entry => entry.1 == p) := by
              intro entry member
              exact endless entry (List.mem_of_mem_eraseP member)
            rw [inductive_hypothesis _ _ left goes_on]
            rfl

theorem body_endless (switches : List (List Nat)) (state : State)
    (endless : Endless state.records) (stale : state.list ≠ none) :
    Endless (body malloc switches state).records := by
  induction switches generalizing state with
  | nil => exact endless
  | cons cases rest inductive_hypothesis =>
    apply inductive_hypothesis
    · intro entry member
      cases List.mem_cons.mp member with
      | inl made =>
        rw [made]
        exact stale
      | inr old => exact endless entry old
    · simp [eswitch, newswtch]

theorem later_call_undefined (swtchif : Int) (switches : List (List Nat))
    (state : State) (records : state.records = []) (stale : state.list ≠ none) :
    cleanswtch (compile malloc swtchif switches state) = none := by
  have endless : Endless (body malloc switches state).records := by
    apply body_endless malloc switches state _ stale
    rw [records]
    intro entry member
    cases member
  apply walk_endless
  · intro entry member
    obtain ⟨before, inside, same⟩ := List.mem_map.mp member
    have goes_on := endless before inside
    rw [← same]
    split
    · unfold swtch
      split <;> exact goes_on
    · exact goes_on
  · exact body_list_some malloc switches state stale

theorem later_call_undefined_one : cleanswtch (compile bump 8 [[1]] ⟨[], some 0, 1⟩) = none :=
  later_call_undefined bump 8 [[1]] ⟨[], some 0, 1⟩ rfl (by decide)

/-- The record keeps a node for `cleanswtch()` to delete. -/
def Swtch.Kept (swt : Swtch) : Prop := swt.cases ≠ none ∧ swt.nr ≠ 0

theorem deleteCases_kept (swt : Swtch) (kept : swt.Kept) : deleteCases swt = none := by
  obtain ⟨array, counted⟩ := kept
  unfold deleteCases
  cases found : swt.cases with
  | none => contradiction
  | some cases => simp [counted]

theorem walk_kept (fuel : Nat) (records : List (Nat × Swtch)) (list : Option Nat)
    (linked : Linked records list) (kept : ∃ entry ∈ records, entry.2.Kept) :
    walk fuel records list = none := by
  induction fuel generalizing records list with
  | zero =>
    cases records with
    | nil => simp at kept
    | cons entry rest =>
      rw [linked.1]
      rfl
  | succ fuel inductive_hypothesis =>
    cases records with
    | nil => simp at kept
    | cons entry rest =>
      obtain ⟨addr, swt⟩ := entry
      obtain ⟨head, below⟩ := linked
      rw [head]
      simp only [walk, List.lookup_cons_self]
      by_cases mine : swt.Kept
      · rw [deleteCases_kept swt mine]
      · have later : ∃ entry ∈ rest, entry.2.Kept := by
          obtain ⟨entry, member, keeps⟩ := kept
          cases List.mem_cons.mp member with
          | inl same =>
            rw [same] at keeps
            contradiction
          | inr inside => exact ⟨entry, inside, keeps⟩
        have fails := inductive_hypothesis rest swt.next below later
        split
        · rfl
        · simp [fails]

theorem body_has_record (switches : List (List Nat)) (state : State) :
    (∀ entry ∈ state.records, entry ∈ (body malloc switches state).records) ∧
      ∀ cases ∈ switches, ∃ entry ∈ (body malloc switches state).records,
        entry.2.nr = cases.length ∧ entry.2.cases = (swtchOf cases).cases := by
  induction switches generalizing state with
  | nil => simp [body]
  | cons cases rest inductive_hypothesis =>
    obtain ⟨old, new⟩ := inductive_hypothesis (eswitch malloc cases state)
    constructor
    · intro entry member
      exact old entry (List.mem_cons_of_mem _ member)
    · intro other member
      cases List.mem_cons.mp member with
      | inl same =>
        rw [same]
        exact ⟨_, old _ List.mem_cons_self, rfl, rfl⟩
      | inr inside => exact new other inside

theorem table_call_undefined (swtchif : Int) (switches : List (List Nat))
    (state : State) (linked : Linked state.records state.list)
    (table : ∃ cases ∈ switches, cases ≠ [] ∧ swtchif ≤ cases.length) :
    cleanswtch (compile malloc swtchif switches state) = none := by
  obtain ⟨cases, member, nonempty, large⟩ := table
  obtain ⟨entry, inside, nr, array⟩ := (body_has_record malloc switches state).2 cases member
  have keeps : (swtch swtchif entry.2).Kept ∧ entry.2.Kept := by
    have not_small : ¬ (entry.2.nr : Int) < swtchif := by
      rw [nr]
      omega
    have kept : entry.2.Kept := by
      constructor
      · rw [array]
        simp [swtchOf, nonempty]
      · rw [nr]
        simpa using nonempty
    simp [swtch, not_small, kept]
  apply walk_kept
  · exact linked_genaddr _ _ _ (body_linked malloc switches state linked)
  · refine ⟨_, List.mem_map_of_mem inside, ?_⟩
    split
    · exact keeps.1
    · exact keeps.2

theorem table_call_undefined_two : cleanswtch (compile bump 2 [[1, 2]] start) = none :=
  table_call_undefined bump 2 [[1, 2]] start rfl ⟨[1, 2], by decide, by decide, by decide⟩

end Scc.Cc2.SwitchRecords
