import Scc.Cc1.TypeTable

/-!
# Interning is canonical

In orderly runs two calls of `mktype()` give one object exactly when they describe
equal types, for as long as the object of the first one is in the table, and the
end of a function body restores the table that its beginning found.
-/

namespace Scc.Cc1.Types

open Scc.Lib Scc.Lib.Run

set_option autoImplicit false

/-- The object is what `mktype()` can give: it is in the table or it is the
pointer to `void`. -/
def Interned (arch : Arch) (state : State) (id : Nat) : Prop :=
  id = arch.pvoidtype ∨ ∃ bucket, id ∈ state.typetab bucket

/-- Two calls, the second one after a run that left the first result interned,
have one result exactly when the types are equal. -/
def Canonical (arch : Arch) (addr : Nat → Nat) (state : State) : Prop :=
  ∀ (call call' : Call) (between : List Event) (made before after : State) (result result' : Nat)
    (type type' : TypeRec),
    call.live state = true → call.type arch = some type →
    call.perform arch addr state = some (result, made) →
    run (step arch addr) made between = some before → Interned arch before result →
    call'.live before = true → call'.type arch = some type' →
    call'.perform arch addr before = some (result', after) →
    Meets (step arch addr) (Orderly arch addr) state
      (.mktype call :: between ++ [.mktype call']) →
    (result = result' ↔ eqdescribed arch before type type' = true)

/-- A function body ends with the table of its beginning, and a call finds each
type of it. -/
def Restored (arch : Arch) (addr : Nat → Nat) (state : State) : Prop :=
  ∀ (body : List Event) (after : State), Event.flush ∉ body →
    Meets (step arch addr) (Orderly arch addr) state (.enter :: body ++ [.flush]) →
    run (step arch addr) state (.enter :: body ++ [.flush]) = some after →
    after.typetab = state.typetab ∧
      ∀ bucket, ∀ id ∈ after.typetab bucket,
        ∃ call, Describes arch after call id ∧ call.perform arch addr after = some (id, after)

variable {arch : Arch} {addr : Nat → Nat} {state next : State}

theorem sig_object {heap : Nat → TypeRec} {count : Nat} (ordered : Ordered heap count)
    {id object : Nat} (live : id < count) (same : sig heap id = .object object) : id = object := by
  rw [sig_eq ordered live] at same
  rcases sig_rec_kind (sig heap) id (heap id) with kind | this
  · rw [same] at kind
    cases kind
  · rw [this] at same
    exact Sig.object.inj same

theorem sig_void (inv : Invariant arch addr state) :
    sig state.heap arch.voidtype = .object arch.voidtype := by
  rw [sig_eq inv.ordered inv.void.1]
  unfold sigRec
  rw [inv.void.2]

theorem sig_pvoid (inv : Invariant arch addr state) :
    sig state.heap arch.pvoidtype = .pointer (.object arch.voidtype) := by
  rw [sig_eq inv.ordered inv.pvoid.1]
  unfold sigRec
  rw [inv.pvoid.2.1, inv.pvoid.2.2, sig_void inv]

variable {call : Call} {type : TypeRec} {bucket id result : Nat} {base : State}

theorem described_ptr (described : call.type arch = some type) (ptr : type.op = .PTR) : call.op = .PTR := by
  unfold Call.type describe at described
  split at described
  · split_ifs at described
    cases described
    cases ptr
  · cases described
    cases ptr
  · cases described
    cases ptr
  · assumption
  · cases described

theorem described_pvoid (inv : Invariant arch addr state)
    (live : call.live state = true) (described : call.type arch = some type)
    (same : sigRec (sig state.heap) 0 type = .pointer (.object arch.voidtype)) :
    call.op = .PTR ∧ call.tp = arch.voidtype := by
  obtain ⟨_, base, _⟩ := describe_shape described
  have ptr : type.op = .PTR := by
    rcases sig_rec_kind (sig state.heap) 0 type with kind | object
    · rw [same] at kind
      exact (Option.some.inj kind).symm
    · rw [same] at object
      cases object
  refine ⟨described_ptr described ptr, ?_⟩
  unfold sigRec at same
  rw [ptr] at same
  have baseLive : type.type < state.count := by
    apply described_parts described live
    unfold TypeRec.parts
    rw [ptr]
    exact List.mem_cons_self
  rw [← base]
  exact sig_object inv.ordered baseLive (Sig.pointer.inj same)

theorem pvoid_not_listed (inv : Invariant arch addr state) (member : id ∈ state.typetab bucket) :
    sig state.heap id ≠ .pointer (.object arch.voidtype) := by
  intro same
  obtain ⟨call, live, notVoid, type, described, shape⟩ := inv.described bucket id member
  rw [sig_eq inv.ordered (inv.live bucket id member), shape.sig, described_sig _ described id 0] at same
  exact notVoid (described_pvoid inv live described same)

theorem perform_spec (inv : Invariant arch addr state) (live : call.live state = true)
    (described : call.type arch = some type)
    (performed : call.perform arch addr state = some (result, next)) :
    Invariant arch addr next ∧ Keeps state next ∧ result < next.count ∧
      sig next.heap result = sigRec (sig state.heap) 0 type := by
  unfold Call.perform mktype at performed
  split_ifs at performed with void
  · cases performed
    refine ⟨inv, .refl state, inv.pvoid.1, ?_⟩
    have base := (describe_shape described).2.1
    have ptr : type.op = .PTR := by
      unfold Call.type describe at described
      rw [void.1] at described
      cases described
      rfl
    rw [sig_pvoid inv]
    unfold sigRec
    rw [ptr, base, void.2, sig_void inv]
  · unfold Call.type at described
    rw [described, Option.map_some] at performed
    have spec := intern_spec inv live void described
    rw [Option.some.inj performed] at spec
    obtain ⟨nextInv, keeps, member, same⟩ := spec
    exact ⟨nextInv, keeps, nextInv.live _ _ member, same⟩

theorem perform_found (inv : Invariant arch addr state) (live : call.live state = true)
    (described : call.type arch = some type) (interned : Interned arch state id)
    (selected : ∀ bucket, id ∈ state.typetab bucket → bucket = HASH addr type)
    (same : sig state.heap id = sigRec (sig state.heap) 0 type)
    (performed : call.perform arch addr state = some (result, next)) : result = id ∧ next = state := by
  unfold Call.perform mktype at performed
  split_ifs at performed with void
  · cases performed
    rcases interned with pvoid | ⟨bucket, member⟩
    · exact ⟨pvoid.symm, rfl⟩
    · have same' : call.perform arch addr state = some (arch.pvoidtype, state) := by
        simp [Call.perform, mktype, void]
      have spec := perform_spec inv live described same'
      rw [← same, sig_pvoid inv] at spec
      exact absurd spec.2.2.2.symm (pvoid_not_listed inv member)
  · rcases interned with rfl | ⟨bucket, member⟩
    · rw [sig_pvoid inv] at same
      exact absurd (described_pvoid inv live described same.symm) void
    · have here := selected bucket member
      subst here
      have found := intern_found inv live described member same
      unfold Call.type at described
      rw [described, Option.map_some, found] at performed
      cases performed
      exact ⟨rfl, rfl⟩

theorem eqdescribed_types {call call' : Call} {type type' : TypeRec}
    (ordered : Ordered state.heap state.count) (live : call.live state = true)
    (live' : call'.live state = true) (described : call.type arch = some type)
    (described' : call'.type arch = some type') : eqdescribed arch state type type' = true ↔
      sigRec (sig state.heap) 0 type = sigRec (sig state.heap) 0 type' := by
  rw [described_sig _ described' 0 1]
  apply eqrec_iff arch state.heap Nat.zero_ne_one
  intro p1 in1 p2 in2
  have live1 := described_parts described live p1 in1
  have live2 := described_parts described' live' p2 in2
  exact eqtype_iff ordered live1 live2 live1 live2

theorem orderly_selects (inv : Invariant arch addr state) (live : call.live state = true)
    (described : call.type arch = some type) (orderly : Orderly arch addr state (.mktype call))
    (same : sig state.heap id = sigRec (sig state.heap) 0 type) :
    ∀ bucket, id ∈ state.typetab bucket → bucket = HASH addr type := by
  intro bucket member
  apply orderly type described bucket _ id member
  · apply (eqdescribed_iff inv.ordered described live (inv.live bucket id member)).mpr
    rw [same]
    exact described_sig _ described 0 id
  · rw [← inv.placed bucket id member]
    exact HASH_lt addr _

theorem canonical_of_invariant (inv : Invariant arch addr state) : Canonical arch addr state := by
  intro call call' between made before after result result' type type' live described performed
    ran interned live' described' performed' orderly
  obtain ⟨madeInv, keepsMade, madeLive, madeSig⟩ := perform_spec inv live described performed
  rw [List.cons_append, Meets] at orderly
  have stepped : step arch addr state (.mktype call) = some made := by
    simp [step, live, performed]
  obtain ⟨orderlyBetween, orderlyLast⟩ := meets_append.mp (orderly.2 made stepped)
  obtain ⟨beforeInv, keepsBefore⟩ := run_spec madeInv orderlyBetween ran
  have orderly' := (orderlyLast before ran).1
  have resultSig : sig before.heap result = sigRec (sig before.heap) 0 type := by
    rw [keepsBefore.sig madeInv.ordered madeLive, madeSig]
    apply sig_rec_congr
    intro child member
    have childLive := described_parts described live child member
    exact ((keepsMade.trans keepsBefore).sig inv.ordered childLive).symm
  have liveBefore := (keepsMade.trans keepsBefore).callLive live
  rw [eqdescribed_types beforeInv.ordered liveBefore live' described described', ← resultSig]
  obtain ⟨afterInv, keepsAfter, afterLive, afterSig⟩ :=
    perform_spec beforeInv live' described' performed'
  have resultLive : result < before.count := Nat.lt_of_lt_of_le madeLive keepsBefore.count
  constructor
  · rintro rfl
    rw [← afterSig, keepsAfter.sig beforeInv.ordered resultLive]
  · intro same
    have selected := orderly_selects beforeInv live' described' orderly' same
    exact (perform_found beforeInv live' described' interned selected same performed').1.symm

/-- In a function body the table is that of its beginning under the types of the
body. -/
structure Inside (base state : State) : Prop where
  inside : state.curfun = true
  under : ∀ bucket, ∃ young, state.typetab bucket = young ++ base.typetab bucket ∧
    ∀ id ∈ young, id ∈ state.localtypes
  locals : ∀ id ∈ state.localtypes, base.count ≤ id
  count : base.count ≤ state.count

theorem inside_addtype (inside : Inside base state) (tp : TypeRec) : Inside base (addtype tp state) := by
  have locals : (addtype tp state).localtypes = state.count :: state.localtypes := by
    simp [addtype, inside.inside]
  refine ⟨inside.inside, ?_, ?_, Nat.le_succ_of_le inside.count⟩
  · intro bucket
    obtain ⟨young, chain, isLocal⟩ := inside.under bucket
    refine ⟨young, chain, ?_⟩
    intro id member
    rw [locals]
    exact List.mem_cons_of_mem _ (isLocal id member)
  · intro id member
    rw [locals] at member
    rcases List.mem_cons.mp member with rfl | old
    · exact inside.count
    · exact inside.locals id old

theorem inside_linktype (inside : Inside base state) (tp : TypeRec) :
    Inside base (linktype addr tp state) := by
  have added := inside_addtype inside tp
  refine ⟨added.inside, ?_, added.locals, added.count⟩
  intro bucket
  by_cases here : bucket = HASH addr tp
  · subst here
    obtain ⟨young, chain, isLocal⟩ := inside.under (HASH addr tp)
    refine ⟨state.count :: young, by simp [linktype, chain], ?_⟩
    intro id member
    have locals : (linktype addr tp state).localtypes = state.count :: state.localtypes := by
      simp [linktype, addtype, inside.inside]
    rw [locals]
    rcases List.mem_cons.mp member with rfl | old
    · exact List.mem_cons_self
    · exact List.mem_cons_of_mem _ (isLocal id old)
  · obtain ⟨young, chain, isLocal⟩ := added.under bucket
    refine ⟨young, ?_, isLocal⟩
    rw [← chain]
    simp [linktype, addtype, Chain.set_other here]

theorem inside_intern (arch : Arch) (addr : Nat → Nat) (inside : Inside base state) (type : TypeRec) :
    Inside base (intern arch addr type state).2 := by
  cases found : search arch state type (state.typetab (HASH addr type)) with
  | some id =>
    have result : intern arch addr type state = (id, state) := by
      simp [intern, found]
    rw [result]
    exact inside
  | none =>
    obtain ⟨tp, shape, allocated⟩ := newtype_eq arch type state
    have result : intern arch addr type state =
        (state.count, linktype addr tp state) := by
      simp [intern, found, linktype, allocated, shape.hash]
    rw [result]
    exact inside_linktype inside tp

theorem inside_mktag (inside : Inside base state) {op : Op} {tag : Tag}
    (made : mktag arch op tag state = some next) : Inside base next := by
  obtain ⟨tp, _, _, _, _, rfl⟩ := mktag_eq made
  exact inside_addtype inside tp

theorem inside_step (inside : Inside base state) {event : Event}
    (notFlush : event ≠ .flush) (stepped : step arch addr state event = some next) : Inside base next := by
  cases event with
  | mktype call =>
    simp only [step] at stepped
    split_ifs at stepped with live
    obtain ⟨⟨id, result⟩, performed, rfl⟩ := Option.map_eq_some_iff.mp stepped
    unfold Call.perform mktype at performed
    split_ifs at performed with void
    · cases performed
      exact inside
    · obtain ⟨type, described, made⟩ := Option.map_eq_some_iff.mp performed
      have interned := inside_intern arch addr inside type
      rw [made] at interned
      exact interned
  | tag op name => exact inside_mktag inside stepped
  | members id fields =>
    simp only [step] at stepped
    split_ifs at stepped
    cases stepped
    exact ⟨inside.inside, inside.under, inside.locals, inside.count⟩
  | anonymous op fields =>
    simp only [step] at stepped
    split_ifs at stepped
    obtain ⟨made, allocated, rfl⟩ := Option.map_eq_some_iff.mp stepped
    have tagged := inside_mktag inside allocated
    exact ⟨tagged.inside, tagged.under, tagged.locals, tagged.count⟩
  | complete id nelem =>
    simp only [step] at stepped
    split_ifs at stepped
    cases stepped
    exact ⟨inside.inside, inside.under, inside.locals, inside.count⟩
  | enter =>
    simp [step, inside.inside] at stepped
  | flush => exact absurd rfl notFlush

theorem inside_run (inside : Inside base state) {body : List Event}
    (noFlush : Event.flush ∉ body) (done : run (step arch addr) state body = some next) :
    Inside base next := by
  induction body generalizing state with
  | nil => exact Option.some.inj done ▸ inside
  | cons event rest ih =>
    obtain ⟨middle, stepped, continued⟩ := run_cons_some done
    have notFlush : event ≠ .flush := by
      rintro rfl
      exact noFlush List.mem_cons_self
    exact ih (inside_step inside notFlush stepped)
      (fun member => noFlush (List.mem_cons_of_mem event member)) continued

theorem inside_flushed (inside : Inside base state)
    (live : ∀ bucket, ∀ id ∈ base.typetab bucket, id < base.count) (bucket : Nat) :
    ((state.typetab bucket).filter fun id => id ∉ state.localtypes) = base.typetab bucket := by
  obtain ⟨young, chain, isLocal⟩ := inside.under bucket
  rw [chain, List.filter_append]
  have noYoung : (young.filter fun id => id ∉ state.localtypes) = [] := by
    apply List.filter_eq_nil_iff.mpr
    intro id member
    simpa using isLocal id member
  have allOld : ((base.typetab bucket).filter fun id => id ∉ state.localtypes) =
      base.typetab bucket := by
    apply List.filter_eq_self.mpr
    intro id member
    have old := live bucket id member
    have notLocal : id ∉ state.localtypes := by
      intro isLocal
      have young := inside.locals id isLocal
      omega
    simpa using notLocal
  rw [noYoung, allOld, List.nil_append]

theorem listed_found (inv : Invariant arch addr state) (member : id ∈ state.typetab bucket) :
    ∃ call, Describes arch state call id ∧ call.perform arch addr state = some (id, state) := by
  obtain ⟨call, live, notVoid, type, described, shape⟩ := inv.described bucket id member
  refine ⟨call, ⟨live, notVoid, type, described, shape⟩, ?_⟩
  have selected : HASH addr type = bucket := by
    rw [← shape.hash]
    exact inv.placed bucket id member
  have same : sig state.heap id = sigRec (sig state.heap) 0 type := by
    rw [sig_eq inv.ordered (inv.live bucket id member), shape.sig, described_sig _ described id 0]
  rw [← selected] at member
  have found := intern_found inv live described member same
  unfold Call.type at described
  unfold Call.perform mktype
  rw [if_neg notVoid, described, Option.map_some, found]

theorem restored_of_invariant (inv : Invariant arch addr state) : Restored arch addr state := by
  intro body after noFlush orderly done
  have afterInv := (run_spec inv orderly done).1
  refine ⟨?_, fun bucket id member => listed_found afterInv member⟩
  rw [List.cons_append, run_cons] at done
  obtain ⟨entered, stepped, continued⟩ := Option.bind_eq_some_iff.mp done
  have orderlyEnter : Orderly arch addr state .enter := trivial
  have enteredInv := (step_spec inv orderlyEnter stepped).1
  simp only [step] at stepped
  split_ifs at stepped with outside
  cases stepped
  have noLocals : state.localtypes = [] := inv.noLocals (by simpa using outside)
  have started : Inside state { state with curfun := true } := by
    refine ⟨rfl, fun bucket => ⟨[], rfl, fun _ member => by cases member⟩, ?_, Nat.le_refl _⟩
    intro id member
    change id ∈ state.localtypes at member
    rw [noLocals] at member
    cases member
  rw [run_append] at continued
  obtain ⟨before, ran, flushed⟩ := Option.bind_eq_some_iff.mp continued
  have inside := inside_run started noFlush ran
  rw [List.cons_append, Meets] at orderly
  have entering : step arch addr state .enter = some { state with curfun := true } := by
    simp [step, outside]
  have bodyOrderly := (meets_append.mp (orderly.2 _ entering)).1
  have beforeInv := (run_spec enteredInv bodyOrderly ran).1
  obtain ⟨result, done, _, _, _, chains⟩ := flush_spec beforeInv inside.inside
  rw [run_cons, done] at flushed
  cases flushed
  funext bucket
  rw [chains bucket]
  exact inside_flushed inside inv.live bucket

/-- In every state that an orderly run reaches, interning is canonical, the end of
a function body succeeds and restores the table. -/
theorem mktype_canonical (arch : Arch) (addr : Nat → Nat) (events : List Event) (state : State)
    (orderly : Meets (step arch addr) (Orderly arch addr) (start arch) events)
    (reached : run (step arch addr) (start arch) events = some state) : Canonical arch addr state ∧
      (state.curfun = true → (step arch addr state .flush).isSome = true) ∧ Restored arch addr state := by
  have inv := (run_spec (start_invariant arch addr) orderly reached).1
  refine ⟨canonical_of_invariant inv, ?_, restored_of_invariant inv⟩
  intro inside
  obtain ⟨flushed, done, _⟩ := flush_spec inv inside
  rw [done]
  rfl

def session : List Event := [
  .mktype ⟨inttype, .PTR, 0, []⟩, .tag .STRUCT (some ['s']),
  .members 24 [⟨some ['x'], inttype, 0⟩, ⟨some ['p'], 23, 0⟩], .enter, .mktype ⟨24, .ARY, 3, []⟩,
  .mktype ⟨inttype, .PTR, 0, []⟩]

theorem mktype_canonical_session :
    ∃ state, run (step amd64_sysv staticAddr) (start amd64_sysv) session = some state ∧
      Canonical amd64_sysv staticAddr state ∧ (step amd64_sysv staticAddr state .flush).isSome = true ∧
          Restored amd64_sysv staticAddr state := by
  have curfun : (run (step amd64_sysv staticAddr) (start amd64_sysv) session).map State.curfun =
      some true := by decide
  obtain ⟨state, reached, inside⟩ := Option.map_eq_some_iff.mp curfun
  have canonical := mktype_canonical amd64_sysv staticAddr session state (by decide) reached
  exact ⟨state, reached, canonical.1, canonical.2.1 inside, canonical.2.2⟩

def longPointer : Call := ⟨longtype, .PTR, 0, []⟩

def llongPointer : Call := ⟨llongtype, .PTR, 0, []⟩

/-- `long *` and `long long *` are equal, and `mktype()` gives two objects. -/
theorem long_pointers_differ : ∃ made after type type',
      longPointer.perform amd64_sysv staticAddr (start amd64_sysv) = some (23, made) ∧
        llongPointer.perform amd64_sysv staticAddr made = some (24, after) ∧
          longPointer.type amd64_sysv = some type ∧ llongPointer.type amd64_sysv = some type' ∧
            eqdescribed amd64_sysv made type type' = true :=
  ⟨_, _, _, _, rfl, rfl, rfl, rfl, by decide⟩

end Scc.Cc1.Types
