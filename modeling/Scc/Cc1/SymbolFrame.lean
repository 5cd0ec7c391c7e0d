import Scc.Cc1.SymbolScope
import Mathlib.Data.List.Find

/-!
# Lookups around a block

Calls made inside a block leave the symbols of the enclosing contexts alone:
each chain of `htab`, seen from outside, is the same, and labels and macros that
were found are found again. With `popctx()` at the end the chains are the ones
from before the block.
-/

namespace Scc.Cc1.SymbolTable

open Scc.Lib.Run

set_option autoImplicit false

/-- Calls in which every `pushctx()` is matched by a `popctx()`. -/
inductive Nested : List Op → Prop where
  | nil : Nested []
  | call {op : Op} {rest : List Op} (notPush : op ≠ .pushctx) (notPop : op ≠ .popctx)
      (tail : Nested rest) : Nested (op :: rest)
  | block {inner rest : List Op} (body : Nested inner) (tail : Nested rest) :
      Nested (.pushctx :: (inner ++ .popctx :: rest))

def isOuter (state : State) (outer id : Nat) : Bool := (state.store id).ctx ≤ outer

/-- What a context `outer` sees of the table before and after some calls. -/
structure Frame (outer : Nat) (before after : State) : Prop where
  count : before.count ≤ after.count
  names : ∀ id < before.count, (after.store id).name = (before.store id).name
  spaces : ∀ id < before.count, (after.store id).ns = (before.store id).ns
  contexts : ∀ id < before.count, (after.store id).ctx = (before.store id).ctx
  htab : ∀ index, (after.chains (.htab, index)).filter (isOuter after outer) =
    (before.chains (.htab, index)).filter (isOuter before outer)
  found : ∀ ns name id, ns.table ≠ .htab → find before ns name = some id →
    find after ns name = some id

namespace Frame

variable {outer : Nat} {before middle after : State}

theorem refl (state : State) : Frame outer state state where
  count := Nat.le_refl _
  names := fun _ _ => rfl
  spaces := fun _ _ => rfl
  contexts := fun _ _ => rfl
  htab := fun _ => rfl
  found := fun _ _ _ _ known => known

theorem trans (first : Frame outer before middle) (second : Frame outer middle after) :
    Frame outer before after where
  count := Nat.le_trans first.count second.count
  names := by
    intro id old
    rw [second.names id (Nat.lt_of_lt_of_le old first.count), first.names id old]
  spaces := by
    intro id old
    rw [second.spaces id (Nat.lt_of_lt_of_le old first.count), first.spaces id old]
  contexts := by
    intro id old
    rw [second.contexts id (Nat.lt_of_lt_of_le old first.count), first.contexts id old]
  htab := by
    intro index
    rw [second.htab index, first.htab index]
  found := by
    intro ns name id table known
    exact second.found ns name id table (first.found ns name id table known)

end Frame

variable {name : Name} {ns : Namespace} {next state : State} {id : Nat}

theorem is_found_congr {sym changed : Symbol}
    (sameName : changed.name = sym.name) (sameSpace : changed.ns = sym.ns)
    (sameTypedef : ns.isStruct = true → changed.typedefName = sym.typedefName) :
    isFound ns name changed = isFound ns name sym := by
  unfold isFound
  rw [sameName, sameSpace]
  cases struct : ns.isStruct with
  | true => rw [sameTypedef struct]
  | false => simp

theorem struct_table (struct : ns.isStruct = true) : ns.table = .htab := by
  cases ns <;> simp_all [Namespace.isStruct, Namespace.table]

theorem find_congr (chain : next.chains (hash name ns) = state.chains (hash name ns))
    (same : ∀ id ∈ state.chains (hash name ns),
      isFound ns name (next.store id) = isFound ns name (state.store id)) :
    find next ns name = find state ns name := by
  unfold find
  rw [chain]
  exact List.find?_congr same

theorem find_newsym (inv : Invariant state) (created ns : Namespace)
    (createdName : Option Name) (name : Name) :
    find (newsym created createdName state) ns name = find state ns name := by
  refine find_congr rfl ?_
  intro id inChain
  rw [newsym_store (chain_old inv _ id inChain)]

variable {outer : Nat}

theorem frame_of_chains (inv : Invariant state)
    (chains : next.chains = state.chains) (count : state.count ≤ next.count)
    (names : ∀ id < state.count, (next.store id).name = (state.store id).name)
    (spaces : ∀ id < state.count, (next.store id).ns = (state.store id).ns)
    (contexts : ∀ id < state.count, (next.store id).ctx = (state.store id).ctx) : Frame outer state next where
  count := count
  names := names
  spaces := spaces
  contexts := contexts
  htab := by
    intro index
    rw [chains]
    refine List.filter_congr ?_
    intro id inChain
    unfold isOuter
    rw [contexts id (chain_old inv _ id inChain)]
  found := by
    intro ns name id table known
    have chain : next.chains (hash name ns) = state.chains (hash name ns) := by rw [chains]
    rw [find_congr chain]
    · exact known
    · intro other inChain
      have old := chain_old inv _ other inChain
      refine is_found_congr (names other old) (spaces other old) ?_
      intro struct
      exact absurd (struct_table struct) table

theorem newsym_frame (inv : Invariant state) (ns : Namespace)
    (name : Option Name) : Frame outer state (newsym ns name state) := by
  refine frame_of_chains inv rfl (Nat.le_succ _) ?_ ?_ ?_
  · intro id old
    rw [newsym_store old]
  · intro id old
    rw [newsym_store old]
  · intro id old
    rw [newsym_store old]

theorem set_symbol_frame (inv : Invariant state) {sym : Symbol} (name : sym.name = (state.store id).name)
    (ns : sym.ns = (state.store id).ns) (ctx : sym.ctx = (state.store id).ctx) :
    Frame outer state { state with store := setSymbol state.store id sym } := by
  refine frame_of_chains inv rfl (Nat.le_refl _) ?_ ?_ ?_
  · intro other _
    simp only [setSymbol]
    split_ifs with same
    · rw [name, same]
    · rfl
  · intro other _
    simp only [setSymbol]
    split_ifs with same
    · rw [ns, same]
    · rfl
  · intro other _
    simp only [setSymbol]
    split_ifs with same
    · rw [ctx, same]
    · rfl

theorem linkhash_frame (named : (state.store id).name = some name) (inner : outer < (state.store id).ctx)
    (absent : (state.store id).ns.table ≠ .htab → find state (state.store id).ns name = none) :
    Frame outer state (linkhash name id state) where
  count := Nat.le_refl _
  names := fun other _ => by rw [linkhash_store]
  spaces := fun other _ => by rw [linkhash_store]
  contexts := fun other _ => by rw [linkhash_store]
  htab := by
    intro index
    have same : isOuter (linkhash name id state) outer = isOuter state outer := by
      funext other
      unfold isOuter
      rw [linkhash_store]
    rw [same, linkhash_chain]
    split_ifs
    · rw [List.filter_cons_of_neg]
      simpa [isOuter] using inner
    · rfl
  found := by
    intro ns name' other table known
    have reads : ∀ id', isFound ns name' ((linkhash name id state).store id') =
        isFound ns name' (state.store id') := by
      intro id'
      refine is_found_congr (by rw [linkhash_store]) (by rw [linkhash_store]) ?_
      intro struct
      exact absurd (struct_table struct) table
    unfold find
    simp only [reads]
    rw [linkhash_chain]
    split_ifs with here
    · rw [List.find?_cons]
      cases hit : isFound ns name' (state.store id) with
      | false => exact known
      | true =>
        have sameTable : ns.table = (state.store id).ns.table := congrArg Prod.fst here
        have struct : ns.isStruct = false := by
          rw [Bool.eq_false_iff]
          intro struct
          exact table (struct_table struct)
        simp only [isFound, named, struct, Bool.and_false, Bool.or_false, Bool.and_eq_true,
          decide_eq_true_eq, Bool.or_eq_true, Option.some.injEq] at hit
        obtain ⟨rfl, sameSpace | keyword⟩ := hit
        · rw [sameTable] at table
          have none := absent table
          rw [sameSpace, known] at none
          cases none
        · rw [sameTable, keyword] at table
          exact absurd rfl table
    · exact known

theorem install_frame (inv : Invariant state) (inside : outer < state.curctx)
    (allowed : permitted state (.install ns id) = true)
    (done : install ns id state = some next) : Frame outer state next := by
  obtain ⟨-, -, choice⟩ := permitted_install allowed
  obtain ⟨name, named, ⟨here, rfl⟩ | rfl | ⟨-, rfl⟩⟩ := install_cases done
  · have current : (state.store id).ctx = state.curctx := by
      simp only [inPlace, Bool.and_eq_true, decide_eq_true_eq] at here
      exact here.2
    refine linkhash_frame named (by rw [current]; exact inside) ?_
    intro table
    rcases choice with ⟨-, htab⟩ | ⟨same, absent⟩
    · exact absurd htab table
    · rw [← same]
      exact absent name named
  · exact .refl _
  · refine (newsym_frame inv ns (some name)).trans (linkhash_frame ?_ ?_ ?_)
    · simp [newsym]
    · simpa [newsym] using inside
    · intro table
      have created : ((newsym ns (some name) state).store state.count).ns = ns := by
        simp [newsym]
      rw [created] at table ⊢
      rw [find_newsym inv]
      rcases choice with ⟨htab, -⟩ | ⟨-, absent⟩
      · exact absurd htab table
      · exact absent name named

theorem popped_frame (inside : outer + 1 < state.curctx)
    (popped : Popped state next) : Frame outer state next where
  count := by rw [popped.count]
  names := fun id _ => by rw [popped.store]
  spaces := fun id _ => by rw [popped.store]
  contexts := fun id _ => by rw [popped.store]
  htab := by
    intro index
    have same : isOuter next outer = isOuter state outer := by
      funext id
      unfold isOuter
      rw [popped.store]
    rw [same, popped.htab index, List.filter_filter]
    refine List.filter_congr ?_
    intro id _
    cases outside : isOuter state outer id with
    | false => simp
    | true =>
      have survives : id ∉ state.head.takeWhile (isCurrent state) := by
        intro killed
        have current := List.mem_takeWhile_imp killed
        simp only [isCurrent, decide_eq_true_eq] at current
        simp only [isOuter, decide_eq_true_eq] at outside
        omega
      simpa using survives
  found := by
    intro ns name id table known
    have chain : next.chains (hash name ns) = state.chains (hash name ns) := by
      cases ns <;> simp only [Namespace.table, ne_eq, not_true_eq_false] at table
      · have notLast : state.curctx ≠ 1 := by omega
        exact (popped.htablbl _).trans (if_neg notLast)
      · exact popped.htabcpp _
    rw [find_congr chain]
    · exact known
    · intro other _
      rw [popped.store]

theorem step_frame {op : Op} (inv : Invariant state)
    (orderly : Orderly state op) (inside : outer < state.curctx)
    (stays : op = .popctx → outer + 1 < state.curctx) (stepped : step state op = some next) :
    Frame outer state next := by
  unfold step at stepped
  split_ifs at stepped with allowed
  cases op with
  | lookup ns name alloc =>
    cases stepped
    unfold lookup
    split
    · exact .refl _
    · split_ifs
      · exact newsym_frame inv ns (some name)
      · exact .refl _
  | newsym ns name =>
    cases stepped
    exact newsym_frame inv ns name
  | install ns id => exact install_frame inv inside allowed stepped
  | declare id =>
    cases stepped
    exact set_symbol_frame inv rfl rfl rfl
  | undeclare id =>
    cases stepped
    exact set_symbol_frame inv rfl rfl rfl
  | markTypedef id =>
    cases stepped
    exact set_symbol_frame inv rfl rfl rfl
  | pushctx =>
    simp only [perform, pushctx] at stepped
    split_ifs at stepped
    cases stepped
    exact frame_of_chains inv rfl (Nat.le_refl _) (fun _ _ => rfl) (fun _ _ => rfl)
      fun _ _ => rfl
  | popctx =>
    have below := stays rfl
    obtain ⟨popped, done, spec⟩ := popctx_spec inv (by omega) orderly
    have same : popped = next := Option.some.inj (done.symm.trans stepped)
    subst same
    exact popped_frame below spec

theorem step_curctx {op : Op} (notPush : op ≠ .pushctx)
    (notPop : op ≠ .popctx) (stepped : step state op = some next) : next.curctx = state.curctx := by
  unfold step at stepped
  split_ifs at stepped
  cases op with
  | lookup ns name alloc =>
    cases stepped
    unfold lookup
    split
    · rfl
    · split_ifs <;> rfl
  | newsym ns name =>
    cases stepped
    rfl
  | install ns id =>
    obtain ⟨name, -, ⟨-, rfl⟩ | rfl | ⟨-, rfl⟩⟩ := install_cases stepped <;> rfl
  | declare id =>
    cases stepped
    rfl
  | undeclare id =>
    cases stepped
    rfl
  | markTypedef id =>
    cases stepped
    rfl
  | pushctx => exact absurd rfl notPush
  | popctx => exact absurd rfl notPop

theorem step_pushctx (stepped : step state .pushctx = some next) :
    next = { state with curctx := state.curctx + 1 } := by
  simp only [step, permitted, if_true, perform, pushctx] at stepped
  split_ifs at stepped
  exact (Option.some.inj stepped).symm

theorem step_popctx (inv : Invariant state)
    (orderly : Orderly state .popctx) (stepped : step state .popctx = some next) :
    state.curctx ≠ 0 ∧ Popped state next := by
  have done : popctx state = some next := by simpa [step, permitted, perform] using stepped
  have inside : state.curctx ≠ 0 := by
    intro atGlobal
    simp [popctx, atGlobal] at done
  obtain ⟨popped, done', spec⟩ := popctx_spec inv inside orderly
  have same : popped = next := Option.some.inj (done'.symm.trans done)
  subst same
  exact ⟨inside, spec⟩

theorem nested_frame {ops : List Op} (nested : Nested ops) {state final : State}
    (inv : Invariant state) (orderly : Meets step Orderly state ops) (ran : run step state ops = some final) :
    Invariant final ∧ final.curctx = state.curctx ∧ ∀ outer < state.curctx, Frame outer state final := by
  induction nested generalizing state final with
  | nil =>
    cases ran
    exact ⟨inv, rfl, fun _ _ => .refl _⟩
  | call notPush notPop tail ih =>
    obtain ⟨next, stepped, continued⟩ := run_cons_some ran
    have kept := step_curctx notPush notPop stepped
    obtain ⟨finalInv, finalCtx, frames⟩ :=
      ih (step_invariant _ _ _ inv orderly.1 stepped) (orderly.2 next stepped) continued
    refine ⟨finalInv, finalCtx.trans kept, ?_⟩
    intro outer inside
    have first : Frame outer state next :=
      step_frame inv orderly.1 inside (fun pop => absurd pop notPop) stepped
    exact first.trans (frames outer (by omega))
  | @block inner rest body tail ihBody ihTail =>
    obtain ⟨pushed, stepped, continued⟩ := run_cons_some ran
    rw [run_append, Option.bind_eq_some_iff] at continued
    obtain ⟨middle, ranBody, continued⟩ := continued
    obtain ⟨popped, steppedPop, ranTail⟩ := run_cons_some continued
    have orderlyRest := meets_append.mp (orderly.2 pushed stepped)
    have orderlyPop := orderlyRest.2 middle ranBody
    have pushedCtx : pushed.curctx = state.curctx + 1 := by rw [step_pushctx stepped]
    obtain ⟨middleInv, middleCtx, bodyFrames⟩ :=
      ihBody (step_invariant _ _ _ inv orderly.1 stepped) orderlyRest.1 ranBody
    obtain ⟨-, spec⟩ := step_popctx middleInv orderlyPop.1 steppedPop
    have poppedCtx : popped.curctx = state.curctx := by
      rw [spec.curctx, middleCtx, pushedCtx]
      rfl
    obtain ⟨finalInv, finalCtx, tailFrames⟩ :=
      ihTail (popped_invariant middleInv spec) (orderlyPop.2 popped steppedPop) ranTail
    refine ⟨finalInv, finalCtx.trans poppedCtx, ?_⟩
    intro outer inside
    have opening : Frame outer state pushed :=
      step_frame inv orderly.1 inside (fun pop => by cases pop) stepped
    have inner : Frame outer pushed middle := bodyFrames outer (by omega)
    have closing : Frame outer middle popped := popped_frame (by omega) spec
    exact opening.trans (inner.trans (closing.trans (tailFrames outer (by omega))))

theorem block_htab {state pushed middle final : State} (inv : Invariant state)
    (opened : step state .pushctx = some pushed) (middleInv : Invariant middle)
    (middleCtx : middle.curctx = state.curctx + 1)
    (frame : Frame state.curctx pushed middle) (spec : Popped middle final) (index : UInt32) :
    final.chains (.htab, index) = state.chains (.htab, index) := by
  have pushedState := step_pushctx opened
  have surviving : (middle.chains (.htab, index)).filter
      (fun id => id ∉ middle.head.takeWhile (isCurrent middle)) =
        (middle.chains (.htab, index)).filter (isOuter middle state.curctx) := by
    refine List.filter_congr ?_
    intro id inChain
    have live := middleInv.head.chainLive index id inChain
    have bound := middleInv.current id live
    have killed := mem_take_current middleInv.nested middleInv.current id
    rw [Bool.eq_iff_iff, decide_eq_true_eq, killed]
    simp only [isOuter, decide_eq_true_eq, live, true_and]
    omega
  have before : (state.chains (.htab, index)).filter (isOuter state state.curctx) =
      state.chains (.htab, index) := by
    refine List.filter_eq_self.mpr ?_
    intro id inChain
    simpa [isOuter] using inv.current id (inv.head.chainLive index id inChain)
  calc final.chains (.htab, index)
      = (middle.chains (.htab, index)).filter (isOuter middle state.curctx) := by
        rw [spec.htab index, surviving]
    _ = (pushed.chains (.htab, index)).filter (isOuter pushed state.curctx) := frame.htab index
    _ = state.chains (.htab, index) := by
        rw [pushedState]
        exact before

/-- The names that a block may give a new meaning to: labels belong to the
function and macros to the file, and where a member is looked for the typedef
names count too. -/
def TypedefsKept (before after : State) (ns : Namespace) (name : Name) : Prop :=
  ns.isStruct = true → ∀ id ∈ before.chains (hash name ns),
    (after.store id).typedefName = (before.store id).typedefName

/-- In every orderly run `popctx()` finds each declared symbol of the context at
the head of its chain, and after a block every lookup returns the symbol that it
returned before; outside labels and macros it also returns no other symbol. -/
theorem block_structured {ops : List Op} {state : State}
    (orderly : Meets step Orderly start ops) (ran : run step start ops = some state) :
    (state.curctx ≠ 0 → Orderly state .popctx → ∃ next, step state .popctx = some next) ∧
      ∀ inner final, Nested inner → Meets step Orderly state (.pushctx :: (inner ++ [.popctx])) →
        run step state (.pushctx :: (inner ++ [.popctx])) = some final →
        ∀ ns name, TypedefsKept state final ns name →
          (∀ id, find state ns name = some id → find final ns name = some id) ∧
            (ns ≠ .label → ns ≠ .cpp → find final ns name = find state ns name) := by
  have inv := run_table_invariant orderly ran
  constructor
  · intro inside settled
    obtain ⟨next, done, -⟩ := popctx_spec inv inside settled
    exact ⟨next, by simpa [step, permitted, perform] using done⟩
  · intro inner final nested orderlyBlock ranBlock ns name kept
    obtain ⟨pushed, opened, continued⟩ := run_cons_some ranBlock
    rw [run_append, Option.bind_eq_some_iff] at continued
    obtain ⟨middle, ranInner, continued⟩ := continued
    obtain ⟨popped, closed, ended⟩ := run_cons_some continued
    cases ended
    have orderlyRest := meets_append.mp (orderlyBlock.2 pushed opened)
    have pushedState := step_pushctx opened
    obtain ⟨middleInv, middleCtx, frames⟩ :=
      nested_frame nested (step_invariant _ _ _ inv orderlyBlock.1 opened) orderlyRest.1 ranInner
    obtain ⟨-, spec⟩ := step_popctx middleInv (orderlyRest.2 middle ranInner).1 closed
    have pushedCtx : pushed.curctx = state.curctx + 1 := by rw [pushedState]
    have frame : Frame state.curctx pushed middle := frames state.curctx (by omega)
    rw [pushedCtx] at middleCtx
    have fromPushed : ∀ ns' name', find pushed ns' name' = find state ns' name' := by
      intro ns' name'
      rw [pushedState]
      rfl
    by_cases inHtab : ns.table = .htab
    · have chain : final.chains (hash name ns) = state.chains (hash name ns) := by
        have bucket : hash name ns = (.htab, (hash name ns).2) := by
          rw [← inHtab]
          rfl
        rw [bucket]
        exact block_htab inv opened middleInv middleCtx frame spec _
      have same : find final ns name = find state ns name := by
        refine find_congr chain ?_
        intro id inChain
        have old : id < pushed.count := by
          rw [pushedState]
          exact chain_old inv _ id inChain
        refine is_found_congr ?_ ?_ fun struct => kept struct id inChain
        · rw [spec.store, frame.names id old, pushedState]
        · rw [spec.store, frame.spaces id old, pushedState]
      exact ⟨fun id known => by rw [same, known], fun _ _ => same⟩
    · refine ⟨?_, ?_⟩
      · intro id known
        have inMiddle : find middle ns name = some id :=
          frame.found ns name id inHtab ((fromPushed ns name).trans known)
        rw [← inMiddle]
        refine find_congr ?_ fun other _ => by rw [spec.store]
        cases ns <;> simp only [Namespace.table, not_true_eq_false] at inHtab
        · have notLast : middle.curctx ≠ 1 := by
            intro last
            have labels := inv.noLabels (by omega)
            have empty : state.chains (hash name .label) = [] := by
              refine List.eq_nil_iff_forall_not_mem.mpr ?_
              intro other inChain
              have member := inv.labels.chainLive _ other inChain
              rw [labels] at member
              cases member
            simp [find, empty] at known
          exact (spec.htablbl _).trans (if_neg notLast)
        · exact spec.htabcpp _
      · intro notLabel notCpp
        cases ns <;> simp_all [Namespace.table]

/-- `int x;` in a block, up to the declarator. -/
def declareX : List Op := [.pushctx, .lookup .iden ['x'] true, .install .iden 0]

def redeclareX : List Op := [.lookup .iden ['x'] true, .install .iden 0]

theorem redeclared_x_restored : ∃ state final, run step start declareX = some state ∧
      run step state (.pushctx :: (redeclareX ++ [.popctx])) = some final ∧
      (∃ next, step state .popctx = some next) ∧ find final .iden ['x'] = find state .iden ['x'] := by
  have orderly : Meets step Orderly start declareX ∧
      ∀ state, run step start declareX = some state →
        Meets step Orderly state (.pushctx :: (redeclareX ++ [.popctx])) := by
    rw [← meets_append]
    decide
  have completes : (run step start
      (declareX ++ .pushctx :: (redeclareX ++ [.popctx]))).isSome = true := by decide
  obtain ⟨final, ran⟩ := Option.isSome_iff_exists.mp completes
  rw [run_append, Option.bind_eq_some_iff] at ran
  obtain ⟨state, ranOuter, ranInner⟩ := ran
  have settled : (run step start declareX).all
      (fun state => state.curctx ≠ 0 ∧ Orderly state .popctx) = true := by decide
  rw [ranOuter, Option.all_some, decide_eq_true_eq] at settled
  have structured := block_structured orderly.1 ranOuter
  have nested : Nested redeclareX :=
    .call (by decide) (by decide) (.call (by decide) (by decide) .nil)
  have restored := structured.2 redeclareX final nested (orderly.2 state ranOuter) ranInner
    .iden ['x'] (fun struct => by cases struct)
  exact ⟨state, final, ranOuter, ranInner, structured.1 settled.1 settled.2,
    restored.2 (by decide) (by decide)⟩

/-- `{ enum { a = sizeof(enum { bc }) }; }` with two names of one chain. The
symbol of the outer constant is created before and installed after the inner
one. -/
def enumInInitializer : List Op :=
  [.pushctx, .newsym .tag none, .lookup .iden ['a'] true, .newsym .tag none,
    .lookup .iden ['b', 'c'] true, .install .iden 3, .install .iden 1]

theorem enum_constants_out_of_order : ¬ ∀ (ops : List Op) (state : State), run step start ops = some state →
      state.curctx ≠ 0 → ∃ next, step state .popctx = some next := by
  intro all
  have crashes : (run step start enumInInitializer).map
      (fun state => (state.curctx, (step state .popctx).isSome)) = some (1, false) := by
    decide
  obtain ⟨state, ran, result⟩ := Option.map_eq_some_iff.mp crashes
  have inside : state.curctx = 1 := congrArg Prod.fst result
  have failed : (step state .popctx).isSome = false := congrArg Prod.snd result
  obtain ⟨next, stepped⟩ := all _ state ran (by omega)
  rw [stepped] at failed
  cases failed

end Scc.Cc1.SymbolTable
