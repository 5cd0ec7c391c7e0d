import Scc.Cc1.SymbolTable
import Mathlib.Data.List.TakeWhile

/-!
# Block structure of the symbol table

`Threaded` says that the chains of one table run in the order in which the
symbols of its list were created. Installing keeps it when no younger symbol is
in the chain already, and then `popctx()` finds every symbol at the head of its
chain and leaves the chains as they were before the block.
-/

namespace Scc.Cc1.SymbolTable

open Scc.Lib.Run

set_option autoImplicit false

/-- The symbol is in the chain of its name. -/
def Linked (state : State) (id : Nat) : Prop :=
  ∃ name, (state.store id).name = some name ∧
    id ∈ state.chains (hash name (state.store id).ns)

/-- The chains of a table against the list of its live symbols. -/
structure Threaded (state : State) (table : Table) (live : List Nat) : Prop where
  decreasing : live.Pairwise (· > ·)
  ofTable : ∀ id ∈ live, (state.store id).ns.table = table
  chainDecreasing : ∀ index, (state.chains (table, index)).Pairwise (· > ·)
  chainLive : ∀ index, ∀ id ∈ state.chains (table, index), id ∈ live
  hashed : ∀ index, ∀ id ∈ state.chains (table, index),
    ∃ name, (state.store id).name = some name ∧
      hash name (state.store id).ns = (table, index)
  linked : ∀ id ∈ live, (state.store id).declared = true → Linked state id

structure Invariant (state : State) : Prop where
  head : Threaded state .htab state.head
  labels : Threaded state .htablbl state.labels
  headOld : ∀ id ∈ state.head, id < state.count
  labelsOld : ∀ id ∈ state.labels, id < state.count
  macrosOld : ∀ index, ∀ id ∈ state.chains (.htabcpp, index), id < state.count
  nested : state.head.Pairwise fun newer older =>
    (state.store older).ctx ≤ (state.store newer).ctx
  current : ∀ id ∈ state.head, (state.store id).ctx ≤ state.curctx
  noLabels : state.curctx = 0 → state.labels = []

/-- What the block structure asks of the calls: a symbol installed in place is
younger than all symbols of its chain, a symbol declared directly is installed,
and when a context ends all its installed symbols are declared. -/
def Orderly (state : State) : Op → Prop
  | .install _ id =>
    inPlace state id = true → (state.store id).ns ≠ .cpp →
      ∀ name ∈ (state.store id).name,
        ∀ other ∈ state.chains (hash name (state.store id).ns), other < id
  | .declare id => Linked state id
  | .popctx =>
    (∀ id ∈ state.head, (state.store id).ctx = state.curctx → Linked state id →
      (state.store id).declared = true) ∧
    (state.curctx = 1 → ∀ id ∈ state.labels, Linked state id →
      (state.store id).declared = true)
  | _ => True

instance (state : State) (id : Nat) : Decidable (Linked state id) :=
  match named : (state.store id).name with
  | none => isFalse (by simp [Linked, named])
  | some name =>
    decidable_of_iff (id ∈ state.chains (hash name (state.store id).ns))
      (by simp [Linked, named])

instance (state : State) : (op : Op) → Decidable (Orderly state op)
  | .install _ _ => inferInstanceAs (Decidable (_ → _ → ∀ _ ∈ _, ∀ _ ∈ _, _ < _))
  | .declare id => inferInstanceAs (Decidable (Linked state id))
  | .popctx => inferInstanceAs (Decidable ((∀ _ ∈ _, _ = _ → Linked _ _ → _ = true) ∧
      (_ = 1 → ∀ _ ∈ _, Linked _ _ → _ = true)))
  | .lookup .. => isTrue trivial
  | .newsym .. => isTrue trivial
  | .undeclare _ => isTrue trivial
  | .markTypedef _ => isTrue trivial
  | .pushctx => isTrue trivial

@[simp] theorem set_symbol_same (store : Nat → Symbol) (id : Nat) (sym : Symbol) :
    setSymbol store id sym id = sym := by
  simp [setSymbol]

theorem set_symbol_other {store : Nat → Symbol} {id other : Nat} {sym : Symbol}
    (different : other ≠ id) : setSymbol store id sym other = store other := by
  simp [setSymbol, different]

@[simp] theorem set_chain_same (chains : Bucket → List Nat) (bucket : Bucket)
    (chain : List Nat) : setChain chains bucket chain bucket = chain := by
  simp [setChain]

theorem set_chain_other {chains : Bucket → List Nat} {bucket other : Bucket}
    {chain : List Nat} (different : other ≠ bucket) : setChain chains bucket chain other = chains other := by
  simp [setChain, different]

theorem linkhash_store (name : Name) (id : Nat) (state : State) (other : Nat) :
    (linkhash name id state).store other = { state.store other with
      declared := ((linkhash name id state).store other).declared } := by
  by_cases same : other = id
  · subst same
    simp [linkhash, setDeclared]
  · simp [linkhash, setDeclared, set_symbol_other same]

theorem linkhash_chain (name : Name) (id : Nat) (state : State) (bucket : Bucket) :
    (linkhash name id state).chains bucket =
      if bucket = hash name (state.store id).ns then id :: state.chains bucket else state.chains bucket := by
  simp only [linkhash, setDeclared, setChain]
  split_ifs with same
  · rw [same]
  · rfl

theorem hash_table (name : Name) (ns : Namespace) : (hash name ns).1 = ns.table := rfl

variable {id : Nat} {ns : Namespace}

theorem head_of_decreasing {chain : List Nat} (decreasing : chain.Pairwise (· > ·))
    (member : id ∈ chain) (largest : ∀ other ∈ chain, other ≤ id) : chain.head? = some id := by
  cases chain with
  | nil => cases member
  | cons top below =>
    have topBound : top ≤ id := largest top List.mem_cons_self
    rcases List.mem_cons.mp member with same | later
    · rw [same]
      rfl
    · have below : top > id := (List.pairwise_cons.mp decreasing).1 id later
      omega

namespace Threaded

variable {state next : State} {table : Table} {live : List Nat}

variable {id : Nat} {name : Name}

theorem index_of_linked (threaded : Threaded state table live)
    (named : (state.store id).name = some name) {index : UInt32}
    (inChain : id ∈ state.chains (table, index)) : hash name (state.store id).ns = (table, index) := by
  obtain ⟨name', named', hashed⟩ := threaded.hashed index id inChain
  rw [named] at named'
  cases named'
  exact hashed

theorem congr (threaded : Threaded state table live)
    (chains : ∀ index, next.chains (table, index) = state.chains (table, index))
    (names : ∀ id ∈ live, (next.store id).name = (state.store id).name)
    (spaces : ∀ id ∈ live, (next.store id).ns = (state.store id).ns)
    (declared : ∀ id ∈ live, (next.store id).declared = true →
      (state.store id).declared = true ∨ Linked state id) : Threaded next table live where
  decreasing := threaded.decreasing
  ofTable := by
    intro id member
    rw [spaces id member]
    exact threaded.ofTable id member
  chainDecreasing := by
    intro index
    rw [chains index]
    exact threaded.chainDecreasing index
  chainLive := by
    intro index id inChain
    rw [chains index] at inChain
    exact threaded.chainLive index id inChain
  hashed := by
    intro index id inChain
    rw [chains index] at inChain
    have member := threaded.chainLive index id inChain
    rw [names id member, spaces id member]
    exact threaded.hashed index id inChain
  linked := by
    intro id member isDeclared
    have before : Linked state id := by
      rcases declared id member isDeclared with known | linked
      · exact threaded.linked id member known
      · exact linked
    obtain ⟨name, named, inChain⟩ := before
    refine ⟨name, ?_, ?_⟩
    · rw [names id member, named]
    · rw [spaces id member]
      have bucket : hash name (state.store id).ns =
          (table, (hash name (state.store id).ns).2) := by
        rw [← threaded.ofTable id member]
        rfl
      rw [bucket] at inChain ⊢
      rw [chains]
      exact inChain

theorem push (threaded : Threaded state table live)
    (younger : ∀ other ∈ live, other < id) (ofTable : (state.store id).ns.table = table)
    (undeclared : (state.store id).declared = false) : Threaded state table (id :: live) where
  decreasing := List.pairwise_cons.mpr ⟨younger, threaded.decreasing⟩
  ofTable := by
    intro other member
    rcases List.mem_cons.mp member with rfl | older
    · exact ofTable
    · exact threaded.ofTable other older
  chainDecreasing := threaded.chainDecreasing
  chainLive := by
    intro index other inChain
    exact List.mem_cons_of_mem id (threaded.chainLive index other inChain)
  hashed := threaded.hashed
  linked := by
    intro other member isDeclared
    rcases List.mem_cons.mp member with rfl | older
    · rw [undeclared] at isDeclared
      cases isDeclared
    · exact threaded.linked other older isDeclared

theorem bucket_eq (threaded : Threaded state table live) (member : id ∈ live)
    (name : Name) : hash name (state.store id).ns = (table, (hash name (state.store id).ns).2) := by
  rw [← threaded.ofTable id member]
  rfl

theorem link (threaded : Threaded state table live)
    (member : id ∈ live) (named : (state.store id).name = some name)
    (younger : ∀ other ∈ state.chains (hash name (state.store id).ns), other < id) :
    Threaded (linkhash name id state) table live := by
  have bucket := threaded.bucket_eq member name
  have names : ∀ other, ((linkhash name id state).store other).name =
      (state.store other).name := fun other => by rw [linkhash_store]
  have spaces : ∀ other, ((linkhash name id state).store other).ns =
      (state.store other).ns := fun other => by rw [linkhash_store]
  refine ⟨threaded.decreasing, ?_, ?_, ?_, ?_, ?_⟩
  · intro other inLive
    rw [spaces other]
    exact threaded.ofTable other inLive
  · intro index
    rw [linkhash_chain]
    split_ifs with same
    · rw [← same] at younger
      exact List.pairwise_cons.mpr ⟨younger, threaded.chainDecreasing index⟩
    · exact threaded.chainDecreasing index
  · intro index other inChain
    rw [linkhash_chain] at inChain
    split_ifs at inChain with same
    · rcases List.mem_cons.mp inChain with rfl | older
      · exact member
      · exact threaded.chainLive index other older
    · exact threaded.chainLive index other inChain
  · intro index other inChain
    rw [names other, spaces other]
    rw [linkhash_chain] at inChain
    split_ifs at inChain with same
    · rcases List.mem_cons.mp inChain with rfl | older
      · exact ⟨name, named, same.symm⟩
      · exact threaded.hashed index other older
    · exact threaded.hashed index other inChain
  · intro other inLive isDeclared
    by_cases same : other = id
    · subst same
      refine ⟨name, (names other).trans named, ?_⟩
      rw [spaces other, bucket, linkhash_chain, if_pos bucket.symm]
      exact List.mem_cons_self
    · have before : (state.store other).declared = true := by
        simpa [linkhash, setDeclared, set_symbol_other same] using isDeclared
      obtain ⟨name', named', inChain⟩ := threaded.linked other inLive before
      refine ⟨name', (names other).trans named', ?_⟩
      rw [spaces other]
      rw [threaded.bucket_eq inLive name'] at inChain ⊢
      rw [linkhash_chain]
      split_ifs
      · exact List.mem_cons_of_mem id inChain
      · exact inChain

theorem link_other (threaded : Threaded state table live) (outside : (state.store id).ns.table ≠ table) :
    Threaded (linkhash name id state) table live := by
  refine threaded.congr ?_ ?_ ?_ ?_
  · intro index
    rw [linkhash_chain, if_neg]
    intro same
    exact outside (congrArg Prod.fst same).symm
  · intro other _
    rw [linkhash_store]
  · intro other _
    rw [linkhash_store]
  · intro other member isDeclared
    have different : other ≠ id := by
      rintro rfl
      exact outside (threaded.ofTable other member)
    left
    simpa [linkhash, setDeclared, set_symbol_other different] using isDeclared

theorem unlink (threaded : Threaded state table (id :: live)) (notMacro : table ≠ .htabcpp)
    (settled : Linked state id → (state.store id).declared = true) :
    ∃ next, unlinkhash id state = some next ∧ next = { state with chains := next.chains } ∧
      (∀ bucket, bucket.1 ≠ table → next.chains bucket = state.chains bucket) ∧
      (∀ index, next.chains (table, index) =
        (state.chains (table, index)).filter fun other => other ≠ id) := by
  have self : id ∈ id :: live := List.mem_cons_self
  have oldest : ∀ other ∈ id :: live, other ≤ id := by
    intro other member
    rcases List.mem_cons.mp member with rfl | older
    · exact Nat.le_refl other
    · exact Nat.le_of_lt ((List.pairwise_cons.mp threaded.decreasing).1 other older)
  have absent : ∀ index, id ∉ state.chains (table, index) →
      state.chains (table, index) =
        (state.chains (table, index)).filter fun other => other ≠ id := by
    intro index notIn
    refine (List.filter_eq_self.mpr ?_).symm
    intro other inChain
    have different : other ≠ id := by
      rintro rfl
      exact notIn inChain
    simpa using different
  by_cases declared : (state.store id).declared = true
  · obtain ⟨name, named, inChain⟩ := threaded.linked id self declared
    have bucket := threaded.bucket_eq self name
    have noCpp : (state.store id).ns ≠ .cpp := by
      intro cpp
      apply notMacro
      rw [← threaded.ofTable id self, cpp]
      rfl
    rw [bucket] at inChain
    have atHead := head_of_decreasing (threaded.chainDecreasing _) inChain
      fun other member => oldest other (threaded.chainLive _ other member)
    let chain := state.chains (hash name (state.store id).ns)
    refine ⟨{ state with
        chains := setChain state.chains (hash name (state.store id).ns) (chain.erase id) }, ?_, rfl, ?_, ?_⟩
    · rw [← bucket] at atHead
      simp [unlinkhash, declared, named, atHead, chain]
    · intro other outside
      apply set_chain_other
      rintro rfl
      exact outside (congrArg Prod.fst bucket)
    · intro index
      by_cases same : (table, index) = hash name (state.store id).ns
      · have nodup : (state.chains (table, index)).Nodup :=
          (threaded.chainDecreasing index).imp fun {a b} less => Nat.ne_of_gt less
        have here : chain = state.chains (table, index) := by rw [same]
        simp only [← same, set_chain_same]
        rw [here, nodup.erase_eq_filter id]
        congr 1
        funext other
        by_cases equal : other = id <;> simp [equal]
      · simp only [set_chain_other same]
        apply absent
        intro inOther
        exact same (threaded.index_of_linked named inOther).symm
  · refine ⟨state, by simp [unlinkhash, declared], rfl, fun _ _ => rfl, ?_⟩
    intro index
    apply absent
    intro inChain
    obtain ⟨name, named, hashed⟩ := threaded.hashed index id inChain
    apply declared
    apply settled
    refine ⟨name, named, ?_⟩
    rw [hashed]
    exact inChain

theorem linked_of_subset (same : next = { state with chains := next.chains })
    (fewer : ∀ bucket, next.chains bucket ⊆ state.chains bucket) (linked : Linked next id) :
    Linked state id := by
  have store : next.store = state.store := by rw [same]
  obtain ⟨name, named, inChain⟩ := linked
  rw [store] at named inChain
  exact ⟨name, named, fewer _ inChain⟩

theorem drop (threaded : Threaded state table (id :: live))
    (same : next = { state with chains := next.chains })
    (chain : ∀ index, next.chains (table, index) =
      (state.chains (table, index)).filter fun other => other ≠ id) :
    Threaded next table live := by
  have store : next.store = state.store := by rw [same]
  have decreasing := List.pairwise_cons.mp threaded.decreasing
  refine ⟨decreasing.2, ?_, ?_, ?_, ?_, ?_⟩
  · intro other member
    rw [store]
    exact threaded.ofTable other (List.mem_cons_of_mem id member)
  · intro index
    rw [chain index]
    exact (threaded.chainDecreasing index).filter _
  · intro index other inChain
    rw [chain index, List.mem_filter] at inChain
    rcases List.mem_cons.mp (threaded.chainLive index other inChain.1) with rfl | member
    · simp at inChain
    · exact member
  · intro index other inChain
    rw [chain index, List.mem_filter] at inChain
    rw [store]
    exact threaded.hashed index other inChain.1
  · intro other member declared
    have inLive : other ∈ id :: live := List.mem_cons_of_mem id member
    rw [store] at declared
    obtain ⟨name, named, inChain⟩ := threaded.linked other inLive declared
    refine ⟨name, by rw [store]; exact named, ?_⟩
    rw [store]
    rw [threaded.bucket_eq inLive name] at inChain ⊢
    rw [chain, List.mem_filter]
    have older : other < id := decreasing.1 other member
    exact ⟨inChain, by simpa using Nat.ne_of_lt older⟩

theorem killsyms {killed : List Nat} (threaded : Threaded state table (killed ++ live))
    (notMacro : table ≠ .htabcpp)
    (settled : ∀ id ∈ killed, Linked state id → (state.store id).declared = true) :
    ∃ next, killsyms killed state = some next ∧ next = { state with chains := next.chains } ∧
      (∀ bucket, bucket.1 ≠ table → next.chains bucket = state.chains bucket) ∧
      (∀ index, next.chains (table, index) =
        (state.chains (table, index)).filter fun other => other ∉ killed) ∧
      Threaded next table live := by
  induction killed generalizing state with
  | nil =>
    refine ⟨state, rfl, rfl, fun _ _ => rfl, ?_, threaded⟩
    intro index
    simp
  | cons id rest ih =>
    obtain ⟨middle, unlinked, same, outside, chain⟩ :=
      threaded.unlink notMacro (settled id List.mem_cons_self)
    have store : middle.store = state.store := by rw [same]
    have fewer : ∀ bucket, middle.chains bucket ⊆ state.chains bucket := by
      rintro ⟨other, index⟩
      by_cases here : other = table
      · subst here
        rw [chain index]
        exact List.filter_subset_self _
      · rw [outside _ here]
        exact fun _ member => member
    have later : ∀ other ∈ rest, Linked middle other →
        (middle.store other).declared = true := by
      intro other member linked
      rw [store]
      exact settled other (List.mem_cons_of_mem id member) (linked_of_subset same fewer linked)
    obtain ⟨next, killed, same', outside', chain', threaded'⟩ :=
      ih (drop threaded same chain) later
    refine ⟨next, ?_, ?_, ?_, ?_, threaded'⟩
    · simp [SymbolTable.killsyms, unlinked, killed]
    · rw [same', same]
    · intro bucket here
      rw [outside' bucket here, outside bucket here]
    · intro index
      rw [chain' index, chain index, List.filter_filter]
      congr 1
      funext other
      simp [Bool.and_comm]

end Threaded

/-- What `popctx()` leaves: the symbols of the context are out of the chains and,
at the end of a function, the labels too. -/
structure Popped (state next : State) : Prop where
  store : next.store = state.store
  count : next.count = state.count
  curctx : next.curctx = state.curctx - 1
  head : next.head = state.head.dropWhile (isCurrent state)
  labels : next.labels = if state.curctx = 1 then [] else state.labels
  htab : ∀ index, next.chains (.htab, index) = (state.chains (.htab, index)).filter
    fun id => id ∉ state.head.takeWhile (isCurrent state)
  htabcpp : ∀ index, next.chains (.htabcpp, index) = state.chains (.htabcpp, index)
  htablbl : ∀ index, next.chains (.htablbl, index) =
    if state.curctx = 1 then [] else state.chains (.htablbl, index)
  threadedHead : Threaded next .htab next.head
  threadedLabels : Threaded next .htablbl next.labels

variable {state next : State} {live : List Nat}

theorem popctx_spec (inv : Invariant state) (inside : state.curctx ≠ 0) (orderly : Orderly state .popctx) :
    ∃ next, popctx state = some next ∧ Popped state next := by
  have split : state.head.takeWhile (isCurrent state) ++ state.head.dropWhile (isCurrent state) =
      state.head := List.takeWhile_append_dropWhile
  have threaded : Threaded state .htab (state.head.takeWhile (isCurrent state) ++
      state.head.dropWhile (isCurrent state)) := by
    rw [split]
    exact inv.head
  have settled : ∀ id ∈ state.head.takeWhile (isCurrent state), Linked state id →
      (state.store id).declared = true := by
    intro id member linked
    have current : (state.store id).ctx = state.curctx := by
      simpa [isCurrent] using List.mem_takeWhile_imp member
    exact orderly.1 id (List.takeWhile_subset _ member) current linked
  obtain ⟨popped, killed, same, outside, chain, threadedHead⟩ :=
    threaded.killsyms (by decide) settled
  have store : popped.store = state.store := by rw [same]
  let outer : State := { popped with
    head := state.head.dropWhile (isCurrent state)
    curctx := state.curctx - 1 }
  have outerHead : Threaded outer .htab outer.head :=
    threadedHead.congr (fun _ => rfl) (fun _ _ => rfl) (fun _ _ => rfl) fun _ _ => Or.inl
  have outerLabels : Threaded outer .htablbl outer.labels := by
    have labels : outer.labels = state.labels := by
      change popped.labels = state.labels
      rw [same]
    rw [labels]
    refine inv.labels.congr (fun index => outside (.htablbl, index) (by simp)) ?_ ?_ ?_
    · intro id _
      change (popped.store id).name = _
      rw [store]
    · intro id _
      change (popped.store id).ns = _
      rw [store]
    · intro id _ declared
      change (popped.store id).declared = true at declared
      rw [store] at declared
      exact Or.inl declared
  by_cases last : state.curctx = 1
  · have settledLabels : ∀ id ∈ outer.labels, Linked outer id →
        (outer.store id).declared = true := by
      intro id member linked
      change (popped.store id).declared = true
      change id ∈ popped.labels at member
      have before : Linked state id := by
        obtain ⟨name, named, inChain⟩ := linked
        change (popped.store id).name = some name at named
        change id ∈ popped.chains (hash name (popped.store id).ns) at inChain
        rw [store] at named inChain
        have isLabel : (state.store id).ns.table = .htablbl := by
          rw [← store]
          exact outerLabels.ofTable id member
        rw [outside _ (by rw [hash_table, isLabel]; decide)] at inChain
        exact ⟨name, named, inChain⟩
      rw [same] at member
      rw [store]
      exact orderly.2 last id member before
    have emptied : Threaded outer .htablbl (outer.labels ++ []) := by simpa using outerLabels
    obtain ⟨final, killedLabels, sameLabels, outsideLabels, chainLabels, threadedLabels⟩ :=
      emptied.killsyms (by decide) settledLabels
    have finalStore : final.store = outer.store := by rw [sameLabels]
    refine ⟨{ final with labels := [] }, ?_, ?_, ?_, ?_, ?_, ?_, ?_, ?_, ?_, ?_, ?_⟩
    · have atGlobal : outer.curctx = 0 := by
        change state.curctx - 1 = 0
        omega
      rw [popctx, if_neg inside, killed]
      change (if outer.curctx = 0 then (SymbolTable.killsyms outer.labels outer).map _
        else some outer) = _
      rw [if_pos atGlobal, killedLabels]
      rfl
    · change final.store = state.store
      rw [finalStore]
      exact store
    · change final.count = state.count
      rw [sameLabels]
      change popped.count = state.count
      rw [same]
    · change final.curctx = state.curctx - 1
      rw [sameLabels]
    · change final.head = _
      rw [sameLabels]
    · rw [if_pos last]
    · intro index
      rw [← chain index]
      exact outsideLabels (.htab, index) (by simp)
    · intro index
      change final.chains (.htabcpp, index) = _
      rw [outsideLabels (.htabcpp, index) (by simp)]
      exact outside (.htabcpp, index) (by simp)
    · intro index
      rw [if_pos last]
      change final.chains (.htablbl, index) = []
      rw [chainLabels index, List.filter_eq_nil_iff]
      intro id inChain
      simpa using outerLabels.chainLive index id inChain
    · have head : final.head = outer.head := by rw [sameLabels]
      change Threaded { final with labels := [] } .htab final.head
      rw [head]
      refine outerHead.congr (fun index => outsideLabels (.htab, index) (by simp)) ?_ ?_ ?_
      · intro id _
        change (final.store id).name = _
        rw [finalStore]
      · intro id _
        change (final.store id).ns = _
        rw [finalStore]
      · intro id _ declared
        change (final.store id).declared = true at declared
        rw [finalStore] at declared
        exact Or.inl declared
    · exact threadedLabels.congr (fun _ => rfl) (fun _ _ => rfl) (fun _ _ => rfl)
        fun _ _ => Or.inl
  · refine ⟨outer, ?_, store, ?_, rfl, rfl, ?_, chain, ?_, ?_, outerHead, outerLabels⟩
    · have stillInside : state.curctx - 1 ≠ 0 := by omega
      simp [popctx, inside, killed, stillInside, outer]
    · change popped.count = state.count
      rw [same]
    · rw [if_neg last]
      change popped.labels = state.labels
      rw [same]
    · intro index
      exact outside (.htabcpp, index) (by simp)
    · intro index
      rw [if_neg last]
      exact outside (.htablbl, index) (by simp)

theorem mem_take_current (nested : live.Pairwise fun newer older =>
      (state.store older).ctx ≤ (state.store newer).ctx)
    (current : ∀ id ∈ live, (state.store id).ctx ≤ state.curctx) (id : Nat) :
    id ∈ live.takeWhile (isCurrent state) ↔ id ∈ live ∧ (state.store id).ctx = state.curctx := by
  induction live with
  | nil => simp
  | cons top rest ih =>
    have inRest := ih (List.pairwise_cons.mp nested).2
      fun other member => current other (List.mem_cons_of_mem top member)
    by_cases here : (state.store top).ctx = state.curctx
    · rw [List.takeWhile_cons_of_pos (by simpa [isCurrent] using here)]
      rw [List.mem_cons, inRest, List.mem_cons]
      constructor
      · rintro (rfl | ⟨member, same⟩)
        · exact ⟨Or.inl rfl, here⟩
        · exact ⟨Or.inr member, same⟩
      · rintro ⟨rfl | member, same⟩
        · exact Or.inl rfl
        · exact Or.inr ⟨member, same⟩
    · rw [List.takeWhile_cons_of_neg (by simpa [isCurrent] using here)]
      have topBound := current top List.mem_cons_self
      constructor
      · intro member
        cases member
      · rintro ⟨member, same⟩
        rcases List.mem_cons.mp member with rfl | older
        · exact absurd same here
        · have bound := (List.pairwise_cons.mp nested).1 id older
          omega

theorem drop_current (nested : live.Pairwise fun newer older =>
      (state.store older).ctx ≤ (state.store newer).ctx)
    (current : ∀ id ∈ live, (state.store id).ctx ≤ state.curctx)
    (member : id ∈ live.dropWhile (isCurrent state)) : (state.store id).ctx < state.curctx := by
  induction live with
  | nil => cases member
  | cons top rest ih =>
    by_cases here : (state.store top).ctx = state.curctx
    · rw [List.dropWhile_cons_of_pos (by simpa [isCurrent] using here)] at member
      exact ih (List.pairwise_cons.mp nested).2
        (fun other inRest => current other (List.mem_cons_of_mem top inRest)) member
    · rw [List.dropWhile_cons_of_neg (by simpa [isCurrent] using here)] at member
      have topBound := current top List.mem_cons_self
      rcases List.mem_cons.mp member with rfl | older
      · omega
      · have bound := (List.pairwise_cons.mp nested).1 id older
        omega

theorem popped_invariant (inv : Invariant state) (popped : Popped state next) : Invariant next where
  head := popped.threadedHead
  labels := popped.threadedLabels
  headOld := by
    intro id member
    rw [popped.head] at member
    rw [popped.count]
    exact inv.headOld id (List.dropWhile_subset _ member)
  labelsOld := by
    intro id member
    rw [popped.labels] at member
    rw [popped.count]
    split_ifs at member
    · cases member
    · exact inv.labelsOld id member
  macrosOld := by
    intro index id member
    rw [popped.htabcpp index] at member
    rw [popped.count]
    exact inv.macrosOld index id member
  nested := by
    rw [popped.head, popped.store]
    exact inv.nested.sublist (List.dropWhile_sublist _)
  current := by
    intro id member
    rw [popped.head] at member
    have bound := drop_current inv.nested inv.current member
    rw [popped.store, popped.curctx]
    omega
  noLabels := by
    intro atGlobal
    rw [popped.curctx] at atGlobal
    rw [popped.labels]
    split_ifs with last
    · rfl
    · exact inv.noLabels (by omega)

theorem newsym_store {name : Option Name}
    (old : id < state.count) : (newsym ns name state).store id = state.store id := by
  simp [newsym, set_symbol_other (Nat.ne_of_lt old)]

theorem newsym_threaded {table : Table} (ns : Namespace)
    (name : Option Name) (threaded : Threaded state table live)
    (old : ∀ id ∈ live, id < state.count) : Threaded (newsym ns name state) table live := by
  refine threaded.congr (fun _ => rfl) ?_ ?_ ?_
  · intro id member
    rw [newsym_store (old id member)]
  · intro id member
    rw [newsym_store (old id member)]
  · intro id member declared
    rw [newsym_store (old id member)] at declared
    exact Or.inl declared

theorem newsym_pushed {table : Table} (ns : Namespace)
    (name : Option Name) (threaded : Threaded state table live) (old : ∀ id ∈ live, id < state.count) :
    Threaded (newsym ns name state) table (if ns.table = table then state.count :: live else live) := by
  have kept := newsym_threaded ns name threaded old
  split_ifs with here
  · refine kept.push old ?_ ?_
    · simpa [newsym] using here
    · simp [newsym]
  · exact kept

theorem newsym_invariant (inv : Invariant state) (ns : Namespace)
    (name : Option Name) (inside : ns = .label → state.curctx ≠ 0) : Invariant (newsym ns name state) where
  head := newsym_pushed ns name inv.head inv.headOld
  labels := newsym_pushed ns name inv.labels inv.labelsOld
  headOld := by
    intro id member
    change id < state.count + 1
    simp only [newsym] at member
    split_ifs at member with here
    · rcases List.mem_cons.mp member with rfl | older
      · omega
      · exact Nat.lt_succ_of_lt (inv.headOld id older)
    · exact Nat.lt_succ_of_lt (inv.headOld id member)
  labelsOld := by
    intro id member
    change id < state.count + 1
    simp only [newsym] at member
    split_ifs at member with here
    · rcases List.mem_cons.mp member with rfl | older
      · omega
      · exact Nat.lt_succ_of_lt (inv.labelsOld id older)
    · exact Nat.lt_succ_of_lt (inv.labelsOld id member)
  macrosOld := by
    intro index id member
    exact Nat.lt_succ_of_lt (inv.macrosOld index id member)
  nested := by
    have kept : state.head.Pairwise fun newer older =>
        ((newsym ns name state).store older).ctx ≤ ((newsym ns name state).store newer).ctx := by
      refine inv.nested.imp_of_mem ?_
      intro newer older newerMember olderMember bound
      rw [newsym_store (inv.headOld newer newerMember), newsym_store (inv.headOld older olderMember)]
      exact bound
    have created : ((newsym ns name state).store state.count).ctx = state.curctx := by
      simp [newsym]
    change List.Pairwise _ (if ns.table = .htab then state.count :: state.head else state.head)
    split_ifs
    · refine List.pairwise_cons.mpr ⟨?_, kept⟩
      intro id member
      rw [created, newsym_store (inv.headOld id member)]
      exact inv.current id member
    · exact kept
  current := by
    have kept : ∀ id ∈ state.head, ((newsym ns name state).store id).ctx ≤ state.curctx := by
      intro id member
      rw [newsym_store (inv.headOld id member)]
      exact inv.current id member
    intro id member
    change id ∈ (if ns.table = .htab then state.count :: state.head else state.head) at member
    change _ ≤ state.curctx
    split_ifs at member
    · rcases List.mem_cons.mp member with rfl | older
      · simp [newsym]
      · exact kept id older
    · exact kept id member
  noLabels := by
    intro atGlobal
    change state.curctx = 0 at atGlobal
    have notLabel : ns ≠ .label := fun label => inside label atGlobal
    have outside : ns.table ≠ .htablbl := by
      cases ns <;> simp_all [Namespace.table]
    simp [newsym, outside, inv.noLabels atGlobal]

theorem Invariant.of_threaded (inv : Invariant state)
    (count : next.count = state.count) (head : next.head = state.head)
    (labels : next.labels = state.labels) (curctx : next.curctx = state.curctx)
    (contexts : ∀ id, (next.store id).ctx = (state.store id).ctx)
    (macros : ∀ index, ∀ id ∈ next.chains (.htabcpp, index), id < state.count)
    (threadedHead : Threaded next .htab state.head)
    (threadedLabels : Threaded next .htablbl state.labels) : Invariant next where
  head := by
    rw [head]
    exact threadedHead
  labels := by
    rw [labels]
    exact threadedLabels
  headOld := by
    rw [head, count]
    exact inv.headOld
  labelsOld := by
    rw [labels, count]
    exact inv.labelsOld
  macrosOld := by
    rw [count]
    exact macros
  nested := by
    rw [head]
    simp only [contexts]
    exact inv.nested
  current := by
    rw [head, curctx]
    simp only [contexts]
    exact inv.current
  noLabels := by
    rw [curctx, labels]
    exact inv.noLabels

theorem set_symbol_invariant (inv : Invariant state) {sym : Symbol}
    (name : sym.name = (state.store id).name) (ns : sym.ns = (state.store id).ns)
    (ctx : sym.ctx = (state.store id).ctx)
    (declared : sym.declared = true → (state.store id).declared = true ∨ Linked state id) :
    Invariant { state with store := setSymbol state.store id sym } := by
  have names : ∀ other, (setSymbol state.store id sym other).name =
      (state.store other).name := by
    intro other
    unfold setSymbol
    split_ifs with same
    · rw [same, name]
    · rfl
  have spaces : ∀ other, (setSymbol state.store id sym other).ns = (state.store other).ns := by
    intro other
    unfold setSymbol
    split_ifs with same
    · rw [same, ns]
    · rfl
  have contexts : ∀ other, (setSymbol state.store id sym other).ctx =
      (state.store other).ctx := by
    intro other
    unfold setSymbol
    split_ifs with same
    · rw [same, ctx]
    · rfl
  have flags : ∀ other, (setSymbol state.store id sym other).declared = true →
      (state.store other).declared = true ∨ Linked state other := by
    intro other
    unfold setSymbol
    split_ifs with same
    · rw [same]
      exact declared
    · exact Or.inl
  have threaded : ∀ table live, Threaded state table live →
      Threaded { state with store := setSymbol state.store id sym } table live := by
    intro table live before
    exact before.congr (fun _ => rfl) (fun other _ => names other)
      (fun other _ => spaces other) fun other _ => flags other
  exact inv.of_threaded rfl rfl rfl rfl contexts inv.macrosOld (threaded _ _ inv.head)
    (threaded _ _ inv.labels)

theorem alive_cases (isAlive : alive state id = true) :
    id ∈ state.head ∨ id ∈ state.labels ∨ (id < state.count ∧ (state.store id).ns = .cpp) := by
  simpa [alive, or_assoc] using isAlive

theorem linkhash_invariant (inv : Invariant state) {name : Name}
    (isAlive : alive state id = true) (named : (state.store id).name = some name)
    (younger : (state.store id).ns ≠ .cpp →
      ∀ other ∈ state.chains (hash name (state.store id).ns), other < id) :
    Invariant (linkhash name id state) := by
  have contexts : ∀ other, ((linkhash name id state).store other).ctx =
      (state.store other).ctx := fun other => by rw [linkhash_store]
  have elsewhere : ∀ table, (state.store id).ns.table ≠ table → ∀ index,
      (linkhash name id state).chains (table, index) = state.chains (table, index) := by
    intro table outside index
    rw [linkhash_chain, if_neg]
    intro same
    exact outside (congrArg Prod.fst same).symm
  rcases alive_cases isAlive with inHead | inLabels | ⟨old, cpp⟩
  · have table := inv.head.ofTable id inHead
    have notCpp : (state.store id).ns ≠ .cpp := by
      intro cpp
      rw [cpp] at table
      cases table
    refine inv.of_threaded rfl rfl rfl rfl contexts ?_
      (inv.head.link inHead named (younger notCpp))
      (inv.labels.link_other (by rw [table]; decide))
    intro index
    rw [elsewhere _ (by rw [table]; decide)]
    exact inv.macrosOld index
  · have table := inv.labels.ofTable id inLabels
    have notCpp : (state.store id).ns ≠ .cpp := by
      intro cpp
      rw [cpp] at table
      cases table
    refine inv.of_threaded rfl rfl rfl rfl contexts ?_
      (inv.head.link_other (by rw [table]; decide))
      (inv.labels.link inLabels named (younger notCpp))
    intro index
    rw [elsewhere _ (by rw [table]; decide)]
    exact inv.macrosOld index
  · have table : (state.store id).ns.table = .htabcpp := by
      rw [cpp]
      rfl
    refine inv.of_threaded rfl rfl rfl rfl contexts ?_
      (inv.head.link_other (by rw [table]; decide))
      (inv.labels.link_other (by rw [table]; decide))
    intro index other inChain
    rw [linkhash_chain] at inChain
    split_ifs at inChain
    · rcases List.mem_cons.mp inChain with rfl | older
      · exact old
      · exact inv.macrosOld index other older
    · exact inv.macrosOld index other inChain

theorem newsym_alive {name : Option Name} : alive (newsym ns name state) state.count = true := by
  cases ns <;> simp [alive, newsym, Namespace.table]

theorem chain_old (inv : Invariant state) (bucket : Bucket) :
    ∀ id ∈ state.chains bucket, id < state.count := by
  intro id inChain
  obtain ⟨table, index⟩ := bucket
  cases table with
  | htab => exact inv.headOld id (inv.head.chainLive index id inChain)
  | htablbl => exact inv.labelsOld id (inv.labels.chainLive index id inChain)
  | htabcpp => exact inv.macrosOld index id inChain

theorem install_cases (done : install ns id state = some next) : ∃ name, (state.store id).name = some name ∧
      ((inPlace state id = true ∧ next = linkhash name id state) ∨ next = state ∨ (inPlace state id = false ∧
          next = linkhash name state.count (newsym ns (some name) state))) := by
  simp only [install, Option.bind_eq_some_iff] at done
  obtain ⟨name, named, done⟩ := done
  refine ⟨name, named, ?_⟩
  split_ifs at done with here known
  · exact Or.inl ⟨here, (Option.some.inj done).symm⟩
  · exact Or.inr (Or.inl (Option.some.inj done).symm)
  · exact Or.inr (Or.inr ⟨by simpa using here, (Option.some.inj done).symm⟩)

theorem permitted_install (allowed : permitted state (.install ns id) = true) :
    alive state id = true ∧ (ns = .label → state.curctx ≠ 0) ∧
      ((ns.table = .htab ∧ (state.store id).ns.table = .htab) ∨ (ns = (state.store id).ns ∧
          ∀ name, (state.store id).name = some name → find state ns name = none)) := by
  simp only [permitted, Bool.and_eq_true, Bool.or_eq_true, decide_eq_true_eq,
    Option.all_eq_true, Option.isNone_iff_eq_none] at allowed
  obtain ⟨isAlive, choice⟩ := allowed
  refine ⟨isAlive, ?_, ?_⟩
  · rintro rfl
    rcases choice with ⟨noTable, -⟩ | ⟨⟨-, inside⟩, -⟩
    · cases noTable
    · simpa using inside
  · rcases choice with tables | ⟨⟨same, -⟩, absent⟩
    · exact Or.inl tables
    · exact Or.inr ⟨same, absent⟩

theorem install_invariant (inv : Invariant state) (allowed : permitted state (.install ns id) = true)
    (orderly : Orderly state (.install ns id)) (done : install ns id state = some next) : Invariant next := by
  obtain ⟨isAlive, inside, -⟩ := permitted_install allowed
  obtain ⟨name, named, ⟨here, rfl⟩ | rfl | ⟨-, rfl⟩⟩ := install_cases done
  · exact linkhash_invariant inv isAlive named fun notCpp => orderly here notCpp name named
  · exact inv
  · refine linkhash_invariant (newsym_invariant inv ns (some name) inside) newsym_alive ?_ ?_
    · simp [newsym]
    · intro _ other inChain
      exact chain_old inv _ other inChain

theorem lookup_invariant (inv : Invariant state) {name : Name}
    {alloc : Bool} (allowed : permitted state (.lookup ns name alloc) = true) :
    Invariant (lookup ns name alloc state) := by
  unfold lookup
  split
  · exact inv
  · split_ifs with creates
    · refine newsym_invariant inv ns (some name) ?_
      rintro rfl
      simpa [permitted, creates] using allowed
    · exact inv

theorem pushctx_invariant (inv : Invariant state) (done : pushctx state = some next) : Invariant next := by
  unfold pushctx at done
  split_ifs at done
  cases done
  have threaded : ∀ table live, Threaded state table live →
      Threaded { state with curctx := state.curctx + 1 } table live := by
    intro table live before
    exact before.congr (fun _ => rfl) (fun _ _ => rfl) (fun _ _ => rfl) fun _ _ => Or.inl
  refine ⟨threaded _ _ inv.head, threaded _ _ inv.labels, inv.headOld, inv.labelsOld,
    inv.macrosOld, inv.nested, ?_, ?_⟩
  · intro id member
    exact Nat.le_succ_of_le (inv.current id member)
  · intro atGlobal
    cases atGlobal

theorem step_invariant (state : State) (op : Op) (next : State) (inv : Invariant state)
    (orderly : Orderly state op) (stepped : step state op = some next) : Invariant next := by
  unfold step at stepped
  split_ifs at stepped with allowed
  cases op with
  | lookup ns name alloc =>
    cases stepped
    exact lookup_invariant inv allowed
  | newsym ns name =>
    cases stepped
    refine newsym_invariant inv ns name ?_
    rintro rfl
    simpa [permitted] using allowed
  | install ns id => exact install_invariant inv allowed orderly stepped
  | declare id =>
    cases stepped
    exact set_symbol_invariant inv rfl rfl rfl fun _ => Or.inr orderly
  | undeclare id =>
    cases stepped
    exact set_symbol_invariant inv rfl rfl rfl fun declared => by cases declared
  | markTypedef id =>
    cases stepped
    exact set_symbol_invariant inv rfl rfl rfl Or.inl
  | pushctx => exact pushctx_invariant inv stepped
  | popctx =>
    have inside : state.curctx ≠ 0 := by
      intro atGlobal
      simp [perform, popctx, atGlobal] at stepped
    obtain ⟨popped, done, spec⟩ := popctx_spec inv inside orderly
    have same : popped = next := Option.some.inj (done.symm.trans stepped)
    subst same
    exact popped_invariant inv spec

theorem start_invariant : Invariant start := by
  have threaded : ∀ table, Threaded start table [] := by
    intro table
    constructor <;> simp [start]
  constructor
  · exact threaded .htab
  · exact threaded .htablbl
  all_goals simp [start]

theorem run_table_invariant {ops : List Op}
    (orderly : Meets step Orderly start ops) (ran : run step start ops = some state) : Invariant state :=
  run_invariant Invariant step_invariant start_invariant orderly ran

end Scc.Cc1.SymbolTable
