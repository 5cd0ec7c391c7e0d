import Scc.Cc1.SymbolScope
import Mathlib.Data.List.Find

/-!
# The name spaces of members

`newtag()` gives each new structure, union or enumeration a name space of its own, a number from
`NS_STRUCTS` on. The number is kept in an `unsigned char` of the type and in a `char` of the symbols of
the members, and all the name spaces share one hash table. A lookup for a member also takes a typedef
name, because the declarations of the members need the type names.

The names of the language and of the preprocessor, two parameters of the model, are in the table from
the start; the source takes them off the list `head`, of which `popctx()` never reaches the outermost
context. The check that refuses a second body of a tag in one scope is left out: it only refuses
programs.
-/

namespace Scc.Cc1.Members

open Scc.Lib.Run
open Scc.Cc1.SymbolTable (Name Namespace Table Symbol State Invariant Orderly Linked Popped hash setSymbol
  setChain newsym linkhash setDeclared setTypedef)

set_option autoImplicit false

def NS_STRUCTS : Int := 7
def NR_MAXSTRUCTS : Nat := 127

def number : Namespace → Int
  | .dummy => 0
  | .iden => 1
  | .tag => 2
  | .label => 3
  | .cpp => 4
  | .keyword => 5
  | .cppclauses => 6
  | .structs k => NS_STRUCTS + k

/-- A `char` that holds a number. -/
def char (n : Int) : Int := n.bmod 256

/-- The test of `lookup()`. -/
def isFound (ns : Namespace) (name : Name) (sym : Symbol) : Bool :=
  sym.name = some name &&
    (char (number sym.ns) = number ns || char (number sym.ns) = number .keyword ||
      (sym.typedefName && NS_STRUCTS ≤ number ns))

def find (state : State) (ns : Namespace) (name : Name) : Option Nat :=
  (state.chains (hash name ns)).find? fun id => isFound ns name (state.store id)

/-- `lookup()` with `ALLOC`. -/
def lookup (ns : Namespace) (name : Name) (state : State) : Nat × State :=
  match find state ns name with
  | some id => (id, state)
  | none => (state.count, newsym ns (some name) state)

/-- `linkhash(newsym(ns, name))`. -/
def linknew (ns : Namespace) (name : Name) (state : State) : State :=
  linkhash name state.count (newsym ns (some name) state)

def install (ns : Namespace) (name : Name) (id : Nat) (state : State) : Option (Nat × State) :=
  let sym := state.store id
  if sym.declared ∨ sym.ctx ≠ state.curctx then
    if sym.ctx = state.curctx ∧ number ns = char (number sym.ns) then none
    else some (state.count, linknew ns name state)
  else some (id, linkhash name id state)

/-- The identifier of a declarator, from the lexer to `directdcl()`. -/
def directdcl (ns : Namespace) (name : Name) (state : State) : Nat × State :=
  let (sym, found) := lookup ns name state
  match install ns name sym found with
  | some (p, installed) => (p, setDeclared false p installed)
  | none => (sym, found)

/-- A declared symbol is a duplicated member, an error that leaves the table alone. -/
def field (k : Nat) (name : Name) (state : State) : State :=
  let (sym, installed) := directdcl (.structs k) name state
  if (installed.store sym).declared then installed else setDeclared true sym installed

/-- A declared symbol goes to `redcl()`, which leaves the table alone. -/
def identifier (typedefName : Bool) (name : Name) (state : State) : State :=
  let (sym, installed) := directdcl .iden name state
  if (installed.store sym).declared then installed
  else if typedefName then setTypedef sym (setDeclared true sym installed)
  else setDeclared true sym installed

/-- The symbol of a tag, from the lexer to `newtag()`. -/
def tagSymbol (name : Option Name) (state : State) : Nat × State :=
  match name with
  | none => (state.count, newsym .tag none state)
  | some name =>
    let (sym, found) := lookup .tag name state
    if (found.store sym).declared then (sym, found)
    else (sym, ((install .tag name sym found).map Prod.snd).getD found)

/-- What a declaration declares; a member belongs to a body and is in the name space of its type. -/
inductive Kind where
  | keyword
  | clause
  | ordinary
  | typedefName
  | tag
  | member (body k : Nat)
deriving DecidableEq

def Kind.ns : Kind → Namespace
  | .keyword => .keyword
  | .clause => .cppclauses
  | .ordinary => .iden
  | .typedefName => .iden
  | .tag => .tag
  | .member _ k => .structs k

structure Declaration where
  kind : Kind
  name : Name
  ctx : Nat
  sym : Nat
deriving DecidableEq

/-- The type of a structure that has a body, and the context of the body. -/
structure Body where
  k : Nat
  ctx : Nat
deriving DecidableEq

/-- The table with the types of the tags, and the declarations in scope, newest first, which no function
of the compiler reads. -/
structure Compiler where
  table : State
  tpns : Nat
  type : Nat → Option Nat
  bodies : List Body
  scope : List Declaration

/-- `newtag()`, with the name space of the type; an error when there are too many. -/
def newtag (name : Option Name) (cc1 : Compiler) : Option (Nat × Compiler) :=
  let (sym, table) := tagSymbol name cc1.table
  let scope := match name with
    | none => cc1.scope
    | some name =>
      if (find cc1.table .tag name).isSome then cc1.scope
      else ⟨.tag, name, cc1.table.curctx, sym⟩ :: cc1.scope
  match cc1.type sym with
  | some k => some (k, { cc1 with table, scope })
  | none =>
    if cc1.tpns = NR_MAXSTRUCTS then none
    else some (cc1.tpns, { cc1 with
      table, scope
      tpns := cc1.tpns + 1
      type := fun other => if other = sym then some cc1.tpns else cc1.type other })

/-- `tag` and `body` are `struct name` without and with a body, and `use` is the lexer on an identifier
where a member is looked for (`some`, the body of its type) or not. -/
inductive Event where
  | tag (name : Option Name)
  | body (name : Option Name)
  | field (body : Nat) (name : Name)
  | identifier (typedefName : Bool) (name : Name)
  | use (body : Option Nat) (name : Name)
  | pushctx
  | popctx
deriving DecidableEq

/-- A member is declared in the context of the body, and once in the body and in the bodies that the
tag has in the same scope. -/
def permittedField (cc1 : Compiler) (body : Body) (name : Name) : Bool :=
  body.ctx = cc1.table.curctx && cc1.scope.all fun d =>
    !(d.name = name && d.kind.ns = .structs body.k && d.ctx = body.ctx)

/-- The declaration of the name as an identifier, of the current context. -/
def redeclared (cc1 : Compiler) (name : Name) : Bool :=
  match cc1.scope.find? fun d => d.name = name && d.kind.ns = .iden with
  | some d => d.ctx = cc1.table.curctx
  | none => false

def step (key : List Name) (cc1 : Compiler) : Event → Option Compiler
  | .tag name => if name.any (· ∈ key) then none else (newtag name cc1).map Prod.snd
  | .body name =>
    if name.any (· ∈ key) then none
    else (newtag name cc1).map fun (k, tagged) =>
      { tagged with bodies := tagged.bodies ++ [⟨k, tagged.table.curctx⟩] }
  | .field body name =>
    (cc1.bodies[body]?).bind fun b =>
      if name ∈ key ∨ ¬ permittedField cc1 b name then none
      else some { cc1 with
        table := field b.k name cc1.table
        scope := ⟨.member body b.k, name, cc1.table.curctx, cc1.table.count⟩ :: cc1.scope }
  | .identifier typedefName name =>
    if name ∈ key then none
    else some { cc1 with
      table := identifier typedefName name cc1.table
      scope :=
        if redeclared cc1 name then cc1.scope
        else ⟨if typedefName then .typedefName else .ordinary, name, cc1.table.curctx,
          cc1.table.count⟩ :: cc1.scope }
  | .use none name => some { cc1 with table := (lookup .iden name cc1.table).2 }
  | .use (some body) name =>
    (cc1.bodies[body]?).map fun b =>
      { cc1 with table := (lookup (.structs b.k) name cc1.table).2 }
  | .pushctx => (SymbolTable.pushctx cc1.table).map fun table => { cc1 with table }
  | .popctx =>
    (SymbolTable.popctx cc1.table).map fun table =>
      { cc1 with table, scope := cc1.scope.filter fun d => d.ctx < cc1.table.curctx }

def keywords (kind : Kind) (key : List Name) (cc1 : Compiler) : Compiler :=
  key.foldl (fun cc1 name => { cc1 with
    table := linknew kind.ns name cc1.table
    scope := ⟨kind, name, cc1.table.curctx, cc1.table.count⟩ :: cc1.scope }) cc1

/-- `isyms()`. -/
def start (key clauses : List Name) : Compiler :=
  keywords .clause clauses (keywords .keyword key ⟨SymbolTable.start, 0, fun _ => none, [], []⟩)

theorem number_nonneg (ns : Namespace) : 0 ≤ number ns := by
  cases ns <;> simp only [number, NS_STRUCTS] <;> omega

theorem number_injective {ns ns' : Namespace} (same : number ns = number ns') : ns = ns' := by
  cases ns <;> cases ns' <;> simp only [number, NS_STRUCTS] at same
  all_goals first | rfl | omega | skip
  rename_i k k'
  have equal : k = k' := by omega
  rw [equal]

theorem char_number {ns ns' : Namespace} (small : number ns < 256) (small' : number ns' < 256) :
    char (number ns) = number ns' ↔ ns = ns' ∧ number ns < 128 := by
  have start := number_nonneg ns
  have start' := number_nonneg ns'
  have value : char (number ns) = if number ns < 128 then number ns else number ns - 256 := by
    rw [char, Int.bmod_def]
    split_ifs <;> omega
  rw [value]
  constructor
  · intro same
    split_ifs at same with fits
    · exact ⟨number_injective same, fits⟩
    · omega
  · rintro ⟨rfl, fits⟩
    rw [if_pos fits]

def Declaration.symbol (d : Declaration) : Symbol :=
  ⟨some d.name, d.kind.ns, d.ctx, true, d.kind = .typedefName⟩

/-- The chain of a name holds the symbols of its declarations. -/
structure Tabled (table : State) (scope : List Declaration) : Prop where
  inv : Invariant table
  labels : table.labels = []
  chains : ∀ name, (table.chains (hash name .iden)).filter (fun id => (table.store id).name = some name) =
    (scope.filter fun d => d.name = name).map Declaration.sym
  symbols : ∀ d ∈ scope, table.store d.sym = d.symbol
  old : ∀ d ∈ scope, d.sym < table.count
  inside : ∀ d ∈ scope, d.ctx ≤ table.curctx

theorem hash_htab {ns : Namespace} (htab : ns.table = .htab) (name : Name) : hash name ns = hash name .iden := by
  unfold SymbolTable.hash
  rw [htab]
  rfl

theorem kind_htab (kind : Kind) : kind.ns.table = .htab := by
  cases kind <;> rfl

theorem htab_not_label {ns : Namespace} (htab : ns.table = .htab) : ns ≠ .label := by
  rintro rfl
  cases htab

theorem link_store (ns : Namespace) (name : Name) (table : State) (id : Nat) :
    (linknew ns name table).store id =
      if id = table.count then ⟨some name, ns, table.curctx, true, false⟩ else table.store id := by
  by_cases same : id = table.count
  · rw [if_pos same, same]
    simp [linknew, linkhash, setDeclared, newsym]
  · rw [if_neg same]
    simp [linknew, linkhash, setDeclared, newsym, SymbolTable.set_symbol_other same]

theorem link_chain {ns : Namespace} (htab : ns.table = .htab) (name other : Name) (table : State) :
    (linknew ns name table).chains (hash other .iden) =
      if hash other .iden = hash name .iden then table.count :: table.chains (hash other .iden)
      else table.chains (hash other .iden) := by
  rw [linknew, SymbolTable.linkhash_chain]
  simp only [newsym, SymbolTable.set_symbol_same, hash_htab htab]

namespace Tabled

variable {table : State} {scope : List Declaration}

variable {d : Declaration} {name : Name}

theorem in_chain (tabled : Tabled table scope) (member : d ∈ scope) :
    d.sym ∈ table.chains (hash d.name .iden) := by
  have listed : d.sym ∈ (scope.filter fun other => other.name = d.name).map Declaration.sym :=
    List.mem_map_of_mem (List.mem_filter.mpr ⟨member, by simp⟩)
  rw [← tabled.chains] at listed
  exact List.mem_of_mem_filter listed

theorem in_head (tabled : Tabled table scope) (member : d ∈ scope) : d.sym ∈ table.head :=
  tabled.inv.head.chainLive _ _ (tabled.in_chain member)

theorem find_scope (tabled : Tabled table scope) {ns : Namespace} (htab : ns.table = .htab) (name : Name) :
    find table ns name = (scope.find? fun d => isFound ns name d.symbol).map Declaration.sym := by
  have named : ∀ sym, isFound ns name sym =
      decide (decide (sym.name = some name) = true ∧ isFound ns name sym = true) := by
    intro sym
    rw [Bool.decide_and, Bool.decide_eq_true, Bool.decide_eq_true]
    unfold isFound
    rw [← Bool.and_assoc, Bool.and_self]
  calc find table ns name
      = ((table.chains (hash name .iden)).filter fun id => (table.store id).name = some name).find?
          fun id => isFound ns name (table.store id) := by
        rw [find, hash_htab htab, List.find?_filter]
        congr 1
        funext id
        exact named _
    _ = ((scope.filter fun d => d.name = name).find? fun d =>
          isFound ns name (table.store d.sym)).map Declaration.sym := by
        rw [tabled.chains, List.find?_map]
        rfl
    _ = (scope.find? fun d => isFound ns name d.symbol).map Declaration.sym := by
        rw [List.find?_filter]
        congr 1
        apply List.find?_congr
        intro d member
        rw [tabled.symbols d member, named d.symbol]
        simp [Declaration.symbol]

theorem newsym (tabled : Tabled table scope) {ns : Namespace} (htab : ns.table = .htab) (name : Option Name) :
    Tabled (newsym ns name table) scope where
  inv := SymbolTable.newsym_invariant tabled.inv ns name fun label => absurd label (htab_not_label htab)
  labels := by
    have noLabels := tabled.labels
    simp [SymbolTable.newsym, htab, noLabels]
  chains := by
    intro other
    rw [← tabled.chains other]
    apply List.filter_congr
    intro id inChain
    rw [SymbolTable.newsym_store (SymbolTable.chain_old tabled.inv _ id inChain)]
  symbols := by
    intro d member
    rw [SymbolTable.newsym_store (tabled.old d member)]
    exact tabled.symbols d member
  old := fun d member => Nat.lt_succ_of_lt (tabled.old d member)
  inside := tabled.inside

theorem lookup (tabled : Tabled table scope) {ns : Namespace} (htab : ns.table = .htab) (name : Name) :
    Tabled (lookup ns name table).2 scope := by
  unfold Members.lookup
  split
  · exact tabled
  · exact tabled.newsym htab (some name)

theorem link (tabled : Tabled table scope) (kind : Kind) (name : Name) {final : State}
    (marked : final = if kind = .typedefName
      then setTypedef table.count (linknew kind.ns name table) else linknew kind.ns name table) :
    Tabled final (⟨kind, name, table.curctx, table.count⟩ :: scope) := by
  have htab := kind_htab kind
  have linked : Invariant (linknew kind.ns name table) := by
    apply SymbolTable.linkhash_invariant
    · exact SymbolTable.newsym_invariant tabled.inv _ _ fun label => absurd label (htab_not_label htab)
    · exact SymbolTable.newsym_alive
    · simp [SymbolTable.newsym]
    · intro _ other inChain
      exact SymbolTable.chain_old tabled.inv _ other inChain
  have count : final.count = table.count + 1 := by
    rw [marked]
    split_ifs <;> rfl
  have curctx : final.curctx = table.curctx := by
    rw [marked]
    split_ifs <;> rfl
  have chains : ∀ bucket, final.chains bucket =
      (linknew kind.ns name table).chains bucket := by
    intro bucket
    rw [marked]
    split_ifs <;> rfl
  have store : ∀ id, final.store id = if id = table.count
      then ⟨some name, kind.ns, table.curctx, true, kind = .typedefName⟩ else table.store id := by
    intro id
    rw [marked]
    split_ifs with mark same same
    · rw [same]
      simp [setTypedef, link_store, mark]
    · have other := link_store kind.ns name table id
      rw [if_neg same] at other
      simpa [setTypedef, SymbolTable.set_symbol_other same] using other
    · rw [link_store, if_pos same]
      simp [mark]
    · rw [link_store, if_neg same]
  have fresh : ∀ bucket, ∀ id ∈ table.chains bucket, final.store id = table.store id := by
    intro bucket id inChain
    rw [store, if_neg (Nat.ne_of_lt (SymbolTable.chain_old tabled.inv bucket id inChain))]
  constructor
  · rw [marked]
    split_ifs
    · exact SymbolTable.set_symbol_invariant linked rfl rfl rfl Or.inl
    · exact linked
  · have noLabels := tabled.labels
    rw [marked]
    split_ifs <;> simp [setTypedef, linknew, linkhash, setDeclared, SymbolTable.newsym, htab, noLabels]
  · intro other
    have older : (table.chains (hash other .iden)).filter (fun id => (final.store id).name = some other) =
        (scope.filter fun d => d.name = other).map Declaration.sym := by
      rw [← tabled.chains other]
      apply List.filter_congr
      intro id inChain
      rw [fresh _ id inChain]
    rw [chains, link_chain htab]
    by_cases same : name = other
    · subst same
      rw [if_pos rfl, List.filter_cons_of_pos, older, List.filter_cons_of_pos]
      · rfl
      · simp
      · simp [store]
    · rw [List.filter_cons_of_neg (by simpa using same), ← older]
      split_ifs
      · rw [List.filter_cons_of_neg]
        simpa [store] using same
      · rfl
  · intro d member
    rcases List.mem_cons.mp member with rfl | older
    · rw [store, if_pos rfl]
      rfl
    · rw [store, if_neg (Nat.ne_of_lt (tabled.old d older))]
      exact tabled.symbols d older
  · intro d member
    rw [count]
    rcases List.mem_cons.mp member with rfl | older
    · exact Nat.lt_succ_self _
    · exact Nat.lt_succ_of_lt (tabled.old d older)
  · intro d member
    rw [curctx]
    rcases List.mem_cons.mp member with rfl | older
    · exact Nat.le_refl _
    · exact tabled.inside d older

theorem pushctx (tabled : Tabled table scope) {next : State} (done : SymbolTable.pushctx table = some next) :
    Tabled next scope := by
  have inv := SymbolTable.pushctx_invariant tabled.inv done
  unfold SymbolTable.pushctx at done
  split_ifs at done
  cases done
  exact ⟨inv, tabled.labels, tabled.chains, tabled.symbols, tabled.old,
    fun d member => Nat.le_succ_of_le (tabled.inside d member)⟩

theorem orderly (tabled : Tabled table scope) : Orderly table .popctx := by
  constructor
  · intro id inHead _ linked
    rcases linked with ⟨name, named, inChain⟩
    rw [hash_htab (tabled.inv.head.ofTable id inHead)] at inChain
    have filtered : id ∈ (table.chains (hash name .iden)).filter fun id => (table.store id).name = some name :=
      List.mem_filter.mpr ⟨inChain, decide_eq_true named⟩
    rw [tabled.chains] at filtered
    rcases List.mem_map.mp filtered with ⟨d, member, rfl⟩
    rw [tabled.symbols d (List.mem_of_mem_filter member)]
    rfl
  · intro _ id inLabels
    rw [tabled.labels] at inLabels
    cases inLabels

theorem popctx (tabled : Tabled table scope) {next : State} (done : SymbolTable.popctx table = some next) :
    Tabled next (scope.filter fun d => d.ctx < table.curctx) := by
  have within : table.curctx ≠ 0 := by
    intro outermost
    simp [SymbolTable.popctx, outermost] at done
  rcases SymbolTable.popctx_spec tabled.inv within tabled.orderly with ⟨popped, again, spec⟩
  cases again.symm.trans done
  have ended : ∀ d ∈ scope, d.sym ∉ table.head.takeWhile (SymbolTable.isCurrent table) ↔ d.ctx < table.curctx := by
    intro d member
    have bound := tabled.inside d member
    rw [SymbolTable.mem_take_current tabled.inv.nested tabled.inv.current, tabled.symbols d member]
    have inHead := tabled.in_head member
    simp only [inHead, true_and, Declaration.symbol]
    omega
  constructor
  · exact SymbolTable.popped_invariant tabled.inv spec
  · rw [spec.labels, tabled.labels, ite_self]
  · intro name
    have chain : next.chains (hash name .iden) = _ := spec.htab _
    rw [chain, spec.store, List.filter_filter, List.filter_filter]
    calc (table.chains (hash name .iden)).filter _
        = ((table.chains (hash name .iden)).filter fun id => (table.store id).name = some name).filter
            fun id => id ∉ table.head.takeWhile (SymbolTable.isCurrent table) := by
          rw [List.filter_filter]
          apply List.filter_congr
          intro id _
          exact Bool.and_comm _ _
      _ = ((scope.filter fun d => d.name = name).filter fun d =>
            d.sym ∉ table.head.takeWhile (SymbolTable.isCurrent table)).map Declaration.sym := by
          rw [tabled.chains, List.filter_map]
          rfl
      _ = _ := by
          rw [List.filter_filter]
          congr 1
          apply List.filter_congr
          intro d member
          rw [decide_eq_decide.mpr (ended d member)]
          exact Bool.and_comm _ _
  · intro d member
    rw [spec.store]
    exact tabled.symbols d (List.mem_of_mem_filter member)
  · intro d member
    rw [spec.count]
    exact tabled.old d (List.mem_of_mem_filter member)
  · intro d member
    have before := of_decide_eq_true (List.mem_filter.mp member).2
    rw [spec.curctx]
    omega

theorem lookup_found (tabled : Tabled table scope) {ns : Namespace} (htab : ns.table = .htab)
    (found : (scope.find? fun d => isFound ns name d.symbol) = some d) :
    Members.lookup ns name table = (d.sym, table) ∧ table.store d.sym = d.symbol := by
  have search := tabled.find_scope htab name
  rw [found] at search
  refine ⟨?_, tabled.symbols d (List.mem_of_find?_eq_some found)⟩
  rw [Members.lookup, search]
  rfl

theorem lookup_missed (tabled : Tabled table scope) {ns : Namespace} (htab : ns.table = .htab)
    (missed : (scope.find? fun d => isFound ns name d.symbol) = none) :
    Members.lookup ns name table = (table.count, SymbolTable.newsym ns (some name) table) := by
  have search := tabled.find_scope htab name
  rw [missed] at search
  rw [Members.lookup, search]
  rfl

theorem install_fresh (ns : Namespace) (name : Name) (table : State) :
    install ns name table.count (SymbolTable.newsym ns (some name) table) =
      some (table.count, linknew ns name table) := by
  simp [install, SymbolTable.newsym, linknew]

theorem directdcl_known (tabled : Tabled table scope) {ns : Namespace} (htab : ns.table = .htab)
    (found : (scope.find? fun d => isFound ns name d.symbol) = some d)
    (here : d.ctx = table.curctx) (same : number ns = char (number d.kind.ns)) :
    directdcl ns name table = (d.sym, table) := by
  have ⟨search, symbol⟩ := tabled.lookup_found htab found
  have refused : install ns name d.sym table = none := by
    unfold install
    rw [symbol]
    simp [Declaration.symbol, here, same]
  simp only [directdcl, search, refused]

theorem directdcl_new (tabled : Tabled table scope) {ns : Namespace} (htab : ns.table = .htab)
    (differs : ∀ d, (scope.find? fun d => isFound ns name d.symbol) = some d →
      ¬ (d.ctx = table.curctx ∧ number ns = char (number d.kind.ns))) :
    directdcl ns name table = (table.count, setDeclared false table.count (linknew ns name table)) := by
  cases found : scope.find? fun d => isFound ns name d.symbol with
  | none =>
    have search := tabled.lookup_missed htab found
    simp only [directdcl, search, install_fresh]
  | some d =>
    have ⟨search, symbol⟩ := tabled.lookup_found htab found
    have created : install ns name d.sym table = some (table.count, linknew ns name table) := by
      unfold install
      rw [symbol]
      dsimp only
      rw [if_pos (Or.inl (show d.symbol.declared = true from rfl)), if_neg]
      exact differs d found
    simp only [directdcl, search, created]

theorem declare_again (id : Nat) (table : State) (declared : (table.store id).declared = true) :
    setDeclared true id (setDeclared false id table) = table := by
  have store : setSymbol (setSymbol table.store id { table.store id with declared := false }) id
      { table.store id with declared := true } = table.store := by
    funext other
    by_cases same : other = id
    · rw [same, SymbolTable.set_symbol_same, ← declared]
    · rw [SymbolTable.set_symbol_other same, SymbolTable.set_symbol_other same]
  cases table
  simp only [setDeclared, SymbolTable.set_symbol_same] at store ⊢
  rw [store]

theorem field_new (tabled : Tabled table scope) {k : Nat}
    (differs : ∀ d, (scope.find? fun d => isFound (.structs k) name d.symbol) = some d →
      ¬ (d.ctx = table.curctx ∧ number (.structs k) = char (number d.kind.ns))) :
    field k name table = linknew (.structs k) name table := by
  have declared : ((linknew (.structs k) name table).store table.count).declared = true := by
    rw [link_store, if_pos rfl]
  rw [field, tabled.directdcl_new rfl differs]
  dsimp only
  rw [if_neg, declare_again _ _ declared]
  simp [setDeclared]

theorem identifier_known (tabled : Tabled table scope) (typedefName : Bool)
    (found : (scope.find? fun d => isFound .iden name d.symbol) = some d)
    (here : d.ctx = table.curctx) (same : number .iden = char (number d.kind.ns)) :
    identifier typedefName name table = table := by
  have declared : (table.store d.sym).declared = true := by
    rw [tabled.symbols d (List.mem_of_find?_eq_some found)]
    rfl
  rw [identifier, tabled.directdcl_known rfl found here same]
  dsimp only
  rw [if_pos declared]

theorem identifier_new (tabled : Tabled table scope) (typedefName : Bool)
    (differs : ∀ d, (scope.find? fun d => isFound .iden name d.symbol) = some d →
      ¬ (d.ctx = table.curctx ∧ number .iden = char (number d.kind.ns))) : identifier typedefName name table =
      if typedefName then setTypedef table.count (linknew .iden name table) else linknew .iden name table := by
  have declared : ((linknew .iden name table).store table.count).declared = true := by
    rw [link_store, if_pos rfl]
  rw [identifier, tabled.directdcl_new rfl differs]
  dsimp only
  rw [if_neg, declare_again _ _ declared]
  simp [setDeclared]

theorem tag_known (tabled : Tabled table scope)
    (found : (scope.find? fun d => isFound .tag name d.symbol) = some d) :
    tagSymbol (some name) table = (d.sym, table) := by
  have ⟨search, symbol⟩ := tabled.lookup_found rfl found
  simp only [tagSymbol, search, symbol, Declaration.symbol, if_true]

theorem tag_new (tabled : Tabled table scope)
    (missed : (scope.find? fun d => isFound .tag name d.symbol) = none) :
    tagSymbol (some name) table = (table.count, linknew .tag name table) := by
  have search := tabled.lookup_missed rfl missed
  have undeclared : ((SymbolTable.newsym .tag (some name) table).store table.count).declared = false := by
    simp [SymbolTable.newsym]
  simp [tagSymbol, search, install_fresh, undeclared]

end Tabled

/-- What holds after every part of a program. -/
structure Valid (key : List Name) (cc1 : Compiler) : Prop where
  tabled : Tabled cc1.table cc1.scope
  keys : ∀ d ∈ cc1.scope, d.kind = .keyword → d.name ∈ key
  members : ∀ d ∈ cc1.scope, ∀ body k, d.kind = .member body k →
    d.name ∉ key ∧ ∃ b, cc1.bodies[body]? = some b ∧ b.k = k
  types : ∀ sym k, cc1.type sym = some k → k < NR_MAXSTRUCTS
  few : cc1.tpns ≤ NR_MAXSTRUCTS
  bodies : ∀ b ∈ cc1.bodies, b.k < NR_MAXSTRUCTS

theorem structs_small {k : Nat} (few : k < NR_MAXSTRUCTS) : number (.structs k) < 256 := by
  simp only [number, NS_STRUCTS, NR_MAXSTRUCTS] at few ⊢
  omega

namespace Valid

variable {key : List Name} {cc1 : Compiler}

theorem small (valid : Valid key cc1) (d : Declaration) (member : d ∈ cc1.scope) : number d.kind.ns < 256 := by
  cases kind : d.kind with
  | member body k =>
    rcases (valid.members d member body k kind).2 with ⟨b, found, rfl⟩
    exact structs_small (valid.bodies b (List.mem_of_getElem? found))
  | _ => decide

variable {name : Name}

theorem find_iden (valid : Valid key cc1) (notKey : name ∉ key) :
    (cc1.scope.find? fun d => isFound .iden name d.symbol) =
      cc1.scope.find? fun d => d.name = name && d.kind.ns = .iden := by
  apply List.find?_congr
  intro d member
  have inKey := valid.keys d member
  have bound := valid.small d member
  rw [Bool.eq_iff_iff]
  simp only [isFound, Declaration.symbol, Bool.and_eq_true, Bool.or_eq_true, decide_eq_true_eq, Option.some.injEq,
    char_number bound (show number .iden < 256 by decide),
    char_number bound (show number .keyword < 256 by decide)]
  constructor
  · rintro ⟨named, (⟨iden, _⟩ | ⟨keyword, _⟩) | ⟨_, struct⟩⟩
    · exact ⟨named, iden⟩
    · subst named
      refine absurd (inKey ?_) notKey
      cases kind : d.kind <;> simp [kind, Kind.ns] at keyword ⊢
    · exact absurd struct (by decide)
  · rintro ⟨named, iden⟩
    refine ⟨named, Or.inl (Or.inl ⟨iden, ?_⟩)⟩
    rw [iden]
    decide

theorem declare (valid : Valid key cc1) {d : Declaration} {table : State} (tabled : Tabled table (d :: cc1.scope))
    (notKeyword : d.kind ≠ .keyword) (notMember : ∀ body k, d.kind ≠ .member body k) :
    Valid key { cc1 with table, scope := d :: cc1.scope } where
  tabled := tabled
  keys := by
    intro other member keyword
    rcases List.mem_cons.mp member with rfl | older
    · exact absurd keyword notKeyword
    · exact valid.keys other older keyword
  members := by
    intro other member body k kind
    rcases List.mem_cons.mp member with rfl | older
    · exact absurd kind (notMember body k)
    · exact valid.members other older body k kind
  types := valid.types
  few := valid.few
  bodies := valid.bodies

theorem rescope (valid : Valid key cc1) {table : State} (tabled : Tabled table cc1.scope) :
    Valid key { cc1 with table } :=
  ⟨tabled, valid.keys, valid.members, valid.types, valid.few, valid.bodies⟩

theorem newtag (valid : Valid key cc1) {name : Option Name} {k : Nat} {next : Compiler}
    (made : newtag name cc1 = some (k, next)) : Valid key next ∧ k < NR_MAXSTRUCTS := by
  have kept : ∃ sym table scope, Members.newtag name cc1 = (match cc1.type sym with
      | some k => some (k, { cc1 with table, scope })
      | none =>
        if cc1.tpns = NR_MAXSTRUCTS then none
        else some (cc1.tpns, { cc1 with
          table, scope
          tpns := cc1.tpns + 1
          type := fun other => if other = sym then some cc1.tpns else cc1.type other })) ∧
      Valid key { cc1 with table, scope } := by
    cases name with
    | none => exact ⟨_, _, _, rfl, valid.rescope (valid.tabled.newsym rfl none)⟩
    | some name =>
      have search := valid.tabled.find_scope (show Namespace.tag.table = .htab from rfl) name
      cases found : cc1.scope.find? fun d => isFound .tag name d.symbol with
      | some d =>
        rw [found] at search
        refine ⟨d.sym, cc1.table, cc1.scope, ?_, valid⟩
        rw [Members.newtag, valid.tabled.tag_known found]
        dsimp only
        rw [search]
        rfl
      | none =>
        rw [found] at search
        refine ⟨cc1.table.count, linknew .tag name cc1.table,
          ⟨.tag, name, cc1.table.curctx, cc1.table.count⟩ :: cc1.scope, ?_, ?_⟩
        · rw [Members.newtag, valid.tabled.tag_new found]
          dsimp only
          rw [search]
          rfl
        · exact valid.declare (valid.tabled.link .tag name rfl) nofun nofun
  rcases kept with ⟨sym, table, scope, equation, kept⟩
  rw [equation] at made
  cases known : cc1.type sym with
  | some k' =>
    rw [known] at made
    cases made
    exact ⟨kept, valid.types sym k known⟩
  | none =>
    rw [known] at made
    dsimp only at made
    split_ifs at made with many
    cases made
    have few : cc1.tpns < NR_MAXSTRUCTS := Nat.lt_of_le_of_ne valid.few many
    refine ⟨⟨kept.tabled, kept.keys, kept.members, ?_, few, kept.bodies⟩, few⟩
    intro other k typed
    dsimp only at typed
    split_ifs at typed
    · cases typed
      exact few
    · exact valid.types other k typed

theorem field_table (valid : Valid key cc1) {b : Body} (few : b.k < NR_MAXSTRUCTS)
    (permitted : permittedField cc1 b name = true) :
    Members.field b.k name cc1.table = linknew (.structs b.k) name cc1.table := by
  apply valid.tabled.field_new
  rintro d found ⟨here, same⟩
  have ⟨context, once⟩ := (Bool.and_eq_true _ _).mp permitted
  have member := List.mem_of_find?_eq_some found
  have test := List.find?_some found
  dsimp only [isFound] at test
  have named : d.symbol.name = some name := of_decide_eq_true ((Bool.and_eq_true _ _).mp test).1
  have differs := List.all_eq_true.mp once d member
  have space := ((char_number (valid.small d member) (structs_small few)).mp same.symm).1
  have context_ := of_decide_eq_true context
  simp [Option.some.inj named, space, here, context_] at differs

theorem identifier_new (valid : Valid key cc1) (typedefName : Bool) (known : redeclared cc1 name = false)
    (outside : ∀ d, (cc1.scope.find? fun d => isFound .iden name d.symbol) = some d → d.ctx ≠ cc1.table.curctx) :
    Valid key { cc1 with
      table := identifier typedefName name cc1.table
      scope :=
        if redeclared cc1 name then cc1.scope
        else ⟨if typedefName then .typedefName else .ordinary, name, cc1.table.curctx,
          cc1.table.count⟩ :: cc1.scope } := by
  rw [known, valid.tabled.identifier_new typedefName fun d found here => outside d found here.1]
  cases typedefName with
  | true => exact valid.declare (valid.tabled.link .typedefName name rfl) nofun nofun
  | false => exact valid.declare (valid.tabled.link .ordinary name rfl) nofun nofun

theorem step (valid : Valid key cc1) {event : Event} {next : Compiler}
    (stepped : step key cc1 event = some next) : Valid key next := by
  cases event with
  | tag name =>
    simp only [Members.step] at stepped
    split_ifs at stepped
    rcases Option.map_eq_some_iff.mp stepped with ⟨⟨k, tagged⟩, made, rfl⟩
    exact (valid.newtag made).1
  | body name =>
    simp only [Members.step] at stepped
    split_ifs at stepped
    rcases Option.map_eq_some_iff.mp stepped with ⟨⟨k, tagged⟩, made, rfl⟩
    have ⟨kept, few⟩ := valid.newtag made
    refine ⟨kept.tabled, kept.keys, ?_, kept.types, kept.few, ?_⟩
    · intro d member body k' kind
      have ⟨notKey, b, found, space⟩ := kept.members d member body k' kind
      have within := (List.getElem?_eq_some_iff.mp found).1
      exact ⟨notKey, b, (List.getElem?_append_left within).trans found, space⟩
    · intro b member
      rcases List.mem_append.mp member with older | last
      · exact kept.bodies b older
      · rw [List.mem_singleton.mp last]
        exact few
  | field body name =>
    rcases Option.bind_eq_some_iff.mp stepped with ⟨b, found, declared⟩
    split_ifs at declared with refused
    cases declared
    rw [not_or, not_not] at refused
    have few := valid.bodies b (List.mem_of_getElem? found)
    rw [valid.field_table few refused.2]
    refine ⟨valid.tabled.link (.member body b.k) name rfl, ?_, ?_, valid.types, valid.few, valid.bodies⟩
    · intro d member keyword
      rcases List.mem_cons.mp member with rfl | older
      · cases keyword
      · exact valid.keys d older keyword
    · intro d member body' k kind
      rcases List.mem_cons.mp member with rfl | older
      · cases kind
        exact ⟨refused.1, b, found, rfl⟩
      · exact valid.members d older body' k kind
  | identifier typedefName name =>
    by_cases isKey : name ∈ key
    · simp only [Members.step, if_pos isKey] at stepped
      cases stepped
    · simp only [Members.step, if_neg isKey] at stepped
      cases stepped
      cases visible : cc1.scope.find? fun d => d.name = name && d.kind.ns = .iden with
      | none =>
        have known : redeclared cc1 name = false := by rw [redeclared, visible]
        rw [← valid.find_iden isKey] at visible
        exact valid.identifier_new typedefName known fun d found => by rw [visible] at found; cases found
      | some d =>
        have iden : d.kind.ns = .iden := by
          have test := List.find?_some visible
          exact of_decide_eq_true ((Bool.and_eq_true _ _).mp test).2
        have known : redeclared cc1 name = decide (d.ctx = cc1.table.curctx) := by rw [redeclared, visible]
        rw [← valid.find_iden isKey] at visible
        by_cases here : d.ctx = cc1.table.curctx
        · rw [valid.tabled.identifier_known typedefName visible here (by rw [iden]; decide), known,
            if_pos (decide_eq_true here)]
          exact valid
        · rw [decide_eq_false here] at known
          refine valid.identifier_new typedefName known fun other found => ?_
          cases visible.symm.trans found
          exact here
  | use body name =>
    cases body with
    | none =>
      cases stepped
      exact valid.rescope (valid.tabled.lookup rfl name)
    | some body =>
      rcases Option.map_eq_some_iff.mp stepped with ⟨b, _, rfl⟩
      exact valid.rescope (valid.tabled.lookup rfl name)
  | pushctx =>
    rcases Option.map_eq_some_iff.mp stepped with ⟨table, pushed, rfl⟩
    exact valid.rescope (valid.tabled.pushctx pushed)
  | popctx =>
    rcases Option.map_eq_some_iff.mp stepped with ⟨table, popped, rfl⟩
    exact ⟨valid.tabled.popctx popped, fun d member => valid.keys d (List.mem_of_mem_filter member),
      fun d member => valid.members d (List.mem_of_mem_filter member), valid.types, valid.few, valid.bodies⟩

theorem keywords (valid : Valid key cc1) {kind : Kind} (names : List Name)
    (keyword : kind = .keyword → ∀ name ∈ names, name ∈ key) (notMember : ∀ body k, kind ≠ .member body k)
    (notTypedef : kind ≠ .typedefName) : Valid key (keywords kind names cc1) := by
  induction names generalizing cc1 with
  | nil => exact valid
  | cons name rest ih =>
    apply ih
    · refine ⟨valid.tabled.link kind name (by rw [if_neg notTypedef]), ?_, ?_, valid.types, valid.few, valid.bodies⟩
      · intro d member isKeyword
        rcases List.mem_cons.mp member with rfl | older
        · exact keyword isKeyword name List.mem_cons_self
        · exact valid.keys d older isKeyword
      · intro d member body k isMember
        rcases List.mem_cons.mp member with rfl | older
        · exact absurd isMember (notMember body k)
        · exact valid.members d older body k isMember
    · intro isKeyword other member
      exact keyword isKeyword other (List.mem_cons_of_mem name member)

theorem start (key clauses : List Name) : Valid key (start key clauses) := by
  have empty : Valid key ⟨SymbolTable.start, 0, fun _ => none, [], []⟩ := by
    refine ⟨⟨SymbolTable.start_invariant, rfl, fun _ => rfl, ?_, ?_, ?_⟩, ?_, ?_, ?_, Nat.zero_le _, ?_⟩
    all_goals simp
  apply Valid.keywords
  · exact empty.keywords key (fun _ _ member => member) nofun nofun
  · nofun
  · nofun
  · nofun

end Valid

theorem run_valid {key clauses : List Name} {events : List Event} {cc1 : Compiler}
    (ran : run (step key) (start key clauses) events = some cc1) : Valid key cc1 :=
  run_preserves (Valid key) (fun _ _ _ valid stepped => valid.step stepped) (Valid.start key clauses) ran

/-- The symbol that the lexer gives for a name after `.` or `->` or in a designator, where the structure
has the body. -/
def memberSymbol (cc1 : Compiler) (body : Nat) (name : Name) : Option Nat :=
  (cc1.bodies[body]?).bind fun b => find cc1.table (.structs b.k) name

/-- A later declaration of the name that a lookup for the member takes as well: of a typedef name, or of
a member of another body of the tag. -/
def Hides (d other : Declaration) : Prop :=
  other.name = d.name ∧ (other.kind = .typedefName ∨ other.kind.ns = d.kind.ns)

instance (d other : Declaration) : Decidable (Hides d other) :=
  inferInstanceAs (Decidable (_ ∧ _))

namespace Valid

variable {key : List Name} {cc1 : Compiler}

theorem member_symbol (valid : Valid key cc1) {d : Declaration} (member : d ∈ cc1.scope) {body k : Nat}
    (kind : d.kind = .member body k) : memberSymbol cc1 body d.name =
      (cc1.scope.find? fun other => isFound d.kind.ns d.name other.symbol).map Declaration.sym := by
  rcases (valid.members d member body k kind).2 with ⟨b, found, rfl⟩
  have search := valid.tabled.find_scope (kind_htab d.kind) d.name
  rw [memberSymbol, found, Option.bind_some, ← search, kind]
  rfl

theorem is_found_member (valid : Valid key cc1) {d : Declaration} (member : d ∈ cc1.scope) {body k : Nat}
    (kind : d.kind = .member body k) {other : Declaration} (inScope : other ∈ cc1.scope) :
    isFound d.kind.ns d.name other.symbol = true ↔ other.name = d.name ∧
      (other.kind.ns = d.kind.ns ∧ number d.kind.ns < 128 ∨ other.kind = .typedefName) := by
  have ⟨notKey, _⟩ := valid.members d member body k kind
  have bound := valid.small other inScope
  have struct : NS_STRUCTS ≤ number d.kind.ns := by
    rw [kind]
    simp only [Kind.ns, number]
    omega
  simp only [isFound, Declaration.symbol, Bool.and_eq_true, Bool.or_eq_true, decide_eq_true_eq, Option.some.injEq,
    char_number bound (valid.small d member), char_number bound (show number .keyword < 256 by decide), struct,
    and_true]
  constructor
  · rintro ⟨named, (⟨same, fits⟩ | ⟨keyword, _⟩) | marked⟩
    · rw [same] at fits
      exact ⟨named, Or.inl ⟨same, fits⟩⟩
    · rw [← named] at notKey
      refine absurd (valid.keys other inScope ?_) notKey
      cases kind : other.kind <;> simp [kind, Kind.ns] at keyword ⊢
    · exact ⟨named, Or.inr marked⟩
  · rintro ⟨named, ⟨same, fits⟩ | marked⟩
    · rw [← same] at fits
      exact ⟨named, Or.inl (Or.inl ⟨same, fits⟩)⟩
    · exact ⟨named, Or.inr marked⟩

theorem newer_symbol (valid : Valid key cc1) {d other : Declaration} {newer older : List Declaration}
    (scope : cc1.scope = newer ++ d :: older) (member : other ∈ newer) (named : other.name = d.name) :
    d.sym < other.sym := by
  have decreasing := (valid.tabled.inv.head.chainDecreasing (hash d.name .iden).2).filter
    fun id => (cc1.table.store id).name = some d.name
  have chain := valid.tabled.chains d.name
  have bucket : cc1.table.chains (hash d.name .iden) = cc1.table.chains (.htab, (hash d.name .iden).2) := rfl
  rw [← bucket, chain, scope, List.filter_append, List.map_append, List.filter_cons_of_pos (by simp)] at decreasing
  refine (List.pairwise_append.mp decreasing).2.2 other.sym ?_ d.sym List.mem_cons_self
  exact List.mem_map_of_mem (List.mem_filter.mpr ⟨member, decide_eq_true named⟩)

end Valid

/-- `struct { int x; }; typedef int y;` -/
def structX : List Event := [.body none, .field 0 ['x'], .identifier true ['y']]

end Scc.Cc1.Members
