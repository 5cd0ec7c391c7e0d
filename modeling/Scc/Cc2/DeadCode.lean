import Mathlib.Data.Nat.Count
import Scc.Lib.Search
import Scc.Cc2.Op

/-!
# Dead code

`gencfg()` cuts the statements of a function into basic blocks, links them and deletes the blocks that are
not visited from the first one. A block ends before the next entry. A switch ends none: what stands behind
it without being an entry stays in its block. The block of the end of the function has no exit, and
`delrange()` reads behind it.

A statement is named by its place in the list that `optjmps()` leaves, a block by its entry.
-/

namespace Scc.Cc2.DeadCode

open Scc.Lib

set_option autoImplicit false

/-- The record of a switch with `jtarget()` of its nodes. -/
structure Swtch where
  cases : List Nat
  defnode : Option Nat
  eswtch : Nat
deriving DecidableEq

def swtchdefault (swt : Swtch) : Nat := swt.defnode.getD swt.eswtch

/-- A statement with its `jtarget()`, and the record of an `OBSWITCH`. -/
structure Stmt where
  op : Op
  target : Nat
  swtch : Swtch
deriving DecidableEq

def node (op : Op) : Stmt := ⟨op, 0, ⟨[], none, 0⟩⟩

/-- The statements that a statement refers to. -/
def Stmt.targets (np : Stmt) : List Nat :=
  match np.op with
  | .OBSWITCH => np.swtch.cases ++ [swtchdefault np.swtch]
  | .OBRANCH | .OJMP => [np.target]
  | _ => []

def stmtAt (stmts : List Stmt) (i : Nat) : Stmt := stmts.getD i (node .ONOP)

structure Body where
  stmts : List Stmt
  begins : (stmtAt stmts 0).op = .OBFUN
  once : ∀ i < stmts.length, (stmtAt stmts i).op = .OBFUN → i = 0
  ends : (stmtAt stmts (stmts.length - 1)).op = .OEFUN
  /-- Labels are in the list. -/
  inside : ∀ i < stmts.length, ∀ target ∈ (stmtAt stmts i).targets, target < stmts.length
  /-- The default of a switch, or its end, is behind it. -/
  behind : ∀ i < stmts.length, (stmtAt stmts i).op = .OBSWITCH →
    i < swtchdefault (stmtAt stmts i).swtch

variable (body : Body)

def Body.stmt (i : Nat) : Stmt := stmtAt body.stmts i

def Body.size : Nat := body.stmts.length

def Body.laststmt : Nat := body.size - 1

/-- `fun` of the first statements, one after the other. -/
def apply {σ : Type} (fun_ : Nat → σ → σ) : Nat → σ → σ
  | 0, state => state
  | i + 1, state => fun_ i (apply fun_ i state)

/-- The flags of the statements, and the number of the entries. -/
structure Marks where
  BBENTRY : Nat → Bool
  BBEXIT : Nat → Bool
  nr : Nat

def unmarked : Marks := ⟨fun _ => false, fun _ => false, 0⟩

def newentry (np : Nat) (marks : Marks) : Marks :=
  if marks.BBENTRY np then marks
  else
    { BBENTRY := Function.update marks.BBENTRY np true
      BBEXIT := if np = 0 then marks.BBEXIT else Function.update marks.BBEXIT (np - 1) true
      nr := marks.nr + 1 }

/-- Behind a statement that jumps there is another one. -/
def markbb (i : Nat) (marks : Marks) : Marks :=
  match (body.stmt i).op with
  | .OBFUN => newentry i marks
  | .ORET => newentry (i + 1) (newentry body.laststmt marks)
  | .OBSWITCH =>
    let swt := (body.stmt i).swtch
    let marks := { marks with BBEXIT := Function.update marks.BBEXIT i true }
    newentry (swtchdefault swt) (swt.cases.foldl (fun marks np => newentry np marks) marks)
  | .OBRANCH | .OJMP => newentry (i + 1) (newentry (body.stmt i).target marks)
  | _ => marks

structure Block where
  exitp : Option Nat
  onTrue : Option Nat
  onFalse : Option Nat
  swtch : Option Swtch

def Block.empty : Block := ⟨none, none, none, none⟩

/-- The blocks in their order with what is in them, and the block of a statement. -/
structure Cfg where
  nr : Nat
  entryb : Nat
  cur : Nat
  blocks : List Nat
  block : Nat → Block
  bb : Nat → Nat

def Cfg.start : Cfg := ⟨0, 0, 0, [], fun _ => .empty, fun _ => 0⟩

def newbb (np : Nat) (cfg : Cfg) : Cfg :=
  { cfg with
    nr := cfg.nr + 1
    cur := np
    blocks := cfg.blocks ++ [np]
    block := Function.update cfg.block np .empty }

def mkbb (marks : Marks) (i : Nat) (cfg : Cfg) : Cfg :=
  let cfg := if marks.BBENTRY i then newbb i cfg else cfg
  { cfg with bb := Function.update cfg.bb i cfg.cur }

def Cfg.setCur (cfg : Cfg) (change : Block → Block) : Cfg :=
  { cfg with block := Function.update cfg.block cfg.cur (change (cfg.block cfg.cur)) }

def mkcfg (marks : Marks) (i : Nat) (cfg : Cfg) : Cfg :=
  if marks.BBENTRY i = false ∧ marks.BBEXIT i = false then cfg
  else
    let cfg := if marks.BBENTRY i then { cfg with cur := cfg.bb i } else cfg
    let cfg :=
      if marks.BBEXIT i then
        cfg.setCur fun bb => { bb with exitp := some i, onTrue := some (cfg.bb (i + 1)) }
      else cfg
    match (body.stmt i).op with
    | .OBFUN => { cfg with entryb := cfg.cur }
    | .ORET => cfg.setCur fun bb => { bb with onTrue := some (cfg.bb body.laststmt) }
    | .OBSWITCH =>
      cfg.setCur fun bb => { bb with swtch := some (body.stmt i).swtch, onTrue := none }
    | .OBRANCH =>
      cfg.setCur fun bb =>
        { bb with onFalse := some (cfg.bb (i + 1)), onTrue := some (cfg.bb (body.stmt i).target) }
    | .OJMP => cfg.setCur fun bb => { bb with onTrue := some (cfg.bb (body.stmt i).target) }
    | _ => cfg

def Body.marks : Marks := apply (markbb body) body.size unmarked

def Body.made : Cfg := apply (mkbb body.marks) body.size Cfg.start

/-- The assertion on the number of the blocks may fail. -/
def buildcfg : Option Cfg :=
  if body.made.nr = body.marks.nr then some (apply (mkcfg body body.marks) body.size body.made)
  else none

/-- The blocks that `visit()` goes on to from a block, in its order. -/
def Block.succs (bb : Nat → Nat) (block : Block) : List Nat :=
  block.onTrue.toList ++ block.onFalse.toList ++
    match block.swtch with
    | none => []
    | some swt => swt.cases.map bb ++ [bb (swtchdefault swt)]

def Cfg.succs (cfg : Cfg) (bb : Nat) : List Nat := (cfg.block bb).succs cfg.bb

def visit (cfg : Cfg) : List Nat := search cfg.succs body.size [] cfg.entryb

/-- The list without the statements from `begin` to `end`. There is no list when a pointer that is no
statement is followed. -/
def delrange (begin_ : Nat) (end_ : Option Nat) (list : List Nat) : Option (List Nat) :=
  match end_ with
  | none => none
  | some end_ =>
    match (list.dropWhile (· ≠ begin_)).dropWhile (· ≠ end_) with
    | [] => none
    | _ :: rnext => some (list.takeWhile (· ≠ begin_) ++ rnext)

def trimcfg (cfg : Cfg) (visited : List Nat) : List Nat → List Nat → Option (List Nat)
  | [], list => some list
  | bb :: blocks, list =>
    if bb ∈ visited then trimcfg cfg visited blocks list
    else (delrange bb (cfg.block bb).exitp list).bind (trimcfg cfg visited blocks)

def gencfg : Option (List Nat) :=
  (buildcfg body).bind fun cfg =>
    trimcfg cfg (visit body cfg) cfg.blocks (List.range body.size)

/-- Where the control goes from a statement. -/
def Body.next (i : Nat) : List Nat :=
  match (body.stmt i).op with
  | .ORET => [body.laststmt]
  | .OBSWITCH => (body.stmt i).targets
  | .OBRANCH => [(body.stmt i).target, i + 1]
  | .OJMP => [(body.stmt i).target]
  | _ => if i + 1 < body.size then [i + 1] else []

def Body.Reachable (i : Nat) : Prop := Relation.ReflTransGen (Edge body.next) 0 i

/-- Exactly what is unreachable is removed, apart from the two markers. A basic block is reachable when its
statements are. -/
structure RemovesUnreachable (left : List Nat) : Prop where
  order : left.Sublist (List.range body.size)
  reachable : ∀ i, body.Reachable i → i ∈ left
  unreachable : ∀ i ∈ left, i ≠ 0 → i ≠ body.laststmt → body.Reachable i
  begins : 0 ∈ left
  ends : body.laststmt ∈ left

/-- The statements that a statement makes entries. -/
def Body.entries (i : Nat) : List Nat :=
  match (body.stmt i).op with
  | .OBFUN => [i]
  | .ORET => [body.laststmt, i + 1]
  | .OBSWITCH => (body.stmt i).targets
  | .OBRANCH | .OJMP => [(body.stmt i).target, i + 1]
  | _ => []

def Body.IsEntry (np : Nat) : Prop := ∃ i < body.size, np ∈ body.entries i

theorem apply_invariant {σ : Type} {fun_ : Nat → σ → σ} {size : Nat} {start : σ}
    (invariant : Nat → σ → Prop) (initially : invariant 0 start)
    (step : ∀ i state, i < size → invariant i state → invariant (i + 1) (fun_ i state)) :
    invariant size (apply fun_ size start) := by
  have upTo : ∀ k ≤ size, invariant k (apply fun_ k start) := by
    intro k le
    induction k with
    | zero => exact initially
    | succ k ih => exact step k _ (by omega) (ih (by omega))
  exact upTo size (Nat.le_refl size)

variable {body : Body}

theorem Body.size_pos : 0 < body.size := by
  have begins := body.begins
  have ends := body.ends
  unfold Body.size
  by_contra empty
  have none : body.stmts.length - 1 = 0 := by omega
  rw [none, begins] at ends
  cases ends

theorem Body.laststmt_lt : body.laststmt < body.size := by
  have pos := body.size_pos
  unfold Body.laststmt
  omega

variable {i np k b : Nat} {cfg : Cfg}

theorem Body.succ_lt (inside : i < body.size) (notEnd : (body.stmt i).op ≠ .OEFUN) : i + 1 < body.size := by
  have different : i ≠ body.size - 1 := by
    intro last
    rw [last] at notEnd
    exact notEnd body.ends
  omega

theorem entries_inside (inside : i < body.size) (mem : np ∈ body.entries i) : np < body.size := by
  have targets : ∀ target ∈ (body.stmt i).targets, target < body.size := body.inside i inside
  have last := body.laststmt_lt
  have behind := body.succ_lt inside
  unfold Body.entries at mem
  unfold Stmt.targets at targets mem
  split at mem <;> simp_all
  · rcases mem with rfl | rfl <;> assumption
  · rcases mem with rfl | rfl <;> assumption
  · rcases mem with rfl | rfl <;> assumption

theorem newentry_known {marks : Marks} (known : marks.BBENTRY np = true) :
    newentry np marks = marks := if_pos known

theorem newentry_new {marks : Marks} (new : marks.BBENTRY np = false) : newentry np marks =
      { BBENTRY := Function.update marks.BBENTRY np true
        BBEXIT := if np = 0 then marks.BBEXIT else Function.update marks.BBEXIT (np - 1) true
        nr := marks.nr + 1 } := by
  simp [newentry, new]

theorem newentry_entry (np : Nat) (marks : Marks) (i : Nat) :
    (newentry np marks).BBENTRY i = true ↔ marks.BBENTRY i = true ∨ i = np := by
  cases known : marks.BBENTRY np with
  | true =>
    rw [newentry_known known]
    constructor
    · exact Or.inl
    · intro or
      cases or with
      | inl before => exact before
      | inr same => rw [same, known]
  | false =>
    rw [newentry_new known]
    by_cases same : i = np
    · simp [same]
    · simp [same]

theorem newentries_entry (nodes : List Nat) (marks : Marks) (i : Nat) :
    (nodes.foldl (fun marks np => newentry np marks) marks).BBENTRY i = true ↔
      marks.BBENTRY i = true ∨ i ∈ nodes := by
  induction nodes generalizing marks with
  | nil => simp
  | cons np nodes ih =>
    rw [List.foldl_cons, ih, newentry_entry, List.mem_cons, or_assoc]

theorem countP_update {flags : Nat → Bool} {np size : Nat} (inside : np < size) (unset : flags np = false) :
    (List.range size).countP (Function.update flags np true) = (List.range size).countP flags + 1 := by
  induction size with
  | zero => omega
  | succ size ih =>
    rw [List.range_succ, List.countP_append, List.countP_append]
    by_cases last : np = size
    · have before : (List.range size).countP (Function.update flags np true) =
          (List.range size).countP flags := by
        apply List.countP_congr
        intro i mem
        rw [Function.update_of_ne (by rw [List.mem_range] at mem; omega)]
      rw [before, last]
      rw [last] at unset
      simp [unset]
    · rw [ih (by omega)]
      simp only [List.countP_singleton, Function.update_of_ne (Ne.symm last)]
      omega

/-- What holds of the flags besides the entries: a statement is an exit when an entry follows, or when it is
one of the switches. -/
structure Marked (size : Nat) (switches : Nat → Prop) (marks : Marks) : Prop where
  exit : ∀ i, marks.BBEXIT i = true ↔ marks.BBENTRY (i + 1) = true ∨ switches i
  nr : marks.nr = (List.range size).countP marks.BBENTRY

theorem newentry_marked {size np : Nat} {switches : Nat → Prop} {marks : Marks}
    (marked : Marked size switches marks) (inside : np < size) :
    Marked size switches (newentry np marks) := by
  cases known : marks.BBENTRY np with
  | true =>
    rw [newentry_known known]
    exact marked
  | false =>
    constructor
    · intro i
      rw [newentry_entry]
      rw [newentry_new known]
      by_cases begin_ : np = 0
      · simp [begin_, marked.exit]
      · by_cases before : i = np - 1
        · have same : i + 1 = np := by omega
          simp [begin_, ← before, same]
        · have different : i + 1 ≠ np := by omega
          simp [begin_, before, different, marked.exit]
    · rw [newentry_new known]
      dsimp only
      rw [countP_update inside known, marked.nr]

theorem newentries_marked {size : Nat} {switches : Nat → Prop} (nodes : List Nat) {marks : Marks}
    (marked : Marked size switches marks) (inside : ∀ np ∈ nodes, np < size) :
    Marked size switches (nodes.foldl (fun marks np => newentry np marks) marks) := by
  induction nodes generalizing marks with
  | nil => exact marked
  | cons np nodes ih =>
    exact ih (newentry_marked marked (inside np (by simp)))
      (fun other mem => inside other (List.mem_cons_of_mem _ mem))

def Body.switchMark (body : Body) (i : Nat) (marks : Marks) : Marks :=
  if (body.stmt i).op = .OBSWITCH then { marks with BBEXIT := Function.update marks.BBEXIT i true }
  else marks

theorem markbb_eq (i : Nat) (marks : Marks) : markbb body i marks =
      (body.entries i).foldl (fun marks np => newentry np marks) (body.switchMark i marks) := by
  unfold markbb Body.entries Body.switchMark
  split <;> simp_all [Stmt.targets, List.foldl_append]

theorem markbb_entry (i : Nat) (marks : Marks) (np : Nat) :
    (markbb body i marks).BBENTRY np = true ↔ marks.BBENTRY np = true ∨ np ∈ body.entries i := by
  rw [markbb_eq, newentries_entry]
  unfold Body.switchMark
  split_ifs <;> rfl

theorem switchMark_marked {size i : Nat} {switches : Nat → Prop} {marks : Marks}
    (marked : Marked size switches marks) :
    Marked size (fun j => switches j ∨ j = i ∧ (body.stmt i).op = .OBSWITCH) (body.switchMark i marks) := by
  unfold Body.switchMark
  split_ifs with isSwitch
  · constructor
    · intro j
      by_cases same : j = i
      · simp [same, isSwitch]
      · simp [same, marked.exit]
    · exact marked.nr
  · constructor
    · intro j
      simp [isSwitch, marked.exit]
    · exact marked.nr

/-- What the first statements have marked. -/
structure MarkedUpTo (body : Body) (k : Nat) (marks : Marks) : Prop where
  entry : ∀ np, marks.BBENTRY np = true ↔ ∃ i < k, np ∈ body.entries i
  marked : Marked body.size (fun i => i < k ∧ (body.stmt i).op = .OBSWITCH) marks

theorem markbb_step {marks : Marks} (inside : k < body.size)
    (before : MarkedUpTo body k marks) : MarkedUpTo body (k + 1) (markbb body k marks) := by
  constructor
  · intro np
    rw [markbb_entry, before.entry]
    constructor
    · rintro (⟨i, lt, mem⟩ | mem)
      · exact ⟨i, by omega, mem⟩
      · exact ⟨k, by omega, mem⟩
    · rintro ⟨i, lt, mem⟩
      by_cases last : i = k
      · exact Or.inr (last ▸ mem)
      · exact Or.inl ⟨i, by omega, mem⟩
  · have next := newentries_marked (body.entries k)
      (@switchMark_marked body _ k _ _ before.marked)
      (fun np mem => entries_inside inside mem)
    rw [markbb_eq]
    constructor
    · intro i
      rw [next.exit]
      apply or_congr_right
      constructor
      · rintro (⟨lt, isSwitch⟩ | ⟨rfl, isSwitch⟩)
        · exact ⟨by omega, isSwitch⟩
        · exact ⟨by omega, isSwitch⟩
      · rintro ⟨lt, isSwitch⟩
        by_cases last : i = k
        · exact Or.inr ⟨last, last ▸ isSwitch⟩
        · exact Or.inl ⟨by omega, isSwitch⟩
    · exact next.nr

theorem markbb_marked : MarkedUpTo body body.size body.marks := by
  apply apply_invariant (MarkedUpTo body)
  · constructor
    · intro np
      simp [unmarked]
    · constructor
      · intro i
        simp [unmarked]
      · simp [unmarked]
  · intro i marks inside before
    exact markbb_step inside before

theorem marks_entry (np : Nat) : body.marks.BBENTRY np = true ↔ body.IsEntry np :=
  markbb_marked.entry np

theorem marks_exit (i : Nat) : body.marks.BBEXIT i = true ↔
      body.IsEntry (i + 1) ∨ (i < body.size ∧ (body.stmt i).op = .OBSWITCH) := by
  rw [← marks_entry]
  exact markbb_marked.marked.exit i

theorem marks_nr : body.marks.nr = (List.range body.size).countP body.marks.BBENTRY :=
  markbb_marked.marked.nr

theorem isEntry_lt (isEntry : body.IsEntry np) : np < body.size := by
  rcases isEntry with ⟨i, inside, mem⟩
  exact entries_inside inside mem

theorem isEntry_zero : body.IsEntry 0 := by
  refine ⟨0, body.size_pos, ?_⟩
  have begins : (body.stmt 0).op = .OBFUN := body.begins
  simp [Body.entries, begins]

/-- The entry of the block of a statement. -/
def Body.leader (body : Body) : Nat → Nat
  | 0 => 0
  | i + 1 => if body.marks.BBENTRY (i + 1) then i + 1 else body.leader i

theorem leader_le (i : Nat) : body.leader i ≤ i := by
  induction i with
  | zero => exact Nat.le_refl 0
  | succ i ih =>
    unfold Body.leader
    split_ifs
    · exact Nat.le_refl _
    · omega

theorem leader_of_entry (isEntry : body.IsEntry i) : body.leader i = i := by
  cases i with
  | zero => rfl
  | succ i => simp [Body.leader, marks_entry, isEntry]

theorem leader_succ (notEntry : ¬ body.IsEntry (i + 1)) : body.leader (i + 1) = body.leader i := by
  simp [Body.leader, marks_entry, notEntry]

theorem isEntry_leader (i : Nat) : body.IsEntry (body.leader i) := by
  induction i with
  | zero => exact isEntry_zero
  | succ i ih =>
    by_cases isEntry : body.IsEntry (i + 1)
    · rw [leader_of_entry isEntry]
      exact isEntry
    · rw [leader_succ isEntry]
      exact ih

theorem le_leader {i j : Nat} (isEntry : body.IsEntry i) (le : i ≤ j) : i ≤ body.leader j := by
  induction j with
  | zero => omega
  | succ j ih =>
    by_cases next : body.IsEntry (j + 1)
    · rw [leader_of_entry next]
      exact le
    · have different : i ≠ j + 1 := by
        intro same
        exact next (same ▸ isEntry)
      rw [leader_succ next]
      exact ih (by omega)

theorem leader_mono {i j : Nat} (le : i ≤ j) : body.leader i ≤ body.leader j :=
  le_leader (isEntry_leader i) ((leader_le i).trans le)

structure MadeUpTo (body : Body) (k : Nat) (cfg : Cfg) : Prop where
  nr : cfg.nr = (List.range k).countP body.marks.BBENTRY
  blocks : cfg.blocks = (List.range k).filter body.marks.BBENTRY
  bb : ∀ i < k, cfg.bb i = body.leader i
  block : ∀ b, cfg.block b = .empty
  entryb : cfg.entryb = 0
  cur : cfg.cur = body.leader (k - 1)

theorem leader_pred (notEntry : ¬ body.IsEntry k) : body.leader k = body.leader (k - 1) := by
  cases k with
  | zero => exact absurd isEntry_zero notEntry
  | succ k => exact leader_succ notEntry

theorem mkbb_step (before : MadeUpTo body k cfg) : MadeUpTo body (k + 1) (mkbb body.marks k cfg) := by
  have bb : ∀ {new i : Nat}, new = body.leader k → i < k + 1 →
      Function.update cfg.bb k new i = body.leader i := by
    intro new i same lt
    by_cases last : i = k
    · rw [last, Function.update_self, same]
    · rw [Function.update_of_ne last]
      exact before.bb i (by omega)
  unfold mkbb
  cases flag : body.marks.BBENTRY k with
  | true =>
    have same := leader_of_entry ((marks_entry k).mp flag)
    constructor
    · simp [newbb, List.range_succ, before.nr, flag]
    · simp [newbb, List.range_succ, before.blocks, flag]
    · intro i lt
      exact bb same.symm lt
    · intro b
      by_cases new : b = k
      · simp [newbb, new]
      · simp [newbb, new, before.block]
    · exact before.entryb
    · exact same.symm
  | false =>
    have same : body.leader k = body.leader (k - 1) := by
      apply leader_pred
      rw [← marks_entry, flag]
      decide
    constructor
    · simp [List.range_succ, before.nr, flag]
    · simp [List.range_succ, before.blocks, flag]
    · intro i lt
      exact bb (before.cur.trans same.symm) lt
    · exact before.block
    · exact before.entryb
    · exact before.cur.trans same.symm

theorem made_upTo : MadeUpTo body body.size body.made := by
  apply apply_invariant (MadeUpTo body)
  · constructor <;> simp [Cfg.start, Body.leader]
  · intro i cfg inside before
    exact mkbb_step before

theorem made_nr : body.made.nr = body.marks.nr := by
  rw [marks_nr, made_upTo.nr]

theorem mem_made_blocks : b ∈ body.made.blocks ↔ body.IsEntry b := by
  rw [made_upTo.blocks, List.mem_filter, marks_entry, List.mem_range]
  constructor
  · exact And.right
  · intro isEntry
    exact ⟨isEntry_lt isEntry, isEntry⟩

theorem made_blocks_nodup : body.made.blocks.Nodup := by
  rw [made_upTo.blocks]
  exact List.nodup_range.filter _

/-- What `mkcfg()` makes of the block that it is in. -/
def Body.link (body : Body) (i : Nat) (old : Block) : Block :=
  if body.marks.BBENTRY i = false ∧ body.marks.BBEXIT i = false then old
  else
    let bb :=
      if body.marks.BBEXIT i then
        { old with exitp := some i, onTrue := some (body.made.bb (i + 1)) }
      else old
    match (body.stmt i).op with
    | .ORET => { bb with onTrue := some (body.made.bb body.laststmt) }
    | .OBSWITCH => { bb with swtch := some (body.stmt i).swtch, onTrue := none }
    | .OBRANCH =>
      { bb with
        onFalse := some (body.made.bb (i + 1))
        onTrue := some (body.made.bb (body.stmt i).target) }
    | .OJMP => { bb with onTrue := some (body.made.bb (body.stmt i).target) }
    | _ => bb

/-- A block when the first statements have been linked. -/
def Body.linked (body : Body) (b : Nat) : Nat → Block
  | 0 => .empty
  | i + 1 => if body.leader i = b then body.link i (body.linked b i) else body.linked b i

theorem mkcfg_eq (bb : cfg.bb = body.made.bb)
    (cur : (if body.marks.BBENTRY i = true then cfg.bb i else cfg.cur) = body.leader i)
    (first : (body.stmt i).op = .OBFUN → body.leader i = cfg.entryb) : mkcfg body body.marks i cfg =
      { cfg with
        cur := body.leader i
        block := Function.update cfg.block (body.leader i) (body.link i (cfg.block (body.leader i))) } := by
  have state : (if body.marks.BBENTRY i = true then { cfg with cur := cfg.bb i } else cfg) =
      { cfg with cur := body.leader i } := by
    rw [← cur]
    split_ifs <;> rfl
  unfold mkcfg Body.link
  by_cases unflagged : body.marks.BBENTRY i = false ∧ body.marks.BBEXIT i = false
  · rw [if_pos unflagged, if_pos unflagged, Function.update_eq_self, ← state]
    simp [unflagged.1]
  · rw [if_neg unflagged, if_neg unflagged, state]
    cases exit : body.marks.BBEXIT i with
    | true =>
      simp only [if_true, Cfg.setCur, Function.update_self, Function.update_idem, bb]
      split <;> simp_all
    | false =>
      simp only [Bool.false_eq_true, if_false, Cfg.setCur, bb]
      split <;> simp_all

/-- The blocks when the first statements have been linked. -/
structure LinkedUpTo (body : Body) (k : Nat) (cfg : Cfg) : Prop where
  blocks : cfg.blocks = body.made.blocks
  bb : cfg.bb = body.made.bb
  block : ∀ b, cfg.block b = body.linked b k
  entryb : cfg.entryb = 0
  cur : 0 < k → cfg.cur = body.leader (k - 1)

theorem mkcfg_step (inside : k < body.size) (before : LinkedUpTo body k cfg) :
    LinkedUpTo body (k + 1) (mkcfg body body.marks k cfg) := by
  have cur : (if body.marks.BBENTRY k = true then cfg.bb k else cfg.cur) = body.leader k := by
    split_ifs with flag
    · rw [before.bb, made_upTo.bb k inside]
    · have notEntry : ¬ body.IsEntry k := fun entry => flag ((marks_entry k).mpr entry)
      have positive : 0 < k := by
        by_contra zero
        rw [Nat.eq_zero_of_not_pos zero] at notEntry
        exact notEntry isEntry_zero
      rw [before.cur positive, leader_pred notEntry]
  have first : (body.stmt k).op = .OBFUN → body.leader k = cfg.entryb := by
    intro begins
    rw [body.once k inside begins, before.entryb]
    rfl
  rw [mkcfg_eq before.bb cur first]
  constructor
  · exact before.blocks
  · exact before.bb
  · intro b
    rw [Body.linked]
    by_cases here : body.leader k = b
    · simp [here, before.block]
    · simp [here, Function.update_of_ne (Ne.symm here), before.block]
  · exact before.entryb
  · intro positive
    rfl

theorem linked_upTo : LinkedUpTo body body.size (apply (mkcfg body body.marks) body.size body.made) := by
  apply apply_invariant (LinkedUpTo body)
  · constructor
    · rfl
    · rfl
    · exact made_upTo.block
    · exact made_upTo.entryb
    · intro positive
      omega
  · intro i cfg inside before
    exact mkcfg_step inside before

theorem buildcfg_eq : ∃ cfg, buildcfg body = some cfg ∧ LinkedUpTo body body.size cfg :=
  ⟨_, if_pos made_nr, linked_upTo⟩

theorem link_inner (inside : i < body.size) (notExit : body.marks.BBEXIT i = false) (old : Block) :
    body.link i old = old := by
  have notNext : i + 1 ∉ body.entries i := by
    intro mem
    have exit := (marks_exit i).mpr (Or.inl ⟨i, inside, mem⟩)
    rw [notExit] at exit
    cases exit
  have noSwitch : (body.stmt i).op ≠ .OBSWITCH := by
    intro isSwitch
    have exit := (marks_exit i).mpr (Or.inr ⟨inside, isSwitch⟩)
    rw [notExit] at exit
    cases exit
  unfold Body.entries at notNext
  unfold Body.link
  by_cases unflagged : body.marks.BBENTRY i = false ∧ body.marks.BBEXIT i = false
  · rw [if_pos unflagged]
  · rw [if_neg unflagged, notExit]
    simp only [Bool.false_eq_true, if_false]
    split <;> simp_all

theorem linked_empty (inside : k ≤ body.size)
    (inner : ∀ i < k, body.leader i = b → body.marks.BBEXIT i = false) : body.linked b k = .empty := by
  induction k with
  | zero => rfl
  | succ k ih =>
    have before := ih (by omega) (fun i lt => inner i (by omega))
    rw [Body.linked, before]
    split_ifs with here
    · rw [link_inner (by omega) (inner k (by omega) here)]
    · rfl

theorem linked_stays (entry : body.IsEntry (i + 1)) (here : body.leader i = b)
    (le : i + 1 ≤ k) : body.linked b k = body.linked b (i + 1) := by
  induction k, le using Nat.le_induction with
  | base => rfl
  | succ k le ih =>
    have later : body.leader k ≠ b := by
      have := le_leader entry le
      have := @leader_le body i
      omega
    rw [Body.linked, if_neg later, ih]

theorem linked_last (entry : body.IsEntry (i + 1)) (here : body.leader i = b) :
    body.linked b body.size = body.link i (body.linked b i) := by
  have inside := isEntry_lt entry
  rw [linked_stays entry here (by omega), Body.linked, if_pos here]

theorem linked_exitp (entry : body.IsEntry (i + 1)) (here : body.leader i = b) :
    (body.linked b body.size).exitp = some i := by
  have exit : body.marks.BBEXIT i = true := (marks_exit i).mpr (Or.inl entry)
  rw [linked_last entry here]
  unfold Body.link
  simp only [exit, Bool.true_eq_false, and_false, if_false, if_true]
  split <;> rfl

theorem leader_switch (inside : i < body.size) (isSwitch : (body.stmt i).op = .OBSWITCH) :
    body.leader i < body.leader body.laststmt := by
  have behind : i < swtchdefault (body.stmt i).swtch := body.behind i inside isSwitch
  have entry : body.IsEntry (swtchdefault (body.stmt i).swtch) := by
    refine ⟨i, inside, ?_⟩
    simp [Body.entries, Stmt.targets, isSwitch]
  have later : swtchdefault (body.stmt i).swtch ≤ body.laststmt := by
    have := isEntry_lt entry
    unfold Body.laststmt
    omega
  have := le_leader entry later
  have := @leader_le body i
  omega

theorem linked_end : body.linked (body.leader body.laststmt) body.size = .empty := by
  apply linked_empty (Nat.le_refl _)
  intro i inside here
  rw [Bool.eq_false_iff, Ne, marks_exit]
  rintro (entry | ⟨_, isSwitch⟩)
  · have lt := isEntry_lt entry
    have le : i + 1 ≤ body.laststmt := by
      unfold Body.laststmt
      omega
    have := le_leader entry le
    have := @leader_le body i
    omega
  · have := leader_switch inside isSwitch
    omega

theorem next_inside (inside : i < body.size) (mem : np ∈ body.next i) : np < body.size := by
  have targets : ∀ target ∈ (body.stmt i).targets, target < body.size := body.inside i inside
  have last := body.laststmt_lt
  have behind := body.succ_lt inside
  unfold Body.next at mem
  unfold Stmt.targets at targets mem
  split at mem <;> simp_all
  rcases mem with rfl | rfl <;> assumption

theorem reachable_lt (reachable : body.Reachable i) : i < body.size := by
  induction reachable with
  | refl => exact body.size_pos
  | tail _ edge ih => exact next_inside ih edge

theorem made_bb_lt (inside : i < body.size) : body.made.bb i < body.size := by
  rw [made_upTo.bb i inside]
  exact (leader_le i).trans_lt inside

structure Within (body : Body) (block : Block) : Prop where
  onTrue : ∀ b, block.onTrue = some b → b < body.size
  onFalse : ∀ b, block.onFalse = some b → b < body.size
  swtch : ∀ swt, block.swtch = some swt →
    ∀ target ∈ swt.cases ++ [swtchdefault swt], body.made.bb target < body.size

theorem Within.succs_lt {block : Block} (within : Within body block) :
    ∀ b ∈ block.succs body.made.bb, b < body.size := by
  intro b mem
  simp only [Block.succs, List.mem_append, Option.mem_toList] at mem
  rcases mem with (onTrue | onFalse) | switch
  · exact within.onTrue b onTrue
  · exact within.onFalse b onFalse
  · cases found : block.swtch with
    | none => simp [found] at switch
    | some swt =>
      have targets := within.swtch swt found
      simp only [found, List.mem_append, List.mem_map, List.mem_singleton] at switch targets
      rcases switch with ⟨target, isCase, rfl⟩ | rfl
      · exact targets target (Or.inl isCase)
      · exact targets _ (Or.inr rfl)

theorem link_within (inside : i < body.size) {old : Block} (before : Within body old) :
    Within body (body.link i old) := by
  have targets : ∀ target ∈ (body.stmt i).targets, body.made.bb target < body.size :=
    fun target mem => made_bb_lt (body.inside i inside target mem)
  have last := made_bb_lt body.laststmt_lt
  have behind : (body.stmt i).op ≠ .OEFUN → body.made.bb (i + 1) < body.size :=
    fun notEnd => made_bb_lt (body.succ_lt inside notEnd)
  have exited : Within body (if body.marks.BBEXIT i = true then
      { old with exitp := some i, onTrue := some (body.made.bb (i + 1)) } else old) := by
    split_ifs with exit
    · refine ⟨?_, before.onFalse, before.swtch⟩
      rintro b ⟨⟩
      rcases (marks_exit i).mp exit with entry | ⟨_, isSwitch⟩
      · exact made_bb_lt (isEntry_lt entry)
      · exact behind (by simp [isSwitch])
    · exact before
  unfold Stmt.targets at targets
  unfold Body.link
  generalize (if body.marks.BBEXIT i = true then
      { old with exitp := some i, onTrue := some (body.made.bb (i + 1)) } else old) = bb at *
  by_cases unflagged : body.marks.BBENTRY i = false ∧ body.marks.BBEXIT i = false
  · rw [if_pos unflagged]
    exact before
  · rw [if_neg unflagged]
    have onFalse := exited.onFalse
    have swtch := exited.swtch
    split <;> first | exact exited | constructor <;> simp_all

theorem linked_within (b k : Nat) (le : k ≤ body.size) : Within body (body.linked b k) := by
  induction k with
  | zero => constructor <;> simp [Body.linked, Block.empty]
  | succ k ih =>
    rw [Body.linked]
    split_ifs with here
    · exact link_within (by omega) (ih (by omega))
    · exact ih (by omega)

theorem mem_visit (linked : LinkedUpTo body body.size cfg) (b : Nat) :
    b ∈ visit body cfg ↔ Relation.ReflTransGen (Edge cfg.succs) 0 b := by
  unfold visit
  rw [linked.entryb]
  apply mem_search (Finset.range body.size)
  · intro b _ c edge
    rw [Finset.mem_range]
    apply (linked_within b body.size (Nat.le_refl _)).succs_lt
    rw [← linked.block, ← linked.bb]
    exact edge
  · simp
  · simp [body.size_pos]

theorem next_inner (inside : i < body.size) (mem : np ∈ body.next i)
    (notEntry : ¬ body.IsEntry np) : np = i + 1 ∧ (body.stmt i).op ≠ .OBSWITCH := by
  have notMade : np ∉ body.entries i := fun made => notEntry ⟨i, inside, made⟩
  unfold Body.next at mem
  unfold Body.entries at notMade
  split at mem <;> simp_all

theorem next_entry (inside : i < body.size) (mem : np ∈ body.next i)
    (entry : body.IsEntry np) : body.IsEntry (i + 1) ∨ (body.stmt i).op = .OBSWITCH := by
  by_cases exit : i + 1 ∈ body.entries i
  · exact Or.inl ⟨i, inside, exit⟩
  · unfold Body.next at mem
    unfold Body.entries at exit
    split at mem <;> simp_all

theorem entry_of_next (inside : i < body.size) (mem : np ∈ body.next i)
    (exit : body.IsEntry (i + 1)) : body.IsEntry np := by
  by_contra notEntry
  have same := (next_inner inside mem notEntry).1
  rw [same] at notEntry
  exact notEntry exit

/-- Inside a block control goes on to the next statement, unless there is a switch. -/
theorem next_of_inner (inside : i + 1 < body.size) (notEntry : ¬ body.IsEntry (i + 1))
    (noSwitch : (body.stmt i).op ≠ .OBSWITCH) : i + 1 ∈ body.next i := by
  have notMade : i + 1 ∉ body.entries i := fun made => notEntry ⟨i, by omega, made⟩
  unfold Body.entries at notMade
  unfold Body.next
  split <;> simp_all

theorem succs_last (linked : LinkedUpTo body body.size cfg) (exit : body.IsEntry (i + 1))
    (inner : ∀ j < i, body.leader j = body.leader i → (body.stmt j).op ≠ .OBSWITCH) :
    cfg.succs (body.leader i) = (body.next i).map body.leader := by
  have inside := isEntry_lt exit
  have empty : body.linked (body.leader i) i = .empty := by
    apply linked_empty (by omega)
    intro j lt here
    rw [Bool.eq_false_iff, Ne, marks_exit]
    rintro (entry | ⟨_, isSwitch⟩)
    · have := le_leader entry (Nat.succ_le_of_lt lt)
      have := @leader_le body j
      omega
    · exact inner j lt here isSwitch
  have leaders : (body.next i).map body.leader = (body.next i).map body.made.bb := by
    apply List.map_congr_left
    intro np mem
    rw [made_upTo.bb np (next_inside (by omega) mem)]
  have exits : body.marks.BBEXIT i = true := (marks_exit i).mpr (Or.inl exit)
  rw [leaders]
  unfold Cfg.succs
  rw [linked.block, linked.bb, linked_last exit rfl, empty]
  unfold Body.link Body.next
  simp only [exits, Bool.true_eq_false, and_false, if_false, if_true, Block.empty]
  split <;> simp_all [Block.succs, Stmt.targets]

/-- A switch whose block goes on behind it. -/
def Body.GoesOn (body : Body) (k : Nat) : Prop :=
  (body.stmt k).op = .OBSWITCH ∧ ¬ body.IsEntry (k + 1)

theorem not_reachable_behind (goesOn : body.GoesOn k) : ¬ body.Reachable (k + 1) := by
  intro reachable
  rcases Relation.ReflTransGen.cases_tail reachable with first | ⟨i, before, edge⟩
  · omega
  · have inner := next_inner (reachable_lt before) edge goesOn.2
    have same : i = k := by omega
    rw [same] at inner
    exact inner.2 goesOn.1

theorem exists_last (entry : body.IsEntry b) (notEnd : b ≠ body.leader body.laststmt) :
    ∃ i, body.leader i = b ∧ body.IsEntry (i + 1) := by
  have le : b ≤ body.laststmt := by
    have := isEntry_lt entry
    unfold Body.laststmt
    omega
  have later : ∃ e, body.IsEntry e ∧ b < e := by
    refine ⟨body.leader body.laststmt, isEntry_leader _, ?_⟩
    have := le_leader entry le
    omega
  classical
  have spec := Nat.find_spec later
  refine ⟨Nat.find later - 1, ?_, ?_⟩
  · have least := Nat.find_min (m := body.leader (Nat.find later - 1)) later
    have := @leader_le body (Nat.find later - 1)
    have := le_leader entry (Nat.le_sub_one_of_lt spec.2)
    by_contra different
    exact least (by omega) ⟨isEntry_leader _, by omega⟩
  · rw [Nat.sub_add_cancel (by omega)]
    exact spec.1

/-- In a reachable block everything is reachable, unless it goes on behind a switch. -/
theorem block_reachable (reachable : body.Reachable b)
    (quiet : ∀ k < body.size, body.leader k = b → body.Reachable k → ¬ body.GoesOn k) (i : Nat)
    (inside : i < body.size) (here : body.leader i = b) : body.Reachable i := by
  induction i with
  | zero => exact Relation.ReflTransGen.refl
  | succ i ih =>
    by_cases next : body.IsEntry (i + 1)
    · rw [leader_of_entry next] at here
      rw [here]
      exact reachable
    · rw [leader_succ next] at here
      have before := ih (by omega) here
      have noSwitch : (body.stmt i).op ≠ .OBSWITCH :=
        fun isSwitch => quiet i (by omega) here before ⟨isSwitch, next⟩
      exact before.tail (next_of_inner inside next noSwitch)

theorem edge_of_calm (linked : LinkedUpTo body body.size cfg) {b c : Nat}
    (isBlock : body.IsEntry b) (calm : ∀ k < body.size, body.leader k = b → ¬ body.GoesOn k)
    (edge : Edge cfg.succs b c) : ∃ i < body.size, body.leader i = b ∧ c ∈ body.next i ∧ body.IsEntry c := by
  have notEnd : b ≠ body.leader body.laststmt := by
    intro same
    unfold Edge Cfg.succs at edge
    rw [linked.block, same, linked_end] at edge
    simp [Block.succs, Block.empty] at edge
  rcases exists_last isBlock notEnd with ⟨i, here, exit⟩
  have inside := isEntry_lt exit
  have inner : ∀ j < i, body.leader j = body.leader i → (body.stmt j).op ≠ .OBSWITCH := by
    intro j lt same isSwitch
    apply calm j (by omega) (same.trans here)
    refine ⟨isSwitch, ?_⟩
    intro entry
    have := le_leader entry (Nat.succ_le_of_lt lt)
    have := @leader_le body j
    omega
  unfold Edge at edge
  rw [← here, succs_last linked exit inner, List.mem_map] at edge
  rcases edge with ⟨np, mem, same⟩
  have entry := entry_of_next (by omega) mem exit
  rw [leader_of_entry entry] at same
  exact ⟨i, by omega, here, same ▸ mem, same ▸ entry⟩

theorem reachable_of_visited (linked : LinkedUpTo body body.size cfg)
    (quiet : ∀ k < body.size, body.leader k ∈ visit body cfg → body.Reachable k → ¬ body.GoesOn k)
    (visited : b ∈ visit body cfg) :
    body.IsEntry b ∧ ∀ i < body.size, body.leader i = b → body.Reachable i := by
  rw [mem_visit linked] at visited
  induction visited with
  | refl =>
    refine ⟨isEntry_zero, block_reachable Relation.ReflTransGen.refl ?_⟩
    intro k lt first
    apply quiet k lt
    rw [mem_visit linked, first]
  | @tail b c path edge ih =>
    have calm : ∀ k < body.size, body.leader k = b → ¬ body.GoesOn k := by
      intro k lt same
      apply quiet k lt _ (ih.2 k lt same)
      rw [mem_visit linked, same]
      exact path
    rcases edge_of_calm linked ih.1 calm edge with ⟨i, inside, here, next, entry⟩
    refine ⟨entry, block_reachable ((ih.2 i inside here).tail next) ?_⟩
    intro k lt same
    apply quiet k lt
    rw [mem_visit linked, same]
    exact path.tail edge

theorem visited_of_reachable (linked : LinkedUpTo body body.size cfg)
    (calm : ∀ k < body.size, body.leader k ∈ visit body cfg → ¬ body.GoesOn k)
    (reachable : body.Reachable i) : body.leader i ∈ visit body cfg := by
  induction reachable with
  | refl =>
    rw [mem_visit linked]
    exact Relation.ReflTransGen.refl
  | @tail i j before next ih =>
    have inside := reachable_lt before
    by_cases entry : body.IsEntry j
    · have exit : body.IsEntry (i + 1) := by
        rcases next_entry inside next entry with exit | isSwitch
        · exact exit
        · by_contra notExit
          exact calm i inside ih ⟨isSwitch, notExit⟩
      have inner : ∀ k < i, body.leader k = body.leader i → (body.stmt k).op ≠ .OBSWITCH := by
        intro k lt same isSwitch
        apply calm k (by omega) (same ▸ ih)
        refine ⟨isSwitch, ?_⟩
        intro between
        have := le_leader between (Nat.succ_le_of_lt lt)
        have := @leader_le body k
        omega
      rw [mem_visit linked] at ih ⊢
      apply ih.tail
      unfold Edge
      rw [succs_last linked exit inner]
      exact List.mem_map_of_mem next
    · have same := (next_inner inside next entry).1
      rw [same] at entry ⊢
      rw [leader_succ entry]
      exact ih

theorem delrange_append {begin_ end_ : Nat} {before inner behind : List Nat}
    (notBefore : begin_ ∉ before) (head : (inner ++ [end_]).head? = some begin_) (notInner : end_ ∉ inner) :
    delrange begin_ (some end_) (before ++ (inner ++ end_ :: behind)) = some (before ++ behind) := by
  have start : ∃ rest, inner ++ end_ :: behind = begin_ :: rest := by
    cases inner with
    | nil =>
      simp only [List.nil_append, List.head?_cons, Option.some.injEq] at head
      exact ⟨behind, by simp [head]⟩
    | cons first inner =>
      simp only [List.cons_append, List.head?_cons, Option.some.injEq] at head
      exact ⟨inner ++ end_ :: behind, by simp [head]⟩
  have others : ∀ x ∈ before, (decide (x ≠ begin_)) = true := by
    intro x mem
    rw [decide_eq_true_eq]
    intro same
    exact notBefore (same ▸ mem)
  have inners : ∀ x ∈ inner, (decide (x ≠ end_)) = true := by
    intro x mem
    rw [decide_eq_true_eq]
    intro same
    exact notInner (same ▸ mem)
  have drop : (before ++ (inner ++ end_ :: behind)).dropWhile (· ≠ begin_) = inner ++ end_ :: behind := by
    rw [List.dropWhile_append_of_pos others]
    rcases start with ⟨rest, same⟩
    rw [same]
    simp
  have take : (before ++ (inner ++ end_ :: behind)).takeWhile (· ≠ begin_) = before := by
    rw [List.takeWhile_append_of_pos others]
    rcases start with ⟨rest, same⟩
    rw [same]
    simp
  unfold delrange
  dsimp only
  rw [drop, take, List.dropWhile_append_of_pos inners]
  simp

theorem delrange_filter {begin_ end_ size : Nat} {keep : Nat → Bool} (le : begin_ ≤ end_)
    (inside : end_ < size) (kept : ∀ i, begin_ ≤ i → i ≤ end_ → keep i = true) :
    delrange begin_ (some end_) ((List.range size).filter keep) =
      some ((List.range size).filter fun i => keep i && !(decide (begin_ ≤ i) && decide (i ≤ end_))) := by
  obtain ⟨len, rfl⟩ := Nat.exists_eq_add_of_le le
  obtain ⟨rest, rfl⟩ := Nat.exists_eq_add_of_lt inside
  have parts : List.range (begin_ + len + rest + 1) =
      List.range' 0 begin_ ++ (List.range' begin_ len ++
        (begin_ + len) :: List.range' (begin_ + len + 1) rest) := by
    have last : (begin_ + len) :: List.range' (begin_ + len + 1) rest =
        List.range' (begin_ + len) (rest + 1) := List.range'_succ.symm
    have from_ := List.range'_append_1 (s := 0) (m := begin_) (n := len + (rest + 1))
    rw [Nat.zero_add] at from_
    rw [last, List.range'_append_1, from_, List.range_eq_range']
    congr 1
    omega
  have inner : (List.range' begin_ len).filter keep = List.range' begin_ len := by
    rw [List.filter_eq_self]
    intro i mem
    rw [List.mem_range'_1] at mem
    exact kept i mem.1 (by omega)
  have kept_end : keep (begin_ + len) = true := kept _ (by omega) (by omega)
  have outside : ∀ list : List Nat, (∀ i ∈ list, i < begin_ ∨ begin_ + len < i) →
      list.filter (fun i => keep i && !(decide (begin_ ≤ i) && decide (i ≤ begin_ + len))) =
        list.filter keep := by
    intro list apart
    apply List.filter_congr
    intro i mem
    have := apart i mem
    have out : (decide (begin_ ≤ i) && decide (i ≤ begin_ + len)) = false := by
      simp only [Bool.and_eq_false_iff, decide_eq_false_iff_not]
      omega
    rw [out, Bool.not_false, Bool.and_true]
  have gone : (List.range' begin_ len).filter
      (fun i => keep i && !(decide (begin_ ≤ i) && decide (i ≤ begin_ + len))) = [] := by
    rw [List.filter_eq_nil_iff]
    intro i mem
    rw [List.mem_range'_1] at mem
    have first : begin_ ≤ i := mem.1
    have last : i ≤ begin_ + len := by omega
    simp [first, last]
  rw [parts]
  simp only [List.filter_append, List.filter_cons, kept_end, if_true, inner, gone]
  rw [delrange_append]
  · rw [outside, outside]
    · simp
    · intro i mem
      rw [List.mem_range'_1] at mem
      omega
    · intro i mem
      rw [List.mem_range'_1] at mem
      omega
  · intro mem
    have before := List.mem_range'_1.mp (List.mem_of_mem_filter mem)
    omega
  · cases len with
    | zero => simp
    | succ len => simp [List.range'_succ]
  · intro mem
    have before := List.mem_range'_1.mp mem
    omega

theorem trimcfg_filter {visited blocks : List Nat} (keep : Nat → Bool) (nodup : blocks.Nodup)
    (range : ∀ b ∈ blocks, b ∉ visited → ∃ i, (cfg.block b).exitp = some i ∧ b ≤ i ∧ i < body.size ∧
      ∀ j < body.size, body.leader j = b ↔ b ≤ j ∧ j ≤ i)
    (kept : ∀ i < body.size, body.leader i ∈ blocks → keep i = true) :
    trimcfg cfg visited blocks ((List.range body.size).filter keep) =
      some ((List.range body.size).filter fun i =>
        keep i && (decide (body.leader i ∉ blocks) || decide (body.leader i ∈ visited))) := by
  induction blocks generalizing keep with
  | nil => simp [trimcfg]
  | cons b blocks ih =>
    rw [List.nodup_cons] at nodup
    have others : ∀ c ∈ blocks, c ∉ visited → _ := fun c mem => range c (List.mem_cons_of_mem b mem)
    unfold trimcfg
    split_ifs with known
    · rw [ih keep nodup.2 others (fun i lt mem => kept i lt (List.mem_cons_of_mem b mem))]
      congr 1
      apply List.filter_congr
      intro i mem
      by_cases same : body.leader i = b
      · simp [same, known]
      · simp [same]
    · rcases range b (by simp) known with ⟨last, exitp, le, lt, block⟩
      have whole : ∀ i, b ≤ i → i ≤ last → keep i = true := by
        intro i first le
        apply kept i (by omega)
        rw [(block i (by omega)).mpr ⟨first, le⟩]
        simp
      rw [exitp, delrange_filter le lt whole, Option.bind_some, ih _ nodup.2 others]
      · congr 1
        apply List.filter_congr
        intro i mem
        rw [List.mem_range] at mem
        by_cases same : body.leader i = b
        · have here := (block i mem).mp same
          simp [same, known, here.1, here.2]
        · have apart : (decide (b ≤ i) && decide (i ≤ last)) = false := by
            rw [← Bool.not_eq_true, Bool.and_eq_true, decide_eq_true_eq, decide_eq_true_eq]
            exact fun both => same ((block i mem).mpr both)
          simp [same, apart]
      · intro i lt mem
        have apart : body.leader i ≠ b := by
          intro same
          exact nodup.1 (same ▸ mem)
        have out : (decide (b ≤ i) && decide (i ≤ last)) = false := by
          rw [← Bool.not_eq_true, Bool.and_eq_true, decide_eq_true_eq, decide_eq_true_eq]
          exact fun both => apart ((block i lt).mpr both)
        rw [kept i lt (List.mem_cons_of_mem b mem), out]
        rfl

theorem trimcfg_none {visited blocks list : List Nat} (mem : b ∈ blocks)
    (notVisited : b ∉ visited) (noExit : (cfg.block b).exitp = none) :
    trimcfg cfg visited blocks list = none := by
  induction blocks generalizing list with
  | nil => cases mem
  | cons c blocks ih =>
    unfold trimcfg
    by_cases same : c = b
    · rw [same, if_neg notVisited, noExit]
      rfl
    · have later : b ∈ blocks := List.mem_of_ne_of_mem (Ne.symm same) mem
      split_ifs with known
      · exact ih later
      · cases deleted : delrange c (cfg.block c).exitp list with
        | none => rfl
        | some left => exact ih later

theorem block_range (linked : LinkedUpTo body body.size cfg) (entry : body.IsEntry b)
    (notEnd : b ≠ body.leader body.laststmt) : ∃ i, (cfg.block b).exitp = some i ∧ b ≤ i ∧ i < body.size ∧
      ∀ j < body.size, body.leader j = b ↔ b ≤ j ∧ j ≤ i := by
  rcases exists_last entry notEnd with ⟨i, here, exit⟩
  have exitp : (cfg.block b).exitp = some i := by
    rw [linked.block]
    exact linked_exitp exit here
  have le : b ≤ i := here ▸ leader_le i
  have inside := isEntry_lt exit
  refine ⟨i, exitp, le, by omega, ?_⟩
  intro j lt
  constructor
  · intro same
    refine ⟨same ▸ leader_le j, ?_⟩
    by_contra later
    have := le_leader exit (Nat.lt_of_not_le later)
    omega
  · rintro ⟨first, last⟩
    have := le_leader entry first
    have := @leader_mono body _ _ last
    omega

theorem gencfg_eq (built : buildcfg body = some cfg) (linked : LinkedUpTo body body.size cfg) : gencfg body =
      if body.leader body.laststmt ∈ visit body cfg then
        some ((List.range body.size).filter fun i => decide (body.leader i ∈ visit body cfg)) else none := by
  unfold gencfg
  rw [built, Option.bind_some, linked.blocks]
  split_ifs with endVisited
  · have deleted : ∀ b ∈ body.made.blocks, b ∉ visit body cfg → _ := fun b mem notVisited =>
      block_range linked (mem_made_blocks.mp mem) (fun same => notVisited (same ▸ endVisited))
    have trimmed := trimcfg_filter (fun _ => true) made_blocks_nodup deleted (fun _ _ _ => rfl)
    rw [List.filter_true] at trimmed
    rw [trimmed]
    congr 1
    apply List.filter_congr
    intro i mem
    have isBlock : body.leader i ∈ body.made.blocks := mem_made_blocks.mpr (isEntry_leader i)
    simp [isBlock]
  · apply trimcfg_none (mem_made_blocks.mpr (isEntry_leader _)) endVisited
    rw [linked.block, linked_end]
    rfl

/-- Dead code is removed exactly when the end of the function is reachable and no reachable switch goes on:
what stands behind it must be an entry. -/
theorem removes_iff (body : Body) : (∃ left, gencfg body = some left ∧ RemovesUnreachable body left) ↔
      body.Reachable body.laststmt ∧
        ∀ i < body.size, (body.stmt i).op = .OBSWITCH → body.Reachable i → body.IsEntry (i + 1) := by
  rcases @buildcfg_eq body with ⟨cfg, built, linked⟩
  rw [gencfg_eq built linked]
  constructor
  · rintro ⟨left, trimmed, removes⟩
    split_ifs at trimmed with endVisited
    rw [Option.some.injEq] at trimmed
    have calm : ∀ k < body.size, body.leader k ∈ visit body cfg → ¬ body.GoesOn k := by
      intro k inside visited goesOn
      have behind := body.succ_lt inside (by simp [goesOn.1])
      have stays : k + 1 ∈ left := by
        rw [← trimmed, List.mem_filter, List.mem_range, leader_succ goesOn.2]
        exact ⟨behind, by simpa using visited⟩
      have notLast : k + 1 ≠ body.laststmt := by
        intro last
        have := leader_switch inside goesOn.1
        rw [← last, leader_succ goesOn.2] at this
        omega
      exact not_reachable_behind goesOn (removes.unreachable (k + 1) stays (by omega) notLast)
    constructor
    · have quiet : ∀ k < body.size, body.leader k ∈ visit body cfg → body.Reachable k →
          ¬ body.GoesOn k := fun k inside visited _ => calm k inside visited
      exact (reachable_of_visited linked quiet endVisited).2 _ body.laststmt_lt rfl
    · intro i inside isSwitch reachable
      by_contra notEntry
      exact calm i inside (visited_of_reachable linked calm reachable) ⟨isSwitch, notEntry⟩
  · rintro ⟨endReachable, entries⟩
    have quiet : ∀ k < body.size, body.leader k ∈ visit body cfg → body.Reachable k →
        ¬ body.GoesOn k :=
      fun k inside _ reachable goesOn => goesOn.2 (entries k inside goesOn.1 reachable)
    have calm : ∀ k < body.size, body.leader k ∈ visit body cfg → ¬ body.GoesOn k := by
      intro k inside visited goesOn
      have reachable := (reachable_of_visited linked quiet visited).2 k inside rfl
      exact goesOn.2 (entries k inside goesOn.1 reachable)
    have endVisited := visited_of_reachable linked calm endReachable
    rw [if_pos endVisited]
    refine ⟨_, rfl, ?_⟩
    have stays : ∀ i, body.Reachable i → i ∈ (List.range body.size).filter fun i =>
        decide (body.leader i ∈ visit body cfg) := by
      intro i reachable
      rw [List.mem_filter, List.mem_range]
      exact ⟨reachable_lt reachable, by simpa using visited_of_reachable linked calm reachable⟩
    constructor
    · exact List.filter_sublist
    · exact stays
    · intro i mem notFirst notLast
      rw [List.mem_filter, List.mem_range, decide_eq_true_eq] at mem
      exact (reachable_of_visited linked quiet mem.2).2 i mem.1 rfl
    · exact stays 0 Relation.ReflTransGen.refl
    · exact stays body.laststmt endReachable

/-- `for (;;);` as the whole of a function. -/
def endless : Body where
  stmts := [node .OBFUN, node .ONOP, ⟨.OJMP, 1, ⟨[], none, 0⟩⟩, node .OEFUN]
  begins := by decide
  once := by decide
  ends := by decide
  inside := by decide
  behind := by decide

/-- There `delrange()` reads behind the exit that the last block does not have. -/
theorem endless_fails : ¬ ∃ left, gencfg endless = some left ∧ RemovesUnreachable endless left := by
  rintro ⟨left, trimmed, _⟩
  have none : gencfg endless = none := by decide
  rw [none] at trimmed
  cases trimmed

/-- A switch that returns in all cases, as the first statement of another one. -/
def nested : Body where
  stmts :=
    [node .OBFUN, ⟨.OBSWITCH, 0, ⟨[6], none, 8⟩⟩, ⟨.OBSWITCH, 0, ⟨[3], some 4, 5⟩⟩, node .ORET,
      node .ORET, node .ONOP, node .ONOP, node .ORET, node .ONOP, node .OEFUN]
  begins := by decide
  once := by decide
  ends := by decide
  inside := by decide
  behind := by decide

-- Both switches are in one block, which keeps the record of the second one: the case of the first one is
-- deleted.
example : gencfg nested = some [0, 1, 2, 3, 4, 9] := by decide +kernel

end Scc.Cc2.DeadCode
