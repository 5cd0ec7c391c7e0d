import Mathlib.Data.Int.ModEq
import Mathlib.Data.Finset.Max
import Scc.Lib.Slots
import Scc.Cc2.Op

/-!
# The lowering of a switch

The cases of a switch come as constants in hexadecimal, the low bits of their values. The parser collects
them with their smallest and their largest one, sorts them, and the lowering makes a chain of comparisons
or a table of labels from them. The chain compares the low bits and is always right. The table is filled
while a value counts from the smallest constant to the largest one, and the constant that comes next waits
for its turn: behind a constant that occurs twice it waits for ever.
-/

namespace Scc.Cc2.SwitchLowering

open Scc.Lib

set_option autoImplicit false

structure IntType where
  size : Nat
  pos : 0 < size
  le : size ≤ 4

variable {type : IntType}

def IntType.values (type : IntType) : Nat := 2 ^ (8 * type.size)

def IntType.InRange (type : IntType) (value : Int) : Prop :=
  -(type.values : Int) ≤ 2 * value ∧ 2 * value < type.values

structure Label where
  value : Int
  label : Sym
deriving DecidableEq

/-- A switch with its cases in the order of the source. Every label is a new one. -/
structure Switch (type : IntType) where
  cases : List Label
  defnode : Option Sym
  eswtch : Sym
  inRange : ∀ c ∈ cases, type.InRange c.value
  distinct : (eswtch :: (defnode.toList ++ cases.map Label.label)).Nodup

/-- The default, or the end of the switch. -/
def Switch.otherwise (switch : Switch type) : Sym := switch.defnode.getD switch.eswtch

def Switch.Selects (switch : Switch type) (value : Int) (label : Sym) : Prop :=
  (∃ c ∈ switch.cases, c.value = value ∧ c.label = label) ∨
    (∀ c ∈ switch.cases, c.value ≠ value) ∧ label = switch.otherwise

/-- The conversion to `TINT`. -/
def TINT (value : Int) : Int := Int.bmod value (2 ^ 64)

def TINT_MAX : Int := 2 ^ 63 - 1
def TINT_MIN : Int := -2 ^ 63

/-- The bits of a constant that are written in hexadecimal and that `constant()` reads. -/
def IntType.constant (type : IntType) (value : Int) : Nat := (value % type.values).toNat

/-- The node of a case, with `u.i` of its constant. -/
structure Case where
  i : Nat
  label : Sym
deriving DecidableEq

structure Swtch where
  nr : Nat
  min : Int
  max : Int
  cases : List Case
  defnode : Option Sym
  eswtch : Sym

def bswitch (eswtch : Sym) : Swtch where
  nr := 0
  min := TINT_MAX
  max := TINT_MIN
  cases := []
  defnode := none
  eswtch := eswtch

def addcase (cur : Swtch) (np : Case) : Swtch :=
  let val := TINT np.i
  { cur with
    nr := cur.nr + 1
    cases := cur.cases ++ [np]
    min := if val < cur.min then val else cur.min
    max := if val > cur.max then val else cur.max }

def cmpcase (p1 p2 : Case) : Int :=
  let d := TINT (p1.i - p2.i)
  if d < 0 then -1 else if d > 0 then 1 else 0

/-- `qsort()` with `cmpcase()`: it orders the elements where the comparison does. -/
structure Qsort where
  sort : List Case → List Case
  perm : ∀ cases, (sort cases).Perm cases
  ordered : ∀ cases, (∀ a ∈ cases, ∀ b ∈ cases, cmpcase a b = -cmpcase b a) →
    (∀ a ∈ cases, ∀ b ∈ cases, ∀ c ∈ cases, cmpcase a b ≤ 0 → cmpcase b c ≤ 0 → cmpcase a c ≤ 0) →
      (sort cases).Pairwise fun a b => cmpcase a b ≤ 0

def Switch.nodes (switch : Switch type) : List Case :=
  switch.cases.map fun c => ⟨type.constant c.value, c.label⟩

/-- From `bswitch()` to `eswitch()`. -/
def eswitch (qsort : Qsort) (switch : Switch type) : Swtch :=
  let cur := switch.nodes.foldl addcase (bswitch switch.eswtch)
  { cur with cases := qsort.sort cur.cases, defnode := switch.defnode }

def swtchdefault (swt : Swtch) : Sym := swt.defnode.getD swt.eswtch

inductive Stmt
  /-- The controlling expression is assigned to the temporary. -/
  | assign
  /-- A branch, if the constant and the temporary are equal. -/
  | branch (i : Nat) (label : Sym)
  | jmp (label : Sym)

def swtch_if (swt : Swtch) : List Stmt :=
  .assign :: (swt.cases.map fun p => .branch p.i p.label) ++ [.jmp (swtchdefault swt)]

/-- The loop of `swtch_dir()` for so many values from `cur` on; `p` is the case that waits. -/
def data (def_ : Sym) : Nat → Int → Option Case → List Case → List Sym
  | 0, _, _, _ => []
  | n + 1, cur, none, [] => def_ :: data def_ n (cur + 1) none []
  | n + 1, cur, none, p :: cases =>
    if TINT p.i = cur then p.label :: data def_ n (cur + 1) none cases
    else def_ :: data def_ n (cur + 1) (some p) cases
  | n + 1, cur, some p, cases =>
    if TINT p.i = cur then p.label :: data def_ n (cur + 1) none cases
    else def_ :: data def_ n (cur + 1) (some p) cases

/-- The table; its first entry is the one of `min`. -/
def swtch_dir (swt : Swtch) (min max : Int) : List Sym :=
  data (swtchdefault swt) (max + 1 - min).toNat min none swt.cases

inductive Lowered
  | chain (stmts : List Stmt)
  | table (min : Int) (entries : List Sym) (def_ : Sym)

def swtch (swtchif : Int) (swt : Swtch) : Lowered :=
  if (swt.nr : Int) < swtchif then .chain (swtch_if swt)
  else .table swt.min (swtch_dir swt swt.min swt.max) (swtchdefault swt)

/-- The comparison of two ints looks at their low bits. -/
def equal (type : IntType) (i : Nat) (tmp : Int) : Bool := (i : Int) % type.values = tmp % type.values

def runs (type : IntType) (tmp : Int) : List Stmt → Option Sym
  | [] => none
  | .assign :: rest => runs type tmp rest
  | .branch i label :: rest => if equal type i tmp then some label else runs type tmp rest
  | .jmp label :: _ => some label

/-- The label for a value: the table is indexed with the difference from its first value, which is an int
of the target, and what lies outside goes to the default. -/
def Lowered.leads (type : IntType) (value : Int) : Lowered → Option Sym
  | .chain stmts => runs type value stmts
  | .table min entries def_ =>
    some (entries[((value - min) % type.values).toNat]?.getD def_)

/-- A switch leads for every value where it should, whether it becomes a chain or a table, and the table
has an entry for each value from the smallest one of the cases to the largest one, in this order. -/
structure Lowers (qsort : Qsort) (switch : Switch type) : Prop where
  leads : ∀ (swtchif value : Int), type.InRange value → ∃ label,
    (swtch swtchif (eswitch qsort switch)).leads type value = some label ∧ switch.Selects value label
  entries : ∀ lo hi, IsLeast {value | value ∈ switch.cases.map Label.value} lo →
    IsGreatest {value | value ∈ switch.cases.map Label.value} hi →
      let swt := eswitch qsort switch
      ((swtch_dir swt swt.min swt.max).length : Int) = hi - lo + 1 ∧
        ∀ (k : Nat) (label : Sym), (swtch_dir swt swt.min swt.max)[k]? = some label →
          switch.Selects (lo + k) label

def Switch.times (switch : Switch type) (value : Int) : Nat :=
  switch.cases.countP fun c => c.value = value

def Switch.SameSign (switch : Switch type) : Prop :=
  (∀ c ∈ switch.cases, 0 ≤ c.value) ∨ ∀ c ∈ switch.cases, c.value < 0

/-- No value occurs twice but the largest one. -/
def Switch.OnceBelow (switch : Switch type) : Prop :=
  ∀ c ∈ switch.cases, ∀ d ∈ switch.cases, c.value < d.value → switch.times c.value ≤ 1

theorem IntType.values_pos (type : IntType) : 0 < type.values := Nat.two_pow_pos _

theorem IntType.values_le (type : IntType) : type.values ≤ 2 ^ 32 := by
  have le := type.le
  exact Nat.pow_le_pow_right (by decide) (by omega)

theorem IntType.constant_cast (type : IntType) (value : Int) :
    (type.constant value : Int) = value % type.values := by
  have pos := type.values_pos
  exact Int.toNat_of_nonneg (Int.emod_nonneg value (by omega))

theorem IntType.constant_lt (type : IntType) (value : Int) : type.constant value < type.values := by
  have cast := type.constant_cast value
  have lt := Int.emod_lt_of_pos value (Int.natCast_pos.mpr type.values_pos)
  omega

variable {value : Int} {np : Case} {c d : Label}

theorem IntType.constant_nonneg (inRange : type.InRange value) (sign : 0 ≤ value) :
    (type.constant value : Int) = value := by
  unfold IntType.InRange at inRange
  rw [type.constant_cast]
  exact Int.emod_eq_of_lt sign (by omega)

theorem IntType.constant_neg (inRange : type.InRange value) (sign : value < 0) :
    (type.constant value : Int) = value + type.values := by
  unfold IntType.InRange at inRange
  rw [type.constant_cast, ← Int.add_emod_right]
  exact Int.emod_eq_of_lt (by omega) (by omega)

theorem IntType.constant_inj {value value' : Int} (inRange : type.InRange value)
    (inRange' : type.InRange value') : type.constant value = type.constant value' ↔ value = value' := by
  constructor
  · intro same
    have pos := type.values_pos
    have low := inRange
    have high := inRange'
    unfold IntType.InRange at low high
    by_cases sign : 0 ≤ value
    · have first := IntType.constant_nonneg inRange sign
      by_cases sign' : 0 ≤ value'
      · have second := IntType.constant_nonneg inRange' sign'
        omega
      · have second := IntType.constant_neg inRange' (by omega)
        omega
    · have first := IntType.constant_neg inRange (by omega)
      by_cases sign' : 0 ≤ value'
      · have second := IntType.constant_nonneg inRange' sign'
        omega
      · have second := IntType.constant_neg inRange' (by omega)
        omega
  · intro same
    rw [same]

theorem equal_iff {value tmp : Int} (inRange : type.InRange value) (inRange' : type.InRange tmp) :
    equal type (type.constant value) tmp = true ↔ value = tmp := by
  unfold equal
  rw [decide_eq_true_eq, ← type.constant_cast tmp, type.constant_cast, Int.emod_emod_of_dvd _ (dvd_refl _),
    ← type.constant_cast value, Int.natCast_inj]
  exact type.constant_inj inRange inRange'

theorem TINT_short {i : Nat} (short : i < 2 ^ 32) : TINT i = i := by
  unfold TINT
  exact Int.bmod_eq_of_le (by omega) (by omega)

variable (switch : Switch type)

theorem mem_nodes : np ∈ switch.nodes ↔ ∃ c ∈ switch.cases, np = ⟨type.constant c.value, c.label⟩ := by
  unfold Switch.nodes
  rw [List.mem_map]
  constructor
  · intro found
    have ⟨c, member, same⟩ := found
    exact ⟨c, member, same.symm⟩
  · intro found
    have ⟨c, member, same⟩ := found
    exact ⟨c, member, same.symm⟩

theorem nodes_short (member : np ∈ switch.nodes) : np.i < type.values := by
  have ⟨c, _, same⟩ := (mem_nodes switch).mp member
  rw [same]
  exact type.constant_lt c.value

theorem nodes_TINT (member : np ∈ switch.nodes) : TINT np.i = np.i :=
  TINT_short (Nat.lt_of_lt_of_le (nodes_short switch member) type.values_le)

variable (cases : List Case)

theorem addcase_kept (cur : Swtch) :
    (cases.foldl addcase cur).cases = cur.cases ++ cases ∧ (cases.foldl addcase cur).eswtch = cur.eswtch := by
  induction cases generalizing cur with
  | nil => exact ⟨(List.append_nil _).symm, rfl⟩
  | cons np cases ih =>
    have ⟨kept, exit⟩ := ih (addcase cur np)
    rw [List.foldl_cons]
    constructor
    · rw [kept]
      change cur.cases ++ [np] ++ cases = _
      rw [List.append_assoc, List.singleton_append]
    · exact exit

theorem addcase_least {key : Swtch → Int} {value : Case → Int}
    (step : ∀ cur np, key (addcase cur np) = if value np < key cur then value np else key cur)
    (cases : List Case) (cur : Swtch) : key (cases.foldl addcase cur) ≤ key cur ∧
      (∀ np ∈ cases, key (cases.foldl addcase cur) ≤ value np) ∧
      (key (cases.foldl addcase cur) = key cur ∨ ∃ np ∈ cases, key (cases.foldl addcase cur) = value np) := by
  induction cases generalizing cur with
  | nil => exact ⟨Int.le_refl _, (fun np member => by cases member), Or.inl rfl⟩
  | cons np cases ih =>
    have ⟨below, all, least⟩ := ih (addcase cur np)
    rw [List.foldl_cons]
    rw [step] at below least
    refine ⟨?_, ?_, ?_⟩
    · split_ifs at below <;> omega
    · rw [List.forall_mem_cons]
      constructor
      · split_ifs at below <;> omega
      · exact all
    · cases least with
      | inl same =>
        split_ifs at same with less
        · exact Or.inr ⟨np, List.mem_cons_self, same⟩
        · exact Or.inl same
      | inr found =>
        have ⟨q, member, same⟩ := found
        exact Or.inr ⟨q, List.mem_cons_of_mem np member, same⟩

theorem addcase_min (cur : Swtch) : (∀ np ∈ cases, (cases.foldl addcase cur).min ≤ TINT np.i) ∧
      ((cases.foldl addcase cur).min = cur.min ∨ ∃ np ∈ cases, (cases.foldl addcase cur).min = TINT np.i) :=
  (@addcase_least Swtch.min (fun np => TINT np.i) (fun _ _ => rfl) cases cur).2

theorem addcase_max (cur : Swtch) : (∀ np ∈ cases, TINT np.i ≤ (cases.foldl addcase cur).max) ∧
      ((cases.foldl addcase cur).max = cur.max ∨
        ∃ np ∈ cases, (cases.foldl addcase cur).max = TINT np.i) := by
  have step : ∀ cur np, -(addcase cur np).max = if -TINT np.i < -cur.max then -TINT np.i else -cur.max := by
    intro cur np
    rw [addcase]
    dsimp only
    split_ifs <;> omega
  have ⟨_, all, greatest⟩ := @addcase_least (fun cur => -cur.max) (fun np => -TINT np.i) step cases cur
  constructor
  · intro np member
    exact Int.neg_le_neg_iff.mp (all np member)
  · cases greatest with
    | inl same => exact Or.inl (Int.neg_inj.mp same)
    | inr found =>
      have ⟨q, member, same⟩ := found
      exact Or.inr ⟨q, member, Int.neg_inj.mp same⟩

variable (qsort : Qsort)

theorem cmpcase_short {a b : Case} (short : a.i < 2 ^ 32) (short' : b.i < 2 ^ 32) :
    cmpcase a b = if a.i < b.i then -1 else if b.i < a.i then 1 else 0 := by
  have kept : TINT (a.i - b.i) = (a.i : Int) - b.i := by
    unfold TINT
    exact Int.bmod_eq_of_le (by omega) (by omega)
  unfold cmpcase
  rw [kept]
  have less : (a.i : Int) - b.i < 0 ↔ a.i < b.i := by omega
  have more : (a.i : Int) - b.i > 0 ↔ b.i < a.i := by omega
  simp only [less, more]

theorem cmpcase_le {a b : Case} (short : a.i < 2 ^ 32) (short' : b.i < 2 ^ 32) :
    cmpcase a b ≤ 0 ↔ a.i ≤ b.i := by
  rw [cmpcase_short short short']
  split_ifs <;> omega

theorem eswitch_cases : (eswitch qsort switch).cases.Perm switch.nodes ∧
    (eswitch qsort switch).cases.Pairwise fun a b => a.i ≤ b.i := by
  have kept : (switch.nodes.foldl addcase (bswitch switch.eswtch)).cases = switch.nodes :=
    (addcase_kept switch.nodes _).1
  have cases_ : (eswitch qsort switch).cases = qsort.sort switch.nodes := congrArg qsort.sort kept
  have short : ∀ np ∈ switch.nodes, np.i < 2 ^ 32 := fun np member =>
    Nat.lt_of_lt_of_le (nodes_short switch member) type.values_le
  have perm := qsort.perm switch.nodes
  rw [cases_]
  refine ⟨perm, ?_⟩
  have ordered := qsort.ordered switch.nodes ?_ ?_
  · apply List.Pairwise.imp_of_mem _ ordered
    intro a b first second le
    exact (cmpcase_le (short a (perm.mem_iff.mp first)) (short b (perm.mem_iff.mp second))).mp le
  · intro a first b second
    rw [cmpcase_short (short a first) (short b second), cmpcase_short (short b second) (short a first)]
    split_ifs <;> omega
  · intro a first b second c third
    rw [cmpcase_le (short a first) (short b second), cmpcase_le (short b second) (short c third),
      cmpcase_le (short a first) (short c third)]
    exact Nat.le_trans

theorem mem_eswitch : np ∈ (eswitch qsort switch).cases ↔ np ∈ switch.nodes :=
  (eswitch_cases switch qsort).1.mem_iff

theorem swtchdefault_eswitch : swtchdefault (eswitch qsort switch) = switch.otherwise := by
  unfold swtchdefault eswitch Switch.otherwise
  rw [(addcase_kept switch.nodes _).2]
  rfl

theorem selects_node (member : np ∈ switch.nodes)
    (inRange : type.InRange value) (same : np.i = type.constant value) : switch.Selects value np.label := by
  have ⟨c, found, equal⟩ := (mem_nodes switch).mp member
  rw [equal] at same ⊢
  exact Or.inl ⟨c, found, (IntType.constant_inj (switch.inRange c found) inRange).mp same, rfl⟩

theorem selects_otherwise (inRange : type.InRange value)
    (none : ∀ np ∈ switch.nodes, np.i ≠ type.constant value) : switch.Selects value switch.otherwise := by
  refine Or.inr ⟨?_, rfl⟩
  intro c member same
  apply none ⟨type.constant c.value, c.label⟩ ((mem_nodes switch).mpr ⟨c, member, rfl⟩)
  exact (IntType.constant_inj (switch.inRange c member) inRange).mpr same

theorem runs_chain (def_ : Sym) (value : Int) :
    runs type value ((cases.map fun p => Stmt.branch p.i p.label) ++ [.jmp def_]) =
      some (((cases.find? fun p => equal type p.i value).map Case.label).getD def_) := by
  induction cases with
  | nil => rfl
  | cons p cases ih =>
    rw [List.map_cons, List.cons_append, runs, List.find?_cons, ih]
    cases equal type p.i value <;> rfl

theorem chain_leads (inRange : type.InRange value) : ∃ label,
    (Lowered.chain (swtch_if (eswitch qsort switch))).leads type value = some label ∧
      switch.Selects value label := by
  refine ⟨_, runs_chain (eswitch qsort switch).cases (swtchdefault (eswitch qsort switch)) value, ?_⟩
  have test : ∀ np ∈ switch.nodes, equal type np.i value = true ↔ np.i = type.constant value := by
    intro np member
    have ⟨c, found, same⟩ := (mem_nodes switch).mp member
    have inRange' := switch.inRange c found
    rw [same]
    exact (equal_iff inRange' inRange).trans (IntType.constant_inj inRange' inRange).symm
  cases found : (eswitch qsort switch).cases.find? fun p => equal type p.i value with
  | none =>
    rw [List.find?_eq_none] at found
    rw [Option.map_none, Option.getD_none, swtchdefault_eswitch]
    apply selects_otherwise switch inRange
    intro np member same
    exact found np ((mem_eswitch switch qsort).mpr member) ((test np member).mpr same)
  | some np =>
    have member := (mem_eswitch switch qsort).mp (List.mem_of_find?_eq_some found)
    have hit : equal type np.i value = true :=
      @List.find?_some _ (fun p => equal type p.i value) np _ found
    rw [Option.map_some, Option.getD_some]
    exact selects_node switch member inRange ((test np member).mp hit)

def key (p : Case) : Int := TINT p.i

variable {def_ : Sym}

theorem data_fill (n : Nat) (cur : Int) (p : Option Case) (cases : List Case) :
    data def_ n cur p cases = Slots.fill key Case.label def_ n cur (p.toList ++ cases) := by
  induction n generalizing cur p cases with
  | zero =>
    cases p <;> cases cases <;> rfl
  | succ n ih =>
    cases p with
    | none =>
      cases cases with
      | nil =>
        rw [data, ih]
        rfl
      | cons np cases =>
        rw [data, ih, ih]
        rfl
    | some np =>
      rw [data, ih, ih]
      rfl

theorem key_node (member : np ∈ switch.nodes) : key np = np.i := nodes_TINT switch member

theorem eswitch_min (member : c ∈ switch.cases) : ∃ np ∈ switch.nodes, (eswitch qsort switch).min = np.i ∧
      ∀ q ∈ switch.nodes, (eswitch qsort switch).min ≤ q.i := by
  have ⟨all, least⟩ := addcase_min switch.nodes (bswitch switch.eswtch)
  change (eswitch qsort switch).min = _ ∨ ∃ np ∈ _, (eswitch qsort switch).min = _ at least
  change ∀ np ∈ _, (eswitch qsort switch).min ≤ _ at all
  have found : (⟨type.constant c.value, c.label⟩ : Case) ∈ switch.nodes :=
    (mem_nodes switch).mpr ⟨c, member, rfl⟩
  have below : ∀ q ∈ switch.nodes, (eswitch qsort switch).min ≤ q.i := by
    intro q member
    rw [← nodes_TINT switch member]
    exact all q member
  cases least with
  | inl same =>
    have le := below _ found
    have short := nodes_short switch found
    have few := type.values_le
    change (eswitch qsort switch).min = 2 ^ 63 - 1 at same
    omega
  | inr exists_ =>
    have ⟨np, member, same⟩ := exists_
    rw [nodes_TINT switch member] at same
    exact ⟨np, member, same, below⟩

theorem eswitch_max (member : c ∈ switch.cases) : ∃ np ∈ switch.nodes, (eswitch qsort switch).max = np.i ∧
      ∀ q ∈ switch.nodes, (q.i : Int) ≤ (eswitch qsort switch).max := by
  have ⟨all, greatest⟩ := addcase_max switch.nodes (bswitch switch.eswtch)
  change (eswitch qsort switch).max = _ ∨ ∃ np ∈ _, (eswitch qsort switch).max = _ at greatest
  change ∀ np ∈ _, _ ≤ (eswitch qsort switch).max at all
  have found : (⟨type.constant c.value, c.label⟩ : Case) ∈ switch.nodes :=
    (mem_nodes switch).mpr ⟨c, member, rfl⟩
  have above : ∀ q ∈ switch.nodes, (q.i : Int) ≤ (eswitch qsort switch).max := by
    intro q member
    rw [← nodes_TINT switch member]
    exact all q member
  cases greatest with
  | inl same =>
    have le := above _ found
    change (eswitch qsort switch).max = -2 ^ 63 at same
    omega
  | inr exists_ =>
    have ⟨np, member, same⟩ := exists_
    rw [nodes_TINT switch member] at same
    exact ⟨np, member, same, above⟩

def table : List Sym :=
  swtch_dir (eswitch qsort switch) (eswitch qsort switch).min (eswitch qsort switch).max

theorem table_fill : table switch qsort = Slots.fill key Case.label switch.otherwise
      ((eswitch qsort switch).max + 1 - (eswitch qsort switch).min).toNat
      (eswitch qsort switch).min (eswitch qsort switch).cases := by
  unfold table swtch_dir
  rw [data_fill, swtchdefault_eswitch]
  rfl

theorem table_length : (table switch qsort).length =
    ((eswitch qsort switch).max + 1 - (eswitch qsort switch).min).toNat := by
  rw [table_fill, Slots.fill_length]

theorem eswitch_ordered : Slots.Ordered key (eswitch qsort switch).cases := by
  have ⟨perm, ordered⟩ := eswitch_cases switch qsort
  apply List.Pairwise.imp_of_mem _ ordered
  intro a b first second le
  rw [key_node switch (perm.mem_iff.mp first), key_node switch (perm.mem_iff.mp second)]
  omega

theorem count_eswitch (inRange : type.InRange value) :
    Slots.count key (eswitch qsort switch).cases (type.constant value) = switch.times value := by
  unfold Slots.count Switch.times
  rw [(eswitch_cases switch qsort).1.countP_eq]
  unfold Switch.nodes
  rw [List.countP_map]
  apply List.countP_congr
  intro c member
  have node : (⟨type.constant c.value, c.label⟩ : Case) ∈ switch.nodes :=
    (mem_nodes switch).mpr ⟨c, member, rfl⟩
  rw [Function.comp_apply, key_node switch node, decide_eq_true_eq, decide_eq_true_eq, Int.natCast_inj]
  exact IntType.constant_inj (switch.inRange c member) inRange

theorem index_eq {lo : Nat} (below : lo < type.values) : ((value - lo) % type.values).toNat =
      if lo ≤ type.constant value then type.constant value - lo
      else type.constant value + type.values - lo := by
  have cast := type.constant_cast value
  have lt := type.constant_lt value
  have low : (value - lo) % type.values = (type.constant value - lo : Int) % type.values := by
    rw [cast, Int.emod_sub_emod]
  rw [low]
  split_ifs with inside
  · rw [Int.emod_eq_of_lt (by omega) (by omega)]
    omega
  · rw [← Int.add_emod_right, Int.emod_eq_of_lt (by omega) (by omega)]
    omega

section Table

variable {lo hi : Nat} (least : (eswitch qsort switch).min = lo)
  (greatest : (eswitch qsort switch).max = hi) (above : ∀ np ∈ switch.nodes, lo ≤ np.i)
  (below : ∀ np ∈ switch.nodes, np.i ≤ hi)

include least above in
theorem above_key : ∀ p ∈ (eswitch qsort switch).cases, (eswitch qsort switch).min ≤ key p := by
  intro p found
  have node := (mem_eswitch switch qsort).mp found
  have le := above p node
  rw [key_node switch node, least]
  omega

include least greatest in
theorem table_size : (table switch qsort).length = hi + 1 - lo := by
  rw [table_length, least, greatest]
  omega

include least greatest above in
theorem table_once {value : Int} (inRange : type.InRange value) {k : Nat}
    (here : type.constant value = lo + k) (inside : k < hi + 1 - lo)
    (once : ∀ c ∈ switch.cases, type.constant c.value < type.constant value → switch.times c.value ≤ 1) :
    ∃ label, (table switch qsort)[k]? = some label ∧ switch.Selects value label := by
  have single : ∀ w < (eswitch qsort switch).min + k,
      Slots.count key (eswitch qsort switch).cases w ≤ 1 := by
    intro w less
    by_contra twice
    have some_ : 0 < Slots.count key (eswitch qsort switch).cases w := by omega
    have ⟨p, found, same⟩ := Slots.exists_of_count key some_
    have node := (mem_eswitch switch qsort).mp found
    have ⟨c, member, equal⟩ := (mem_nodes switch).mp node
    rw [key_node switch node, equal] at same
    dsimp only at same
    rw [← same, count_eswitch switch qsort (switch.inRange c member)] at twice
    rw [least, ← same] at less
    exact twice (once c member (by omega))
  have entry := @Slots.fill_once _ _ key Case.label switch.otherwise (hi + 1 - lo) k
    (eswitch qsort switch).min (eswitch qsort switch).cases (eswitch_ordered switch qsort)
    (above_key switch qsort least above) inside single
  have size : ((eswitch qsort switch).max + 1 - (eswitch qsort switch).min).toNat = hi + 1 - lo := by
    rw [least, greatest]
    omega
  rw [table_fill, size, entry]
  refine ⟨_, rfl, ?_⟩
  have target : (eswitch qsort switch).min + k = type.constant value := by
    rw [least, here]
    omega
  rw [target]
  cases found : (eswitch qsort switch).cases.find? fun p => key p = type.constant value with
  | none =>
    rw [List.find?_eq_none] at found
    apply selects_otherwise switch inRange
    intro np member same
    apply found np ((mem_eswitch switch qsort).mpr member)
    rw [decide_eq_true_eq, key_node switch member, same]
  | some np =>
    have member := (mem_eswitch switch qsort).mp (List.mem_of_find?_eq_some found)
    have hit : decide (key np = type.constant value) = true :=
      @List.find?_some _ (fun p => decide (key p = type.constant value)) np _ found
    rw [decide_eq_true_eq, key_node switch member, Int.natCast_inj] at hit
    exact selects_node switch member inRange hit

include least greatest above in
theorem table_twice {value : Int} {k : Nat} (here : type.constant value = lo + k)
    (inside : k < hi + 1 - lo) {c : Label} (member : c ∈ switch.cases)
    (less : type.constant c.value < type.constant value) (twice : 2 ≤ switch.times c.value) :
    (table switch qsort)[k]? = some switch.otherwise := by
  have size : ((eswitch qsort switch).max + 1 - (eswitch qsort switch).min).toNat = hi + 1 - lo := by
    rw [least, greatest]
    omega
  rw [table_fill, size]
  rw [← count_eswitch switch qsort (switch.inRange c member)] at twice
  apply Slots.fill_twice key Case.label _ (eswitch_ordered switch qsort)
    (above_key switch qsort least above) inside _ twice
  rw [least]
  omega

include least in
theorem leads_eq (value : Int) (short : lo < type.values) :
    (Lowered.table (eswitch qsort switch).min (table switch qsort) switch.otherwise).leads type value =
      some ((table switch qsort)[if lo ≤ type.constant value then type.constant value - lo
        else type.constant value + type.values - lo]?.getD switch.otherwise) := by
  rw [Lowered.leads, least, index_eq short]

include least greatest above below in
theorem table_leads {value : Int} (inRange : type.InRange value) (short : hi < type.values)
    (order : lo ≤ hi) (once : ∀ c ∈ switch.cases, type.constant c.value < hi →
      switch.times c.value ≤ 1) : ∃ label,
    (Lowered.table (eswitch qsort switch).min (table switch qsort) switch.otherwise).leads type value =
      some label ∧ switch.Selects value label := by
  have size := table_size switch qsort least greatest
  have lt := type.constant_lt value
  rw [leads_eq switch qsort least value (by omega)]
  refine ⟨_, rfl, ?_⟩
  by_cases inside : lo ≤ type.constant value ∧ type.constant value ≤ hi
  · have ⟨low, high⟩ := inside
    have ⟨label, entry, selects⟩ := table_once switch qsort least greatest above inRange
      (by omega : type.constant value = lo + (type.constant value - lo)) (by omega)
      (fun c member less => once c member (by omega))
    rw [if_pos low, entry]
    exact selects
  · have missing : (table switch qsort)[if lo ≤ type.constant value then type.constant value - lo
        else type.constant value + type.values - lo]? = none := by
      rw [List.getElem?_eq_none_iff, size]
      split_ifs <;> omega
    rw [missing]
    apply selects_otherwise switch inRange
    intro np member same
    have first := above np member
    have second := below np member
    omega

end Table

theorem bounds (member : c ∈ switch.cases) : ∃ lo hi : Nat,
    (eswitch qsort switch).min = lo ∧ (eswitch qsort switch).max = hi ∧
      (∀ np ∈ switch.nodes, lo ≤ np.i) ∧ (∀ np ∈ switch.nodes, np.i ≤ hi) ∧
      (∃ c ∈ switch.cases, type.constant c.value = lo) ∧
      (∃ c ∈ switch.cases, type.constant c.value = hi) := by
  have ⟨p, first, min, below⟩ := eswitch_min switch qsort member
  have ⟨q, last, max, above⟩ := eswitch_max switch qsort member
  refine ⟨p.i, q.i, min, max, ?_, ?_, ?_, ?_⟩
  · intro np member
    have le := below np member
    omega
  · intro np member
    have le := above np member
    omega
  · have ⟨c, member, same⟩ := (mem_nodes switch).mp first
    exact ⟨c, member, by rw [same]⟩
  · have ⟨c, member, same⟩ := (mem_nodes switch).mp last
    exact ⟨c, member, by rw [same]⟩

theorem constant_lt_iff {switch : Switch type} (sign : switch.SameSign)
    (first : c ∈ switch.cases) (second : d ∈ switch.cases) :
    type.constant c.value < type.constant d.value ↔ c.value < d.value := by
  have inRange := switch.inRange c first
  have inRange' := switch.inRange d second
  cases sign with
  | inl positive =>
    have same := IntType.constant_nonneg inRange (positive c first)
    have same' := IntType.constant_nonneg inRange' (positive d second)
    omega
  | inr negative =>
    have same := IntType.constant_neg inRange (negative c first)
    have same' := IntType.constant_neg inRange' (negative d second)
    omega

theorem constant_add {value value' : Int} (inRange : type.InRange value)
    (inRange' : type.InRange value') (sign : 0 ≤ value ∨ value' < 0) {k : Nat} (le : value + k ≤ value') :
    type.InRange (value + k) ∧ type.constant (value + k) = type.constant value + k := by
  have between : type.InRange (value + k) := by
    unfold IntType.InRange at *
    omega
  refine ⟨between, ?_⟩
  cases sign with
  | inl positive =>
    have first := IntType.constant_nonneg inRange positive
    have second := IntType.constant_nonneg between (by omega)
    omega
  | inr negative =>
    have first := IntType.constant_neg inRange (by omega)
    have second := IntType.constant_neg between (by omega)
    omega

theorem swtch_table {swtchif : Int} (many : ¬ ((eswitch qsort switch).nr : Int) < swtchif) :
    swtch swtchif (eswitch qsort switch) =
      .table (eswitch qsort switch).min (table switch qsort) switch.otherwise := by
  rw [swtch, if_neg many, swtchdefault_eswitch]
  rfl

theorem table_empty (none : switch.cases = []) : table switch qsort = [] := by
  have record : (eswitch qsort switch).max = TINT_MIN ∧ (eswitch qsort switch).min = TINT_MAX := by
    unfold eswitch Switch.nodes
    rw [none]
    exact ⟨rfl, rfl⟩
  apply List.length_eq_zero_iff.mp
  rw [table_length, record.1, record.2]
  decide

theorem bounds_value (sign : switch.SameSign) (first : c ∈ switch.cases)
    (last : d ∈ switch.cases) (least : ∀ e ∈ switch.cases, c.value ≤ e.value)
    (greatest : ∀ e ∈ switch.cases, e.value ≤ d.value) : (eswitch qsort switch).min = type.constant c.value ∧
      (eswitch qsort switch).max = type.constant d.value := by
  have ⟨lo, hi, min, max, above, below, ⟨p, small, bottom⟩, ⟨q, large, top⟩⟩ :=
    bounds switch qsort first
  have low := above _ ((mem_nodes switch).mpr ⟨c, first, rfl⟩)
  have high := below _ ((mem_nodes switch).mpr ⟨d, last, rfl⟩)
  dsimp only at low high
  have notLess : ¬ type.constant p.value < type.constant c.value := by
    rw [constant_lt_iff sign small first]
    have le := least p small
    omega
  have notMore : ¬ type.constant d.value < type.constant q.value := by
    rw [constant_lt_iff sign last large]
    have le := greatest q large
    omega
  rw [min, max]
  omega

theorem above_value (sign : switch.SameSign) (first : c ∈ switch.cases)
    (least : ∀ e ∈ switch.cases, c.value ≤ e.value) : ∀ np ∈ switch.nodes, type.constant c.value ≤ np.i := by
  intro np member
  have ⟨e, found, same⟩ := (mem_nodes switch).mp member
  have notLess : ¬ type.constant e.value < type.constant c.value := by
    rw [constant_lt_iff sign found first]
    have le := least e found
    omega
  rw [same]
  exact Nat.le_of_not_lt notLess

theorem leads_of_plain (sign : switch.SameSign) (once : switch.OnceBelow) (swtchif value : Int)
    (inRange : type.InRange value) : ∃ label,
    (swtch swtchif (eswitch qsort switch)).leads type value = some label ∧ switch.Selects value label := by
  by_cases few : ((eswitch qsort switch).nr : Int) < swtchif
  · rw [swtch, if_pos few]
    exact chain_leads switch qsort inRange
  · rw [swtch_table switch qsort few]
    cases some_ : switch.cases with
    | nil =>
      rw [table_empty switch qsort some_]
      refine ⟨switch.otherwise, rfl, Or.inr ⟨?_, rfl⟩⟩
      intro c member
      rw [some_] at member
      cases member
    | cons c cases =>
      have member : c ∈ switch.cases := by
        rw [some_]
        exact List.mem_cons_self
      have ⟨lo, hi, least, greatest, above, below, _, d, last, top⟩ := bounds switch qsort member
      have short := type.constant_lt d.value
      have order := above _ ((mem_nodes switch).mpr ⟨d, last, rfl⟩)
      apply table_leads switch qsort least greatest above below inRange (by omega)
      · dsimp only at order
        omega
      · intro c member less
        rw [← top] at less
        exact once c member d last ((constant_lt_iff sign member last).mp less)

theorem entries_of_plain (sign : switch.SameSign) (once : switch.OnceBelow)
    (first : c ∈ switch.cases) (last : d ∈ switch.cases) (least : ∀ e ∈ switch.cases, c.value ≤ e.value)
    (greatest : ∀ e ∈ switch.cases, e.value ≤ d.value) :
    ((table switch qsort).length : Int) = d.value - c.value + 1 ∧
      ∀ (k : Nat) (label : Sym), (table switch qsort)[k]? = some label →
        switch.Selects (c.value + k) label := by
  have ⟨min, max⟩ := bounds_value switch qsort sign first last least greatest
  have above := above_value switch sign first least
  have size := table_size switch qsort min max
  have le := least d last
  have signs : 0 ≤ c.value ∨ d.value < 0 := sign.imp (fun all => all c first) fun all => all d last
  have step := @constant_add type c.value d.value (switch.inRange c first) (switch.inRange d last) signs
  have ⟨_, top⟩ := @step (d.value - c.value).toNat (by omega)
  have whole : c.value + ((d.value - c.value).toNat : Int) = d.value := by omega
  rw [whole] at top
  constructor
  · rw [size]
    omega
  · intro k label entry
    have inside := (List.getElem?_eq_some_iff.mp entry).1
    rw [size] at inside
    have ⟨inRange, here⟩ := @step k (by omega)
    have ⟨label', entry', selects⟩ := table_once switch qsort min max above inRange here inside
      (by
        intro e found less
        by_cases below : e.value < d.value
        · exact once e found d last below
        · have same : e.value = d.value := by
            have le := greatest e found
            omega
          rw [same, here] at less
          omega)
    rw [entry'] at entry
    cases entry
    exact selects

theorem lowers_of_plain (sign : switch.SameSign) (once : switch.OnceBelow) : Lowers qsort switch := by
  constructor
  · exact leads_of_plain switch qsort sign once
  · intro lo hi least greatest
    have ⟨c, first, same⟩ := List.mem_map.mp least.1
    have ⟨d, last, same'⟩ := List.mem_map.mp greatest.1
    subst same same'
    exact entries_of_plain switch qsort sign once first last
      (fun e found => least.2 (List.mem_map_of_mem found))
      (fun e found => greatest.2 (List.mem_map_of_mem found))

theorem labels_distinct (first : c ∈ switch.cases) (second : d ∈ switch.cases)
    (same : c.label = d.label) : c = d := by
  have nodup := (List.nodup_append.mp (List.nodup_cons.mp switch.distinct).2).2.1
  exact List.inj_on_of_nodup_map nodup first second same

theorem otherwise_distinct (member : c ∈ switch.cases) : c.label ≠ switch.otherwise := by
  have ⟨fresh, later⟩ := List.nodup_cons.mp switch.distinct
  have apart := (List.nodup_append.mp later).2.2
  have found : c.label ∈ switch.cases.map Label.label := List.mem_map_of_mem member
  unfold Switch.otherwise
  cases defnode : switch.defnode with
  | none =>
    intro same
    rw [Option.getD_none] at same
    exact fresh (List.mem_append_right _ (same ▸ found))
  | some label =>
    intro same
    rw [defnode] at apart
    exact apart label (by simp) c.label found same.symm

theorem not_selects (member : c ∈ switch.cases) : ¬ switch.Selects c.value switch.otherwise := by
  intro selects
  cases selects with
  | inl found =>
    have ⟨d, member', _, same⟩ := found
    exact otherwise_distinct switch member' same
  | inr none => exact none.1 c member rfl

theorem selects_inj {label : Sym} (first : c ∈ switch.cases) (second : d ∈ switch.cases)
    (selects : switch.Selects c.value label) (selects' : switch.Selects d.value label) :
    c.value = d.value := by
  cases selects with
  | inr none => exact absurd rfl (none.1 c first)
  | inl found =>
    cases selects' with
    | inr none => exact absurd rfl (none.1 d second)
    | inl found' =>
      have ⟨e, member, value, same⟩ := found
      have ⟨e', member', value', same'⟩ := found'
      have equal := labels_distinct switch member member' (same.trans same'.symm)
      rw [← value, ← value', equal]

theorem exists_least (member : c ∈ switch.cases) :
    ∃ d ∈ switch.cases, ∀ e ∈ switch.cases, d.value ≤ e.value := by
  have ⟨d, found, least⟩ := Finset.exists_min_image switch.cases.toFinset Label.value
    ⟨c, List.mem_toFinset.mpr member⟩
  exact ⟨d, List.mem_toFinset.mp found, fun e other => least e (List.mem_toFinset.mpr other)⟩

theorem exists_greatest (member : c ∈ switch.cases) :
    ∃ d ∈ switch.cases, ∀ e ∈ switch.cases, e.value ≤ d.value := by
  have ⟨d, found, greatest⟩ := Finset.exists_max_image switch.cases.toFinset Label.value
    ⟨c, List.mem_toFinset.mpr member⟩
  exact ⟨d, List.mem_toFinset.mp found, fun e other => greatest e (List.mem_toFinset.mpr other)⟩

/-- The constant of a negative value is larger than that of any other value, so that the table does not
begin with the smallest value if there are both. -/
theorem sameSign_of_lowers (lowers : Lowers qsort switch) : switch.SameSign := by
  by_contra mixed
  unfold Switch.SameSign at mixed
  rw [not_or, not_forall, not_forall] at mixed
  have ⟨⟨a, some_⟩, ⟨b, some'⟩⟩ := mixed
  rw [Classical.not_imp] at some_ some'
  have ⟨negative, sign⟩ := some_
  have ⟨positive, sign'⟩ := some'
  have ⟨c, first, least⟩ := exists_least switch negative
  have ⟨d, last, greatest⟩ := exists_greatest switch negative
  have isLeast : IsLeast {value | value ∈ switch.cases.map Label.value} c.value := by
    refine ⟨List.mem_map_of_mem first, ?_⟩
    intro value member
    have ⟨e, found, same⟩ := List.mem_map.mp member
    exact same ▸ least e found
  have isGreatest : IsGreatest {value | value ∈ switch.cases.map Label.value} d.value := by
    refine ⟨List.mem_map_of_mem last, ?_⟩
    intro value member
    have ⟨e, found, same⟩ := List.mem_map.mp member
    exact same ▸ greatest e found
  have ⟨_, ordered⟩ := lowers.entries c.value d.value isLeast isGreatest
  have ⟨lo, hi, min, max, above, below, ⟨p, small, bottom⟩, q, large, top⟩ :=
    bounds switch qsort negative
  have order := above _ ((mem_nodes switch).mpr ⟨q, large, rfl⟩)
  have early := above _ ((mem_nodes switch).mpr ⟨b, positive, rfl⟩)
  dsimp only at order early
  have once : ∀ e ∈ switch.cases, type.constant e.value < type.constant p.value →
      switch.times e.value ≤ 1 := by
    intro e member less
    have le := above _ ((mem_nodes switch).mpr ⟨e, member, rfl⟩)
    dsimp only at le
    omega
  have ⟨label, entry, selects⟩ := @table_once type switch qsort lo hi min max above p.value
    (switch.inRange p small) 0 (by omega) (by omega) once
  have selects' := ordered 0 label entry
  rw [Int.natCast_zero, Int.add_zero] at selects'
  have same := selects_inj switch small first selects selects'
  have head := least a negative
  have wide := switch.inRange p small
  have wide' := switch.inRange b positive
  unfold IntType.InRange at wide wide'
  have first' := IntType.constant_neg (switch.inRange p small) (by omega)
  have second' := IntType.constant_nonneg (switch.inRange b positive) (by omega)
  omega

theorem onceBelow_of_lowers (lowers : Lowers qsort switch) (sign : switch.SameSign) :
    switch.OnceBelow := by
  intro c first d second less
  by_contra twice
  have few : ¬ ((eswitch qsort switch).nr : Int) < 0 := by omega
  have ⟨label, leads, selects⟩ := lowers.leads 0 d.value (switch.inRange d second)
  have ⟨lo, hi, min, max, above, below, _⟩ := bounds switch qsort first
  have low := above _ ((mem_nodes switch).mpr ⟨d, second, rfl⟩)
  have high := below _ ((mem_nodes switch).mpr ⟨d, second, rfl⟩)
  have lt := type.constant_lt d.value
  dsimp only at low high
  have later := (constant_lt_iff sign first second).mpr less
  have entry := table_twice switch qsort min max above
    (by omega : type.constant d.value = lo + (type.constant d.value - lo)) (by omega) first later
    (by omega)
  rw [swtch_table switch qsort few, leads_eq switch qsort min d.value (by omega), if_pos low, entry] at leads
  cases leads
  exact not_selects switch second selects

/-- A merge sort is a `qsort()`. -/
def mergeSorted : Qsort where
  sort cases := (cases.attach.mergeSort fun a b => cmpcase a.1 b.1 ≤ 0).map Subtype.val
  perm cases := by
    have perm := (List.mergeSort_perm cases.attach fun a b => cmpcase a.1 b.1 ≤ 0).map Subtype.val
    rwa [List.attach_map_subtype_val] at perm
  ordered cases opposite trans := by
    rw [List.pairwise_map]
    have ordered := @List.pairwise_mergeSort _ (fun a b => decide (cmpcase a.1 b.1 ≤ 0)) ?_ ?_
      cases.attach
    · simpa only [decide_eq_true_eq] using ordered
    · intro a b c first second
      rw [decide_eq_true_eq] at first second ⊢
      exact trans a.1 a.2 b.1 b.2 c.1 c.2 first second
    · intro a b
      have sum := opposite a.1 a.2 b.1 b.2
      rw [Bool.or_eq_true, decide_eq_true_eq, decide_eq_true_eq]
      omega

def int : IntType where
  size := 2
  pos := by decide
  le := by decide

/-- `case 1: case 1: case 2:` -/
def twice : Switch int where
  cases := [⟨1, 1⟩, ⟨1, 2⟩, ⟨2, 3⟩]
  defnode := none
  eswtch := 4
  inRange := by
    unfold IntType.InRange
    decide
  distinct := by decide

end Scc.Cc2.SwitchLowering
