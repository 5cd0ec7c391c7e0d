import Scc.Lib.Fuel
import Scc.Cc1.TypeTable

/-!
# Compatible types

`eqtype()` with everything that can go wrong in it: it reads the tag of two structures
and the names of their members through pointers that can be `NULL`, and it aborts on
operators that it does not know. A basic type has no tag, and a bit-field without a
declarator has no name. Where no such name is compared the answer is that of the
function without these checks, which is an equivalence relation on the types and, with
`EQUIV`, is reflexive and symmetric.
-/

namespace Scc.Cc1.TypeCompatible

open Scc.Lib Scc.Lib.Fuel Scc.Lib.Run Scc.Cc1.Types

set_option autoImplicit false

inductive Fault where
  /-- `strcmp()` of a name that is `NULL`. -/
  | strcmp
  /-- The tag of a basic type. -/
  | tag
  | abort
deriving DecidableEq

abbrev Answer := Result Fault Bool

def andAlso (first second : Answer) : Answer :=
  first.andThen fun equal => if equal then second else .ok false

def strcmp (name1 name2 : Option Name) : Answer :=
  match name1, name2 with
  | some name1, some name2 => .ok (name1 = name2)
  | _, _ => .error .strcmp

/-- The loop over as many parameters of both. -/
def eqpars (eqtype : Nat → Nat → Answer) : List Nat → List Nat → Answer
  | p1 :: rest1, p2 :: rest2 => andAlso (eqtype p1 p2) (eqpars eqtype rest1 rest2)
  | _, _ => .ok true

/-- The loop over as many members of both. -/
def eqfields (eqtype : Nat → Nat → Answer) : List Field → List Field → Answer
  | s1 :: rest1, s2 :: rest2 =>
    andAlso (strcmp s1.name s2.name)
      (andAlso (eqtype s1.type s2.type) (eqfields eqtype rest1 rest2))
  | _, _ => .ok true

def eqfuns (arch : Arch) (heap : Nat → TypeRec) (equiv : Bool) (eqtype : Nat → Nat → Answer)
    (tp1 tp2 : TypeRec) : Answer :=
  if !tp1.tk_r && !tp2.tk_r then
    if tp1.pars.length ≠ tp2.pars.length then .ok false
    else andAlso (eqpars eqtype tp1.pars tp2.pars) (eqtype tp1.type tp2.type)
  else if tp1.tk_r && tp2.tk_r then eqtype tp1.type tp2.type
  else if !equiv then .ok false
  else if (if tp1.tk_r then tp2.pars else tp1.pars).all (promotedPar arch heap) then
    eqtype tp1.type tp2.type
  else .ok false

/-- The tag of a basic type is `NULL`; that of a declared one is a symbol. -/
def nullTag (tp : TypeRec) : Bool := tp.tag.id = 0

def eqrec (arch : Arch) (heap : Nat → TypeRec) (equiv : Bool) (eqtype : Nat → Nat → Answer)
    (tp1 tp2 : TypeRec) : Answer :=
  if tp1.op ≠ tp2.op then .ok false
  else
    match tp1.op with
    | .UNION | .STRUCT =>
      if tp1.letter ≠ tp2.letter then .ok false
      else if nullTag tp1 || nullTag tp2 then .error .tag
      else if tp1.tag.name.isSome || tp2.tag.name.isSome then .ok (tp1.tag = tp2.tag)
      else if tp1.fields.length ≠ tp2.fields.length then .ok false
      else eqfields eqtype tp1.fields tp2.fields
    | .FTN => eqfuns arch heap equiv eqtype tp1 tp2
    | .ARY =>
      if equiv && (tp1.elem = 0 || tp2.elem = 0) then eqtype tp1.type tp2.type
      else if tp1.elem ≠ tp2.elem then .ok false
      else eqtype tp1.type tp2.type
    | .PTR => eqtype tp1.type tp2.type
    | .VOID | .ENUM => .ok false
    | .INT | .FLOAT => .ok (tp1.letter = tp2.letter)
    | _ => .error .abort

def eqtype (arch : Arch) (heap : Nat → TypeRec) (equiv : Bool) : Nat → Nat → Nat → Answer
  | 0, _, _ => none
  | fuel + 1, tp1, tp2 =>
    if tp1 = tp2 then .ok true
    else eqrec arch heap equiv (eqtype arch heap equiv fuel) (heap tp1) (heap tp2)

/-- `eqtype()` returns this answer. -/
def Returns (arch : Arch) (heap : Nat → TypeRec) (equiv : Bool) (tp1 tp2 : Nat) (answer : Bool) :
    Prop :=
  Settles (fun fuel => eqtype arch heap equiv fuel tp1 tp2) (.ok answer)

/-- `eqtype(tp1, tp2, EQUAL)` -/
def Equal (arch : Arch) (state : State) (tp1 tp2 : Fin state.count) : Prop :=
  Returns arch state.heap false tp1 tp2 true

/-- `eqtype(tp1, tp2, EQUIV)` -/
def Equiv (arch : Arch) (state : State) (tp1 tp2 : Fin state.count) : Prop :=
  Returns arch state.heap true tp1 tp2 true

structure WellBehaved (arch : Arch) (state : State) : Prop where
  returns : ∀ equiv, ∀ tp1 tp2 : Fin state.count, ∃ answer,
    Returns arch state.heap equiv tp1 tp2 answer
  equivalence : Equivalence (Equal arch state)
  reflexive : ∀ tp, Equiv arch state tp tp
  symmetric : ∀ tp1 tp2, Equiv arch state tp1 tp2 → Equiv arch state tp2 tp1
  weaker : ∀ tp1 tp2, Equal arch state tp1 tp2 → Equiv arch state tp1 tp2

/-- The members of both have names, at least up to the first names that differ. -/
def NamesKnown : List Field → List Field → Prop
  | s1 :: rest1, s2 :: rest2 =>
    s1.name.isSome ∧ s2.name.isSome ∧ (s1.name = s2.name → NamesKnown rest1 rest2)
  | _, _ => True

def untagged (tp : TypeRec) : Bool := isAggregate tp.op && tp.tag.name.isNone

/-- The names of an untagged structure can be compared with those of every other one
that has as many members. -/
def Known (state : State) : Event → Prop
  | .anonymous op fields =>
    ∀ id < state.count, untagged (state.heap id) = true → (state.heap id).op = op →
      (state.heap id).fields.length = fields.length →
        NamesKnown (state.heap id).fields fields
  | _ => True

/-- An architecture: one ellipsis, and structures with letters of their own. -/
structure Target extends Arch where
  ellipsis : ∀ id < basics.length,
    (basics.getD id (TypeRec.zero .VOID '0')).op = .ELLIPSIS → id = ellipsistype
  functions : ∀ id < basics.length, (basics.getD id (TypeRec.zero .VOID '0')).op ≠ .KRFTN
  letters : ∀ id < basics.length, isAggregate (basics.getD id (TypeRec.zero .VOID '0')).op = true →
    (basics.getD id (TypeRec.zero .VOID '0')).letter ≠ 'S' ∧
      (basics.getD id (TypeRec.zero .VOID '0')).letter ≠ 'U'
  single : ∀ id < basics.length, ∀ id' < basics.length,
    isAggregate (basics.getD id (TypeRec.zero .VOID '0')).op = true →
    isAggregate (basics.getD id' (TypeRec.zero .VOID '0')).op = true → id = id'

def amd64 : Target where
  toArch := amd64_sysv
  ellipsis := by decide
  functions := by decide
  letters := by decide
  single := by decide

variable {arch : Arch} {heap : Nat → TypeRec}

variable {equal equal' : Nat → Nat → Bool} {pars1 pars2 : List Nat} {answer : Nat → Nat → Answer}
  {fields1 fields2 : List Field} {tp tp1 tp2 tp' : TypeRec} {equiv : Bool} {op : Op}

theorem eqpars_congr (same : ∀ p1 ∈ pars1, ∀ p2 ∈ pars2, equal p1 p2 = equal' p1 p2) :
    Types.eqpars equal pars1 pars2 = Types.eqpars equal' pars1 pars2 := by
  induction pars1 generalizing pars2 with
  | nil => cases pars2 <;> rfl
  | cons p1 rest1 ih =>
    cases pars2 with
    | nil => rfl
    | cons p2 rest2 =>
      have first := same p1 List.mem_cons_self p2 List.mem_cons_self
      have later := ih fun q1 in1 q2 in2 =>
        same q1 (List.mem_cons_of_mem _ in1) q2 (List.mem_cons_of_mem _ in2)
      simp only [Types.eqpars, first, later]

theorem eqpars_answer (same : ∀ p1 ∈ pars1, ∀ p2 ∈ pars2, answer p1 p2 = .ok (equal p1 p2))
    (lengths : pars1.length = pars2.length) :
    eqpars answer pars1 pars2 = .ok (Types.eqpars equal pars1 pars2) := by
  induction pars1 generalizing pars2 with
  | nil =>
    cases pars2 with
    | nil => rfl
    | cons p2 rest2 => cases lengths
  | cons p1 rest1 ih =>
    cases pars2 with
    | nil => cases lengths
    | cons p2 rest2 =>
      have first := same p1 List.mem_cons_self p2 List.mem_cons_self
      have later := ih (fun q1 in1 q2 in2 =>
        same q1 (List.mem_cons_of_mem _ in1) q2 (List.mem_cons_of_mem _ in2))
        (by simpa using lengths)
      unfold eqpars Types.eqpars andAlso
      rw [first, later]
      cases equal p1 p2 <;> rfl

theorem eqpars_length (equals : Types.eqpars equal pars1 pars2 = true) : pars1.length = pars2.length := by
  induction pars1 generalizing pars2 with
  | nil =>
    cases pars2 with
    | nil => rfl
    | cons p2 rest2 => cases equals
  | cons p1 rest1 ih =>
    cases pars2 with
    | nil => cases equals
    | cons p2 rest2 =>
      rw [Types.eqpars, Bool.and_eq_true] at equals
      rw [List.length_cons, List.length_cons, ih equals.2]

theorem eqfields_congr
    (same : ∀ s1 ∈ fields1, ∀ s2 ∈ fields2, equal s1.type s2.type = equal' s1.type s2.type) :
    Types.eqfields equal fields1 fields2 = Types.eqfields equal' fields1 fields2 := by
  induction fields1 generalizing fields2 with
  | nil => cases fields2 <;> rfl
  | cons s1 rest1 ih =>
    cases fields2 with
    | nil => rfl
    | cons s2 rest2 =>
      have first := same s1 List.mem_cons_self s2 List.mem_cons_self
      have later := ih fun t1 in1 t2 in2 =>
        same t1 (List.mem_cons_of_mem _ in1) t2 (List.mem_cons_of_mem _ in2)
      simp only [Types.eqfields, first, later]

theorem eqfields_answer
    (same : ∀ s1 ∈ fields1, ∀ s2 ∈ fields2, answer s1.type s2.type = .ok (equal s1.type s2.type))
    (known : NamesKnown fields1 fields2) (lengths : fields1.length = fields2.length) :
    eqfields answer fields1 fields2 = .ok (Types.eqfields equal fields1 fields2) := by
  induction fields1 generalizing fields2 with
  | nil =>
    cases fields2 with
    | nil => rfl
    | cons s2 rest2 => cases lengths
  | cons s1 rest1 ih =>
    cases fields2 with
    | nil => cases lengths
    | cons s2 rest2 =>
      obtain ⟨named1, named2, more⟩ := known
      obtain ⟨name1, isName1⟩ := Option.isSome_iff_exists.mp named1
      obtain ⟨name2, isName2⟩ := Option.isSome_iff_exists.mp named2
      have first := same s1 List.mem_cons_self s2 List.mem_cons_self
      unfold eqfields Types.eqfields strcmp andAlso
      rw [isName1, isName2, first]
      by_cases names : name1 = name2
      · have later := ih (fun t1 in1 t2 in2 =>
          same t1 (List.mem_cons_of_mem _ in1) t2 (List.mem_cons_of_mem _ in2))
          (more (by rw [isName1, isName2, names])) (by simpa using lengths)
        rw [later]
        cases equal s1.type s2.type <;> simp [names]
      · simp [names]

theorem eqfields_length
    (equals : Types.eqfields equal fields1 fields2 = true) : fields1.length = fields2.length := by
  induction fields1 generalizing fields2 with
  | nil =>
    cases fields2 with
    | nil => rfl
    | cons s2 rest2 => cases equals
  | cons s1 rest1 ih =>
    cases fields2 with
    | nil => cases equals
    | cons s2 rest2 =>
      rw [Types.eqfields, Bool.and_eq_true, Bool.and_eq_true] at equals
      rw [List.length_cons, List.length_cons, ih equals.2.2]

theorem base_part (derived : tp.op = .PTR ∨ tp.op = .ARY ∨ tp.op = .FTN) : tp.type ∈ tp.parts := by
  unfold TypeRec.parts
  rcases derived with op | op | op
  · simp [op]
  · simp [op]
  · rw [op]
    simp only
    split_ifs
    · exact List.mem_cons_self
    · exact List.mem_cons_self

theorem par_part (op : tp.op = .FTN) (ansi : tp.tk_r = false) {par : Nat}
    (member : par ∈ tp.pars) : par ∈ tp.parts := by
  unfold TypeRec.parts
  simp [op, ansi, member]

theorem field_part (aggregate : tp.op = .STRUCT ∨ tp.op = .UNION)
    (noName : tp.tag.name.isSome = false) {field : Field} (member : field ∈ tp.fields) :
    field.type ∈ tp.parts := by
  unfold TypeRec.parts
  rcases aggregate with op | op
  · simpa [op, noName] using ⟨field, member, rfl⟩
  · simpa [op, noName] using ⟨field, member, rfl⟩

/-- What `eqtype()` may read of two different objects. -/
structure Readable (tp1 tp2 : TypeRec) : Prop where
  known : tp1.op = tp2.op → tp1.op ≠ .ELLIPSIS ∧ tp1.op ≠ .KRFTN
  tags : isAggregate tp1.op = true → tp1.op = tp2.op → tp1.letter = tp2.letter →
    nullTag tp1 = false ∧ nullTag tp2 = false
  names : untagged tp1 = true → untagged tp2 = true → tp1.op = tp2.op →
    tp1.fields.length = tp2.fields.length → NamesKnown tp1.fields tp2.fields

theorem eqfuns_answer (op1 : tp1.op = .FTN) (op2 : tp2.op = .FTN)
    (same : ∀ p1 ∈ tp1.parts, ∀ p2 ∈ tp2.parts, answer p1 p2 = .ok (equal p1 p2)) :
    eqfuns arch heap equiv answer tp1 tp2 = .ok (Types.eqfuns arch heap equiv equal tp1 tp2) := by
  have base := same tp1.type (base_part (by simp [op1])) tp2.type (base_part (by simp [op2]))
  have mixed (pars : List Nat) :
      (if !equiv then .ok false
      else if pars.all (promotedPar arch heap) then answer tp1.type tp2.type else .ok false : Answer) =
        .ok (if !equiv then false
        else pars.all (promotedPar arch heap) && equal tp1.type tp2.type) := by
    rw [base]
    cases equiv
    · rfl
    · cases pars.all (promotedPar arch heap) <;> rfl
  unfold eqfuns Types.eqfuns
  cases kr1 : tp1.tk_r with
  | true =>
    cases kr2 : tp2.tk_r with
    | true => exact base
    | false => exact mixed tp2.pars
  | false =>
    cases kr2 : tp2.tk_r with
    | true => exact mixed tp1.pars
    | false =>
      simp only [Bool.not_false, Bool.and_self, if_true]
      split_ifs with lengths
      · have different : Types.eqpars equal tp1.pars tp2.pars = false := by
          by_contra equals
          rw [Bool.not_eq_false] at equals
          exact lengths (eqpars_length equals)
        rw [different]
        rfl
      · have pars := eqpars_answer (fun p1 in1 p2 in2 =>
          same p1 (par_part op1 kr1 in1) p2 (par_part op2 kr2 in2)) (not_not.mp lengths)
        unfold andAlso
        rw [pars, base]
        cases Types.eqpars equal tp1.pars tp2.pars <;> rfl

theorem eqrec_answer (readable : Readable tp1 tp2)
    (same : ∀ p1 ∈ tp1.parts, ∀ p2 ∈ tp2.parts, answer p1 p2 = .ok (equal p1 p2)) :
    eqrec arch heap equiv answer tp1 tp2 = .ok (Types.eqrec arch heap equiv equal tp1 tp2) := by
  by_cases sameOp : tp1.op = tp2.op
  · have known := readable.known sameOp
    have derived (op : tp1.op = .PTR ∨ tp1.op = .ARY ∨ tp1.op = .FTN) :
        answer tp1.type tp2.type = .ok (equal tp1.type tp2.type) :=
      same tp1.type (base_part op) tp2.type (base_part (sameOp ▸ op))
    have structs (aggregate : tp1.op = .STRUCT ∨ tp1.op = .UNION) :
        (if tp1.letter ≠ tp2.letter then .ok false
        else if nullTag tp1 || nullTag tp2 then .error .tag
        else if tp1.tag.name.isSome || tp2.tag.name.isSome then .ok (tp1.tag = tp2.tag)
        else if tp1.fields.length ≠ tp2.fields.length then .ok false
        else eqfields answer tp1.fields tp2.fields : Answer) =
          .ok (if tp1.letter ≠ tp2.letter then false
          else if tp1.tag.name.isSome || tp2.tag.name.isSome then decide (tp1.tag = tp2.tag)
          else Types.eqfields equal tp1.fields tp2.fields) := by
      have isAggregate1 : isAggregate tp1.op = true := by
        simpa [isAggregate] using aggregate
      by_cases letters : tp1.letter = tp2.letter
      · have tags := readable.tags isAggregate1 sameOp letters
        rw [if_neg (not_not.mpr letters), if_neg (not_not.mpr letters), tags.1, tags.2]
        simp only [Bool.or_self, Bool.false_eq_true, if_false]
        split_ifs with named lengths
        · rfl
        · have different : Types.eqfields equal tp1.fields tp2.fields = false := by
            by_contra equals
            rw [Bool.not_eq_false] at equals
            exact lengths (eqfields_length equals)
          rw [different]
        · simp only [Bool.or_eq_true, not_or, Bool.not_eq_true] at named
          have untagged1 : untagged tp1 = true := by
            simp [untagged, isAggregate1, Option.isNone_iff_eq_none.mp (by simpa using named.1)]
          have untagged2 : untagged tp2 = true := by
            rw [sameOp] at isAggregate1
            simp [untagged, isAggregate1, Option.isNone_iff_eq_none.mp (by simpa using named.2)]
          exact eqfields_answer
            (fun s1 in1 s2 in2 => same s1.type (field_part aggregate named.1 in1) s2.type
              (field_part (sameOp ▸ aggregate) named.2 in2))
            (readable.names untagged1 untagged2 sameOp (not_not.mp lengths)) (not_not.mp lengths)
      · rw [if_pos letters, if_pos letters]
    unfold eqrec Types.eqrec
    rw [if_neg (not_not.mpr sameOp), if_neg (not_not.mpr sameOp)]
    cases op : tp1.op with
    | STRUCT => exact structs (Or.inl op)
    | UNION => exact structs (Or.inr op)
    | FTN => exact eqfuns_answer op (sameOp ▸ op) same
    | PTR => exact derived (Or.inl op)
    | ARY =>
      have base := derived (Or.inr (Or.inl op))
      simp only
      split_ifs with unsized sizes
      · exact base
      · simp [sizes]
      · simp [base, not_not.mp sizes]
    | INT => rfl
    | FLOAT => rfl
    | VOID => rfl
    | ENUM => rfl
    | ELLIPSIS => exact absurd op known.1
    | KRFTN => exact absurd op known.2
  · unfold eqrec Types.eqrec
    rw [if_pos sameOp, if_pos sameOp]

theorem eqfuns_congr (op1 : tp1.op = .FTN) (op2 : tp2.op = .FTN)
    (same : ∀ p1 ∈ tp1.parts, ∀ p2 ∈ tp2.parts, equal p1 p2 = equal' p1 p2) :
    Types.eqfuns arch heap equiv equal tp1 tp2 = Types.eqfuns arch heap equiv equal' tp1 tp2 := by
  have base := same tp1.type (base_part (by simp [op1])) tp2.type (base_part (by simp [op2]))
  unfold Types.eqfuns
  split_ifs with ansi
  · rw [Bool.and_eq_true, Bool.not_eq_true', Bool.not_eq_true'] at ansi
    rw [base, eqpars_congr fun p1 in1 p2 in2 =>
      same p1 (par_part op1 ansi.1 in1) p2 (par_part op2 ansi.2 in2)]
  · exact base
  · rfl
  · rw [base]
  · rw [base]

theorem eqrec_congr (same : ∀ p1 ∈ tp1.parts, ∀ p2 ∈ tp2.parts, equal p1 p2 = equal' p1 p2) :
    Types.eqrec arch heap equiv equal tp1 tp2 = Types.eqrec arch heap equiv equal' tp1 tp2 := by
  unfold Types.eqrec
  by_cases sameOp : tp1.op = tp2.op
  · rw [if_neg (not_not.mpr sameOp), if_neg (not_not.mpr sameOp)]
    have derived (op : tp1.op = .PTR ∨ tp1.op = .ARY ∨ tp1.op = .FTN) :
        equal tp1.type tp2.type = equal' tp1.type tp2.type :=
      same tp1.type (base_part op) tp2.type (base_part (sameOp ▸ op))
    have structs (aggregate : tp1.op = .STRUCT ∨ tp1.op = .UNION) :
        (if tp1.letter ≠ tp2.letter then false
        else if tp1.tag.name.isSome || tp2.tag.name.isSome then decide (tp1.tag = tp2.tag)
        else Types.eqfields equal tp1.fields tp2.fields) =
          if tp1.letter ≠ tp2.letter then false
          else if tp1.tag.name.isSome || tp2.tag.name.isSome then decide (tp1.tag = tp2.tag)
          else Types.eqfields equal' tp1.fields tp2.fields := by
      split_ifs with letters named
      · rfl
      · rfl
      · simp only [Bool.or_eq_true, not_or, Bool.not_eq_true] at named
        exact eqfields_congr fun s1 in1 s2 in2 => same s1.type (field_part aggregate named.1 in1)
          s2.type (field_part (sameOp ▸ aggregate) named.2 in2)
    cases op : tp1.op with
    | STRUCT => exact structs (Or.inl op)
    | UNION => exact structs (Or.inr op)
    | FTN => exact eqfuns_congr op (sameOp ▸ op) same
    | PTR => exact derived (Or.inl op)
    | ARY => simp only [derived (Or.inr (Or.inl op))]
    | INT => rfl
    | FLOAT => rfl
    | VOID => rfl
    | ENUM => rfl
    | ELLIPSIS => rfl
    | KRFTN => rfl
  · rw [if_pos sameOp, if_pos sameOp]

theorem eqtype_steady {count fuel fuel' tp1 tp2 : Nat} (ordered : Ordered heap count)
    (live1 : tp1 < count) (live2 : tp2 < count) (enough : tp1 < fuel ∧ tp2 < fuel)
    (enough' : tp1 < fuel' ∧ tp2 < fuel') :
    Types.eqtype arch heap equiv fuel tp1 tp2 = Types.eqtype arch heap equiv fuel' tp1 tp2 := by
  induction fuel generalizing fuel' tp1 tp2 with
  | zero => omega
  | succ fuel ih =>
    cases fuel' with
    | zero => omega
    | succ fuel' =>
      have parts : Types.eqrec arch heap equiv (Types.eqtype arch heap equiv fuel) (heap tp1)
          (heap tp2) =
          Types.eqrec arch heap equiv (Types.eqtype arch heap equiv fuel') (heap tp1)
            (heap tp2) := by
        apply eqrec_congr
        intro p1 in1 p2 in2
        have earlier1 := ordered tp1 live1 p1 in1
        have earlier2 := ordered tp2 live2 p2 in2
        exact ih (by omega) (by omega) (by omega) (by omega)
      rw [Types.eqtype, Types.eqtype, parts]

def AllReadable (heap : Nat → TypeRec) (count : Nat) : Prop :=
  ∀ tp1 < count, ∀ tp2 < count, tp1 ≠ tp2 → Readable (heap tp1) (heap tp2)

theorem eqtype_answer {count fuel tp1 tp2 : Nat} (ordered : Ordered heap count)
    (readable : AllReadable heap count) (live1 : tp1 < count) (live2 : tp2 < count)
    (enough : tp1 < fuel ∧ tp2 < fuel) :
    eqtype arch heap equiv fuel tp1 tp2 = .ok (Types.eqtype arch heap equiv fuel tp1 tp2) := by
  induction fuel generalizing tp1 tp2 with
  | zero => omega
  | succ fuel ih =>
    unfold eqtype Types.eqtype
    by_cases same : tp1 = tp2
    · simp [same]
    · have parts : ∀ p1 ∈ (heap tp1).parts, ∀ p2 ∈ (heap tp2).parts,
          eqtype arch heap equiv fuel p1 p2 = .ok (Types.eqtype arch heap equiv fuel p1 p2) := by
        intro p1 in1 p2 in2
        have earlier1 := ordered tp1 live1 p1 in1
        have earlier2 := ordered tp2 live2 p2 in2
        exact ih (by omega) (by omega) ⟨by omega, by omega⟩
      rw [if_neg same, eqrec_answer (readable tp1 live1 tp2 live2 same) parts]
      simp [same]

theorem returns_iff {equiv answer : Bool} {count tp1 tp2 : Nat} (ordered : Ordered heap count)
    (readable : AllReadable heap count) (live1 : tp1 < count) (live2 : tp2 < count) :
    Returns arch heap equiv tp1 tp2 answer ↔ Types.eqtype arch heap equiv count tp1 tp2 = answer := by
  have settles : Settles (fun fuel => eqtype arch heap equiv fuel tp1 tp2)
      (.ok (Types.eqtype arch heap equiv count tp1 tp2)) := by
    refine ⟨count, ?_⟩
    intro fuel le
    change eqtype arch heap equiv fuel tp1 tp2 = _
    rw [eqtype_answer ordered readable live1 live2 ⟨by omega, by omega⟩,
      eqtype_steady ordered live1 live2 ⟨by omega, by omega⟩ ⟨live1, live2⟩]
  constructor
  · intro returns
    have same := settles.unique returns
    simpa [Result.ok] using same
  · intro same
    rw [← same]
    exact settles

theorem eqpars_symm (symm : ∀ p1 p2, equal p1 p2 = equal p2 p1)
    (pars1 pars2 : List Nat) : Types.eqpars equal pars1 pars2 = Types.eqpars equal pars2 pars1 := by
  induction pars1 generalizing pars2 with
  | nil => cases pars2 <;> rfl
  | cons p1 rest1 ih =>
    cases pars2 with
    | nil => rfl
    | cons p2 rest2 => simp only [Types.eqpars, symm p1 p2, ih rest2]

theorem eqfields_symm (symm : ∀ p1 p2, equal p1 p2 = equal p2 p1) (fields1 fields2 : List Field) :
    Types.eqfields equal fields1 fields2 = Types.eqfields equal fields2 fields1 := by
  induction fields1 generalizing fields2 with
  | nil => cases fields2 <;> rfl
  | cons s1 rest1 ih =>
    cases fields2 with
    | nil => rfl
    | cons s2 rest2 =>
      have names : decide (s1.name = s2.name) = decide (s2.name = s1.name) := by
        simp only [eq_comm]
      simp only [Types.eqfields, symm s1.type s2.type, ih rest2, names]

theorem eqfuns_symm (symm : ∀ p1 p2, equal p1 p2 = equal p2 p1) (tp1 tp2 : TypeRec) :
    Types.eqfuns arch heap equiv equal tp1 tp2 = Types.eqfuns arch heap equiv equal tp2 tp1 := by
  unfold Types.eqfuns
  rw [symm tp1.type tp2.type, eqpars_symm symm tp1.pars tp2.pars]
  cases tp1.tk_r <;> cases tp2.tk_r <;> rfl

theorem eqrec_symm (symm : ∀ p1 p2, equal p1 p2 = equal p2 p1) (tp1 tp2 : TypeRec) :
    Types.eqrec arch heap equiv equal tp1 tp2 = Types.eqrec arch heap equiv equal tp2 tp1 := by
  unfold Types.eqrec
  by_cases sameOp : tp1.op = tp2.op
  · rw [if_neg (not_not.mpr sameOp), if_neg (not_not.mpr sameOp.symm), ← sameOp,
      symm tp1.type tp2.type, eqfields_symm symm tp1.fields tp2.fields, eqfuns_symm symm tp1 tp2]
    have letters : (tp1.letter ≠ tp2.letter) = (tp2.letter ≠ tp1.letter) := by simp only [ne_comm]
    have letters' : decide (tp1.letter = tp2.letter) = decide (tp2.letter = tp1.letter) := by
      simp only [eq_comm]
    have tags : decide (tp1.tag = tp2.tag) = decide (tp2.tag = tp1.tag) := by simp only [eq_comm]
    have elems : decide (tp1.elem = tp2.elem) = decide (tp2.elem = tp1.elem) := by
      simp only [eq_comm]
    simp only [letters', tags, elems, letters, Bool.or_comm]
  · rw [if_pos sameOp, if_pos (Ne.symm sameOp)]

theorem eqtype_symm (equiv : Bool) (fuel tp1 tp2 : Nat) :
    Types.eqtype arch heap equiv fuel tp1 tp2 = Types.eqtype arch heap equiv fuel tp2 tp1 := by
  induction fuel generalizing tp1 tp2 with
  | zero => rfl
  | succ fuel ih =>
    have objects : decide (tp1 = tp2) = decide (tp2 = tp1) := by simp only [eq_comm]
    rw [Types.eqtype, Types.eqtype, eqrec_symm ih, objects]

theorem eqpars_mono (mono : ∀ p1 p2, equal p1 p2 = true → equal' p1 p2 = true)
    (equals : Types.eqpars equal pars1 pars2 = true) : Types.eqpars equal' pars1 pars2 = true := by
  induction pars1 generalizing pars2 with
  | nil =>
    cases pars2 with
    | nil => rfl
    | cons p2 rest2 => cases equals
  | cons p1 rest1 ih =>
    cases pars2 with
    | nil => cases equals
    | cons p2 rest2 =>
      rw [Types.eqpars, Bool.and_eq_true] at equals ⊢
      exact ⟨mono p1 p2 equals.1, ih equals.2⟩

theorem eqfields_mono (mono : ∀ p1 p2, equal p1 p2 = true → equal' p1 p2 = true)
    (equals : Types.eqfields equal fields1 fields2 = true) :
    Types.eqfields equal' fields1 fields2 = true := by
  induction fields1 generalizing fields2 with
  | nil =>
    cases fields2 with
    | nil => rfl
    | cons s2 rest2 => cases equals
  | cons s1 rest1 ih =>
    cases fields2 with
    | nil => cases equals
    | cons s2 rest2 =>
      rw [Types.eqfields, Bool.and_eq_true, Bool.and_eq_true] at equals ⊢
      exact ⟨equals.1, mono s1.type s2.type equals.2.1, ih equals.2.2⟩

theorem eqfuns_mono (mono : ∀ p1 p2, equal p1 p2 = true → equal' p1 p2 = true)
    (equals : Types.eqfuns arch heap false equal tp1 tp2 = true) :
    Types.eqfuns arch heap true equal' tp1 tp2 = true := by
  unfold Types.eqfuns at equals ⊢
  cases kr1 : tp1.tk_r with
  | true =>
    cases kr2 : tp2.tk_r with
    | true =>
      simp only [kr1, kr2, Bool.not_true, Bool.and_self, Bool.false_eq_true, if_false,
        if_true] at equals
      exact mono _ _ equals
    | false => simp [kr1, kr2] at equals
  | false =>
    cases kr2 : tp2.tk_r with
    | true => simp [kr1, kr2] at equals
    | false =>
      simp only [kr1, kr2, Bool.not_false, Bool.and_self, if_true, Bool.and_eq_true] at equals
      simp only [Bool.not_false, Bool.and_self, if_true, Bool.and_eq_true]
      exact ⟨eqpars_mono mono equals.1, mono _ _ equals.2⟩

theorem eqrec_mono (mono : ∀ p1 p2, equal p1 p2 = true → equal' p1 p2 = true)
    (equals : Types.eqrec arch heap false equal tp1 tp2 = true) :
    Types.eqrec arch heap true equal' tp1 tp2 = true := by
  unfold Types.eqrec at equals ⊢
  by_cases sameOp : tp1.op = tp2.op
  · rw [if_neg (not_not.mpr sameOp)] at equals ⊢
    have structs (found : (if tp1.letter ≠ tp2.letter then false
        else if tp1.tag.name.isSome || tp2.tag.name.isSome then decide (tp1.tag = tp2.tag)
        else Types.eqfields equal tp1.fields tp2.fields) = true) :
        (if tp1.letter ≠ tp2.letter then false
        else if tp1.tag.name.isSome || tp2.tag.name.isSome then decide (tp1.tag = tp2.tag)
        else Types.eqfields equal' tp1.fields tp2.fields) = true := by
      split_ifs at found ⊢
      · exact found
      · exact eqfields_mono mono found
    cases op : tp1.op with
    | STRUCT => exact structs (by simpa only [op] using equals)
    | UNION => exact structs (by simpa only [op] using equals)
    | FTN => exact eqfuns_mono mono (by simpa only [op] using equals)
    | PTR => exact mono _ _ (by simpa only [op] using equals)
    | ARY =>
      simp only [op, Bool.false_and, Bool.false_eq_true, if_false, Bool.and_eq_true,
        decide_eq_true_eq] at equals
      have base := mono _ _ equals.2
      simp [base, equals.1]
    | INT => simpa only [op] using equals
    | FLOAT => simpa only [op] using equals
    | VOID => simp [op] at equals
    | ENUM => simp [op] at equals
    | ELLIPSIS => simp [op] at equals
    | KRFTN => simp [op] at equals
  · rw [if_pos sameOp] at equals
    cases equals

theorem eqtype_mono {fuel tp1 tp2 : Nat} (equals : Types.eqtype arch heap false fuel tp1 tp2 = true) :
    Types.eqtype arch heap true fuel tp1 tp2 = true := by
  induction fuel generalizing tp1 tp2 with
  | zero => cases equals
  | succ fuel ih =>
    rw [Types.eqtype, Bool.or_eq_true] at equals ⊢
    cases equals with
    | inl same => exact Or.inl same
    | inr below => exact Or.inr (eqrec_mono (fun p1 p2 => ih) below)

theorem eqtype_refl (equiv : Bool) {fuel tp : Nat} (enough : tp < fuel) :
    Types.eqtype arch heap equiv fuel tp tp = true := by
  cases fuel with
  | zero => omega
  | succ fuel => simp [Types.eqtype]

theorem wellBehaved_of_readable {state : State} (ordered : Ordered state.heap state.count)
    (readable : AllReadable state.heap state.count) : WellBehaved arch state := by
  have answers {equiv answer : Bool} (tp1 tp2 : Fin state.count) :
      Returns arch state.heap equiv tp1 tp2 answer ↔
        Types.eqtype arch state.heap equiv state.count tp1 tp2 = answer :=
    returns_iff ordered readable tp1.isLt tp2.isLt
  have signatures (tp1 tp2 : Fin state.count) :
      Equal arch state tp1 tp2 ↔ sig state.heap tp1 = sig state.heap tp2 :=
    (answers tp1 tp2).trans (eqtype_iff ordered tp1.isLt tp2.isLt tp1.isLt tp2.isLt)
  constructor
  · intro equiv tp1 tp2
    exact ⟨_, (answers tp1 tp2).mpr rfl⟩
  · constructor
    · intro tp
      exact (signatures tp tp).mpr rfl
    · intro tp1 tp2 equal
      exact (signatures tp2 tp1).mpr ((signatures tp1 tp2).mp equal).symm
    · intro tp1 tp2 tp3 first second
      exact (signatures tp1 tp3).mpr
        (((signatures tp1 tp2).mp first).trans ((signatures tp2 tp3).mp second))
  · intro tp
    exact (answers tp tp).mpr (eqtype_refl true tp.isLt)
  · intro tp1 tp2 equiv
    rw [Equiv, answers, eqtype_symm]
    exact (answers tp1 tp2).mp equiv
  · intro tp1 tp2 equal
    exact (answers tp1 tp2).mpr (eqtype_mono ((answers tp1 tp2).mp equal))

theorem namesKnown_symm (known : NamesKnown fields1 fields2) : NamesKnown fields2 fields1 := by
  induction fields1 generalizing fields2 with
  | nil => cases fields2 <;> trivial
  | cons s1 rest1 ih =>
    cases fields2 with
    | nil => trivial
    | cons s2 rest2 =>
      obtain ⟨named1, named2, more⟩ := known
      exact ⟨named2, named1, fun same => ih (more same.symm)⟩

theorem namesKnown_congr {fields1 fields2 fields1' fields2' : List Field}
    (names1 : fields1'.map Field.name = fields1.map Field.name)
    (names2 : fields2'.map Field.name = fields2.map Field.name)
    (known : NamesKnown fields1 fields2) : NamesKnown fields1' fields2' := by
  induction fields1' generalizing fields1 fields2 fields2' with
  | nil => cases fields2' <;> trivial
  | cons s1' rest1' ih =>
    cases fields2' with
    | nil => trivial
    | cons s2' rest2' =>
      cases fields1 with
      | nil => cases names1
      | cons s1 rest1 =>
        cases fields2 with
        | nil => cases names2
        | cons s2 rest2 =>
          rw [List.map_cons, List.map_cons, List.cons.injEq] at names1 names2
          obtain ⟨named1, named2, more⟩ := known
          refine ⟨names1.1 ▸ named1, names2.1 ▸ named2, ?_⟩
          intro same
          rw [names1.1, names2.1] at same
          exact ih names1.2 names2.2 (more same)

/-- The letters of declared structures and unions. -/
def ownLetter (tp : TypeRec) : Bool := tp.letter = 'S' || tp.letter = 'U'

/-- What a type that has been declared has. -/
structure Declared (tp : TypeRec) : Prop where
  op : tp.op ≠ .ELLIPSIS ∧ tp.op ≠ .KRFTN
  tag : isAggregate tp.op = true → nullTag tp = false ∧ ownLetter tp = true

structure Invariant (target : Target) (state : State) : Prop where
  ordered : Ordered state.heap state.count
  positive : 0 < state.count
  objects : ∀ id < state.count, Declared (state.heap id) ∨
    id < target.basics.length ∧
      (state.heap id).op = (target.basics.getD id (TypeRec.zero .VOID '0')).op ∧
        (state.heap id).letter = (target.basics.getD id (TypeRec.zero .VOID '0')).letter
  basics : target.basics.length ≤ state.count
  names : ∀ tp1 < state.count, ∀ tp2 < state.count, tp1 ≠ tp2 →
    untagged (state.heap tp1) = true → untagged (state.heap tp2) = true →
      (state.heap tp1).op = (state.heap tp2).op →
        (state.heap tp1).fields.length = (state.heap tp2).fields.length →
          NamesKnown (state.heap tp1).fields (state.heap tp2).fields

theorem allReadable_of_invariant {target : Target} {state : State}
    (inv : Invariant target state) : AllReadable state.heap state.count := by
  have basicOp {id : Nat} (live : id < state.count) (undeclared : ¬ Declared (state.heap id)) :
      id < target.basics.length ∧
        (state.heap id).op = (target.basics.getD id (TypeRec.zero .VOID '0')).op ∧
          (state.heap id).letter = (target.basics.getD id (TypeRec.zero .VOID '0')).letter :=
    (inv.objects id live).resolve_left undeclared
  intro tp1 live1 tp2 live2 different
  constructor
  · intro sameOp
    by_cases declared1 : Declared (state.heap tp1)
    · exact declared1.op
    · by_cases declared2 : Declared (state.heap tp2)
      · rw [sameOp]
        exact declared2.op
      · obtain ⟨basic1, op1, _⟩ := basicOp live1 declared1
        obtain ⟨basic2, op2, _⟩ := basicOp live2 declared2
        constructor
        · intro ellipsis
          have first := target.ellipsis tp1 basic1 (by rw [← op1, ellipsis])
          have second := target.ellipsis tp2 basic2 (by rw [← op2, ← sameOp, ellipsis])
          exact different (first.trans second.symm)
        · rw [op1]
          exact target.functions tp1 basic1
  · intro aggregate sameOp letters
    have aggregate2 : isAggregate (state.heap tp2).op = true := by rw [← sameOp, aggregate]
    by_cases declared1 : Declared (state.heap tp1)
    · by_cases declared2 : Declared (state.heap tp2)
      · exact ⟨(declared1.tag aggregate).1, (declared2.tag aggregate2).1⟩
      · obtain ⟨basic2, op2, letter2⟩ := basicOp live2 declared2
        have own := (declared1.tag aggregate).2
        have foreign := target.letters tp2 basic2 (by rw [← op2, aggregate2])
        rw [← letter2, ← letters] at foreign
        simp [ownLetter, foreign] at own
    · obtain ⟨basic1, op1, letter1⟩ := basicOp live1 declared1
      by_cases declared2 : Declared (state.heap tp2)
      · have own := (declared2.tag aggregate2).2
        have foreign := target.letters tp1 basic1 (by rw [← op1, aggregate])
        rw [← letter1, letters] at foreign
        simp [ownLetter, foreign] at own
      · obtain ⟨basic2, op2, _⟩ := basicOp live2 declared2
        exact absurd (target.single tp1 basic1 tp2 basic2 (by rw [← op1, aggregate])
          (by rw [← op2, aggregate2])) different
  · exact inv.names tp1 live1 tp2 live2 different

/-- A record that stays what it is for `eqtype()`. -/
structure Alike (tp tp' : TypeRec) : Prop where
  op : tp'.op = tp.op
  letter : tp'.letter = tp.letter
  tag : tp'.tag = tp.tag
  parts : tp'.parts = tp.parts
  names : untagged tp = true → tp'.fields.map Field.name = tp.fields.map Field.name

theorem Alike.refl (tp : TypeRec) : Alike tp tp := ⟨rfl, rfl, rfl, rfl, fun _ => rfl⟩

theorem Alike.untagged (alike : Alike tp tp') : TypeCompatible.untagged tp' = TypeCompatible.untagged tp := by
  unfold TypeCompatible.untagged
  rw [alike.op, alike.tag]

theorem Alike.declared (alike : Alike tp tp') (declared : Declared tp) : Declared tp' := by
  constructor
  · rw [alike.op]
    exact declared.op
  · rw [alike.op]
    unfold nullTag ownLetter
    rw [alike.tag, alike.letter]
    exact declared.tag

theorem Alike.length (alike : Alike tp tp')
    (noTag : TypeCompatible.untagged tp = true) : tp'.fields.length = tp.fields.length := by
  have names := congrArg List.length (alike.names noTag)
  simpa using names

variable {target : Target} {addr : Nat → Nat} {state next : State}

theorem Invariant.same (inv : Invariant target state) (count : next.count = state.count)
    (objects : ∀ id < state.count, Alike (state.heap id) (next.heap id)) : Invariant target next where
  ordered := by
    intro id live part member
    rw [count] at live
    rw [(objects id live).parts] at member
    exact inv.ordered id live part member
  positive := count ▸ inv.positive
  objects := by
    intro id live
    rw [count] at live
    cases inv.objects id live with
    | inl declared => exact Or.inl ((objects id live).declared declared)
    | inr basic =>
      rw [(objects id live).op, (objects id live).letter]
      exact Or.inr basic
  basics := count ▸ inv.basics
  names := by
    intro tp1 live1 tp2 live2 different noTag1 noTag2 op lengths
    rw [count] at live1 live2
    have alike1 := objects tp1 live1
    have alike2 := objects tp2 live2
    rw [alike1.untagged] at noTag1
    rw [alike2.untagged] at noTag2
    rw [alike1.op, alike2.op] at op
    rw [alike1.length noTag1, alike2.length noTag2] at lengths
    exact namesKnown_congr (alike1.names noTag1) (alike2.names noTag2)
      (inv.names tp1 live1 tp2 live2 different noTag1 noTag2 op lengths)

theorem Invariant.new (inv : Invariant target state) (count : next.count = state.count + 1)
    (old : ∀ id < state.count, next.heap id = state.heap id) (new : next.heap state.count = tp)
    (fits : ∀ part ∈ tp.parts, part < state.count) (declared : Declared tp)
    (known : untagged tp = true → ∀ id < state.count, untagged (state.heap id) = true →
      (state.heap id).op = tp.op → (state.heap id).fields.length = tp.fields.length →
        NamesKnown (state.heap id).fields tp.fields) : Invariant target next where
  ordered := by
    intro id live part member
    by_cases fresh : id = state.count
    · rw [fresh, new] at member
      rw [fresh]
      exact fits part member
    · rw [old id (by omega)] at member
      exact inv.ordered id (by omega) part member
  positive := by omega
  objects := by
    intro id live
    by_cases fresh : id = state.count
    · rw [fresh, new]
      exact Or.inl declared
    · rw [old id (by omega)]
      exact inv.objects id (by omega)
  basics := by
    have := inv.basics
    omega
  names := by
    intro tp1 live1 tp2 live2 different noTag1 noTag2 op lengths
    by_cases fresh1 : tp1 = state.count
    · have before2 : tp2 < state.count := by omega
      rw [fresh1, new] at noTag1 op lengths ⊢
      rw [old tp2 before2] at noTag2 op lengths ⊢
      exact namesKnown_symm (known noTag1 tp2 before2 noTag2 op.symm lengths.symm)
    · have before1 : tp1 < state.count := by omega
      rw [old tp1 before1] at noTag1 op lengths ⊢
      by_cases fresh2 : tp2 = state.count
      · rw [fresh2, new] at noTag2 op lengths ⊢
        exact known noTag2 tp1 before1 noTag1 op lengths
      · have before2 : tp2 < state.count := by omega
        rw [old tp2 before2] at noTag2 op lengths ⊢
        exact inv.names tp1 before1 tp2 before2 different noTag1 noTag2 op lengths

theorem Invariant.intern (inv : Invariant target state) {call : Call} {type : TypeRec}
    (live : call.live state = true) (described : call.type target.toArch = some type) :
    Invariant target (intern target.toArch addr type state).2 := by
  unfold Types.intern
  simp only
  split
  · exact inv
  · obtain ⟨tp, shape, made⟩ := newtype_eq target.toArch type state
    have op := (describe_shape described).1
    have plain : isAggregate tp.op = false := by
      rw [shape.op]
      rcases op with op | op | op <;> rw [op] <;> rfl
    have new : (newtype target.toArch type state).heap state.count = tp := by
      rw [made]
      exact addtype_new tp state
    refine inv.new ?_ ?_ new ?_ ?_ ?_
    · rw [made]
      rfl
    · intro id before
      rw [made]
      exact if_neg (Nat.ne_of_lt before)
    · rw [shape.parts]
      exact described_parts described live
    · constructor
      · rw [shape.op]
        constructor <;> intro same <;> rw [same] at op <;> simp at op
      · intro aggregate
        rw [plain] at aggregate
        cases aggregate
    · intro noTag
      unfold untagged at noTag
      rw [plain] at noTag
      cases noTag

structure Fresh (op : Op) (tag : Tag) (tp : TypeRec) : Prop where
  kind : op = .STRUCT ∨ op = .UNION ∨ op = .ENUM
  letter : isAggregate op = true → ownLetter tp = true
  sameOp : tp.op = op
  sameTag : tp.tag = tag
  fields : tp.fields = []

theorem fresh_tag {tag : Tag} (made : mktag target.toArch op tag state = some next) :
    ∃ tp, Fresh op tag tp ∧ next = addtype tp state := by
  have noFields {base tp : TypeRec} (shape : SameShape base tp) (none : base.fields = []) :
      tp.fields = [] := by
    have names := shape.names
    rw [none] at names
    simpa using names
  unfold mktag at made
  split at made <;> cases made
  · obtain ⟨tp, shape, allocated⟩ :=
      newtype_eq target.toArch { TypeRec.zero .STRUCT 'S' with tag := tag } state
    refine ⟨tp, ⟨Or.inl rfl, fun _ => ?_, shape.op, shape.tag, noFields shape rfl⟩, allocated⟩
    unfold ownLetter
    rw [shape.letter]
    rfl
  · obtain ⟨tp, shape, allocated⟩ :=
      newtype_eq target.toArch { TypeRec.zero .UNION 'U' with tag := tag } state
    refine ⟨tp, ⟨Or.inr (Or.inl rfl), fun _ => ?_, shape.op, shape.tag, noFields shape rfl⟩,
      allocated⟩
    unfold ownLetter
    rw [shape.letter]
    rfl
  · obtain ⟨tp, shape, allocated⟩ :=
      newtype_eq target.toArch
        { TypeRec.zero .ENUM (state.heap target.inttype).letter with
          tag := tag, rank := (state.heap target.inttype).rank } state
    exact ⟨tp, ⟨Or.inr (Or.inr rfl), nofun, shape.op, shape.tag, noFields shape rfl⟩, allocated⟩

theorem Fresh.declared {tag : Tag} (fresh : Fresh op tag tp)
    (nonzero : tag.id ≠ 0) (sameOp : tp'.op = tp.op) (letter : tp'.letter = tp.letter)
    (sameTag : tp'.tag = tp.tag) : Declared tp' := by
  constructor
  · rw [sameOp, fresh.sameOp]
    rcases fresh.kind with kind | kind | kind <;> rw [kind] <;> exact ⟨nofun, nofun⟩
  · intro aggregate
    rw [sameOp, fresh.sameOp] at aggregate
    constructor
    · unfold nullTag
      rw [sameTag, fresh.sameTag]
      simpa using nonzero
    · have own := fresh.letter aggregate
      unfold ownLetter at own ⊢
      rw [letter]
      exact own

theorem Invariant.tag (inv : Invariant target state) {name : Option Name}
    (made : mktag target.toArch op ⟨state.count, name⟩ state = some next) : Invariant target next := by
  obtain ⟨tp, fresh, rfl⟩ := fresh_tag made
  refine inv.new rfl ?_ (addtype_new tp state) ?_ ?_ ?_
  · intro id before
    exact if_neg (Nat.ne_of_lt before)
  · intro part member
    unfold TypeRec.parts at member
    rw [fresh.sameOp, fresh.fields] at member
    rcases fresh.kind with kind | kind | kind
    · simp [kind] at member
    · simp [kind] at member
    · simp [kind] at member
  · exact fresh.declared (Nat.ne_of_gt inv.positive) rfl rfl rfl
  · intro _ id before _ _ _
    rw [fresh.fields]
    cases (state.heap id).fields <;> trivial

theorem Invariant.anonymous (inv : Invariant target state) {fields : List Field}
    {made : State} (aggregate : isAggregate op = true) (live : liveFields state fields = true)
    (allocated : mktag target.toArch op ⟨state.count, none⟩ state = some made)
    (known : Known state (.anonymous op fields)) :
    Invariant target (setmembers target.toArch state.count fields made) := by
  obtain ⟨tp, fresh, rfl⟩ := fresh_tag allocated
  have shape := deftype_shape target.toArch (addtype tp state).heap
    { tp with fields := fields, elem := fields.length }
  have new : (setmembers target.toArch state.count fields (addtype tp state)).heap state.count =
      deftype target.toArch (addtype tp state).heap
        { tp with fields := fields, elem := fields.length } := by
    unfold setmembers
    rw [addtype_new]
    simp [setType]
  refine inv.new rfl ?_ new ?_ ?_ ?_
  · intro id before
    have old : id ≠ state.count := Nat.ne_of_lt before
    simp [setmembers, setType, addtype, old]
  · rw [shape.parts]
    intro part member
    unfold TypeRec.parts at member
    simp only [isAggregate, Bool.or_eq_true, decide_eq_true_eq] at aggregate
    simp only [fresh.sameOp, fresh.sameTag] at member
    rcases aggregate with kind | kind
    · simp only [kind, Option.isSome_none, Bool.false_eq_true, if_false] at member
      obtain ⟨field, inFields, rfl⟩ := List.mem_map.mp member
      exact liveFields_lt live field inFields
    · simp only [kind, Option.isSome_none, Bool.false_eq_true, if_false] at member
      obtain ⟨field, inFields, rfl⟩ := List.mem_map.mp member
      exact liveFields_lt live field inFields
  · exact fresh.declared (Nat.ne_of_gt inv.positive) shape.op shape.letter shape.tag
  · intro _ id before noTag sameOp lengths
    have names : (deftype target.toArch (addtype tp state).heap
        { tp with fields := fields, elem := fields.length }).fields.map Field.name =
        fields.map Field.name := shape.names
    have count := congrArg List.length names
    rw [List.length_map, List.length_map] at count
    rw [count] at lengths
    rw [shape.op] at sameOp
    exact namesKnown_congr rfl names (known id before noTag (sameOp.trans fresh.sameOp) lengths)

theorem step_invariant (inv : Invariant target state) {event : Event}
    (known : Known state event) (stepped : step target.toArch addr state event = some next) :
    Invariant target next := by
  cases event with
  | mktype call =>
    simp only [step] at stepped
    split_ifs at stepped with live
    obtain ⟨result, performed, rfl⟩ := Option.map_eq_some_iff.mp stepped
    unfold Call.perform mktype at performed
    split_ifs at performed
    · cases performed
      exact inv
    · obtain ⟨type, described, rfl⟩ := Option.map_eq_some_iff.mp performed
      exact inv.intern live described
  | tag op name => exact inv.tag stepped
  | members id fields =>
    simp only [step] at stepped
    split_ifs at stepped with allowed
    cases stepped
    simp only [Bool.and_eq_true] at allowed
    have tagged : isTagged (state.heap id) = true := by
      simp only [isTagged, Bool.and_eq_true]
      exact ⟨allowed.1.1.2, allowed.1.2⟩
    have keeps : Keeps state (setmembers target.toArch id fields state) :=
      setmembers_keeps tagged fields
    have shape := setmembers_shape target.toArch state.heap (state.heap id) fields
    refine Invariant.same inv ?_ ?_
    · rfl
    intro other before
    by_cases here : other = id
    · subst here
      have set : (setmembers target.toArch other fields state).heap other =
          deftype target.toArch state.heap
            { state.heap other with fields := fields, elem := fields.length } := by
        simp [setmembers, setType]
      refine ⟨?_, ?_, ?_, keeps.parts before, ?_⟩
      · rw [set]
        exact shape.1
      · rw [set]
        exact shape.2.1
      · rw [set]
        exact shape.2.2
      · intro noTag
        have name := allowed.1.2
        simp only [untagged, Bool.and_eq_true] at noTag
        rw [Option.isNone_iff_eq_none.mp noTag.2] at name
        cases name
    · have unchanged : (setmembers target.toArch id fields state).heap other =
          state.heap other := by
        simp [setmembers, setType, here]
      rw [unchanged]
      exact .refl _
  | anonymous op fields =>
    simp only [step] at stepped
    split_ifs at stepped with allowed
    rw [Bool.and_eq_true] at allowed
    obtain ⟨made, allocated, rfl⟩ := Option.map_eq_some_iff.mp stepped
    exact inv.anonymous allowed.1 allowed.2 allocated known
  | complete id nelem =>
    simp only [step] at stepped
    split_ifs at stepped with allowed
    cases stepped
    simp only [Bool.and_eq_true, decide_eq_true_eq] at allowed
    have shape := deftype_shape target.toArch state.heap { state.heap id with elem := nelem }
    refine Invariant.same inv ?_ ?_
    · rfl
    intro other _
    by_cases here : other = id
    · subst here
      have resized : Alike (state.heap other) { state.heap other with elem := nelem } :=
        ⟨rfl, rfl, rfl, rfl, fun _ => rfl⟩
      have set : setType state.heap other (deftype target.toArch state.heap
          { state.heap other with elem := nelem }) other =
          deftype target.toArch state.heap { state.heap other with elem := nelem } := by
        simp [setType]
      change Alike (state.heap other) (setType state.heap other _ other)
      rw [set]
      exact ⟨shape.op, shape.letter, shape.tag, shape.parts, fun _ => shape.names⟩
    · change Alike (state.heap other) (setType state.heap id _ other)
      unfold setType
      rw [if_neg here]
      exact .refl _
  | enter =>
    simp only [step] at stepped
    split_ifs at stepped
    cases stepped
    exact inv.same rfl fun _ _ => .refl _
  | flush =>
    simp only [step] at stepped
    split_ifs at stepped
    obtain ⟨flushed, done, rfl⟩ := Option.map_eq_some_iff.mp stepped
    unfold flushtypes at done
    obtain ⟨typetab, _, rfl⟩ := Option.map_eq_some_iff.mp done
    exact inv.same rfl fun _ _ => .refl _

theorem start_invariant (target : Target) : Invariant target (start target.toArch) where
  ordered := target.ordered
  positive := by
    have := target.void.1
    change 0 < target.basics.length
    omega
  objects := fun id live => Or.inr ⟨live, rfl, rfl⟩
  basics := Nat.le_refl _
  names := by
    intro tp1 live1 tp2 live2 different noTag1 noTag2
    unfold untagged at noTag1 noTag2
    rw [Bool.and_eq_true] at noTag1 noTag2
    exact absurd (target.single tp1 live1 tp2 live2 noTag1.1 noTag2.1) different

/-- `eqtype()` is well behaved on the types of every run that declares no structure
without a tag whose members without a name could be compared. -/
theorem compatible_wellBehaved (target : Target) (addr : Nat → Nat) (events : List Event) (state : State)
    (known : Meets (step target.toArch addr) Known (start target.toArch) events)
    (reached : run (step target.toArch addr) (start target.toArch) events = some state) :
    WellBehaved target.toArch state := by
  have inv : Invariant target state :=
    run_invariant (Invariant target) (fun _ _ _ held known stepped => step_invariant held known stepped)
      (start_invariant target) known reached
  exact wellBehaved_of_readable inv.ordered (allReadable_of_invariant inv)

instance decidableNamesKnown : (fields1 fields2 : List Field) →
    Decidable (NamesKnown fields1 fields2)
  | [], [] => isTrue trivial
  | [], _ :: _ => isTrue trivial
  | _ :: _, [] => isTrue trivial
  | _ :: rest1, _ :: rest2 =>
    have := decidableNamesKnown rest1 rest2
    inferInstanceAs (Decidable (_ ∧ _ ∧ (_ → _)))

instance (state : State) : (event : Event) → Decidable (Known state event)
  | .anonymous _ _ => inferInstanceAs (Decidable (∀ _ < _, _ = true → _ = _ → _ = _ → _))
  | .mktype _ => isTrue trivial
  | .tag _ _ => isTrue trivial
  | .members _ _ => isTrue trivial
  | .complete _ _ => isTrue trivial
  | .enter => isTrue trivial
  | .flush => isTrue trivial

/-- `struct { int a; }` and `struct { int b; int : 3; }`. -/
def namedMembers : List Event :=
  [.anonymous .STRUCT [⟨some ['a'], inttype, 0⟩],
    .anonymous .STRUCT [⟨some ['b'], inttype, 0⟩, ⟨none, inttype, 0⟩]]

theorem named_members_wellBehaved :
    ∃ state, run (step amd64.toArch staticAddr) (start amd64.toArch) namedMembers = some state ∧
      WellBehaved amd64.toArch state :=
  ⟨_, rfl, compatible_wellBehaved amd64 staticAddr namedMembers _ (by decide) rfl⟩

/-- `struct { int : 3; }`, twice. -/
def bitFields : List Event :=
  [.anonymous .STRUCT [⟨none, inttype, 0⟩], .anonymous .STRUCT [⟨none, inttype, 0⟩]]

/-- The names of two bit-fields without a declarator are compared. -/
theorem bit_fields_not_wellBehaved :
    ¬ ∀ (target : Target) (addr : Nat → Nat) (events : List Event) (state : State),
      run (step target.toArch addr) (start target.toArch) events = some state →
        WellBehaved target.toArch state := by
  intro all
  have behaved := all amd64 staticAddr bitFields _ rfl
  obtain ⟨answer, enough, settled⟩ := behaved.returns true ⟨23, by decide⟩ ⟨24, by decide⟩
  cases settled (enough + 1) (Nat.le_succ enough)

end Scc.Cc1.TypeCompatible
