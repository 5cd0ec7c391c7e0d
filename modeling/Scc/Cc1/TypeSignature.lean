import Scc.Cc1.Types

/-!
# What `eqtype()` compares

The signature of a type is what a program can see of it: an arithmetic type is
its letter, a tagged structure its tag, and a derived type or a structure without
a tag is built from the signatures of its parts. Enumerations and the few types
that exist once are themselves. On a heap whose types are built from earlier ones
`eqtype()` without equivalence is equality of signatures.
-/

namespace Scc.Cc1.Types

set_option autoImplicit false

inductive Sig where
  | object (id : Nat)
  | arithmetic (op : Op) (letter : Char)
  | tagged (op : Op) (letter : Char) (tag : Tag)
  | members (op : Op) (letter : Char) (fields : List (Option Name × Sig))
  | pointer (type : Sig)
  | array (elem : Nat) (type : Sig)
  | function (pars : List Sig) (type : Sig)
  | krfunction (type : Sig)

/-- The signature of a record, given the signatures of its parts; `id` is its
object, if that matters. -/
def sigRec (part : Nat → Sig) (id : Nat) (tp : TypeRec) : Sig :=
  match tp.op with
  | .INT | .FLOAT => .arithmetic tp.op tp.letter
  | .STRUCT | .UNION =>
    if tp.tag.name.isSome then .tagged tp.op tp.letter tp.tag
    else .members tp.op tp.letter (tp.fields.map fun field => (field.name, part field.type))
  | .PTR => .pointer (part tp.type)
  | .ARY => .array tp.elem (part tp.type)
  | .FTN => if tp.tk_r then .krfunction (part tp.type) else .function (tp.pars.map part) (part tp.type)
  | _ => .object id

def sigFuel (heap : Nat → TypeRec) : Nat → Nat → Sig
  | 0, id => .object id
  | fuel + 1, id => sigRec (sigFuel heap fuel) id (heap id)

/-- The signature of an object: its parts are earlier objects. -/
def sig (heap : Nat → TypeRec) (id : Nat) : Sig := sigFuel heap (id + 1) id

/-- Every object is built from earlier ones. -/
def Ordered (heap : Nat → TypeRec) (count : Nat) : Prop :=
  ∀ id < count, ∀ part ∈ (heap id).parts, part < id

variable {id id1 id2 : Nat} {part : Nat → Sig} {tp1 tp2 : TypeRec}

theorem sig_rec_congr {part part' : Nat → Sig} {tp : TypeRec}
    (same : ∀ child ∈ tp.parts, part child = part' child) : sigRec part id tp = sigRec part' id tp := by
  unfold sigRec
  unfold TypeRec.parts at same
  split <;> rename_i opEq <;> simp only [opEq] at same
  · rfl
  · rfl
  · split_ifs with named
    · rfl
    · simp only [named, if_false, Bool.false_eq_true] at same
      congr 1
      apply List.map_congr_left
      intro field member
      rw [same field.type (List.mem_map_of_mem member)]
  · split_ifs with named
    · rfl
    · simp only [named, if_false, Bool.false_eq_true] at same
      congr 1
      apply List.map_congr_left
      intro field member
      rw [same field.type (List.mem_map_of_mem member)]
  · rw [same tp.type List.mem_cons_self]
  · rw [same tp.type List.mem_cons_self]
  · split_ifs with kr
    · simp only [kr, if_true] at same
      rw [same tp.type List.mem_cons_self]
    · simp only [kr, if_false, Bool.false_eq_true] at same
      rw [same tp.type List.mem_cons_self]
      congr 1
      apply List.map_congr_left
      intro child member
      exact same child (List.mem_cons_of_mem _ member)
  · rfl

theorem sig_fuel_eq {heap : Nat → TypeRec} {count : Nat} (ordered : Ordered heap count)
    {fuel id : Nat} (live : id < count) (enough : id < fuel) : sigFuel heap fuel id = sig heap id := by
  induction id using Nat.strongRecOn generalizing fuel with
  | ind id ih =>
    obtain ⟨less, rfl⟩ : ∃ less, fuel = less + 1 := ⟨fuel - 1, by omega⟩
    change sigRec (sigFuel heap less) id (heap id) = sigRec (sigFuel heap id) id (heap id)
    apply sig_rec_congr
    intro child member
    have earlier : child < id := ordered id live child member
    rw [ih child earlier (by omega) (by omega), ih child earlier (by omega) earlier]

theorem sig_eq {heap : Nat → TypeRec} {count : Nat} (ordered : Ordered heap count)
    (live : id < count) : sig heap id = sigRec (sig heap) id (heap id) := by
  apply sig_rec_congr
  intro child member
  have earlier : child < id := ordered id live child member
  exact sig_fuel_eq ordered (by omega) earlier

theorem sig_heap_congr {heap heap' : Nat → TypeRec} {count : Nat} (ordered : Ordered heap count)
    (same : ∀ id < count, sigRec (sig heap) id (heap' id) = sigRec (sig heap) id (heap id))
    (ordered' : Ordered heap' count) (live : id < count) : sig heap' id = sig heap id := by
  induction id using Nat.strongRecOn with
  | ind id ih =>
    rw [sig_eq ordered' live, sig_eq ordered live, ← same id live]
    apply sig_rec_congr
    intro child member
    have earlier : child < id := ordered' id live child member
    exact ih child earlier (by omega)

def Sig.kind : Sig → Option Op
  | .object _ => none
  | .arithmetic op _ => some op
  | .tagged op _ _ => some op
  | .members op _ _ => some op
  | .pointer _ => some .PTR
  | .array _ _ => some .ARY
  | .function _ _ => some .FTN
  | .krfunction _ => some .FTN

theorem sig_rec_kind (part : Nat → Sig) (id : Nat) (tp : TypeRec) :
    (sigRec part id tp).kind = some tp.op ∨ sigRec part id tp = .object id := by
  unfold sigRec
  split <;> rename_i opEq
  · exact Or.inl rfl
  · exact Or.inl rfl
  · left
    split_ifs <;> rfl
  · left
    split_ifs <;> rfl
  · rw [opEq]
    exact Or.inl rfl
  · rw [opEq]
    exact Or.inl rfl
  · rw [opEq]
    left
    split_ifs <;> rfl
  · exact Or.inr rfl

theorem op_of_sig_eq (different : id1 ≠ id2) (same : sigRec part id1 tp1 = sigRec part id2 tp2) :
    tp1.op = tp2.op := by
  rcases sig_rec_kind part id1 tp1 with kind1 | object1
  · rcases sig_rec_kind part id2 tp2 with kind2 | object2
    · rw [same, kind2] at kind1
      exact (Option.some.inj kind1).symm
    · rw [same, object2] at kind1
      cases kind1
  · rcases sig_rec_kind part id2 tp2 with kind2 | object2
    · rw [← same, object1] at kind2
      cases kind2
    · rw [object1, object2] at same
      exact absurd (Sig.object.inj same) different

theorem eqpars_iff {eqtype : Nat → Nat → Bool} {pars1 pars2 : List Nat}
    (parts : ∀ p1 ∈ pars1, ∀ p2 ∈ pars2, eqtype p1 p2 = true ↔ part p1 = part p2) :
    eqpars eqtype pars1 pars2 = true ↔ pars1.map part = pars2.map part := by
  induction pars1 generalizing pars2 with
  | nil => cases pars2 <;> simp [eqpars]
  | cons p1 rest1 ih =>
    cases pars2 with
    | nil => simp [eqpars]
    | cons p2 rest2 =>
      have first := parts p1 List.mem_cons_self p2 List.mem_cons_self
      have later := ih fun q1 in1 q2 in2 =>
        parts q1 (List.mem_cons_of_mem _ in1) q2 (List.mem_cons_of_mem _ in2)
      simp [eqpars, first, later]

theorem eqfields_iff {eqtype : Nat → Nat → Bool} {fields1 fields2 : List Field}
    (parts : ∀ s1 ∈ fields1, ∀ s2 ∈ fields2, eqtype s1.type s2.type = true ↔ part s1.type = part s2.type) :
    eqfields eqtype fields1 fields2 = true ↔ fields1.map (fun field => (field.name, part field.type)) =
        fields2.map fun field => (field.name, part field.type) := by
  induction fields1 generalizing fields2 with
  | nil => cases fields2 <;> simp [eqfields]
  | cons s1 rest1 ih =>
    cases fields2 with
    | nil => simp [eqfields]
    | cons s2 rest2 =>
      have first := parts s1 List.mem_cons_self s2 List.mem_cons_self
      have later := ih fun q1 in1 q2 in2 =>
        parts q1 (List.mem_cons_of_mem _ in1) q2 (List.mem_cons_of_mem _ in2)
      simp [eqfields, first, later, and_assoc]

theorem eqfuns_iff (arch : Arch) (heap : Nat → TypeRec) {eqtype : Nat → Nat → Bool} (op1 : tp1.op = .FTN)
    (op2 : tp2.op = .FTN)
    (parts : ∀ p1 ∈ tp1.parts, ∀ p2 ∈ tp2.parts, eqtype p1 p2 = true ↔ part p1 = part p2) :
    eqfuns arch heap false eqtype tp1 tp2 = true ↔ sigRec part id1 tp1 = sigRec part id2 tp2 := by
  have inParts : ∀ tp : TypeRec, tp.op = .FTN → tp.type ∈ tp.parts := by
    intro tp opEq
    unfold TypeRec.parts
    rw [opEq]
    simp only
    split_ifs
    · exact List.mem_cons_self
    · exact List.mem_cons_self
  have base := parts tp1.type (inParts tp1 op1) tp2.type (inParts tp2 op2)
  unfold eqfuns sigRec
  rw [op1, op2]
  cases kr1 : tp1.tk_r with
  | true =>
    cases kr2 : tp2.tk_r with
    | true => simp [base]
    | false => simp
  | false =>
    cases kr2 : tp2.tk_r with
    | true => simp
    | false =>
      have pars : eqpars eqtype tp1.pars tp2.pars = true ↔
          tp1.pars.map part = tp2.pars.map part := by
        apply eqpars_iff
        intro p1 in1 p2 in2
        apply parts
        · simp [TypeRec.parts, op1, kr1, in1]
        · simp [TypeRec.parts, op2, kr2, in2]
      simp [pars, base]

theorem eqrec_iff (arch : Arch) (heap : Nat → TypeRec) {eqtype : Nat → Nat → Bool} (different : id1 ≠ id2)
    (parts : ∀ p1 ∈ tp1.parts, ∀ p2 ∈ tp2.parts, eqtype p1 p2 = true ↔ part p1 = part p2) :
    eqrec arch heap false eqtype tp1 tp2 = true ↔ sigRec part id1 tp1 = sigRec part id2 tp2 := by
  by_cases sameOp : tp1.op = tp2.op
  · have structs : ∀ op, op = .STRUCT ∨ op = .UNION → tp1.op = op → tp2.op = op →
        (eqrec arch heap false eqtype tp1 tp2 = true ↔
          sigRec part id1 tp1 = sigRec part id2 tp2) := by
      rintro op aggregate op1 op2
      have members : tp1.tag.name.isSome = false → tp2.tag.name.isSome = false →
          (eqfields eqtype tp1.fields tp2.fields = true ↔
            tp1.fields.map (fun field => (field.name, part field.type)) =
              tp2.fields.map fun field => (field.name, part field.type)) := by
        intro noTag1 noTag2
        apply eqfields_iff
        intro s1 in1 s2 in2
        apply parts
        · rcases aggregate with rfl | rfl <;>
            simpa [TypeRec.parts, op1, noTag1] using ⟨s1, in1, rfl⟩
        · rcases aggregate with rfl | rfl <;>
            simpa [TypeRec.parts, op2, noTag2] using ⟨s2, in2, rfl⟩
      cases named1 : tp1.tag.name.isSome with
      | true =>
        cases named2 : tp2.tag.name.isSome with
        | true => rcases aggregate with rfl | rfl <;> simp [eqrec, sigRec, op1, op2, named1, named2]
        | false =>
          have different : tp1.tag ≠ tp2.tag := by
            intro same
            rw [same, named2] at named1
            cases named1
          rcases aggregate with rfl | rfl <;>
            simp [eqrec, sigRec, op1, op2, named1, named2, different]
      | false =>
        cases named2 : tp2.tag.name.isSome with
        | true =>
          have different : tp1.tag ≠ tp2.tag := by
            intro same
            rw [same, named2] at named1
            cases named1
          rcases aggregate with rfl | rfl <;>
            simp [eqrec, sigRec, op1, op2, named1, named2, different]
        | false =>
          rcases aggregate with rfl | rfl <;>
            simp [eqrec, sigRec, op1, op2, named1, named2, members named1 named2]
    cases op1 : tp1.op with
    | STRUCT => exact structs .STRUCT (Or.inl rfl) op1 (sameOp ▸ op1)
    | UNION => exact structs .UNION (Or.inr rfl) op1 (sameOp ▸ op1)
    | FTN =>
      have op2 : tp2.op = .FTN := sameOp ▸ op1
      rw [← eqfuns_iff arch heap op1 op2 parts]
      simp [eqrec, op1, op2]
    | PTR =>
      have op2 : tp2.op = .PTR := sameOp ▸ op1
      have base := parts tp1.type (by simp [TypeRec.parts, op1]) tp2.type
        (by simp [TypeRec.parts, op2])
      simp [eqrec, sigRec, op1, op2, base]
    | ARY =>
      have op2 : tp2.op = .ARY := sameOp ▸ op1
      have base := parts tp1.type (by simp [TypeRec.parts, op1]) tp2.type
        (by simp [TypeRec.parts, op2])
      simp [eqrec, sigRec, op1, op2, base]
    | INT =>
      have op2 : tp2.op = .INT := sameOp ▸ op1
      simp [eqrec, sigRec, op1, op2]
    | FLOAT =>
      have op2 : tp2.op = .FLOAT := sameOp ▸ op1
      simp [eqrec, sigRec, op1, op2]
    | VOID =>
      have op2 : tp2.op = .VOID := sameOp ▸ op1
      simp [eqrec, sigRec, op1, op2, different]
    | ELLIPSIS =>
      have op2 : tp2.op = .ELLIPSIS := sameOp ▸ op1
      simp [eqrec, sigRec, op1, op2, different]
    | ENUM =>
      have op2 : tp2.op = .ENUM := sameOp ▸ op1
      simp [eqrec, sigRec, op1, op2, different]
    | KRFTN =>
      have op2 : tp2.op = .KRFTN := sameOp ▸ op1
      simp [eqrec, sigRec, op1, op2, different]
  · constructor
    · intro equal
      simp [eqrec, sameOp] at equal
    · intro same
      exact absurd (op_of_sig_eq different same) sameOp

theorem eqtype_iff {arch : Arch} {heap : Nat → TypeRec} {count : Nat}
    (ordered : Ordered heap count) {fuel tp1 tp2 : Nat} (live1 : tp1 < count)
    (live2 : tp2 < count) (enough1 : tp1 < fuel) (enough2 : tp2 < fuel) :
    eqtype arch heap false fuel tp1 tp2 = true ↔ sig heap tp1 = sig heap tp2 := by
  induction fuel generalizing tp1 tp2 with
  | zero => omega
  | succ fuel ih =>
    by_cases same : tp1 = tp2
    · simp [eqtype, same]
    · have parts : ∀ p1 ∈ (heap tp1).parts, ∀ p2 ∈ (heap tp2).parts,
          eqtype arch heap false fuel p1 p2 = true ↔ sig heap p1 = sig heap p2 := by
        intro p1 in1 p2 in2
        have earlier1 := ordered tp1 live1 p1 in1
        have earlier2 := ordered tp2 live2 p2 in2
        exact ih (by omega) (by omega) (by omega) (by omega)
      rw [sig_eq ordered live1, sig_eq ordered live2, ← eqrec_iff arch heap same parts]
      simp [eqtype, same]

end Scc.Cc1.Types
