import Scc.Cc1.StaticInit

/-!
# The layout of a static initializer

Every scalar and every string should begin at its offset in the object. `emitpadding()`
adds what the address is past a multiple of the alignment, not what it lacks to the
next one. So the paddings between two scalars lead to the second one only if they do
so by arithmetic; nothing else can go wrong but a null pointer.
-/

namespace Scc.Cc1.StaticInit

set_option autoImplicit false

universe u

/-- The elements of an array at `base`, one after the other. -/
def elements {α : Type u} (part : Option Init → Nat → List α) (size : Nat) :
    Nat → List (Option Init) → Nat → List α
  | 0, _, _ => []
  | elem + 1, init, base =>
    part init.head?.join base ++ elements part size elem init.tail (base + size)

mutual

/-- The offsets and sizes of the scalars and strings of an object at `base`. -/
def subobjects : ObjType → Option Init → Nat → List (Nat × Nat)
  | .scalar size _ _, _, base => [(base, size)]
  | .ary type elem, np, base =>
    match np with
    | some .str => [(base, elem)]
    | some .expr => [(base, (ObjType.ary type elem).size)]
    | np => elements (subobjects type) type.size elem (designators np) base
  | .struct fields, np, base =>
    match np with
    | some .expr => [(base, (ObjType.struct fields).size)]
    | np => members fields (designators np) 0 base
  | .union fields, np, base =>
    match np with
    | some .expr => [(base, (ObjType.union fields).size)]
    | some (.member index init) => alternative fields index init base
    | _ => []

/-- Each member is at the offset that `typesize()` gives it. -/
def members : Fields → List (Option Init) → Nat → Nat → List (Nat × Nat)
  | .nil, _, _, _ => []
  | .cons type rest, init, offset, base =>
    subobjects type init.head?.join (base + fieldoffset offset type.align) ++
      members rest init.tail (fieldoffset offset type.align + type.size) base

def alternative : Fields → Nat → Init → Nat → List (Nat × Nat)
  | .nil, _, _, _ => []
  | .cons type _, 0, init, base => subobjects type (some init) base
  | .cons _ rest, index + 1, init, base => alternative rest index init base

end

def Item.size : Item → Nat
  | .zero => 1
  | .data size => size

/-- Where the items that are not padding begin in the data. -/
def starts : Nat → List Item → List (Nat × Nat)
  | _, [] => []
  | at_, .zero :: rest => starts (at_ + 1) rest
  | at_, .data size :: rest => (at_, size) :: starts (at_ + size) rest

def total (items : List Item) : Nat := (items.map Item.size).sum

/-- The data have the size of the type, every scalar and string where it belongs and
zero bytes between them. -/
def Correct (tp : ObjType) (np : Init) : Prop :=
  ∃ items, emitinit tp np = some items ∧ total items = tp.size ∧
    starts 0 items = subobjects tp (some np) 0

inductive Step where
  | pad (align : Nat)
  | leaf (offset size : Nat)
  /-- A null pointer is read. -/
  | crash
deriving DecidableEq

mutual

/-- What `emitdesig()` comes across, in order. -/
def walk : ObjType → Option Init → Nat → List Step
  | .scalar size align _, np, base =>
    .pad align :: (match np with
      | some (.list init) => if init.head?.join.isSome then [.leaf base size] else [.crash, .leaf base size]
      | _ => [.leaf base size])
  | .ary type elem, np, base =>
    .pad type.align :: (match np with
      | some .str => [.leaf base elem]
      | some .expr => [.leaf base (ObjType.ary type elem).size]
      | np => elements (walk type) type.size elem (designators np) base ++ [.pad type.align])
  | .struct fields, np, base =>
    .pad (ObjType.struct fields).align :: (match np with
      | some .expr => [.leaf base (ObjType.struct fields).size]
      | np => walkmembers fields (designators np) 0 base ++ [.pad (ObjType.struct fields).align])
  | .union fields, np, base =>
    .pad (ObjType.union fields).align :: (match np with
      | some .expr => [.leaf base (ObjType.union fields).size]
      | some (.member index init) =>
        walkalternative fields index init base ++ [.pad (ObjType.union fields).align]
      | _ => [.crash])

def walkmembers : Fields → List (Option Init) → Nat → Nat → List Step
  | .nil, _, _, _ => []
  | .cons type rest, init, offset, base =>
    walk type init.head?.join (base + fieldoffset offset type.align) ++
      walkmembers rest init.tail (fieldoffset offset type.align + type.size) base

def walkalternative : Fields → Nat → Init → Nat → List Step
  | .nil, _, _, _ => [.crash]
  | .cons type _, 0, init, base => walk type (some init) base
  | .cons _ rest, index + 1, init, base => walkalternative rest index init base

end

def play : List Step → Nat → Emitted
  | [], addr => some ([], addr)
  | .pad align :: rest, addr => andThen (some (emitpadding align addr)) (play rest)
  | .leaf _ size :: rest, addr => andThen (emitscalar size addr) (play rest)
  | .crash :: _, _ => none

theorem andThen_some (items : List Item) (addr : Nat) (next : Nat → Emitted) :
    andThen (some (items, addr)) next = (next addr).map fun done => (items ++ done.1, done.2) := rfl

theorem andThen_assoc (first : Emitted) (second third : Nat → Emitted) :
    andThen (andThen first second) third = andThen first fun addr => andThen (second addr) third := by
  cases first with
  | none => rfl
  | some done =>
    rcases done with ⟨items, addr⟩
    simp only [andThen, Option.bind_some]
    cases second addr with
    | none => rfl
    | some more =>
      rcases more with ⟨items', addr'⟩
      simp only [Option.map_some, Option.bind_some]
      cases third addr' with
      | none => rfl
      | some most => simp [List.append_assoc]

theorem andThen_nil (first : Emitted) : (andThen first fun addr => some ([], addr)) = first := by
  cases first with
  | none => rfl
  | some done => simp [andThen]

theorem play_append (front back : List Step) (addr : Nat) :
    play (front ++ back) addr = andThen (play front addr) (play back) := by
  induction front generalizing addr with
  | nil =>
    simp only [List.nil_append, play, andThen, Option.bind_some, List.nil_append]
    cases play back addr with
    | none => rfl
    | some done => rfl
  | cons step rest ih =>
    have later : play (rest ++ back) = fun addr => andThen (play rest addr) (play back) := by
      funext addr
      exact ih addr
    cases step with
    | pad align => rw [List.cons_append, play, play, andThen_assoc, later]
    | leaf offset size => rw [List.cons_append, play, play, andThen_assoc, later]
    | crash => rfl

theorem emitarray_play {emit : Option Init → Nat → Emitted} {steps : Option Init → Nat → List Step}
    (same : ∀ np base addr, emit np addr = play (steps np base) addr) (size elem : Nat)
    (init : List (Option Init)) (base addr : Nat) :
    emitarray emit elem init addr = play (elements steps size elem init base) addr := by
  induction elem generalizing init base addr with
  | zero => rfl
  | succ elem ih =>
    rw [emitarray, elements, play_append, same init.head?.join base]
    congr 1
    funext addr
    exact ih init.tail (base + size) addr

theorem play_pad (align : Nat) (steps : List Step) (addr : Nat) :
    play (.pad align :: steps) addr = andThen (some (emitpadding align addr)) (play steps) := rfl

theorem play_last_pad (steps : List Step) (align addr : Nat) : play (steps ++ [.pad align]) addr =
      andThen (play steps addr) fun addr => some (emitpadding align addr) := by
  rw [play_append]
  congr 1
  funext addr
  rw [play_pad]
  exact andThen_nil _

theorem play_leaf (offset size addr : Nat) : play [.leaf offset size] addr = emitscalar size addr :=
  andThen_nil _

theorem padded {align addr : Nat} {next : Nat → Emitted} {steps : List Step}
    (same : ∀ addr, next addr = play steps addr) :
    andThen (some (emitpadding align addr)) next = play (.pad align :: steps) addr := by
  rw [play_pad]
  congr 1
  funext addr
  exact same addr

mutual

/-- The code writes what it comes across. -/
theorem emitdesig_play (tp : ObjType) (np : Option Init) (base addr : Nat) :
    emitdesig tp np addr = play (walk tp np base) addr := by
  match tp with
  | .scalar size align elem =>
    have leaf : ∀ addr, emitscalar size addr = play [.leaf base size] addr :=
      fun addr => (play_leaf base size addr).symm
    match np with
    | some (.list (some _ :: _)) => exact padded leaf
    | some (.list (none :: _)) => exact padded fun _ => rfl
    | some (.list []) => exact padded fun _ => rfl
    | none => exact padded leaf
    | some .expr => exact padded leaf
    | some .str => exact padded leaf
    | some (.member _ _) => exact padded leaf
  | .ary type elem =>
    have listed : ∀ np addr, (andThen (emitarray (emitdesig type) elem (designators np) addr) fun addr =>
        some (emitpadding type.align addr)) =
          play (elements (walk type) type.size elem (designators np) base ++ [.pad type.align]) addr := by
      intro np addr
      rw [play_last_pad, emitarray_play (emitdesig_play type)]
    match np with
    | none => exact padded (listed none)
    | some .expr => exact padded fun addr => (play_leaf base _ addr).symm
    | some .str => exact padded fun addr => (play_leaf base elem addr).symm
    | some (.list init) => exact padded (listed (some (.list init)))
    | some (.member index init) => exact padded (listed (some (.member index init)))
  | .struct fields =>
    have listed : ∀ np addr, (andThen (emitfields fields (designators np) addr) fun addr =>
        some (emitpadding (ObjType.struct fields).align addr)) =
          play (walkmembers fields (designators np) 0 base ++ [.pad (ObjType.struct fields).align])
            addr := by
      intro np addr
      rw [play_last_pad, emitfields_play fields (designators np) 0 base]
    match np with
    | none => exact padded (listed none)
    | some .expr => exact padded fun addr => (play_leaf base _ addr).symm
    | some .str => exact padded (listed (some .str))
    | some (.list init) => exact padded (listed (some (.list init)))
    | some (.member index init) => exact padded (listed (some (.member index init)))
  | .union fields =>
    have chosen : ∀ index init addr, (andThen (emitmember fields index init addr) fun addr =>
        some (emitpadding (ObjType.union fields).align addr)) =
          play (walkalternative fields index init base ++ [.pad (ObjType.union fields).align]) addr := by
      intro index init addr
      rw [play_last_pad, emitmember_play fields index init base]
    match np with
    | none => exact padded fun _ => rfl
    | some .expr => exact padded fun addr => (play_leaf base _ addr).symm
    | some .str => exact padded fun _ => rfl
    | some (.list _) => exact padded fun _ => rfl
    | some (.member index init) => exact padded (chosen index init)

theorem emitfields_play (fields : Fields) (init : List (Option Init)) (offset base addr : Nat) :
    emitfields fields init addr = play (walkmembers fields init offset base) addr := by
  match fields with
  | .nil => rfl
  | .cons type rest =>
    rw [emitfields, walkmembers, play_append, emitdesig_play type]
    congr 1
    funext addr
    exact emitfields_play rest _ _ _ addr

theorem emitmember_play (fields : Fields) (index : Nat) (init : Init) (base addr : Nat) :
    emitmember fields index init addr = play (walkalternative fields index init base) addr := by
  match fields, index with
  | .nil, _ => rfl
  | .cons type _, 0 => exact emitdesig_play type (some init) base addr
  | .cons _ rest, index + 1 => exact emitmember_play rest index init base addr

end

def leaves : List Step → List (Nat × Nat)
  | [] => []
  | .leaf offset size :: rest => (offset, size) :: leaves rest
  | .pad _ :: rest => leaves rest
  | .crash :: rest => leaves rest

theorem leaves_append (front back : List Step) : leaves (front ++ back) = leaves front ++ leaves back := by
  induction front with
  | nil => rfl
  | cons step rest ih => cases step <;> simp [leaves, ih]

theorem leaves_elements {part : Option Init → Nat → List (Nat × Nat)}
    {steps : Option Init → Nat → List Step} (same : ∀ np base, leaves (steps np base) = part np base)
    (size elem : Nat) (init : List (Option Init)) (base : Nat) :
    leaves (elements steps size elem init base) = elements part size elem init base := by
  induction elem generalizing init base with
  | zero => rfl
  | succ elem ih => rw [elements, elements, leaves_append, same, ih]

theorem leaves_last_pad (steps : List Step) (align : Nat) :
    leaves (steps ++ [.pad align]) = leaves steps := by
  rw [leaves_append]
  exact List.append_nil _

mutual

theorem walk_leaves (tp : ObjType) (np : Option Init) (base : Nat) :
    leaves (walk tp np base) = subobjects tp np base := by
  match tp with
  | .scalar size align elem =>
    match np with
    | some (.list (some _ :: _)) => rfl
    | some (.list (none :: _)) => rfl
    | some (.list []) => rfl
    | none => rfl
    | some .expr => rfl
    | some .str => rfl
    | some (.member _ _) => rfl
  | .ary type elem =>
    have listed : ∀ np, leaves (elements (walk type) type.size elem (designators np) base ++
        [.pad type.align]) = elements (subobjects type) type.size elem (designators np) base := by
      intro np
      rw [leaves_last_pad, leaves_elements (walk_leaves type)]
    match np with
    | none => exact listed none
    | some .expr => rfl
    | some .str => rfl
    | some (.list init) => exact listed (some (.list init))
    | some (.member index init) => exact listed (some (.member index init))
  | .struct fields =>
    have listed : ∀ np, leaves (walkmembers fields (designators np) 0 base ++
        [.pad (ObjType.struct fields).align]) = members fields (designators np) 0 base := by
      intro np
      rw [leaves_last_pad, walkmembers_leaves fields]
    match np with
    | none => exact listed none
    | some .expr => rfl
    | some .str => exact listed (some .str)
    | some (.list init) => exact listed (some (.list init))
    | some (.member index init) => exact listed (some (.member index init))
  | .union fields =>
    match np with
    | none => rfl
    | some .expr => rfl
    | some .str => rfl
    | some (.list _) => rfl
    | some (.member index init) =>
      have chosen : leaves (walkalternative fields index init base ++
          [.pad (ObjType.union fields).align]) = alternative fields index init base := by
        rw [leaves_last_pad, walkalternative_leaves fields]
      exact chosen

theorem walkmembers_leaves (fields : Fields) (init : List (Option Init)) (offset base : Nat) :
    leaves (walkmembers fields init offset base) = members fields init offset base := by
  match fields with
  | .nil => rfl
  | .cons type rest =>
    rw [walkmembers, members, leaves_append, walk_leaves type, walkmembers_leaves rest]

theorem walkalternative_leaves (fields : Fields) (index : Nat) (init : Init) (base : Nat) :
    leaves (walkalternative fields index init base) = alternative fields index init base := by
  match fields, index with
  | .nil, _ => rfl
  | .cons type _, 0 => exact walk_leaves type (some init) base
  | .cons _ rest, index + 1 => exact walkalternative_leaves rest index init base

end

/-- Where one `emitpadding()` leads. -/
def skew (addr align : Nat) : Nat := addr + addr % align

/-- The end of a scalar, or the beginning of the object; the alignments that are padded
for; and the next scalar, or the end of the object. -/
structure Gap where
  from_ : Nat
  aligns : List Nat
  into : Nat
deriving DecidableEq

def Gap.closed (gap : Gap) : Prop := gap.aligns.foldl skew gap.from_ = gap.into

def gaps (size : Nat) : List Step → Nat → List Nat → List Gap
  | [], from_, aligns => [⟨from_, aligns, size⟩]
  | .pad align :: rest, from_, aligns => gaps size rest from_ (aligns ++ [align])
  | .leaf offset width :: rest, from_, aligns =>
    ⟨from_, aligns, offset⟩ :: gaps size rest (offset + width) []
  | .crash :: rest, from_, aligns => gaps size rest from_ aligns

/-- What the type and the shape of the initializer must satisfy. -/
structure Packed (tp : ObjType) (np : Init) : Prop where
  /-- No union is without initializer and no pointer or `_Bool` has braces. -/
  present : Step.crash ∉ walk tp (some np) 0
  closed : ∀ gap ∈ gaps tp.size (walk tp (some np) 0) 0 [], gap.closed

theorem play_crash {steps : List Step} (isIn : Step.crash ∈ steps) (addr : Nat) : play steps addr = none := by
  induction steps generalizing addr with
  | nil => exact absurd isIn List.not_mem_nil
  | cons step rest ih =>
    cases step with
    | crash => rfl
    | pad align =>
      have later : ∀ addr, play rest addr = none := ih (by simpa using isIn)
      rw [play_pad, emitpadding, andThen_some, later]
      rfl
    | leaf offset size =>
      have later : ∀ addr, play rest addr = none := ih (by simpa using isIn)
      rw [play, emitscalar, andThen_some, later]
      rfl

theorem starts_zeros (n addr : Nat) (items : List Item) :
    starts addr (List.replicate n .zero ++ items) = starts (addr + n) items := by
  induction n generalizing addr with
  | zero => rfl
  | succ n ih =>
    rw [List.replicate_succ, List.cons_append, starts, ih]
    congr 1
    omega

theorem total_zeros (n : Nat) (items : List Item) :
    total (List.replicate n .zero ++ items) = n + total items := by
  simp [total, Item.size]

theorem play_closed {steps : List Step} (present : Step.crash ∉ steps) (size from_ : Nat)
    (aligns : List Nat) : ∃ items last, play steps (aligns.foldl skew from_) = some (items, last) ∧
      ((aligns.foldl skew from_ + total items = size ∧
          starts (aligns.foldl skew from_) items = leaves steps) ↔
        ∀ gap ∈ gaps size steps from_ aligns, gap.closed) := by
  induction steps generalizing from_ aligns with
  | nil =>
    exists [], aligns.foldl skew from_
    simp [play, gaps, Gap.closed, total, starts, leaves]
  | cons step rest ih =>
    cases step with
    | crash => exact absurd List.mem_cons_self present
    | pad align =>
      rcases ih (fun isIn => present (List.mem_cons_of_mem _ isIn)) from_ (aligns ++ [align]) with
        ⟨items, last, played, layout⟩
      rw [List.foldl_append] at played layout
      generalize aligns.foldl skew from_ = addr at *
      exists List.replicate (addr % align) .zero ++ items, last
      constructor
      · have next : play rest (addr + addr % align) = some (items, last) := played
        rw [play_pad, emitpadding, andThen_some, next]
        rfl
      · rw [starts_zeros, total_zeros, gaps, ← layout, leaves, ← Nat.add_assoc]
        exact Iff.rfl
    | leaf offset width =>
      have presentRest : Step.crash ∉ rest := fun isIn => present (List.mem_cons_of_mem _ isIn)
      generalize addrEq : aligns.foldl skew from_ = addr
      rcases ih presentRest (addr + width) [] with ⟨items, last, played, layout⟩
      exists .data width :: items, last
      constructor
      · have next : play rest (addr + width) = some (items, last) := played
        rw [play, emitscalar, andThen_some, next]
        rfl
      · rw [gaps, List.forall_mem_cons, Gap.closed, leaves, starts]
        by_cases reached : addr = offset
        · rw [← reached, ← layout]
          simp [total, Item.size, addrEq, Nat.add_assoc]
        · simp [addrEq, reached]

/-- `struct { char c; int i; }` -/
def charInt : ObjType := .struct (.cons (.scalar 1 1 1) (.cons (.scalar 4 4 3) .nil))

end Scc.Cc1.StaticInit
