import Scc.Cc1.Amd64Sysv
import Mathlib.Data.Nat.ModEq

/-!
# Layout of aggregates

`typesize()` gives the members of a structure or a union their offsets, and the type its size and
alignment. The alignment of a member is a power of two, or zero when the type of the member is an
aggregate without members.
-/

namespace Scc.Cc1.Types

set_option autoImplicit false

/-- The types whose size decides the size of a type. -/
def sizing (arch : Arch) (tp : TypeRec) : List Nat :=
  match tp.op with
  | .ARY => [tp.type]
  | .PTR => [arch.pvoidtype]
  | .ENUM => [arch.inttype]
  | .STRUCT | .UNION => tp.fields.map Field.type
  | _ => []

/-- A complete type: a basic type, or a type that `typesize()` computed from complete types. -/
inductive Sized (arch : Arch) (heap : Nat → TypeRec) : Nat → Prop
  | basic (id k : Nat) (known : id < arch.basics.length) (small : k ≤ 7)
      (aligned : (heap id).align.toNat = 2 ^ k) : Sized arch heap id
  | derived (id : Nat)
      (kind : (heap id).op = .ARY ∨ (heap id).op = .PTR ∨ (heap id).op = .ENUM ∨
        (heap id).op = .STRUCT ∨ (heap id).op = .UNION)
      (parts : ∀ part ∈ sizing arch (heap id), Sized arch heap part)
      (size : (heap id).size = (typesize arch heap (heap id)).size)
      (align : (heap id).align = (typesize arch heap (heap id)).align) : Sized arch heap id

section

variable (heap : Nat → TypeRec)

def Field.size (field : Field) : Nat := (heap field.type).size.toNat

def Field.align (field : Field) : Nat := (heap field.type).align.toNat

def ceiling (n align : Nat) : Nat := (n + (align - 1)) / align * align

/-- The end of the last member behind an offset. -/
def extent : List Field → Nat → Nat
  | [], offset => offset
  | field :: rest, offset => extent rest (ceiling offset (field.align heap) + field.size heap)

def largestAlign (fields : List Field) : Nat :=
  fields.foldr (fun field align => max (field.align heap) align) 0

def largestSize (fields : List Field) : Nat :=
  fields.foldr (fun field size => max (field.size heap) size) 0

/-- The size of a structure that does not overflow. -/
def structSize (fields : List Field) : Nat :=
  if largestAlign heap fields > 1 then ceiling (extent heap fields 0) (largestAlign heap fields)
  else extent heap fields 0

structure LaidOut (tp : TypeRec) : Prop where
  aligned : ∀ field ∈ tp.fields, field.align heap ∣ field.offset.toNat
  disjoint : tp.op = .STRUCT →
    tp.fields.Pairwise fun first second =>
      first.offset.toNat + first.size heap ≤ second.offset.toNat
  inside : tp.op = .STRUCT →
    ∀ field ∈ tp.fields, field.offset.toNat + field.size heap ≤ tp.size.toNat
  overlaid : tp.op = .UNION →
    ∀ field ∈ tp.fields, field.offset = 0 ∧ field.size heap ≤ tp.size.toNat
  strictest : tp.align.toNat = largestAlign heap tp.fields
  padded : tp.align.toNat ∣ tp.size.toNat

/-- What the code needs: in a structure no member without alignment comes after a member that takes
room, and in a union the largest size is a multiple of the largest alignment. -/
def Suitable (tp : TypeRec) : Prop :=
  match tp.op with
  | .STRUCT => tp.fields.Pairwise fun first second =>
    second.align heap = 0 → first.size heap = 0
  | .UNION => largestAlign heap tp.fields ∣ largestSize heap tp.fields
  | _ => True

end

variable {arch : Arch} {heap : Nat → TypeRec}

theorem le_ceiling {n align : Nat} (some_ : 0 < align) : n ≤ ceiling n align := by
  have whole := Nat.div_add_mod (n + (align - 1)) align
  have rest := Nat.mod_lt (n + (align - 1)) some_
  unfold ceiling
  rw [Nat.mul_comm]
  omega

theorem dvd_ceiling (n align : Nat) : align ∣ ceiling n align := Nat.dvd_mul_left _ _

@[simp] theorem ceiling_none (n : Nat) : ceiling n 0 = 0 := Nat.mul_zero _

theorem ceiling_zero (align : Nat) : ceiling 0 align = 0 := by
  unfold ceiling
  rcases Nat.eq_zero_or_pos align with zero | pos
  · rw [zero, Nat.mul_zero]
  · rw [Nat.div_eq_of_lt (by omega), Nat.zero_mul]

theorem and_not_low (x a : UInt64) {k : Nat} (low : a.toNat = 2 ^ k - 1) :
    (x &&& ~~~a).toNat = x.toNat / 2 ^ k * 2 ^ k := by
  have masked : (x.toBitVec &&& a.toBitVec).toNat = x.toNat % 2 ^ k := by
    rw [BitVec.toNat_and]
    change x.toNat &&& a.toNat = _
    rw [low, Nat.and_two_pow_sub_one_eq_mod]
  have parts : (x.toBitVec &&& a.toBitVec) + (x.toBitVec &&& ~~~a.toBitVec) = x.toBitVec := by
    rw [BitVec.add_eq_or_of_and_eq_zero]
    · apply BitVec.eq_of_getElem_eq
      intro i below
      simp only [BitVec.getElem_or, BitVec.getElem_and, BitVec.getElem_not]
      cases x.toBitVec[i] <;> cases a.toBitVec[i] <;> rfl
    · apply BitVec.eq_of_getElem_eq
      intro i below
      simp only [BitVec.getElem_and, BitVec.getElem_not, BitVec.getElem_zero]
      cases x.toBitVec[i] <;> cases a.toBitVec[i] <;> rfl
  have high : (x.toBitVec &&& ~~~a.toBitVec).toNat ≤ x.toNat := by
    rw [BitVec.toNat_and]
    exact Nat.and_le_left
  have sum := congrArg BitVec.toNat parts
  have bound := x.toNat_lt
  have whole := Nat.div_add_mod x.toNat (2 ^ k)
  have less := Nat.mod_le x.toNat (2 ^ k)
  rw [BitVec.toNat_add, masked] at sum
  change (x.toBitVec &&& ~~~a.toBitVec).toNat = _
  change _ = x.toNat at sum
  rw [Nat.mul_comm]
  generalize (x.toBitVec &&& ~~~a.toBitVec).toNat = y at *
  generalize 2 ^ k * (x.toNat / 2 ^ k) = multiple at *
  generalize x.toNat % 2 ^ k = rest at *
  omega

def Power (align : Nat) : Prop := align = 0 ∨ ∃ k ≤ 7, align = 2 ^ k

theorem Power.max {a b : Nat} (first : Power a) (second : Power b) : Power (max a b) := by
  rcases Nat.le_total a b with le | le
  · rwa [Nat.max_eq_right le]
  · rwa [Nat.max_eq_left le]

theorem ceiling_room {n k : Nat} (small : k ≤ 7) (fits : ceiling n (2 ^ k) < 2 ^ 64) :
    n + (2 ^ k - 1) < 2 ^ 64 := by
  have pos : 0 < 2 ^ k := Nat.two_pow_pos k
  have above := le_ceiling (n := n) pos
  have whole : 2 ^ 64 = 2 ^ (64 - k) * 2 ^ k := by
    rw [← Nat.pow_add, Nat.sub_add_cancel (by omega)]
  unfold ceiling at fits above
  have quotient : (n + (2 ^ k - 1)) / 2 ^ k < 2 ^ (64 - k) := by
    rw [whole] at fits
    exact Nat.lt_of_mul_lt_mul_right fits
  have next := Nat.mul_le_mul_right (2 ^ k) (Nat.succ_le_of_lt quotient)
  rw [Nat.succ_mul, ← whole] at next
  omega

attribute [local simp] fieldsize in
theorem mask_ceiling {offset align : UInt64} (power : Power align.toNat)
    (fits : ceiling offset.toNat align.toNat < 2 ^ 64) :
    (if align - 1 ≠ 0 then (offset + (align - 1)) &&& ~~~(align - 1) else offset).toNat =
      ceiling offset.toNat align.toNat := by
  rcases power with zero | ⟨k, small, two⟩
  · have none_ : align = 0 := UInt64.toNat_inj.mp zero
    rw [none_]
    have cleared : ∀ x : UInt64, x &&& ~~~(0 - 1) = 0 := by
      intro x
      exact UInt64.and_zero
    rw [if_pos (by decide), cleared]
    exact (ceiling_none _).symm
  · have pos : 0 < 2 ^ k := Nat.two_pow_pos k
    have one_le : (1 : UInt64) ≤ align := by
      rw [UInt64.le_iff_toNat_le]
      change 1 ≤ align.toNat
      omega
    have low : (align - 1).toNat = 2 ^ k - 1 := by
      rw [UInt64.toNat_sub_of_le _ _ one_le, two]
      rfl
    have room := ceiling_room small (two ▸ fits)
    have sum : (offset + (align - 1)).toNat = offset.toNat + (2 ^ k - 1) := by
      rw [UInt64.toNat_add, low, Nat.mod_eq_of_lt room]
    split_ifs with single
    · rw [and_not_low _ _ low, sum, two, ceiling]
    · rw [not_not] at single
      rw [single] at low
      have unit : 2 ^ k = 1 := by
        have zero : (0 : UInt64).toNat = 0 := rfl
        omega
      rw [two, unit, ceiling, Nat.div_one, Nat.mul_one]
      rfl

theorem fieldsize_types (isStruct : Bool) (fields : List Field) (offset size align : UInt64) :
    (fieldsize heap isStruct fields offset size align).1.map Field.type = fields.map Field.type := by
  induction fields generalizing offset size align with
  | nil => rfl
  | cons field rest ih =>
    unfold fieldsize
    cases isStruct with
    | true =>
      simp only [if_true, List.map_cons, ih]
    | false =>
      simp only [Bool.false_eq_true, if_false, List.map_cons, ih]

theorem larger_toNat (a b : UInt64) : (if a > b then a else b).toNat = max a.toNat b.toNat := by
  split_ifs with more
  · exact (Nat.max_eq_left (Nat.le_of_lt (UInt64.lt_iff_toNat_lt.mp more))).symm
  · exact (Nat.max_eq_right (Nat.le_of_not_lt fun lt => more (UInt64.lt_iff_toNat_lt.mpr lt))).symm

theorem fieldsize_align (isStruct : Bool) (fields : List Field) (offset size align : UInt64) :
    (fieldsize heap isStruct fields offset size align).2.2.toNat =
      max align.toNat (largestAlign heap fields) := by
  induction fields generalizing offset size align with
  | nil => exact (Nat.max_zero _).symm
  | cons field rest ih =>
    have largest : largestAlign heap (field :: rest) =
        max (field.align heap) (largestAlign heap rest) := rfl
    have longer := larger_toNat (heap field.type).align align
    unfold fieldsize
    cases isStruct with
    | true =>
      simp only [if_true, ih, longer, largest]
      rw [Nat.max_comm (heap field.type).align.toNat, Nat.max_assoc]
      rfl
    | false =>
      simp only [Bool.false_eq_true, if_false, ih, longer, largest]
      rw [Nat.max_comm (heap field.type).align.toNat, Nat.max_assoc]
      rfl

theorem largestAlign_types {fields fields' : List Field}
    (same : fields'.map Field.type = fields.map Field.type) :
    largestAlign heap fields' = largestAlign heap fields := by
  have byTypes : ∀ fields : List Field, largestAlign heap fields =
      (fields.map Field.type).foldr (fun type align => max (heap type).align.toNat align) 0 := by
    intro fields
    rw [List.foldr_map]
    rfl
  rw [byTypes, byTypes, same]

theorem largestSize_types {fields fields' : List Field}
    (same : fields'.map Field.type = fields.map Field.type) :
    largestSize heap fields' = largestSize heap fields := by
  have byTypes : ∀ fields : List Field, largestSize heap fields =
      (fields.map Field.type).foldr (fun type size => max (heap type).size.toNat size) 0 := by
    intro fields
    rw [List.foldr_map]
    rfl
  rw [byTypes, byTypes, same]

theorem largestAlign_power {fields : List Field}
    (powers : ∀ field ∈ fields, Power (field.align heap)) : Power (largestAlign heap fields) := by
  induction fields with
  | nil => exact Or.inl rfl
  | cons field rest ih =>
    exact (powers field List.mem_cons_self).max
      (ih fun other member => powers other (List.mem_cons_of_mem field member))

theorem unaligned_offset (fields : List Field) (offset size align : UInt64) :
    ∀ field ∈ (fieldsize heap true fields offset size align).1, field.align heap = 0 → field.offset = 0 := by
  induction fields generalizing offset size align with
  | nil => simp [fieldsize]
  | cons field rest ih =>
    unfold fieldsize
    simp only [if_true, List.mem_cons, forall_eq_or_imp]
    constructor
    · intro zero
      have none_ : (heap field.type).align = 0 := UInt64.toNat_inj.mp zero
      rw [none_, if_pos (by decide)]
      exact UInt64.and_zero
    · exact ih _ _ _

theorem fieldsize_union (fields : List Field) (offset size align : UInt64) :
    (fieldsize heap false fields offset size align).2.1.toNat = max size.toNat (largestSize heap fields) ∧
      ∀ field ∈ (fieldsize heap false fields offset size align).1, field.offset = 0 := by
  induction fields generalizing offset size align with
  | nil =>
    constructor
    · exact (Nat.max_zero _).symm
    · simp [fieldsize]
  | cons field rest ih =>
    have largest : largestSize heap (field :: rest) =
        max (field.size heap) (largestSize heap rest) := rfl
    have longer := larger_toNat (heap field.type).size size
    unfold fieldsize
    simp only [Bool.false_eq_true, if_false, List.mem_cons, forall_eq_or_imp, true_and]
    constructor
    · rw [(ih _ _ _).1, longer, largest, Nat.max_comm (heap field.type).size.toNat, Nat.max_assoc]
      rfl
    · exact (ih _ _ _).2

/-- No member without alignment comes after a member that takes room. -/
def Leading (heap : Nat → TypeRec) (fields : List Field) : Prop :=
  fields.Pairwise fun first second => second.align heap = 0 → first.size heap = 0

/-- An offset from which no member without alignment goes back. -/
def Forward (heap : Nat → TypeRec) (fields : List Field) (offset : Nat) : Prop :=
  ∀ field ∈ fields, field.align heap = 0 → offset = 0

variable {field : Field} {fields : List Field}

theorem Forward.le_ceiling {offset : Nat} (forward : Forward heap (field :: fields) offset) :
    offset ≤ ceiling offset (field.align heap) := by
  rcases Nat.eq_zero_or_pos (field.align heap) with zero | pos
  · rw [forward field List.mem_cons_self zero]
    exact Nat.zero_le _
  · exact Types.le_ceiling pos

theorem Forward.next {offset : Nat} (forward : Forward heap (field :: fields) offset)
    (leading : Leading heap (field :: fields)) :
    Forward heap fields (ceiling offset (field.align heap) + field.size heap) := by
  intro other member zero
  have start := forward other (List.mem_cons_of_mem field member) zero
  have empty := (List.pairwise_cons.mp leading).1 other member zero
  rw [start, ceiling_zero, empty]

theorem le_extent {offset : Nat} (leading : Leading heap fields)
    (forward : Forward heap fields offset) : offset ≤ extent heap fields offset := by
  induction fields generalizing offset with
  | nil => exact Nat.le_refl _
  | cons field rest ih =>
    have here := forward.le_ceiling
    have later := ih leading.of_cons (forward.next leading)
    rw [extent]
    omega

structure Placed (heap : Nat → TypeRec) (fields : List Field) (start stop : Nat) : Prop where
  disjoint : fields.Pairwise fun first second =>
    first.offset.toNat + first.size heap ≤ second.offset.toNat
  inside : ∀ field ∈ fields,
    start ≤ field.offset.toNat ∧ field.offset.toNat + field.size heap ≤ stop
  aligned : ∀ field ∈ fields, field.align heap ∣ field.offset.toNat

theorem Placed.cons {start next stop : Nat} (rest : Placed heap fields next stop)
    (aligned : field.align heap ∣ field.offset.toNat) (after : start ≤ field.offset.toNat)
    (behind : field.offset.toNat + field.size heap = next) (upto : next ≤ stop) :
    Placed heap (field :: fields) start stop := by
  constructor
  · rw [List.pairwise_cons]
    constructor
    · intro other member
      have later := rest.inside other member
      omega
    · exact rest.disjoint
  · intro other member
    rcases List.mem_cons.mp member with rfl | member
    · omega
    · have later := rest.inside other member
      omega
  · intro other member
    rcases List.mem_cons.mp member with rfl | member
    · exact aligned
    · exact rest.aligned other member

theorem fieldsize_struct (powers : ∀ field ∈ fields, Power (field.align heap))
    (leading : Leading heap fields) (offset align : UInt64) (forward : Forward heap fields offset.toNat)
    (fits : extent heap fields offset.toNat < 2 ^ 64) :
    (fieldsize heap true fields offset offset align).2.1.toNat = extent heap fields offset.toNat ∧
      Placed heap (fieldsize heap true fields offset offset align).1 offset.toNat
        (extent heap fields offset.toNat) := by
  induction fields generalizing offset align with
  | nil =>
    constructor
    · rfl
    · constructor <;> simp [fieldsize]
  | cons field rest ih =>
    have next := forward.next leading
    have grows := le_extent leading.of_cons next
    have fits' : extent heap rest (ceiling offset.toNat (field.align heap) + field.size heap) <
        2 ^ 64 := fits
    have place := @mask_ceiling offset _ (powers field List.mem_cons_self)
      (Nat.lt_of_le_of_lt (Nat.le_trans (Nat.le_add_right _ _) grows) fits')
    unfold fieldsize
    simp only [if_true]
    generalize (if (heap field.type).align - 1 ≠ 0 then
      (offset + ((heap field.type).align - 1)) &&& ~~~((heap field.type).align - 1)
      else offset) = placed at place ⊢
    have behind : (placed + (heap field.type).size).toNat =
        ceiling offset.toNat (field.align heap) + field.size heap := by
      rw [UInt64.toNat_add, place]
      exact Nat.mod_eq_of_lt (Nat.lt_of_le_of_lt grows fits')
    have ⟨stop, others⟩ := ih (fun other member => powers other (List.mem_cons_of_mem field member))
      leading.of_cons (placed + (heap field.type).size)
      (if (heap field.type).align > align then (heap field.type).align else align)
      (behind ▸ next) (behind ▸ fits')
    rw [behind] at stop others
    constructor
    · exact stop
    · apply others.cons
      · rw [place]
        exact dvd_ceiling _ _
      · rw [place]
        exact forward.le_ceiling
      · rw [place]
        rfl
      · exact grows

theorem largestAlign_zero (zero : largestAlign heap fields = 0) : ∀ field ∈ fields, field.align heap = 0 := by
  induction fields with
  | nil => simp
  | cons field rest ih =>
    have largest : max (field.align heap) (largestAlign heap rest) = 0 := zero
    intro other member
    rcases List.mem_cons.mp member with rfl | member
    · omega
    · exact ih (by omega) other member

theorem le_largestSize : ∀ field ∈ fields, field.size heap ≤ largestSize heap fields := by
  induction fields with
  | nil => simp
  | cons field rest ih =>
    have largest : largestSize heap (field :: rest) =
        max (field.size heap) (largestSize heap rest) := rfl
    intro other member
    rcases List.mem_cons.mp member with rfl | member
    · omega
    · have le := ih other member
      omega

theorem largestSize_zero (empty : ∀ field ∈ fields, field.size heap = 0) : largestSize heap fields = 0 := by
  induction fields with
  | nil => rfl
  | cons field rest ih =>
    have here := empty field List.mem_cons_self
    have later := ih fun other member => empty other (List.mem_cons_of_mem field member)
    change max (field.size heap) (largestSize heap rest) = 0
    omega

theorem fieldsize_empty (align : UInt64)
    (empty : ∀ field ∈ fields, field.align heap = 0 ∧ field.size heap = 0) :
    (fieldsize heap true fields 0 0 align).2.1 = 0 := by
  induction fields generalizing align with
  | nil => rfl
  | cons field rest ih =>
    have ⟨zeroAlign, zeroSize⟩ := empty field List.mem_cons_self
    have noAlign : (heap field.type).align = 0 := UInt64.toNat_inj.mp zeroAlign
    have noSize : (heap field.type).size = 0 := UInt64.toNat_inj.mp zeroSize
    unfold fieldsize
    simp only [if_true, noAlign, noSize]
    exact ih _ fun other member => empty other (List.mem_cons_of_mem field member)

theorem typesize_struct {tp : TypeRec} (op : tp.op = .STRUCT) : typesize arch heap tp = { tp with
      fields := (fieldsize heap true tp.fields 0 0 0).1
      align := (fieldsize heap true tp.fields 0 0 0).2.2
      size :=
        if (fieldsize heap true tp.fields 0 0 0).2.2 > 1 then
          ((fieldsize heap true tp.fields 0 0 0).2.1 +
            ((fieldsize heap true tp.fields 0 0 0).2.2 - 1)) &&&
            ~~~((fieldsize heap true tp.fields 0 0 0).2.2 - 1)
        else (fieldsize heap true tp.fields 0 0 0).2.1 } := by
  unfold typesize
  rw [op]

theorem typesize_union {tp : TypeRec} (op : tp.op = .UNION) : typesize arch heap tp = { tp with
      fields := (fieldsize heap false tp.fields 0 0 0).1
      align := (fieldsize heap false tp.fields 0 0 0).2.2
      size := (fieldsize heap false tp.fields 0 0 0).2.1 } := by
  unfold typesize
  rw [op]

theorem aggregate_align (isStruct : Bool) :
    (fieldsize heap isStruct fields 0 0 0).2.2.toNat = largestAlign heap fields := by
  rw [fieldsize_align]
  exact Nat.zero_max _

theorem Sized.regular {id : Nat} (sized : Sized arch heap id) :
    Power (heap id).align.toNat ∧ ((heap id).align.toNat = 0 → (heap id).size.toNat = 0) := by
  induction sized with
  | basic id k known small aligned =>
    constructor
    · exact Or.inr ⟨k, small, aligned⟩
    · have pos := Nat.two_pow_pos k
      omega
  | derived id kind parts size align ih =>
    rw [size, align]
    rcases kind with op | op | op | op | op
    · have base := ih (heap id).type (by unfold sizing; rw [op]; exact List.mem_singleton_self _)
      unfold typesize
      rw [op]
      refine ⟨base.1, fun zero => ?_⟩
      have none_ : (heap (heap id).type).size = 0 := UInt64.toNat_inj.mp (base.2 zero)
      simp [none_]
    · have base := ih arch.pvoidtype (by unfold sizing; rw [op]; exact List.mem_singleton_self _)
      unfold typesize
      rw [op]
      exact base
    · have base := ih arch.inttype (by unfold sizing; rw [op]; exact List.mem_singleton_self _)
      unfold typesize
      rw [op]
      exact base
    · have members : ∀ field ∈ (heap id).fields, _ := fun field member =>
        ih field.type (by unfold sizing; rw [op]; exact List.mem_map_of_mem member)
      rw [typesize_struct op]
      dsimp only
      rw [aggregate_align]
      refine ⟨largestAlign_power fun field member => (members field member).1, fun zero => ?_⟩
      have unaligned := largestAlign_zero zero
      have none_ : (fieldsize heap true (heap id).fields 0 0 0).2.2 = 0 :=
        UInt64.toNat_inj.mp ((aggregate_align true).trans zero)
      rw [none_, if_neg (by decide), fieldsize_empty]
      · rfl
      · intro field member
        exact ⟨unaligned field member, (members field member).2 (unaligned field member)⟩
    · have members : ∀ field ∈ (heap id).fields, _ := fun field member =>
        ih field.type (by unfold sizing; rw [op]; exact List.mem_map_of_mem member)
      rw [typesize_union op]
      dsimp only
      rw [aggregate_align, (fieldsize_union _ _ _ _).1]
      refine ⟨largestAlign_power fun field member => (members field member).1, fun zero => ?_⟩
      rw [largestSize_zero]
      · rfl
      · intro field member
        exact (members field member).2 (largestAlign_zero zero field member)

variable {tp : TypeRec}

theorem extent_le_structSize (heap : Nat → TypeRec) (fields : List Field) :
    extent heap fields 0 ≤ structSize heap fields := by
  unfold structSize
  split_ifs with several
  · exact le_ceiling (Nat.lt_trans Nat.zero_lt_one several)
  · exact Nat.le_refl _

theorem struct_size (op : tp.op = .STRUCT)
    (powers : ∀ field ∈ tp.fields, Power (field.align heap)) (leading : Leading heap tp.fields)
    (fits : structSize heap tp.fields < 2 ^ 64) :
    (typesize arch heap tp).size.toNat = structSize heap tp.fields := by
  have extentFits := Nat.lt_of_le_of_lt (extent_le_structSize heap tp.fields) fits
  have stop := (fieldsize_struct powers leading 0 0 (fun _ _ _ => rfl) extentFits).1
  have align := @aggregate_align heap tp.fields true
  have power := largestAlign_power powers
  rw [typesize_struct op]
  unfold structSize at fits ⊢
  dsimp only
  rw [← align] at fits power ⊢
  change _ = extent heap tp.fields 0 at stop
  generalize fieldsize heap true tp.fields 0 0 0 = result at stop fits power ⊢
  have several : result.2.2 > 1 ↔ result.2.2.toNat > 1 := UInt64.lt_iff_toNat_lt
  by_cases more : result.2.2 > 1
  · have nonzero : result.2.2 - 1 ≠ 0 := by
      intro zero
      have one : result.2.2 = 1 := by
        rw [← UInt64.sub_add_cancel result.2.2 1, zero]
        rfl
      rw [one] at more
      exact absurd more (by decide)
    rw [if_pos (several.mp more), ← stop] at fits
    have padded := mask_ceiling power fits
    rw [if_pos nonzero] at padded
    rw [if_pos more, if_pos (several.mp more), padded, stop]
  · rw [if_neg more, if_neg (fun gt => more (several.mpr gt))]
    exact stop

theorem largestAlign_dvd_structSize (regular : ∀ field ∈ tp.fields,
      Power (field.align heap) ∧ (field.align heap = 0 → field.size heap = 0)) :
    largestAlign heap tp.fields ∣ structSize heap tp.fields := by
  unfold structSize
  split_ifs with several
  · exact dvd_ceiling _ _
  · rcases Nat.eq_zero_or_pos (largestAlign heap tp.fields) with zero | pos
    · have unaligned := largestAlign_zero zero
      have nothing : ∀ fields : List Field,
          (∀ field ∈ fields, field.align heap = 0 ∧ field.size heap = 0) →
            extent heap fields 0 = 0 := by
        intro fields empty
        induction fields with
        | nil => rfl
        | cons field rest ih =>
          have ⟨_, size⟩ := empty field List.mem_cons_self
          rw [extent, ceiling_zero, size]
          exact ih fun other member => empty other (List.mem_cons_of_mem field member)
      rw [nothing tp.fields fun field member =>
        ⟨unaligned field member, (regular field member).2 (unaligned field member)⟩]
      exact Nat.dvd_zero _
    · have one : largestAlign heap tp.fields = 1 := by omega
      rw [one]
      exact Nat.one_dvd _

theorem leading_types {fields' : List Field} (same : fields'.map Field.type = fields.map Field.type) :
    Leading heap fields' ↔ Leading heap fields := by
  have byTypes : ∀ fields : List Field, Leading heap fields ↔
      (fields.map Field.type).Pairwise fun first second =>
        (heap second).align.toNat = 0 → (heap first).size.toNat = 0 := by
    intro fields
    rw [List.pairwise_map]
    rfl
  rw [byTypes, byTypes, same]

theorem struct_laidOut (op : tp.op = .STRUCT) (regular : ∀ field ∈ tp.fields,
      Power (field.align heap) ∧ (field.align heap = 0 → field.size heap = 0))
    (fits : structSize heap tp.fields < 2 ^ 64) :
    LaidOut heap (typesize arch heap tp) ↔ Leading heap tp.fields := by
  have powers := fun field member => (regular field member).1
  have fields : (typesize arch heap tp).fields = (fieldsize heap true tp.fields 0 0 0).1 := by
    rw [typesize_struct op]
  have types : (typesize arch heap tp).fields.map Field.type = tp.fields.map Field.type := by
    rw [fields, fieldsize_types]
  have kind : (typesize arch heap tp).op = .STRUCT := by
    rw [typesize_struct op]
    exact op
  have align : (typesize arch heap tp).align.toNat = largestAlign heap tp.fields := by
    rw [typesize_struct op]
    exact aggregate_align true
  constructor
  · intro laidOut
    rw [← leading_types types]
    apply (laidOut.disjoint kind).imp_of_mem
    intro first second _ member before zero
    rw [fields] at member
    rw [unaligned_offset _ _ _ _ second member zero] at before
    change _ ≤ 0 at before
    omega
  · intro leading
    have extentFits := Nat.lt_of_le_of_lt (extent_le_structSize heap tp.fields) fits
    have ⟨_, placed⟩ := fieldsize_struct powers leading 0 0 (fun _ _ _ => rfl) extentFits
    have size := @struct_size arch heap tp op powers leading fits
    rw [← fields] at placed
    constructor
    · exact placed.aligned
    · intro _
      exact placed.disjoint
    · intro _ field member
      have upto := (placed.inside field member).2
      have below := extent_le_structSize heap tp.fields
      rw [size]
      exact Nat.le_trans upto below
    · intro union
      rw [kind] at union
      cases union
    · rw [align, largestAlign_types types]
    · rw [align, size]
      exact largestAlign_dvd_structSize regular

theorem union_laidOut (op : tp.op = .UNION) : LaidOut heap (typesize arch heap tp) ↔
    largestAlign heap tp.fields ∣ largestSize heap tp.fields := by
  have fields : (typesize arch heap tp).fields = (fieldsize heap false tp.fields 0 0 0).1 := by
    rw [typesize_union op]
  have types : (typesize arch heap tp).fields.map Field.type = tp.fields.map Field.type := by
    rw [fields, fieldsize_types]
  have kind : (typesize arch heap tp).op = .UNION := by
    rw [typesize_union op]
    exact op
  have align : (typesize arch heap tp).align.toNat = largestAlign heap tp.fields := by
    rw [typesize_union op]
    exact aggregate_align false
  have ⟨largest, zero⟩ := @fieldsize_union heap tp.fields 0 0 0
  have size : (typesize arch heap tp).size.toNat = largestSize heap tp.fields := by
    rw [typesize_union op]
    exact largest.trans (Nat.zero_max _)
  rw [← fields] at zero
  constructor
  · intro laidOut
    rw [← align, ← size]
    exact laidOut.padded
  · intro divides
    constructor
    · intro field member
      rw [zero field member]
      exact Nat.dvd_zero _
    · intro struct
      rw [kind] at struct
      cases struct
    · intro struct
      rw [kind] at struct
      cases struct
    · intro _ field member
      have le := @le_largestSize heap (typesize arch heap tp).fields field member
      rw [largestSize_types types, ← size] at le
      exact ⟨zero field member, le⟩
    · rw [align, largestAlign_types types]
    · rw [align, size]
      exact divides

/-- The members of an aggregate lie as C wants them, and its size is padded, if and only if the
aggregate is suitable. -/
theorem laidOut_iff_suitable (arch : Arch) (heap : Nat → TypeRec) (tp : TypeRec)
    (aggregate : tp.op = .STRUCT ∨ tp.op = .UNION)
    (complete : ∀ field ∈ tp.fields, Sized arch heap field.type)
    (fits : tp.op = .STRUCT → structSize heap tp.fields < 2 ^ 64) :
    LaidOut heap (typesize arch heap tp) ↔ Suitable heap tp := by
  rcases aggregate with op | op
  · rw [struct_laidOut op (fun field member => (complete field member).regular) (fits op)]
    unfold Suitable
    rw [op]
    exact Iff.rfl
  · rw [union_laidOut op]
    unfold Suitable
    rw [op]

/-- The basic types of amd64, and an array of five characters. -/
def someHeap (id : Nat) : TypeRec :=
  if id = 23 then { TypeRec.zero .ARY 'V' with type := chartype, elem := 5, size := 5, align := 1 }
  else amd64Basics.getD id (TypeRec.zero .VOID '0')

theorem int_sized : Sized amd64_sysv someHeap inttype :=
  .basic inttype 2 (by decide) (by decide) (by decide)

theorem five_sized : Sized amd64_sysv someHeap 23 := by
  have char : Sized amd64_sysv someHeap chartype :=
    .basic chartype 0 (by decide) (by decide) (by decide)
  apply Sized.derived 23 (Or.inl rfl)
  · intro part member
    rw [List.mem_singleton.mp member]
    exact char
  · decide
  · decide

/-- `{ int i; char c[5]; }` -/
def someMembers : List Field := [⟨some ['i'], inttype, 0⟩, ⟨some ['c'], 23, 0⟩]

theorem someMembers_sized : ∀ field ∈ someMembers, Sized amd64_sysv someHeap field.type := by
  unfold someMembers
  rw [List.forall_mem_cons, List.forall_mem_singleton]
  exact ⟨int_sized, five_sized⟩

theorem struct_example_laidOut : LaidOut someHeap
        (typesize amd64_sysv someHeap { TypeRec.zero .STRUCT 'S' with fields := someMembers }) ↔
      Suitable someHeap { TypeRec.zero .STRUCT 'S' with fields := someMembers } :=
  laidOut_iff_suitable amd64_sysv someHeap { TypeRec.zero .STRUCT 'S' with fields := someMembers }
    (Or.inl rfl) someMembers_sized (fun _ => by decide)

/-- `union { int i; char c[5]; }` has five bytes and an alignment of four. -/
theorem union_unpadded : ¬ ∀ (arch : Arch) (heap : Nat → TypeRec) (tp : TypeRec),
    tp.op = .STRUCT ∨ tp.op = .UNION → (∀ field ∈ tp.fields, Sized arch heap field.type) →
      (tp.op = .STRUCT → structSize heap tp.fields < 2 ^ 64) → LaidOut heap (typesize arch heap tp) := by
  intro always
  have laidOut := always amd64_sysv someHeap { TypeRec.zero .UNION 'U' with fields := someMembers }
    (Or.inr rfl) someMembers_sized (fun op => by cases op)
  exact absurd laidOut.padded (by decide)

end Scc.Cc1.Types
