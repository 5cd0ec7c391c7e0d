import Scc.Lib.Threaded
import Scc.Lib.Run
import Mathlib.Data.List.Perm.Basic
import Mathlib.Data.List.Pairwise
import Mathlib.Tactic.Ring

/-!
# Arenas

`new()` takes an element from a list of free elements, which is threaded through the elements themselves, and
`delete()` puts one back. A new arena is made when the list is empty. Memory is one array of pointers, and what is
written outside of a block that was allocated is not told apart from what is written inside.
-/

namespace Scc.Libscc.Arenas

open Scc.Lib Scc.Lib.Run

set_option autoImplicit false

structure Arch where
  /-- The width of a `size_t`. -/
  bits : Nat
  /-- `sizeof(union hdr)` -/
  hdr : Nat
  /-- The alignment of `union hdr`. -/
  align : Nat
  hdr_pos : 0 < hdr
  align_hdr : align ∣ hdr

/-- The arguments of `alloc()`. -/
structure Alloc (arch : Arch) where
  size : Nat
  nmemb : Nat
  size_pos : 0 < size
  size_lt : size < 2 ^ arch.bits
  nmemb_pos : 0 < nmemb
  nmemb_lt : nmemb < 2 ^ arch.bits

structure State where
  /-- The arrays of the arenas. -/
  arenas : List Nat
  freep : Option Nat
  /-- `next` of the header at an address. -/
  mem : Nat → Option Nat
  /-- The elements that were handed out and not deleted. -/
  live : List Nat

def initial (mem : Nat → Option Nat) : State := ⟨[], none, mem, []⟩

section

variable {arch : Arch} (allocp : Alloc arch)

def Alloc.unit : Nat := (allocp.size - 1) / arch.hdr + 1

/-- What is passed to `xmalloc()` for an array. -/
def Alloc.bytes : Nat := allocp.unit * arch.hdr * allocp.nmemb % 2 ^ arch.bits

/-- The index of `lim`. -/
def Alloc.last : Nat := allocp.unit * (allocp.nmemb - 1) % 2 ^ arch.bits

def Alloc.stride : Nat := allocp.unit * arch.hdr

theorem Alloc.stride_pos : 0 < allocp.stride := Nat.mul_pos (Nat.succ_pos _) arch.hdr_pos

/-- The loop over the elements of an array. -/
def Alloc.thread (lim bp : Nat) (mem : Nat → Option Nat) : Nat → Option Nat :=
  if bp < lim then thread lim (bp + allocp.stride) (Function.update mem bp (some (bp + allocp.stride)))
  else Function.update mem bp none
termination_by lim - bp
decreasing_by
  have := allocp.stride_pos
  omega

def Alloc.newarena (s : State) (array : Nat) : State :=
  { s with
    arenas := array :: s.arenas, freep := some array,
    mem := allocp.thread (array + allocp.last * arch.hdr) array s.mem }

/-- The address of an array is what `xmalloc()` returns, if it is called. -/
def Alloc.new (s : State) (array : Nat) : Option (Nat × State) :=
  let s := if s.freep = none then allocp.newarena s array else s
  s.freep.map fun bp => (bp, { s with freep := s.mem bp })

def delete (s : State) (bp : Nat) : State := { s with mem := Function.update s.mem bp s.freep, freep := some bp }

/-- What the program does with the elements. -/
inductive Action
  | new (array : Nat)
  | delete (p : Nat)
  | write (p cell : Nat) (v : Option Nat)

/-- What `xmalloc()` promises. -/
def Fresh (s : State) (array : Nat) : Prop :=
  0 < array ∧ arch.align ∣ array ∧ ∀ a ∈ s.arenas, array + allocp.bytes ≤ a ∨ a + allocp.bytes ≤ array

instance (s : State) (array : Nat) : Decidable (Fresh allocp s array) := inferInstanceAs (Decidable (_ ∧ _ ∧ _))

def step (s : State) : Action → Option State
  | .new array =>
    if s.freep = none ∧ ¬ Fresh allocp s array then none
    else (allocp.new s array).map fun (p, s) => { s with live := p :: s.live }
  | .delete p => if p ∈ s.live then some { delete s p with live := s.live.erase p } else none
  | .write p cell v =>
    if p ∈ s.live ∧ p ≤ cell ∧ cell < p + allocp.size then some { s with mem := Function.update s.mem cell v }
    else none

def Apart (p q : Nat) : Prop := p + allocp.size ≤ q ∨ q + allocp.size ≤ p

structure Good (s : State) : Prop where
  apart : s.live.Pairwise (Apart allocp)
  /-- There is room for `size` bytes in an arena. -/
  inside : ∀ p ∈ s.live, ∃ a ∈ s.arenas, a ≤ p ∧ p + allocp.size ≤ a + allocp.bytes
  aligned : ∀ p ∈ s.live, arch.align ∣ p
  /-- A live element is not handed out again. -/
  once : ∀ array p s', allocp.new s array = some (p, s') → s.freep ≠ none ∨ Fresh allocp s array → p ∉ s.live

/-- The elements that the loop threads after the first. -/
def Alloc.more : Nat := (allocp.last + (allocp.unit - 1)) / allocp.unit

/-- The last element that is threaded fits into the array, which is the case unless a product overflows. -/
def Fits : Prop := allocp.more * allocp.stride + allocp.size ≤ allocp.bytes

def Alloc.slots (a : Nat) : List Nat := (List.range (allocp.more + 1)).map fun i => a + i * allocp.stride

/-- The free and the live elements are those of the arenas. -/
structure Inv (s : State) (free : List Nat) : Prop where
  threaded : Threaded s.mem s.freep free
  slots : (free ++ s.live).Perm (s.arenas.flatMap allocp.slots)
  apart : s.arenas.Pairwise fun a b => a + allocp.bytes ≤ b ∨ b + allocp.bytes ≤ a
  aligned : ∀ a ∈ s.arenas, arch.align ∣ a

variable {allocp}

theorem Alloc.unit_pos : 0 < allocp.unit := Nat.succ_pos _

theorem size_le : allocp.size ≤ allocp.stride := by
  have whole := Nat.div_add_mod (allocp.size - 1) arch.hdr
  have small := Nat.mod_lt (allocp.size - 1) arch.hdr_pos
  unfold Alloc.stride Alloc.unit
  rw [Nat.succ_mul, Nat.mul_comm]
  omega

theorem thread_spec {lim n : Nat} (bp : Nat) (mem : Nat → Option Nat) (most : lim ≤ bp + n * allocp.stride)
    (less : ∀ i < n, bp + i * allocp.stride < lim) :
    Threaded (allocp.thread lim bp mem) (some bp) ((List.range (n + 1)).map fun i => bp + i * allocp.stride) ∧
      ∀ cell, cell < bp → allocp.thread lim bp mem cell = mem cell := by
  induction n generalizing bp mem with
  | zero =>
    rw [Nat.zero_mul, Nat.add_zero] at most
    have ends : allocp.thread lim bp mem = Function.update mem bp none := by
      rw [Alloc.thread, if_neg (by omega)]
    rw [ends]
    constructor
    · refine ⟨by simp, ?_⟩
      simp [Threaded]
    · intro cell before
      exact Function.update_of_ne (by omega) _ _
  | succ n ih =>
    have positive := allocp.stride_pos
    have first : bp < lim := by
      have := less 0 (Nat.succ_pos n)
      omega
    have more : allocp.thread lim bp mem =
        allocp.thread lim (bp + allocp.stride) (Function.update mem bp (some (bp + allocp.stride))) := by
      rw [Alloc.thread, if_pos first]
    have shift : ∀ i, bp + allocp.stride + i * allocp.stride = bp + (i + 1) * allocp.stride := by
      intro i
      rw [Nat.succ_mul]
      omega
    have rest := ih (bp + allocp.stride) (Function.update mem bp (some (bp + allocp.stride)))
      (by rw [shift]; exact most) (by intro i small; rw [shift]; exact less (i + 1) (by omega))
    rw [more]
    constructor
    · rw [List.range_succ_eq_map, List.map_cons, List.map_map]
      refine ⟨by simp, ?_⟩
      rw [Nat.zero_mul, Nat.add_zero, rest.2 bp (by omega), Function.update_self]
      have tail : (List.range (n + 1)).map ((fun i => bp + i * allocp.stride) ∘ Nat.succ) =
          (List.range (n + 1)).map fun i => bp + allocp.stride + i * allocp.stride := by
        apply List.map_congr_left
        intro i _
        exact (shift i).symm
      rw [tail]
      exact rest.1
    · intro cell before
      rw [rest.2 cell (by omega)]
      exact Function.update_of_ne (by omega) _ _

theorem more_spec : allocp.last ≤ allocp.more * allocp.unit ∧ ∀ i < allocp.more, i * allocp.unit < allocp.last := by
  have whole := Nat.div_add_mod (allocp.last + (allocp.unit - 1)) allocp.unit
  have small := Nat.mod_lt (allocp.last + (allocp.unit - 1)) allocp.unit_pos
  rw [Nat.mul_comm] at whole
  unfold Alloc.more
  constructor
  · omega
  · intro i less
    have next : (i + 1) * allocp.unit ≤ (allocp.last + (allocp.unit - 1)) / allocp.unit * allocp.unit :=
      Nat.mul_le_mul_right _ less
    rw [Nat.succ_mul] at next
    omega

theorem newarena_threaded (s : State) (array : Nat) :
    Threaded (allocp.newarena s array).mem (allocp.newarena s array).freep (allocp.slots array) := by
  have spec := @more_spec arch allocp
  have lim : ∀ i, array + i * allocp.stride = array + i * allocp.unit * arch.hdr := by
    intro i
    rw [Alloc.stride, Nat.mul_assoc]
  apply (thread_spec array s.mem _ _).1
  · rw [lim]
    exact Nat.add_le_add_left (Nat.mul_le_mul_right _ spec.1) array
  · intro i less
    rw [lim]
    exact Nat.add_lt_add_left (Nat.mul_lt_mul_of_pos_right (spec.2 i less) arch.hdr_pos) array

theorem Apart.symm {p q : Nat} (apart : Apart allocp p q) : Apart allocp q p := Or.symm apart

variable {a p : Nat} {free : List Nat} {s : State}

theorem mem_slots : p ∈ allocp.slots a ↔ ∃ i ≤ allocp.more, p = a + i * allocp.stride := by
  unfold Alloc.slots
  rw [List.mem_map]
  constructor
  · intro member
    rcases member with ⟨i, range, same⟩
    exact ⟨i, Nat.le_of_lt_succ (List.mem_range.1 range), same.symm⟩
  · intro member
    rcases member with ⟨i, small, same⟩
    exact ⟨i, List.mem_range.2 (Nat.lt_succ_of_le small), same.symm⟩

theorem slots_apart (a : Nat) : (allocp.slots a).Pairwise (Apart allocp) := by
  have room := @size_le arch allocp
  unfold Alloc.slots
  rw [List.pairwise_map]
  apply List.pairwise_lt_range.imp
  intro i j less
  have next : (i + 1) * allocp.stride ≤ j * allocp.stride := Nat.mul_le_mul_right _ less
  rw [Nat.succ_mul] at next
  left
  omega

theorem slots_inside (fits : Fits allocp) (member : p ∈ allocp.slots a) :
    a ≤ p ∧ p + allocp.size ≤ a + allocp.bytes := by
  rcases mem_slots.1 member with ⟨i, small, same⟩
  have least : i * allocp.stride ≤ allocp.more * allocp.stride := Nat.mul_le_mul_right _ small
  unfold Fits at fits
  omega

theorem slots_aligned (aligned : arch.align ∣ a) (member : p ∈ allocp.slots a) : arch.align ∣ p := by
  rcases mem_slots.1 member with ⟨i, small, same⟩
  have stride : arch.align ∣ allocp.stride := Dvd.dvd.mul_left arch.align_hdr _
  rw [same]
  exact Nat.dvd_add aligned (Dvd.dvd.mul_left stride i)

theorem Inv.elements (fits : Fits allocp) (inv : Inv allocp s free) :
    (free ++ s.live).Pairwise (Apart allocp) := by
  rw [inv.slots.pairwise_iff fun apart => apart.symm, List.pairwise_flatMap]
  refine ⟨fun a _ => slots_apart a, ?_⟩
  apply inv.apart.imp
  intro a b apart p member q member'
  have inside := slots_inside fits member
  have inside' := slots_inside fits member'
  unfold Apart
  omega

theorem Apart.other {p q : Nat} (apart : Apart allocp p q) : p ≠ q := by
  have positive := allocp.size_pos
  unfold Apart at apart
  omega

theorem Inv.nodup (fits : Fits allocp) (inv : Inv allocp s free) : (free ++ s.live).Nodup :=
  (inv.elements fits).imp Apart.other

theorem Inv.live_slot (inv : Inv allocp s free) (live : p ∈ s.live) : ∃ a ∈ s.arenas, p ∈ allocp.slots a :=
  List.mem_flatMap.1 (inv.slots.mem_iff.1 (List.mem_append_right free live))

theorem Inv.refill (inv : Inv allocp s free) (array : Nat) (fresh : s.freep ≠ none ∨ Fresh allocp s array) :
    ∃ free', Inv allocp (if s.freep = none then allocp.newarena s array else s) free' ∧ free' ≠ [] := by
  by_cases empty : s.freep = none
  · have threaded := inv.threaded
    rw [empty, Threaded.none_iff] at threaded
    subst threaded
    have promised := fresh.resolve_left (not_not.2 empty)
    rw [if_pos empty]
    refine ⟨allocp.slots array, ⟨newarena_threaded s array, ?_, ?_, ?_⟩, ?_⟩
    · change (allocp.slots array ++ s.live).Perm (List.flatMap allocp.slots (array :: s.arenas))
      rw [List.flatMap_cons]
      exact List.Perm.append_left _ inv.slots
    · exact List.pairwise_cons.2 ⟨promised.2.2, inv.apart⟩
    · exact List.forall_mem_cons.2 ⟨promised.2.1, inv.aligned⟩
    · unfold Alloc.slots
      simp
  · rw [if_neg empty]
    refine ⟨free, inv, ?_⟩
    intro none_
    have threaded := inv.threaded
    rw [none_] at threaded
    exact empty threaded

theorem Inv.taken (inv : Inv allocp s free) {array : Nat}
    (fresh : s.freep ≠ none ∨ Fresh allocp s array) {s' : State} (taken : allocp.new s array = some (p, s')) :
    s'.live = s.live ∧ ∃ free', Inv allocp { s' with live := p :: s'.live } free' := by
  rcases inv.refill array fresh with ⟨free', inv', some_⟩
  have same : (if s.freep = none then allocp.newarena s array else s).live = s.live := by
    split_ifs <;> rfl
  unfold Alloc.new at taken
  dsimp only at taken
  generalize (if s.freep = none then allocp.newarena s array else s) = filled at *
  cases free' with
  | nil => exact absurd rfl some_
  | cons q free' =>
    rcases inv'.threaded with ⟨head, rest⟩
    rw [head, Option.map_some, Option.some.injEq, Prod.mk.injEq] at taken
    rcases taken with ⟨first, after_⟩
    subst first
    subst after_
    refine ⟨same, free', rest, ?_, inv'.apart, inv'.aligned⟩
    exact List.perm_middle.trans inv'.slots

theorem Inv.deleted {s : State} {free : List Nat} (fits : Fits allocp) (inv : Inv allocp s free) {p : Nat}
    (live : p ∈ s.live) : Inv allocp { delete s p with live := s.live.erase p } (p :: free) := by
  have outside : p ∉ free := by
    intro member
    exact (List.nodup_append.1 (inv.nodup fits)).2.2 p member p live rfl
  refine ⟨inv.threaded.push outside, ?_, inv.apart, inv.aligned⟩
  have moved : (p :: free ++ s.live.erase p).Perm (free ++ s.live) :=
    List.perm_middle.symm.trans (List.Perm.append_left free (List.perm_cons_erase live).symm)
  exact moved.trans inv.slots

theorem Inv.written (fits : Fits allocp) (inv : Inv allocp s free) {p cell : Nat}
    (live : p ∈ s.live) (least : p ≤ cell) (most : cell < p + allocp.size) (v : Option Nat) :
    Inv allocp { s with mem := Function.update s.mem cell v } free := by
  have outside : cell ∉ free := by
    intro member
    have apart := (List.pairwise_append.1 (inv.elements fits)).2.2 cell member p live
    have positive := allocp.size_pos
    unfold Apart at apart
    omega
  exact ⟨inv.threaded.update outside v, inv.slots, inv.apart, inv.aligned⟩

theorem step_inv (fits : Fits allocp) (s : State) (action : Action) (s' : State) (inv : ∃ free, Inv allocp s free)
    (done : step allocp s action = some s') : ∃ free, Inv allocp s' free := by
  rcases inv with ⟨free, inv⟩
  cases action with
  | new array =>
    unfold step at done
    dsimp only at done
    split_ifs at done with refused
    have fresh : s.freep ≠ none ∨ Fresh allocp s array := by
      by_cases empty : s.freep = none
      · right
        by_contra stale
        exact refused ⟨empty, stale⟩
      · exact .inl empty
    rcases Option.map_eq_some_iff.1 done with ⟨⟨p, s''⟩, taken, final⟩
    rcases inv.taken fresh taken with ⟨same, free', inv'⟩
    subst final
    exact ⟨free', inv'⟩
  | delete p =>
    unfold step at done
    dsimp only at done
    split_ifs at done with live
    cases done
    exact ⟨p :: free, inv.deleted fits live⟩
  | write p cell v =>
    unfold step at done
    dsimp only at done
    split_ifs at done with inside
    cases done
    exact ⟨free, inv.written fits inside.1 inside.2.1 inside.2.2 v⟩

theorem Inv.good (fits : Fits allocp) (inv : Inv allocp s free) : Good allocp s := by
  refine ⟨(List.pairwise_append.1 (inv.elements fits)).2.1, ?_, ?_, ?_⟩
  · intro p live
    rcases inv.live_slot live with ⟨a, arena, slot⟩
    exact ⟨a, arena, slots_inside fits slot⟩
  · intro p live
    rcases inv.live_slot live with ⟨a, arena, slot⟩
    exact slots_aligned (inv.aligned a arena) slot
  · intro array p s' taken fresh live
    rcases inv.taken fresh taken with ⟨same, free', inv'⟩
    have nodup := (List.nodup_append.1 (inv'.nodup fits)).2.1
    change (p :: s'.live).Nodup at nodup
    rw [same, List.nodup_cons] at nodup
    exact nodup.1 live

theorem initial_inv (mem : Nat → Option Nat) : Inv allocp (initial mem) [] :=
  ⟨rfl, List.Perm.refl _, List.Pairwise.nil, List.forall_mem_nil _⟩

theorem step_new {s : State} {array p : Nat} {ps : List Nat}
    (threaded : Threaded (if s.freep = none then allocp.newarena s array else s).mem
      (if s.freep = none then allocp.newarena s array else s).freep (p :: ps))
    (fresh : s.freep ≠ none ∨ Fresh allocp s array) : ∃ s', step allocp s (.new array) = some s' ∧
      s'.arenas = (if s.freep = none then allocp.newarena s array else s).arenas ∧
      Threaded s'.mem s'.freep ps ∧ s'.live = p :: s.live := by
  have allowed : ¬ (s.freep = none ∧ ¬ Fresh allocp s array) := by
    intro refused
    exact refused.2 (fresh.resolve_left (not_not.2 refused.1))
  have same : (if s.freep = none then allocp.newarena s array else s).live = s.live := by
    split_ifs <;> rfl
  unfold step Alloc.new
  dsimp only
  rw [if_neg allowed]
  generalize (if s.freep = none then allocp.newarena s array else s) = filled at *
  rw [threaded.1, Option.map_some, Option.map_some]
  exact ⟨_, rfl, rfl, threaded.2, by rw [same]⟩

theorem slots_drop (a : Nat) {j : Nat} (small : j ≤ allocp.more) :
    (allocp.slots a).drop j = (a + j * allocp.stride) :: (allocp.slots a).drop (j + 1) := by
  have length : (allocp.slots a).length = allocp.more + 1 := by
    unfold Alloc.slots
    rw [List.length_map, List.length_range]
  rw [List.drop_eq_getElem_cons (show j < (allocp.slots a).length by omega)]
  congr 1
  unfold Alloc.slots
  rw [List.getElem_map, List.getElem_range]

theorem run_new (mem : Nat → Option Nat) {j : Nat} (small : j ≤ allocp.more) :
    ∃ s, run (step allocp) (initial mem) (List.replicate (j + 1) (.new arch.hdr)) = some s ∧
      s.arenas = [arch.hdr] ∧ Threaded s.mem s.freep ((allocp.slots arch.hdr).drop (j + 1)) ∧
      arch.hdr + j * allocp.stride ∈ s.live := by
  induction j with
  | zero =>
    have fresh : Fresh allocp (initial mem) arch.hdr := ⟨arch.hdr_pos, arch.align_hdr, List.forall_mem_nil _⟩
    have threaded := @newarena_threaded arch allocp (initial mem) arch.hdr
    rw [← @List.drop_zero _ (allocp.slots arch.hdr), slots_drop _ small] at threaded
    rcases @step_new arch allocp (initial mem) _ _ _ threaded (.inr fresh) with ⟨s, done, arenas, rest, live⟩
    refine ⟨s, ?_, arenas, rest, ?_⟩
    · rw [List.replicate_one, run_cons, done]
      rfl
    · rw [live]
      exact List.mem_cons_self
  | succ j ih =>
    rcases ih (by omega) with ⟨s, done, arenas, threaded, live⟩
    rw [slots_drop _ small] at threaded
    have some_ : s.freep ≠ none := by
      rw [threaded.1]
      exact Option.some_ne_none _
    have filled : (if s.freep = none then allocp.newarena s arch.hdr else s) = s := if_neg some_
    rcases @step_new arch allocp s arch.hdr _ _ (by rw [filled]; exact threaded) (.inl some_) with
      ⟨s', done', arenas', rest, live'⟩
    refine ⟨s', ?_, ?_, rest, ?_⟩
    · rw [List.replicate_succ', run_append, done]
      exact (run_cons s _ []).trans (by rw [done']; rfl)
    · rw [arenas', filled]
      exact arenas
    · rw [live']
      exact List.mem_cons_self

theorem good_fits {mem : Nat → Option Nat}
    (good : ∀ actions s, run (step allocp) (initial mem) actions = some s → Good allocp s) : Fits allocp := by
  rcases run_new mem (Nat.le_refl allocp.more) with ⟨s, done, arenas, rest, live⟩
  rcases (good _ _ done).inside _ live with ⟨a, member, least, most⟩
  rw [arenas, List.mem_singleton] at member
  unfold Fits
  omega

theorem fits_small (allocp : Alloc arch) (small : allocp.stride * allocp.nmemb < 2 ^ arch.bits) : Fits allocp := by
  have positive := allocp.nmemb_pos
  have room := @size_le arch allocp
  have whole : allocp.nmemb - 1 + 1 = allocp.nmemb := by omega
  have bytes : allocp.bytes = allocp.stride * allocp.nmemb := Nat.mod_eq_of_lt small
  have units : allocp.unit * (allocp.nmemb - 1) < 2 ^ arch.bits := by
    refine lt_of_le_of_lt ?_ small
    unfold Alloc.stride
    exact Nat.mul_le_mul (Nat.le_mul_of_pos_right _ arch.hdr_pos) (Nat.sub_le _ _)
  have more : allocp.more = allocp.nmemb - 1 := by
    unfold Alloc.more Alloc.last
    rw [Nat.mod_eq_of_lt units, Nat.mul_add_div allocp.unit_pos, Nat.div_eq_of_lt (by have := allocp.unit_pos; omega),
      Nat.add_zero]
  unfold Fits
  rw [more, bytes, Nat.mul_comm, ← whole, Nat.mul_succ, Nat.add_sub_cancel]
  omega

end

def amd64 : Arch := ⟨64, 16, 16, by decide, by decide⟩

def large : Alloc amd64 := ⟨1, 2 ^ 60 + 1, by decide, by decide, by decide, by decide⟩

theorem large_unfit : ¬ Fits large := by
  unfold Fits
  decide

end Scc.Libscc.Arenas
