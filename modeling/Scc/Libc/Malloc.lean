import Mathlib.Algebra.Ring.Nat
import Mathlib.Data.List.Chain
import Scc.Lib.Ring

/-!
# The allocator

`malloc.c`, `realloc.c` and `calloc.c`: the free blocks are a ring in the order of their addresses, with the
static `base` as its first node and a roving pointer to where the next search begins. A block has a header of
16 bytes, and its size is counted in headers. The headers and the bytes of the blocks are kept apart; that no
header is written over the bytes of a block is what the tiling of the heap says.
-/

namespace Scc.Libc.Malloc

set_option autoImplicit false

open Scc.Lib

/-- `sizeof(Header)`, under the alignment of a `long double`. -/
def headerSize : Nat := 16

/-- `SIZE_MAX`, and the address `MAXADDR`. -/
def sizeMax : Nat := 2 ^ 64 - 1

def nalloc : Nat := 16

inductive Errno
  | EINVAL
  | ENOMEM
  deriving DecidableEq, Repr

/-- What the allocator is given: the addresses of `base` and of what `_getheap` returns, the data segment being
below the heap, and what `_brk` answers to an address after the ones it was asked for before. -/
structure Machine where
  base : Nat
  getheap : Nat
  brk : List Nat → Nat → Bool
  below : base < getheap

/-- The headers by their addresses, `_freep`, the static `heap` of `sbrk()` (0 as long as it is NULL), the bytes
of the blocks, `errno` and what `_brk` has been asked for. -/
structure Heap where
  next : Nat → Nat
  size : Nat → Nat
  freep : Nat
  heap : Nat
  bytes : Nat → UInt8
  errno : Option Errno
  asked : List Nat

namespace Heap

def setNext (h : Heap) (hp next : Nat) : Heap := { h with next := Function.update h.next hp next }

def setSize (h : Heap) (hp size : Nat) : Heap := { h with size := Function.update h.size hp size }

def setFreep (h : Heap) (hp : Nat) : Heap := { h with freep := hp }

variable {h : Heap} {hp n p : Nat}

@[simp] theorem setNext_next : (h.setNext hp n).next hp = n := Function.update_self _ _ _

@[simp] theorem setNext_other (other : p ≠ hp) : (h.setNext hp n).next p = h.next p := Function.update_of_ne other _ _

@[simp] theorem setNext_size : (h.setNext hp n).size = h.size := rfl

@[simp] theorem setSize_size : (h.setSize hp n).size hp = n := Function.update_self _ _ _

@[simp] theorem setSize_other (other : p ≠ hp) : (h.setSize hp n).size p = h.size p := Function.update_of_ne other _ _

@[simp] theorem setSize_next : (h.setSize hp n).next = h.next := rfl

@[simp] theorem setFreep_next : (h.setFreep hp).next = h.next := rfl

@[simp] theorem setFreep_size : (h.setFreep hp).size = h.size := rfl

end Heap

/-- `hp + n` on pointers to headers. -/
def plus (hp n : Nat) : Nat := hp + headerSize * n

/-- The static variables before the first call. -/
def start (m : Machine) : Heap where
  next := fun _ => m.base
  size := fun _ => 0
  freep := m.base
  heap := 0
  bytes := fun _ => 0
  errno := none
  asked := []

/-- The block `hp` is between `p` and the next one, or `p` is the last one and `hp` is at the end. -/
def stops (h : Heap) (hp p : Nat) : Bool :=
  (decide (p < hp) && decide (hp < h.next p)) ||
    (decide (h.next p ≤ p) && (decide (hp < h.next p) || decide (p < hp)))

/-- A loop around the ring has its turns bounded by the end of the heap. -/
def prevchunk (h : Heap) (hp : Nat) : Option Nat := seek h.next (stops h hp) (h.heap + 2) h.freep

def joinNext (h : Heap) (hp next : Nat) : Heap :=
  if plus hp (h.size hp) = next then
    let h := h.setSize hp (h.size hp + h.size next)
    h.setNext hp (h.next next)
  else h.setNext hp next

def joinPrev (h : Heap) (prev hp : Nat) : Heap :=
  if plus prev (h.size prev) = hp then
    let h := h.setSize prev (h.size prev + h.size hp)
    h.setNext prev (h.next hp)
  else h.setNext prev hp

def free (h : Heap) (mem : Nat) : Option Heap :=
  if mem = 0 then some h
  else
    let hp := mem - headerSize
    (prevchunk h hp).map fun prev =>
      (joinPrev (joinNext h hp (h.next prev)) prev hp).setFreep prev

def sbrk (m : Machine) (h : Heap) (inc : Nat) : Heap × Option Nat :=
  let h := if h.heap = 0 then { h with heap := m.getheap } else h
  let old := h.heap
  if sizeMax - inc ≤ old then (h, none)
  else
    let new := old + inc
    let asked := { h with asked := h.asked ++ [new] }
    if m.brk h.asked new then ({ asked with heap := new }, some old) else (asked, none)

/-- The first component is the heap, the second one the pointer that is returned, none for NULL. -/
def morecore (m : Machine) (h : Heap) (nunits : Nat) : Option (Heap × Option Nat) :=
  let nunits := if nunits < nalloc then nalloc else nunits
  match sbrk m h (nunits * headerSize % 2 ^ 64) with
  | (h, none) => some (h, none)
  | (h, some hp) =>
    (free (h.setSize hp nunits) (plus hp 1)).map fun h => (h, some h.freep)

/-- The part of the loop of `malloc()` that hands out a block which fits. -/
def take (h : Heap) (prev cur nunits : Nat) : Heap × Nat :=
  if h.size cur = nunits then
    let h := h.setNext prev (h.next cur)
    ((h.setNext cur 0).setFreep prev, plus cur 1)
  else
    let h := h.setSize cur (h.size cur - nunits)
    let cur := plus cur (h.size cur)
    let h := h.setSize cur nunits
    ((h.setNext cur 0).setFreep prev, plus cur 1)

/-- The loop of `malloc()`, with the pointer that it returns, 0 for NULL. -/
def search (m : Machine) (nunits : Nat) : Nat → Heap → Nat → Option (Heap × Nat)
  | 0, _, _ => none
  | fuel + 1, h, prev =>
    let cur := h.next prev
    if nunits ≤ h.size cur then some (take h prev cur nunits)
    else if cur = h.freep then
      match morecore m h nunits with
      | none => none
      | some (h, none) => some (h, 0)
      | some (h, some cur) => search m nunits fuel h cur
    else search m nunits fuel h cur

/-- One unit for the header and enough units for the bytes. -/
def unitsFor (nbytes : Nat) : Nat := (nbytes + headerSize - 1) / headerSize + 1

/-- The loop of `malloc()` goes around the ring once, and once more when the heap has grown. -/
def turns (m : Machine) (h : Heap) (nunits : Nat) : Nat :=
  2 * (m.getheap + h.heap + headerSize * (nunits + nalloc) + 2)

def malloc (m : Machine) (h : Heap) (nbytes : Nat) : Option (Heap × Nat) :=
  if nbytes = 0 ∨ sizeMax - headerSize - 1 < nbytes then some (h, 0)
  else
    let nunits := unitsFor nbytes
    search m nunits (turns m h nunits) h h.freep

def memset (h : Heap) (s : Nat) (c : UInt8) : Nat → Heap
  | 0 => h
  | n + 1 => memset { h with bytes := Function.update h.bytes s c } (s + 1) c n

def memcpy (h : Heap) (d s : Nat) : Nat → Heap
  | 0 => h
  | n + 1 => memcpy { h with bytes := Function.update h.bytes d (h.bytes s) } (d + 1) (s + 1) n

def calloc (m : Machine) (h : Heap) (nmemb size : Nat) : Option (Heap × Nat) :=
  if nmemb = 0 ∨ size = 0 ∨ sizeMax / size < nmemb then some (h, 0)
  else
    let nbytes := nmemb * size
    (malloc m h nbytes).map fun (h, mem) => if mem = 0 then (h, 0) else (memset h mem 0 nbytes, mem)

/-- The part of `realloc()` that finds another place. -/
def move (m : Machine) (h : Heap) (ptr nbytes : Nat) : Option (Heap × Nat) :=
  (malloc m h nbytes).bind fun (h, new) =>
    if new = 0 then some (h, 0)
    else
      let n := (h.size (ptr - headerSize) - 1) * headerSize
      let n := if nbytes < n then nbytes else n
      (free (memcpy h new ptr n) ptr).map fun h => (h, new)

/-- The part of `realloc()` that makes the block larger; `new` is the place behind what is asked for. -/
def grow (m : Machine) (h : Heap) (ptr nbytes nunits oh new prev : Nat) : Option (Heap × Nat) :=
  let next := h.next prev
  if plus oh (h.size oh) = next then
    let avail := h.size oh + h.size next
    if avail = nunits then
      let h := h.setSize oh nunits
      let h := h.setNext prev (h.next next)
      some (h.setFreep prev, ptr)
    else if nunits < avail then
      let h := h.setSize oh nunits
      let h := h.setNext prev new
      let h := h.setNext new (h.next next)
      let h := h.setSize new (avail - nunits)
      some (h.setFreep new, ptr)
    else move m h ptr nbytes
  else move m h ptr nbytes

def realloc (m : Machine) (h : Heap) (ptr nbytes : Nat) : Option (Heap × Nat) :=
  if nbytes = 0 then some ({ h with errno := some .EINVAL }, 0)
  else if sizeMax - headerSize - 1 < nbytes then some ({ h with errno := some .ENOMEM }, 0)
  else if ptr = 0 then malloc m h nbytes
  else
    let nunits := unitsFor nbytes
    let oh := ptr - headerSize
    if h.size oh = nunits then some (h, ptr)
    else
      let new := plus oh nunits
      if nunits < h.size oh then
        let h := h.setSize new (h.size oh - nunits)
        let h := h.setSize oh nunits
        (free h (plus new 1)).map fun h => (h, ptr)
      else (prevchunk h oh).bind fun prev => grow m h ptr nbytes nunits oh new prev

/-- A block of the heap: the address of its header, its size in headers, and whether it is free. -/
structure Block where
  addr : Nat
  units : Nat
  free : Bool

def Block.stop (b : Block) : Nat := b.addr + 16 * b.units

/-- The blocks follow each other from an address up to another one. -/
def Tiled : Nat → List Block → Nat → Prop
  | a, [], e => a = e
  | a, b :: bs, e => b.addr = a ∧ 0 < b.units ∧ Tiled b.stop bs e

def frees (bs : List Block) : List Nat := (bs.filter Block.free).map Block.addr

def Live (bs : List Block) (b : Block) : Prop := b ∈ bs ∧ b.free = false

/-- No two blocks that follow each other are free. -/
def Apart (bs : List Block) : Prop := bs.IsChain fun b c => ¬(b.free = true ∧ c.free = true)

variable {m : Machine} {h h' : Heap} {a e n : Nat} {b c : Block} {bs pre mid mid' post : List Block}

theorem tiled_append (bs post : List Block) :
    Tiled a (bs ++ post) e ↔ ∃ m, Tiled a bs m ∧ Tiled m post e := by
  induction bs generalizing a with
  | nil => simp [Tiled]
  | cons b bs ih => simp [Tiled, ih, and_assoc]

theorem Tiled.le (tiled : Tiled a bs e) : a + bs.length ≤ e := by
  induction bs generalizing a with
  | nil => exact Nat.le_of_eq tiled
  | cons b bs ih =>
    rcases tiled with ⟨start, size, rest⟩
    have room := ih rest
    unfold Block.stop at room
    rw [List.length_cons]
    omega

theorem Tiled.inside (tiled : Tiled a bs e) (member : b ∈ bs) : a ≤ b.addr ∧ b.stop ≤ e ∧ 0 < b.units := by
  rcases List.append_of_mem member with ⟨pre, post, rfl⟩
  rcases (tiled_append pre _).mp tiled with ⟨_, first, rfl, size, rest⟩
  exact ⟨Nat.le_of_add_right_le first.le, Nat.le_of_add_right_le rest.le, size⟩

/-- Two blocks do not overlap. -/
theorem Tiled.disjoint (tiled : Tiled a bs e) (first : b ∈ bs) (second : c ∈ bs) (other : b ≠ c) :
    b.stop ≤ c.addr ∨ c.stop ≤ b.addr := by
  rcases List.append_of_mem first with ⟨pre, post, rfl⟩
  rcases (tiled_append pre _).mp tiled with ⟨_, front, rfl, _, rest⟩
  rcases List.mem_append.mp second with early | late
  · exact .inr (front.inside early).2.1
  · rcases List.mem_cons.mp late with same | late
    · exact absurd same.symm other
    · exact .inl (rest.inside late).1

@[simp] theorem frees_nil : frees [] = [] := rfl

@[simp] theorem frees_append (bs post : List Block) : frees (bs ++ post) = frees bs ++ frees post := by
  simp [frees]

@[simp] theorem frees_free (free : b.free = true) : frees (b :: bs) = b.addr :: frees bs := by
  simp [frees, free]

@[simp] theorem frees_live (live : b.free = false) : frees (b :: bs) = frees bs := by
  simp [frees, live]

theorem mem_frees {p : Nat} : p ∈ frees bs ↔ ∃ b ∈ bs, b.free = true ∧ b.addr = p := by
  simp [frees, and_assoc]

theorem Tiled.frees (tiled : Tiled a bs e) {p : Nat} (member : p ∈ frees bs) : a ≤ p ∧ p < e := by
  rcases mem_frees.mp member with ⟨b, inside, -, rfl⟩
  have bounds := tiled.inside inside
  unfold Block.stop at bounds
  omega

theorem Tiled.ordered (tiled : Tiled a bs e) : (Malloc.frees bs).Pairwise (· < ·) := by
  induction bs generalizing a with
  | nil => exact .nil
  | cons b bs ih =>
    rcases tiled with ⟨start, size, rest⟩
    cases free : b.free with
    | false =>
      rw [frees_live free]
      exact ih rest
    | true =>
      rw [frees_free free, List.pairwise_cons]
      refine ⟨?_, ih rest⟩
      intro p member
      have bounds := rest.frees member
      unfold Block.stop at bounds
      omega

def Heap.top (m : Machine) (h : Heap) : Nat := if h.heap = 0 then m.getheap else h.heap

/-- The blocks tile the heap, no two free ones follow each other, and the free ones are the ring. -/
structure Valid (m : Machine) (h : Heap) (bs : List Block) : Prop where
  tiled : Tiled m.getheap bs (h.top m)
  apart : Apart bs
  sizes : ∀ b ∈ bs, h.size b.addr = b.units
  base : h.size m.base = 0
  ring : Segment h.next m.base (m.base :: frees bs) m.base
  freep : h.freep ∈ m.base :: frees bs

theorem Valid.length (valid : Valid m h bs) : (m.base :: frees bs).length ≤ h.heap + 1 := by
  have few : (frees bs).length ≤ bs.length := by
    unfold frees
    rw [List.length_map]
    exact List.length_filter_le _ _
  have room := valid.tiled.le
  have positive := m.below
  unfold Heap.top at room
  rw [List.length_cons]
  split_ifs at room <;> omega

/-- The ring is in the order of the addresses. -/
theorem Tiled.ring_ordered (tiled : Tiled m.getheap bs e) : (m.base :: Malloc.frees bs).Pairwise (· < ·) := by
  rw [List.pairwise_cons]
  refine ⟨?_, tiled.ordered⟩
  intro p member
  have below := m.below
  have bounds := tiled.frees member
  omega

/-- Some blocks of the heap, from `a` up to `e`: `prev` is the last free block before them, `q` the first one
behind them. -/
structure Site (m : Machine) (h : Heap) (pre mid post : List Block) (a e : Nat) (qs : List Nat)
    (prev q : Nat) : Prop where
  before : Tiled m.getheap pre a
  inner : Tiled a mid e
  behind : Tiled e post (h.top m)
  last : m.base :: frees pre = qs ++ [prev]
  front : Segment h.next m.base qs prev
  within : Segment h.next (h.next prev) (frees mid) q
  back : Segment h.next q (frees post) m.base

theorem Valid.site (valid : Valid m h (pre ++ mid ++ post)) : ∃ a e qs prev q, Site m h pre mid post a e qs prev q := by
  rcases (List.eq_nil_or_concat (m.base :: frees pre)).resolve_left (List.cons_ne_nil _ _) with ⟨qs, prev, last⟩
  rw [List.concat_eq_append] at last
  rcases (tiled_append _ post).mp valid.tiled with ⟨e, first, behind⟩
  rcases (tiled_append pre mid).mp first with ⟨a, before, inner⟩
  have ring := valid.ring
  rw [List.append_assoc, frees_append, ← List.cons_append, last, List.append_assoc, List.singleton_append,
    segment_middle, frees_append, segment_append] at ring
  rcases ring with ⟨front, q, within, back⟩
  exact ⟨a, e, qs, prev, q, before, inner, behind, last, front, within, back⟩

section

variable {qs : List Nat} {prev q : Nat} (site : Site m h pre mid post a e qs prev q)

include site

theorem Site.prev_mem : prev ∈ m.base :: frees pre := by
  rw [site.last]
  simp

theorem Site.low {p : Nat} (member : p ∈ m.base :: frees pre) : m.base ≤ p ∧ p < a := by
  have below := m.below
  have start := site.before.le
  rcases List.mem_cons.mp member with rfl | member
  · omega
  · have bounds := site.before.frees member
    omega

theorem Site.early {p : Nat} (member : p ∈ qs) : p < prev := by
  have ordered := site.before.ring_ordered
  rw [site.last, List.pairwise_append] at ordered
  exact ordered.2.2 p member prev (by simp)

theorem Site.mem {p : Nat} (member : p = prev ∨ p ∈ frees mid') : p ∈ m.base :: frees (pre ++ mid' ++ post) := by
  rw [List.append_assoc, frees_append, ← List.cons_append, site.last, frees_append]
  rcases member with rfl | member
  · simp
  · simp [member]

/-- Other blocks stand in the place of these ones. -/
theorem Site.replace (valid : Valid m h (pre ++ mid ++ post)) (tiled : Tiled a mid' e) (apart : Apart (pre ++ mid' ++ post))
    (sizes : ∀ b ∈ mid', h'.size b.addr = b.units) (otherSizes : ∀ p, p < a ∨ e ≤ p → h'.size p = h.size p)
    (others : ∀ p, p < a ∨ e ≤ p → p ≠ prev → h'.next p = h.next p)
    (ring : Segment h'.next (h'.next prev) (frees mid') q) (heap : h'.heap = h.heap)
    (freep : h'.freep ∈ m.base :: frees (pre ++ mid' ++ post)) : Valid m h' (pre ++ mid' ++ post) := by
  have positive : a ≤ e := Nat.le_of_add_right_le site.inner.le
  have first := site.low List.mem_cons_self
  have prevLow := site.low site.prev_mem
  refine ⟨?_, apart, ?_, ?_, ?_, freep⟩
  · unfold Heap.top
    rw [heap, List.append_assoc, tiled_append]
    exact ⟨a, site.before, (tiled_append _ _).mpr ⟨e, tiled, site.behind⟩⟩
  · intro b member
    rcases List.mem_append.mp member with member | member
    · rcases List.mem_append.mp member with member | member
      · have bounds := site.before.inside member
        unfold Block.stop at bounds
        rw [otherSizes _ (.inl (by omega))]
        exact valid.sizes b (by simp [member])
      · exact sizes b member
    · rw [otherSizes _ (.inr (site.behind.inside member).1)]
      exact valid.sizes b (by simp [member])
  · rw [otherSizes _ (.inl first.2)]
    exact valid.base
  · rw [List.append_assoc, frees_append, ← List.cons_append, site.last, List.append_assoc, List.singleton_append,
      segment_middle, frees_append, segment_append]
    refine ⟨?_, q, ring, ?_⟩
    · apply site.front.frame
      intro p member
      have less := site.early member
      exact others p (.inl (by omega)) (by omega)
    · apply site.back.frame
      intro p member
      have bounds := site.behind.frees member
      exact others p (.inr bounds.1) (by omega)

/-- The first free block behind the place is at its end only if the next block is free. -/
theorem Site.next_ne (live : ∀ c ∈ post.head?, c.free = false) : q ≠ e := by
  have start := site.back.start
  have first := site.low List.mem_cons_self
  have room := site.inner.le
  have wraps : m.base ≠ e := by omega
  cases post with
  | nil =>
    rw [start]
    exact wraps
  | cons c post =>
    rcases site.behind with ⟨at_, size, rest⟩
    rw [frees_live (live c rfl)] at start
    cases isPost : frees post with
    | nil =>
      rw [isPost] at start
      rw [start]
      exact wraps
    | cons p ps =>
      have bounds := rest.frees (show p ∈ frees post by simp [isPost])
      rw [isPost] at start
      have same : q = p := start
      unfold Block.stop at bounds
      omega

/-- The last free block before the place ends where the place begins only if it is the previous block. -/
theorem Site.prev_ne (valid : Valid m h (pre ++ mid ++ post)) (live : ∀ c ∈ pre.getLast?, c.free = false) :
    plus prev (h.size prev) ≠ a := by
  have first := site.low List.mem_cons_self
  rcases List.mem_cons.mp site.prev_mem with rfl | member
  · rw [valid.base]
    change m.base + 16 * 0 ≠ a
    omega
  · rcases mem_frees.mp member with ⟨d, inside, free, rfl⟩
    rw [valid.sizes d (by simp [inside])]
    rcases List.append_of_mem inside with ⟨front, rest, rfl⟩
    rcases (tiled_append _ _).mp site.before with ⟨_, _, rfl, _, tiled⟩
    cases rest with
    | nil =>
      have notFree := live d (by simp)
      rw [free] at notFree
      cases notFree
    | cons c rest =>
      have bounds := tiled.inside List.mem_cons_self
      have stop : plus d.addr d.units = d.stop := rfl
      unfold Block.stop at bounds stop
      omega

/-- `_prevchunk()` finds the free block before one that is not free. -/
theorem Site.prevchunk (valid : Valid m h (pre ++ mid ++ post)) (none_ : frees mid = []) (nonempty : mid ≠ []) :
    prevchunk h a = some prev := by
  have all : m.base :: frees (pre ++ mid ++ post) = qs ++ prev :: frees post := by
    rw [List.append_assoc, frees_append, frees_append, none_, List.nil_append, ← List.cons_append, site.last,
      List.append_assoc, List.singleton_append]
  have ordered := valid.tiled.ring_ordered
  rw [all] at ordered
  have prevLow := site.low site.prev_mem
  have first := site.low List.mem_cons_self
  have room := site.inner.le
  have high : ∀ p ∈ frees post, a < p := by
    intro p member
    have bounds := site.behind.frees member
    have length : 0 < mid.length := List.length_pos_of_ne_nil nonempty
    omega
  have within := site.within
  rw [none_] at within
  have next : h.next prev = q := within
  apply seek_ring valid.ring valid.freep
  · rw [all]
    simp
  · have start := site.back.start
    rw [← next] at start
    cases isPost : frees post with
    | nil =>
      rw [isPost] at start
      have wraps : h.next prev = m.base := start
      simp [stops, wraps, prevLow]
    | cons p ps =>
      rw [isPost] at start
      have follows : h.next prev = p := start
      have above := high p (by simp [isPost])
      simp [stops, follows, above, prevLow]
  · intro p member stopped
    rw [all] at member
    simp only [stops, Bool.or_eq_true, Bool.and_eq_true, decide_eq_true_eq] at stopped
    rcases List.mem_append.mp member with early | late
    · -- a node before the one that is looked for is followed by another one before the block
      rcases List.append_of_mem early with ⟨as, bs, rfl⟩
      have follows := site.front.follows
      have low : h.next p < a := by
        rcases List.mem_append.mp follows with inside | last
        · have less := site.early (show h.next p ∈ as ++ p :: bs by simp [inside])
          omega
        · rw [List.mem_singleton.mp last]
          exact prevLow.2
      have greater : p < h.next p := by
        rw [List.append_assoc, List.cons_append, List.pairwise_append, List.pairwise_cons] at ordered
        apply ordered.2.1.1
        rcases List.mem_append.mp follows with inside | last
        · simp [inside]
        · simp [List.mem_singleton.mp last]
      omega
    · rcases List.mem_cons.mp late with same | late
      · exact same
      · have above := high p late
        rcases List.append_of_mem late with ⟨as, bs, split⟩
        have back := site.back
        rw [split] at back ordered
        rcases List.mem_append.mp back.follows with inside | last
        · rw [List.pairwise_append, List.pairwise_cons, List.pairwise_append, List.pairwise_cons] at ordered
          have greater := ordered.2.1.2.2.1.1 _ inside
          omega
        · have wraps := List.mem_singleton.mp last
          omega
  · exact Nat.le_succ_of_le valid.length

end

end Scc.Libc.Malloc
