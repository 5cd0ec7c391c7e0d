import Scc.Libc.Malloc

/-!
# Blocks of the heap that are handed out and given back

`free()` joins a block with the free ones on both sides, `malloc()` takes a free block or the end of one, and
`morecore()` puts more memory at the end of the heap. Each of them puts other blocks into one place of it.
-/

namespace Scc.Libc.Malloc

set_option autoImplicit false

open Scc.Lib

variable {m : Machine} {h h' : Heap} {a e n : Nat} {b c x : Block} {bs pre mid mid' post : List Block}

def Heap.rest (h : Heap) : Nat × (Nat → UInt8) × Option Errno × List Nat := (h.heap, h.bytes, h.errno, h.asked)

theorem apart_cons : Apart (b :: bs) ↔ (∀ c ∈ bs.head?, ¬(b.free = true ∧ c.free = true)) ∧ Apart bs :=
  List.isChain_cons

theorem apart_append : Apart (pre ++ post) ↔ Apart pre ∧ Apart post ∧
    ∀ b ∈ pre.getLast?, ∀ c ∈ post.head?, ¬(b.free = true ∧ c.free = true) :=
  List.isChain_append

theorem live_append : Live (pre ++ post) c ↔ Live pre c ∨ Live post c := by
  unfold Live
  rw [List.mem_append, or_and_right]

theorem live_free (free : b.free = true) : Live (b :: post) c ↔ Live post c := by
  unfold Live
  rw [List.mem_cons, or_and_right]
  constructor
  · rintro (⟨rfl, live⟩ | live)
    · rw [free] at live
      cases live
    · exact live
  · exact Or.inr

theorem live_live (live : b.free = false) : Live (b :: post) c ↔ c = b ∨ Live post c := by
  unfold Live
  rw [List.mem_cons, or_and_right]
  constructor
  · rintro (⟨rfl, -⟩ | rest)
    · exact .inl rfl
    · exact .inr rest
  · rintro (rfl | rest)
    · exact .inl ⟨rfl, live⟩
    · exact .inr rest

@[simp] theorem live_nil : ¬Live [] c := by simp [Live]

/-- A free block at the end. -/
theorem apart_last (apart : Apart bs) : ∃ pre l, bs = pre ++ l ∧ (∀ c ∈ pre.getLast?, c.free = false) ∧
    (l = [] ∨ ∃ a, l = [a] ∧ a.free = true) := by
  rcases List.eq_nil_or_concat bs with rfl | ⟨pre, a, rfl⟩
  · exact ⟨[], [], rfl, by simp, .inl rfl⟩
  · rw [List.concat_eq_append] at apart ⊢
    cases free : a.free with
    | true =>
      refine ⟨pre, [a], rfl, ?_, .inr ⟨a, rfl, free⟩⟩
      intro c isLast
      have both := (apart_append.mp apart).2.2 c isLast a rfl
      simpa [free] using both
    | false =>
      refine ⟨pre ++ [a], [], by simp, ?_, .inl rfl⟩
      intro c isLast
      rw [List.getLast?_concat] at isLast
      cases isLast
      exact free

/-- A free block at the head. -/
theorem apart_head (apart : Apart bs) : ∃ r post, bs = r ++ post ∧ (∀ c ∈ post.head?, c.free = false) ∧
    (r = [] ∨ ∃ c, r = [c] ∧ c.free = true) := by
  cases bs with
  | nil => exact ⟨[], [], rfl, by simp, .inl rfl⟩
  | cons c post =>
    cases free : c.free with
    | true =>
      refine ⟨[c], post, rfl, ?_, .inr ⟨c, rfl, free⟩⟩
      intro d isHead
      have both := (apart_cons.mp apart).1 d isHead
      simpa [free] using both
    | false =>
      refine ⟨[], c :: post, rfl, ?_, .inl rfl⟩
      intro d isHead
      cases isHead
      exact free

/-- One block between blocks that are not free. -/
theorem apart_between (apart : Apart (pre ++ mid ++ post)) (left : ∀ c ∈ pre.getLast?, c.free = false)
    (right : ∀ c ∈ post.head?, c.free = false) : Apart (pre ++ [x] ++ post) := by
  rw [apart_append, apart_append] at apart ⊢
  refine ⟨⟨apart.1.1, .singleton x, ?_⟩, apart.2.1, ?_⟩
  · rintro b isLast c - ⟨free, -⟩
    rw [left b isLast] at free
    cases free
  · rintro b - c isHead ⟨-, free⟩
    rw [right c isHead] at free
    cases free

theorem Tiled.sum (tiled : Tiled a bs e) : a + 16 * (bs.map Block.units).sum = e := by
  induction bs generalizing a with
  | nil => exact tiled
  | cons b bs ih =>
    rcases tiled with ⟨start, _, rest⟩
    have sum := ih rest
    unfold Block.stop at sum
    rw [List.map_cons, List.sum_cons]
    omega

/-- The block takes what is free behind it. -/
theorem joinNext_eq {r : List Block} {next q : Nat} (size : h.size b.addr = b.units) (tiled : Tiled b.stop r e)
    (sizes : ∀ c ∈ r, h.size c.addr = c.units) (within : Segment h.next next (frees r) q) (away : q ≠ e)
    (shape : r = [] ∨ ∃ c, r = [c] ∧ c.free = true) : joinNext h b.addr next =
      (h.setSize b.addr (b.units + (r.map Block.units).sum)).setNext b.addr q := by
  rcases shape with rfl | ⟨c, rfl, free⟩
  · have same : next = q := within
    have ends : b.stop = e := tiled
    have apart : plus b.addr (h.size b.addr) ≠ next := by
      rw [size, same]
      exact fun adjacent => away (adjacent.symm.trans ends)
    have kept : h.setSize b.addr (b.units + ([].map Block.units).sum) = h := by
      unfold Heap.setSize
      rw [List.map_nil, List.sum_nil, Nat.add_zero, ← size, Function.update_eq_self]
    unfold joinNext
    rw [if_neg apart, kept, same]
  · rw [frees_free free] at within
    rcases within with ⟨rfl, last⟩
    have last : h.next c.addr = q := last
    have adjacent : plus b.addr (h.size b.addr) = c.addr := by
      rw [size, tiled.1]
      rfl
    unfold joinNext
    rw [if_pos adjacent, size, sizes c (by simp), ← last]
    simp [Heap.setSize, Heap.setNext]

/-- What a call to `free()` does to a block that is not free. -/
theorem free_spec (valid : Valid m h (pre ++ [b] ++ post)) (live : b.free = false) :
    ∃ h' bs, free h (b.addr + 16) = some h' ∧ Valid m h' bs ∧ h'.rest = h.rest ∧
      (∀ c, Live bs c ↔ Live (pre ++ post) c) ∧ ∃ y ∈ bs, y.free = true ∧ b.units ≤ y.units := by
  rcases valid.site with ⟨_, _, qs₀, prev₀, q₀, site₀⟩
  rcases site₀.inner with ⟨rfl, size, rfl⟩
  have found := site₀.prevchunk valid (frees_live live) (List.cons_ne_nil _ _)
  have apart := valid.apart
  rw [apart_append, apart_append] at apart
  rcases apart_last apart.1.1 with ⟨pre, l, rfl, left, shape⟩
  rcases apart_head apart.2.1 with ⟨r, post, rfl, right, shape'⟩
  have around : Valid m h (pre ++ (l ++ b :: r) ++ post) := by simpa using valid
  rcases around.site with ⟨a, e, qs, prev, q, site⟩
  rcases (tiled_append l _).mp site.inner with ⟨_, tiledLeft, rfl, _, tiledRight⟩
  have within := site.within
  rw [frees_append, frees_live live] at within
  have prevLow := (site.low site.prev_mem).2
  have bounds : a ≤ b.addr ∧ b.addr < e := by
    have first := tiledLeft.le
    have second := tiledRight.le
    unfold Block.stop at second
    omega
  have freed : free h (b.addr + 16) =
      some ((joinPrev (joinNext h b.addr (h.next prev₀)) prev₀ b.addr).setFreep prev₀) := by
    unfold free
    rw [if_neg (by omega), show b.addr + 16 - headerSize = b.addr from Nat.add_sub_cancel _ _]
    dsimp only
    rw [found]
    rfl
  have segment : Segment h.next (h.next prev₀) (frees r) q := by
    rcases shape with rfl | ⟨d, rfl, free⟩
    · have same := site₀.last.symm.trans (by simpa using site.last)
      rw [(List.append_inj' same rfl).2 |> List.singleton_inj.mp]
      exact within
    · have same := site₀.last
      rw [frees_append, frees_free free, ← List.cons_append] at same
      rw [← (List.append_inj' same rfl).2 |> List.singleton_inj.mp]
      rw [frees_free free] at within
      exact within.2
  have joined := joinNext_eq (valid.sizes b (by simp)) tiledRight (fun c member => around.sizes c (by simp [member]))
    segment (site.next_ne right) shape'
  have sum := tiledRight.sum
  have start := tiledLeft.sum
  have ends : b.stop = b.addr + 16 * b.units := rfl
  rw [freed, joined]
  -- the one block that stands for all of them afterwards
  have finish : ∀ (h' : Heap) (x : Block), x.addr = a → x.stop = e → x.free = true → b.units ≤ x.units →
      h'.size a = x.units → (∀ p, p < a ∨ e ≤ p → h'.size p = h.size p) →
      (∀ p, p < a ∨ e ≤ p → p ≠ prev → h'.next p = h.next p) → h'.next prev = a → h'.next a = q →
      h'.rest = h.rest → (h'.freep = prev ∨ h'.freep = a) →
      ∃ h'' bs, some h' = some h'' ∧ Valid m h'' bs ∧ h''.rest = h.rest ∧
        (∀ c, Live bs c ↔ Live (pre ++ l ++ (r ++ post)) c) ∧ ∃ y ∈ bs, y.free = true ∧ b.units ≤ y.units := by
    rintro h' x rfl stop free large size' otherSizes others first second rest freep
    have none_ : ∀ c, ¬Live l c ∧ ¬Live r c := by
      intro c
      constructor
      · rcases shape with rfl | ⟨d, rfl, dFree⟩
        · exact live_nil
        · rw [live_free dFree]
          exact live_nil
      · rcases shape' with rfl | ⟨d, rfl, dFree⟩
        · exact live_nil
        · rw [live_free dFree]
          exact live_nil
    refine ⟨h', pre ++ [x] ++ post, rfl, ?_, rest, ?_, x, by simp, free, large⟩
    · have tiled : Tiled x.addr [x] e := ⟨rfl, by omega, stop⟩
      apply site.replace around tiled (apart_between around.apart left right)
        (by simpa using size') otherSizes others _ (congrArg Prod.fst rest)
        (site.mem (by simpa [free] using freep))
      rw [frees_free free, first]
      exact ⟨rfl, second⟩
    · intro c
      simp only [live_append, live_free free, live_nil, none_, or_false, false_or]
  rcases shape with rfl | ⟨d, rfl, free⟩
  · have same : prev₀ = prev := by
      have same := site₀.last.symm.trans (by simpa using site.last)
      exact List.singleton_inj.mp (List.append_inj' same rfl).2
    subst same
    have here : a = b.addr := tiledLeft
    have notMerged : plus prev₀ ((h.setSize b.addr (b.units + (r.map Block.units).sum)).size prev₀) ≠ b.addr := by
      rw [Heap.setSize_other (by omega), ← here]
      exact site.prev_ne around left
    have made : joinPrev ((h.setSize b.addr (b.units + (r.map Block.units).sum)).setNext b.addr q) prev₀ b.addr =
        ((h.setSize b.addr (b.units + (r.map Block.units).sum)).setNext b.addr q).setNext prev₀ b.addr :=
      if_neg notMerged
    rw [made]
    apply finish _ ⟨b.addr, b.units + (r.map Block.units).sum, true⟩ here.symm
    · change b.addr + 16 * (b.units + (r.map Block.units).sum) = e
      omega
    · rfl
    · exact Nat.le_add_right _ _
    · rw [here]
      simp (disch := omega)
    · intro p outside
      simp (disch := omega)
    · intro p outside other
      simp (disch := omega)
    · rw [here]
      simp (disch := omega)
    · rw [here]
      simp (disch := omega)
    · rfl
    · exact .inl rfl
  · have same : prev₀ = d.addr := by
      have same := site₀.last
      rw [frees_append, frees_free free, ← List.cons_append] at same
      exact (List.singleton_inj.mp (List.append_inj' same rfl).2).symm
    subst same
    rcases tiledLeft with ⟨here, positive, stop⟩
    have stop : d.stop = b.addr := stop
    have ends' : d.stop = d.addr + 16 * d.units := rfl
    have merged : plus d.addr ((h.setSize b.addr (b.units + (r.map Block.units).sum)).size d.addr) = b.addr := by
      rw [Heap.setSize_other (by omega), around.sizes d (by simp)]
      exact stop
    have made : joinPrev ((h.setSize b.addr (b.units + (r.map Block.units).sum)).setNext b.addr q) d.addr b.addr =
        (((h.setSize b.addr (b.units + (r.map Block.units).sum)).setNext b.addr q).setSize d.addr
          (d.units + (b.units + (r.map Block.units).sum))).setNext d.addr q := by
      refine (if_pos merged).trans ?_
      simp [Heap.setSize, Heap.setNext, Function.update_of_ne (show d.addr ≠ b.addr by omega),
        around.sizes d (by simp)]
    rw [made]
    have first : h.next prev = d.addr := by
      rw [frees_free free] at within
      exact within.1
    apply finish _ ⟨d.addr, d.units + (b.units + (r.map Block.units).sum), true⟩ here
    · change d.addr + 16 * (d.units + (b.units + (r.map Block.units).sum)) = e
      omega
    · rfl
    · exact Nat.le_trans (Nat.le_add_right _ _) (Nat.le_add_left _ _)
    · rw [← here]
      simp (disch := omega)
    · intro p outside
      simp (disch := omega)
    · intro p outside other
      simp (disch := omega)
    · rw [← here, ← first]
      have low : prev < a := prevLow
      simp (disch := omega)
    · rw [← here]
      simp (disch := omega)
    · rfl
    · exact .inr here

/-- Free blocks stand at the ends only where free ones stood. -/
theorem apart_replace (apart : Apart (pre ++ mid ++ post)) (inner : Apart mid') (nonempty : mid ≠ [] ∧ mid' ≠ [])
    (first : ∀ x ∈ mid'.head?, x.free = true → ∃ y ∈ mid.head?, y.free = true)
    (last : ∀ x ∈ mid'.getLast?, x.free = true → ∃ y ∈ mid.getLast?, y.free = true) :
    Apart (pre ++ mid' ++ post) := by
  rw [apart_append, apart_append] at apart ⊢
  refine ⟨⟨apart.1.1, inner, ?_⟩, apart.2.1, ?_⟩
  · rintro b isLast c isHead ⟨bFree, cFree⟩
    rcases first c isHead cFree with ⟨y, isHead', yFree⟩
    exact apart.1.2.2 b isLast y isHead' ⟨bFree, yFree⟩
  · rintro b isLast c isHead ⟨bFree, cFree⟩
    rw [List.getLast?_append_of_ne_nil _ nonempty.2] at isLast
    rcases last b isLast bFree with ⟨y, isLast', yFree⟩
    rw [← List.getLast?_append_of_ne_nil pre nonempty.1] at isLast'
    exact apart.2.2 y isLast' c isHead ⟨yFree, cFree⟩

/-- One block is handed out beside the ones that are. -/
structure Hands (m : Machine) (bs : List Block) (h' : Heap) (bs' : List Block) (b : Block) : Prop where
  valid : Valid m h' bs'
  live : ∀ c, Live bs' c ↔ c = b ∨ Live bs c
  fresh : ∀ c, Live bs c → c.addr ≠ b.addr

/-- What is outside of a place is not at an address in it. -/
theorem Tiled.addr_ne (tiled : Tiled a (pre ++ [b] ++ post) e) (member : Live (pre ++ post) c) {p : Nat}
    (low : b.addr ≤ p) (high : p < b.stop) : c.addr ≠ p := by
  rcases (tiled_append _ post).mp tiled with ⟨_, first, behind⟩
  rcases (tiled_append pre _).mp first with ⟨_, before, rfl, size, rfl⟩
  rcases live_append.mp member with early | late
  · have bounds := before.inside early.1
    unfold Block.stop at bounds
    omega
  · have bounds := behind.inside late.1
    omega

/-- A free block that fits is handed out, or its end is. -/
theorem take_spec (valid : Valid m h bs) {prev : Nat} (member : prev ∈ m.base :: frees bs) (positive : 0 < n)
    (fits : n ≤ h.size (h.next prev)) :
    (take h prev (h.next prev) n).1.rest = h.rest ∧
      ∃ bs' b, Hands m bs (take h prev (h.next prev) n).1 bs' b ∧ b.units = n ∧
        (take h prev (h.next prev) n).2 = b.addr + 16 := by
  have inRing : h.next prev ∈ m.base :: frees bs := by
    rcases List.append_of_mem member with ⟨xs, ys, split⟩
    have ring := valid.ring
    rw [split] at ring ⊢
    rcases List.mem_append.mp ring.follows with later | last
    · simp [later]
    · rw [List.mem_singleton.mp last, ← split]
      exact List.mem_cons_self
  have notBase : h.next prev ≠ m.base := by
    intro same
    rw [same, valid.base] at fits
    omega
  rcases mem_frees.mp ((List.mem_cons.mp inRing).resolve_left notBase) with ⟨c, inside, free, same⟩
  rw [← same] at fits ⊢
  have size := valid.sizes c inside
  rw [size] at fits
  rcases List.append_of_mem inside with ⟨pre, post, rfl⟩
  rw [List.append_cons] at *
  rcases valid.site with ⟨_, _, qs, prev', q, site⟩
  rcases site.inner with ⟨rfl, units, rfl⟩
  have within := site.within
  rw [frees_free free] at within
  have mine : prev = prev' := by
    apply valid.ring.injective (valid.tiled.ring_ordered.imp Nat.ne_of_lt) member
    · have ours := site.prev_mem
      rw [List.append_assoc, frees_append, ← List.cons_append]
      exact List.mem_append_left _ ours
    · rw [← same, within.1]
  subst mine
  have next : h.next c.addr = q := within.2
  have prevLow := site.low site.prev_mem
  have stop : c.stop = c.addr + 16 * c.units := rfl
  by_cases exact : c.units = n
  · have made : take h prev c.addr n = (((h.setNext prev q).setNext c.addr 0).setFreep prev, c.addr + 16) := by
      unfold take
      rw [if_pos (size.trans exact), next]
      rfl
    rw [made]
    refine ⟨rfl, pre ++ [⟨c.addr, c.units, false⟩] ++ post, ⟨c.addr, c.units, false⟩, ⟨?_, ?_, ?_⟩, exact, rfl⟩
    · have tiled : Tiled c.addr [⟨c.addr, c.units, false⟩] c.stop := ⟨rfl, units, rfl⟩
      apply site.replace valid tiled
      · exact apart_replace valid.apart (.singleton _) (by simp) (by simp) (by simp)
      · intro d member
        rw [List.mem_singleton.mp member]
        exact size
      · exact fun _ _ => rfl
      · intro p outside other
        simp (disch := omega)
      · change _ = q
        simp (disch := omega)
      · rfl
      · exact site.mem (.inl rfl)
    · intro d
      simp only [live_append, live_live, live_free free, live_nil, or_false, or_assoc, or_left_comm]
    · intro d live
      rw [live_append, live_append, live_free free] at live
      apply valid.tiled.addr_ne (live_append.mpr (by simpa using live)) (Nat.le_refl c.addr)
      omega
  · let cur := c.addr + 16 * (c.units - n)
    have place : cur = c.addr + 16 * (c.units - n) := rfl
    have made : take h prev c.addr n =
        ((((h.setSize c.addr (c.units - n)).setSize cur n).setNext cur 0).setFreep prev, cur + 16) := by
      unfold take
      rw [if_neg (fun same => exact (size.symm.trans same)), size]
      dsimp only
      rw [Heap.setSize_size]
      rfl
    rw [made]
    refine ⟨rfl, pre ++ [⟨c.addr, c.units - n, true⟩, ⟨cur, n, false⟩] ++ post, ⟨cur, n, false⟩, ⟨?_, ?_, ?_⟩, rfl, rfl⟩
    · have tiled : Tiled c.addr [⟨c.addr, c.units - n, true⟩, ⟨cur, n, false⟩] c.stop := by
        refine ⟨rfl, ?_, rfl, positive, ?_⟩
        · change 0 < c.units - n
          omega
        · change cur + 16 * n = c.stop
          omega
      apply site.replace valid tiled
      · refine apart_replace valid.apart ?_ (by simp) (by simp [free]) (by simp)
        simp [Apart]
      · intro d member
        rcases List.mem_cons.mp member with rfl | member
        · simp (disch := omega)
        · rw [List.mem_singleton.mp member]
          simp (disch := omega)
      · intro p outside
        simp (disch := omega)
      · intro p outside other
        simp (disch := omega)
      · rw [frees_free (by rfl), frees_live (by rfl)]
        constructor
        · simp (disch := omega) [same]
        · change _ = q
          simp (disch := omega) [next]
      · rfl
      · exact site.mem (.inl rfl)
    · intro d
      simp only [live_append, live_live, live_free, free, live_nil, or_false, or_assoc, or_left_comm]
    · intro d live
      rw [live_append, live_append, live_free free] at live
      apply valid.tiled.addr_ne (live_append.mpr (by simpa using live)) (Nat.le_add_right c.addr _)
      omega

/-- The bytes and `errno`. -/
def Heap.user (h : Heap) : (Nat → UInt8) × Option Errno := (h.bytes, h.errno)

theorem user_rest (same : h'.rest = h.rest) : h'.user = h.user := by
  unfold Heap.user
  rw [show h'.bytes = h.bytes from congrArg (fun r => r.2.1) same,
    show h'.errno = h.errno from congrArg (fun r => r.2.2.1) same]

/-- The memory that is asked for is behind the heap. -/
theorem sbrk_spec (valid : Valid m h bs) (positive : 0 < n) :
    ∃ h', h'.user = h.user ∧ ((sbrk m h (16 * n) = (h', none) ∧ Valid m h' bs) ∨
      (sbrk m h (16 * n) = (h', some (h.top m)) ∧ h'.top m = h.top m + 16 * n ∧ h'.heap = h.top m + 16 * n ∧
        h'.next = h.next ∧ h'.size = h.size ∧ h'.freep = h.freep)) := by
  have below := m.below
  have set : (if h.heap = 0 then { h with heap := m.getheap } else h) = { h with heap := h.top m } := by
    unfold Heap.top
    split_ifs <;> rfl
  have topPos : 0 < h.top m := by
    unfold Heap.top
    split_ifs <;> omega
  have keeps : ∀ asked, Valid m { h with heap := h.top m, asked } bs := by
    intro asked
    refine ⟨?_, valid.apart, valid.sizes, valid.base, valid.ring, valid.freep⟩
    have same : Heap.top m { h with heap := h.top m, asked } = h.top m := if_neg (Nat.ne_of_gt topPos)
    rw [same]
    exact valid.tiled
  unfold sbrk
  rw [set]
  dsimp only
  split_ifs
  · exact ⟨{ h with heap := h.top m }, rfl, .inl ⟨rfl, keeps h.asked⟩⟩
  · refine ⟨{ h with heap := h.top m + 16 * n, asked := h.asked ++ [h.top m + 16 * n] }, rfl,
      .inr ⟨rfl, ?_, rfl, rfl, rfl, rfl⟩⟩
    exact if_neg (show h.top m + 16 * n ≠ 0 by omega)
  · exact ⟨{ h with heap := h.top m, asked := h.asked ++ [h.top m + 16 * n] }, rfl, .inl ⟨rfl, keeps _⟩⟩

/-- When the request does not wrap around, there is no more memory, or there is a free block that is large enough. -/
theorem morecore_spec (valid : Valid m h bs) (fits : 16 * max n nalloc < 2 ^ 64) :
    ∃ h' bs', Valid m h' bs' ∧ h'.user = h.user ∧ (∀ c, Live bs' c ↔ Live bs c) ∧
      (morecore m h n = some (h', none) ∨
        morecore m h n = some (h', some h'.freep) ∧ h'.heap = h.top m + 16 * max n nalloc ∧
          ∃ y ∈ bs', y.free = true ∧ n ≤ y.units) := by
  have units : (if n < nalloc then nalloc else n) = max n nalloc := by
    split_ifs <;> omega
  have positive : 0 < max n nalloc := Nat.lt_of_lt_of_le (by decide) (Nat.le_max_right n nalloc)
  have room : max n nalloc * headerSize % 2 ^ 64 = 16 * max n nalloc := by
    unfold headerSize
    omega
  unfold morecore
  rw [units]
  dsimp only
  rw [room]
  rcases sbrk_spec valid positive with ⟨h1, user, ⟨made, valid'⟩ | ⟨made, top, heap, next, size, freep⟩⟩
  · rw [made]
    exact ⟨h1, bs, valid', user, fun _ => Iff.rfl, .inl rfl⟩
  · rw [made]
    dsimp only
    let raw : Block := ⟨h.top m, max n nalloc, false⟩
    have tiled := valid.tiled
    have last : ∀ b ∈ bs, b.addr < h.top m := by
      intro b member
      have bounds := tiled.inside member
      unfold Block.stop at bounds
      omega
    have grown : Valid m (h1.setSize (h.top m) (max n nalloc)) (bs ++ [raw] ++ []) := by
      have none_ : frees (bs ++ [raw] ++ []) = frees bs := by
        rw [frees_append, frees_append, frees_live (by rfl), frees_nil, List.append_nil, List.append_nil]
      rw [List.append_nil] at *
      refine ⟨?_, ?_, ?_, ?_, ?_, ?_⟩
      · change Tiled _ _ (h1.top m)
        rw [tiled_append, top]
        exact ⟨_, tiled, rfl, positive, rfl⟩
      · rw [apart_append]
        refine ⟨valid.apart, .singleton _, ?_⟩
        rintro b - d isFirst ⟨-, dFree⟩
        cases isFirst
        cases dFree
      · intro b member
        rcases List.mem_append.mp member with member | member
        · rw [Heap.setSize_other (Nat.ne_of_lt (last b member)), size]
          exact valid.sizes b member
        · rw [List.mem_singleton.mp member]
          exact Heap.setSize_size
      · have below := m.below
        have le := tiled.le
        rw [Heap.setSize_other (by omega), size]
        exact valid.base
      · change Segment h1.next _ _ _
        rw [none_, next]
        exact valid.ring
      · change h1.freep ∈ _
        rw [none_, freep]
        exact valid.freep
    rcases free_spec grown rfl with ⟨h', bs', done, valid', rest, lives, y, member, free, large⟩
    refine ⟨h', bs', valid', ?_, ?_, .inr ⟨?_, ?_, y, member, free, ?_⟩⟩
    · rw [user_rest rest]
      exact user
    · intro c
      rw [lives, List.append_nil]
    · change (Malloc.free _ (raw.addr + 16)).map _ = _
      rw [done]
      rfl
    · exact (congrArg Prod.fst rest).trans heap
    · exact Nat.le_trans (Nat.le_max_left n nalloc) large

theorem search_scan (m : Machine) {prev f : Nat} {xs : List Nat} (segment : Segment h.next prev (prev :: xs) f)
    (others : ∀ x ∈ xs, x ≠ h.freep) :
    (∃ p ∈ prev :: xs, n ≤ h.size (h.next p) ∧
      ∀ fuel, xs.length ≤ fuel → search m n fuel h prev = some (take h p (h.next p) n)) ∨
    ((∀ x ∈ xs, h.size x < n) ∧ ∃ last ∈ prev :: xs, h.next last = f ∧
      ∀ fuel, search m n (xs.length + fuel) h prev = search m n fuel h last) := by
  induction xs generalizing prev with
  | nil =>
    right
    refine ⟨by simp, prev, by simp, segment.2, ?_⟩
    intro fuel
    rw [List.length_nil, Nat.zero_add]
  | cons x xs ih =>
    have next : h.next prev = x := segment.2.1
    rw [List.forall_mem_cons] at others
    by_cases fits : n ≤ h.size x
    · left
      refine ⟨prev, by simp, by rw [next]; exact fits, ?_⟩
      intro fuel enough
      rw [List.length_cons] at enough
      rw [show fuel = fuel - 1 + 1 by omega, search]
      rw [next, if_pos fits]
    · have one : ∀ fuel, search m n (fuel + 1) h prev = search m n fuel h x := by
        intro fuel
        rw [search]
        rw [next, if_neg fits, if_neg others.1]
      have rest : Segment h.next x (x :: xs) f := ⟨rfl, segment.2.2⟩
      rcases ih rest others.2 with ⟨p, member, large, found⟩ | ⟨small, last, member, ends, goesOn⟩
      · left
        refine ⟨p, List.mem_cons_of_mem _ member, large, ?_⟩
        intro fuel enough
        rw [List.length_cons] at enough
        rw [show fuel = fuel - 1 + 1 by omega, one]
        exact found _ (by omega)
      · right
        refine ⟨List.forall_mem_cons.mpr ⟨by omega, small⟩, last, List.mem_cons_of_mem _ member, ends, ?_⟩
        intro fuel
        rw [List.length_cons, Nat.add_right_comm, one]
        exact goesOn fuel

/-- The search goes once around the ring, and comes to a block that fits or to where it began. -/
theorem search_turn (valid : Valid m h bs) :
    (∃ p ∈ m.base :: frees bs, n ≤ h.size (h.next p) ∧
      ∀ fuel, h.heap + 1 ≤ fuel → search m n fuel h h.freep = some (take h p (h.next p) n)) ∨
    ((∀ x ∈ m.base :: frees bs, h.size x < n) ∧ ∃ k ≤ h.heap, ∀ h' fuel,
      (morecore m h n = some (h', none) → search m n (k + (fuel + 1)) h h.freep = some (h', 0)) ∧
      ∀ cur, morecore m h n = some (h', some cur) →
        search m n (k + (fuel + 1)) h h.freep = search m n fuel h' cur) := by
  rcases valid.ring.rotate valid.freep with ⟨xs, perm, around⟩
  have nodup := perm.nodup_iff.mpr (valid.tiled.ring_ordered.imp Nat.ne_of_lt)
  have length := perm.length_eq
  have few := valid.length
  rw [List.length_cons] at length
  have others : ∀ x ∈ xs, x ≠ h.freep := by
    rintro x member rfl
    exact (List.nodup_cons.mp nodup).1 member
  rcases search_scan (n := n) m around others with ⟨p, member, large, found⟩ | ⟨small, last, member, ends, goesOn⟩
  · left
    exact ⟨p, perm.mem_iff.mp member, large, fun fuel enough => found fuel (by omega)⟩
  · by_cases fits : n ≤ h.size h.freep
    · left
      refine ⟨last, perm.mem_iff.mp member, by rw [ends]; exact fits, ?_⟩
      intro fuel enough
      rw [show fuel = xs.length + ((fuel - xs.length - 1) + 1) by omega, goesOn, search]
      rw [ends, if_pos fits]
    · right
      refine ⟨?_, xs.length, by omega, ?_⟩
      · intro x member
        rw [← perm.mem_iff, List.mem_cons] at member
        rcases member with rfl | member
        · omega
        · exact small x member
      · intro h' fuel
        rw [goesOn, search]
        rw [ends, if_neg fits, if_pos rfl]
        refine ⟨fun made => by rw [made], fun cur made => by rw [made]⟩

/-- What a request of some bytes comes to: NULL, or a block that is handed out. -/
def Serves (m : Machine) (bs : List Block) (h : Heap) (n : Nat) (result : Option (Heap × Nat)) : Prop :=
  ∃ h' p bs', result = some (h', p) ∧ h'.user = h.user ∧
    ((p = 0 ∧ Valid m h' bs' ∧ ∀ c, Live bs' c ↔ Live bs c) ∨
      ∃ b, Hands m bs h' bs' b ∧ b.units = n ∧ p = b.addr + 16)

theorem serves_take (valid : Valid m h bs) (positive : 0 < n) {p : Nat} (member : p ∈ m.base :: frees bs)
    (fits : n ≤ h.size (h.next p)) : Serves m bs h n (some (take h p (h.next p) n)) := by
  rcases take_spec valid member positive fits with ⟨rest, bs', b, hands, units, pointer⟩
  exact ⟨_, _, bs', rfl, user_rest rest, .inr ⟨b, hands, units, pointer⟩⟩

theorem search_spec (valid : Valid m h bs) (positive : 0 < n) (fits : 16 * max n nalloc < 2 ^ 64) :
    Serves m bs h n (search m n (turns m h n) h h.freep) := by
  have enough : h.heap + 1 ≤ turns m h n := by
    unfold turns
    omega
  rcases search_turn (n := n) valid with ⟨p, member, large, found⟩ | ⟨-, k, few, goesOn⟩
  · rw [found _ enough]
    exact serves_take valid positive member large
  · rw [show turns m h n = k + ((turns m h n - k - 1) + 1) by omega]
    rcases morecore_spec valid fits with ⟨h1, bs1, valid1, user, lives, made | ⟨made, heap, y, inside, free, room⟩⟩
    · rw [(goesOn h1 _).1 made]
      exact ⟨h1, 0, bs1, rfl, user, .inl ⟨rfl, valid1, lives⟩⟩
    · rw [(goesOn h1 _).2 _ made]
      have left : h1.heap + 1 ≤ turns m h n - k - 1 := by
        rw [heap]
        unfold turns headerSize Heap.top
        split_ifs <;> omega
      rcases search_turn (n := n) valid1 with ⟨p, member, large, found⟩ | ⟨small, -⟩
      · rw [found _ left]
        rcases serves_take valid1 positive member large with ⟨h', q, bs', same, user', outcome⟩
        refine ⟨h', q, bs', same, user'.trans user, ?_⟩
        rcases outcome with ⟨null, valid', lives'⟩ | ⟨b, hands, units, pointer⟩
        · exact .inl ⟨null, valid', fun c => (lives' c).trans (lives c)⟩
        · refine .inr ⟨b, ⟨hands.valid, ?_, ?_⟩, units, pointer⟩
          · intro c
            rw [hands.live, lives]
          · intro c live
            exact hands.fresh c ((lives c).mpr live)
      · have less := small y.addr (List.mem_cons_of_mem _ (mem_frees.mpr ⟨y, inside, free, rfl⟩))
        rw [valid1.sizes y inside] at less
        omega

end Scc.Libc.Malloc
