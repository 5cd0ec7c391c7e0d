import Scc.Lib.Run
import Scc.Libc.MallocSearch

/-!
# Programs that use the heap

`realloc()` shrinks a block, grows it over the free one behind it or moves its bytes to another one, and
`calloc()` clears a new one. Whatever a program asks for, its blocks and the free ones tile the heap, and a call
changes no byte of the blocks that it does not name. The requests that wrap around are left out.
-/

namespace Scc.Libc.Malloc

set_option autoImplicit false

open Scc.Lib

variable {m : Machine} {h h' : Heap} {a e n : Nat} {b c : Block} {bs pre post : List Block}

/-- The bytes of these requests and a header are `2 ^ 64` when they are counted in headers. -/
def Wraps (nbytes : Nat) : Prop := 2 ^ 64 ≤ unitsFor nbytes * headerSize ∧ nbytes ≤ sizeMax - headerSize - 1

instance (nbytes : Nat) : Decidable (Wraps nbytes) := inferInstanceAs (Decidable (_ ∧ _))

theorem units_fit {nbytes : Nat} (small : ¬Wraps nbytes) (taken : nbytes ≤ sizeMax - headerSize - 1) :
    16 * max (unitsFor nbytes) nalloc < 2 ^ 64 := by
  have fits : unitsFor nbytes * headerSize < 2 ^ 64 := by
    by_contra large
    exact small ⟨by omega, taken⟩
  unfold nalloc
  unfold headerSize at fits
  omega

theorem units_room (nbytes : Nat) : nbytes + 16 ≤ 16 * unitsFor nbytes := by
  unfold unitsFor headerSize
  omega

theorem units_pos (nbytes : Nat) : 0 < unitsFor nbytes := Nat.succ_pos _

theorem malloc_spec (valid : Valid m h bs) {nbytes : Nat} (small : ¬Wraps nbytes) :
    Serves m bs h (unitsFor nbytes) (malloc m h nbytes) := by
  unfold malloc
  split_ifs with refused
  · exact ⟨h, 0, bs, rfl, rfl, .inl ⟨rfl, valid, fun _ => Iff.rfl⟩⟩
  · exact search_spec valid (units_pos nbytes) (units_fit small (by omega))

theorem memset_eq (h : Heap) (s : Nat) (c : UInt8) (n : Nat) :
    memset h s c n = { h with bytes := fun x => if s ≤ x ∧ x < s + n then c else h.bytes x } := by
  induction n generalizing h s with
  | zero =>
    have same : (fun x => if s ≤ x ∧ x < s + 0 then c else h.bytes x) = h.bytes :=
      funext fun x => if_neg (by omega)
    rw [memset, same]
  | succ n ih =>
    rw [memset, ih]
    congr 1
    funext x
    dsimp only
    by_cases same : x = s
    · subst same
      rw [if_neg (by omega), if_pos (by omega), Function.update_self]
    · rw [Function.update_of_ne same]
      by_cases inside : s + 1 ≤ x ∧ x < s + 1 + n
      · rw [if_pos inside, if_pos (by omega)]
      · rw [if_neg inside, if_neg (by omega)]

/-- Places that do not overlap. -/
theorem memcpy_eq (h : Heap) (d s n : Nat) (apart : d + n ≤ s ∨ s + n ≤ d) :
    memcpy h d s n = { h with bytes := fun x => if d ≤ x ∧ x < d + n then h.bytes (s + (x - d)) else h.bytes x } := by
  induction n generalizing h d s with
  | zero =>
    have same : (fun x => if d ≤ x ∧ x < d + 0 then h.bytes (s + (x - d)) else h.bytes x) = h.bytes :=
      funext fun x => if_neg (by omega)
    rw [memcpy, same]
  | succ n ih =>
    rw [memcpy, ih _ _ _ (by omega)]
    congr 1
    funext x
    dsimp only
    by_cases same : x = d
    · subst same
      rw [if_neg (by omega), if_pos (by omega), Function.update_self, Nat.sub_self, Nat.add_zero]
    · by_cases inside : d + 1 ≤ x ∧ x < d + 1 + n
      · rw [if_pos inside, if_pos (by omega), Function.update_of_ne (by omega)]
        congr 1
        omega
      · rw [if_neg inside, if_neg (by omega), Function.update_of_ne same]

/-- Other bytes are other ones of the same heap. -/
theorem Valid.bytes (valid : Valid m h bs) (bytes : Nat → UInt8) : Valid m { h with bytes } bs :=
  ⟨valid.tiled, valid.apart, valid.sizes, valid.base, valid.ring, valid.freep⟩

theorem Valid.errno (valid : Valid m h bs) (errno : Option Errno) : Valid m { h with errno } bs :=
  ⟨valid.tiled, valid.apart, valid.sizes, valid.base, valid.ring, valid.freep⟩

theorem Tiled.without (tiled : Tiled a (pre ++ [b] ++ post) e) (live : b.free = false) :
    Live (pre ++ post) c ↔ Live (pre ++ [b] ++ post) c ∧ c ≠ b := by
  have size := (tiled.inside (show b ∈ pre ++ [b] ++ post by simp)).2.2
  constructor
  · intro old
    refine ⟨?_, ?_⟩
    · simp only [live_append, live_live live, live_nil] at old ⊢
      tauto
    · rintro rfl
      refine tiled.addr_ne old (Nat.le_refl _) ?_ rfl
      unfold Block.stop
      omega
  · rintro ⟨member, other⟩
    simp only [live_append, live_live live, live_nil] at member ⊢
    tauto

/-- The block is given back. -/
theorem release_spec (valid : Valid m h bs) (live : Live bs b) :
    ∃ h' bs', free h (b.addr + 16) = some h' ∧ Valid m h' bs' ∧ h'.rest = h.rest ∧
      ∀ c, Live bs' c ↔ Live bs c ∧ c ≠ b := by
  rcases List.append_of_mem live.1 with ⟨pre, post, rfl⟩
  rw [List.append_cons] at *
  rcases free_spec valid live.2 with ⟨h', bs', done, valid', rest, lives, -⟩
  refine ⟨h', bs', done, valid', rest, ?_⟩
  intro c
  rw [lives]
  exact valid.tiled.without live.2

/-- What `realloc()` comes to when it does not return NULL: the block is another one, with its bytes in front. -/
structure Moves (m : Machine) (bs : List Block) (h : Heap) (b : Block) (nbytes : Nat) (bs' : List Block) (h' : Heap)
    (b' : Block) : Prop where
  valid : Valid m h' bs'
  live : ∀ c, Live bs' c ↔ c = b' ∨ Live bs c ∧ c ≠ b
  fresh : ∀ c, Live bs c → c ≠ b → c.addr ≠ b'.addr
  units : b'.units = unitsFor nbytes
  kept : ∀ i < min (16 * (b.units - 1)) nbytes, h'.bytes (b'.addr + 16 + i) = h.bytes (b.addr + 16 + i)
  other : ∀ x, x < b'.addr ∨ b'.stop ≤ x → h'.bytes x = h.bytes x

def Resizes (m : Machine) (bs : List Block) (h : Heap) (b : Block) (nbytes : Nat)
    (result : Option (Heap × Nat)) : Prop :=
  ∃ h' p bs', result = some (h', p) ∧
    ((p = 0 ∧ Valid m h' bs' ∧ (∀ c, Live bs' c ↔ Live bs c) ∧ h'.bytes = h.bytes) ∨
      ∃ b', Moves m bs h b nbytes bs' h' b' ∧ p = b'.addr + 16)

theorem move_spec (valid : Valid m h bs) (live : Live bs b) {nbytes : Nat} (small : ¬Wraps nbytes) :
    Resizes m bs h b nbytes (move m h (b.addr + 16) nbytes) := by
  rcases malloc_spec valid small with ⟨h1, p, bs1, made, user, ⟨null, valid1, lives⟩ | ⟨b', hands, units, pointer⟩⟩
  · unfold move
    rw [made, Option.bind_some]
    dsimp only
    rw [if_pos null]
    exact ⟨h1, 0, bs1, rfl, .inl ⟨rfl, valid1, lives, congrArg Prod.fst user⟩⟩
  · have bytes : h1.bytes = h.bytes := congrArg Prod.fst user
    have stays : Live bs1 b := (hands.live b).mpr (.inr live)
    have new : Live bs1 b' := (hands.live b').mpr (.inl rfl)
    have other : b ≠ b' := by
      rintro rfl
      exact hands.fresh b live rfl
    have size := hands.valid.sizes b stays.1
    have apart := hands.valid.tiled.disjoint stays.1 new.1 other
    have room := units_room nbytes
    have positive := (hands.valid.tiled.inside stays.1).2.2
    let count := min (16 * (b.units - 1)) nbytes
    have counted : (if nbytes < (b.units - 1) * headerSize then nbytes else (b.units - 1) * headerSize) = count := by
      change _ = min (16 * (b.units - 1)) nbytes
      unfold headerSize
      split_ifs <;> omega
    have inside : count + 16 ≤ 16 * b.units ∧ count + 16 ≤ 16 * b'.units := by
      change min (16 * (b.units - 1)) nbytes + 16 ≤ _ ∧ min (16 * (b.units - 1)) nbytes + 16 ≤ _
      omega
    unfold Block.stop at apart
    have copied := memcpy_eq h1 (b'.addr + 16) (b.addr + 16) count (by omega)
    rcases release_spec (hands.valid.bytes (memcpy h1 (b'.addr + 16) (b.addr + 16) count).bytes) stays with
      ⟨h2, bs2, done, valid2, rest, lives⟩
    have after : h2.bytes = (memcpy h1 (b'.addr + 16) (b.addr + 16) count).bytes := congrArg (fun r => r.2.1) rest
    refine ⟨h2, b'.addr + 16, bs2, ?_, .inr ⟨b', ⟨valid2, ?_, ?_, units, ?_, ?_⟩, rfl⟩⟩
    · unfold move
      rw [made, Option.bind_some]
      dsimp only
      rw [if_neg (by omega), pointer, show b.addr + 16 - headerSize = b.addr from Nat.add_sub_cancel _ _, size, counted]
      have same : memcpy h1 (b'.addr + 16) (b.addr + 16) count =
          { h1 with bytes := (memcpy h1 (b'.addr + 16) (b.addr + 16) count).bytes } := by
        rw [copied]
      rw [same, done]
      rfl
    · intro c
      rw [lives, hands.live]
      constructor
      · rintro ⟨rfl | old, ne⟩
        · exact .inl rfl
        · exact .inr ⟨old, ne⟩
      · rintro (rfl | ⟨old, ne⟩)
        · exact ⟨.inl rfl, Ne.symm other⟩
        · exact ⟨.inr old, ne⟩
    · intro c old _
      exact hands.fresh c old
    · intro i low
      have low : i < count := low
      rw [after, copied]
      dsimp only
      rw [if_pos (by omega), bytes]
      congr 1
      omega
    · intro x outside
      unfold Block.stop at outside
      rw [after, copied]
      dsimp only
      rw [if_neg (by omega), bytes]

/-- The block stays where it is. -/
theorem moves_in_place (valid : Valid m h (pre ++ [b] ++ post)) (live : b.free = false) {nbytes : Nat}
    {bs' : List Block} (valid' : Valid m h' bs')
    (lives : ∀ c, Live bs' c ↔ c = ⟨b.addr, unitsFor nbytes, false⟩ ∨ Live (pre ++ post) c)
    (bytes : h'.bytes = h.bytes) :
    Moves m (pre ++ [b] ++ post) h b nbytes bs' h' ⟨b.addr, unitsFor nbytes, false⟩ := by
  refine ⟨valid', ?_, ?_, rfl, fun i _ => by rw [bytes], fun x _ => by rw [bytes]⟩
  · intro c
    rw [lives, valid.tiled.without live]
  · intro c old other
    have size := (valid.tiled.inside (show b ∈ pre ++ [b] ++ post by simp)).2.2
    apply valid.tiled.addr_ne ((valid.tiled.without live).mpr ⟨old, other⟩) (Nat.le_refl b.addr)
    unfold Block.stop
    omega

/-- The block is cut in two, neither of them free. -/
theorem cut_spec (valid : Valid m h (pre ++ [b] ++ post)) (live : b.free = false) (positive : 0 < n)
    (less : n < b.units) :
    Valid m ((h.setSize (plus b.addr n) (b.units - n)).setSize b.addr n)
      (pre ++ [⟨b.addr, n, false⟩, ⟨plus b.addr n, b.units - n, false⟩] ++ post) := by
  rcases valid.site with ⟨_, _, qs, prev, q, site⟩
  rcases site.inner with ⟨rfl, _, rfl⟩
  have new : plus b.addr n = b.addr + 16 * n := rfl
  have stop : b.stop = b.addr + 16 * b.units := rfl
  have within := site.within
  rw [frees_live live] at within
  have tiled : Tiled b.addr [⟨b.addr, n, false⟩, ⟨plus b.addr n, b.units - n, false⟩] b.stop := by
    refine ⟨rfl, positive, rfl, Nat.sub_pos_of_lt less, ?_⟩
    change plus b.addr n + 16 * (b.units - n) = b.stop
    omega
  apply site.replace valid tiled
  · refine apart_replace valid.apart ?_ (by simp) (by simp) (by simp)
    simp [Apart]
  · intro d member
    rcases List.mem_cons.mp member with rfl | member
    · simp (disch := omega)
    · rw [List.mem_singleton.mp member]
      simp (disch := omega)
  · intro p outside
    simp (disch := omega)
  · exact fun _ _ _ => rfl
  · exact within
  · rfl
  · have same : frees (pre ++ [⟨b.addr, n, false⟩, ⟨plus b.addr n, b.units - n, false⟩] ++ post) =
        frees (pre ++ [b] ++ post) := by simp [live]
    rw [same]
    exact valid.freep

/-- The block takes all of the free one behind it. -/
theorem absorb_spec {qs : List Nat} {prev q : Nat} (valid : Valid m h (pre ++ [b, c] ++ post)) (live : b.free = false)
    (free : c.free = true) (site : Site m h pre [b, c] post a e qs prev q) :
    Valid m (((h.setSize b.addr (b.units + c.units)).setNext prev (h.next c.addr)).setFreep prev)
      (pre ++ [⟨b.addr, b.units + c.units, false⟩] ++ post) := by
  rcases site.inner with ⟨rfl, units, start, _, ends⟩
  have prevLow := site.low site.prev_mem
  have within := site.within
  rw [frees_live live, frees_free free] at within
  have next : h.next c.addr = q := within.2
  have stops : c.stop = e := ends
  unfold Block.stop at start stops
  have tiled : Tiled b.addr [⟨b.addr, b.units + c.units, false⟩] e := by
    refine ⟨rfl, Nat.add_pos_left units _, ?_⟩
    change b.addr + 16 * (b.units + c.units) = e
    omega
  apply site.replace valid tiled
  · exact apart_replace valid.apart (.singleton _) (by simp) (by simp) (by simp)
  · intro d member
    rw [List.mem_singleton.mp member]
    simp (disch := omega)
  · intro p outside
    simp (disch := omega)
  · intro p _ other
    simp (disch := omega)
  · change _ = q
    simp [next]
  · rfl
  · exact site.mem (.inl rfl)

/-- The block takes the front of the free one behind it. -/
theorem encroach_spec {qs : List Nat} {prev q : Nat} (valid : Valid m h (pre ++ [b, c] ++ post)) (live : b.free = false)
    (free : c.free = true) (site : Site m h pre [b, c] post a e qs prev q) (more : b.units < n)
    (less : n < b.units + c.units) :
    Valid m (((((h.setSize b.addr n).setNext prev (plus b.addr n)).setNext (plus b.addr n) (h.next c.addr)).setSize
        (plus b.addr n) (b.units + c.units - n)).setFreep (plus b.addr n))
      (pre ++ [⟨b.addr, n, false⟩, ⟨plus b.addr n, b.units + c.units - n, true⟩] ++ post) := by
  rcases site.inner with ⟨rfl, _, start, _, ends⟩
  have prevLow := site.low site.prev_mem
  have within := site.within
  rw [frees_live live, frees_free free] at within
  have next : h.next c.addr = q := within.2
  have stops : c.stop = e := ends
  have new : plus b.addr n = b.addr + 16 * n := rfl
  unfold Block.stop at start stops
  have tiled : Tiled b.addr [⟨b.addr, n, false⟩, ⟨plus b.addr n, b.units + c.units - n, true⟩] e := by
    refine ⟨rfl, Nat.zero_lt_of_lt more, rfl, Nat.sub_pos_of_lt less, ?_⟩
    change plus b.addr n + 16 * (b.units + c.units - n) = e
    omega
  apply site.replace valid tiled
  · refine apart_replace valid.apart ?_ (by simp) (by simp) (by simp [free])
    simp [Apart]
  · intro d member
    rcases List.mem_cons.mp member with rfl | member
    · simp (disch := omega)
    · rw [List.mem_singleton.mp member]
      simp (disch := omega)
  · intro p outside
    simp (disch := omega)
  · intro p outside other
    simp (disch := omega)
  · rw [frees_live (by rfl), frees_free (by rfl)]
    constructor
    · simp (disch := omega)
    · change _ = q
      simp [next]
  · rfl
  · exact site.mem (.inr (by simp [Heap.setFreep]))

theorem grow_spec {qs : List Nat} {prev q nbytes : Nat} (valid : Valid m h (pre ++ [b] ++ post)) (live : b.free = false)
    (site : Site m h pre [b] post b.addr b.stop qs prev q) (more : b.units < unitsFor nbytes) (small : ¬Wraps nbytes) :
    Resizes m (pre ++ [b] ++ post) h b nbytes (grow m h (b.addr + 16) nbytes (unitsFor nbytes) b.addr
      (plus b.addr (unitsFor nbytes)) prev) := by
  have size := valid.sizes b (by simp)
  have moved := move_spec valid (b := b) ⟨by simp, live⟩ small
  unfold grow
  dsimp only
  by_cases joins : ∃ c post', post = c :: post' ∧ c.free = true
  · rcases joins with ⟨c, post, rfl, free⟩
    have valid₂ : Valid m h (pre ++ [b, c] ++ post) := by simpa using valid
    rcases valid₂.site with ⟨_, e, qs₂, prev₂, q₂, site₂⟩
    have same : prev₂ = prev :=
      List.singleton_inj.mp (List.append_inj' (site₂.last.symm.trans site.last) rfl).2
    subst same
    have within := site₂.within
    rw [frees_live live, frees_free free] at within
    rcases site₂.inner with ⟨rfl, _, start, _⟩
    have next : h.next prev₂ = c.addr := within.1
    have adjacent : plus b.addr (h.size b.addr) = h.next prev₂ := by
      rw [size, next, start]
      rfl
    have other : c.addr ≠ prev₂ := by
      have low := site₂.low site₂.prev_mem
      unfold Block.stop at start
      omega
    rw [if_pos adjacent, next, size, valid.sizes c (by simp)]
    split_ifs with exact less
    · have valid' := absorb_spec valid₂ live free site₂
      rw [exact] at valid'
      refine ⟨_, _, _, rfl, .inr ⟨⟨b.addr, unitsFor nbytes, false⟩, moves_in_place valid live valid' ?_ rfl, rfl⟩⟩
      intro d
      simp only [live_append, live_live, live_free free, live_nil, or_false, or_assoc, or_left_comm]
    · have kept : (((h.setSize b.addr (unitsFor nbytes)).setNext prev₂ (plus b.addr (unitsFor nbytes))).next c.addr) =
          h.next c.addr := Heap.setNext_other other
      rw [kept]
      have valid' := encroach_spec valid₂ live free site₂ more less
      refine ⟨_, _, _, rfl, .inr ⟨⟨b.addr, unitsFor nbytes, false⟩, moves_in_place valid live valid' ?_ rfl, rfl⟩⟩
      intro d
      simp only [live_append, live_live, live_free, free, live_nil, or_false, or_assoc, or_left_comm]
    · exact moved
  · have away : plus b.addr (h.size b.addr) ≠ h.next prev := by
      have within := site.within
      rw [frees_live live] at within
      rw [size, show h.next prev = q from within]
      apply (site.next_ne ?_).symm
      intro c isHead
      cases post with
      | nil => cases isHead
      | cons d post =>
        cases isHead
        by_contra free
        exact joins ⟨c, post, rfl, by simpa using free⟩
    rw [if_neg away]
    exact moved

/-- What a call to `realloc()` comes to on a block that is not free. -/
theorem realloc_spec (valid : Valid m h bs) (live : Live bs b) {nbytes : Nat} (small : ¬Wraps nbytes) :
    Resizes m bs h b nbytes (realloc m h (b.addr + 16) nbytes) := by
  unfold realloc
  by_cases none_ : nbytes = 0
  · rw [if_pos none_]
    exact ⟨_, 0, bs, rfl, .inl ⟨rfl, valid.errno _, fun _ => Iff.rfl, rfl⟩⟩
  rw [if_neg none_]
  by_cases large : sizeMax - headerSize - 1 < nbytes
  · rw [if_pos large]
    exact ⟨_, 0, bs, rfl, .inl ⟨rfl, valid.errno _, fun _ => Iff.rfl, rfl⟩⟩
  rw [if_neg large, if_neg (by omega)]
  dsimp only
  have size := valid.sizes b live.1
  rw [show b.addr + 16 - headerSize = b.addr from Nat.add_sub_cancel _ _, size]
  rcases List.append_of_mem live.1 with ⟨pre, post, rfl⟩
  rw [List.append_cons] at *
  split_ifs with same less
  · refine ⟨h, b.addr + 16, _, rfl, .inr ⟨⟨b.addr, unitsFor nbytes, false⟩,
      moves_in_place valid live.2 valid ?_ rfl, rfl⟩⟩
    intro c
    have itself : (⟨b.addr, unitsFor nbytes, false⟩ : Block) = b := by
      rw [← same, ← live.2]
    simp only [itself, live_append, live_live live.2, live_nil, or_false, or_assoc, or_left_comm]
  · have cut := cut_spec valid live.2 (units_pos nbytes) less
    rw [List.append_cons] at cut
    rcases free_spec cut rfl with ⟨h', bs', done, valid', rest, lives, -⟩
    have freed : Malloc.free ((h.setSize (plus b.addr (unitsFor nbytes)) (b.units - unitsFor nbytes)).setSize b.addr
        (unitsFor nbytes)) (plus (plus b.addr (unitsFor nbytes)) 1) = some h' := done
    refine ⟨h', b.addr + 16, bs', ?_, .inr ⟨⟨b.addr, unitsFor nbytes, false⟩,
      moves_in_place valid live.2 valid' ?_ (congrArg (fun r => r.2.1) rest), rfl⟩⟩
    · rw [freed]
      rfl
    · intro c
      rw [lives]
      simp only [live_append, live_live, live_nil, or_false, or_assoc, or_left_comm]
  · rcases valid.site with ⟨_, _, qs, prev, q, site⟩
    rcases site.inner with ⟨rfl, _, rfl⟩
    rw [site.prevchunk valid (frees_live live.2) (List.cons_ne_nil _ _), Option.bind_some]
    exact grow_spec valid live.2 site (by omega) small

/-- The heap and the pointers that the program has got and not given back, with the bytes it asked for. -/
structure Client where
  heap : Heap
  held : Nat → Option Nat

inductive Call
  | malloc (nbytes : Nat)
  | calloc (nmemb size : Nat)
  | realloc (ptr nbytes : Nat)
  | free (ptr : Nat)
  | store (ptr i : Nat) (v : UInt8)

def Client.hand (s : Client) (result : Heap × Nat) (nbytes : Nat) : Client where
  heap := result.1
  held := if result.2 = 0 then s.held else Function.update s.held result.2 (some nbytes)

def Client.drop (s : Client) (ptr : Nat) : Client := { s with held := Function.update s.held ptr none }

def step (m : Machine) (s : Client) : Call → Option Client
  | .malloc nbytes => (malloc m s.heap nbytes).map fun r => s.hand r nbytes
  | .calloc nmemb size => (calloc m s.heap nmemb size).map fun r => s.hand r (nmemb * size)
  | .realloc ptr nbytes => (realloc m s.heap ptr nbytes).map fun r =>
    (if r.2 = 0 then s else s.drop ptr).hand r nbytes
  | .free ptr => (free s.heap ptr).map fun h => { s.drop ptr with heap := h }
  | .store ptr i v => some { s with heap := { s.heap with bytes := Function.update s.heap.bytes (ptr + i) v } }

/-- What the program may do: give back and resize what it has got, store in it, and ask for what does not wrap. -/
def Legal (s : Client) : Call → Prop
  | .malloc nbytes => ¬Wraps nbytes
  | .calloc nmemb size => ¬Wraps (nmemb * size)
  | .realloc ptr nbytes => (ptr = 0 ∨ (s.held ptr).isSome = true) ∧ ¬Wraps nbytes
  | .free ptr => ptr = 0 ∨ (s.held ptr).isSome = true
  | .store ptr i _ => i < (s.held ptr).getD 0

instance (s : Client) (c : Call) : Decidable (Legal s c) := by
  cases c <;> unfold Legal <;> infer_instance

/-- The pointer that a call names, if any. -/
def Call.target : Call → Nat
  | .malloc _ => 0
  | .calloc _ _ => 0
  | .realloc ptr _ => ptr
  | .free ptr => ptr
  | .store ptr _ _ => ptr

/-- The blocks that are not free are those of the program, with room for what it asked for. -/
structure Owned (held : Nat → Option Nat) (live : Block → Prop) : Prop where
  room : ∀ p n, held p = some n → ∃ b, live b ∧ p = b.addr + 16 ∧ n + 16 ≤ 16 * b.units
  held : ∀ b, live b → (held (b.addr + 16)).isSome = true

/-- The heap is a ring of free blocks between those of the program. -/
def Sound (m : Machine) (s : Client) : Prop := ∃ bs, Valid m s.heap bs ∧ Owned s.held (Live bs)

/-- A call leaves the blocks alone that it does not name. -/
def Spares (s s' : Client) (target : Nat) : Prop :=
  ∀ p n, s.held p = some n → p ≠ target →
    s'.held p = some n ∧ ∀ i < n, s'.heap.bytes (p + i) = s.heap.bytes (p + i)

section

variable {live : Block → Prop} {held : Nat → Option Nat} {bs' : List Block} {s : Client}

theorem Owned.null (owned : Owned held live) : held 0 = none := by
  cases isHeld : held 0 with
  | none => rfl
  | some n =>
    rcases owned.room 0 n isHeld with ⟨b, _, same, _⟩
    omega

theorem Owned.congr {live' : Block → Prop} (owned : Owned held live) (same : ∀ c, live' c ↔ live c) :
    Owned held live' := by
  rw [show live' = live from funext fun c => propext (same c)]
  exact owned

theorem Owned.drop (owned : Owned held (Live bs)) (tiled : Tiled a bs e) (isLive : Live bs b) :
    Owned (Function.update held (b.addr + 16) none) fun c => Live bs c ∧ c ≠ b := by
  constructor
  · intro p k isHeld
    by_cases same : p = b.addr + 16
    · rw [same, Function.update_self] at isHeld
      cases isHeld
    · rw [Function.update_of_ne same] at isHeld
      rcases owned.room p k isHeld with ⟨c, old, at_, room⟩
      refine ⟨c, ⟨old, ?_⟩, at_, room⟩
      rintro rfl
      exact same at_
  · rintro c ⟨old, other⟩
    have apart := tiled.disjoint old.1 isLive.1 other
    have mine := (tiled.inside isLive.1).2.2
    have his := (tiled.inside old.1).2.2
    unfold Block.stop at apart
    rw [Function.update_of_ne (by omega)]
    exact owned.held c old

/-- The block of a pointer that is held. -/
theorem Owned.block (owned : Owned held live) {p : Nat} (isHeld : (held p).isSome = true) :
    ∃ b k, live b ∧ p = b.addr + 16 ∧ held p = some k ∧ k + 16 ≤ 16 * b.units := by
  rcases Option.isSome_iff_exists.mp isHeld with ⟨k, some_⟩
  rcases owned.room p k some_ with ⟨b, isLive, same, room⟩
  exact ⟨b, k, isLive, same, some_, room⟩

/-- A new block is held beside the others, with its own bytes only. -/
theorem hand_sound (owned : Owned s.held live) (valid : Valid m h' bs')
    (lives : ∀ c, Live bs' c ↔ c = b ∨ live c) (fresh : ∀ c, live c → c.addr ≠ b.addr)
    (room : n + 16 ≤ 16 * b.units) (kept : ∀ x, x < b.addr ∨ b.stop ≤ x → h'.bytes x = s.heap.bytes x)
    (target : Nat) :
    Sound m (s.hand (h', b.addr + 16) n) ∧ Spares s (s.hand (h', b.addr + 16) n) target := by
  have isHeld : (s.hand (h', b.addr + 16) n).held = Function.update s.held (b.addr + 16) (some n) := by
    simp [Client.hand]
  refine ⟨⟨bs', valid, ?_, ?_⟩, ?_⟩
  · intro p k
    rw [isHeld]
    by_cases same : p = b.addr + 16
    · rw [same, Function.update_self]
      rintro ⟨⟩
      exact ⟨b, (lives b).mpr (.inl rfl), rfl, room⟩
    · rw [Function.update_of_ne same]
      intro old
      rcases owned.room p k old with ⟨c, isLive, rest⟩
      exact ⟨c, (lives c).mpr (.inr isLive), rest⟩
  · intro c isLive
    rw [isHeld]
    rcases (lives c).mp isLive with rfl | old
    · rw [Function.update_self]
      rfl
    · have other := fresh c old
      rw [Function.update_of_ne (by omega)]
      exact owned.held c old
  · intro p k old _
    rcases owned.room p k old with ⟨c, isLive, rfl, large⟩
    have other := fresh c isLive
    have apart := valid.tiled.disjoint ((lives c).mpr (.inr isLive)).1 ((lives b).mpr (.inl rfl)).1
      (by rintro rfl; exact other rfl)
    rw [isHeld, Function.update_of_ne (by omega)]
    refine ⟨old, ?_⟩
    intro i low
    apply kept
    unfold Block.stop at apart ⊢
    omega

theorem null_sound (owned : Owned s.held live) (valid : Valid m h' bs') (lives : ∀ c, Live bs' c ↔ live c)
    (bytes : h'.bytes = s.heap.bytes) (target : Nat) :
    Sound m (s.hand (h', 0) n) ∧ Spares s (s.hand (h', 0) n) target :=
  ⟨⟨bs', valid, owned.congr lives⟩, fun _ _ isHeld _ => ⟨isHeld, fun _ _ => congrFun bytes _⟩⟩

theorem malloc_sound (valid : Valid m s.heap bs) (owned : Owned s.held (Live bs)) {nbytes : Nat}
    (small : ¬Wraps nbytes) (target : Nat) : ∃ r, malloc m s.heap nbytes = some r ∧
      Sound m (s.hand r nbytes) ∧ Spares s (s.hand r nbytes) target := by
  rcases malloc_spec valid small with ⟨h', p, bs', made, user, ⟨rfl, valid', lives⟩ | ⟨b, hands, units, rfl⟩⟩
  · exact ⟨_, made, null_sound owned valid' lives (congrArg Prod.fst user) target⟩
  · refine ⟨_, made, hand_sound owned hands.valid hands.live hands.fresh ?_ ?_ target⟩
    · rw [units]
      exact units_room nbytes
    · intro x _
      exact congrFun (congrArg Prod.fst user) x

/-- What `calloc()` hands out is zero. -/
theorem calloc_sound (valid : Valid m s.heap bs) (owned : Owned s.held (Live bs)) {nmemb size : Nat}
    (small : ¬Wraps (nmemb * size)) : ∃ r, calloc m s.heap nmemb size = some r ∧
      (Sound m (s.hand r (nmemb * size)) ∧ Spares s (s.hand r (nmemb * size)) 0) ∧
      (r.2 ≠ 0 → ∀ i < nmemb * size, r.1.bytes (r.2 + i) = 0) := by
  unfold calloc
  split_ifs with refused
  · exact ⟨_, rfl, null_sound owned valid (fun _ => Iff.rfl) rfl 0, fun other => absurd rfl other⟩
  · dsimp only
    rcases malloc_spec valid small with ⟨h', p, bs', made, user, ⟨rfl, valid', lives⟩ | ⟨b, hands, units, rfl⟩⟩
    · rw [made]
      exact ⟨_, rfl, null_sound owned valid' lives (congrArg Prod.fst user) 0, fun other => absurd rfl other⟩
    · have room := units_room (nmemb * size)
      rw [← units] at room
      rw [made, Option.map_some, if_neg (Nat.succ_ne_zero (b.addr + 15)), memset_eq]
      refine ⟨_, rfl, hand_sound owned (hands.valid.bytes _) hands.live hands.fresh room ?_ 0, ?_⟩
      · intro x outside
        unfold Block.stop at outside
        dsimp only
        rw [if_neg (by omega)]
        exact congrFun (congrArg Prod.fst user) x
      · intro _ i low
        exact if_pos ⟨Nat.le_add_right _ _, Nat.add_lt_add_left low _⟩

theorem realloc_sound (valid : Valid m s.heap bs) (owned : Owned s.held (Live bs)) (isLive : Live bs b) {nbytes : Nat}
    (small : ¬Wraps nbytes) : ∃ r, realloc m s.heap (b.addr + 16) nbytes = some r ∧
      (Sound m ((if r.2 = 0 then s else s.drop (b.addr + 16)).hand r nbytes) ∧
        Spares s ((if r.2 = 0 then s else s.drop (b.addr + 16)).hand r nbytes) (b.addr + 16)) ∧
      (r.2 ≠ 0 → ∀ i < min (16 * (b.units - 1)) nbytes, r.1.bytes (r.2 + i) = s.heap.bytes (b.addr + 16 + i)) := by
  rcases realloc_spec valid isLive small with ⟨h', p, bs', made, ⟨rfl, valid', lives, bytes⟩ | ⟨b', moves, rfl⟩⟩
  · exact ⟨_, made, null_sound owned valid' lives bytes _, fun other => absurd rfl other⟩
  · refine ⟨_, made, ?_, fun _ => moves.kept⟩
    have room := units_room nbytes
    rw [← moves.units] at room
    have dropped : Owned (s.drop (b.addr + 16)).held fun c => Live bs c ∧ c ≠ b := owned.drop valid.tiled isLive
    rw [if_neg (Nat.succ_ne_zero (b'.addr + 15))]
    rcases hand_sound dropped moves.valid moves.live (fun c old => moves.fresh c old.1 old.2) room moves.other
      (b.addr + 16) with ⟨sound, spares⟩
    refine ⟨sound, fun p n isHeld other => ?_⟩
    exact spares p n ((Function.update_of_ne other _ _).trans isHeld) other

end

/-- What the program may do is done, and keeps everything else. -/
theorem step_sound {s : Client} {call : Call} (sound : Sound m s) (legal : Legal s call) :
    ∃ s', step m s call = some s' ∧ Sound m s' ∧ Spares s s' call.target := by
  rcases sound with ⟨bs, valid, owned⟩
  have dropNull : s.drop 0 = s := by
    unfold Client.drop
    rw [← owned.null, Function.update_eq_self]
  cases call with
  | malloc nbytes =>
    rcases malloc_sound valid owned legal 0 with ⟨r, made, both⟩
    exact ⟨_, congrArg (Option.map _) made, both⟩
  | calloc nmemb size =>
    rcases calloc_sound valid owned legal with ⟨r, made, both, _⟩
    exact ⟨_, congrArg (Option.map _) made, both⟩
  | realloc ptr nbytes =>
    rcases legal with ⟨rfl | isHeld, small⟩
    · have done : ∃ r, realloc m s.heap 0 nbytes = some r ∧ Sound m (s.hand r nbytes) ∧ Spares s (s.hand r nbytes) 0 := by
        unfold realloc
        rw [if_pos (rfl : 0 = 0)]
        split_ifs
        · exact ⟨_, rfl, null_sound owned (valid.errno (some .EINVAL)) (fun _ => Iff.rfl) rfl 0⟩
        · exact ⟨_, rfl, null_sound owned (valid.errno (some .ENOMEM)) (fun _ => Iff.rfl) rfl 0⟩
        · exact malloc_sound valid owned small 0
      rcases done with ⟨r, made, both⟩
      have same : (if r.2 = 0 then s else s.drop 0) = s := by
        rw [dropNull]
        exact ite_self s
      refine ⟨_, congrArg (Option.map _) made, ?_⟩
      dsimp only
      rw [same]
      exact both
    · rcases owned.block isHeld with ⟨b, k, live, rfl, _, _⟩
      rcases realloc_sound valid owned live small with ⟨r, made, both, _⟩
      exact ⟨_, congrArg (Option.map _) made, both⟩
  | free ptr =>
    rcases legal with rfl | isHeld
    · refine ⟨s, ?_, ⟨bs, valid, owned⟩, fun p n isHeld _ => ⟨isHeld, fun _ _ => rfl⟩⟩
      change some { s.drop 0 with heap := s.heap } = some s
      rw [dropNull]
    · rcases owned.block isHeld with ⟨b, k, live, rfl, _, _⟩
      rcases release_spec valid live with ⟨h', bs', done, valid', rest, lives⟩
      refine ⟨_, congrArg (Option.map _) done, ⟨bs', valid', (owned.drop valid.tiled live).congr lives⟩, ?_⟩
      intro p n isHeld other
      refine ⟨(Function.update_of_ne other _ _).trans isHeld, fun i _ => ?_⟩
      exact congrFun (congrArg (fun r => r.2.1) rest) _
  | store ptr i v =>
    refine ⟨_, rfl, ⟨bs, valid.bytes _, owned⟩, ?_⟩
    intro p n isHeld other
    refine ⟨isHeld, fun j low => Function.update_of_ne ?_ _ _⟩
    have inside : i < (s.held ptr).getD 0 := legal
    cases isTarget : s.held ptr with
    | none =>
      rw [isTarget] at inside
      cases inside
    | some k =>
      rw [isTarget] at inside
      have inside : i < k := inside
      rcases owned.room p n isHeld with ⟨b, live, rfl, large⟩
      rcases owned.room ptr k isTarget with ⟨c, live', rfl, large'⟩
      have apart := valid.tiled.disjoint live.1 live'.1 (by rintro rfl; exact other rfl)
      unfold Block.stop at apart
      omega

def Client.start (m : Machine) : Client := ⟨Malloc.start m, fun _ => none⟩

theorem start_sound (m : Machine) : Sound m (.start m) := by
  refine ⟨[], ⟨rfl, .nil, by simp, rfl, ⟨rfl, rfl⟩, List.mem_cons_self⟩, ?_, ?_⟩
  · intro p n held
    cases held
  · rintro b ⟨member, _⟩
    cases member

/-- Every run of what the program may do is carried out, and the heap is sound after it. -/
theorem run_sound (m : Machine) (calls : List Call) (legal : Run.Meets (step m) Legal (.start m) calls) :
    ∃ s, Run.run (step m) (.start m) calls = some s ∧ Sound m s := by
  apply Run.run_progress (Sound m) _ (start_sound m) legal
  intro s call sound may
  rcases step_sound sound may with ⟨s', stepped, sound', _⟩
  exact ⟨s', stepped, sound'⟩

/-- A machine that never runs out of memory. -/
def endless : Machine := ⟨16, 32, fun _ _ => true, by decide⟩

theorem run_sound_endless : ∃ s, Run.run (step endless) (.start endless)
    [.malloc 8, .calloc 5 8, .store 208 3 7, .realloc 208 8, .realloc 208 24, .realloc 208 100, .free 272] = some s ∧
      Sound endless s :=
  run_sound endless _ (by decide +kernel)

theorem stores : (Run.run (step endless) (.start endless) [.malloc 8, .store 272 3 7]).isSome = true := by
  decide +kernel

/-- A block of eight bytes, and one of them set. -/
def stored : Client := (Run.run (step endless) (.start endless) [.malloc 8, .store 272 3 7]).get stores

theorem spares_from {s s' : Client} {calls : List Call} (sound : Sound m s)
    (legal : Run.Meets (step m) Legal s calls) (done : Run.run (step m) s calls = some s') {p n : Nat}
    (held : s.held p = some n) (unnamed : ∀ call ∈ calls, call.target ≠ p) :
    s'.held p = some n ∧ ∀ i < n, s'.heap.bytes (p + i) = s.heap.bytes (p + i) := by
  induction calls generalizing s with
  | nil =>
    cases done
    exact ⟨held, fun _ _ => rfl⟩
  | cons call calls ih =>
    rw [List.forall_mem_cons] at unnamed
    rcases step_sound sound legal.1 with ⟨next, stepped, sound', spares⟩
    rw [Run.run_cons, stepped] at done
    rcases spares p n held unnamed.1.symm with ⟨held', same⟩
    rcases ih sound' (legal.2 next stepped) done held' unnamed.2 with ⟨held'', same'⟩
    exact ⟨held'', fun i low => (same' i low).trans (same i low)⟩

theorem sound_after {before after : List Call} {s : Client}
    (legal : Run.Meets (step m) Legal (.start m) (before ++ after))
    (reached : Run.run (step m) (.start m) before = some s) :
    Sound m s ∧ Run.Meets (step m) Legal s after := by
  rw [Run.meets_append] at legal
  refine ⟨?_, legal.2 s reached⟩
  apply Run.run_invariant (Sound m) _ (start_sound m) legal.1 reached
  intro s call next sound may stepped
  rcases step_sound sound may with ⟨s', stepped', sound', _⟩
  rw [stepped] at stepped'
  cases stepped'
  exact sound'

/-- The calls that do not name a block leave it alone, after any other ones. -/
theorem run_spares (m : Machine) (before after : List Call) (s s' : Client)
    (legal : Run.Meets (step m) Legal (.start m) (before ++ after))
    (reached : Run.run (step m) (.start m) before = some s) (done : Run.run (step m) s after = some s') (p n : Nat)
    (held : s.held p = some n) (unnamed : ∀ call ∈ after, call.target ≠ p) :
    s'.held p = some n ∧ ∀ i < n, s'.heap.bytes (p + i) = s.heap.bytes (p + i) := by
  rcases sound_after legal reached with ⟨sound, legal⟩
  exact spares_from sound legal done held unnamed

theorem run_spares_endless : ∃ s', Run.run (step endless) stored [.calloc 5 8, .realloc 208 100, .free 80] = some s' ∧
    s'.held 272 = some 8 ∧ ∀ i < 8, s'.heap.bytes (272 + i) = stored.heap.bytes (272 + i) := by
  have after : (Run.run (step endless) stored [.calloc 5 8, .realloc 208 100, .free 80]).isSome = true := by
    decide +kernel
  rcases Option.isSome_iff_exists.mp after with ⟨s', done⟩
  exact ⟨s', done, run_spares endless [.malloc 8, .store 272 3 7] _ stored s' (by decide +kernel)
    (Option.some_get stores).symm done 272 8 (by decide +kernel) (by decide)⟩

/-- What `realloc()` returns begins with the bytes of the block, as many as both of them have. -/
theorem realloc_keeps (m : Machine) (before : List Call) (s : Client) (ptr old nbytes : Nat)
    (legal : Run.Meets (step m) Legal (.start m) (before ++ [.realloc ptr nbytes]))
    (reached : Run.run (step m) (.start m) before = some s) (held : s.held ptr = some old) :
    ∃ h p, realloc m s.heap ptr nbytes = some (h, p) ∧
      (p ≠ 0 → ∀ i < min old nbytes, h.bytes (p + i) = s.heap.bytes (ptr + i)) := by
  rcases sound_after legal reached with ⟨⟨bs, valid, owned⟩, legal⟩
  rcases owned.room ptr old held with ⟨b, live, rfl, room⟩
  rcases realloc_sound valid owned live legal.1.2 with ⟨⟨h, p⟩, made, _, kept⟩
  refine ⟨h, p, made, fun moved i low => kept moved i ?_⟩
  omega

theorem realloc_keeps_endless : ∃ h p, realloc endless stored.heap 272 100 = some (h, p) ∧
    (p ≠ 0 → ∀ i < min 8 100, h.bytes (p + i) = stored.heap.bytes (272 + i)) :=
  realloc_keeps endless [.malloc 8, .store 272 3 7] stored 272 8 100 (by decide +kernel) (Option.some_get stores).symm
    (by decide +kernel)

end Scc.Libc.Malloc
