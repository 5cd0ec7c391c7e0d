import Mathlib.Data.List.Nodup
import Mathlib.Data.Nat.Bitwise

/-!
# The table of instruction names

`lexh` reads the instruction names and looks for a multiplier, a mask and a shift that send their
hashes to different places, and prints them with the table of places. The assembler is compiled
with what was printed, and `decode()` finds an instruction by one look into the table.
-/

namespace Scc.As.KeywordHash

set_option autoImplicit false

abbrev Str := List UInt8

/-- A `char` as an `unsigned`; whether it has a sign is up to the machine. -/
def promote (signed : Bool) (c : UInt8) : UInt32 :=
  if signed then c.toInt8.toInt32.toUInt32 else c.toUInt32

def genhash (signed : Bool) (name : Str) : UInt32 :=
  name.foldl (fun h c => (h * 33) ^^^ promote signed c) 5381

/-- `hash()`, which keeps an `unsigned short`. -/
def hash (signed : Bool) (s : Str) : Nat := (genhash signed s).toNat % 2 ^ 16

/-- `(h*K >> S) & M`, computed in an `unsigned long` and kept in an `unsigned`. -/
def slot (K M S h : Nat) : Nat := ((h * K % 2 ^ 64) >>> S &&& M) % 2 ^ 32

/-- The loop over the hashes that marks the places in `bmap`. -/
def distinct (place : Nat → Nat) : List Nat → List Nat → Bool
  | [], _ => true
  | h :: th, bmap => if place h ∈ bmap then false else distinct place th (place h :: bmap)

/-- The first odd multiplier, up to the largest but one of an `unsigned short`, that works. -/
def foundmap (th : List Nat) (M S : Nat) : Option Nat :=
  (List.range' 1 32767 2).find? fun K => distinct (slot K M S) th []

/-- `for (nbits = 1; 1<<nbits < ntok; ++nbits)`. -/
def nbitsFrom (ntok nbits : Nat) : Nat :=
  if 2 ^ nbits < ntok then nbitsFrom ntok (nbits + 1) else nbits
termination_by ntok - nbits
decreasing_by
  have := @Nat.lt_two_pow_self nbits
  omega

/-- `~((unsigned) -1 << i)`. -/
def mask (i : Nat) : Nat := 2 ^ 32 - 1 - (2 ^ 32 - 1) <<< i % 2 ^ 32

/-- What is printed: the three numbers and the array, whose elements are of type `short`. -/
structure Table where
  K : Nat
  M : Nat
  S : Nat
  hashmap : List Int
deriving DecidableEq

inductive Failure
  | collision (tok tok' : Str)
  | impossible

/-- The hashes of the names, unless two are the same. -/
def hashes (signed : Bool) : List Str → List (Str × Nat) → Except Failure (List Nat)
  | [], done => .ok (done.map Prod.snd)
  | tok :: toks, done =>
    match done.find? fun other => other.2 = hash signed tok with
    | some other => .error (.collision tok other.1)
    | none => hashes signed toks (done ++ [(tok, hash signed tok)])

/-- An array with designated initializers. -/
def initialized (size : Nat) (entries : List (Nat × Int)) : List Int :=
  entries.foldl (fun hashmap entry => hashmap.set entry.1 entry.2) (List.replicate size 0)

/-- The parameters of the first search that succeeds, with the number of bits of the mask. -/
def search (th : List Nat) (nbits : Nat) : Option (Nat × Nat × Nat) :=
  (List.range' (nbits + 1) (15 - nbits)).findSome? fun i =>
    (List.range' nbits (32 - nbits)).findSome? fun j =>
      (foundmap th (mask i) (32 - j)).map fun K => (i, K, 32 - j)

/-- The table for a mask of so many bits, a multiplier and a shift. -/
def table (th : List Nat) : Nat × Nat × Nat → Table
  | (i, K, S) =>
    { K, M := mask i, S,
      hashmap := initialized (2 ^ i)
        (th.zipIdx.map fun e => (slot K (mask i) S e.1, ((e.2 : Int) + 1).bmod (2 ^ 16))) }

def phash (signed : Bool) (toks : List Str) : Except Failure Table :=
  (hashes signed toks []).bind fun th =>
    (search th (nbitsFrom toks.length 1)).elim (.error .impossible) fun found => .ok (table th found)

def toupper (c : UInt8) : UInt8 := if 97 ≤ c ∧ c ≤ 122 then c &&& ~~~0x20 else c

/-- The index in `instab` of the instruction with the name `s`. There is no result when something
outside of one of the arrays is read. -/
def decode (signed : Bool) (t : Table) (instab : List Str) (s : Str) : Option (Option Nat) :=
  let s := s.map toupper
  let h := slot t.K t.M t.S (hash signed s)
  match t.hashmap[h]? with
  | none => none
  | some id =>
    let id := (id % 2 ^ 32).toNat
    if id = 0 then some none
    else match instab[id - 1]? with
      | none => none
      | some str => some (if str ≠ s then none else some (id - 1))

theorem distinct_nodup {place : Nat → Nat} {th bmap : List Nat} (ok : distinct place th bmap = true) :
    (th.map place).Nodup ∧ ∀ h ∈ th, place h ∉ bmap := by
  induction th generalizing bmap with
  | nil => exact ⟨List.nodup_nil, nofun⟩
  | cons h th ih =>
    rw [distinct] at ok
    split_ifs at ok with taken
    have ⟨nodup, free⟩ := ih ok
    rw [List.map_cons, List.nodup_cons]
    refine ⟨⟨?_, nodup⟩, ?_⟩
    · intro member
      rcases List.mem_map.mp member with ⟨h', member', same⟩
      exact free h' member' (same ▸ List.mem_cons_self)
    · intro h' member
      cases List.mem_cons.mp member with
      | inl same => exact same ▸ taken
      | inr later => exact fun inside => free h' later (List.mem_cons_of_mem _ inside)

theorem search_sound {th : List Nat} {nbits i K S : Nat} (found : search th nbits = some (i, K, S)) :
    nbits < i ∧ i < 16 ∧ (th.map (slot K (mask i) S)).Nodup := by
  rcases List.exists_of_findSome?_eq_some found with ⟨i', member, inner⟩
  rcases List.exists_of_findSome?_eq_some inner with ⟨j, _, multiplier⟩
  rcases Option.map_eq_some_iff.mp multiplier with ⟨K', first, same⟩
  cases same
  have range := List.mem_range'_1.mp member
  have works : distinct (slot K (mask i) (32 - j)) th [] = true := by
    have holds := List.find?_some first
    exact holds
  exact ⟨by omega, by omega, (distinct_nodup works).1⟩

theorem nbits_le (ntok nbits : Nat) : ntok ≤ 2 ^ nbitsFrom ntok nbits := by
  induction nbits using nbitsFrom.induct ntok with
  | case1 nbits more ih =>
    rw [nbitsFrom, if_pos more]
    exact ih
  | case2 nbits enough =>
    rw [nbitsFrom, if_neg enough]
    omega

theorem slot_lt {i : Nat} (bits : i < 16) (K S h : Nat) : slot K (mask i) S h < 2 ^ i := by
  have low : ∀ i < 16, mask i < 2 ^ i := by decide
  have masked : (h * K % 2 ^ 64) >>> S &&& mask i ≤ mask i := Nat.and_le_right
  exact lt_of_le_of_lt (Nat.mod_le _ _) (lt_of_le_of_lt masked (low i bits))

theorem hashes_eq {signed : Bool} {toks : List Str} {done : List (Str × Nat)} {th : List Nat}
    (ok : hashes signed toks done = .ok th) : th = done.map Prod.snd ++ toks.map (hash signed) := by
  induction toks generalizing done with
  | nil =>
    cases ok
    rw [List.map_nil, List.append_nil]
  | cons tok toks ih =>
    rw [hashes] at ok
    cases same : done.find? fun other => other.2 = hash signed tok with
    | some other =>
      rw [same] at ok
      cases ok
    | none =>
      rw [same] at ok
      rw [ih ok]
      simp

theorem set_entries_length (entries : List (Nat × Int)) (hashmap : List Int) :
    (entries.foldl (fun hashmap entry => hashmap.set entry.1 entry.2) hashmap).length = hashmap.length := by
  induction entries generalizing hashmap with
  | nil => rfl
  | cons entry entries ih => rw [List.foldl_cons, ih, List.length_set]

theorem set_entries_other {entries : List (Nat × Int)} {k : Nat} (other : k ∉ entries.map Prod.fst)
    (hashmap : List Int) :
    (entries.foldl (fun hashmap entry => hashmap.set entry.1 entry.2) hashmap)[k]? = hashmap[k]? := by
  induction entries generalizing hashmap with
  | nil => rfl
  | cons entry entries ih =>
    rw [List.map_cons, List.mem_cons, not_or] at other
    rw [List.foldl_cons, ih other.2, List.getElem?_set_ne (Ne.symm other.1)]

theorem set_entries_member {entries : List (Nat × Int)} (nodup : (entries.map Prod.fst).Nodup) {k : Nat} {v : Int}
    (member : (k, v) ∈ entries) {hashmap : List Int} (inside : k < hashmap.length) :
    (entries.foldl (fun hashmap entry => hashmap.set entry.1 entry.2) hashmap)[k]? = some v := by
  induction entries generalizing hashmap with
  | nil => cases member
  | cons entry entries ih =>
    rw [List.map_cons, List.nodup_cons] at nodup
    rw [List.foldl_cons]
    cases List.mem_cons.mp member with
    | inl same =>
      subst same
      rw [set_entries_other nodup.1, List.getElem?_set_self inside]
    | inr later => exact ih nodup.2 later (by rwa [List.length_set])

theorem printed_entries {signed : Bool} {toks : List Str} {t : Table} (printed : phash signed toks = .ok t) :
    (toks.map fun tok => slot t.K t.M t.S (hash signed tok)).Nodup ∧
      (∀ h, slot t.K t.M t.S h < t.hashmap.length) ∧ (∀ (i : Nat) tok, toks[i]? = some tok →
        i < 2 ^ 14 ∧ t.hashmap[slot t.K t.M t.S (hash signed tok)]? = some ((i : Int) + 1)) ∧
      ∀ k < t.hashmap.length, (∀ tok ∈ toks, k ≠ slot t.K t.M t.S (hash signed tok)) → t.hashmap[k]? = some 0 := by
  unfold phash at printed
  cases gathered : hashes signed toks [] with
  | error failure =>
    rw [gathered] at printed
    cases printed
  | ok th =>
    rw [gathered, Except.bind] at printed
    cases found : search th (nbitsFrom toks.length 1) with
    | none =>
      rw [found] at printed
      cases printed
    | some result =>
      rcases result with ⟨i, K, S⟩
      rw [found] at printed
      cases printed
      have ⟨bits, small, nodup⟩ := search_sound found
      have all := hashes_eq gathered
      rw [List.map_nil, List.nil_append] at all
      subst all
      have keys : (((toks.map (hash signed)).zipIdx.map fun e =>
          (slot K (mask i) S e.1, ((e.2 : Int) + 1).bmod (2 ^ 16))).map Prod.fst) =
          (toks.map (hash signed)).map (slot K (mask i) S) := by
        rw [List.map_map]
        calc _ = ((toks.map (hash signed)).zipIdx.map Prod.fst).map (slot K (mask i) S) := by rw [List.map_map]; rfl
          _ = _ := by rw [List.zipIdx_map_fst]
      have size (entries : List (Nat × Int)) : (initialized (2 ^ i) entries).length = 2 ^ i := by
        rw [initialized, set_entries_length, List.length_replicate]
      dsimp only [table]
      rw [size]
      refine ⟨by rwa [List.map_map] at nodup, fun h => slot_lt small K S h, ?_, ?_⟩
      · intro n tok at_n
        have inside : n < toks.length := (List.getElem?_eq_some_iff.mp at_n).1
        have few : toks.length ≤ 2 ^ 14 :=
          le_trans (nbits_le toks.length 1) (Nat.pow_le_pow_right (by decide) (by omega))
        have kept : ((n : Int) + 1).bmod (2 ^ 16) = n + 1 := Int.bmod_eq_of_le (by omega) (by omega)
        refine ⟨by omega, ?_⟩
        rw [← kept]
        refine set_entries_member (keys ▸ nodup) ?_ (by rw [List.length_replicate]; exact slot_lt small K S _)
        refine List.mem_map.mpr ⟨(hash signed tok, n), ?_, rfl⟩
        rw [List.mem_zipIdx_iff_getElem?, List.getElem?_map, at_n]
        rfl
      · intro k inside other
        have absent : k ∉ ((toks.map (hash signed)).map (slot K (mask i) S)) := by
          rw [List.map_map]
          intro member
          rcases List.mem_map.mp member with ⟨tok, member', same⟩
          exact other tok member' same.symm
        rw [initialized, set_entries_other (keys ▸ absent), List.getElem?_replicate, if_pos inside]

/-- With the printed table and the names in the same order, `decode()` looks only inside of the array, no
two names have the same place, and it gives the number of the name that the argument is in upper case,
and nothing when there is none. -/
theorem decode_iff (signed : Bool) (toks : List Str) (t : Table) (printed : phash signed toks = .ok t) :
    (toks.map fun tok => slot t.K t.M t.S (hash signed tok)).Nodup ∧
      (∀ s : Str, slot t.K t.M t.S (hash signed (s.map toupper)) < t.hashmap.length) ∧
      ∀ s : Str, (∀ i, decode signed t toks s = some (some i) ↔ toks[i]? = some (s.map toupper)) ∧
        (decode signed t toks s = some none ↔ s.map toupper ∉ toks) := by
  have ⟨places, inside, numbers, zeros⟩ := printed_entries printed
  refine ⟨places, fun s => inside _, fun s => ?_⟩
  unfold decode
  generalize s.map toupper = name
  dsimp only
  by_cases taken : ∃ tok ∈ toks, slot t.K t.M t.S (hash signed name) = slot t.K t.M t.S (hash signed tok)
  · rcases taken with ⟨tok, member, same⟩
    rcases List.mem_iff_getElem?.mp member with ⟨n, at_n⟩
    have unique (i : Nat) (at_i : toks[i]? = some name) : i = n := by
      have there : (toks.map fun tok => slot t.K t.M t.S (hash signed tok))[i]? =
          (toks.map fun tok => slot t.K t.M t.S (hash signed tok))[n]? := by
        rw [List.getElem?_map, List.getElem?_map, at_i, at_n, Option.map_some, Option.map_some, same]
      refine (List.getElem?_inj ?_ places).mp there
      rw [List.length_map]
      exact (List.getElem?_eq_some_iff.mp at_i).1
    have ⟨few, entry⟩ := numbers n tok at_n
    have number : (((n : Int) + 1) % 2 ^ 32).toNat = n + 1 := by omega
    rw [same, entry]
    dsimp only
    rw [number, if_neg (Nat.succ_ne_zero n), Nat.add_sub_cancel, at_n]
    dsimp only
    by_cases agree : tok = name
    · subst agree
      rw [if_neg (not_not_intro rfl)]
      refine ⟨fun i => ⟨fun found => ?_, fun at_i => ?_⟩, by simp [member]⟩
      · cases found
        exact at_n
      · rw [unique i at_i]
    · rw [if_pos agree]
      have absent (i : Nat) : toks[i]? ≠ some name := by
        intro at_i
        rw [unique i at_i, at_n] at at_i
        exact agree (Option.some.inj at_i)
      refine ⟨fun i => ⟨nofun, fun at_i => absurd at_i (absent i)⟩, fun _ member' => ?_, fun _ => rfl⟩
      rcases List.mem_iff_getElem?.mp member' with ⟨i, at_i⟩
      exact absent i at_i
  · have free : ∀ tok ∈ toks, slot t.K t.M t.S (hash signed name) ≠ slot t.K t.M t.S (hash signed tok) :=
      fun tok member same => taken ⟨tok, member, same⟩
    have absent : name ∉ toks := fun member => free name member rfl
    rw [zeros _ (inside _) free]
    refine ⟨fun i => ⟨nofun, fun at_i => absurd (List.mem_iff_getElem?.mpr ⟨i, at_i⟩) absent⟩, fun _ => absent, fun _ => rfl⟩

/-- The table of the one name `NOP`. -/
def nopTable : Table := { K := 1, M := 3, S := 31, hashmap := [1, 0, 0, 0] }

theorem decode_iff_nop : decode true nopTable [[78, 79, 80]] [110, 79, 112] = some (some 0) ∧
    decode true nopTable [[78, 79, 80]] [110, 79, 112, 112] = some none := by
  have bits : nbitsFrom 1 1 = 1 := by rw [nbitsFrom, if_neg (by decide)]
  have found : search [hash true [78, 79, 80]] 1 = some (2, 1, 31) := by decide +kernel
  have printed : phash true [[78, 79, 80]] = .ok nopTable := by
    change (search [hash true [78, 79, 80]] (nbitsFrom 1 1)).elim _ _ = _
    rw [bits, found]
    exact congrArg Except.ok (by decide +kernel : table [hash true [78, 79, 80]] (2, 1, 31) = nopTable)
  have ⟨_, _, names⟩ := decode_iff true [[78, 79, 80]] nopTable printed
  exact ⟨((names _).1 0).mpr (by decide), (names _).2.mpr (by decide)⟩

end Scc.As.KeywordHash
