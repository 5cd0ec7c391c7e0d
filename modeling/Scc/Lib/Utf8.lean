import Mathlib.Algebra.Ring.Nat
import Mathlib.Data.List.Basic

/-!
# UTF-8

The encodings of the Unicode scalar values, by the number that the bits of a lead byte and of the bytes after it
make up. A lead byte that no encoding begins with counts as the one of a longer form.
-/

namespace Scc.Lib.Utf8

set_option autoImplicit false

def Tail (c : UInt8) : Prop := 0x80 ≤ c.toNat ∧ c.toNat < 0xC0

instance (c : UInt8) : Decidable (Tail c) := inferInstanceAs (Decidable (_ ∧ _))

/-- The number of bytes that a lead byte announces. -/
def need (lead : UInt8) : Nat :=
  if lead.toNat < 0xE0 then 2
  else if lead.toNat < 0xF0 then 3
  else if lead.toNat < 0xF8 then 4
  else if lead.toNat < 0xFC then 5
  else 6

def gather (v : Nat) (cs : List UInt8) : Nat := cs.foldl (fun v c => 64 * v + c.toNat % 64) v

def value (lead : UInt8) (cs : List UInt8) : Nat :=
  gather 0 cs + lead.toNat % 2 ^ (8 - need lead) * 64 ^ (need lead - 1)

/-- The number of bytes that encode a number. -/
def size (v : Nat) : Nat := if v ≤ 0x7f then 1 else if v ≤ 0x7ff then 2 else if v ≤ 0xffff then 3 else 4

theorem need_bounds (lead : UInt8) : 2 ≤ need lead ∧ need lead ≤ 6 := by
  unfold need
  split_ifs <;> omega

theorem size_le (v : Nat) : size v ≤ 4 := by
  unfold size
  split_ifs <;> omega

theorem byte_eq {n : Nat} (small : n < 256) {c : UInt8} : UInt8.ofNat n = c ↔ c.toNat = n := by
  constructor
  · intro same
    rw [← same]
    exact UInt8.toNat_ofNat_of_lt' small
  · intro same
    rw [← same]
    exact UInt8.ofNat_toNat

variable {lead : UInt8} {v : Nat} {cs : List UInt8}

theorem need_eq (high : 0xC0 ≤ lead.toNat) :
    (need lead = 2 ∧ lead.toNat < 0xE0) ∨ (need lead = 3 ∧ 0xE0 ≤ lead.toNat ∧ lead.toNat < 0xF0) ∨
      (need lead = 4 ∧ 0xF0 ≤ lead.toNat ∧ lead.toNat < 0xF8) ∨ (4 < need lead ∧ 0xF8 ≤ lead.toNat) := by
  unfold need
  split_ifs <;> omega

theorem scalar_lt (v : Char) : v.toNat < 0x110000 := by
  have valid := v.valid
  unfold UInt32.isValidChar Nat.isValidChar at valid
  change v.val.toNat < _
  omega

def encode (v : Nat) : List UInt8 :=
  if v ≤ 0x7f then [.ofNat v]
  else if v ≤ 0x7ff then [.ofNat (v / 64 % 0x20 + 0xc0), .ofNat (v % 0x40 + 0x80)]
  else if v ≤ 0xffff then
    [.ofNat (v / 4096 % 0x10 + 0xe0), .ofNat (v / 64 % 0x40 + 0x80), .ofNat (v % 0x40 + 0x80)]
  else
    [.ofNat (v / 262144 % 0x08 + 0xf0), .ofNat (v / 4096 % 0x40 + 0x80), .ofNat (v / 64 % 0x40 + 0x80),
      .ofNat (v % 0x40 + 0x80)]

theorem utf8EncodeChar_eq (v : Char) : String.utf8EncodeChar v = encode v.toNat := rfl

theorem encode_length (v : Nat) : (encode v).length = size v := by
  unfold encode size
  split_ifs <;> rfl

theorem encode_ascii (small : v < 0x80) : encode v = [.ofNat v] := if_pos (Nat.le_of_lt_succ small)

theorem encode_cons (v : Nat) : ∃ lead cs, encode v = lead :: cs := by
  unfold encode
  split_ifs <;> exact ⟨_, _, rfl⟩

theorem encode_low (encoded : encode v = lead :: cs)
    (low : lead.toNat < 0xC0) : v < 0x80 ∧ lead.toNat = v ∧ cs = [] := by
  unfold encode at encoded
  split_ifs at encoded
  · rw [List.cons.injEq, byte_eq (by omega)] at encoded
    exact ⟨by omega, encoded.1, encoded.2.symm⟩
  · rw [List.cons.injEq, byte_eq (by omega)] at encoded
    omega
  · rw [List.cons.injEq, byte_eq (by omega)] at encoded
    omega
  · rw [List.cons.injEq, byte_eq (by omega)] at encoded
    omega

theorem encode_iff (high : 0xC0 ≤ lead.toNat) (cs : List UInt8) (bound : v < 0x110000) :
    encode v = lead :: cs ↔
      (∀ c ∈ cs, Tail c) ∧ cs.length + 1 = need lead ∧ v = value lead cs ∧ size v = need lead := by
  have below := lead.toNat_lt
  have length := encode_length v
  by_cases long : cs.length + 1 = size v
  swap
  · constructor
    · intro encoded
      rw [encoded, List.length_cons] at length
      exact absurd length long
    · intro announced
      omega
  have announced := need_eq high
  unfold encode value size at *
  split_ifs at *
  · have none_ : cs = [] := List.length_eq_zero_iff.1 (by omega)
    subst none_
    simp only [List.cons.injEq, byte_eq (show v < 256 by omega)]
    omega
  · obtain ⟨a, one⟩ := List.length_eq_one_iff.1 (show cs.length = 1 by omega)
    subst one
    simp only [List.cons.injEq, byte_eq (show v / 64 % 0x20 + 0xc0 < 256 by omega),
      byte_eq (show v % 0x40 + 0x80 < 256 by omega), List.forall_mem_singleton, gather, List.foldl, List.length_cons,
      List.length_nil, Tail, and_true]
    rcases announced with ⟨announced, range⟩ | ⟨announced, range⟩ | ⟨announced, range⟩ | ⟨announced, range⟩
    · simp only [announced, Nat.reduceSub, Nat.reducePow, and_true, true_and]
      omega
    · omega
    · omega
    · omega
  · obtain ⟨a, b, two⟩ := List.length_eq_two.1 (show cs.length = 2 by omega)
    subst two
    simp only [List.cons.injEq, byte_eq (show v / 4096 % 0x10 + 0xe0 < 256 by omega),
      byte_eq (show v / 64 % 0x40 + 0x80 < 256 by omega), byte_eq (show v % 0x40 + 0x80 < 256 by omega),
      List.forall_mem_cons, List.not_mem_nil, false_implies, implies_true, gather, List.foldl, List.length_cons,
      List.length_nil, Tail, and_true]
    rcases announced with ⟨announced, range⟩ | ⟨announced, range⟩ | ⟨announced, range⟩ | ⟨announced, range⟩
    · omega
    · simp only [announced, Nat.reduceSub, Nat.reducePow, and_true, true_and]
      omega
    · omega
    · omega
  · obtain ⟨a, b, c, three⟩ := List.length_eq_three.1 (show cs.length = 3 by omega)
    subst three
    simp only [List.cons.injEq, byte_eq (show v / 262144 % 0x08 + 0xf0 < 256 by omega),
      byte_eq (show v / 4096 % 0x40 + 0x80 < 256 by omega), byte_eq (show v / 64 % 0x40 + 0x80 < 256 by omega),
      byte_eq (show v % 0x40 + 0x80 < 256 by omega), List.forall_mem_cons, List.not_mem_nil, false_implies,
      implies_true, gather, List.foldl, List.length_cons, List.length_nil, Tail, and_true]
    rcases announced with ⟨announced, range⟩ | ⟨announced, range⟩ | ⟨announced, range⟩ | ⟨announced, range⟩
    · omega
    · omega
    · simp only [announced, Nat.reduceSub, Nat.reducePow, and_true, true_and]
      omega
    · omega

/-- The lead byte, or the byte after it, rules out every character: the number would need fewer bytes, or be a
surrogate or too large. -/
def Impossible (lead : UInt8) (cs : List UInt8) : Prop :=
  lead.toNat < 0xC2 ∨ 0xF4 < lead.toNat ∨
    ∃ c ∈ cs.head?, (lead.toNat = 0xE0 ∧ c.toNat < 0xA0) ∨ (lead.toNat = 0xED ∧ 0xA0 ≤ c.toNat) ∨
      (lead.toNat = 0xF0 ∧ c.toNat < 0x90) ∨ (lead.toNat = 0xF4 ∧ 0x90 ≤ c.toNat)

theorem impossible_iff (high : 0xC0 ≤ lead.toNat) (tail : ∀ c ∈ cs, Tail c)
    (length : cs.length + 1 = need lead) :
    Impossible lead cs ↔ ¬ ((value lead cs).isValidChar ∧ size (value lead cs) = need lead) := by
  have below := lead.toNat_lt
  have few := size_le (value lead cs)
  have announced := need_eq high
  unfold Impossible
  unfold size at few ⊢
  unfold value Nat.isValidChar at *
  rcases announced with ⟨two, range⟩ | ⟨three, range⟩ | ⟨four, range⟩ | ⟨more, range⟩
  · obtain ⟨a, one⟩ := List.length_eq_one_iff.1 (show cs.length = 1 by omega)
    subst one
    simp only [two, gather, List.foldl, List.head?_cons, Option.mem_some_iff, exists_eq_left', Nat.reduceSub,
      Nat.reducePow, List.forall_mem_singleton, Tail] at *
    split_ifs <;> omega
  · obtain ⟨a, b, two⟩ := List.length_eq_two.1 (show cs.length = 2 by omega)
    subst two
    simp only [three, gather, List.foldl, List.head?_cons, Option.mem_some_iff, exists_eq_left', Nat.reduceSub,
      Nat.reducePow, List.forall_mem_cons, Tail] at *
    split_ifs <;> omega
  · obtain ⟨a, b, c, three⟩ := List.length_eq_three.1 (show cs.length = 3 by omega)
    subst three
    simp only [four, gather, List.foldl, List.head?_cons, Option.mem_some_iff, exists_eq_left', Nat.reduceSub,
      Nat.reducePow, List.forall_mem_cons, Tail] at *
    split_ifs <;> omega
  · constructor
    · intro _ valid
      omega
    · intro _
      omega

theorem impossible_append (impossible : Impossible lead cs) (more : List UInt8) :
    Impossible lead (cs ++ more) := by
  rcases impossible with low | large | ⟨c, first, second⟩
  · exact .inl low
  · exact .inr (.inl large)
  · refine .inr (.inr ⟨c, ?_, second⟩)
    cases cs with
    | nil => cases first
    | cons d cs => exact first

theorem encoded_iff (high : 0xC0 ≤ lead.toNat) (cs : List UInt8) :
    (∃ v : Char, String.utf8EncodeChar v = lead :: cs) ↔
      (∀ c ∈ cs, Tail c) ∧ cs.length + 1 = need lead ∧ ¬ Impossible lead cs := by
  constructor
  · intro encoded
    rcases encoded with ⟨v, bytes⟩
    have parts := (encode_iff high cs (scalar_lt v)).1 bytes
    rcases parts with ⟨tail, length, number, all⟩
    refine ⟨tail, length, ?_⟩
    rw [impossible_iff high tail length, ← number]
    have valid : v.toNat.isValidChar := v.valid
    exact fun impossible => impossible ⟨valid, all⟩
  · intro formed
    rcases formed with ⟨tail, length, possible⟩
    rw [impossible_iff high tail length, not_not] at possible
    have number : (Char.ofNat (value lead cs)).toNat = value lead cs := by
      unfold Char.ofNat
      rw [dif_pos possible.1]
      rfl
    refine ⟨Char.ofNat (value lead cs), ?_⟩
    rw [utf8EncodeChar_eq, encode_iff high cs (scalar_lt _), number]
    exact ⟨tail, length, rfl, possible.2⟩

/-- Bytes that some character begins with. -/
def Incomplete (s : List UInt8) : Prop := ∃ v : Char, s <+: String.utf8EncodeChar v ∧ s ≠ String.utf8EncodeChar v

def second (lead : UInt8) : UInt8 := if lead.toNat = 0xE0 then 0xA0 else if lead.toNat = 0xF0 then 0x90 else 0x80

theorem second_tail (lead : UInt8) : Tail (second lead) ∧ (0xC2 ≤ lead.toNat → lead.toNat ≤ 0xF4 →
    ∀ cs, ¬ Impossible lead (second lead :: cs)) := by
  unfold second Impossible
  split_ifs with three four
  · simp [Tail, three]
  · simp [Tail, four]
  · simp [Tail, three, four]
    omega

theorem completed (tail : ∀ c ∈ cs, Tail c) (short : cs.length + 1 < need lead)
    (possible : ¬ Impossible lead cs) :
    ∃ more, more ≠ [] ∧ (∀ c ∈ more, Tail c) ∧ cs.length + more.length + 1 = need lead ∧
      ¬ Impossible lead (cs ++ more) := by
  have zero : Tail 0x80 := by decide
  cases cs with
  | nil =>
    have following := second_tail lead
    refine ⟨second lead :: List.replicate (need lead - 2) 0x80, List.cons_ne_nil _ _, ?_, ?_, ?_⟩
    · intro c member
      rcases List.mem_cons.1 member with first | later
      · rw [first]
        exact following.1
      · rw [List.eq_of_mem_replicate later]
        exact zero
    · rw [List.length_nil] at short
      simp
      omega
    · have range : 0xC2 ≤ lead.toNat ∧ lead.toNat ≤ 0xF4 := by
        unfold Impossible at possible
        omega
      exact following.2 range.1 range.2 _
  | cons c cs =>
    refine ⟨List.replicate (need lead - (cs.length + 2)) 0x80, ?_, ?_, ?_, ?_⟩
    · intro none_
      rw [List.replicate_eq_nil_iff] at none_
      rw [List.length_cons] at short
      omega
    · intro d member
      rw [List.eq_of_mem_replicate member]
      exact zero
    · rw [List.length_cons] at short ⊢
      rw [List.length_replicate]
      omega
    · exact possible

theorem incomplete_iff (high : 0xC0 ≤ lead.toNat) (cs : List UInt8) :
    Incomplete (lead :: cs) ↔ (∀ c ∈ cs, Tail c) ∧ cs.length + 1 < need lead ∧ ¬ Impossible lead cs := by
  constructor
  · intro incomplete
    rcases incomplete with ⟨v, ⟨more, bytes⟩, other⟩
    have encoded := (encoded_iff high (cs ++ more)).1 ⟨v, bytes.symm⟩
    rcases encoded with ⟨tail, length, possible⟩
    have some_ : more ≠ [] := by
      intro none_
      rw [none_, List.append_nil] at bytes
      exact other bytes
    have longer := List.length_pos_iff.2 some_
    rw [List.length_append] at length
    refine ⟨fun c member => tail c (List.mem_append_left _ member), by omega, ?_⟩
    exact fun impossible => possible (impossible_append impossible more)
  · intro formed
    rcases formed with ⟨tail, short, possible⟩
    have more : ∃ more, more ≠ [] ∧ (∀ c ∈ more, Tail c) ∧ cs.length + more.length + 1 = need lead ∧
        ¬ Impossible lead (cs ++ more) := completed tail short possible
    rcases more with ⟨more, some_, tail', length, possible'⟩
    have encoded := (encoded_iff high (cs ++ more)).2
    rw [List.length_append, List.forall_mem_append] at encoded
    rcases encoded ⟨⟨tail, tail'⟩, length, possible'⟩ with ⟨v, bytes⟩
    refine ⟨v, ?_, ?_⟩
    · rw [bytes]
      exact ⟨more, rfl⟩
    · rw [bytes]
      intro same
      have lengths := congrArg List.length same
      rw [List.length_cons, List.length_cons, List.length_append] at lengths
      have longer := List.length_pos_iff.2 some_
      omega

end Scc.Lib.Utf8
