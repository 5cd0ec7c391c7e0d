import Scc.Lib.Utf8
import Scc.Libc.Mbrtowc

/-!
# Valid UTF-8

`mbrtowc()` looks at the whole number before it refuses bytes that no character begins with, and the range of the
surrogates ends too early in the table. `wcrtomb()` goes through the same table.
-/

namespace Scc.Libc.Wchar

open Scc.Lib.Utf8 (Tail need gather value size encode Impossible Incomplete utf8EncodeChar_eq encode_cons encode_low
  encode_length)

set_option autoImplicit false

/-- The numbers that the table has for a character of some bytes. -/
def Listed (v n : Nat) : Prop := v < 0x110000 ∧ (v < 0xD800 ∨ 0xDD00 ≤ v) ∧ size v = n

theorem validutf8_negative {wc : Int} (int : -2 ^ 31 ≤ wc) (negative : wc < 0) :
    validutf8 wc = if wc = -1 then none else some (false, 0) := by
  have wrapped : ulong wc = 2 ^ 64 - wc.natAbs := by
    unfold ulong
    omega
  unfold validutf8 ranges
  rw [wrapped]
  by_cases last : wc = -1
  · subst last
    rfl
  · rw [if_neg last]
    simp only [List.find?_cons]
    repeat rw [decide_eq_false (by omega)]
    rw [decide_eq_true (by omega)]
    rfl

/-- The range of a number that is not negative. -/
def entry (v : Nat) : Bool × Nat :=
  if v < 0x80 then (true, 1)
  else if v < 0x800 then (true, 2)
  else if v < 0xD800 then (true, 3)
  else if v < 0xDD00 then (false, 3)
  else if v < 0x10000 then (true, 3)
  else if v < 0x110000 then (true, 4)
  else (false, 0)

variable {v wc j : Nat} {lead c : UInt8} {s : List UInt8} {part : List UInt8 → Prop}

theorem validutf8_entry (int : v < 2 ^ 31) : validutf8 v = some (entry v) := by
  have same : ulong v = v := by
    unfold ulong
    omega
  unfold validutf8 ranges entry
  rw [same]
  simp only [List.find?_cons]
  split_ifs with one two three low high four
  · rw [decide_eq_true (by omega)]
    rfl
  · rw [decide_eq_false (by omega), decide_eq_true (by omega)]
    rfl
  · iterate 2 rw [decide_eq_false (by omega)]
    rw [decide_eq_true (by omega)]
    rfl
  · iterate 3 rw [decide_eq_false (by omega)]
    rw [decide_eq_true (by omega)]
    rfl
  · iterate 4 rw [decide_eq_false (by omega)]
    rw [decide_eq_true (by omega)]
    rfl
  · iterate 5 rw [decide_eq_false (by omega)]
    rw [decide_eq_true (by omega)]
    rfl
  · iterate 6 rw [decide_eq_false (by omega)]
    rw [decide_eq_true (by omega)]
    rfl

theorem entry_iff (v n : Nat) : entry v = (true, n) ↔ Listed v n := by
  unfold entry Listed size
  split_ifs <;> simp <;> omega

theorem lead_bits : ∀ lead : Fin 256, ∀ j : Fin 5, 0xC0 ≤ lead.val → 0 < j.val →
    j.val < need (UInt8.ofNat lead.val) →
      ((lead.val <<< j.val) <<< 1 % 2 ^ 32 &&& 0x80 = 0 ↔ need (UInt8.ofNat lead.val) = j.val + 1) ∧
        ((lead.val <<< j.val) <<< 1 % 2 ^ 32 &&& 0xff) >>> (j.val + 1) = lead.val % 2 ^ (7 - j.val) ∧
        (lead.val <<< j.val) <<< 1 % 2 ^ 32 = lead.val <<< (j.val + 1) := by
  decide +kernel

theorem tail_iff (c : UInt8) : c.toNat &&& 0xc0 = 0x80 ↔ Tail c := by
  have all : ∀ c : Fin 256, c.val &&& 0xc0 = 0x80 ↔ 0x80 ≤ c.val ∧ c.val < 0xC0 := by decide +kernel
  exact all ⟨c.toNat, c.toNat_lt⟩

theorem shifted (c : UInt8) (bound : wc < 2 ^ 30) :
    (wc <<< 6 ||| (c.toNat &&& 0x3f)) % 2 ^ 64 = 64 * wc + c.toNat % 64 := by
  have low : c.toNat &&& 0x3f = c.toNat % 64 := Nat.and_two_pow_sub_one_eq_mod c.toNat 6
  rw [low, ← Nat.shiftLeft_add_eq_or_of_lt (show c.toNat % 64 < 2 ^ 6 by omega), Nat.shiftLeft_eq]
  omega

theorem completed {j v top : Nat} (few : j < 5) (bound : v < 2 ^ (6 * j)) (small : top < 2 ^ (7 - j)) :
    (v ||| top <<< ((j + 1 - 1) * 6)) % 2 ^ 64 = v + top * 64 ^ j ∧ v + top * 64 ^ j < 2 ^ 31 := by
  have power : 2 ^ (6 * j) = 64 ^ j := by rw [Nat.pow_mul]
  have place : (j + 1 - 1) * 6 = 6 * j := by omega
  have sum : v + top * 64 ^ j < 2 ^ 31 := by
    have upper : (top + 1) * 2 ^ (6 * j) ≤ 2 ^ (7 - j) * 2 ^ (6 * j) := Nat.mul_le_mul_right _ small
    have room : 2 ^ (7 - j) * 2 ^ (6 * j) ≤ 2 ^ 31 := by
      rw [← Nat.pow_add]
      exact Nat.pow_le_pow_right (by decide) (by omega)
    rw [← power]
    rw [Nat.succ_mul] at upper
    omega
  rw [place, Nat.or_comm, ← Nat.shiftLeft_add_eq_or_of_lt bound, Nat.shiftLeft_eq, power, Nat.add_comm]
  exact ⟨Nat.mod_eq_of_lt (by omega), sum⟩

theorem wchar_small (small : v < 2 ^ 31) : wchar v = v := Int.bmod_eq_of_le (by omega) (by omega)

/-- What is done with the last byte of a character. -/
def finish (v n t : Nat) : Result := if entry v = (true, n) then .code (some v) t else .error t

theorem continuation_cons (high : 0xC0 ≤ lead.toNat) (some_ : 0 < j) (few : j < 5)
    (less : j < need lead) (bound : wc < 2 ^ (6 * (j - 1))) (t : Nat) (c : UInt8) (s : List UInt8) :
    continuation (lead.toNat <<< j) wc j t (c :: s) =
      if Tail c then
        if need lead = j + 1 then
          finish (64 * wc + c.toNat % 64 + lead.toNat % 2 ^ (7 - j) * 64 ^ j) (j + 1) (t + 1)
        else continuation (lead.toNat <<< (j + 1)) (64 * wc + c.toNat % 64) (j + 1) (t + 1) s
      else .error (t + 1) := by
  have bits := lead_bits ⟨lead.toNat, lead.toNat_lt⟩ ⟨j, few⟩ high some_
  dsimp only at bits
  rw [UInt8.ofNat_toNat] at bits
  rcases bits less with ⟨last, kept, next⟩
  have room : (2 : Nat) ^ (6 * (j - 1)) ≤ 2 ^ 18 := Nat.pow_le_pow_right (by decide) (by omega)
  have within : ¬ MB_CUR_MAX < j := by
    unfold MB_CUR_MAX
    omega
  rw [continuation, if_neg within]
  dsimp only
  rw [shifted c (by omega)]
  by_cases tail : Tail c
  · rw [if_neg (not_not.2 ((tail_iff c).2 tail)), if_pos tail]
    by_cases done : need lead = j + 1
    · rw [if_pos (last.2 done), if_pos done, kept]
      have more : 64 * wc + c.toNat % 64 < 2 ^ (6 * j) := by
        have next : 2 ^ (6 * j) = 2 ^ (6 * (j - 1)) * 64 := by
          rw [show 6 * j = 6 * (j - 1) + 6 by omega, Nat.pow_add]
        omega
      have sum := completed few more (Nat.mod_lt lead.toNat (Nat.two_pow_pos (7 - j)))
      rw [sum.1, wchar_small sum.2, validutf8_entry sum.2]
      unfold finish
      simp only [Option.some.injEq]
    · rw [if_neg (fun zero => done (last.1 zero)), if_neg done, next]
  · rw [if_pos (fun bits => tail ((tail_iff c).1 bits)), if_neg tail]

theorem gather_cons (v : Nat) (c : UInt8) (cs : List UInt8) : gather v (c :: cs) = gather (64 * v + c.toNat % 64) cs :=
  rfl

theorem extended (some_ : 0 < j) (bound : wc < 2 ^ (6 * (j - 1))) (c : UInt8) :
    64 * wc + c.toNat % 64 < 2 ^ (6 * j) := by
  have next : 2 ^ (6 * j) = 2 ^ (6 * (j - 1)) * 64 := by
    rw [show 6 * j = 6 * (j - 1) + 6 by omega, Nat.pow_add]
  omega

theorem continuation_more (high : 0xC0 ≤ lead.toNat) (some_ : 0 < j) (few : j ≤ 5)
    (less : j < need lead) (bound : wc < 2 ^ (6 * (j - 1))) (t : Nat) (s : List UInt8) :
    (∃ ps, continuation (lead.toNat <<< j) wc j t s = .more ps) ↔ (∀ c ∈ s, Tail c) ∧ j + s.length < need lead := by
  induction s generalizing j wc t with
  | nil =>
    constructor
    · intro _
      exact ⟨fun c member => absurd member List.not_mem_nil, less⟩
    · intro _
      exact ⟨_, rfl⟩
  | cons c s ih =>
    rw [List.forall_mem_cons, List.length_cons]
    have most := (Scc.Lib.Utf8.need_bounds lead).2
    by_cases five : j = 5
    · subst five
      constructor
      · intro more
        rcases more with ⟨ps, more⟩
        cases more
      · intro formed
        omega
    · rw [continuation_cons high some_ (by omega) less bound]
      split_ifs with tail done
      · constructor
        · intro more
          rcases more with ⟨ps, more⟩
          unfold finish at more
          split_ifs at more
        · intro formed
          omega
      · rw [ih (Nat.succ_pos j) (by omega) (by omega) (extended some_ bound c) (t + 1)]
        simp only [tail, true_and]
        rw [Nat.succ_add, ← Nat.add_assoc]
      · constructor
        · intro more
          rcases more with ⟨ps, more⟩
          cases more
        · intro formed
          exact absurd formed.1.1 tail

theorem continuation_code (high : 0xC0 ≤ lead.toNat) (some_ : 0 < j) (few : j ≤ 5)
    (less : j < need lead) (bound : wc < 2 ^ (6 * (j - 1))) (t : Nat) (s : List UInt8) (code : Option Int) (n : Nat) :
    continuation (lead.toNat <<< j) wc j t s = .code code n ↔
      ∃ cs v, cs <+: s ∧ (∀ c ∈ cs, Tail c) ∧ j + cs.length = need lead ∧
        v = gather wc cs + lead.toNat % 2 ^ (8 - need lead) * 64 ^ (need lead - 1) ∧ Listed v (need lead) ∧
        code = some (v : Int) ∧ n = t + cs.length := by
  induction s generalizing j wc t with
  | nil =>
    constructor
    · intro done
      cases done
    · intro formed
      rcases formed with ⟨cs, v, begins, tail, length, rest⟩
      rw [List.prefix_nil.1 begins, List.length_nil] at length
      omega
  | cons c s ih =>
    have most := (Scc.Lib.Utf8.need_bounds lead).2
    by_cases five : j = 5
    · subst five
      constructor
      · intro done
        cases done
      · intro formed
        rcases formed with ⟨cs, v, begins, tail, length, number, listed, rest⟩
        have size := Scc.Lib.Utf8.size_le v
        have all := listed.2.2
        omega
    · rw [continuation_cons high some_ (by omega) less bound]
      constructor
      · intro done
        split_ifs at done with tail last
        · unfold finish at done
          split_ifs at done with listed
          cases done
          rw [last]
          refine ⟨[c], _, List.cons_prefix_cons.2 ⟨rfl, List.nil_prefix⟩, List.forall_mem_singleton.2 tail, rfl, ?_,
            (entry_iff _ _).1 listed, rfl, rfl⟩
          rw [show 8 - (j + 1) = 7 - j by omega]
          rfl
        · rw [ih (Nat.succ_pos j) (by omega) (by omega) (extended some_ bound c) (t + 1)] at done
          rcases done with ⟨cs, v, begins, tails, length, rest⟩
          refine ⟨c :: cs, v, List.cons_prefix_cons.2 ⟨rfl, begins⟩, List.forall_mem_cons.2 ⟨tail, tails⟩, ?_, ?_⟩
          · rw [List.length_cons]
            omega
          · rw [gather_cons, List.length_cons, ← Nat.add_assoc, Nat.add_right_comm]
            exact rest
      · intro formed
        rcases formed with ⟨cs, v, begins, tails, length, number, listed, rest⟩
        rcases List.prefix_cons_iff.1 begins with none_ | ⟨cs', first, begins'⟩
        · rw [none_, List.length_nil] at length
          omega
        · subst first
          rw [List.forall_mem_cons] at tails
          rw [List.length_cons] at length rest
          rw [if_pos tails.1]
          split_ifs with last
          · have none_ : cs' = [] := List.length_eq_zero_iff.1 (by omega)
            subst none_
            rw [last, show 8 - (j + 1) = 7 - j by omega] at number
            unfold finish
            rw [last] at listed
            have same : 64 * wc + c.toNat % 64 + lead.toNat % 2 ^ (7 - j) * 64 ^ j = v := number.symm
            rw [same, if_pos ((entry_iff _ _).2 listed), rest.1, rest.2]
            rfl
          · rw [ih (Nat.succ_pos j) (by omega) (by omega) (extended some_ bound c) (t + 1)]
            exact ⟨cs', v, begins', tails.2, by omega, number, listed, rest.1, by omega⟩

/-- What is stored in the array: nothing for an array of `NULL`. -/
inductive Stored
  | bytes (n : Nat) (s : List UInt8)
  | error
deriving DecidableEq

/-- The loop of `wcrtomb()` and the assignment after it, with the lead byte and the bytes behind it. -/
def store (c : Nat) : Nat → UInt8 → List UInt8 → List UInt8
  | 0, s, rest => (s ||| .ofNat c) :: rest
  | n + 1, s, rest => store (c >>> 6) n (s >>> 1 ||| 0x80) ((0x80 ||| .ofNat (c &&& 0x3f)) :: rest)

def wcrtomb (s : Bool) (wc : Int) : Option Stored :=
  let c := ulong wc
  if ¬ s then some (.bytes 1 [])
  else if c < 0x80 then some (.bytes 1 [.ofNat c])
  else
    (validutf8 wc).map fun (valid, n) =>
      if valid then .bytes (n - 1 + 1) (store c (n - 1) 0x80 []) else .error

/-- The bytes begin with the encoding of a surrogate that the table has among the characters. -/
def LowSurrogate (s : List UInt8) : Prop :=
  ∃ b c, [0xED, b, c] <+: s ∧ 0xB4 ≤ b.toNat ∧ Tail b ∧ Tail c

/-- The bytes are a part of what the lead byte announces, but no character has them. -/
def Late (s : List UInt8) : Prop :=
  ∃ lead cs, s = lead :: cs ∧ 0xC0 ≤ lead.toNat ∧ (∀ c ∈ cs, Tail c) ∧ cs.length + 1 < need lead ∧ Impossible lead cs

/-- The bytes are a part of what the lead byte announces. -/
def Announced (s : List UInt8) : Prop :=
  s = [] ∨ ∃ lead cs, s = lead :: cs ∧ 0xC0 ≤ lead.toNat ∧ (∀ c ∈ cs, Tail c) ∧ cs.length + 1 < need lead

/-- What is asked of `mbrtowc()` in the initial state, with the bytes that ask for more. The null character counts as
no byte. -/
structure Decodes (part : List UInt8 → Prop) (s : List UInt8) : Prop where
  code : ∀ wc n, (mbrtowc .initial (some s)).1 = .code wc n ↔
    ∃ v : Char, String.utf8EncodeChar v <+: s ∧ wc = some (v.toNat : Int) ∧
      n = if v.toNat = 0 then 0 else (String.utf8EncodeChar v).length
  more : (∃ ps, (mbrtowc .initial (some s)).1 = .more ps) ↔ part s
  error : (∃ t, (mbrtowc .initial (some s)).1 = .error t) ↔
    ¬ part s ∧ ¬ ∃ v : Char, String.utf8EncodeChar v <+: s

/-- What is asked of `wcrtomb()`. -/
def Encodes (wc : Int) : Prop :=
  ∃ r, wcrtomb true wc = some r ∧
    ∀ n bytes, r = .bytes n bytes ↔
      ∃ v : Char, wc = (v.toNat : Int) ∧ bytes = String.utf8EncodeChar v ∧ n = bytes.length

/-- A number that the table has for a character. -/
def Coded (v : Nat) : Prop := Listed v (size v)

theorem coded_iff (v : Nat) : Coded v ↔ v.isValidChar ∨ (0xDD00 ≤ v ∧ v ≤ 0xDFFF) := by
  unfold Coded Listed Nat.isValidChar
  simp only [and_true]
  omega

theorem exists_char (valid : v.isValidChar) : ∃ c : Char, c.toNat = v := by
  refine ⟨Char.ofNat v, ?_⟩
  unfold Char.ofNat
  rw [dif_pos valid]
  rfl

theorem size_pos (v : Nat) : 0 < size v := by
  unfold size
  split_ifs <;> omega

theorem begins_low (low : c.toNat < 0xC0) : encode v <+: c :: s ↔ c.toNat < 0x80 ∧ v = c.toNat := by
  constructor
  · intro begins
    rcases encode_cons v with ⟨lead, cs, bytes⟩
    rw [bytes, List.cons_prefix_cons] at begins
    rw [begins.1] at bytes
    have parts := encode_low bytes low
    exact ⟨by omega, parts.2.1.symm⟩
  · intro small
    rw [small.2, Scc.Lib.Utf8.encode_ascii small.1, UInt8.ofNat_toNat]
    exact List.cons_prefix_cons.2 ⟨rfl, List.nil_prefix⟩

theorem begins_high (high : 0xC0 ≤ c.toNat) (bound : v < 0x110000) : encode v <+: c :: s ↔
    ∃ cs, cs <+: s ∧ (∀ c ∈ cs, Tail c) ∧ cs.length + 1 = need c ∧ v = value c cs ∧ size v = need c := by
  constructor
  · intro begins
    rcases encode_cons v with ⟨lead, cs, bytes⟩
    rw [bytes, List.cons_prefix_cons] at begins
    rw [begins.1] at bytes
    exact ⟨cs, begins.2, (Scc.Lib.Utf8.encode_iff high cs bound).1 bytes⟩
  · intro formed
    rcases formed with ⟨cs, begins, formed⟩
    rw [(Scc.Lib.Utf8.encode_iff high cs bound).2 formed]
    exact List.cons_prefix_cons.2 ⟨rfl, begins⟩

theorem initial_low (low : c.toNat < 0xC0) (s : List UInt8) : (mbrtowc .initial (some (c :: s))).1 =
    if c.toNat < 0x80 then .code (some c.toNat) (if c.toNat = 0 then 0 else 1) else .error 1 := by
  rw [mbrtowc, if_pos (show Mbstate.initial.sh = 0 from rfl)]
  by_cases zero : c = 0
  · rw [if_pos zero, zero]
    rfl
  · have positive : c.toNat ≠ 0 := fun same => zero (UInt8.toNat_inj.1 same)
    rw [if_neg zero, if_neg positive]
    by_cases small : c.toNat < 0x80
    · rw [if_pos small, if_pos small]
    · have other : c.toNat &&& 0xc0 ≠ 0xc0 := by
        rw [(tail_iff c).2 ⟨by omega, low⟩]
        decide
      rw [if_neg small, if_neg small, if_pos other]

theorem settle_result (r : Result) : (mbrtowc.settle r).1 = r := by
  cases r <;> rfl

theorem initial_lead (high : 0xC0 ≤ c.toNat) (s : List UInt8) :
    (mbrtowc .initial (some (c :: s))).1 = continuation (c.toNat <<< 1) 0 1 1 s := by
  have bits : ∀ c : Fin 256, 0xC0 ≤ c.val → c.val &&& 0xc0 = 0xc0 := by decide +kernel
  have lead : ¬ (c.toNat &&& 0xc0 ≠ 0xc0) := not_not.2 (bits ⟨c.toNat, c.toNat_lt⟩ high)
  have some_ : c ≠ 0 := by
    intro zero
    rw [zero] at high
    exact absurd high (by decide)
  rw [mbrtowc, if_pos (show Mbstate.initial.sh = 0 from rfl), if_neg some_, if_neg (by omega), if_neg lead,
    settle_result]

theorem initial_code (s : List UInt8) (wc : Option Int) (n : Nat) :
    (mbrtowc .initial (some s)).1 = .code wc n ↔
      ∃ v, Coded v ∧ encode v <+: s ∧ wc = some (v : Int) ∧ n = if v = 0 then 0 else size v := by
  cases s with
  | nil =>
    constructor
    · intro done
      cases done
    · intro found
      rcases found with ⟨v, _, begins, _⟩
      rcases encode_cons v with ⟨lead, cs, bytes⟩
      rw [bytes, List.prefix_nil] at begins
      cases begins
  | cons c s =>
    by_cases low : c.toNat < 0xC0
    · rw [initial_low low]
      constructor
      · intro done
        split_ifs at done with small zero
        · cases done
          exact ⟨0, ⟨by decide, by decide, rfl⟩, (begins_low low).2 ⟨small, zero.symm⟩, by rw [zero], rfl⟩
        · cases done
          have one : size c.toNat = 1 := if_pos (Nat.le_of_lt_succ small)
          refine ⟨c.toNat, ⟨by omega, by omega, rfl⟩, (begins_low low).2 ⟨small, rfl⟩, rfl, ?_⟩
          rw [if_neg zero, one]
      · intro found
        rcases found with ⟨v, _, begins, result, count⟩
        rcases (begins_low low).1 begins with ⟨small, rfl⟩
        have one : size c.toNat = 1 := if_pos (Nat.le_of_lt_succ small)
        rw [if_pos small, result, count, one]
    · have high : 0xC0 ≤ c.toNat := not_lt.1 low
      have announced := Scc.Lib.Utf8.need_bounds c
      rw [initial_lead high, continuation_code high Nat.one_pos (by decide) (by omega)
        (show 0 < 2 ^ (6 * (1 - 1)) by decide) 1 s]
      have positive : ∀ v, size v = need c → v ≠ 0 := by
        rintro v all rfl
        have one : size 0 = 1 := rfl
        omega
      constructor
      · intro found
        rcases found with ⟨cs, v, begins, tail, length, number, listed, result, count⟩
        have all := listed.2.2
        refine ⟨v, ⟨listed.1, listed.2.1, rfl⟩, (begins_high high listed.1).2
          ⟨cs, begins, tail, by omega, number, all⟩, result, ?_⟩
        rw [if_neg (positive v all), count, all]
        exact length
      · intro found
        rcases found with ⟨v, coded, begins, result, count⟩
        rcases (begins_high high coded.1).1 begins with ⟨cs, begins, tail, length, number, all⟩
        refine ⟨cs, v, begins, tail, by omega, number, ⟨coded.1, coded.2.1, all⟩, result, ?_⟩
        rw [count, if_neg (positive v all), all, ← length, Nat.add_comm]

theorem announced_cons (c : UInt8) (s : List UInt8) :
    Announced (c :: s) ↔ 0xC0 ≤ c.toNat ∧ (∀ c ∈ s, Tail c) ∧ s.length + 1 < need c := by
  simp [Announced]

theorem initial_more (s : List UInt8) : (∃ ps, (mbrtowc .initial (some s)).1 = .more ps) ↔ Announced s := by
  cases s with
  | nil => exact ⟨fun _ => .inl rfl, fun _ => ⟨_, rfl⟩⟩
  | cons c s =>
    rw [announced_cons]
    by_cases low : c.toNat < 0xC0
    · rw [initial_low low]
      constructor
      · intro more
        rcases more with ⟨ps, more⟩
        split_ifs at more
      · intro announced
        omega
    · have high : 0xC0 ≤ c.toNat := not_lt.1 low
      have announced := Scc.Lib.Utf8.need_bounds c
      rw [initial_lead high, continuation_more high Nat.one_pos (by decide) (by omega)
        (show 0 < 2 ^ (6 * (1 - 1)) by decide) 1 s, Nat.add_comm]
      exact (and_iff_right high).symm

theorem lowSurrogate_iff (s : List UInt8) : LowSurrogate s ↔ ∃ v, encode v <+: s ∧ 0xDD00 ≤ v ∧ v ≤ 0xDFFF := by
  unfold LowSurrogate
  constructor
  · intro surrogate
    rcases surrogate with ⟨a, b, begins, least, tail, tail'⟩
    have number : value 0xED [a, b] = 64 * (a.toNat % 64) + b.toNat % 64 + 0xD000 := by
      have lead : (0xED : UInt8).toNat = 0xED := rfl
      simp [value, need, gather, lead]
    have range : 0xDD00 ≤ value 0xED [a, b] ∧ value 0xED [a, b] ≤ 0xDFFF := by
      unfold Tail at tail tail'
      omega
    have three : size (value 0xED [a, b]) = 3 := by
      unfold size
      split_ifs <;> omega
    refine ⟨value 0xED [a, b], ?_, range⟩
    rw [(Scc.Lib.Utf8.encode_iff (by decide) [a, b] (by omega)).2 ⟨?_, rfl, rfl, three⟩]
    · exact begins
    · rw [List.forall_mem_cons, List.forall_mem_singleton]
      exact ⟨tail, tail'⟩
  · intro surrogate
    rcases surrogate with ⟨v, begins, range⟩
    have bytes : encode v = [0xED, .ofNat (v / 64 % 0x40 + 0x80), .ofNat (v % 0x40 + 0x80)] := by
      unfold encode
      rw [if_neg (by omega), if_neg (by omega), if_pos (by omega), show v / 4096 % 0x10 + 0xe0 = 0xED by omega]
      rfl
    rw [bytes] at begins
    refine ⟨_, _, begins, ?_⟩
    unfold Tail
    rw [UInt8.toNat_ofNat_of_lt' (show v / 64 % 0x40 + 0x80 < 256 by omega),
      UInt8.toNat_ofNat_of_lt' (show v % 0x40 + 0x80 < 256 by omega)]
    omega

theorem code_char (plain : ¬ LowSurrogate s) (wc : Option Int) (n : Nat) :
    (mbrtowc .initial (some s)).1 = .code wc n ↔
      ∃ v : Char, String.utf8EncodeChar v <+: s ∧ wc = some (v.toNat : Int) ∧
        n = if v.toNat = 0 then 0 else (String.utf8EncodeChar v).length := by
  rw [initial_code]
  constructor
  · intro found
    rcases found with ⟨v, coded, begins, result, count⟩
    rcases (coded_iff v).1 coded with valid | surrogate
    · rcases exists_char valid with ⟨v, rfl⟩
      rw [← encode_length] at count
      exact ⟨v, begins, result, count⟩
    · exact absurd ((lowSurrogate_iff s).2 ⟨v, begins, surrogate⟩) plain
  · intro found
    rcases found with ⟨v, begins, result, count⟩
    rw [utf8EncodeChar_eq, encode_length] at count
    exact ⟨v.toNat, (coded_iff _).2 (.inl v.valid), begins, result, count⟩

theorem surrogate_decoded (surrogate : LowSurrogate s) : ¬ Decodes part s := by
  intro decodes
  rcases (lowSurrogate_iff s).1 surrogate with ⟨v, begins, range⟩
  have returned := (initial_code s _ _).2 ⟨v, (coded_iff v).2 (.inr range), begins, rfl, rfl⟩
  rcases (decodes.code _ _).1 returned with ⟨c, _, same, _⟩
  have number : v = c.toNat := by exact_mod_cast Option.some.inj same
  have valid : c.toNat.isValidChar := c.valid
  unfold Nat.isValidChar at valid
  omega

theorem decodes_iff (s : List UInt8) : Decodes part s ↔ ¬ LowSurrogate s ∧ (part s ↔ Announced s) := by
  rw [← initial_more]
  constructor
  · intro decodes
    exact ⟨fun surrogate => surrogate_decoded surrogate decodes, decodes.more.symm⟩
  · intro right
    have code := code_char right.1
    refine ⟨code, right.2.symm, ?_⟩
    rw [right.2]
    cases result : (mbrtowc .initial (some s)).1 with
    | code wc n =>
      rcases (code wc n).1 result with ⟨v, begins, rest⟩
      constructor
      · intro error
        rcases error with ⟨t, error⟩
        cases error
      · intro other
        exact absurd ⟨v, begins⟩ other.2
    | more ps =>
      constructor
      · intro error
        rcases error with ⟨t, error⟩
        cases error
      · intro other
        exact absurd ⟨ps, rfl⟩ other.1
    | error t =>
      constructor
      · intro _
        constructor
        · intro more
          rcases more with ⟨ps, more⟩
          cases more
        · intro begins
          rcases begins with ⟨v, begins⟩
          have returned := (code _ _).2 ⟨v, begins, rfl, rfl⟩
          rw [result] at returned
          cases returned
      · intro _
        exact ⟨t, rfl⟩

theorem decodes_announced (s : List UInt8) : Decodes Announced s ↔ ¬ LowSurrogate s := by
  rw [decodes_iff]
  exact and_iff_left Iff.rfl

theorem late_cons (c : UInt8) (s : List UInt8) : Late (c :: s) ↔
    0xC0 ≤ c.toNat ∧ (∀ c ∈ s, Tail c) ∧ s.length + 1 < need c ∧ Impossible c s := by
  simp [Late]

theorem incomplete_announced (s : List UInt8) : Incomplete s ↔ Announced s ∧ ¬ Late s := by
  cases s with
  | nil => simp [Announced, Late, show Incomplete [] from ⟨'a', List.nil_prefix, by decide⟩]
  | cons c s =>
    rw [announced_cons, late_cons]
    by_cases high : 0xC0 ≤ c.toNat
    · rw [Scc.Lib.Utf8.incomplete_iff high s]
      tauto
    · constructor
      · intro incomplete
        rcases incomplete with ⟨v, ⟨more, bytes⟩, other⟩
        have parts := encode_low (bytes.symm : encode v.toNat = _) (not_le.1 high)
        rw [(List.append_eq_nil_iff.1 parts.2.2).2, List.append_nil] at bytes
        exact absurd bytes other
      · intro announced
        exact absurd announced.1.1 high

theorem decodes_incomplete (s : List UInt8) : Decodes Incomplete s ↔ ¬ LowSurrogate s ∧ ¬ Late s := by
  have late : Late s → Announced s := by
    intro late
    rcases late with ⟨c, s, rfl, high, tail, short, _⟩
    exact .inr ⟨c, s, rfl, high, tail, short⟩
  rw [decodes_iff, incomplete_announced]
  apply and_congr_right
  intro _
  constructor
  · intro same here
    exact (same.2 (late here)).2 here
  · intro none_
    exact and_iff_left none_

theorem stored_tail (v : Nat) : (0x80 ||| UInt8.ofNat (v &&& 0x3f) : UInt8) = UInt8.ofNat (v % 0x40 + 0x80) := by
  have all : ∀ x : Fin 64, (0x80 ||| UInt8.ofNat x.val : UInt8) = UInt8.ofNat (x.val + 0x80) := by decide +kernel
  have low : v &&& 0x3f = v % 64 := Nat.and_two_pow_sub_one_eq_mod v 6
  rw [low]
  exact all ⟨v % 64, Nat.mod_lt v (by decide)⟩

theorem stored_lead : (∀ x < 32, (0xC0 ||| UInt8.ofNat x : UInt8) = UInt8.ofNat (x + 0xc0)) ∧
    (∀ x < 16, (0xE0 ||| UInt8.ofNat x : UInt8) = UInt8.ofNat (x + 0xe0)) ∧
      ∀ x < 8, (0xF0 ||| UInt8.ofNat x : UInt8) = UInt8.ofNat (x + 0xf0) := by
  decide +kernel

theorem store_encode {v n : Nat} (more : 0x80 ≤ v) (listed : Listed v n) : store v (n - 1) 0x80 [] = encode v := by
  have six : ∀ x : Nat, x >>> 6 = x / 64 := fun x => Nat.shiftRight_eq_div_pow x 6
  rcases listed with ⟨bound, range, all⟩
  subst all
  unfold encode size
  split_ifs with one two three
  · omega
  · have lead : v / 64 < 32 := by omega
    change [(0xC0 : UInt8) ||| UInt8.ofNat (v >>> 6), (0x80 : UInt8) ||| UInt8.ofNat (v &&& 0x3f)] = _
    rw [stored_tail, six, stored_lead.1 _ lead, Nat.mod_eq_of_lt lead]
  · have lead : v / 4096 < 16 := by omega
    change [(0xE0 : UInt8) ||| UInt8.ofNat (v >>> 6 >>> 6), (0x80 : UInt8) ||| UInt8.ofNat (v >>> 6 &&& 0x3f),
      (0x80 : UInt8) ||| UInt8.ofNat (v &&& 0x3f)] = _
    rw [stored_tail, stored_tail, six, six, Nat.div_div_eq_div_mul, stored_lead.2.1 _ lead, Nat.mod_eq_of_lt lead]
  · have lead : v / 262144 < 8 := by omega
    change [(0xF0 : UInt8) ||| UInt8.ofNat (v >>> 6 >>> 6 >>> 6),
      (0x80 : UInt8) ||| UInt8.ofNat (v >>> 6 >>> 6 &&& 0x3f), (0x80 : UInt8) ||| UInt8.ofNat (v >>> 6 &&& 0x3f),
      (0x80 : UInt8) ||| UInt8.ofNat (v &&& 0x3f)] = _
    rw [stored_tail, stored_tail, stored_tail, six, six, six, Nat.div_div_eq_div_mul, Nat.div_div_eq_div_mul,
      stored_lead.2.2 _ lead, Nat.mod_eq_of_lt lead, Nat.div_div_eq_div_mul v 64 64]

theorem wcrtomb_eq (int : v < 2 ^ 31) :
    wcrtomb true v = some (if (entry v).1 then .bytes (size v) (encode v) else .error) := by
  have same : ulong v = v := by
    unfold ulong
    omega
  unfold wcrtomb
  rw [same, validutf8_entry int, if_neg (by decide)]
  by_cases one : v < 0x80
  · have ascii : entry v = (true, 1) := if_pos one
    have size_ : size v = 1 := if_pos (Nat.le_of_lt_succ one)
    rw [if_pos one, ascii, if_pos rfl, size_, Scc.Lib.Utf8.encode_ascii one]
  · rw [if_neg one]
    cases found : entry v with
    | mk valid n =>
      cases valid with
      | false => rfl
      | true =>
        have listed := (entry_iff v n).1 found
        have all := listed.2.2
        have some_ : 1 ≤ n := by
          rw [← all]
          unfold size
          split_ifs <;> decide
        simp only [Option.map_some, if_true, Option.some.injEq, Stored.bytes.injEq]
        exact ⟨by omega, store_encode (by omega) listed⟩

theorem wcrtomb_coded (coded : Coded v) : wcrtomb true v = some (.bytes (size v) (encode v)) := by
  rw [wcrtomb_eq (lt_trans coded.1 (by decide)), (entry_iff v (size v)).2 coded]
  rfl

theorem wcrtomb_uncoded {wc : Int} (isInt : -2 ^ 31 ≤ wc ∧ wc < 2 ^ 31) (uncoded : ∀ v : Nat, wc = v → ¬ Coded v) :
    wcrtomb true wc = if wc = -1 then none else some .error := by
  by_cases negative : wc < 0
  · have large : ¬ ulong wc < 0x80 := by
      unfold ulong
      omega
    unfold wcrtomb
    rw [if_neg (by decide), if_neg large, validutf8_negative isInt.1 negative]
    split_ifs <;> rfl
  · obtain ⟨v, same⟩ := Int.eq_ofNat_of_zero_le (Int.not_lt.1 negative)
    have refused : (entry v).1 = false := by
      by_contra listed
      have pair : entry v = (true, (entry v).2) := Prod.ext (by simpa using listed) rfl
      have number := (entry_iff v _).1 pair
      exact uncoded v same ⟨number.1, number.2.1, rfl⟩
    have small : v < 2 ^ 31 := by omega
    rw [same, wcrtomb_eq small, refused, if_neg (show ¬ (v : Int) = -1 by omega)]
    rfl

theorem encodes_coded (coded : Coded v) : Encodes v ↔ v.isValidChar := by
  unfold Encodes
  rw [wcrtomb_coded coded]
  constructor
  · intro encodes
    rcases encodes with ⟨r, stored, all⟩
    rcases (all _ _).1 (Option.some.inj stored).symm with ⟨c, number, rest⟩
    have same : v = c.toNat := by exact_mod_cast number
    rw [same]
    exact c.valid
  · intro valid
    rcases exists_char valid with ⟨c, rfl⟩
    refine ⟨_, rfl, fun n bytes => ?_⟩
    rw [Stored.bytes.injEq]
    constructor
    · intro same
      rw [← same.1, ← same.2]
      exact ⟨c, rfl, rfl, (encode_length _).symm⟩
    · intro encoded
      rcases encoded with ⟨d, number, bytes_, count⟩
      have same : c.toNat = d.toNat := by exact_mod_cast number
      rw [count, bytes_, utf8EncodeChar_eq, encode_length, same]
      exact ⟨rfl, rfl⟩

theorem encodes_uncoded {wc : Int} (isInt : -2 ^ 31 ≤ wc ∧ wc < 2 ^ 31) (uncoded : ∀ v : Nat, wc = v → ¬ Coded v) :
    Encodes wc ↔ wc ≠ -1 := by
  unfold Encodes
  rw [wcrtomb_uncoded isInt uncoded]
  constructor
  · intro encodes last
    rcases encodes with ⟨r, stored, rest⟩
    rw [if_pos last] at stored
    cases stored
  · intro other
    refine ⟨.error, if_neg other, fun n bytes => ⟨nofun, ?_⟩⟩
    intro character
    rcases character with ⟨c, same, rest⟩
    exact absurd ((coded_iff _).2 (.inl c.valid)) (uncoded _ same)

theorem encodes_iff (wc : Int32) :
    Encodes wc.toInt ↔ wc.toInt ≠ -1 ∧ ¬ (0xDD00 ≤ wc.toInt ∧ wc.toInt ≤ 0xDFFF) := by
  have isInt : -2 ^ 31 ≤ wc.toInt ∧ wc.toInt < 2 ^ 31 := ⟨Int32.le_toInt wc, Int32.toInt_lt wc⟩
  by_cases uncoded : ∀ v : Nat, wc.toInt = v → ¬ Coded v
  · rw [encodes_uncoded isInt uncoded]
    refine ⟨fun other => ⟨other, fun inside => ?_⟩, And.left⟩
    have cast : wc.toInt = (wc.toInt.toNat : Nat) := (Int.toNat_of_nonneg (by omega)).symm
    exact uncoded _ cast ((coded_iff _).2 (.inr (by omega)))
  · push Not at uncoded
    rcases uncoded with ⟨v, same, coded⟩
    rw [same, encodes_coded coded]
    have kinds := (coded_iff v).1 coded
    unfold Nat.isValidChar at *
    omega

/-- The bytes after a lead byte are waited for before the number is looked at. Then both functions are right, except
for the surrogates that the table has among the characters and for the number at the end of the table. -/
theorem utf8_iff (s : List UInt8) (wc : Int32) : (Decodes Announced s ↔ ¬ LowSurrogate s) ∧
      (Encodes wc.toInt ↔ wc.toInt ≠ -1 ∧ ¬ (0xDD00 ≤ wc.toInt ∧ wc.toInt ≤ 0xDFFF)) :=
  ⟨decodes_announced s, encodes_iff wc⟩

/-- A byte that no character begins with waits for more, the search for -1 leaves the table, and a surrogate is
decoded. -/
theorem utf8_lost : ¬ Decodes Incomplete [0xC0] ∧ ¬ Encodes (-1) ∧ ¬ Decodes Incomplete [0xED, 0xB4, 0x80] := by
  refine ⟨?_, ?_, ?_⟩
  · rw [decodes_incomplete]
    intro right
    exact right.2 ⟨0xC0, [], rfl, by decide, List.forall_mem_nil _, by decide, .inl (by decide)⟩
  · intro encodes
    exact (encodes_iff (-1)).1 encodes |>.1 rfl
  · exact surrogate_decoded ⟨0xB4, 0x80, List.prefix_refl _, by decide, by decide, by decide⟩

end Scc.Libc.Wchar
