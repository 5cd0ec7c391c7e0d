import Mathlib.Data.Nat.Bitwise

/-!
# Restartable decoding of UTF-8

`mbrtowc()` decodes one character. When its bytes end within a character it keeps the shifted lead
byte, the number of bytes and the part of the code in an `mbstate_t`, in fields that are narrower
than its own variables, and goes on from there at the next call.
-/

namespace Scc.Libc.Wchar

set_option autoImplicit false

def MB_CUR_MAX : Nat := 4

structure Mbstate where
  oc : Nat
  sh : Nat
  wc : Int
deriving DecidableEq

/-- What `memset()` leaves. -/
def Mbstate.initial : Mbstate := ⟨0, 0, 0⟩

/-- An `unsigned long` assigned to a `wchar_t`, which is an `int`. -/
def wchar (wc : Nat) : Int := (wc : Int).bmod (2 ^ 32)

/-- A `wchar_t` assigned to an `unsigned long`. -/
def ulong (wc : Int) : Nat := (wc % 2 ^ 64).toNat

structure Range where
  first : Nat
  last : Nat
  valid : Bool
  nbytes : Nat

def ranges : List Range :=
  [⟨0, 0x80, true, 1⟩, ⟨0x80, 0x800, true, 2⟩, ⟨0x800, 0xD800, true, 3⟩, ⟨0xD800, 0xDD00, false, 3⟩,
    ⟨0xDD00, 0x10000, true, 3⟩, ⟨0x10000, 0x110000, true, 4⟩, ⟨0x110000, 2 ^ 64 - 1, false, 0⟩]

/-- The first range that has the code. The loop would leave the table at the largest number, where
there is none. -/
def validutf8 (wc : Int) : Option (Bool × Nat) :=
  (ranges.find? fun r => decide (r.first ≤ ulong wc ∧ ulong wc < r.last)).map fun r => (r.valid, r.nbytes)

/-- What a call gives: a code with the number of bytes, `(size_t) -2` with the new state, or an
error with the number of bytes that were looked at. -/
inductive Result
  | code (wc : Option Int) (n : Nat)
  | more (ps : Mbstate)
  | error (t : Nat)
deriving DecidableEq

/-- The loop over the bytes after the first. -/
def continuation (oc wc sh t : Nat) : List UInt8 → Result
  | [] => .more ⟨oc % 2 ^ 8, sh % 2 ^ 8, wchar wc⟩
  | c :: s =>
    if MB_CUR_MAX < sh then .error t
    else if c.toNat &&& 0xc0 ≠ 0x80 then .error (t + 1)
    else
      let wc := (wc <<< 6 ||| (c.toNat &&& 0x3f)) % 2 ^ 64
      let oc := oc <<< 1 % 2 ^ 32
      let sh := sh + 1
      if oc &&& 0x80 = 0 then
        let wc := (wc ||| ((oc &&& 0xff) >>> sh) <<< ((sh - 1) * 6)) % 2 ^ 64
        if validutf8 (wchar wc) = some (true, sh) then .code (some (wchar wc)) (t + 1) else .error (t + 1)
      else continuation oc wc sh (t + 1) s

/-- A call with the bytes from `s` on, or with `NULL`, and the state after it. -/
def mbrtowc (ps : Mbstate) : Option (List UInt8) → Result × Mbstate
  | none => if ps.sh ≠ 0 then (.error 0, .initial) else (.code none 0, .initial)
  | some [] => (.more ps, ps)
  | some (c :: s) =>
    if ps.sh = 0 then
      if c = 0 then (.code (some 0) 0, ps)
      else if c.toNat < 0x80 then (.code (some c.toNat) 1, ps)
      else if c.toNat &&& 0xc0 ≠ 0xc0 then (.error 1, .initial)
      else settle (continuation (c.toNat <<< 1) 0 1 1 s)
    else settle (continuation ps.oc (ulong ps.wc) ps.sh 0 (c :: s))
where
  /-- The state is set to zero unless more bytes are needed. -/
  settle (r : Result) : Result × Mbstate :=
    match r with
    | .more ps => (r, ps)
    | _ => (r, .initial)

/-- The next character of the text, with its bytes in all chunks together; an error, with the bytes up
to it; or the bytes of a character that does not end. -/
inductive Next
  | char (wc : Option Int) (count : Nat)
  | error (count : Nat)
  | pending (count : Nat)
deriving DecidableEq

/-- How far a caller goes on. The count of the null character is zero, and a caller may go past its
byte. -/
def advance (past : Bool) (n : Nat) : Nat :=
  if n = 0 ∧ past then 1 else n

/-- The next character from chunks of bytes, with the state and the chunks after it. -/
def next (past : Bool) (ps : Mbstate) (count : Nat) : List (List UInt8) → Next × Mbstate × List (List UInt8)
  | [] => (.pending count, ps, [])
  | s :: chunks =>
    match mbrtowc ps (some s) with
    | (.more _, ps') => next past ps' (count + s.length) chunks
    | (.code wc n, ps') => (.char wc (count + n), ps', s.drop (advance past n) :: chunks)
    | (.error t, ps') => (.error (count + t), ps', chunks)

/-- The first characters of the text, up to an error. -/
def feed (past : Bool) : Nat → Mbstate → List (List UInt8) → List Next
  | 0, _, _ => []
  | n + 1, ps, chunks =>
    match next past ps 0 chunks with
    | (.char wc count, ps', chunks') => .char wc count :: feed past n ps' chunks'
    | (stop, _, _) => [stop]

/-- A state that a call leaves: the part of a code has six bits for each byte. -/
def Mbstate.Partial (ps : Mbstate) : Prop :=
  ps.oc < 2 ^ 8 ∧ ps.sh ≤ 5 ∧ 0 ≤ ps.wc ∧ ps.wc < 2 ^ (6 * ps.sh)

theorem ulong_wchar {wc sh : Nat} (bound : wc < 2 ^ (6 * sh)) (few : sh ≤ 5) :
    wchar wc = wc ∧ ulong (wchar wc) = wc := by
  have room : 2 ^ (6 * sh) ≤ 2 ^ 30 := Nat.pow_le_pow_right (by decide) (by omega)
  have same : wchar wc = wc := Int.bmod_eq_of_le (by omega) (by omega)
  refine ⟨same, ?_⟩
  rw [same]
  unfold ulong
  omega

theorem extend_lt {wc sh : Nat} (c : UInt8) (bound : wc < 2 ^ (6 * sh)) :
    (wc <<< 6 ||| (c.toNat &&& 0x3f)) % 2 ^ 64 < 2 ^ (6 * (sh + 1)) := by
  refine lt_of_le_of_lt (Nat.mod_le _ _) (Nat.or_lt_two_pow ?_ ?_)
  · rw [Nat.shiftLeft_eq, Nat.mul_add, Nat.pow_add]
    exact Nat.mul_lt_mul_of_pos_right bound (by decide)
  · have small : c.toNat &&& 0x3f < 2 ^ 6 := Nat.and_lt_two_pow _ (by decide)
    exact lt_of_lt_of_le small (Nat.pow_le_pow_right (by decide) (by omega))

theorem shifted_mod (oc : Nat) : (oc % 2 ^ 8) <<< 1 % 2 ^ 32 % 2 ^ 8 = oc <<< 1 % 2 ^ 32 % 2 ^ 8 := by
  simp only [Nat.shiftLeft_eq]
  omega

theorem high_bit (oc : Nat) : oc &&& 0x80 = oc % 2 ^ 8 &&& 0x80 := by
  have low := Nat.and_two_pow_sub_one_eq_mod oc 8
  rw [← low, Nat.and_assoc]
  rfl

theorem low_bits (oc : Nat) : oc &&& 0xff = oc % 2 ^ 8 := Nat.and_two_pow_sub_one_eq_mod oc 8

attribute [local simp] continuation in
theorem continuation_mod {oc oc' : Nat} (same : oc % 2 ^ 8 = oc' % 2 ^ 8) (wc sh t : Nat) (s : List UInt8) :
    continuation oc wc sh t s = continuation oc' wc sh t s := by
  induction s generalizing oc oc' wc sh t with
  | nil => rw [continuation, continuation, same]
  | cons c s ih =>
    have shifted : oc <<< 1 % 2 ^ 32 % 2 ^ 8 = oc' <<< 1 % 2 ^ 32 % 2 ^ 8 := by
      rw [← shifted_mod oc, same, shifted_mod]
    have high : oc <<< 1 % 2 ^ 32 &&& 0x80 = oc' <<< 1 % 2 ^ 32 &&& 0x80 := by
      rw [high_bit, shifted, ← high_bit]
    have low : oc <<< 1 % 2 ^ 32 &&& 0xff = oc' <<< 1 % 2 ^ 32 &&& 0xff := by
      rw [low_bits, shifted, ← low_bits]
    rw [continuation, continuation]
    dsimp only
    rw [high, low, ih shifted]

/-- The bytes so far do not matter, but for the count. -/
def Result.shift (k : Nat) : Result → Result
  | .code wc n => .code wc (k + n)
  | .more ps => .more ps
  | .error t => .error (k + t)

theorem continuation_shift (oc wc sh k t : Nat) (s : List UInt8) :
    continuation oc wc sh (k + t) s = (continuation oc wc sh t s).shift k := by
  induction s generalizing oc wc sh t with
  | nil => rfl
  | cons c s ih =>
    rw [continuation, continuation]
    dsimp only
    split_ifs
    · rfl
    · rfl
    · rfl
    · rfl
    · rw [Nat.add_assoc]
      exact ih _ _ _ _

theorem continuation_append {oc wc sh : Nat} (bound : wc < 2 ^ (6 * sh)) (few : sh ≤ 5) (t : Nat) (a b : List UInt8) :
    continuation oc wc sh t (a ++ b) = match continuation oc wc sh t a with
      | .more ps => continuation ps.oc (ulong ps.wc) ps.sh (t + a.length) b
      | r => r := by
  induction a generalizing oc wc sh t with
  | nil =>
    have small : sh % 2 ^ 8 = sh := by omega
    simp only [List.nil_append, continuation, (ulong_wchar bound few).2, small, List.length_nil, Nat.add_zero]
    exact continuation_mod (Nat.mod_mod _ _).symm _ _ _ _
  | cons c a ih =>
    rw [List.cons_append, continuation, continuation]
    by_cases long : MB_CUR_MAX < sh
    · rw [if_pos long, if_pos long]
    rw [if_neg long, if_neg long]
    by_cases bad : c.toNat &&& 0xc0 ≠ 0x80
    · rw [if_pos bad, if_pos bad]
    rw [if_neg bad, if_neg bad]
    dsimp only
    by_cases last : oc <<< 1 % 2 ^ 32 &&& 0x80 = 0
    · rw [if_pos last, if_pos last]
      split_ifs <;> rfl
    · have few' : sh + 1 ≤ 5 := by
        unfold MB_CUR_MAX at long
        omega
      rw [if_neg last, if_neg last, ih (extend_lt c bound) few', List.length_cons, Nat.add_right_comm, Nat.add_assoc]

variable {ps : Mbstate} {s : List UInt8}

theorem continuation_kept {oc wc sh t : Nat} (bound : wc < 2 ^ (6 * sh))
    (few : sh ≤ 5) (some_ : 0 < sh) (more : continuation oc wc sh t s = .more ps) : ps.Partial ∧ 0 < ps.sh := by
  induction s generalizing oc wc sh t with
  | nil =>
    have bound' : (wc : Int) < 2 ^ (6 * sh) := by exact_mod_cast bound
    have small : sh % 2 ^ 8 = sh := by omega
    rw [continuation, small, (ulong_wchar bound few).1] at more
    cases more
    exact ⟨⟨Nat.mod_lt oc (by decide), few, Int.natCast_nonneg wc, bound'⟩, some_⟩
  | cons c s ih =>
    rw [continuation] at more
    by_cases long : MB_CUR_MAX < sh
    · rw [if_pos long] at more
      cases more
    · rw [if_neg long] at more
      dsimp only at more
      split_ifs at more
      unfold MB_CUR_MAX at long
      exact ih (extend_lt c bound) (by omega) (Nat.succ_pos sh) more

theorem continuation_le {oc wc sh t n : Nat} {code : Option Int}
    (done : continuation oc wc sh t s = .code code n) : 0 < n ∧ n ≤ t + s.length := by
  induction s generalizing oc wc sh t with
  | nil => cases done
  | cons c s ih =>
    rw [continuation] at done
    dsimp only at done
    rw [List.length_cons]
    split_ifs at done
    · cases done
      omega
    · have := ih done
      omega

theorem Mbstate.Partial.resumed (partial_ : ps.Partial) :
    ulong ps.wc < 2 ^ (6 * ps.sh) ∧ (⟨ps.oc % 2 ^ 8, ps.sh % 2 ^ 8, wchar (ulong ps.wc)⟩ : Mbstate) = ps := by
  rcases partial_ with ⟨oc, few, nonneg, bound⟩
  have room : (2 : Int) ^ (6 * ps.sh) ≤ 2 ^ 30 := by
    exact_mod_cast Nat.pow_le_pow_right (n := 2) (by decide) (show 6 * ps.sh ≤ 30 by omega)
  have same : (ulong ps.wc : Int) = ps.wc := by
    unfold ulong
    omega
  have bound' : ulong ps.wc < 2 ^ (6 * ps.sh) := by
    have cast : ((ulong ps.wc : Nat) : Int) < 2 ^ (6 * ps.sh) := by
      rw [same]
      exact bound
    exact_mod_cast cast
  have small : ps.sh % 2 ^ 8 = ps.sh := by omega
  refine ⟨bound', ?_⟩
  rw [(ulong_wchar bound' few).1, same, small, Nat.mod_eq_of_lt oc]

theorem settle_shift (r : Result) (k : Nat) :
    mbrtowc.settle (r.shift k) = ((mbrtowc.settle r).1.shift k, (mbrtowc.settle r).2) := by
  cases r <;> rfl

theorem mbrtowc_resume (partial_ : ps.Partial) (some_ : 0 < ps.sh) (n : Nat) (s : List UInt8) :
    mbrtowc.settle (continuation ps.oc (ulong ps.wc) ps.sh n s) =
      ((mbrtowc ps (some s)).1.shift n, (mbrtowc ps (some s)).2) := by
  cases s with
  | nil =>
    rw [continuation, partial_.resumed.2]
    rfl
  | cons c s =>
    have call : mbrtowc ps (some (c :: s)) =
        mbrtowc.settle (continuation ps.oc (ulong ps.wc) ps.sh 0 (c :: s)) := if_neg (by omega)
    rw [call, ← settle_shift, ← continuation_shift, Nat.add_zero]

theorem settle_append {oc wc sh : Nat} (bound : wc < 2 ^ (6 * sh)) (few : sh ≤ 5) (some_ : 0 < sh) (t : Nat)
    (a b : List UInt8) :
    mbrtowc.settle (continuation oc wc sh t (a ++ b)) = match mbrtowc.settle (continuation oc wc sh t a) with
      | (.more _, ps) => ((mbrtowc ps (some b)).1.shift (t + a.length), (mbrtowc ps (some b)).2)
      | r => r := by
  rw [continuation_append bound few]
  cases first : continuation oc wc sh t a with
  | more ps =>
    rcases continuation_kept bound few some_ first with ⟨partial_, some'⟩
    exact mbrtowc_resume partial_ some' _ _
  | code code n => rfl
  | error n => rfl

theorem mbrtowc_append (partial_ : ps.Partial) (a b : List UInt8) :
    mbrtowc ps (some (a ++ b)) = match mbrtowc ps (some a) with
      | (.more _, ps') => ((mbrtowc ps' (some b)).1.shift a.length, (mbrtowc ps' (some b)).2)
      | r => r := by
  cases a with
  | nil =>
    change mbrtowc ps (some b) = ((mbrtowc ps (some b)).1.shift 0, (mbrtowc ps (some b)).2)
    have same (r : Result) : r.shift 0 = r := by cases r <;> simp [Result.shift]
    rw [same]
  | cons c a =>
    rw [List.cons_append, mbrtowc, mbrtowc]
    by_cases start : ps.sh = 0
    · rw [if_pos start, if_pos start]
      split_ifs
      · rfl
      · rfl
      · rfl
      · rw [settle_append (by decide) (by decide) (by decide), List.length_cons, Nat.add_comm 1]
    · rw [if_neg start, if_neg start, ← List.cons_append,
        settle_append partial_.resumed.1 partial_.2.1 (Nat.pos_of_ne_zero start), Nat.zero_add]

theorem initial_kept : Mbstate.initial.Partial := ⟨by decide, by decide, by decide, by decide⟩

/-- What a call with bytes leaves: a state from which one can go on, and a count that is within the
bytes and not zero within a character. -/
def Sound (ps : Mbstate) (length : Nat) : Result × Mbstate → Prop
  | (.more _, ps') => ps'.Partial ∧ 0 < ps'.sh
  | (.code _ n, ps') => ps'.Partial ∧ n ≤ length ∧ (0 < ps.sh → 0 < n)
  | (.error _, ps') => ps'.Partial

theorem settle_sound {oc wc sh t length : Nat} (ps : Mbstate) (bound : wc < 2 ^ (6 * sh))
    (few : sh ≤ 5) (some_ : 0 < sh) (all : t + s.length = length) :
    Sound ps length (mbrtowc.settle (continuation oc wc sh t s)) := by
  cases first : continuation oc wc sh t s with
  | more ps' => exact continuation_kept bound few some_ first
  | code code n =>
    have counted := continuation_le first
    exact ⟨initial_kept, by omega, fun _ => counted.1⟩
  | error n => exact initial_kept

theorem mbrtowc_sound (partial_ : ps.Partial) (c : UInt8) (s : List UInt8) :
    Sound ps (s.length + 1) (mbrtowc ps (some (c :: s))) := by
  rw [mbrtowc]
  split_ifs with start
  · exact ⟨partial_, Nat.zero_le _, fun within => absurd start (by omega)⟩
  · exact ⟨partial_, by omega, fun within => absurd start (by omega)⟩
  · exact initial_kept
  · exact settle_sound ps (by decide) (by decide) (by decide) (Nat.add_comm _ _)
  · exact settle_sound ps partial_.resumed.1 partial_.2.1 (Nat.pos_of_ne_zero start) (Nat.zero_add _)

theorem mbrtowc_kept (partial_ : ps.Partial) (s : List UInt8) : (mbrtowc ps (some s)).2.Partial := by
  cases s with
  | nil => exact partial_
  | cons c s =>
    have sound := mbrtowc_sound partial_ c s
    cases call : mbrtowc ps (some (c :: s)) with
    | mk r ps' =>
      rw [call] at sound
      cases r with
      | more _ => exact sound.1
      | code wc n => exact sound.1
      | error t => exact sound

theorem advance_le {ps ps' : Mbstate} (partial_ : ps.Partial) {wc : Option Int} {n : Nat}
    (past : Bool) (done : mbrtowc ps (some s) = (.code wc n, ps')) : advance past n ≤ s.length := by
  cases s with
  | nil => cases done
  | cons c s =>
    have sound := mbrtowc_sound partial_ c s
    rw [done] at sound
    unfold advance
    rw [List.length_cons]
    split_ifs
    · omega
    · exact sound.2.1

theorem advance_add {ps ps' ps'' last : Mbstate} (partial_ : ps.Partial) {s s' : List UInt8} {wc : Option Int}
    {n : Nat} (past : Bool) (first : mbrtowc ps (some s) = (.more ps'', ps'))
    (done : mbrtowc ps' (some s') = (.code wc n, last)) :
    advance past (s.length + n) = s.length + advance past n := by
  cases s with
  | nil => rw [List.length_nil, Nat.zero_add, Nat.zero_add]
  | cons c s =>
    have sound := mbrtowc_sound partial_ c s
    rw [first] at sound
    cases s' with
    | nil => cases done
    | cons c' s' =>
      have sound' := mbrtowc_sound sound.1 c' s'
      rw [done] at sound'
      have positive := sound'.2.2 sound.2
      unfold advance
      rw [if_neg (by omega), if_neg (by omega)]

/-- What follows the next character: only the text after it matters. -/
def Alike (r r' : Next × Mbstate × List (List UInt8)) : Prop :=
  r.1 = r'.1 ∧ ∀ wc count, r.1 = .char wc count → r.2.1 = r'.2.1 ∧ r.2.1.Partial ∧ r.2.2.flatten = r'.2.2.flatten

theorem next_flatten (past : Bool) (partial_ : ps.Partial) (count : Nat) (chunks : List (List UInt8)) :
    Alike (next past ps count chunks) (next past ps count [chunks.flatten]) := by
  induction chunks generalizing ps count with
  | nil => exact ⟨rfl, fun wc n char => nomatch char⟩
  | cons s chunks ih =>
    have whole := mbrtowc_append partial_ s chunks.flatten
    have kept := mbrtowc_kept partial_ s
    rw [← List.flatten_cons] at whole
    rw [next, next]
    cases first : mbrtowc ps (some s) with
    | mk r ps' =>
      rw [first] at whole kept
      cases r with
      | more ps'' =>
        have later := ih kept (count + s.length)
        rw [next] at later
        rw [whole]
        dsimp only at later ⊢
        cases second : mbrtowc ps' (some chunks.flatten) with
        | mk r ps'' =>
          rw [second] at later
          cases r with
          | more _ => simpa [Result.shift, Nat.add_assoc, next] using later
          | code wc n =>
            have rest : (s ++ chunks.flatten).drop (s.length + advance past n) = chunks.flatten.drop (advance past n) := by
              rw [← List.drop_drop, List.drop_left]
            simpa [Result.shift, Nat.add_assoc, advance_add partial_ past first second, rest] using later
          | error t => simpa [Result.shift, Nat.add_assoc] using later
      | code wc n =>
        rw [whole]
        refine ⟨rfl, fun _ _ _ => ⟨rfl, kept, ?_⟩⟩
        simp [List.drop_append_of_le_length (advance_le partial_ past first)]
      | error t =>
        rw [whole]
        exact ⟨rfl, fun _ _ char => nomatch char⟩

theorem feed_congr (past : Bool) (n : Nat) (partial_ : ps.Partial) {chunks chunks' : List (List UInt8)}
    (same : chunks.flatten = chunks'.flatten) : feed past n ps chunks = feed past n ps chunks' := by
  induction n generalizing ps chunks chunks' with
  | zero => rfl
  | succ n ih =>
    have left := next_flatten past partial_ 0 chunks
    have right := next_flatten past partial_ 0 chunks'
    rw [← same] at right
    rw [feed, feed]
    cases first : next past ps 0 chunks with
    | mk step rest =>
      cases first' : next past ps 0 chunks' with
      | mk step' rest' =>
        rw [first] at left
        rw [first'] at right
        have agree : step = step' := left.1.trans right.1.symm
        subst agree
        cases step with
        | char wc count =>
          have ⟨state, kept, text⟩ := left.2 wc count rfl
          have ⟨state', _, text'⟩ := right.2 wc count rfl
          have state_ : rest.1 = rest'.1 := state.trans state'.symm
          dsimp only
          rw [← state_, ih kept (text.trans text'.symm)]
        | error count => rfl
        | pending count => rfl

/-- For every text and every way to split it into chunks, the calls with one state give the same
characters with the same counts, and the same error at the same byte, as the text in one piece. -/
theorem chunk_independent (past : Bool) (n : Nat) (chunks : List (List UInt8)) :
    feed past n .initial chunks = feed past n .initial [chunks.flatten] :=
  feed_congr past n initial_kept (by rw [List.flatten_singleton])

example : feed true 3 .initial [[0xe2], [], [0x80, 0x94, 0], [0xc0, 0x80]] =
    [.char (some 0x2014) 3, .char (some 0) 0, .error 2] := by decide +kernel

end Scc.Libc.Wchar
