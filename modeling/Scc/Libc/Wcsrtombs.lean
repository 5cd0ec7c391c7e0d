import Scc.Libc.Validutf8

/-!
# Strings of wide characters

`wcsrtombs()` counts bytes and `mbsrtowcs()` counts characters. The first also moves `*src` when it only measures, and
the second looks at the next character before it compares the count with the limit and does not move `*src` when
it fails.
-/

namespace Scc.Libc.Wchar

open Scc.Lib.Utf8 (Tail size encode encode_cons encode_low encode_length)

set_option autoImplicit false

def MB_LEN_MAX : Nat := 4

/-- What a call leaves: its value, or none for `(size_t) -1`; what is stored at `dest`; and how many units `*src` has
moved, or none for `NULL`. -/
structure Call (α : Type) where
  ret : Option Nat
  dest : List α
  src : Option Nat
deriving DecidableEq

/-- The loop of `wcsrtombs()` with the count `n` and the place `i` of `*src`. It has no result where it goes on
outside of the string or of the table. -/
def wcsrtombsLoop (dest : Bool) (len : Nat) : List Int → Nat → Nat → List UInt8 → Option (Call UInt8)
  | [], _, _, _ => none
  | wc :: src, n, i, out =>
    match wcrtomb true wc with
    | none => none
    | some .error => some ⟨none, out, some i⟩
    | some (.bytes cnt buf) =>
      if dest ∧ n + cnt > len then some ⟨some n, out, some i⟩
      else
        let out := if dest then out ++ buf else out
        if wc = 0 then some ⟨some n, out, none⟩ else wcsrtombsLoop dest len src (n + cnt) (i + 1) out

def wcsrtombs (dest : Bool) (src : List Int) (len : Nat) : Option (Call UInt8) :=
  wcsrtombsLoop dest len src 0 0 []

/-- The loop of `mbsrtowcs()` with the count `n` and the place `i` of `s`. The number beside the result is that of the
bytes which were looked at. -/
def mbsrtowcsLoop (dest : Bool) (len : Nat) :
    Nat → Mbstate → List UInt8 → Nat → Nat → List Int → Option (Call Int × Nat)
  | 0, _, _, _, _, _ => none
  | fuel + 1, ps, s, n, i, out =>
    match mbrtowc ps (some (s.take MB_LEN_MAX)) with
    | (.more _, ps) => mbsrtowcsLoop dest len fuel ps (s.drop MB_LEN_MAX) n (i + MB_LEN_MAX) out
    | (.error t, _) => some (⟨none, out, some 0⟩, i + t)
    | (.code none _, _) => none
    | (.code (some wc) cnt, ps) =>
      let looked := i + advance true cnt
      if dest ∧ n = len then some (⟨some n, out, some i⟩, looked)
      else
        let out := if dest then out ++ [wc] else out
        if wc = 0 then some (⟨some n, out, if dest then none else some 0⟩, looked)
        else mbsrtowcsLoop dest len fuel ps (s.drop cnt) (n + 1) (i + cnt) out

def mbsrtowcs (dest : Bool) (src : List UInt8) (len : Nat) : Option (Call Int × Nat) :=
  mbsrtowcsLoop dest len (src.length + 2) .initial src 0 0 []

def encoded (vs : List Nat) : List UInt8 := vs.flatMap encode

def wide (vs : List Nat) : List Int := vs.map Nat.cast

/-- A wide string in memory: characters with an encoding, and the null character or a character without one. -/
structure WideString where
  codes : List Nat
  coded : ∀ v ∈ codes, Coded v ∧ v ≠ 0
  last : Int
  isInt : -2 ^ 31 ≤ last ∧ last < 2 ^ 31
  stops : last = 0 ∨ ∀ v : Nat, last = v → ¬ Coded v
  beyond : List Int

def WideString.chars (s : WideString) : List Int := wide s.codes ++ s.last :: s.beyond

/-- A byte string in memory: characters, and the null byte or bytes that begin with no character. -/
structure ByteString where
  codes : List Nat
  coded : ∀ v ∈ codes, Coded v ∧ v ≠ 0
  rest : List UInt8
  stops : rest.head? = some 0 ∨ ∀ v, Coded v → ¬ encode v <+: rest
  null : 0 ∈ rest

def ByteString.bytes (s : ByteString) : List UInt8 := encoded s.codes ++ s.rest

/-- The first characters that the limit has room for. -/
def whole (len : Nat) : List Nat → List Nat
  | [] => []
  | v :: vs => if size v ≤ len then v :: whole (len - size v) vs else []

/-- The whole characters within the limit and the place just after them; `NULL` when the null character was converted.
Without `dest` the place stays. -/
def WideString.asked (s : WideString) (dest : Bool) (len : Nat) : Call UInt8 :=
  let kept := whole len s.codes
  let n := (encoded kept).length
  if dest then
    if kept.length < s.codes.length then ⟨some n, encoded kept, some kept.length⟩
    else if s.last ≠ 0 then ⟨none, encoded kept, some kept.length⟩
    else if n < len then ⟨some n, encoded kept ++ [0], none⟩
    else ⟨some n, encoded kept, some kept.length⟩
  else ⟨if s.last = 0 then some (encoded s.codes).length else none, [], some 0⟩

def ByteString.asked (s : ByteString) (dest : Bool) (len : Nat) : Call Int :=
  let kept := s.codes.take len
  let place := (encoded kept).length
  if dest then
    if len ≤ s.codes.length then ⟨some len, wide kept, some place⟩
    else if s.rest.head? = some 0 then ⟨some kept.length, wide kept ++ [0], none⟩
    else ⟨none, wide kept, some place⟩
  else ⟨if s.rest.head? = some 0 then some s.codes.length else none, [], some 0⟩

/-- A call of `mbsrtowcs()` that leaves what is asked and, with the limit reached, has looked at no byte after the
character. -/
def ByteString.Converts (s : ByteString) (dest : Bool) (len : Nat) : Prop :=
  ∃ looked, mbsrtowcs dest s.bytes len = some (s.asked dest len, looked) ∧
    (dest = true → len ≤ s.codes.length → looked ≤ (encoded (s.codes.take len)).length)

/-- A string of characters comes back when there is room for its null character. -/
def RoundTrip (codes : List Nat) : Prop :=
  ∀ len len' beyond beyond', (encoded codes).length < len → codes.length < len' →
    ∃ bytes looked,
      wcsrtombs true (wide codes ++ 0 :: beyond) len =
        some ⟨some (encoded codes).length, bytes, none⟩ ∧
      mbsrtowcs true (bytes ++ beyond') len' =
        some (⟨some codes.length, wide codes ++ [0], none⟩, looked)

variable {v : Nat} {vs : List Nat} {s : List UInt8} {dest : Bool} {len fuel n i : Nat}

theorem mbrtowc_settled {wc : Option Int} (done : (mbrtowc .initial (some s)).1 = .code wc n) :
    mbrtowc .initial (some s) = (.code wc n, .initial) := by
  cases s with
  | nil => cases done
  | cons c s =>
    rw [mbrtowc, if_pos (show Mbstate.initial.sh = 0 from rfl)] at done ⊢
    split_ifs at done ⊢
    · exact Prod.ext done rfl
    · exact Prod.ext done rfl
    · rw [settle_result] at done
      rw [done]
      rfl

theorem encode_null : encode 0 = [0] := rfl

theorem take_window {t : List UInt8} : encode v <+: (encode v ++ t).take MB_LEN_MAX := by
  have few := Scc.Lib.Utf8.size_le v
  rw [List.prefix_take_iff, encode_length]
  exact ⟨List.prefix_append _ _, few⟩

theorem mbrtowc_coded (coded : Coded v) (t : List UInt8) :
    mbrtowc .initial (some ((encode v ++ t).take MB_LEN_MAX)) =
      (.code (some v) (if v = 0 then 0 else size v), .initial) :=
  mbrtowc_settled ((initial_code _ _ _).2 ⟨v, coded, take_window, rfl, rfl⟩)

theorem announced_bytes (announced : Announced s) : s.length < 6 ∧ 0 ∉ s := by
  rcases announced with rfl | ⟨lead, cs, rfl, high, tail, short⟩
  · exact ⟨by decide, List.not_mem_nil⟩
  · have most := (Scc.Lib.Utf8.need_bounds lead).2
    refine ⟨by rw [List.length_cons]; omega, ?_⟩
    intro null
    rcases List.mem_cons.1 null with first | later
    · rw [← first] at high
      exact absurd high (by decide)
    · exact absurd (tail 0 later) (by decide)

theorem loop_stray (stray : ∀ v, Coded v → ¬ encode v <+: s) (null : 0 ∈ s) (out : List Int) :
    ∃ looked, mbsrtowcsLoop dest len (fuel + 2) .initial s n i out = some (⟨none, out, some 0⟩, looked) := by
  have refuses {k : Nat} {wc : Option Int} {cnt : Nat} : (mbrtowc .initial (some (s.take k))).1 ≠ .code wc cnt := by
    intro done
    rcases (initial_code _ _ _).1 done with ⟨v, coded, begins, _⟩
    exact stray v coded (begins.trans (List.take_prefix _ _))
  have first (wc cnt) := @refuses MB_LEN_MAX wc cnt
  rw [mbsrtowcsLoop]
  cases call : mbrtowc .initial (some (s.take MB_LEN_MAX)) with
  | mk r ps =>
    rw [call] at first
    cases r with
    | code wc cnt => exact absurd rfl (first wc cnt)
    | error t => exact ⟨_, rfl⟩
    | more ps' =>
      have seen := announced_bytes ((initial_more _).1 ⟨_, congrArg Prod.fst call⟩)
      have later : 0 ∈ s.drop MB_LEN_MAX := by
        rw [← List.take_append_drop MB_LEN_MAX s, List.mem_append] at null
        exact null.resolve_left seen.2
      have long : MB_LEN_MAX < s.length := by
        have some_ := List.length_pos_of_mem later
        rw [List.length_drop] at some_
        omega
      -- the two windows are one window of twice the size
      have joined := mbrtowc_append initial_kept (s.take MB_LEN_MAX) ((s.drop MB_LEN_MAX).take MB_LEN_MAX)
      rw [call, ← List.take_add] at joined
      have second (wc cnt) := @refuses (MB_LEN_MAX + MB_LEN_MAX) wc cnt
      dsimp only
      rw [mbsrtowcsLoop]
      cases call' : mbrtowc ps (some ((s.drop MB_LEN_MAX).take MB_LEN_MAX)) with
      | mk r' ps'' =>
        dsimp only at joined
        rw [call'] at joined
        cases r' with
        | code wc cnt =>
          rw [joined] at second
          exact absurd rfl (second _ _)
        | error t => exact ⟨_, rfl⟩
        | more _ =>
          have seen' := announced_bytes ((initial_more _).1 ⟨_, congrArg Prod.fst joined⟩)
          rw [List.length_take] at seen'
          have all : s.take (MB_LEN_MAX + MB_LEN_MAX) = s := by
            apply List.take_of_length_le
            unfold MB_LEN_MAX at *
            omega
          rw [all] at seen'
          exact absurd null seen'.2

theorem encoded_cons (v : Nat) (vs : List Nat) : encoded (v :: vs) = encode v ++ encoded vs := List.flatMap_cons

theorem mbsrtowcs_codes (coded : ∀ v ∈ vs, Coded v ∧ v ≠ 0) (below : dest = true → n + vs.length ≤ len) (t : List UInt8)
    (out : List Int) : mbsrtowcsLoop dest len (fuel + vs.length) .initial (encoded vs ++ t) n i out =
      mbsrtowcsLoop dest len fuel .initial t (n + vs.length) (i + (encoded vs).length)
        (if dest then out ++ wide vs else out) := by
  induction vs generalizing n i out with
  | nil => simp [encoded, wide]
  | cons v vs ih =>
    rw [List.forall_mem_cons] at coded
    rw [List.length_cons] at below
    have inside : ¬ (dest = true ∧ n = len) := by
      intro reached
      have := below reached.1
      omega
    have first := mbrtowc_coded coded.1.1 (encoded vs ++ t)
    rw [if_neg coded.1.2] at first
    rw [List.length_cons, ← Nat.add_assoc, mbsrtowcsLoop, encoded_cons, List.append_assoc, first]
    dsimp only
    rw [if_neg inside, if_neg (by exact_mod_cast coded.1.2), List.drop_left' (encode_length v), ih coded.2 ?_,
      List.length_append, encode_length, Nat.add_assoc n, Nat.add_comm 1, ← Nat.add_assoc i]
    · cases dest <;> simp [wide]
    · intro stores
      have := below stores
      omega

theorem mbsrtowcs_limit (coded : Coded v) (t : List UInt8) (out : List Int) :
    ∃ more, 0 < more ∧ mbsrtowcsLoop true len (fuel + 1) .initial (encode v ++ t) len i out =
      some (⟨some len, out, some i⟩, i + more) := by
  refine ⟨advance true (if v = 0 then 0 else size v), ?_, ?_⟩
  · by_cases zero : v = 0
    · rw [if_pos zero]
      decide
    · have positive := size_pos v
      rw [if_neg zero]
      unfold advance
      split_ifs <;> omega
  · rw [mbsrtowcsLoop, mbrtowc_coded coded]
    dsimp only
    rw [if_pos ⟨rfl, rfl⟩]

theorem mbsrtowcs_null (below : dest = true → n < len) (t : List UInt8) (out : List Int) :
    mbsrtowcsLoop dest len (fuel + 1) .initial (0 :: t) n i out =
      some (⟨some n, if dest then out ++ [0] else out, if dest then none else some 0⟩, i + 1) := by
  have first := mbrtowc_coded (v := 0) ⟨by decide, by decide, rfl⟩ t
  rw [encode_null, if_pos rfl, List.singleton_append] at first
  have inside : ¬ (dest = true ∧ n = len) := by
    intro reached
    have := below reached.1
    omega
  rw [mbsrtowcsLoop, first]
  dsimp only
  rw [if_neg inside, if_pos Int.natCast_zero]
  rfl

theorem wcsrtombs_codes (coded : ∀ v ∈ vs, Coded v ∧ v ≠ 0) (below : dest = true → n + (encoded vs).length ≤ len)
    (t : List Int) (out : List UInt8) : wcsrtombsLoop dest len (wide vs ++ t) n i out =
      wcsrtombsLoop dest len t (n + (encoded vs).length) (i + vs.length) (if dest then out ++ encoded vs else out) := by
  induction vs generalizing n i out with
  | nil => simp [encoded, wide]
  | cons v vs ih =>
    rw [List.forall_mem_cons] at coded
    rw [encoded_cons, List.length_append, encode_length] at below ⊢
    have inside : ¬ (dest = true ∧ n + size v > len) := by
      intro full
      have := below full.1
      omega
    change wcsrtombsLoop dest len ((v : Int) :: (wide vs ++ t)) n i out = _
    rw [wcsrtombsLoop, wcrtomb_coded coded.1.1]
    dsimp only
    rw [if_neg inside, if_neg (by exact_mod_cast coded.1.2), ih coded.2 ?_, List.length_cons, Nat.add_assoc n,
      Nat.add_assoc i, Nat.add_comm 1]
    · cases dest <;> simp
    · intro stores
      have := below stores
      omega

theorem wcsrtombs_null (t : List Int) (out : List UInt8) : wcsrtombsLoop dest len (0 :: t) n i out =
    if dest ∧ n + 1 > len then some ⟨some n, out, some i⟩
    else some ⟨some n, if dest then out ++ [0] else out, none⟩ := by
  have stored := wcrtomb_coded (v := 0) ⟨by decide, by decide, rfl⟩
  rw [Int.natCast_zero] at stored
  rw [wcsrtombsLoop, stored]
  rfl

theorem whole_spec (len : Nat) (vs : List Nat) : (encoded (whole len vs)).length ≤ len ∧
    ∃ after, vs = whole len vs ++ after ∧ ∀ v ∈ after.head?, len < (encoded (whole len vs)).length + size v := by
  induction vs generalizing len with
  | nil => exact ⟨Nat.zero_le _, [], rfl, nofun⟩
  | cons v vs ih =>
    rw [whole]
    split_ifs with room
    · rcases ih (len - size v) with ⟨inside, after, all, next⟩
      rw [encoded_cons, List.length_append, encode_length]
      refine ⟨by omega, after, congrArg (v :: ·) all, ?_⟩
      intro w first
      have := next w first
      omega
    · refine ⟨Nat.zero_le _, v :: vs, rfl, ?_⟩
      intro w first
      cases first
      change len < 0 + size v
      omega

theorem WideString.measured (s : WideString) (len : Nat) : wcsrtombs false s.chars len =
    if s.last = -1 then none else some ⟨if s.last = 0 then some (encoded s.codes).length else none, [],
      if s.last = 0 then none else some s.codes.length⟩ := by
  unfold wcsrtombs WideString.chars
  rw [@wcsrtombs_codes _ false len 0 0 s.coded nofun, Nat.zero_add, Nat.zero_add]
  by_cases null : s.last = 0
  · rw [null, wcsrtombs_null]
    rfl
  · rw [wcsrtombsLoop, wcrtomb_uncoded s.isInt (s.stops.resolve_left null)]
    by_cases last : s.last = -1
    · rw [if_pos last, if_pos last]
    · rw [if_neg last, if_neg last, if_neg null, if_neg null]
      rfl

theorem WideString.stored (s : WideString) (len : Nat) : wcsrtombs true s.chars len =
    if s.last = -1 ∧ whole len s.codes = s.codes then none else some (s.asked true len) := by
  rcases whole_spec len s.codes with ⟨inside, after, all, next⟩
  have coded : ∀ v ∈ whole len s.codes, Coded v ∧ v ≠ 0 := by
    intro v member
    apply s.coded v
    rw [all]
    exact List.mem_append_left _ member
  have start (t : List Int) := @wcsrtombs_codes _ true len 0 0 coded (by omega) t []
  unfold wcsrtombs WideString.chars WideString.asked
  cases after with
  | nil =>
    rw [List.append_nil] at all
    rw [← all] at start inside ⊢
    rw [start, Nat.zero_add, Nat.zero_add]
    by_cases null : s.last = 0
    · rw [null, wcsrtombs_null]
      by_cases room : (encoded s.codes).length < len
      · rw [if_neg (by omega)]
        simp [room]
      · rw [if_pos ⟨rfl, by omega⟩]
        simp [room]
    · rw [wcsrtombsLoop, wcrtomb_uncoded s.isInt (s.stops.resolve_left null)]
      by_cases last : s.last = -1
      · simp [last]
      · simp [last, null]
  | cons v after =>
    have full := next v rfl
    have member : v ∈ s.codes := by
      rw [all]
      exact List.mem_append_right _ List.mem_cons_self
    have short : (whole len s.codes).length < s.codes.length := by
      have lengths := congrArg List.length all
      rw [List.length_append, List.length_cons] at lengths
      omega
    have other : whole len s.codes ≠ s.codes := by
      intro same
      rw [same] at short
      exact Nat.lt_irrefl _ short
    have split : wide s.codes ++ s.last :: s.beyond =
        wide (whole len s.codes) ++ (v : Int) :: (wide after ++ s.last :: s.beyond) := by
      conv_lhs => rw [all]
      simp [wide]
    rw [split, start, Nat.zero_add, Nat.zero_add, wcsrtombsLoop, wcrtomb_coded (s.coded v member).1]
    simp [full, short, other]

theorem length_le_encoded (vs : List Nat) : vs.length ≤ (encoded vs).length := by
  induction vs with
  | nil => exact Nat.le_refl 0
  | cons v vs ih =>
    have positive := size_pos v
    rw [encoded_cons, List.length_append, encode_length, List.length_cons]
    omega

theorem ByteString.begins (s : ByteString) (dest : Bool) (below : dest = true → s.codes.length ≤ len) :
    ∃ fuel, mbsrtowcs dest s.bytes len = mbsrtowcsLoop dest len (fuel + 2) .initial s.rest s.codes.length
      (encoded s.codes).length (if dest then wide s.codes else []) := by
  have least := length_le_encoded s.codes
  refine ⟨s.bytes.length - s.codes.length, ?_⟩
  have fuel : s.bytes.length + 2 = s.bytes.length - s.codes.length + 2 + s.codes.length := by
    unfold ByteString.bytes
    rw [List.length_append]
    omega
  have start := @mbsrtowcs_codes _ dest len (s.bytes.length - s.codes.length + 2) 0 0 s.coded
    (by simpa using below) s.rest []
  rw [← fuel, Nat.zero_add, Nat.zero_add] at start
  exact start

theorem ByteString.measured (s : ByteString) (len : Nat) : s.Converts false len := by
  rcases @s.begins len false nofun with ⟨fuel, start⟩
  unfold ByteString.Converts
  rw [start]
  by_cases null : s.rest.head? = some 0
  · obtain ⟨t, rest⟩ := List.head?_eq_some_iff.1 null
    rw [rest, @mbsrtowcs_null false _ _ _ _ nofun]
    refine ⟨(encoded s.codes).length + 1, ?_, nofun⟩
    simp [ByteString.asked, null]
  · rcases @loop_stray _ false len fuel s.codes.length (encoded s.codes).length
      (s.stops.resolve_left null) s.null [] with ⟨looked, stray⟩
    refine ⟨looked, ?_, nofun⟩
    simp [ByteString.asked, null, stray]

theorem ByteString.limit (s : ByteString) (reached : len ≤ s.codes.length) :
    (∃ more, 0 < more ∧ mbsrtowcs true s.bytes len =
      some (⟨some len, wide (s.codes.take len), some (encoded (s.codes.take len)).length⟩,
        (encoded (s.codes.take len)).length + more)) ∨
      ∃ looked, mbsrtowcs true s.bytes len = some (⟨none, wide (s.codes.take len), some 0⟩, looked) := by
  have few : (s.codes.take len).length = len := List.length_take_of_le reached
  have coded : ∀ v ∈ s.codes.take len, Coded v ∧ v ≠ 0 := fun v member => s.coded v (List.mem_of_mem_take member)
  have least := length_le_encoded s.codes
  have split : s.bytes = encoded (s.codes.take len) ++ (encoded (s.codes.drop len) ++ s.rest) := by
    unfold ByteString.bytes encoded
    rw [← List.append_assoc, ← List.flatMap_append, List.take_append_drop]
  have fuel : s.bytes.length + 2 = s.bytes.length - len + 2 + (s.codes.take len).length := by
    unfold ByteString.bytes
    rw [few, List.length_append]
    omega
  have start := @mbsrtowcs_codes _ true len (s.bytes.length - len + 2) 0 0 coded
    (fun _ => by omega) (encoded (s.codes.drop len) ++ s.rest) []
  rw [← fuel, ← split, few, Nat.zero_add, Nat.zero_add] at start
  unfold mbsrtowcs
  rw [start]
  by_cases next : ∃ v, Coded v ∧ encode v <+: encoded (s.codes.drop len) ++ s.rest
  · rcases next with ⟨v, coded', t, bytes⟩
    rw [← bytes]
    exact .inl (mbsrtowcs_limit coded' t _)
  · push Not at next
    exact .inr (loop_stray next (List.mem_append_right _ s.null) _)

theorem ByteString.stored (s : ByteString) (len : Nat) : s.Converts true len ↔
    s.codes.length < len ∧ (s.rest.head? = some 0 ∨ s.codes = []) := by
  unfold ByteString.Converts
  by_cases below : s.codes.length < len
  · rcases s.begins true (fun _ => Nat.le_of_lt below) with ⟨fuel, start⟩
    have all : s.codes.take len = s.codes := List.take_of_length_le (Nat.le_of_lt below)
    rw [start]
    by_cases null : s.rest.head? = some 0
    · obtain ⟨t, rest⟩ := List.head?_eq_some_iff.1 null
      rw [rest, mbsrtowcs_null fun _ => below]
      simp [ByteString.asked, all, below, null, Nat.not_le.2 below]
    · rcases @loop_stray _ true len fuel s.codes.length (encoded s.codes).length
        (s.stops.resolve_left null) s.null (wide s.codes) with ⟨looked, stray⟩
      rw [if_pos rfl, stray]
      have none_ : (encoded s.codes).length = 0 ↔ s.codes = [] := by
        have least := length_le_encoded s.codes
        constructor
        · intro zero
          exact List.length_eq_zero_iff.1 (by omega)
        · intro same
          rw [same]
          rfl
      simp [ByteString.asked, all, below, null, Nat.not_le.2 below, eq_comm (a := 0), none_]
  · constructor
    · intro converts
      rcases converts with ⟨looked, call, inside⟩
      have reached : len ≤ s.codes.length := not_lt.1 below
      have few : (s.codes.take len).length = len := List.length_take_of_le reached
      have ask : s.asked true len = ⟨some len, wide (s.codes.take len), some (encoded (s.codes.take len)).length⟩ := by
        simp [ByteString.asked, reached]
      rcases s.limit reached with ⟨more, positive, limit⟩ | ⟨looked', stray⟩
      · rw [limit, ask] at call
        cases call
        have := inside rfl reached
        omega
      · rw [stray, ask] at call
        cases call
    · intro condition
      exact absurd condition.1 below

theorem round_trip (coded : ∀ v ∈ vs, Coded v ∧ v ≠ 0) : RoundTrip vs := by
  intro len len' beyond beyond' room room'
  have least := length_le_encoded vs
  have stores := @wcsrtombs_codes _ true len 0 0 coded (by omega) (0 :: beyond) []
  have reads := @mbsrtowcs_codes _ true len' ((encoded vs).length - vs.length + beyond'.length + 3) 0 0 coded
    (by omega) (0 :: beyond') []
  rw [Nat.zero_add, Nat.zero_add] at stores reads
  refine ⟨encoded vs ++ [0], (encoded vs).length + 1, ?_, ?_⟩
  · unfold wcsrtombs
    rw [stores, wcsrtombs_null, if_neg (by omega)]
    rfl
  · have all : (encoded vs ++ [0] ++ beyond').length + 2 =
        (encoded vs).length - vs.length + beyond'.length + 3 + vs.length := by
      simp
      omega
    have text : encoded vs ++ [0] ++ beyond' = encoded vs ++ 0 :: beyond' := by simp
    unfold mbsrtowcs
    rw [all, text, reads, mbsrtowcs_null fun _ => room']
    rfl

theorem null_not_mem_encode (coded : Coded v) (some_ : v ≠ 0) : 0 ∉ encode v := by
  rcases encode_cons v with ⟨lead, cs, bytes⟩
  rw [bytes]
  by_cases low : lead.toNat < 0xC0
  · rcases encode_low bytes low with ⟨_, number, none_⟩
    rw [none_, List.mem_singleton]
    intro null
    rw [← null] at number
    exact some_ number.symm
  · have tail := ((Scc.Lib.Utf8.encode_iff (not_lt.1 low) cs coded.1).1 bytes).1
    intro null
    rcases List.mem_cons.1 null with first | later
    · rw [← first] at low
      exact low (by decide)
    · exact absurd (tail 0 later) (by decide)

theorem ByteString.exists_bytes {mem : List UInt8} (null : 0 ∈ mem) : ∃ s : ByteString, s.bytes = mem := by
  induction size_ : mem.length using Nat.strongRecOn generalizing mem with
  | ind m ih =>
    by_cases stray : ∀ v, Coded v → ¬ encode v <+: mem
    · exact ⟨⟨[], List.forall_mem_nil _, mem, .inr stray, null⟩, rfl⟩
    · push Not at stray
      rcases stray with ⟨v, coded, t, bytes⟩
      by_cases zero : v = 0
      · have first : mem.head? = some 0 := by
          rw [← bytes, zero]
          rfl
        exact ⟨⟨[], List.forall_mem_nil _, mem, .inl first, null⟩, rfl⟩
      · have later : 0 ∈ t := by
          rw [← bytes, List.mem_append] at null
          exact null.resolve_left (null_not_mem_encode coded zero)
        have less : t.length < m := by
          have positive := size_pos v
          rw [← size_, ← bytes, List.length_append, encode_length]
          omega
        rcases ih _ less later rfl with ⟨s, rest⟩
        refine ⟨⟨v :: s.codes, List.forall_mem_cons.2 ⟨⟨coded, zero⟩, s.coded⟩, s.rest, s.stops, s.null⟩, ?_⟩
        rw [← bytes, ← rest]
        unfold ByteString.bytes
        rw [encoded_cons, List.append_assoc]

theorem WideString.exists_chars {mem : List Int} (isInt : ∀ wc ∈ mem, -2 ^ 31 ≤ wc ∧ wc < 2 ^ 31) (null : 0 ∈ mem) :
    ∃ s : WideString, s.chars = mem := by
  induction mem with
  | nil => cases null
  | cons wc mem ih =>
    rw [List.forall_mem_cons] at isInt
    by_cases zero : wc = 0
    · exact ⟨⟨[], List.forall_mem_nil _, wc, isInt.1, .inl zero, mem⟩, rfl⟩
    · by_cases uncoded : ∀ v : Nat, wc = v → ¬ Coded v
      · exact ⟨⟨[], List.forall_mem_nil _, wc, isInt.1, .inr uncoded, mem⟩, rfl⟩
      · push Not at uncoded
        rcases uncoded with ⟨v, same, coded⟩
        have some_ : v ≠ 0 := by
          rintro rfl
          exact zero same
        rcases ih isInt.2 ((List.mem_cons.1 null).resolve_left (Ne.symm zero)) with ⟨s, rest⟩
        refine ⟨⟨v :: s.codes, List.forall_mem_cons.2 ⟨⟨coded, some_⟩, s.coded⟩, s.last, s.isInt, s.stops, s.beyond⟩, ?_⟩
        rw [same, ← rest]
        rfl

/-- `wcsrtombs()` stores as asked unless it comes to -1, and measures as asked only at a character without an
encoding. `mbsrtowcs()` stores as asked when the null byte comes before the limit, or an error at the beginning. -/
theorem conversion_iff (s : WideString) (t : ByteString) (len : Nat) : RoundTrip s.codes ∧
      (wcsrtombs true s.chars len = some (s.asked true len) ↔ ¬ (s.last = -1 ∧ whole len s.codes = s.codes)) ∧
      (wcsrtombs false s.chars len = some (s.asked false len) ↔ s.codes = [] ∧ s.last ≠ 0 ∧ s.last ≠ -1) ∧
      (t.Converts true len ↔ t.codes.length < len ∧ (t.rest.head? = some 0 ∨ t.codes = [])) ∧
      t.Converts false len := by
  refine ⟨round_trip s.coded, ?_, ?_, t.stored len, t.measured len⟩
  · rw [s.stored]
    split_ifs with lost
    · simp [lost]
    · simp only [true_iff]
      exact lost
  · rw [s.measured]
    by_cases last : s.last = -1
    · simp [last]
    · by_cases null : s.last = 0
      · simp [WideString.asked, null]
      · simp [WideString.asked, last, null]

/-- A wide string of one letter is measured with `*src` set to `NULL`, and the bytes behind a letter spoil a
conversion of one character. -/
theorem conversion_lost :
    (∃ s : WideString, s.chars = [0x61, 0] ∧ wcsrtombs false s.chars 0 ≠ some (s.asked false 0)) ∧
      ∃ t : ByteString, t.bytes = [0x61, 0xff, 0] ∧ ¬ t.Converts true 1 := by
  have letter : ∀ v ∈ [0x61], Coded v ∧ v ≠ 0 := List.forall_mem_singleton.2 ⟨⟨by decide, by decide, rfl⟩, by decide⟩
  have stray : ∀ v, Coded v → ¬ encode v <+: [0xff, 0] := by
    intro v coded begins
    have done := (initial_code [0xff, 0] _ _).2 ⟨v, coded, begins, rfl, rfl⟩
    rw [show (mbrtowc .initial (some [0xff, 0])).1 = .error 2 by decide +kernel] at done
    cases done
  constructor
  · refine ⟨⟨[0x61], letter, 0, by decide, .inl rfl, []⟩, rfl, ?_⟩
    simp [WideString.measured, WideString.asked]
  · refine ⟨⟨[0x61], letter, [0xff, 0], .inr stray, by decide⟩, rfl, ?_⟩
    rw [ByteString.stored]
    exact fun converts => Nat.lt_irrefl 1 converts.1

end Scc.Libc.Wchar
