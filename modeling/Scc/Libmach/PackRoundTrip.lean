import Scc.Libmach.Pack

/-!
# Unpacking what was packed

A format is a sequence of letters, and `pack()` writes as many bytes as they say. What it
writes is read back by `unpack()`. Both return the number of bytes as an int.
-/

namespace Scc.Libmach.Pack

open Scc.Lib Scc.Lib.Shifts

set_option autoImplicit false

inductive Format : List Char → List Letter → Prop
  | nil : Format [] []
  | array {fmt : List Char} {letters : List Letter} (count : List Char) (decimal : count.all Char.isDigit = true)
      (int : Numeral.atoi count ≤ INT_MAX) (rest : Format fmt letters) :
      Format ('\'' :: (count ++ fmt)) (.array (Numeral.atoi count) :: letters)
  | c {fmt : List Char} {letters : List Letter} (rest : Format fmt letters) : Format ('c' :: fmt) (.c :: letters)
  | s {fmt : List Char} {letters : List Letter} (rest : Format fmt letters) : Format ('s' :: fmt) (.s :: letters)
  | l {fmt : List Char} {letters : List Letter} (rest : Format fmt letters) : Format ('l' :: fmt) (.l :: letters)
  | q {fmt : List Char} {letters : List Letter} (rest : Format fmt letters) : Format ('q' :: fmt) (.q :: letters)

def Letter.size : Letter → Nat
  | .array n => n.toNat
  | .c => 1
  | .s => 2
  | .l => 4
  | .q => 8

def size (letters : List Letter) : Nat := (letters.map Letter.size).sum

def Fits : Letter → Arg → Prop
  | .array n, .pointer bytes => 0 ≤ n ∧ bytes.length = n.toNat
  | .array _, .number _ => False
  | _, .pointer _ => False
  | letter, .number v => v < 2 ^ (8 * letter.size)

/-- The bytes of every number are all there. -/
def Complete (shifts : Letter → List Nat) : Prop :=
  ∀ letter, (∀ n, letter ≠ .array n) →
    (shifts letter).length = letter.size ∧ Covers (shifts letter) (8 * letter.size)

theorem complete_lshifts : Complete lshifts := by
  intro letter scalar
  cases letter with
  | array n => exact absurd rfl (scalar n)
  | c => exact ⟨rfl, fun i small => ⟨0, by decide, by simp only [Letter.size] at small; omega⟩⟩
  | s =>
    refine ⟨rfl, fun i small => ?_⟩
    simp only [Letter.size] at small
    simp only [lshifts, List.mem_cons, List.not_mem_nil, or_false, exists_eq_or_imp, exists_eq_left]
    omega
  | l =>
    refine ⟨rfl, fun i small => ?_⟩
    simp only [Letter.size] at small
    simp only [lshifts, List.mem_cons, List.not_mem_nil, or_false, exists_eq_or_imp, exists_eq_left]
    omega
  | q =>
    refine ⟨rfl, fun i small => ?_⟩
    simp only [Letter.size] at small
    simp only [lshifts, List.mem_cons, List.not_mem_nil, or_false, exists_eq_or_imp, exists_eq_left]
    omega

theorem bshifts_reverse (letter : Letter) : bshifts letter = (lshifts letter).reverse := by
  cases letter <;> rfl

theorem complete_bshifts : Complete bshifts := by
  intro letter scalar
  rcases complete_lshifts letter scalar with ⟨length, covers⟩
  rw [bshifts_reverse]
  refine ⟨(List.length_reverse).trans length, fun i small => ?_⟩
  rcases covers i small with ⟨k, member, covered⟩
  exact ⟨k, List.mem_reverse.mpr member, covered⟩

variable {shifts : Letter → List Nat} {fmt : List Char} {letters : List Letter}

theorem get_put (complete : Complete shifts) {letter : Letter} {arg : Arg}
    (fits : Fits letter arg) : ∃ bytes, put shifts letter arg = some bytes ∧
      bytes.length = letter.size ∧ ∀ rest, get shifts letter (bytes ++ rest) = some (arg, rest) := by
  have scalar : ∀ letter v, (∀ n, letter ≠ .array n) → v < 2 ^ (8 * letter.size) →
      (scatter (shifts letter) v).length = letter.size ∧ ∀ rest,
        (if (shifts letter).length ≤ (scatter (shifts letter) v ++ rest).length then
          some (Arg.number (gather (shifts letter) (scatter (shifts letter) v ++ rest)),
            (scatter (shifts letter) v ++ rest).drop (shifts letter).length) else none) =
          some (.number v, rest) := by
    intro letter v isScalar small
    rcases complete letter isScalar with ⟨length, covers⟩
    refine ⟨(scatter_length _ _).trans length, fun rest => ?_⟩
    rw [if_pos (by simp), gather_append _ (scatter_length _ _), gather_scatter covers small,
      List.drop_left' (scatter_length _ _)]
  cases letter with
  | array n =>
    cases arg with
    | number v => exact fits.elim
    | pointer bytes =>
      have all : n.toNat = bytes.length := fits.2.symm
      refine ⟨bytes, ?_, fits.2, fun rest => ?_⟩
      · rw [put, if_pos ⟨fits.1, Nat.le_of_eq all⟩, all, List.take_length]
      · rw [get, if_pos ⟨fits.1, by simp [all]⟩, all, List.take_left' rfl, List.drop_left' rfl]
  | c =>
    cases arg with
    | pointer bytes => exact fits.elim
    | number v => exact ⟨_, rfl, scalar .c v (by simp) fits⟩
  | s =>
    cases arg with
    | pointer bytes => exact fits.elim
    | number v => exact ⟨_, rfl, scalar .s v (by simp) fits⟩
  | l =>
    cases arg with
    | pointer bytes => exact fits.elim
    | number v => exact ⟨_, rfl, scalar .l v (by simp) fits⟩
  | q =>
    cases arg with
    | pointer bytes => exact fits.elim
    | number v => exact ⟨_, rfl, scalar .q v (by simp) fits⟩

theorem format_head (format : Format fmt letters) :
    fmt.head?.all (fun c => !c.isDigit && !isspace c && c != '-' && c != '+') = true := by
  cases format <;> rfl

theorem dropWhile_head {p : Char → Bool} (stops : fmt.head?.all (fun c => !p c) = true) :
    fmt.dropWhile p = fmt ∧ fmt.takeWhile p = [] := by
  cases fmt with
  | nil => exact ⟨rfl, rfl⟩
  | cons c fmt =>
    have no : p c = false := by simpa using stops
    exact ⟨List.dropWhile_cons_of_neg (by simp [no]), List.takeWhile_cons_of_neg (by simp [no])⟩

theorem digit_plain {c : Char} (digit : c.isDigit = true) : (!isspace c && c != '-' && c != '+') = true := by
  by_contra other
  simp only [isspace, Bool.and_eq_true, Bool.not_eq_true', Bool.or_eq_false_iff, decide_eq_false_iff_not,
    bne_iff_ne, not_and_or, not_not] at other
  rcases other with (((((((rfl | rfl) | rfl) | rfl) | rfl) | rfl) | rfl) | rfl)
  all_goals cases digit

theorem next_array {count fmt : List Char} (decimal : count.all Char.isDigit = true)
    (int : Numeral.atoi count ≤ INT_MAX) (rest : Format fmt letters) :
    next ('\'' :: (count ++ fmt)) = .letter (.array (Numeral.atoi count)) fmt := by
  have stops : fmt.head?.all (fun c => !c.isDigit) = true := by
    have head := format_head rest
    cases fmt with
    | nil => rfl
    | cons c fmt => simp_all
  have digit : ∀ c ∈ count, c.isDigit = true := List.all_eq_true.mp decimal
  have taken : (count ++ fmt).takeWhile Char.isDigit = count := by
    rw [List.takeWhile_append_of_pos digit, (dropWhile_head stops).2, List.append_nil]
  have dropped : (count ++ fmt).dropWhile Char.isDigit = fmt := by
    rw [List.dropWhile_append_of_pos digit, (dropWhile_head stops).1]
  have number : Numeral.atoi (count ++ fmt) = Numeral.atoi count := by
    unfold Numeral.atoi
    rw [taken, List.takeWhile_eq_self_iff.mpr digit]
  have plain : (count ++ fmt).head?.all (fun c => !isspace c && c != '-' && c != '+') = true := by
    cases count with
    | nil =>
      have head := format_head rest
      cases fmt with
      | nil => rfl
      | cons c fmt => simp_all
    | cons c count => exact digit_plain (digit c List.mem_cons_self)
  have signless : atoi (count ++ fmt) = some (Numeral.atoi count : Int) := by
    unfold atoi
    generalize count ++ fmt = text at plain number
    have here : text.dropWhile isspace = text := by
      cases text with
      | nil => rfl
      | cons c text => exact List.dropWhile_cons_of_neg (by simp_all)
    rw [here]
    split
    · simp at plain
    · simp at plain
    · dsimp only
      rw [number, if_pos int, Int.one_mul]
  simp only [next, signless, dropped]

/-- What is written for a format, and what is read of it. -/
structure Packed (shifts : Letter → List Nat) (fuel : Nat) (fmt : List Char) (letters : List Letter)
    (args : List Arg) (bytes : List UInt8) : Prop where
  length : bytes.length = size letters
  written : packLoop shifts fuel fmt args = some (bytes, true)
  read : ∀ rest, unpackLoop shifts fuel fmt (bytes ++ rest) = some (args, size letters, true)

theorem packed_letter (complete : Complete shifts) {fuel : Nat}
    {fmt fmt' : List Char} {letter : Letter} {arg : Arg} {args : List Arg}
    {bytes : List UInt8} (nonempty : fmt ≠ []) (reads : next fmt = .letter letter fmt')
    (fits : Fits letter arg) (later : Packed shifts fuel fmt' letters args bytes) :
    ∃ bytes', Packed shifts (fuel + 1) fmt (letter :: letters) (arg :: args) bytes' := by
  rcases get_put complete fits with ⟨first, written, length, read⟩
  have total : size (letter :: letters) = letter.size + size letters := by
    rw [size, List.map_cons, List.sum_cons]
    rfl
  refine ⟨first ++ bytes, ?_, ?_, fun rest => ?_⟩
  · rw [List.length_append, length, later.length, total]
  · cases fmt with
    | nil => exact absurd rfl nonempty
    | cons c fmt =>
      unfold packLoop
      rw [reads]
      dsimp only
      rw [written, Option.bind_some, later.written]
      rfl
  · cases fmt with
    | nil => exact absurd rfl nonempty
    | cons c fmt =>
      unfold unpackLoop
      rw [reads]
      dsimp only
      rw [List.append_assoc, read, Option.bind_some, later.read]
      have used : (first ++ (bytes ++ rest)).length - (bytes ++ rest).length = letter.size := by
        rw [List.length_append, length]
        omega
      rw [Option.map_some, used, total]

theorem packed (complete : Complete shifts) (format : Format fmt letters) :
    ∀ (args : List Arg) (fuel : Nat), List.Forall₂ Fits letters args → fmt.length ≤ fuel →
      ∃ bytes, Packed shifts fuel fmt letters args bytes := by
  have step : ∀ {fmt fmt' : List Char} {letter : Letter} {letters : List Letter},
      next fmt = .letter letter fmt' → fmt'.length < fmt.length →
      (∀ (args : List Arg) (fuel : Nat), List.Forall₂ Fits letters args → fmt'.length ≤ fuel →
        ∃ bytes, Packed shifts fuel fmt' letters args bytes) →
      ∀ (args : List Arg) (fuel : Nat), List.Forall₂ Fits (letter :: letters) args → fmt.length ≤ fuel →
        ∃ bytes, Packed shifts fuel fmt (letter :: letters) args bytes := by
    intro fmt fmt' letter letters reads shorter ih args fuel fits enough
    cases fits with
    | cons first others =>
      cases fuel with
      | zero => omega
      | succ fuel =>
        have enough' : fmt'.length ≤ fuel := by omega
        rcases ih _ fuel others enough' with ⟨bytes, later⟩
        have nonempty : fmt ≠ [] := by
          intro empty
          rw [empty] at shorter
          exact Nat.not_lt_zero _ shorter
        exact packed_letter complete nonempty reads first later
  induction format with
  | nil =>
    intro args fuel fits _
    cases fits
    exact ⟨[], rfl, by cases fuel <;> rfl, fun _ => by cases fuel <;> rfl⟩
  | array count decimal int rest ih =>
    have shorter : ∀ fmt : List Char, fmt.length < ('\'' :: (count ++ fmt)).length := by
      intro fmt
      rw [List.length_cons, List.length_append]
      omega
    exact step (next_array decimal int rest) (shorter _) ih
  | c _ ih => exact step rfl (Nat.lt_succ_self _) ih
  | s _ ih => exact step rfl (Nat.lt_succ_self _) ih
  | l _ ih => exact step rfl (Nat.lt_succ_self _) ih
  | q _ ih => exact step rfl (Nat.lt_succ_self _) ih

theorem pack_eq (order : Order) (fmt : List Char) (va : List Arg) : pack order fmt va =
    (packLoop (if order = .LITTLE_ENDIAN then lshifts else bshifts) fmt.length fmt va).map fun r =>
      (r.1, if r.2 then toInt r.1.length else -1) := by
  cases order <;> rfl

theorem unpack_eq (order : Order) (src : List UInt8) (fmt : List Char) : unpack order src fmt =
    (unpackLoop (if order = .LITTLE_ENDIAN then lshifts else bshifts) fmt.length fmt src).map fun r =>
      (r.1, if r.2.2 then toInt r.2.1 else -1) := by
  cases order <;> rfl

theorem pack_unpack (order : Order) (format : Format fmt letters)
    {args : List Arg} (fits : List.Forall₂ Fits letters args) :
    ∃ bytes, bytes.length = size letters ∧ pack order fmt args = some (bytes, toInt (size letters)) ∧
      ∀ rest, unpack order (bytes ++ rest) fmt = some (args, toInt (size letters)) := by
  have complete : Complete (if order = .LITTLE_ENDIAN then lshifts else bshifts) := by
    split_ifs
    · exact complete_lshifts
    · exact complete_bshifts
  rcases packed complete format _ _ fits (Nat.le_refl _) with ⟨bytes, length, written, read⟩
  refine ⟨bytes, length, ?_, fun rest => ?_⟩
  · rw [pack_eq, written, Option.map_some, if_pos rfl, length]
  · rw [unpack_eq, read, Option.map_some, if_pos rfl]

theorem toInt_small {n : Nat} (small : n ≤ INT_MAX) : toInt n = n := by
  unfold INT_MAX at small
  exact Int.bmod_eq_of_le (by omega) (by omega)

/-- What `pack()` writes is as long as the format says, and `unpack()` reads the same values from
it; both return that length if it is an int. -/
theorem unpack_undoes_pack (order : Order) {fmt : List Char} {letters : List Letter}
    (format : Format fmt letters) (small : size letters ≤ INT_MAX) {args : List Arg}
    (fits : List.Forall₂ Fits letters args) :
    ∃ bytes, bytes.length = size letters ∧ pack order fmt args = some (bytes, (size letters : Int)) ∧
      ∀ rest, unpack order (bytes ++ rest) fmt = some (args, (size letters : Int)) := by
  rw [← toInt_small small]
  exact pack_unpack order format fits

theorem unpack_undoes_pack_section_name : ∃ bytes, bytes.length = 6 ∧
      pack .BIG_ENDIAN ['\'', '4', 's'] [.pointer [46, 98, 115, 115], .number 258] = some (bytes, 6) ∧
      ∀ rest, unpack .BIG_ENDIAN (bytes ++ rest) ['\'', '4', 's'] =
        some ([.pointer [46, 98, 115, 115], .number 258], 6) :=
  unpack_undoes_pack .BIG_ENDIAN
    (show Format ['\'', '4', 's'] [.array 4, .s] from .array ['4'] rfl (by decide) (.s .nil)) (by decide)
    (.cons ⟨by decide, rfl⟩ (.cons (by decide : 258 < 2 ^ (8 * 2)) .nil))

/-- The length of two gigabytes is not an int. -/
theorem long_format_count : ¬ ∀ (order : Order) (fmt : List Char) (letters : List Letter),
    Format fmt letters → ∀ args : List Arg, List.Forall₂ Fits letters args →
      ∃ bytes, bytes.length = size letters ∧ pack order fmt args = some (bytes, (size letters : Int)) ∧
        ∀ rest, unpack order (bytes ++ rest) fmt = some (args, (size letters : Int)) := by
  intro all
  have format : Format ('\'' :: ("2147483647".toList ++ ['c'])) [.array 2147483647, .c] :=
    .array "2147483647".toList rfl (by decide) (.c .nil)
  have long : ∃ bytes : List UInt8, bytes.length = 2147483647 :=
    ⟨List.replicate 2147483647 0, List.length_replicate⟩
  rcases long with ⟨array, length⟩
  have fits : List.Forall₂ Fits [.array 2147483647, .c] [.pointer array, .number 0] :=
    .cons ⟨by decide, length⟩ (.cons (by decide : 0 < 2 ^ (8 * 1)) .nil)
  rcases all .LITTLE_ENDIAN _ _ format _ fits with ⟨bytes, _, counted, _⟩
  rcases pack_unpack .LITTLE_ENDIAN format fits with ⟨bytes', _, counted', _⟩
  rw [counted'] at counted
  have same : toInt (size [.array 2147483647, .c]) = (size [.array 2147483647, .c] : Int) :=
    (Prod.mk.inj (Option.some.inj counted)).2
  revert same
  decide

end Scc.Libmach.Pack
