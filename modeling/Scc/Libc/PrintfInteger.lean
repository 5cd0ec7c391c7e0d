import Scc.Libc.Vfprintf
import Mathlib.Data.Nat.Digits.Defs
import Mathlib.Data.List.Induction

/-!
# Integer conversions

A `Directive` is a conversion specification for an integer with its arguments. `prescribed` is what C99
asks for: the value of the type, its digits with the zeros of the precision, the prefix and the sign, and
the padding. The characters that `vfprintf()` writes follow from its flags, which its loops leave.
-/

namespace Scc.Libc.Printf

set_option autoImplicit false

inductive Field
  | absent
  | literal (text : List Char)
  | star (bits : BitVec 64)

inductive Length
  | hh
  | h
  | none
  | l
  | ll
  | j
  | z
  | t
deriving DecidableEq

inductive Conversion
  | d
  | i
  | u
  | o
  | x
  | X
deriving DecidableEq

def readNumber (n : Nat) (text : List Char) : Nat := text.foldl (fun n c => n * 10 + digit c) n

def Field.number : Field → Int
  | .absent => 0
  | .literal text => readNumber 0 text
  | .star bits => int bits

def Field.IsNumber : Field → Prop
  | .literal text => ∀ c ∈ text, c.isDigit = true
  | _ => True

def Field.StartsWithNoZero : Field → Prop
  | .literal text => ∃ c rest, text = c :: rest ∧ c ≠ '0'
  | _ => True

/-- A conversion specification with its arguments; a width or a precision is at most 50. -/
structure Directive where
  flags : List Char
  width : Field
  precision : Field
  length : Length
  conversion : Conversion
  value : BitVec 64
  flagsKnown : ∀ c ∈ flags, c = '-' ∨ c = '+' ∨ c = ' ' ∨ c = '#' ∨ c = '0'
  widthNumber : width.IsNumber
  widthStart : width.StartsWithNoZero
  widthSmall : width.number.natAbs ≤ 50
  precisionNumber : precision.IsNumber
  precisionSmall : precision.number ≤ 50

def Field.text : Field → List Char
  | .absent => []
  | .literal text => text
  | .star _ => ['*']

def Field.args : Field → List Arg
  | .star bits => [.word bits]
  | _ => []

def precisionText : Field → List Char
  | .absent => []
  | field => '.' :: field.text

def Length.text : Length → List Char
  | .hh => ['h', 'h']
  | .h => ['h']
  | .none => []
  | .l => ['l']
  | .ll => ['l', 'l']
  | .j => ['j']
  | .z => ['z']
  | .t => ['t']

def Conversion.char : Conversion → Char
  | .d => 'd'
  | .i => 'i'
  | .u => 'u'
  | .o => 'o'
  | .x => 'x'
  | .X => 'X'

namespace Directive

def text (d : Directive) : List Char :=
  '%' :: (d.flags ++ (d.width.text ++ (precisionText d.precision ++ (d.length.text ++ [d.conversion.char]))))

def args (d : Directive) : List Arg := d.width.args ++ (d.precision.args ++ [.word d.value])

def signed (d : Directive) : Bool := d.conversion = .d || d.conversion = .i

def base (d : Directive) : Nat :=
  match d.conversion with
  | .o => 8
  | .x => 16
  | .X => 16
  | _ => 10

def size (d : Directive) : Nat :=
  match d.length with
  | .hh => 2 ^ 8
  | .h => 2 ^ 16
  | .none => 2 ^ 32
  | _ => 2 ^ 64

/-- A `char` and a `short` are passed as an `int`. -/
def passed (d : Directive) : Int :=
  match d.length with
  | .hh => int d.value
  | .h => int d.value
  | .none => int d.value
  | _ => d.value.toInt

/-- The argument in the type of the length. -/
def converted (d : Directive) : Int := if d.signed then d.passed.bmod d.size else d.passed % d.size

/-- A precision that is given; a negative argument gives none. -/
def precise (d : Directive) : Bool :=
  match d.precision with
  | .absent => false
  | .literal _ => true
  | .star bits => 0 ≤ int bits

def prec (d : Directive) : Nat := if d.precise then d.precision.number.toNat else 1

def digs (d : Directive) : List Char := if d.conversion = .x then lower else upper

def numeral (d : Directive) (n : Nat) : List Char := (Nat.digits d.base n).reverse.map fun i => d.digs.getD i '0'

/-- At least `least` digits, and for `#o` a zero in front. -/
def numberOf (d : Directive) (v : Int) (least : Nat) : List Char :=
  let ds := d.numeral v.natAbs
  let ds := List.replicate (least - ds.length) '0' ++ ds
  if d.base = 8 ∧ '#' ∈ d.flags ∧ ds.head? ≠ some '0' then '0' :: ds else ds

/-- The prefix of `#x` and `#X`. -/
def aheadOf (d : Directive) (v : Int) : List Char :=
  if d.base = 16 ∧ '#' ∈ d.flags ∧ v ≠ 0 then ['0', d.digs.getD 16 'X'] else []

def number (d : Directive) : List Char := d.numberOf d.converted d.prec

def ahead (d : Directive) : List Char := d.aheadOf d.converted

def sign (d : Directive) : List Char :=
  if !d.signed then []
  else if d.converted < 0 then ['-']
  else if '+' ∈ d.flags then ['+']
  else if ' ' ∈ d.flags then [' ']
  else []

def justifiedLeft (d : Directive) : Bool := '-' ∈ d.flags || d.width.number < 0

def prescribed (d : Directive) : List Char :=
  let pad := d.width.number.natAbs - (d.sign ++ d.ahead ++ d.number).length
  if d.justifiedLeft then d.sign ++ d.ahead ++ d.number ++ List.replicate pad ' '
  else if '0' ∈ d.flags ∧ !d.precise then d.sign ++ d.ahead ++ List.replicate pad '0' ++ d.number
  else List.replicate pad ' ' ++ (d.sign ++ d.ahead ++ d.number)

end Directive

variable {c : Char} {flags : List Char} {state : Reading × Conv}

theorem vfprintf_next {r r' : Reading} (next : r.next c = some r') (small : r'.value ≤ INT_MAX)
    (fmt : List Char) (conv : Conv) (p : Printer) :
    vfprintf (c :: fmt) (some (r, conv)) p = vfprintf fmt (some (r', conv)) p := by
  simp only [vfprintf, next, if_pos small]

theorem vfprintf_finish {r : Reading} (other : r.next c = none) (fmt : List Char) (conv : Conv)
    (p : Printer) : vfprintf (c :: fmt) (some (r, conv)) p =
      vfprintf (c :: fmt) (some (.none, r.finish conv)) p := by
  have start : Reading.none.next c = none := by
    unfold Reading.next
    split_ifs <;> rfl
  simp only [vfprintf, other, start]
  rfl

theorem readNumber_le (text : List Char) (n : Nat) : n ≤ readNumber n text := by
  induction text generalizing n with
  | nil => exact Nat.le_refl n
  | cons c text ih =>
    have rest := ih (n * 10 + digit c)
    have first : readNumber n (c :: text) = readNumber (n * 10 + digit c) text := rfl
    rw [first]
    omega

theorem vfprintf_digits (r : Nat → Reading) (next : ∀ n c, c.isDigit = true → (r n).next c = some (r (n * 10 + digit c)))
    (value : ∀ n, (r n).value = n) (text : List Char) (digits : ∀ c ∈ text, c.isDigit = true) (n : Nat)
    (small : readNumber n text ≤ INT_MAX) (fmt : List Char) (conv : Conv) (p : Printer) :
    vfprintf (text ++ fmt) (some (r n, conv)) p = vfprintf fmt (some (r (readNumber n text), conv)) p := by
  induction text generalizing n with
  | nil => rfl
  | cons c text ih =>
    have first : readNumber n (c :: text) = readNumber (n * 10 + digit c) text := rfl
    rw [first] at small ⊢
    have within : (r (n * 10 + digit c)).value ≤ INT_MAX := by
      rw [value]
      exact Nat.le_trans (readNumber_le text _) small
    rw [List.cons_append, vfprintf_next (next n c (digits c List.mem_cons_self)) within]
    exact ih (fun c member => digits c (List.mem_cons_of_mem _ member)) _ small

/-- What a flag makes of the state of the loop. -/
def scanFlag (state : Reading × Conv) (c : Char) : Reading × Conv :=
  match state.1.next c with
  | some reading => (reading, state.2)
  | none =>
    let conv := state.1.finish state.2
    if c = '-' then (.width 0, { conv with left := true }) else (.none, (flag c conv).getD conv)

def signOf (flags : List Char) : Option Char :=
  if '+' ∈ flags then some '+' else if ' ' ∈ flags then some ' ' else none

/-- The state of the loop after the flags; zeros after `-` are read as a width. -/
structure Flagged (flags : List Char) (state : Reading × Conv) : Prop where
  reading : state.1 = .none ∨ (state.1 = .width 0 ∧ '-' ∈ flags)
  conv : ∃ fill, state.2 = ⟨signOf flags, 0, upper, fill, false, '-' ∈ flags,
      if '#' ∈ flags then ALTFORM else 0, 0⟩ ∧
    (fill = '0' ∨ fill = ' ') ∧ (fill = '0' → '0' ∈ flags) ∧ ('0' ∈ flags → '-' ∉ flags → fill = '0')

theorem vfprintf_flag (flagged : Flagged flags state)
    (known : c = '-' ∨ c = '+' ∨ c = ' ' ∨ c = '#' ∨ c = '0') (fmt : List Char) (p : Printer) :
    vfprintf (c :: fmt) (some state) p = vfprintf fmt (some (scanFlag state c)) p := by
  rcases state with ⟨reading, conv⟩
  rcases flagged.reading with start | ⟨start, _⟩ <;> dsimp only at start <;> subst start <;>
    rcases known with rfl | rfl | rfl | rfl | rfl <;> rfl

theorem scan_flag (flagged : Flagged flags state)
    (known : c = '-' ∨ c = '+' ∨ c = ' ' ∨ c = '#' ∨ c = '0') : Flagged (flags ++ [c]) (scanFlag state c) := by
  rcases state with ⟨reading, conv⟩
  rcases flagged.conv with ⟨fill, fields, either, zero, filled⟩
  dsimp only at fields
  subst fields
  rcases flagged.reading with start | ⟨start, minus⟩ <;> dsimp only at start <;> subst start
  · rcases known with rfl | rfl | rfl | rfl | rfl
    · exact ⟨Or.inr ⟨rfl, by simp⟩, fill, by simp [scanFlag, Reading.next, Reading.finish, signOf], either,
        by simpa using zero, by simp⟩
    · exact ⟨Or.inl rfl, fill, by simp [scanFlag, Reading.next, Reading.finish, signOf, flag], either,
        by simpa using zero, by simpa using filled⟩
    · refine ⟨Or.inl rfl, fill, ?_, either, by simpa using zero, by simpa using filled⟩
      by_cases plus : '+' ∈ flags <;> by_cases space : ' ' ∈ flags <;>
        simp [scanFlag, Reading.next, Reading.finish, signOf, flag, plus, space]
    · refine ⟨Or.inl rfl, fill, ?_, either, by simpa using zero, by simpa using filled⟩
      by_cases alternate : '#' ∈ flags <;>
        simp [scanFlag, Reading.next, Reading.finish, signOf, flag, alternate, ALTFORM]
    · exact ⟨Or.inl rfl, '0', by simp [scanFlag, Reading.next, Reading.finish, signOf, flag], Or.inl rfl,
        by simp, by simp⟩
  · rcases known with rfl | rfl | rfl | rfl | rfl
    · exact ⟨Or.inr ⟨rfl, by simp⟩, fill, by simp [scanFlag, Reading.next, Reading.finish, signOf], either,
        by simpa using zero, by simp⟩
    · exact ⟨Or.inl rfl, fill, by simp [scanFlag, Reading.next, Reading.finish, signOf, flag, minus], either,
        by simpa using zero, by simp [minus]⟩
    · refine ⟨Or.inl rfl, fill, ?_, either, by simpa using zero, by simp [minus]⟩
      by_cases plus : '+' ∈ flags <;> by_cases space : ' ' ∈ flags <;>
        simp [scanFlag, Reading.next, Reading.finish, signOf, flag, plus, space, minus]
    · refine ⟨Or.inl rfl, fill, ?_, either, by simpa using zero, by simp [minus]⟩
      by_cases alternate : '#' ∈ flags <;>
        simp [scanFlag, Reading.next, Reading.finish, signOf, flag, alternate, ALTFORM, minus]
    · exact ⟨Or.inr ⟨rfl, by simp [minus]⟩, fill, by simp [scanFlag, Reading.next, signOf], either,
        by simp, by simp [minus]⟩

def scanFlags (flags : List Char) : Reading × Conv := flags.foldl scanFlag (.none, .initial)

theorem scan_flags (flags : List Char) (known : ∀ c ∈ flags, c = '-' ∨ c = '+' ∨ c = ' ' ∨ c = '#' ∨ c = '0') :
    Flagged flags (scanFlags flags) ∧ ∀ fmt p,
      vfprintf (flags ++ fmt) (some (.none, .initial)) p = vfprintf fmt (some (scanFlags flags)) p := by
  induction flags using List.reverseRecOn with
  | nil => exact ⟨⟨Or.inl rfl, ' ', rfl, Or.inr rfl, by decide, by decide⟩, fun _ _ => rfl⟩
  | append_singleton flags c ih =>
    have ⟨flagged, reached⟩ := ih fun c member => known c (List.mem_append_left _ member)
    have last := known c (by simp)
    have state : scanFlags (flags ++ [c]) = scanFlag (scanFlags flags) c := by
      rw [scanFlags, List.foldl_append]
      rfl
    rw [state]
    refine ⟨scan_flag flagged last, fun fmt p => ?_⟩
    rw [List.append_assoc, reached, List.singleton_append, vfprintf_flag flagged last]

theorem next_letter (letter : c.isDigit = false) (r : Reading) : r.next c = none := by
  unfold Reading.next
  rw [letter]
  rfl

theorem vfprintf_first (isDigit : c.isDigit = true) (nonzero : c ≠ '0') (fmt : List Char) (conv : Conv)
    (p : Printer) : vfprintf (c :: fmt) (some (.none, conv)) p =
      vfprintf fmt (some (.width (digit c), conv)) p := by
  have start : Reading.none.next c = none := by simp [Reading.next]
  simp only [vfprintf, start, Reading.finish]
  split
  · simp at isDigit
  · simp at isDigit
  · simp at isDigit
  · simp at isDigit
  · rw [if_pos ⟨isDigit, nonzero⟩]

def Field.width (left : Bool) : Field → Int
  | .absent => 0
  | .literal text => if left then -(readNumber 0 text : Int) else readNumber 0 text
  | .star bits => int bits

theorem vfprintf_width (flagged : Flagged flags state) {width : Field}
    (digits : width.IsNumber) (start : width.StartsWithNoZero) (small : width.number.natAbs ≤ 50)
    (letter : c.isDigit = false) (fmt : List Char) (p : Printer) {args : List Arg} (given : p.args = width.args ++ args) :
    vfprintf (width.text ++ c :: fmt) (some state) p =
      vfprintf (c :: fmt) (some (.none, { state.2 with width := width.width ('-' ∈ flags) })) { p with args } := by
  rcases state with ⟨reading, conv⟩
  rcases flagged.conv with ⟨fill, fields, _⟩
  dsimp only at fields
  subst fields
  cases width with
  | absent =>
    have same : { p with args } = p := by
      rw [show args = p.args from given.symm]
    rw [same]
    rcases flagged.reading with none_ | ⟨zero, _⟩
    · dsimp only at none_
      subst none_
      rfl
    · dsimp only at zero
      subst zero
      rw [Field.text, List.nil_append, vfprintf_finish (next_letter letter _)]
      simp [Reading.finish, Field.width]
  | literal text =>
    have same : { p with args } = p := by
      rw [show args = p.args from given.symm]
    rw [same]
    rcases start with ⟨first, rest, shape, nonzero⟩
    subst shape
    have isDigit : first.isDigit = true := digits first List.mem_cons_self
    have most : readNumber 0 (first :: rest) ≤ 50 := by simpa [Field.number] using small
    have run := vfprintf_digits Reading.width (fun n c isDigit => by simp [Reading.next, isDigit]) (fun _ => rfl)
      rest (fun c member => digits c (List.mem_cons_of_mem _ member)) (digit first)
      (Nat.le_trans (by simpa [readNumber] using most) (by decide)) (c :: fmt)
    have number : readNumber (digit first) rest = readNumber 0 (first :: rest) := by simp [readNumber]
    rw [number] at run
    have firstStep : vfprintf (first :: (rest ++ c :: fmt)) (some (reading, ⟨signOf flags, 0, upper, fill, false,
        '-' ∈ flags, if '#' ∈ flags then ALTFORM else 0, 0⟩)) p =
        vfprintf (rest ++ c :: fmt) (some (.width (digit first), ⟨signOf flags, 0, upper, fill, false,
          '-' ∈ flags, if '#' ∈ flags then ALTFORM else 0, 0⟩)) p := by
      have within : digit first ≤ INT_MAX := by
        have bound := readNumber_le rest (digit first)
        rw [number] at bound
        exact Nat.le_trans (Nat.le_trans bound most) (by decide)
      rcases flagged.reading with none_ | ⟨zero, _⟩
      · dsimp only at none_
        subst none_
        exact vfprintf_first isDigit nonzero _ _ _
      · dsimp only at zero
        subst zero
        exact vfprintf_next (by simp [Reading.next, isDigit])
          (show (Reading.width (digit first)).value ≤ INT_MAX from within) _ _ _
    rw [Field.text, List.cons_append, firstStep, run, vfprintf_finish (next_letter letter _)]
    rfl
  | star bits =>
    have taken : p.int = some (int bits, { p with args }) := by
      rw [Printer.int, given]
      rfl
    have next : reading.next '*' = none := next_letter (by decide) _
    have finished : reading.finish ⟨signOf flags, 0, upper, fill, false, '-' ∈ flags,
        if '#' ∈ flags then ALTFORM else 0, 0⟩ = ⟨signOf flags, 0, upper, fill, false, '-' ∈ flags,
        if '#' ∈ flags then ALTFORM else 0, 0⟩ := by
      rcases flagged.reading with none_ | ⟨zero, _⟩
      · dsimp only at none_
        rw [none_]
        rfl
      · dsimp only at zero
        rw [zero]
        simp [Reading.finish]
    simp only [Field.text, List.singleton_append, vfprintf, next, finished, taken, Option.bind_some]
    rfl

theorem vfprintf_dot (noStar : c ≠ '*') (fmt : List Char) (conv : Conv) (p : Printer) :
    vfprintf ('.' :: c :: fmt) (some (.none, conv)) p = vfprintf (c :: fmt) (some (.prec 0, conv)) p := by
  have start : Reading.none.next '.' = none := next_letter (by decide) _
  generalize tail : c :: fmt = rest
  conv_lhs => rw [vfprintf]
  simp only [start, Reading.finish]
  split
  · cases tail
    exact absurd rfl noStar
  · rfl
  · rename_i dot
    exact absurd dot (by decide)
  · rename_i dot
    exact absurd dot (by decide)
  · rename_i plain _ _ _
    exact (plain rfl).elim

def Field.precision (conv : Conv) : Field → Conv
  | .absent => conv
  | .literal text => { conv with prec := readNumber 0 text, precise := true }
  | .star bits => setPrec (int bits) conv

theorem vfprintf_precision {precision : Field} (digits : precision.IsNumber) (small : precision.number ≤ 50)
    (letter : c.isDigit = false) (noStar : c ≠ '*') (fmt : List Char) (conv : Conv) (p : Printer) {args : List Arg}
    (given : p.args = precision.args ++ args) :
    vfprintf (precisionText precision ++ c :: fmt) (some (.none, conv)) p =
      vfprintf (c :: fmt) (some (.none, precision.precision conv)) { p with args } := by
  cases precision with
  | absent =>
    have same : { p with args } = p := by rw [show args = p.args from given.symm]
    rw [same]
    rfl
  | literal text =>
    have same : { p with args } = p := by rw [show args = p.args from given.symm]
    have most : readNumber 0 text ≤ INT_MAX := by
      have bound : (readNumber 0 text : Int) ≤ 50 := small
      unfold INT_MAX
      omega
    have run := vfprintf_digits Reading.prec (fun n c isDigit => by simp [Reading.next, isDigit]) (fun _ => rfl)
      text digits 0 most (c :: fmt) conv p
    have dot : vfprintf ('.' :: (text ++ c :: fmt)) (some (.none, conv)) p =
        vfprintf (text ++ c :: fmt) (some (.prec 0, conv)) p := by
      cases text with
      | nil => exact vfprintf_dot noStar fmt conv p
      | cons first rest =>
        have isDigit := digits first List.mem_cons_self
        exact vfprintf_dot (by rintro rfl; simp at isDigit) (rest ++ c :: fmt) conv p
    rw [same]
    change vfprintf ('.' :: (text ++ c :: fmt)) _ _ = _
    rw [dot, run, vfprintf_finish (next_letter letter _)]
    rfl
  | star bits =>
    have taken : p.int = some (int bits, { p with args }) := by
      rw [Printer.int, given]
      rfl
    change (p.int.bind fun read => vfprintf (c :: fmt) (some (.none, setPrec read.1 conv)) read.2) = _
    rw [taken]
    rfl

def Length.mark (flags : Nat) : Length → Nat
  | .hh => flags + SHORT + SHORT
  | .h => flags + SHORT
  | .none => flags
  | .l => flags + LONG
  | .ll => flags + LONG + LONG
  | .j => flags ||| INTMAX
  | .z => flags ||| SIZET
  | .t => flags ||| PTRDIFF

theorem vfprintf_length (length : Length) (fmt : List Char) (conv : Conv) (p : Printer) :
    vfprintf (length.text ++ fmt) (some (.none, conv)) p =
      vfprintf fmt (some (.none, { conv with flags := length.mark conv.flags })) p := by
  cases length <;> rfl

theorem vfprintf_conversion (conversion : Conversion) (fmt : List Char) (conv : Conv) (p : Printer) :
    vfprintf (conversion.char :: fmt) (some (.none, conv)) p =
      (convert conversion.char conv p).bind (vfprintf fmt none) := by
  cases conversion <;> rfl

namespace Directive

def fill (d : Directive) : Char := (scanFlags d.flags).2.fill

/-- The flags that a conversion has when it is reached. -/
def marks (d : Directive) : Nat :=
  d.length.mark (if '#' ∈ d.flags then ALTFORM else 0) ||| (if d.signed then 0 else UNSIGNED)

def conv (d : Directive) : Conv :=
  ⟨signOf d.flags, if d.precise then d.precision.number.toNat else 0, d.digs, d.fill, d.precise, '-' ∈ d.flags,
    d.marks, d.width.width ('-' ∈ d.flags)⟩

theorem fill_flags (d : Directive) : (d.fill = '0' ∨ d.fill = ' ') ∧ (d.fill = '0' → '0' ∈ d.flags) ∧
    ('0' ∈ d.flags → '-' ∉ d.flags → d.fill = '0') := by
  rcases (scan_flags d.flags d.flagsKnown).1.conv with ⟨fill, fields, facts⟩
  have same : d.fill = fill := by rw [Directive.fill, fields]
  rw [same]
  exact facts

theorem letters_after (length : Length) (conversion : Conversion) (fmt : List Char) :
    ∃ c rest, length.text ++ ([conversion.char] ++ fmt) = c :: rest ∧ c.isDigit = false ∧ c ≠ '*' := by
  cases length <;> cases conversion <;> exact ⟨_, _, rfl, by decide, by decide⟩

theorem precision_fields (d : Directive) (conv : Conv) (prec : conv.prec = 0) (precise : conv.precise = false) :
    d.precision.precision conv =
      { conv with prec := if d.precise then d.precision.number.toNat else 0, precise := d.precise } := by
  unfold Directive.precise
  cases d.precision with
  | absent =>
    rw [Field.precision]
    cases conv
    cases prec
    cases precise
    rfl
  | literal text => rfl
  | star bits =>
    rw [Field.precision, setPrec]
    by_cases given : 0 ≤ int bits
    · simp [given, Field.number]
    · simp only [given, if_false, decide_false]
      cases conv
      cases prec
      cases precise
      rfl

theorem vfprintf_text (d : Directive) (fmt : List Char) (p : Printer) {args : List Arg}
    (given : p.args = d.args ++ args) : vfprintf (d.text ++ fmt) none p =
      (numeric d.conv d.base { p with args := .word d.value :: args }).bind (vfprintf fmt none) := by
  have ⟨flagged, flags⟩ := scan_flags d.flags d.flagsKnown
  rcases flagged.conv with ⟨fill, fields, _⟩
  have isFill : d.fill = fill := by rw [Directive.fill, fields]
  rcases letters_after d.length d.conversion fmt with ⟨c, rest, shape, letter, noStar⟩
  have head : ∃ c' rest', precisionText d.precision ++ (c :: rest) = c' :: rest' ∧ c'.isDigit = false := by
    cases d.precision with
    | absent => exact ⟨c, rest, rfl, letter⟩
    | literal text => exact ⟨'.', _, rfl, by decide⟩
    | star bits => exact ⟨'.', _, rfl, by decide⟩
  rcases head with ⟨c', rest', shape', letter'⟩
  have text : d.text ++ fmt = '%' :: (d.flags ++ (d.width.text ++ c' :: rest')) := by
    rw [← shape', ← shape]
    simp [Directive.text]
  have opened : ∀ fmt p, vfprintf ('%' :: fmt) none p = vfprintf fmt (some (.none, .initial)) p := fun _ _ => rfl
  rw [Directive.args, List.append_assoc, List.append_assoc] at given
  rw [text, opened, flags,
    vfprintf_width flagged d.widthNumber d.widthStart d.widthSmall letter' rest' p given, ← shape',
    vfprintf_precision d.precisionNumber d.precisionSmall letter noStar rest _ { p with args := _ } rfl, ← shape,
    vfprintf_length, List.singleton_append, vfprintf_conversion, fields, precision_fields _ _ rfl rfl]
  congr 1
  unfold Directive.conv Directive.marks Directive.signed Directive.digs Directive.base
  rw [isFill]
  cases d.conversion with
  | d => simp [convert, Conversion.char]
  | i => simp [convert, Conversion.char]
  | _ => rfl

end Directive

theorem has_marks (length : Length) (alternate signed : Bool) :
    ∀ marks, marks = (length.mark (if alternate then ALTFORM else 0) ||| if signed then 0 else UNSIGNED) →
      has marks CHAR = decide (length = .hh) ∧ has marks SHORT = decide (length = .h) ∧
      has marks LONG = decide (length = .l) ∧ has marks LLONG = decide (length = .ll) ∧
      has marks SIZET = decide (length = .z) ∧ has marks INTMAX = decide (length = .j) ∧
      has marks VOIDPTR = false ∧ has marks UNSIGNED = !signed ∧ has marks ALTFORM = alternate := by
  rintro _ rfl
  cases length <;> cases alternate <;> cases signed <;> decide

theorem digits_numeral (digs : List Char) {base : Nat} (large : 1 < base) (fuel n : Nat) (small : n < base ^ fuel)
    (some_ : fuel ≠ 0) (buf : List Char) : digits digs base fuel n buf =
      (if n = 0 then [digs.getD 0 '0'] else (Nat.digits base n).reverse.map fun i => digs.getD i '0') ++ buf := by
  induction fuel generalizing n buf with
  | zero => exact absurd rfl some_
  | succ fuel ih =>
    rw [digits]
    by_cases more : 0 < n / base
    · have nonzero : n ≠ 0 := by
        rintro rfl
        simp at more
      have fewer : n / base < base ^ fuel := by
        rw [Nat.div_lt_iff_lt_mul (by omega), ← Nat.pow_succ]
        exact small
      have left : fuel ≠ 0 := by
        rintro rfl
        rw [Nat.pow_zero] at fewer
        omega
      rw [if_pos more, ih _ fewer left, if_neg (Nat.ne_of_gt more), if_neg nonzero,
        Nat.digits_def' large (Nat.pos_of_ne_zero nonzero)]
      simp
    · have single : n < base := by
        rw [Nat.pos_iff_ne_zero, not_not, Nat.div_eq_zero_iff_lt (by omega)] at more
        exact more
      rw [if_neg more, Nat.mod_eq_of_lt single]
      split_ifs with zero
      · rw [zero]
        rfl
      · rw [Nat.digits_of_lt base n zero single]
        rfl

namespace Directive

theorem base_large (d : Directive) : 1 < d.base := by
  unfold base
  split <;> decide

/-- What `getnum()` makes of the argument. -/
def given (d : Directive) : Int :=
  if d.signed then
    match d.length with
    | .hh => if int d.value < 0 then int d.value else int d.value % 2 ^ 8
    | .h => if int d.value < 0 then int d.value else int d.value % 2 ^ 16
    | .z => d.value.toNat
    | .t => int d.value
    | _ => d.passed
  else
    match d.length with
    | .t => int d.value % 2 ^ 32
    | _ => d.passed % d.size

def signFor (d : Directive) (v : Int) : Option Char := if d.signed ∧ v < 0 then some '-' else signOf d.flags

theorem int_small (bits : BitVec 64) : -2 ^ 31 ≤ int bits ∧ int bits < 2 ^ 31 :=
  ⟨BitVec.le_toInt _, BitVec.toInt_lt⟩

theorem toInt_small (bits : BitVec 64) : -2 ^ 63 ≤ bits.toInt ∧ bits.toInt < 2 ^ 63 :=
  ⟨BitVec.le_toInt _, BitVec.toInt_lt⟩

theorem toInt_mod (bits : BitVec 64) : bits.toInt % 2 ^ 64 = bits.toNat := by
  have bound := bits.isLt
  rw [BitVec.toInt_eq_toNat_bmod, Int.bmod_def]
  split_ifs <;> omega

theorem getnum_given (d : Directive) :
    getnum d.value d.marks (signOf d.flags) = (d.given.natAbs, d.signFor d.given) := by
  have ⟨char, short, long, llong, sizet, intmax, voidptr, unsigned, _⟩ :=
    has_marks d.length ('#' ∈ d.flags) d.signed d.marks (by simp [marks])
  have narrow := int_small d.value
  have wide := toInt_small d.value
  have whole := toInt_mod d.value
  have bound := d.value.isLt
  unfold getnum given signFor passed size
  rw [char, short, long, llong, sizet, intmax, voidptr, unsigned]
  cases d.signed with
  | true =>
    cases d.length <;> simp <;> split_ifs <;> simp <;> omega
  | false =>
    cases d.length <;> simp <;> omega

end Directive

def isXdigit (c : Char) : Bool := c ∈ "0123456789ABCDEFabcdef".toList

/-- The characters in front of the filling zeros, by the sign and the prefix. -/
def leadLength (sign : Option Char) (ahead : List Char) : Nat :=
  match sign with
  | none => ahead.length
  | some ' ' => 0
  | some _ => 1

theorem prefixLength_digits {ds : List Char} (digits : ∀ c ∈ ds, isXdigit c = true) : prefixLength ds = 0 := by
  unfold prefixLength
  split
  · exact absurd (digits '-' (by simp)) (by decide)
  · exact absurd (digits '+' (by simp)) (by decide)
  · exact absurd (digits 'X' (by simp)) (by decide)
  · exact absurd (digits 'x' (by simp)) (by decide)
  · rfl

theorem prefixLength_lead {sign : Option Char} {ahead ds : List Char}
    (signs : sign = none ∨ sign = some '-' ∨ sign = some '+' ∨ sign = some ' ')
    (prefixes : ahead = [] ∨ ahead = ['0', 'x'] ∨ ahead = ['0', 'X']) (digits : ∀ c ∈ ds, isXdigit c = true) :
    prefixLength (sign.toList ++ ahead ++ ds) = leadLength sign ahead := by
  rcases signs with rfl | rfl | rfl | rfl
  · rcases prefixes with rfl | rfl | rfl
    · exact prefixLength_digits digits
    · rfl
    · rfl
  · rfl
  · rfl
  · rcases prefixes with rfl | rfl | rfl <;> rfl

theorem leadLength_le (sign : Option Char) (ahead : List Char) :
    leadLength sign ahead ≤ (sign.toList ++ ahead).length := by
  unfold leadLength
  split
  · simp
  · exact Nat.zero_le _
  · simp

def layout (sign : Option Char) (ahead ds : List Char) (width : Int) (fill : Char) : List Char :=
  let pad := width.natAbs - (sign.toList ++ ahead ++ ds).length
  let k := if fill = '0' then leadLength sign ahead else 0
  if width < 0 then sign.toList ++ ahead ++ ds ++ List.replicate pad ' '
  else (sign.toList ++ ahead).take k ++ List.replicate pad fill ++ ((sign.toList ++ ahead).drop k ++ ds)

theorem strout_layout {sign : Option Char} {ahead ds : List Char}
    (signs : sign = none ∨ sign = some '-' ∨ sign = some '+' ∨ sign = some ' ')
    (prefixes : ahead = [] ∨ ahead = ['0', 'x'] ∨ ahead = ['0', 'X']) (digits : ∀ c ∈ ds, isXdigit c = true)
    (width : Int) (fill : Char) :
    strout (sign.toList ++ ahead ++ ds) (sign.toList ++ ahead ++ ds).length width fill =
      layout sign ahead ds width fill := by
  have within := leadLength_le sign ahead
  have lead := prefixLength_lead signs prefixes digits
  have cut : ∀ k ≤ (sign.toList ++ ahead).length,
      (sign.toList ++ ahead ++ ds).take k = (sign.toList ++ ahead).take k ∧
      (sign.toList ++ ahead ++ ds).drop k = (sign.toList ++ ahead).drop k ++ ds := by
    intro k small
    rw [List.take_append_of_le_length small, List.drop_append_of_le_length small]
    exact ⟨rfl, rfl⟩
  unfold strout layout
  rw [lead]
  generalize few : (if fill = '0' then leadLength sign ahead else 0) = k
  have small : k ≤ (sign.toList ++ ahead).length := by
    rw [← few]
    split_ifs
    · exact within
    · exact Nat.zero_le _
  have inside : k ≤ (sign.toList ++ ahead ++ ds).length := by
    rw [List.length_append]
    omega
  have rest : ((sign.toList ++ ahead ++ ds).drop k).take ((sign.toList ++ ahead ++ ds).length - k) =
      (sign.toList ++ ahead ++ ds).drop k := List.take_of_length_le (by rw [List.length_drop])
  dsimp only
  rw [if_pos inside, rest]
  split_ifs
  · rw [List.append_nil, List.take_append_drop]
  · rw [(cut k small).1, (cut k small).2, List.append_nil]

namespace Directive

variable (d : Directive)

theorem digs_digit {i : Nat} (small : i < 16) :
    isXdigit (d.digs.getD i '0') = true ∧ d.digs.idxOf (d.digs.getD i '0') = i := by
  have both : ∀ i : Fin 16, (isXdigit (lower.getD i.val '0') = true ∧ lower.idxOf (lower.getD i.val '0') = i.val) ∧
      (isXdigit (upper.getD i.val '0') = true ∧ upper.idxOf (upper.getD i.val '0') = i.val) := by
    decide
  unfold digs
  split_ifs
  · exact (both ⟨i, small⟩).1
  · exact (both ⟨i, small⟩).2

theorem base_small : d.base ≤ 16 := by
  unfold base
  split <;> decide

theorem numeral_digits (n : Nat) : ∀ c ∈ d.numeral n, isXdigit c = true := by
  intro c member
  rcases List.mem_map.mp member with ⟨i, inside, rfl⟩
  have small := Nat.digits_lt_base d.base_large (List.mem_reverse.mp inside)
  exact (d.digs_digit (Nat.lt_of_lt_of_le small d.base_small)).1

theorem numberOf_digits (v : Int) (least : Nat) : ∀ c ∈ d.numberOf v least, isXdigit c = true := by
  have zero : isXdigit '0' = true := by decide
  have padded : ∀ c ∈ List.replicate (least - (d.numeral v.natAbs).length) '0' ++ d.numeral v.natAbs,
      isXdigit c = true := by
    intro c member
    rcases List.mem_append.mp member with filling | inside
    · rw [List.eq_of_mem_replicate filling]
      exact zero
    · exact d.numeral_digits _ c inside
  intro c member
  unfold numberOf at member
  dsimp only at member
  split_ifs at member
  · rcases List.mem_cons.mp member with rfl | inside
    · exact zero
    · exact padded c inside
  · exact padded c member

theorem aheadOf_cases (v : Int) : d.aheadOf v = [] ∨ d.aheadOf v = ['0', 'x'] ∨ d.aheadOf v = ['0', 'X'] := by
  unfold aheadOf digs
  split_ifs
  · exact Or.inr (Or.inl rfl)
  · exact Or.inr (Or.inr rfl)
  · exact Or.inl rfl

theorem signFor_cases (v : Int) :
    d.signFor v = none ∨ d.signFor v = some '-' ∨ d.signFor v = some '+' ∨ d.signFor v = some ' ' := by
  unfold signFor signOf
  split_ifs <;> simp

/-- The precision that the code keeps, at least the one digit of the loop. -/
def least (d : Directive) : Nat := max 1 (if d.precise then d.precision.number.toNat else 0)

theorem numtostr_text (v : Int) (small : v.natAbs < 2 ^ 64) (conv : Conv)
    (sign : conv.sign = d.signFor v) (prec : conv.prec = if d.precise then d.precision.number.toNat else 0)
    (digs : conv.digs = d.digs) :
    numtostr v.natAbs d.marks conv d.base = (d.signFor v).toList ++ d.aheadOf v ++ d.numberOf v d.least := by
  have alternate := (has_marks d.length ('#' ∈ d.flags) d.signed d.marks (by simp [marks])).2.2.2.2.2.2.2.2
  have room : v.natAbs < d.base ^ 64 := Nat.lt_of_lt_of_le small (Nat.pow_le_pow_left d.base_large 64)
  have loop := digits_numeral d.digs d.base_large 64 v.natAbs room (by decide) []
  have zero : d.digs.getD 0 '0' = '0' := by
    unfold Directive.digs
    split_ifs <;> rfl
  have padded : List.replicate (conv.prec - (digits conv.digs d.base 64 v.natAbs []).length) '0' ++
        digits conv.digs d.base 64 v.natAbs [] =
      List.replicate (d.least - (d.numeral v.natAbs).length) '0' ++ d.numeral v.natAbs := by
    rw [digs, loop, List.append_nil, prec, least]
    generalize (if d.precise then d.precision.number.toNat else 0) = given
    by_cases none_ : v.natAbs = 0
    · have empty : d.numeral v.natAbs = [] := by
        rw [none_, numeral, Nat.digits_zero]
        rfl
      rw [if_pos none_, zero, empty, List.length_singleton, List.length_nil, Nat.sub_zero, List.append_nil,
        ← List.replicate_succ']
      congr 1
      omega
    · have some_ : (d.numeral v.natAbs).length ≠ 0 := by
        rw [numeral, List.length_map, List.length_reverse]
        exact fun none' => (Nat.digits_ne_nil_iff_ne_zero.mpr none_) (List.length_eq_zero_iff.mp none')
      rw [if_neg none_]
      change List.replicate (given - (d.numeral v.natAbs).length) '0' ++ d.numeral v.natAbs = _
      congr 2
      omega
  have body : numtostr v.natAbs d.marks conv d.base =
      conv.sign.toList ++ (d.aheadOf v ++ d.numberOf v d.least) := by
    unfold numtostr aheadOf numberOf
    dsimp only
    rw [padded, alternate, digs]
    cases conv.sign <;> by_cases alt : '#' ∈ d.flags <;> by_cases octal : d.base = 8 <;>
      by_cases hex : d.base = 16 <;> by_cases none_ : v = 0 <;> simp_all
  rw [body, sign, List.append_assoc]

theorem given_small : d.given.natAbs < 2 ^ 64 := by
  have narrow := int_small d.value
  have wide := toInt_small d.value
  have bound := d.value.isLt
  unfold given passed size
  cases d.signed with
  | true => cases d.length <;> simp <;> try split_ifs
            all_goals omega
  | false => cases d.length <;> simp <;> omega

/-- The characters of the text before it is padded. -/
def textFor (d : Directive) (v : Int) : List Char := (d.signFor v).toList ++ d.aheadOf v ++ d.numberOf v d.least

/-- What `vfprintf()` writes, when the text fits the buffer. -/
def shown (d : Directive) (v : Int) : List Char :=
  layout (d.signFor v) (d.aheadOf v) (d.numberOf v d.least) (d.width.width ('-' ∈ d.flags)) d.fill

theorem numeric_given (p : Printer) (args : List Arg) :
    numeric d.conv d.base { p with args := .word d.value :: args } =
      if (d.textFor d.given).length ≤ MAXPREC then some ({ p with args }.add (.text (d.shown d.given))) else none := by
  have prec : min d.conv.prec MAXPREC = if d.precise then d.precision.number.toNat else 0 := by
    have small := d.precisionSmall
    have same : d.conv.prec = if d.precise then d.precision.number.toNat else 0 := rfl
    rw [same]
    apply Nat.min_eq_left
    unfold MAXPREC
    split_ifs <;> omega
  have text : numtostr d.given.natAbs d.conv.flags { d.conv with
      prec := min d.conv.prec MAXPREC
      sign := d.signFor d.given } d.base = d.textFor d.given :=
    d.numtostr_text d.given d.given_small _ rfl prec rfl
  have number : getnum d.value d.conv.flags d.conv.sign = (d.given.natAbs, d.signFor d.given) := getnum_given d
  unfold numeric
  dsimp only
  rw [number]
  dsimp only
  rw [text]
  unfold shown
  rw [← strout_layout (d.signFor_cases _) (d.aheadOf_cases _) (d.numberOf_digits _ _)]
  rfl

/-- The number that is read from a text, whatever else is in it. -/
def read (d : Directive) (n : Nat) (text : List Char) : Nat :=
  text.foldl (fun n c => if isXdigit c then n * d.base + d.digs.idxOf c else n) n

theorem read_append (n : Nat) (first second : List Char) :
    d.read n (first ++ second) = d.read (d.read n first) second := List.foldl_append

theorem read_lead {lead : List Char} (zeros : ∀ c ∈ lead, c = '0' ∨ isXdigit c = false) :
    d.read 0 lead = 0 := by
  have zero : d.digs.idxOf '0' = 0 := by
    unfold digs
    split_ifs <;> decide
  induction lead with
  | nil => rfl
  | cons c lead ih =>
    have first : (if isXdigit c then 0 * d.base + d.digs.idxOf c else 0) = 0 := by
      rcases zeros c List.mem_cons_self with rfl | other
      · rw [zero]
        simp
      · rw [other]
        rfl
    have rest := ih fun c member => zeros c (List.mem_cons_of_mem _ member)
    unfold read at rest ⊢
    rw [List.foldl_cons, first]
    exact rest

theorem read_trail (n : Nat) {trail : List Char} (others : ∀ c ∈ trail, isXdigit c = false) :
    d.read n trail = n := by
  induction trail with
  | nil => rfl
  | cons c trail ih =>
    have rest := ih fun c member => others c (List.mem_cons_of_mem _ member)
    unfold read at rest ⊢
    rw [List.foldl_cons, others c List.mem_cons_self]
    exact rest

theorem read_numeral (n : Nat) : d.read 0 (d.numeral n) = n := by
  have large := d.base_large
  have reads : ∀ ds : List Nat, (∀ i ∈ ds, i < d.base) →
      d.read 0 (ds.reverse.map fun i => d.digs.getD i '0') = Nat.ofDigits d.base ds := by
    intro ds
    induction ds with
    | nil =>
      intro _
      rfl
    | cons i ds ih =>
      intro below
      have small := Nat.lt_of_lt_of_le (below i List.mem_cons_self) d.base_small
      have ⟨isDigit, index⟩ := d.digs_digit small
      have rest := ih fun i member => below i (List.mem_cons_of_mem _ member)
      rw [List.reverse_cons, List.map_append, read_append, rest, List.map_singleton]
      change (if isXdigit (d.digs.getD i '0') then _ else _) = _
      rw [if_pos isDigit, index, Nat.ofDigits_cons]
      rw [Nat.mul_comm, Nat.add_comm]
  rw [numeral, reads _ fun i member => Nat.digits_lt_base large member, Nat.ofDigits_digits]

theorem read_numberOf (v : Int) (least : Nat) : d.read 0 (d.numberOf v least) = v.natAbs := by
  have padded : d.read 0 (List.replicate (least - (d.numeral v.natAbs).length) '0' ++ d.numeral v.natAbs) = v.natAbs := by
    rw [read_append, d.read_lead fun c member => Or.inl (List.eq_of_mem_replicate member), read_numeral]
  unfold numberOf
  dsimp only
  split_ifs
  · have lead : d.read 0 ['0'] = 0 := d.read_lead fun c member => Or.inl (List.mem_singleton.mp member)
    rw [← List.singleton_append, read_append, lead]
    exact padded
  · exact padded

theorem read_text (v : Int) (least : Nat) {lead trail : List Char}
    (zeros : ∀ c ∈ lead, c = '0' ∨ isXdigit c = false) (others : ∀ c ∈ trail, isXdigit c = false) :
    d.read 0 (lead ++ d.numberOf v least ++ trail) = v.natAbs := by
  rw [read_append, read_append, d.read_lead zeros, read_numberOf, d.read_trail _ others]

theorem lead_characters (v : Int) :
    ∀ c ∈ (d.signFor v).toList ++ d.aheadOf v, c = '0' ∨ isXdigit c = false := by
  intro c member
  rcases List.mem_append.mp member with isSign | isAhead
  · rcases d.signFor_cases v with same | same | same | same
    · rw [same] at isSign
      cases isSign
    all_goals
      rw [same] at isSign
      rw [List.mem_singleton.mp isSign]
      exact Or.inr (by decide)
  · rcases d.aheadOf_cases v with same | same | same <;> rw [same] at isAhead <;> simp at isAhead
    all_goals
      rcases isAhead with rfl | rfl
      · exact Or.inl rfl
      · exact Or.inr (by decide)

theorem blanks (n : Nat) : ∀ c ∈ List.replicate n ' ', isXdigit c = false := by
  intro c member
  rw [List.eq_of_mem_replicate member]
  decide

theorem sign_signFor : d.sign = if d.signed then (d.signFor d.converted).toList else [] := by
  unfold sign signFor signOf
  cases d.signed with
  | false => rfl
  | true =>
    simp only [Bool.not_true, Bool.false_eq_true, if_false, if_true, true_and]
    split_ifs <;> rfl

theorem sign_characters : ∀ c ∈ d.sign ++ d.ahead, c = '0' ∨ isXdigit c = false := by
  intro c member
  apply d.lead_characters d.converted c
  rw [sign_signFor] at member
  rcases List.mem_append.mp member with isSign | isAhead
  · split_ifs at isSign
    · exact List.mem_append_left _ isSign
    · cases isSign
  · exact List.mem_append_right _ isAhead

theorem read_shown (v : Int) : d.read 0 (d.shown v) = v.natAbs := by
  unfold shown layout
  dsimp only
  split_ifs with negative
  · exact d.read_text v d.least (d.lead_characters v) (blanks _)
  all_goals
    rw [← List.append_assoc, ← List.append_nil (_ ++ d.numberOf v d.least)]
    apply d.read_text v d.least
    · intro c member
      rw [List.mem_append, List.mem_append] at member
      rcases member with (front | filling) | back
      · exact d.lead_characters v c (List.mem_of_mem_take front)
      · rw [List.eq_of_mem_replicate filling]
        rcases d.fill_flags.1 with zero | blank
        · exact Or.inl zero
        · rw [blank]
          exact Or.inr (by decide)
      · exact d.lead_characters v c (List.mem_of_mem_drop back)
    · intro c member
      cases member

theorem read_prescribed : d.read 0 d.prescribed = d.converted.natAbs := by
  unfold prescribed number
  dsimp only
  split_ifs
  · exact d.read_text d.converted d.prec d.sign_characters (blanks _)
  · rw [← List.append_nil (_ ++ d.numberOf d.converted d.prec)]
    apply d.read_text d.converted d.prec
    · intro c member
      rcases List.mem_append.mp member with front | filling
      · exact d.sign_characters c front
      · exact Or.inl (List.eq_of_mem_replicate filling)
    · intro c member
      cases member
  · rw [← List.append_assoc, ← List.append_nil (_ ++ d.numberOf d.converted d.prec)]
    apply d.read_text d.converted d.prec
    · intro c member
      rcases List.mem_append.mp member with filling | front
      · exact Or.inr (blanks _ c filling)
      · exact d.sign_characters c front
    · intro c member
      cases member

theorem width_natAbs : (d.width.width ('-' ∈ d.flags)).natAbs = d.width.number.natAbs := by
  unfold Field.width Field.number
  cases d.width with
  | absent => rfl
  | literal text =>
    dsimp only
    split_ifs <;> omega
  | star bits => rfl

theorem mem_shown (v : Int) (c : Char) : c ∈ d.shown v ↔ c ∈ d.textFor v ∨
    c ∈ List.replicate (d.width.number.natAbs - (d.textFor v).length)
      (if d.width.width ('-' ∈ d.flags) < 0 then ' ' else d.fill) := by
  unfold shown layout textFor
  dsimp only
  rw [width_natAbs]
  generalize (if d.fill = '0' then leadLength (d.signFor v) (d.aheadOf v) else 0) = k
  split_ifs
  · exact List.mem_append
  · have whole : c ∈ (d.signFor v).toList ++ d.aheadOf v ↔
        c ∈ ((d.signFor v).toList ++ d.aheadOf v).take k ∨ c ∈ ((d.signFor v).toList ++ d.aheadOf v).drop k := by
      rw [← List.mem_append, List.take_append_drop]
    simp only [List.mem_append] at whole ⊢
    tauto

theorem length_shown (v : Int) : (d.shown v).length = max d.width.number.natAbs (d.textFor v).length := by
  unfold shown layout textFor
  dsimp only
  rw [width_natAbs]
  generalize (if d.fill = '0' then leadLength (d.signFor v) (d.aheadOf v) else 0) = k
  split_ifs
  · rw [List.length_append, List.length_replicate]
    omega
  · have whole : (((d.signFor v).toList ++ d.aheadOf v).take k).length +
        (((d.signFor v).toList ++ d.aheadOf v).drop k).length = ((d.signFor v).toList ++ d.aheadOf v).length := by
      rw [← List.length_append, List.take_append_drop]
    simp only [List.length_append, List.length_replicate] at whole ⊢
    omega

theorem length_prescribed :
    d.prescribed.length = max d.width.number.natAbs (d.sign ++ d.ahead ++ d.number).length := by
  unfold prescribed
  dsimp only
  split_ifs
  all_goals
    simp only [List.length_append, List.length_replicate]
    omega

theorem int_mod (bits : BitVec 64) : int bits % 2 ^ 32 = (bits.toNat : Int) % 2 ^ 32 := by
  rw [int, BitVec.toInt_eq_toNat_bmod, BitVec.toNat_setWidth, Int.bmod_def]
  split_ifs <;> omega

/-- `getnum()` reads the argument in the type of its length. -/
def Representable (d : Directive) : Prop :=
  if d.signed then
    match d.length with
    | .hh => if int d.value < 0 then -2 ^ 7 ≤ int d.value else int d.value % 2 ^ 8 < 2 ^ 7
    | .h => if int d.value < 0 then -2 ^ 15 ≤ int d.value else int d.value % 2 ^ 16 < 2 ^ 15
    | .z => 0 ≤ d.value.toInt
    | .t => d.value.toInt = int d.value
    | _ => True
  else
    match d.length with
    | .t => d.value.toNat < 2 ^ 32
    | _ => True

theorem given_iff : d.given = d.converted ↔ d.Representable := by
  have narrow := int_small d.value
  have wide := toInt_small d.value
  have whole := toInt_mod d.value
  have low := int_mod d.value
  have bound := d.value.isLt
  unfold given converted Representable passed size
  cases d.signed with
  | true =>
    cases d.length <;> simp [Int.bmod_def] <;> split_ifs <;> omega
  | false =>
    cases d.length <;> simp
    omega

/-- The condition on a specification and its arguments. `textFor` is the text before it is padded, with
the sign that the flags ask for. -/
structure Kept (d : Directive) : Prop where
  value : d.Representable
  room : (d.textFor d.converted).length ≤ MAXPREC
  digits : ¬ (d.converted = 0 ∧ d.precise = true ∧ d.prec = 0 ∧ ¬ (d.base = 8 ∧ '#' ∈ d.flags))
  signs : d.signed = false → '+' ∉ d.flags ∧ (' ' ∈ d.flags → d.justifiedLeft = false ∧
    (d.textFor d.converted).length ≤ d.width.number.natAbs ∧ ('0' ∈ d.flags → d.precise = true))
  minus : (d.textFor d.converted).length < d.width.number.natAbs → '-' ∈ d.flags →
    ∀ bits, d.width = .star bits → int bits < 0
  zeros : (d.textFor d.converted).length < d.width.number.natAbs → d.justifiedLeft = false → '0' ∈ d.flags →
    d.precise = false ∧ d.signFor d.converted ≠ some ' '

/-- The digits are the prescribed ones unless the prescribed text has none. -/
theorem number_same (digits : ¬ (d.converted = 0 ∧ d.precise = true ∧ d.prec = 0 ∧
    ¬ (d.base = 8 ∧ '#' ∈ d.flags))) : d.numberOf d.converted d.least = d.number := by
  unfold number least prec at *
  cases given : d.precise with
  | false => rfl
  | true =>
    rw [given] at digits
    simp only [if_true, true_and] at digits ⊢
    by_cases positive : d.precision.number.toNat = 0
    · rw [positive] at digits ⊢
      unfold numberOf
      by_cases zero : d.converted = 0
      · have octal : d.base = 8 ∧ '#' ∈ d.flags := by
          by_contra other
          exact digits ⟨zero, rfl, other⟩
        rw [zero]
        simp [octal, numeral]
      · have some_ : (d.numeral d.converted.natAbs).length ≠ 0 := by
          rw [numeral, List.length_map, List.length_reverse]
          exact fun none' => (Nat.digits_ne_nil_iff_ne_zero.mpr (by omega)) (List.length_eq_zero_iff.mp none')
        have fewer : max 1 0 - (d.numeral d.converted.natAbs).length = 0 := by omega
        dsimp only
        rw [fewer, Nat.zero_sub]
    · congr 1
      omega

theorem numberOf_nonempty (v : Int) : d.numberOf v d.least ≠ [] := by
  unfold numberOf
  dsimp only
  split_ifs
  · exact List.cons_ne_nil _ _
  · intro empty
    have lengths := congrArg List.length empty
    rw [List.length_append, List.length_replicate, List.length_nil] at lengths
    have one : 1 ≤ d.least := Nat.le_max_left _ _
    omega

theorem last_shown (v : Int) (right : ¬ d.width.width ('-' ∈ d.flags) < 0) :
    (d.shown v).getLast? ≠ some ' ' := by
  intro last
  unfold shown layout at last
  dsimp only at last
  rw [if_neg right, ← List.append_assoc, List.getLast?_append] at last
  cases ends : (d.numberOf v d.least).getLast? with
  | none => exact d.numberOf_nonempty v (List.getLast?_eq_none_iff.mp ends)
  | some c =>
    have isDigit := d.numberOf_digits v d.least c (List.mem_of_getLast? ends)
    rw [ends, Option.some_or] at last
    rw [Option.some.inj last] at isDigit
    exact absurd isDigit (by decide)

theorem last_prescribed (left : d.justifiedLeft = true)
    (pads : (d.sign ++ d.ahead ++ d.number).length < d.width.number.natAbs) :
    d.prescribed.getLast? = some ' ' := by
  have some_ : d.width.number.natAbs - (d.sign ++ d.ahead ++ d.number).length ≠ 0 := by omega
  rcases Nat.exists_eq_succ_of_ne_zero some_ with ⟨n, size⟩
  unfold prescribed
  dsimp only
  rw [if_pos left, size, List.replicate_succ', ← List.append_assoc, List.getLast?_concat]

theorem head_prescribed (right : d.justifiedLeft = false) (blank : ¬ ('0' ∈ d.flags ∧ !d.precise))
    (pads : (d.sign ++ d.ahead ++ d.number).length < d.width.number.natAbs) :
    d.prescribed.head? = some ' ' := by
  have some_ : d.width.number.natAbs - (d.sign ++ d.ahead ++ d.number).length ≠ 0 := by omega
  rcases Nat.exists_eq_succ_of_ne_zero some_ with ⟨n, size⟩
  unfold prescribed
  dsimp only
  rw [if_neg (by rw [right]; decide), if_neg blank, size, List.replicate_succ]
  rfl

theorem head_filled (v : Int) (right : ¬ d.width.width ('-' ∈ d.flags) < 0) (zeros : d.fill = '0')
    (pads : (d.textFor v).length < d.width.number.natAbs) : (d.shown v).head? ≠ some ' ' := by
  have some_ : d.width.number.natAbs - ((d.signFor v).toList ++ d.aheadOf v ++ d.numberOf v d.least).length ≠ 0 := by
    unfold textFor at pads
    omega
  rcases Nat.exists_eq_succ_of_ne_zero some_ with ⟨n, size⟩
  unfold shown layout
  dsimp only
  rw [width_natAbs, if_neg right, if_pos zeros, size, zeros, List.replicate_succ]
  rcases d.signFor_cases v with same | same | same | same <;> rw [same]
  · rcases d.aheadOf_cases v with ahead | ahead | ahead <;> rw [ahead] <;> simp [leadLength]
  · simp [leadLength]
  · simp [leadLength]
  · simp [leadLength]

theorem text_lengths (number : d.numberOf d.converted d.least = d.number) :
    (d.textFor d.converted).length = (d.signFor d.converted).toList.length + (d.ahead ++ d.number).length ∧
      (d.sign ++ d.ahead ++ d.number).length =
        (if d.signed then (d.signFor d.converted).toList.length else 0) + (d.ahead ++ d.number).length := by
  have ahead : d.aheadOf d.converted = d.ahead := rfl
  rw [textFor, number, ahead, sign_signFor]
  constructor
  · simp only [List.length_append]
    omega
  · cases d.signed with
    | true =>
      simp only [List.length_append, if_true]
      omega
    | false => simp

theorem right_width (right : d.justifiedLeft = false) :
    '-' ∉ d.flags ∧ ¬ d.width.width ('-' ∈ d.flags) < 0 := by
  unfold justifiedLeft at right
  rw [Bool.or_eq_false_iff, decide_eq_false_iff_not, decide_eq_false_iff_not] at right
  refine ⟨right.1, ?_⟩
  have positive := right.2
  unfold Field.width Field.number at *
  cases width : d.width with
  | absent => simp
  | literal text => simp [right.1]
  | star bits =>
    rw [width] at positive
    exact positive

theorem left_width (left : d.justifiedLeft = true) (some_ : 0 < d.width.number.natAbs)
    (minus : '-' ∈ d.flags → ∀ bits, d.width = .star bits → int bits < 0) :
    d.width.width ('-' ∈ d.flags) < 0 := by
  unfold justifiedLeft at left
  rw [Bool.or_eq_true, decide_eq_true_eq, decide_eq_true_eq] at left
  cases width : d.width with
  | absent =>
    rw [width] at some_
    exact absurd some_ (by decide)
  | literal text =>
    rw [width] at some_ left
    unfold Field.number at some_ left
    dsimp only at some_ left
    rcases left with dash | negative
    · unfold Field.width
      simp only [dash, decide_true, if_true]
      omega
    · omega
  | star bits =>
    rw [width] at left
    rcases left with dash | negative
    · exact minus dash bits width
    · exact negative

theorem shown_unpadded (v : Int) (long : d.width.number.natAbs ≤ (d.textFor v).length) :
    d.shown v = d.textFor v := by
  have none_ : d.width.number.natAbs - ((d.signFor v).toList ++ d.aheadOf v ++ d.numberOf v d.least).length = 0 :=
    Nat.sub_eq_zero_of_le long
  unfold shown layout
  dsimp only
  rw [width_natAbs, none_, List.replicate_zero, List.replicate_zero, List.append_nil, List.append_nil]
  split_ifs
  · rfl
  all_goals
    rw [← List.append_assoc, List.take_append_drop]
    rfl

theorem shown_left (v : Int) (left : d.width.width ('-' ∈ d.flags) < 0) : d.shown v =
    d.textFor v ++ List.replicate (d.width.number.natAbs - (d.textFor v).length) ' ' := by
  unfold shown layout
  dsimp only
  rw [width_natAbs, if_pos left]
  rfl

theorem shown_blank (v : Int) (right : ¬ d.width.width ('-' ∈ d.flags) < 0) (blank : d.fill ≠ '0') :
    d.shown v = List.replicate (d.width.number.natAbs - (d.textFor v).length) ' ' ++ d.textFor v := by
  have space : d.fill = ' ' := d.fill_flags.1.resolve_left blank
  unfold shown layout
  dsimp only
  rw [width_natAbs, if_neg right, if_neg blank, space, List.take_zero, List.drop_zero, List.nil_append]
  rfl

theorem shown_zeros (v : Int) (right : ¬ d.width.width ('-' ∈ d.flags) < 0) (zeros : d.fill = '0')
    (front : leadLength (d.signFor v) (d.aheadOf v) = ((d.signFor v).toList ++ d.aheadOf v).length) : d.shown v =
      (d.signFor v).toList ++ d.aheadOf v ++
        List.replicate (d.width.number.natAbs - (d.textFor v).length) '0' ++ d.numberOf v d.least := by
  unfold shown layout
  dsimp only
  rw [width_natAbs, if_neg right, if_pos zeros, zeros, front, List.take_length, List.drop_length, List.nil_append]
  rfl

theorem signed_base (isSigned : d.signed = true) : d.base = 10 := by
  unfold signed at isSigned
  unfold base
  cases conversion : d.conversion <;> rw [conversion] at isSigned <;> simp at isSigned ⊢

theorem signed_ahead (isSigned : d.signed = true) (v : Int) : d.aheadOf v = [] := by
  rw [aheadOf, d.signed_base isSigned, if_neg (by simp)]

theorem shown_of_kept (kept : d.Kept) : d.shown d.converted = d.prescribed := by
  have number := d.number_same kept.digits
  have ahead : d.aheadOf d.converted = d.ahead := rfl
  have text : d.textFor d.converted = (d.signFor d.converted).toList ++ d.ahead ++ d.number := by
    rw [textFor, number, ahead]
  by_cases plain : d.sign = (d.signFor d.converted).toList
  · rw [prescribed, plain, ← text]
    by_cases pads : (d.textFor d.converted).length < d.width.number.natAbs
    · cases side : d.justifiedLeft with
      | true =>
        have left := d.left_width side (by omega) (kept.minus pads)
        rw [if_pos rfl, d.shown_left _ left]
      | false =>
        have ⟨noDash, right⟩ := d.right_width side
        rw [if_neg (by decide)]
        by_cases zero : '0' ∈ d.flags
        · have ⟨vague, noSpace⟩ := kept.zeros pads side zero
          have front : leadLength (d.signFor d.converted) (d.aheadOf d.converted) =
              ((d.signFor d.converted).toList ++ d.aheadOf d.converted).length := by
            cases isSigned : d.signed with
            | true =>
              rw [d.signed_ahead isSigned]
              rcases d.signFor_cases d.converted with same | same | same | same
              · rw [same]
                rfl
              · rw [same]
                rfl
              · rw [same]
                rfl
              · exact absurd same noSpace
            | false =>
              rw [sign_signFor, isSigned] at plain
              have none_ : d.signFor d.converted = none := by
                cases sign : d.signFor d.converted with
                | none => rfl
                | some c =>
                  rw [sign] at plain
                  cases plain
              rw [none_]
              rfl
          rw [if_pos ⟨zero, by rw [vague]; rfl⟩, d.shown_zeros _ right (d.fill_flags.2.2 zero noDash) front, number,
            ahead]
        · have blank : d.fill ≠ '0' := fun same => zero (d.fill_flags.2.1 same)
          rw [if_neg fun both => zero both.1, d.shown_blank _ right blank]
    · have none_ := Nat.sub_eq_zero_of_le (Nat.le_of_not_lt pads)
      rw [d.shown_unpadded _ (Nat.le_of_not_lt pads), none_, List.replicate_zero, List.replicate_zero,
        List.append_nil, List.append_nil, List.nil_append, text]
      split_ifs <;> rfl
  · cases isSigned : d.signed with
    | true =>
      rw [sign_signFor, isSigned] at plain
      exact absurd rfl plain
    | false =>
      have ⟨noPlus, spaced⟩ := kept.signs isSigned
      have noSign : d.sign = [] := by rw [sign_signFor, isSigned]; rfl
      have sign : d.signFor d.converted = if ' ' ∈ d.flags then some ' ' else none := by
        rw [signFor, isSigned, if_neg (by simp), signOf, if_neg noPlus]
      have space : ' ' ∈ d.flags := by
        by_contra none_
        rw [sign, if_neg none_] at plain
        exact plain noSign
      rw [if_pos space] at sign
      have ⟨side, wide, filled⟩ := spaced space
      have ⟨noDash, right⟩ := d.right_width side
      have blankFirst : ¬ ('0' ∈ d.flags ∧ (!d.precise) = true) := by
        rintro ⟨zero, vague⟩
        rw [filled zero] at vague
        cases vague
      have lengths := d.text_lengths number
      rw [isSigned, sign] at lengths
      have one : (d.sign ++ d.ahead ++ d.number).length + 1 = (d.textFor d.converted).length := by
        rw [lengths.1, lengths.2]
        simp
        omega
      have pads : d.width.number.natAbs - (d.sign ++ d.ahead ++ d.number).length =
          d.width.number.natAbs - (d.textFor d.converted).length + 1 := by omega
      have target : d.prescribed =
          List.replicate (d.width.number.natAbs - (d.textFor d.converted).length) ' ' ++ d.textFor d.converted := by
        rw [prescribed, if_neg (by rw [side]; decide), if_neg blankFirst, pads, List.replicate_succ', text, sign, noSign]
        simp
      rw [target]
      by_cases zero : d.fill = '0'
      · have narrow : ¬ (d.textFor d.converted).length < d.width.number.natAbs := by
          intro pads
          exact (kept.zeros pads side (d.fill_flags.2.1 zero)).2 sign
        rw [d.shown_unpadded _ (Nat.le_of_not_lt narrow), Nat.sub_eq_zero_of_le (Nat.le_of_not_lt narrow)]
        rfl
      · exact d.shown_blank _ right zero

theorem signs_shown (v : Int) {c : Char} (isSign : c = '-' ∨ c = '+') :
    c ∈ d.shown v ↔ d.signFor v = some c := by
  have noDigit : isXdigit c = false := by
    rcases isSign with rfl | rfl <;> decide
  have noAhead : c ∉ d.aheadOf v := by
    rcases d.aheadOf_cases v with same | same | same <;> rw [same] <;> rcases isSign with rfl | rfl <;> decide
  have noNumber : c ∉ d.numberOf v d.least := by
    intro member
    rw [d.numberOf_digits v d.least c member] at noDigit
    cases noDigit
  have noFill : ∀ n, c ∉ List.replicate n (if d.width.width ('-' ∈ d.flags) < 0 then ' ' else d.fill) := by
    intro n member
    have same := List.eq_of_mem_replicate member
    rcases d.fill_flags.1 with zero | blank
    · rw [zero] at same
      split_ifs at same <;> rcases isSign with rfl | rfl <;> exact absurd same (by decide)
    · rw [blank] at same
      split_ifs at same <;> rcases isSign with rfl | rfl <;> exact absurd same (by decide)
  rw [mem_shown, textFor]
  simp only [List.mem_append, noAhead, noNumber, noFill, or_false, Option.mem_toList]

theorem signs_prescribed {c : Char} (isSign : c = '-' ∨ c = '+') :
    c ∈ d.prescribed ↔ d.signed = true ∧ d.signFor d.converted = some c := by
  have noDigit : isXdigit c = false := by
    rcases isSign with rfl | rfl <;> decide
  have noAhead : c ∉ d.ahead := by
    rcases d.aheadOf_cases d.converted with same | same | same <;> rw [ahead, same] <;>
      rcases isSign with rfl | rfl <;> decide
  have noNumber : c ∉ d.number := by
    intro member
    rw [d.numberOf_digits d.converted d.prec c member] at noDigit
    cases noDigit
  have noBlank : ∀ n, c ∉ List.replicate n ' ' := by
    intro n member
    have same := List.eq_of_mem_replicate member
    rcases isSign with rfl | rfl <;> exact absurd same (by decide)
  have noZero : ∀ n, c ∉ List.replicate n '0' := by
    intro n member
    have same := List.eq_of_mem_replicate member
    rcases isSign with rfl | rfl <;> exact absurd same (by decide)
  have inSign : c ∈ d.sign ↔ d.signed = true ∧ d.signFor d.converted = some c := by
    rw [sign_signFor]
    cases d.signed <;> simp
  rw [← inSign]
  unfold prescribed
  dsimp only
  split_ifs <;> simp only [List.mem_append, noAhead, noNumber, noBlank, noZero, or_false, false_or]

theorem minus_iff (v : Int) : d.signFor v = some '-' ↔ d.signed = true ∧ v < 0 := by
  unfold signFor signOf
  constructor
  · intro same
    split_ifs at same with negative
    · exact negative
    · cases Option.some.inj same
    · cases Option.some.inj same
  · intro negative
    rw [if_pos negative]

theorem value_of_text (same : d.shown d.given = d.prescribed) : d.given = d.converted := by
  have magnitude : d.given.natAbs = d.converted.natAbs := by
    rw [← d.read_shown, same, d.read_prescribed]
  have minus : (d.signed = true ∧ d.given < 0) ↔ (d.signed = true ∧ d.converted < 0) := by
    have first := d.signs_shown d.given (Or.inl rfl)
    have second := d.signs_prescribed (Or.inl rfl)
    rw [minus_iff] at first second
    rw [← first, same, second]
    tauto
  cases isSigned : d.signed with
  | true =>
    rw [isSigned] at minus
    simp only [true_and] at minus
    omega
  | false =>
    have positive : 0 ≤ d.given ∧ 0 ≤ d.converted := by
      have positiveSize : 0 < d.size := by
        unfold size
        split <;> decide
      unfold given converted
      rw [isSigned]
      simp only [Bool.false_eq_true, if_false]
      refine ⟨?_, Int.emod_nonneg _ (by omega)⟩
      split
      · exact Int.emod_nonneg _ (by decide)
      · exact Int.emod_nonneg _ (by omega)
    omega

theorem digits_of_text (same : d.shown d.converted = d.prescribed) :
    ¬ (d.converted = 0 ∧ d.precise = true ∧ d.prec = 0 ∧ ¬ (d.base = 8 ∧ '#' ∈ d.flags)) := by
  rintro ⟨zero, given, none_, other⟩
  rcases List.exists_mem_of_ne_nil _ (d.numberOf_nonempty d.converted) with ⟨c, member⟩
  have isDigit := d.numberOf_digits _ _ c member
  have inText : c ∈ d.prescribed := by
    rw [← same, mem_shown]
    exact Or.inl (List.mem_append_right _ member)
  have empty : d.number = [] := by
    rw [number, numberOf, none_, zero]
    simp [numeral, other]
  have noAhead : d.ahead = [] := by
    rw [ahead, aheadOf, if_neg (fun both => both.2.2 zero)]
  have noSign : c ∉ d.sign := by
    intro inSign
    rcases d.sign_characters c (List.mem_append_left _ inSign) with rfl | noDigit
    · rw [sign_signFor] at inSign
      rcases d.signFor_cases d.converted with sign | sign | sign | sign <;> rw [sign] at inSign <;>
        split_ifs at inSign <;> simp at inSign
    · rw [isDigit] at noDigit
      cases noDigit
  have noBlank : ∀ n, c ∉ List.replicate n ' ' := by
    intro n inBlanks
    rw [blanks n c inBlanks] at isDigit
    cases isDigit
  rw [prescribed, empty, noAhead, given, if_neg (show ¬ ('0' ∈ d.flags ∧ (!true) = true) by simp)] at inText
  split_ifs at inText <;> simp only [List.mem_append, noSign, noBlank, List.not_mem_nil, or_false] at inText

theorem kept_of_shown (room : (d.textFor d.given).length ≤ MAXPREC)
    (same : d.shown d.given = d.prescribed) : d.Kept := by
  have value := d.value_of_text same
  rw [value] at room same
  have digits := d.digits_of_text same
  have number := d.number_same digits
  have lengths := d.text_lengths number
  have total := congrArg List.length same
  rw [length_shown, length_prescribed] at total
  have signs : d.signed = false → '+' ∉ d.flags ∧ (' ' ∈ d.flags → d.justifiedLeft = false ∧
      (d.textFor d.converted).length ≤ d.width.number.natAbs ∧ ('0' ∈ d.flags → d.precise = true)) := by
    intro isSigned
    have noSign : d.sign = [] := by rw [sign_signFor, isSigned]; rfl
    have noPlus : '+' ∉ d.flags := by
      intro plus
      have sign : d.signFor d.converted = some '+' := by
        rw [signFor, isSigned, if_neg (by simp), signOf, if_pos plus]
      have inText := (d.signs_shown d.converted (Or.inr rfl)).mpr sign
      rw [same, signs_prescribed d (Or.inr rfl), isSigned] at inText
      cases inText.1
    refine ⟨noPlus, fun space => ?_⟩
    have sign : d.signFor d.converted = some ' ' := by
      rw [signFor, isSigned, if_neg (by simp), signOf, if_neg noPlus, if_pos space]
    rw [isSigned, sign] at lengths
    simp only [Option.toList_some, List.length_singleton, Bool.false_eq_true, if_false, Nat.zero_add] at lengths
    have wide : (d.textFor d.converted).length ≤ d.width.number.natAbs := by omega
    have pads : (d.sign ++ d.ahead ++ d.number).length < d.width.number.natAbs := by omega
    have side : d.justifiedLeft = false := by
      cases left : d.justifiedLeft with
      | false => rfl
      | true =>
        have last := d.last_prescribed left pads
        by_cases negative : d.width.width ('-' ∈ d.flags) < 0
        · have first : d.prescribed.head? = some ' ' := by
            rw [← same, d.shown_left _ negative, textFor, sign]
            rfl
          have someNumber : d.number ≠ [] := number ▸ d.numberOf_nonempty d.converted
          rcases List.exists_cons_of_ne_nil someNumber with ⟨c, rest, shape⟩
          have isDigit := d.numberOf_digits d.converted d.prec c (by
            change c ∈ d.number
            rw [shape]
            exact List.mem_cons_self)
          unfold prescribed at first
          dsimp only at first
          rw [if_pos left, noSign, shape] at first
          rcases d.aheadOf_cases d.converted with same | same | same <;> rw [ahead, same] at first <;>
            simp at first
          rw [first] at isDigit
          exact absurd isDigit (by decide)
        · exact absurd (same ▸ last) (d.last_shown d.converted negative)
    refine ⟨side, wide, fun zero => ?_⟩
    by_contra vague
    have inText : ' ' ∈ d.prescribed := by
      rw [← same, mem_shown, textFor, sign]
      exact Or.inl (by simp)
    unfold prescribed at inText
    dsimp only at inText
    rw [if_neg (by rw [side]; decide), if_pos ⟨zero, by simpa using vague⟩, noSign] at inText
    have noAhead : ' ' ∉ d.ahead := by
      rcases d.aheadOf_cases d.converted with same | same | same <;> rw [ahead, same] <;> decide
    have noNumber : ' ' ∉ d.number := fun member => absurd (d.numberOf_digits _ _ ' ' member) (by decide)
    simp [noAhead, noNumber] at inText
  have shorter : (d.sign ++ d.ahead ++ d.number).length ≤ (d.textFor d.converted).length := by
    rw [lengths.1, lengths.2]
    split_ifs <;> omega
  refine ⟨d.given_iff.mp value, room, digits, signs, ?_, ?_⟩
  · intro pads dash bits width
    by_contra positive
    have left : d.justifiedLeft = true := by
      unfold justifiedLeft
      simp [dash]
    have right : ¬ d.width.width ('-' ∈ d.flags) < 0 := by
      rw [width]
      exact positive
    have last := d.last_prescribed left (by omega)
    rw [← same] at last
    exact d.last_shown d.converted right last
  · intro pads side zero
    have ⟨noDash, right⟩ := d.right_width side
    have first := d.head_filled d.converted right (d.fill_flags.2.2 zero noDash) pads
    rw [same] at first
    have vague : d.precise = false := by
      cases given : d.precise with
      | false => rfl
      | true => exact absurd (d.head_prescribed side (by rw [given]; simp) (by omega)) first
    refine ⟨vague, fun sign => ?_⟩
    cases isSigned : d.signed with
    | true =>
      apply first
      unfold prescribed
      dsimp only
      rw [if_neg (by rw [side]; decide), if_pos ⟨zero, by rw [vague]; rfl⟩, sign_signFor, isSigned, sign]
      rfl
    | false =>
      have space : ' ' ∈ d.flags := by
        rw [signFor, isSigned, if_neg (by simp), signOf] at sign
        split_ifs at sign with plus space
        · cases Option.some.inj sign
        · exact space
      have given := ((signs isSigned).2 space).2.2 zero
      rw [vague] at given
      cases given

/-- A specification for an integer, with every combination of its parts and every argument, writes what
C99 prescribes exactly when it is kept. -/
theorem printed_iff (d : Directive) : (∀ fmt p args, p.args = d.args ++ args →
    vfprintf (d.text ++ fmt) none p = vfprintf fmt none ({ p with args }.add (.text d.prescribed))) ↔ d.Kept := by
  have run : ∀ fmt p args, p.args = d.args ++ args → vfprintf (d.text ++ fmt) none p =
      (if (d.textFor d.given).length ≤ MAXPREC then some ({ p with args }.add (.text (d.shown d.given)))
        else none).bind (vfprintf fmt none) := by
    intro fmt p args given
    rw [d.vfprintf_text fmt p given, numeric_given]
  constructor
  · intro all
    have single := all [] ⟨d.args, false, []⟩ [] (List.append_nil _).symm
    rw [run _ _ _ (List.append_nil _).symm] at single
    split_ifs at single with room
    · have pieces := congrArg Printer.pieces (Option.some.inj single)
      have text : Piece.text (d.shown d.given) = Piece.text d.prescribed := (List.cons.inj pieces).1
      exact d.kept_of_shown room (Piece.text.inj text)
    · cases single
  · intro kept fmt p args given
    have value := d.given_iff.mpr kept.value
    rw [run fmt p args given, value, if_pos kept.room, d.shown_of_kept kept]
    rfl

/-- `%+u` of 1. -/
def plusUnsigned : Directive where
  flags := ['+']
  width := .absent
  precision := .absent
  length := .none
  conversion := .u
  value := 1
  flagsKnown := by simp
  widthNumber := trivial
  widthStart := trivial
  widthSmall := by decide
  precisionNumber := trivial
  precisionSmall := by decide

theorem plus_unsigned_signed : ¬ ∀ (d : Directive) fmt p args, p.args = d.args ++ args →
    vfprintf (d.text ++ fmt) none p = vfprintf fmt none ({ p with args }.add (.text d.prescribed)) := by
  intro all
  have pieces := congrArg (Option.map Printer.pieces)
    (all plusUnsigned [] ⟨[.word 1], false, []⟩ [] rfl)
  revert pieces
  decide

end Directive

end Scc.Libc.Printf
