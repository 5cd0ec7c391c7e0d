import Scc.Cc1.Lex
import Scc.Lib.Numeral

/-!
# Integer literals

`number()` takes the digits and the suffix of a literal, and `readint()` reads the value. The type begins
as the one that the suffix names and is promoted in the middle of the digits, when the number read so
far does not fit.
-/

namespace Scc.Cc1.Number

open Scc.Cc1.Lex Scc.Lib

set_option autoImplicit false

inductive Base
  | octal | decimal | hex
deriving DecidableEq

def Base.radix : Base → Nat
  | .octal => 8
  | .decimal => 10
  | .hex => 16

inductive Size
  | INT | LONG | LLONG
deriving DecidableEq

inductive IntType
  | int | uint | long | ulong | llong | ullong
deriving DecidableEq

/-- The sizes of the integer types of a target. -/
structure Target where
  size : Size → Nat
  sizes : ∀ s, size s = 1 ∨ size s = 2 ∨ size s = 4 ∨ size s = 8

namespace IntType

def signed : IntType → Bool
  | .int | .long | .llong => true
  | .uint | .ulong | .ullong => false

def size : IntType → Size
  | .int | .uint => .INT
  | .long | .ulong => .LONG
  | .llong | .ullong => .LLONG

/-- The place in the order of the promotions. -/
def rank : IntType → Nat
  | .int => 0
  | .uint => 1
  | .long => 2
  | .ulong => 3
  | .llong => 4
  | .ullong => 5

end IntType

def ctype (sign : Bool) : Size → IntType
  | .INT => if sign then .uint else .int
  | .LONG => if sign then .ulong else .long
  | .LLONG => if sign then .ullong else .llong

/-- `max.i` of the limits. -/
def limit (nbytes : Nat) (signed : Bool) : UInt64 :=
  match nbytes with
  | 1 => if signed then 0x7f else 0xff
  | 2 => if signed then 0x7fff else 0xffff
  | 4 => if signed then 0x7fffffff else 0xffffffff
  | _ => if signed then 0x7fffffffffffffff else 0xffffffffffffffff

def getlimits (target : Target) (tp : IntType) : UInt64 := limit (target.size tp.size) tp.signed

/-- The type after `tp`. `sign` says that the suffix has an `U`. -/
def next (base : Base) (sign : Bool) (tp : IntType) : Option IntType :=
  if tp.signed then
    if tp = .int then some (if base = .decimal then .long else .uint)
    else if tp = .long then some (if base = .decimal then .llong else .ulong)
    else none
  else
    if tp = .uint then some (if sign then .ulong else .long)
    else if tp = .ulong then some (if sign then .ullong else .llong)
    else none

theorem next_rank {base : Base} {sign : Bool} {tp tp' : IntType}
    (following : next base sign tp = some tp') : tp.rank < tp'.rank := by
  revert following
  cases base <;> cases sign <;> cases tp <;> cases tp' <;> decide

theorem rank_le (tp : IntType) : tp.rank ≤ 5 := by
  cases tp <;> decide

def room (base : Base) (max u val : UInt64) : Bool :=
  u ≤ max / base.radix.toUInt64 && u * base.radix.toUInt64 ≤ max - val

/-- The jumps to `repeat` for one digit. -/
def promote (target : Target) (base : Base) (sign : Bool) (u val : UInt64) (tp : IntType) :
    Option IntType :=
  if room base (getlimits target tp) u val then some tp
  else
    match _following : next base sign tp with
    | none => none
    | some tp' => promote target base sign u val tp'
termination_by 5 - tp.rank
decreasing_by
  have more := next_rank ‹next base sign tp = some tp'›
  have bound := rank_le tp'
  omega

/-- The loop over the digits: the type and the value, or an overflow. -/
def readdigits (target : Target) (base : Base) (sign : Bool) :
    Text → UInt64 → IntType → Option (IntType × UInt64)
  | [], u, tp => some (tp, u)
  | c :: s, u, tp =>
    match digit c with
    | none => some (tp, u)
    | some val =>
      (promote target base sign u val.toUInt64 tp).bind fun tp =>
        readdigits target base sign s (u * base.radix.toUInt64 + val.toUInt64) tp

def skip (p : Char → Bool) : Text → Text
  | [] => []
  | c :: s => if p c then s else c :: s

def readint (target : Target) (s : Text) (base : Base) (sign : Bool) (tp : IntType) :
    Option (IntType × UInt64) :=
  readdigits target base sign (skip (fun c => c = 'x' || c = 'X') (skip (· = '0') s)) 0 tp

/-- The loop of `integer()` over the suffix. -/
def suffix : Text → Size → Bool → Option (Size × Bool × Text)
  | [], size, sign => some (size, sign, [])
  | c :: p, size, sign =>
    if c = 'l' ∨ c = 'L' then
      if size = .LLONG then none
      else suffix p (if size = .LONG then .LLONG else .LONG) sign
    else if c = 'u' ∨ c = 'U' then
      if sign then none else suffix p size true
    else some (size, sign, c :: p)

inductive Error
  | suffix | tooBig | overflow
deriving DecidableEq

/-- The characters that `digits()` takes. -/
def inBase (base : Base) (c : Char) : Bool :=
  match digit c with
  | none => false
  | some d => d < base.radix

/-- `integer()` from the digits on, for a token that begins with `head`. -/
def integer (target : Target) (base : Base) (head p : Text) :
    Except Error ((IntType × UInt64) × Text) :=
  match suffix (p.dropWhile (inBase base)) .INT false with
  | none => .error .suffix
  | some (size, sign, rest) =>
    let yytext := head ++ p.take (p.length - rest.length)
    if yytext.length > INTIDENTSIZ then .error .tooBig
    else
      match readint target yytext base sign (ctype sign size) with
      | none => .error .overflow
      | some value => .ok (value, rest)

def number (target : Target) : Text → Except Error ((IntType × UInt64) × Text)
  | '0' :: c :: p =>
    if c = 'x' ∨ c = 'X' then integer target .hex ['0', c] p
    else integer target .octal ['0'] (c :: p)
  | '0' :: p => integer target .octal ['0'] p
  | p => integer target .decimal [] p

/-- The types of 6.4.4.1 for a base and a suffix. -/
def candidates (base : Base) (sign : Bool) (size : Size) : List IntType :=
  match base, sign, size with
  | .decimal, false, .INT => [.int, .long, .llong]
  | .decimal, false, .LONG => [.long, .llong]
  | .decimal, false, .LLONG => [.llong]
  | _, false, .INT => [.int, .uint, .long, .ulong, .llong, .ullong]
  | _, false, .LONG => [.long, .ulong, .llong, .ullong]
  | _, false, .LLONG => [.llong, .ullong]
  | _, true, .INT => [.uint, .ulong, .ullong]
  | _, true, .LONG => [.ulong, .ullong]
  | _, true, .LLONG => [.ullong]

/-- The text of a literal without its suffix. -/
structure Literal where
  base : Base
  digits : Text
  mark : Char
  valid : ∀ c ∈ digits, ∃ d < base.radix, digit c = some d
  marked : mark = 'x' ∨ mark = 'X'
  leading : base = .decimal → ∃ c rest, digits = c :: rest ∧ c ≠ '0'

namespace Literal

def text (lit : Literal) : Text :=
  match lit.base with
  | .octal => '0' :: lit.digits
  | .decimal => lit.digits
  | .hex => '0' :: lit.mark :: lit.digits

def value (lit : Literal) : Nat :=
  Numeral.value lit.base.radix (fun c => (digit c).getD 0) lit.digits

end Literal

/-- The type and the value that C gives a literal, unless no type of the list has the value. -/
def meaning (target : Target) (lit : Literal) (sign : Bool) (size : Size) : Option (IntType × Nat) :=
  ((candidates lit.base sign size).find? fun tp => lit.value ≤ (getlimits target tp).toNat).map
    fun tp => (tp, lit.value)

/-- What `readint()` gives. -/
def outcome (target : Target) (lit : Literal) (sign : Bool) (size : Size) (sfx : Text) :
    Option (IntType × Nat) :=
  (readint target (lit.text ++ sfx) lit.base sign (ctype sign size)).map fun (tp, u) => (tp, u.toNat)

/-- No type of the list but the last has the value. -/
def OnlyUllong (target : Target) (lit : Literal) (sign : Bool) (size : Size) : Prop :=
  (∀ tp ∈ candidates lit.base sign size, tp ≠ .ullong → (getlimits target tp).toNat < lit.value) ∧
    lit.value ≤ (getlimits target .ullong).toNat

theorem limit_lower {nbytes : Nat} (sizes : nbytes = 1 ∨ nbytes = 2 ∨ nbytes = 4 ∨ nbytes = 8)
    (signed : Bool) : 0x7f ≤ (limit nbytes signed).toNat := by
  rcases sizes with rfl | rfl | rfl | rfl <;> cases signed <;> decide

theorem getlimits_lower (target : Target) (tp : IntType) : 0x7f ≤ (getlimits target tp).toNat :=
  limit_lower (target.sizes tp.size) tp.signed

theorem radix_toNat (base : Base) : base.radix.toUInt64.toNat = base.radix := by
  cases base <;> decide

theorem radix_table (base : Base) : base.radix = 8 ∨ base.radix = 10 ∨ base.radix = 16 := by
  cases base <;> decide

variable {d : Nat} {sfx : Text}

theorem room_iff {base : Base} {max u : UInt64} (small : d < 16) (large : 0x7f ≤ max.toNat) :
    room base max u d.toUInt64 = true ↔ u.toNat * base.radix + d ≤ max.toNat := by
  have pos : 0 < base.radix := by
    have table := radix_table base
    omega
  have digit : d.toUInt64.toNat = d := by
    rw [Nat.toUInt64_eq, UInt64.toNat_ofNat']
    exact Nat.mod_eq_of_lt (by omega)
  have bound := max.toNat_lt
  have quotient : u ≤ max / base.radix.toUInt64 ↔ u.toNat * base.radix ≤ max.toNat := by
    rw [UInt64.le_iff_toNat_le, UInt64.toNat_div, radix_toNat, Nat.le_div_iff_mul_le pos]
  have rest : (max - d.toUInt64).toNat = max.toNat - d := by
    rw [UInt64.toNat_sub_of_le, digit]
    rw [UInt64.le_iff_toNat_le, digit]
    omega
  have product : u.toNat * base.radix ≤ max.toNat →
      (u * base.radix.toUInt64).toNat = u.toNat * base.radix := by
    intro le
    rw [UInt64.toNat_mul, radix_toNat]
    exact Nat.mod_eq_of_lt (by omega)
  simp only [room, Bool.and_eq_true, decide_eq_true_eq]
  rw [quotient, UInt64.le_iff_toNat_le, rest]
  constructor
  · rintro ⟨le, below⟩
    rw [product le] at below
    omega
  · intro fits
    have le : u.toNat * base.radix ≤ max.toNat := by omega
    rw [product le]
    omega

theorem next_number {base : Base} {max u : UInt64} (fits : u.toNat * base.radix + d ≤ max.toNat) :
    (u * base.radix.toUInt64 + d.toUInt64).toNat = u.toNat * base.radix + d := by
  have bound := max.toNat_lt
  rw [UInt64.toNat_add, UInt64.toNat_mul, radix_toNat, Nat.toUInt64_eq, UInt64.toNat_ofNat', ← Nat.add_mod]
  exact Nat.mod_eq_of_lt (by omega)

/-- The types that the promotions go through. -/
def promotions (base : Base) (sign : Bool) : IntType → List IntType
  | .int =>
    if base = .decimal then [.int, .long, .llong]
    else if sign then [.int, .uint, .ulong, .ullong]
    else [.int, .uint, .long, .ulong, .llong]
  | .uint =>
    if sign then [.uint, .ulong, .ullong]
    else if base = .decimal then [.uint, .long, .llong]
    else [.uint, .long, .ulong, .llong]
  | .long =>
    if base = .decimal then [.long, .llong]
    else if sign then [.long, .ulong, .ullong]
    else [.long, .ulong, .llong]
  | .ulong => if sign then [.ulong, .ullong] else [.ulong, .llong]
  | .llong => [.llong]
  | .ullong => [.ullong]

theorem promotions_next (base : Base) (sign : Bool) (tp : IntType) :
    promotions base sign tp = tp :: ((next base sign tp).map (promotions base sign)).getD [] := by
  cases base <;> cases sign <;> cases tp <;> decide

variable {target : Target} {base : Base} {sign : Bool}

theorem promote_eq {u : UInt64} (small : d < 16) (tp : IntType) : promote target base sign u d.toUInt64 tp =
      (promotions base sign tp).find? fun tp => u.toNat * base.radix + d ≤ (getlimits target tp).toNat := by
  induction tp using promote.induct target base sign u d.toUInt64 with
  | case1 tp fits =>
    rw [promote, if_pos fits, promotions_next, List.find?_cons_of_pos]
    rw [decide_eq_true_eq, ← room_iff small (getlimits_lower target tp)]
    exact fits
  | case2 tp full last =>
    rw [room_iff small (getlimits_lower target tp)] at full
    rw [promotions_next, last, List.find?_cons_of_neg]
    · rw [promote, if_neg (by rwa [room_iff small (getlimits_lower target tp)])]
      split
      · rfl
      · rename_i following
        rw [last] at following
        cases following
    · rw [decide_eq_true_eq]
      exact full
  | case3 tp full tp' following ih =>
    rw [room_iff small (getlimits_lower target tp)] at full
    rw [promotions_next, following, List.find?_cons_of_neg]
    · rw [promote, if_neg (by rwa [room_iff small (getlimits_lower target tp)])]
      split
      · rename_i last
        rw [following] at last
        cases last
      · rename_i tp'' same
        rw [following] at same
        cases same
        exact ih
    · rw [decide_eq_true_eq]
      exact full

def more (base : Base) (digits : Text) (n : Nat) : Nat :=
  digits.foldl (fun v c => v * base.radix + (digit c).getD 0) n

theorem le_more (base : Base) (digits : Text) (n : Nat) : n ≤ more base digits n := by
  induction digits generalizing n with
  | nil => exact Nat.le_refl n
  | cons c digits ih =>
    have pos : 1 ≤ base.radix := by
      have table := radix_table base
      omega
    have larger := Nat.mul_le_mul_left n pos
    have rest := ih (n * base.radix + (digit c).getD 0)
    change n ≤ more base digits (n * base.radix + (digit c).getD 0)
    omega

/-- The first type of the promotions with room for a number. -/
def fitting (target : Target) (base : Base) (sign : Bool) (tp : IntType) (n : Nat) : Option IntType :=
  (promotions base sign tp).find? fun tp => n ≤ (getlimits target tp).toNat

theorem fitting_here {tp : IntType} {n : Nat} (fits : n ≤ (getlimits target tp).toNat) :
    fitting target base sign tp n = some tp := by
  rw [fitting, promotions_next, List.find?_cons_of_pos]
  exact decide_eq_true fits

theorem fitting_next {tp : IntType} {n : Nat} (full : ¬ n ≤ (getlimits target tp).toNat) :
    fitting target base sign tp n = (next base sign tp).bind fun tp => fitting target base sign tp n := by
  rw [fitting, promotions_next, List.find?_cons_of_neg]
  · cases next base sign tp <;> rfl
  · rw [decide_eq_true_eq]
    exact full

theorem fitting_larger {n n' : Nat} (larger : n ≤ n') (tp : IntType) : fitting target base sign tp n' =
      (fitting target base sign tp n).bind fun tp => fitting target base sign tp n' := by
  induction measure : 5 - tp.rank using Nat.strongRecOn generalizing tp with
  | ind m ih =>
    by_cases fits : n ≤ (getlimits target tp).toNat
    · rw [fitting_here fits]
      rfl
    · have full : ¬ n' ≤ (getlimits target tp).toNat := by omega
      rw [fitting_next fits, fitting_next full]
      cases following : next base sign tp with
      | none => rfl
      | some tp' =>
        have higher := next_rank following
        have bound := rank_le tp'
        exact ih (5 - tp'.rank) (by omega) tp' rfl

theorem fitting_fits {tp tp' : IntType} {n : Nat} (found : fitting target base sign tp n = some tp') :
    n ≤ (getlimits target tp').toNat := by
  have fits := List.find?_some found
  exact of_decide_eq_true fits

theorem readdigits_eq (stop : ∀ c ∈ sfx.head?, digit c = none) (digits : Text)
    (valid : ∀ c ∈ digits, ∃ d < base.radix, digit c = some d) (u : UInt64) (tp : IntType)
    (fits : u.toNat ≤ (getlimits target tp).toNat) :
    (readdigits target base sign (digits ++ sfx) u tp).map (fun (tp, u) => (tp, u.toNat)) =
      (fitting target base sign tp (more base digits u.toNat)).map
        fun tp => (tp, more base digits u.toNat) := by
  induction digits generalizing u tp with
  | nil =>
    have here := @fitting_here target base sign tp u.toNat fits
    change _ = (fitting target base sign tp u.toNat).map fun tp => (tp, u.toNat)
    rw [here, List.nil_append]
    cases sfx with
    | nil => rfl
    | cons c rest =>
      rw [readdigits, stop c rfl]
      rfl
  | cons c digits ih =>
    have ⟨d, below, known⟩ := valid c List.mem_cons_self
    have table := radix_table base
    have value : more base (c :: digits) u.toNat = more base digits (u.toNat * base.radix + d) := by
      unfold more
      rw [List.foldl_cons, known]
      rfl
    have larger := le_more base digits (u.toNat * base.radix + d)
    rw [value, fitting_larger larger, List.cons_append, readdigits, known]
    dsimp only
    rw [promote_eq (by omega)]
    change ((fitting target base sign tp (u.toNat * base.radix + d)).bind _).map _ = _
    cases found : fitting target base sign tp (u.toNat * base.radix + d) with
    | none => rfl
    | some tp' =>
      have room := fitting_fits found
      have number := next_number room
      have later := ih (fun c member => valid c (List.mem_cons_of_mem _ member))
        (u * base.radix.toUInt64 + d.toUInt64) tp' (by rw [number]; exact room)
      rw [number] at later
      exact later

theorem suffix_letters {sfx rest : Text} {size size' : Size} {sign sign' : Bool}
    (accepted : suffix sfx size sign = some (size', sign', rest)) (whole : rest = []) :
    ∀ c ∈ sfx.head?, digit c = none ∧ c ≠ 'x' ∧ c ≠ 'X' := by
  intro c member
  cases sfx with
  | nil => cases member
  | cons first p =>
    cases member
    by_cases long : c = 'l' ∨ c = 'L'
    · rcases long with rfl | rfl <;> decide
    · by_cases unsigned : c = 'u' ∨ c = 'U'
      · rcases unsigned with rfl | rfl <;> decide
      · rw [suffix, if_neg long, if_neg unsigned] at accepted
        cases accepted
        cases whole

theorem skip_mark {text : Text} (unmarked : ∀ c ∈ text.head?, c ≠ 'x' ∧ c ≠ 'X') :
    skip (fun c => c = 'x' || c = 'X') text = text := by
  cases text with
  | nil => rfl
  | cons c rest =>
    have ⟨small, large⟩ := unmarked c rfl
    rw [skip, if_neg]
    simp [small, large]

theorem digit_unmarked {c : Char} (known : digit c = some d) : c ≠ 'x' ∧ c ≠ 'X' := by
  constructor
  · rintro rfl
    cases known
  · rintro rfl
    cases known

theorem digits_unmarked {lit : Literal} {sfx : Text}
    (stop : ∀ c ∈ sfx.head?, digit c = none ∧ c ≠ 'x' ∧ c ≠ 'X') :
    ∀ c ∈ (lit.digits ++ sfx).head?, c ≠ 'x' ∧ c ≠ 'X' := by
  intro c member
  cases split : lit.digits with
  | nil =>
    rw [split] at member
    exact (stop c member).2
  | cons first rest =>
    rw [split] at member
    cases member
    have ⟨d, _, known⟩ := lit.valid c (by rw [split]; exact List.mem_cons_self)
    exact digit_unmarked known

theorem readint_digits (lit : Literal) (sign : Bool) (tp : IntType)
    (stop : ∀ c ∈ sfx.head?, digit c = none ∧ c ≠ 'x' ∧ c ≠ 'X') :
    readint target (lit.text ++ sfx) lit.base sign tp =
      readdigits target lit.base sign (lit.digits ++ sfx) 0 tp := by
  have unmarked := @digits_unmarked lit sfx stop
  unfold readint
  congr 1
  cases base : lit.base with
  | octal =>
    have text : lit.text = '0' :: lit.digits := by
      unfold Literal.text
      rw [base]
    rw [text]
    exact skip_mark unmarked
  | decimal =>
    have text : lit.text = lit.digits := by
      unfold Literal.text
      rw [base]
    have ⟨c, rest, split, nonzero⟩ := lit.leading base
    have zero : skip (· = '0') (lit.digits ++ sfx) = lit.digits ++ sfx := by
      rw [split, List.cons_append, skip, if_neg]
      simp [nonzero]
    rw [text, zero]
    exact skip_mark unmarked
  | hex =>
    have text : lit.text = '0' :: lit.mark :: lit.digits := by
      unfold Literal.text
      rw [base]
    rw [text]
    change skip _ (lit.mark :: (lit.digits ++ sfx)) = _
    rw [skip, if_pos]
    rcases lit.marked with mark | mark <;> simp [mark]

theorem outcome_eq (target : Target) (lit : Literal) {size : Size}
    (accepted : suffix sfx .INT false = some (size, sign, [])) : outcome target lit sign size sfx =
      (fitting target lit.base sign (ctype sign size) lit.value).map fun tp => (tp, lit.value) := by
  have stop := suffix_letters accepted rfl
  unfold outcome
  rw [readint_digits lit sign (ctype sign size) stop]
  exact readdigits_eq (fun c member => (stop c member).1) lit.digits lit.valid 0 _ (Nat.zero_le _)

theorem integer_eq (lit : Literal) {head sfx rest : Text} {sign : Bool} {size : Size}
    (text : lit.text = head ++ lit.digits)
    (stop : ∀ c ∈ (sfx ++ rest).head?, digit c = none ∧ c ≠ 'x' ∧ c ≠ 'X')
    (accepted : suffix (sfx ++ rest) .INT false = some (size, sign, rest))
    (short : (lit.text ++ sfx).length ≤ INTIDENTSIZ) :
    integer target lit.base head (lit.digits ++ (sfx ++ rest)) =
      match readint target (lit.text ++ sfx) lit.base sign (ctype sign size) with
      | none => .error .overflow
      | some value => .ok (value, rest) := by
  have taken : ∀ c ∈ lit.digits, inBase lit.base c = true := by
    intro c member
    have ⟨d, below, known⟩ := lit.valid c member
    unfold inBase
    rw [known]
    exact decide_eq_true below
  have behind : (lit.digits ++ (sfx ++ rest)).dropWhile (inBase lit.base) = sfx ++ rest := by
    rw [List.dropWhile_append_of_pos taken]
    cases tail : sfx ++ rest with
    | nil => rfl
    | cons c p =>
      have none_ := (stop c (by rw [tail]; rfl)).1
      rw [List.dropWhile_cons_of_neg]
      unfold inBase
      rw [none_]
      exact Bool.false_ne_true
  have token : head ++ (lit.digits ++ (sfx ++ rest)).take
      ((lit.digits ++ (sfx ++ rest)).length - rest.length) = lit.text ++ sfx := by
    have count : (lit.digits ++ (sfx ++ rest)).length - rest.length = (lit.digits ++ sfx).length := by
      simp only [List.length_append]
      omega
    rw [count, ← List.append_assoc, List.take_left, text, List.append_assoc]
  unfold integer
  rw [behind, accepted]
  dsimp only
  rw [token, if_neg (by omega)]

theorem number_literal (lit : Literal) {sfx rest : Text} {size : Size}
    (stop : ∀ c ∈ (sfx ++ rest).head?, digit c = none ∧ c ≠ 'x' ∧ c ≠ 'X')
    (accepted : suffix (sfx ++ rest) .INT false = some (size, sign, rest))
    (short : (lit.text ++ sfx).length ≤ INTIDENTSIZ) : number target (lit.text ++ (sfx ++ rest)) =
      match readint target (lit.text ++ sfx) lit.base sign (ctype sign size) with
      | none => .error .overflow
      | some value => .ok (value, rest) := by
  cases base : lit.base with
  | octal =>
    have text : lit.text = ['0'] ++ lit.digits := by
      unfold Literal.text
      rw [base]
      rfl
    have whole := @integer_eq target lit ['0'] sfx rest sign size text stop accepted short
    have unmarked := @digits_unmarked lit (sfx ++ rest) stop
    rw [base] at whole
    rw [← whole, text]
    change number target ('0' :: (lit.digits ++ (sfx ++ rest))) = _
    cases tail : lit.digits ++ (sfx ++ rest) with
    | nil => rfl
    | cons c p =>
      rw [tail] at unmarked
      have ⟨small, large⟩ := unmarked c rfl
      rw [number, if_neg]
      tauto
  | decimal =>
    have text : lit.text = [] ++ lit.digits := by
      unfold Literal.text
      rw [base]
      rfl
    have whole := @integer_eq target lit [] sfx rest sign size text stop accepted short
    have ⟨c, p, split, nonzero⟩ := lit.leading base
    rw [base] at whole
    rw [← whole, text, List.nil_append, split, List.cons_append]
    unfold number
    split
    · rename_i same
      exact absurd (List.cons.inj same).1 nonzero
    · rename_i same
      exact absurd (List.cons.inj same).1 nonzero
    · rfl
  | hex =>
    have text : lit.text = ['0', lit.mark] ++ lit.digits := by
      unfold Literal.text
      rw [base]
      rfl
    have whole := @integer_eq target lit ['0', lit.mark] sfx rest sign size text stop accepted short
    rw [base] at whole
    rw [← whole, text]
    change number target ('0' :: lit.mark :: (lit.digits ++ (sfx ++ rest))) = _
    rw [number, if_pos lit.marked]

theorem candidates_eq (base : Base) (sign : Bool) (size : Size) :
    candidates base sign size = promotions base sign (ctype sign size) ++
      if base ≠ .decimal ∧ sign = false then [.ullong] else [] := by
  cases base <;> cases sign <;> cases size <;> decide

theorem promotions_ullong (base : Base) (size : Size) :
    ∀ tp ∈ promotions base false (ctype false size), tp ≠ .ullong := by
  cases base <;> cases size <;> decide

/-- A literal gets the type and the value of C if and only if it does not need an `unsigned long long`
without an `U` in octal or hexadecimal. -/
theorem outcome_iff (target : Target) (lit : Literal) (sign : Bool) (size : Size) (sfx : Text)
    (accepted : suffix sfx .INT false = some (size, sign, [])) :
    outcome target lit sign size sfx = meaning target lit sign size ↔
      ¬ (lit.base ≠ .decimal ∧ sign = false ∧ OnlyUllong target lit sign size) := by
  rw [outcome_eq target lit accepted]
  unfold meaning OnlyUllong fitting
  rw [candidates_eq]
  by_cases short : lit.base ≠ .decimal ∧ sign = false
  · have ⟨base, unsigned⟩ := short
    have last := promotions_ullong lit.base size
    subst unsigned
    rw [if_pos ⟨base, rfl⟩, List.find?_append]
    cases found : (promotions lit.base false (ctype false size)).find?
        fun tp => lit.value ≤ (getlimits target tp).toNat with
    | some tp =>
      have fits := List.find?_some found
      rw [decide_eq_true_eq] at fits
      have member := List.mem_of_find?_eq_some found
      apply iff_of_true
      · rfl
      · rintro ⟨_, _, only, _⟩
        have less := only tp (List.mem_append_left _ member) (last tp member)
        omega
    | none =>
      have full : ∀ tp ∈ promotions lit.base false (ctype false size),
          (getlimits target tp).toNat < lit.value := by
        intro tp member
        have no := List.find?_eq_none.mp found tp member
        rw [decide_eq_true_eq] at no
        omega
      by_cases fits : lit.value ≤ (getlimits target .ullong).toNat
      · apply iff_of_false
        · simp [fits]
        · rw [not_not]
          refine ⟨base, rfl, ?_, fits⟩
          intro tp member other
          rcases List.mem_append.mp member with member | member
          · exact full tp member
          · exact absurd (List.mem_singleton.mp member) other
      · apply iff_of_true
        · simp [fits]
        · rintro ⟨_, _, _, room⟩
          exact fits room
  · rw [if_neg short, List.append_nil]
    apply iff_of_true rfl
    rintro ⟨base, unsigned, _⟩
    exact short ⟨base, unsigned⟩

def amd64 : Target where
  size
    | .INT => 4
    | .LONG => 8
    | .LLONG => 8
  sizes := by intro s; cases s <;> decide

/-- `0x7fffffff` -/
def intMax : Literal where
  base := .hex
  digits := '7' :: List.replicate 7 'f'
  mark := 'x'
  valid := by
    intro c member
    rcases List.mem_cons.mp member with rfl | member
    · exact ⟨7, by decide, rfl⟩
    · rw [List.eq_of_mem_replicate member]
      exact ⟨15, by decide, rfl⟩
  marked := Or.inl rfl
  leading := nofun

/-- `0xffffffffffffffff` -/
def ullongMax : Literal where
  base := .hex
  digits := List.replicate 16 'f'
  mark := 'x'
  valid := by
    intro c member
    rw [List.eq_of_mem_replicate member]
    exact ⟨15, by decide, rfl⟩
  marked := Or.inl rfl
  leading := nofun

theorem intMax_outcome : suffix "u".toList .INT false = some (.INT, true, []) ∧
    (outcome amd64 intMax true .INT "u".toList = meaning amd64 intMax true .INT ↔
      ¬ (intMax.base ≠ .decimal ∧ true = false ∧ OnlyUllong amd64 intMax true .INT)) :=
  ⟨by decide, outcome_iff amd64 intMax true .INT "u".toList (by decide)⟩

theorem number_literal_intMax : number amd64 (intMax.text ++ ("u".toList ++ [';'])) =
    match readint amd64 (intMax.text ++ "u".toList) .hex true (ctype true .INT) with
    | none => .error .overflow
    | some value => .ok (value, [';']) :=
  number_literal intMax (by rintro c ⟨⟩; decide) (by decide) (by decide)

/-- `0xffffffffffffffffLL` is an `unsigned long long`, and the code reports an overflow. -/
theorem ullongMax_overflow : ¬ ∀ (target : Target) (lit : Literal) (sign : Bool) (size : Size)
    (sfx : Text), suffix sfx .INT false = some (size, sign, []) →
      outcome target lit sign size sfx = meaning target lit sign size := by
  intro always
  have accepted : suffix "LL".toList .INT false = some (.LLONG, false, []) := by decide
  have same := always amd64 ullongMax false .LLONG "LL".toList accepted
  rw [outcome_eq amd64 ullongMax accepted] at same
  exact absurd same (by decide)

end Scc.Cc1.Number
