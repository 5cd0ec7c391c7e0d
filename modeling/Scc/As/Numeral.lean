import Scc.As.ExprRun

/-!
# Numerals of the assembler

`number()` takes the mark of a base and the hexadecimal digits behind it. It refuses a digit above the
base and a value that comes near to the end of a TUINT, and `tok2str()` refuses a long token.
-/

namespace Scc.As

set_option autoImplicit false

/-- The value of some digits behind a value. -/
def valueIn (base n : Nat) (ds : List Nat) : Nat := ds.foldl (fun n d => n * base + d) n

/-- A string of hexadecimal digits, perhaps with a mark before it, and what stands behind. -/
structure Numeral where
  text : Text
  rest : Text
  hex : (numberBase text).2.all isxdigit = true
  boundary : Boundary rest

namespace Numeral

variable (numeral : Numeral)

def base : Nat := (numberBase numeral.text).1

def digits : List Nat := (numberBase numeral.text).2.filterMap xdigit

def value : Nat := valueIn numeral.base 0 numeral.digits

def Valid : Prop := ∀ d ∈ numeral.digits, d < numeral.base

/-- Valid digits of a number with 64 bits are accepted, nothing else is, and the number is theirs. -/
def Exact : Prop :=
  ((∃ t rest, number (numeral.text ++ numeral.rest) = .ok (t, rest)) ↔
    numeral.Valid ∧ numeral.value < 2 ^ 64) ∧
  ∀ t rest, number (numeral.text ++ numeral.rest) = .ok (t, rest) →
    rest = numeral.rest ∧ ∃ val, t = .NUMBER val ∧ val.toNat = numeral.value

/-- The digits but the last have a value that is small even when the last digit is added to it. -/
def Small : Prop :=
  valueIn numeral.base 0 numeral.digits.dropLast + numeral.digits.getLastD 0 < TUINT_MAX / numeral.base

def Short : Prop := numeral.text.length ≤ INTIDENTSIZ

/-- What `number()` gets right: valid digits of a small value in a short token or of a value that needs
more than 64 bits, and digits that are not valid, if one is above the base or the value is not small or the
token is not short. -/
def Supported : Prop :=
  (numeral.Valid → numeral.value < 2 ^ 64 → numeral.Small ∧ numeral.Short) ∧
  (¬ numeral.Valid → (∃ d ∈ numeral.digits, numeral.base < d) ∨ ¬ numeral.Small ∨ ¬ numeral.Short)

end Numeral

theorem valueIn_grows {base : Nat} (positive : 0 < base) (n : Nat) (ds : List Nat) :
    n ≤ valueIn base n ds := by
  induction ds generalizing n with
  | nil => exact Nat.le_refl n
  | cons d ds ih =>
    have scaled : n * 1 ≤ n * base := Nat.mul_le_mul_left n positive
    calc n ≤ n * base + d := by omega
      _ ≤ valueIn base n (d :: ds) := ih (n * base + d)

theorem valueIn_snoc (base n last : Nat) (front : List Nat) :
    valueIn base n (front ++ [last]) = valueIn base n front * base + last := by
  unfold valueIn
  rw [List.foldl_append]
  rfl

theorem digits_accepts {base n : Nat} {text : Text} (positive : 0 < base) (hex : text.all isxdigit = true) :
    (∃ v, digits base n text = .ok (v, [])) ↔ (∀ d ∈ text.filterMap xdigit, d ≤ base) ∧
      (text = [] ∨ valueIn base n (text.filterMap xdigit).dropLast + (text.filterMap xdigit).getLastD 0 <
        TUINT_MAX / base) := by
  induction text generalizing n with
  | nil =>
    constructor
    · intro _
      exact ⟨fun d member => absurd member List.not_mem_nil, Or.inl rfl⟩
    · intro _
      exact ⟨n, rfl⟩
  | cons c text ih =>
    rw [List.all_cons, Bool.and_eq_true] at hex
    rcases Option.isSome_iff_exists.mp hex.1 with ⟨d, digit⟩
    have more := @ih (n * base + d) hex.2
    have scaled : n * 1 ≤ n * base := Nat.mul_le_mul_left n positive
    rw [digits, digit, List.filterMap_cons_some digit]
    simp only
    have small : (c :: text = [] ∨ valueIn base n (d :: text.filterMap xdigit).dropLast +
        (d :: text.filterMap xdigit).getLastD 0 < TUINT_MAX / base) ↔
        n + d < TUINT_MAX / base ∧ (text = [] ∨
          valueIn base (n * base + d) (text.filterMap xdigit).dropLast +
            (text.filterMap xdigit).getLastD 0 < TUINT_MAX / base) := by
      cases text with
      | nil => simp [valueIn]
      | cons c' text' =>
        rw [List.all_cons, Bool.and_eq_true] at hex
        rcases Option.isSome_iff_exists.mp hex.2.1 with ⟨d', digit'⟩
        rw [List.filterMap_cons_some digit']
        have first := valueIn_grows positive (n * base + d) (d' :: text'.filterMap xdigit).dropLast
        have step : valueIn base n (d :: d' :: text'.filterMap xdigit).dropLast =
            valueIn base (n * base + d) (d' :: text'.filterMap xdigit).dropLast := rfl
        have last : (d :: d' :: text'.filterMap xdigit).getLastD 0 =
            (d' :: text'.filterMap xdigit).getLastD 0 := rfl
        rw [step, last]
        simp only [reduceCtorEq, false_or]
        omega
    rw [small, List.forall_mem_cons]
    split_ifs with above high
    · simp only [exists_const, false_iff]
      omega
    · simp only [exists_const, false_iff]
      omega
    · rw [more]
      have belowBase : d ≤ base := by omega
      have low : n + d < TUINT_MAX / base := by omega
      simp only [belowBase, low, true_and]

theorem foldl_digits (base n : Nat) {text : Text} (hex : text.all isxdigit = true) :
    text.foldl (fun n c => n * base + (xdigit c).getD 0) n = valueIn base n (text.filterMap xdigit) := by
  induction text generalizing n with
  | nil => rfl
  | cons c text ih =>
    rw [List.all_cons, Bool.and_eq_true] at hex
    rcases Option.isSome_iff_exists.mp hex.1 with ⟨d, digit⟩
    rw [List.foldl_cons, List.filterMap_cons_some digit, digit]
    exact ih _ hex.2

theorem numberBase_append {text rest : Text} (boundary : Boundary rest) :
    numberBase (text ++ rest) = ((numberBase text).1, (numberBase text).2 ++ rest) := by
  have letter {c : Char} {more : Text} (head : rest = c :: more) : c.isAlphanum = false :=
    boundary c (by rw [head]; rfl)
  cases text with
  | nil =>
    cases rest with
    | nil => rfl
    | cons c more =>
      have other : c ≠ '0' := by
        rintro rfl
        cases letter rfl
      have decimal : numberBase (c :: more) = (10, c :: more) := by
        unfold numberBase
        split
        · next same => exact absurd (List.cons.inj same).1 other
        · next same => exact absurd (List.cons.inj same).1 other
        · rfl
      exact decimal
  | cons c text =>
    by_cases zero : c = '0'
    · subst zero
      cases text with
      | nil =>
        cases rest with
        | nil => rfl
        | cons c more =>
          have other : c ≠ 'x' := by
            rintro rfl
            cases letter rfl
          change numberBase ('0' :: c :: more) = (8, c :: more)
          unfold numberBase
          split
          · next same => exact absurd (List.cons.inj (List.cons.inj same).2).1 other
          · next same => rw [(List.cons.inj same).2]
          · next notZero => exact absurd rfl (notZero _)
      | cons c text =>
        by_cases mark : c = 'x'
        · subst mark
          rfl
        · have octal (more : Text) : numberBase ('0' :: c :: more) = (8, c :: more) := by
            unfold numberBase
            split
            · next same => exact absurd (List.cons.inj (List.cons.inj same).2).1 mark
            · next same => rw [(List.cons.inj same).2]
            · next notZero => exact absurd rfl (notZero _)
          rw [octal text]
          exact octal (text ++ rest)
    · have decimal (more : Text) : numberBase (c :: more) = (10, c :: more) := by
        unfold numberBase
        split
        · next same => exact absurd (List.cons.inj same).1 zero
        · next same => exact absurd (List.cons.inj same).1 zero
        · rfl
      rw [decimal text]
      exact decimal (text ++ rest)

theorem numberBase_cases (text : Text) :
    (numberBase text).1 = 16 ∨ (numberBase text).1 = 8 ∨ (numberBase text).1 = 10 := by
  unfold numberBase
  split
  · exact Or.inl rfl
  · exact Or.inr (Or.inl rfl)
  · exact Or.inr (Or.inr rfl)

theorem numberBase_positive (text : Text) : 0 < (numberBase text).1 := by
  have cases_ := numberBase_cases text
  omega

namespace Numeral

variable (numeral : Numeral)

theorem number_eq : number (numeral.text ++ numeral.rest) =
    (As.digits numeral.base 0 (numberBase numeral.text).2).bind fun p =>
      if INTIDENTSIZ < numeral.text.length then .error .tokenTooBig
      else .ok (.NUMBER (BitVec.ofNat 64 p.1), numeral.rest) := by
  have length : (numeral.text ++ numeral.rest).length - numeral.rest.length = numeral.text.length := by
    rw [List.length_append]
    omega
  unfold number
  rw [numberBase_append numeral.boundary]
  simp only
  rw [digits_append numeral.hex numeral.boundary]
  unfold base
  cases As.digits (numberBase numeral.text).1 0 (numberBase numeral.text).2 with
  | error e => rfl
  | ok p =>
    simp only [Except.map, length]
    rfl

theorem digits_read {v : Nat} {rest : Text}
    (read : As.digits numeral.base 0 (numberBase numeral.text).2 = .ok (v, rest)) :
    v = numeral.value ∧ rest = [] := by
  have ⟨same, nothing⟩ := digits_value numeral.hex read
  rw [foldl_digits numeral.base 0 numeral.hex] at same
  exact ⟨same, nothing⟩

theorem accepts_iff : (∃ t rest, number (numeral.text ++ numeral.rest) = .ok (t, rest)) ↔
    (∀ d ∈ numeral.digits, d ≤ numeral.base) ∧ numeral.Small ∧ numeral.Short := by
  have loop := @digits_accepts numeral.base 0 _ (numberBase_positive numeral.text) numeral.hex
  have nothing : (numberBase numeral.text).2 = [] → numeral.Small := by
    intro empty
    unfold Small digits
    rw [empty]
    have positive : 0 < TUINT_MAX / numeral.base := by
      unfold base
      rcases numberBase_cases numeral.text with hex | octal | decimal
      · rw [hex]
        decide
      · rw [octal]
        decide
      · rw [decimal]
        decide
    exact positive
  have small : ((numberBase numeral.text).2 = [] ∨ numeral.Small) ↔ numeral.Small :=
    ⟨fun either => either.elim nothing id, Or.inr⟩
  rw [number_eq, ← and_assoc]
  unfold Small digits at small
  rw [small] at loop
  unfold Small digits
  rw [← loop]
  cases read : As.digits numeral.base 0 (numberBase numeral.text).2 with
  | error e => simp [Except.bind]
  | ok p =>
    have empty : p.2 = [] := (numeral.digits_read read).2
    have whole : ∃ v, (Except.ok p : Except Failure (Nat × Text)) = .ok (v, []) := ⟨p.1, by rw [← empty]⟩
    simp only [whole, true_and, Except.bind, Short]
    constructor
    · rintro ⟨t, rest, same⟩
      split_ifs at same with long
      omega
    · intro short
      exact ⟨_, _, if_neg (by omega)⟩

theorem value_lt (small : numeral.Small) : numeral.value < 2 ^ 64 := by
  have positive := numberBase_positive numeral.text
  unfold Small at small
  unfold value
  rcases List.eq_nil_or_concat numeral.digits with empty | ⟨front, last, ends⟩
  · rw [empty]
    exact Nat.two_pow_pos 64
  · rw [List.concat_eq_append] at ends
    rw [ends, List.dropLast_concat, List.getLastD_concat] at small
    rw [ends, valueIn_snoc]
    have scaled : (valueIn numeral.base 0 front + last) * numeral.base < TUINT_MAX + 1 := by
      calc (valueIn numeral.base 0 front + last) * numeral.base
          ≤ TUINT_MAX / numeral.base * numeral.base := Nat.mul_le_mul_right _ (Nat.le_of_lt small)
        _ ≤ TUINT_MAX := Nat.div_mul_le_self _ _
        _ < TUINT_MAX + 1 := Nat.lt_succ_self _
    have last_le : last * 1 ≤ last * numeral.base := Nat.mul_le_mul_left last positive
    rw [Nat.add_mul] at scaled
    have bound : TUINT_MAX + 1 = 2 ^ 64 := rfl
    omega

theorem accepted_value {t : Token} {rest : Text}
    (accepted : number (numeral.text ++ numeral.rest) = .ok (t, rest)) :
    rest = numeral.rest ∧ ∃ val, t = .NUMBER val ∧ val.toNat = numeral.value := by
  have ⟨_, small, _⟩ := numeral.accepts_iff.mp ⟨t, rest, accepted⟩
  rw [number_eq] at accepted
  cases read : As.digits numeral.base 0 (numberBase numeral.text).2 with
  | error e =>
    rw [read] at accepted
    cases accepted
  | ok p =>
    rw [read] at accepted
    simp only [Except.bind] at accepted
    split_ifs at accepted
    cases accepted
    refine ⟨rfl, _, rfl, ?_⟩
    rw [(numeral.digits_read read).1, BitVec.toNat_ofNat]
    exact Nat.mod_eq_of_lt (numeral.value_lt small)

/-- `number()` is exact on the numerals above and on no other. -/
theorem exact_iff_supported : numeral.Exact ↔ numeral.Supported := by
  have yields := @accepted_value numeral
  have bounded := numeral.value_lt
  have upTo : numeral.Valid → ∀ d ∈ numeral.digits, d ≤ numeral.base :=
    fun valid d member => Nat.le_of_lt (valid d member)
  have above : (∃ d ∈ numeral.digits, numeral.base < d) ↔ ¬ ∀ d ∈ numeral.digits, d ≤ numeral.base := by
    push Not
    exact Iff.rfl
  unfold Exact Supported
  rw [numeral.accepts_iff, above]
  constructor
  · rintro ⟨exact_, _⟩
    tauto
  · rintro ⟨accepted, refused⟩
    refine ⟨?_, fun t rest => yields⟩
    tauto

/-- The digit eight behind the mark of an octal numeral. -/
def eight : Numeral := ⟨['0', '8'], [], by decide, fun _ none_ => by cases none_⟩

theorem eight_inexact : ¬ ∀ numeral : Numeral, numeral.Exact := by
  intro all
  have accepted : number (eight.text ++ eight.rest) = .ok (.NUMBER 8, []) := by rfl
  have ⟨valid, _⟩ := (all eight).1.mp ⟨_, _, accepted⟩
  exact absurd (valid 8 (by decide)) (by decide)

end Numeral

end Scc.As
