import Scc.Libc.PrintfInteger
import Scc.Libc.Strtol

/-!
# Numbers that are written and read back

What `vfprintf()` writes for a signed argument is read by `strtol()`, which finds the number behind the blanks
and the sign and stops at the blanks that fill the width.
-/

namespace Scc.Libc.ReadBack

set_option autoImplicit false

open Printf

def bytes (text : List Char) : List UInt8 := text.map fun c => UInt8.ofNat c.toNat

def decimals : List Char := "0123456789".toList

/-- Blanks on both sides of a sign and decimal digits. -/
structure Padded where
  lead : Nat
  sign : Option Char
  digits : List Char
  trail : Nat
  signs : sign = none ∨ sign = some '-' ∨ sign = some '+'
  decimal : ∀ c ∈ digits, c ∈ decimals
  nonempty : digits ≠ []

namespace Padded

variable (p : Padded)

def signed : List Char := p.sign.toList ++ (p.digits ++ List.replicate p.trail ' ')

def text : List Char := List.replicate p.lead ' ' ++ p.signed

/-- Where the number ends. -/
def stop : Nat := p.lead + (p.sign.toList ++ p.digits).length

def number : Nat := Strtol.value 10 (bytes p.digits)

def value : Int := if p.sign = some '-' then -(p.number : Int) else p.number

end Padded

theorem decimal_all {P : Char → Prop} [DecidablePred P] (all : decimals.all (fun c => decide (P c)) = true) :
    ∀ c ∈ decimals, P c := fun c is => of_decide_eq_true (List.all_eq_true.mp all c is)

/-- A digit ends the blanks, is no sign and is taken into the number. -/
theorem decimal_plain : ∀ c ∈ decimals, Strtol.blank (UInt8.ofNat c.toNat) = false ∧
    UInt8.ofNat c.toNat ≠ 45 ∧ UInt8.ofNat c.toNat ≠ 43 ∧ (UInt8.ofNat c.toNat).toNat < 128 ∧
    Strtol.digitIn 10 (UInt8.ofNat c.toNat) = true := decimal_all (by decide)

theorem takeWhile_decimal {ds : List Char} (digits : ∀ c ∈ ds, c ∈ decimals) (j : Nat) :
    (bytes (ds ++ List.replicate j ' ')).takeWhile (Strtol.digitIn 10) = bytes ds := by
  induction ds with
  | nil => cases j <;> rfl
  | cons c ds ih =>
    rw [List.forall_mem_cons] at digits
    exact (List.takeWhile_cons_of_pos (decimal_plain c digits.1).2.2.2.2).trans (congrArg _ (ih digits.2))

theorem dropWhile_blank (k : Nat) {rest : List Char} {c : Char} (head : rest.head? = some c)
    (plain : Strtol.blank (UInt8.ofNat c.toNat) = false) :
    (bytes (List.replicate k ' ' ++ rest)).dropWhile Strtol.blank = bytes rest := by
  induction k with
  | zero =>
    cases rest with
    | nil => cases head
    | cons d rest =>
      cases head
      exact List.dropWhile_cons_of_neg (by rw [plain]; decide)
  | succ k ih => exact (List.dropWhile_cons_of_pos (by decide)).trans ih

section

variable (p : Padded)

theorem Padded.start : ∃ c, p.signed.head? = some c ∧ Strtol.blank (UInt8.ofNat c.toNat) = false ∧
    (UInt8.ofNat c.toNat).toNat < 128 ∧ (bytes p.text).dropWhile Strtol.blank = bytes p.signed := by
  have found : ∃ c, p.signed.head? = some c ∧ Strtol.blank (UInt8.ofNat c.toNat) = false ∧
      (UInt8.ofNat c.toNat).toNat < 128 := by
    rcases p with ⟨_, sign, _, _, rfl | rfl | rfl, decimal, nonempty⟩
    · rcases List.exists_cons_of_ne_nil nonempty with ⟨c, rest, rfl⟩
      have ⟨plain, _, _, low, _⟩ := decimal_plain c (decimal c List.mem_cons_self)
      exact ⟨c, rfl, plain, low⟩
    · exact ⟨'-', rfl, by decide⟩
    · exact ⟨'+', rfl, by decide⟩
  rcases found with ⟨c, head, plain, low⟩
  exact ⟨c, head, plain, low, dropWhile_blank p.lead head plain⟩

theorem Padded.unsigned : Strtol.unsigned (bytes p.text) = bytes (p.digits ++ List.replicate p.trail ' ') ∧
    Strtol.negative (bytes p.text) = decide (p.sign = some '-') := by
  rcases p.start with ⟨_, _, _, _, dropped⟩
  unfold Strtol.unsigned Strtol.negative
  dsimp only
  rw [dropped]
  rcases p with ⟨_, sign, _, _, rfl | rfl | rfl, decimal, nonempty⟩
  · rcases List.exists_cons_of_ne_nil nonempty with ⟨c, rest, rfl⟩
    have ⟨_, minus, plus, _⟩ := decimal_plain c (decimal c List.mem_cons_self)
    refine ⟨if_neg ?_, decide_eq_false fun same => minus (Option.some.inj same)⟩
    rintro (same | same)
    · exact minus (Option.some.inj same)
    · exact plus (Option.some.inj same)
  · exact ⟨rfl, rfl⟩
  · exact ⟨rfl, rfl⟩

theorem Padded.subject :
    Strtol.subject (bytes p.text) 10 = some ⟨decide (p.sign = some '-'), p.number, p.stop⟩ := by
  have ⟨unsigned, negative⟩ := p.unsigned
  have bare : ¬ Strtol.Hexadecimal 10 (bytes (p.digits ++ List.replicate p.trail ' ')) := by
    rintro ⟨⟨zero | hex, _⟩, _⟩
    · cases zero
    · cases hex
  have base : Strtol.baseOf 10 (bytes (p.digits ++ List.replicate p.trail ' ')) = 10 := by
    unfold Strtol.baseOf
    rw [if_neg bare]
    rfl
  have number : Strtol.number 10 (bytes (p.digits ++ List.replicate p.trail ' ')) =
      bytes (p.digits ++ List.replicate p.trail ' ') := if_neg bare
  unfold Strtol.subject
  dsimp only
  rw [unsigned, base, number, takeWhile_decimal p.decimal, negative, if_neg (by simpa [bytes] using p.nonempty)]
  congr 2
  simp only [bytes, text, Padded.signed, stop, List.length_map, List.length_append, List.length_replicate]
  omega

theorem Padded.strtol (front : Int → Nat) {long : Nat}
    (fits : Strtol.LONG_MIN long ≤ p.value ∧ p.value ≤ Strtol.LONG_MAX long) :
    Strtol.strtol front long (bytes p.text) 10 = ⟨p.value, p.stop, false⟩ := by
  have right : ¬ Strtol.Misread front (bytes p.text) := by
    rintro ⟨c, here, space⟩
    rcases p.start with ⟨d, head, plain, low, dropped⟩
    rw [dropped, bytes, List.head?_map, head] at here
    cases here
    rw [Strtol.isspace_low front low, plain] at space
    cases space
  have agrees : (Strtol.signedKind long).Agrees front (bytes p.text) 10 := by
    refine ⟨fun misread => absurd misread right, fun _ => ⟨?_, ?_⟩⟩
    · rintro ⟨zero | hex, _⟩
      · cases zero
      · cases hex
    · intro number same
      rw [p.subject] at same
      cases same
      have power : ((2 ^ (long - 1) : Nat) : Int) = 2 ^ (long - 1) := by push_cast; rfl
      unfold Strtol.signedKind Strtol.SignedFits Strtol.Kind.sign
      unfold Strtol.LONG_MIN Strtol.LONG_MAX value at fits
      dsimp only
      by_cases minus : p.sign = some '-'
      · rw [if_pos minus] at fits
        simp [minus]
        omega
      · rw [if_neg minus] at fits
        simp [minus]
        omega
  have run : Strtol.strtol front long (bytes p.text) 10 = Strtol.clamped long (Strtol.subject (bytes p.text) 10) :=
    (Strtol.strto_iff (Strtol.signedKind_ok long) (.inr (by decide)) (Strtol.signedKind_expected long) front _).mpr agrees
  have signed : (if decide (p.sign = some '-') = true then -(p.number : Int) else p.number) = p.value := by
    simp [value]
  rw [run, p.subject]
  unfold Strtol.clamped
  dsimp only
  rw [signed, if_neg (by omega), if_neg (by omega)]

theorem Padded.rest : p.text.drop p.stop = List.replicate p.trail ' ' := by
  have shape : p.text = (List.replicate p.lead ' ' ++ (p.sign.toList ++ p.digits)) ++ List.replicate p.trail ' ' := by
    simp [text, Padded.signed]
  have length : p.stop = (List.replicate p.lead ' ' ++ (p.sign.toList ++ p.digits)).length := by simp [stop]
  rw [shape, length, List.drop_left]

end

section

variable {d : Directive} (isSigned : d.signed = true)

theorem digs_decimal (d : Directive) : (∀ c ∈ decimals,
    Strtol.digit (UInt8.ofNat c.toNat) = some (d.digs.idxOf c) ∧ isXdigit c = true) ∧
      ∀ i < 10, d.digs.getD i '0' ∈ decimals := by
  unfold Directive.digs
  split_ifs <;> exact ⟨decimal_all (by decide), by decide⟩

theorem value_read (decimal : d.base = 10) {ds : List Char} (digits : ∀ c ∈ ds, c ∈ decimals) (n : Nat) :
    (bytes ds).foldl (fun v c => v * 10 + (Strtol.digit c).getD 0) n = d.read n ds := by
  induction ds generalizing n with
  | nil => rfl
  | cons c ds ih =>
    rw [List.forall_mem_cons] at digits
    have ⟨digit, isDigit⟩ := (digs_decimal d).1 c digits.1
    change (bytes ds).foldl _ (n * 10 + (Strtol.digit (UInt8.ofNat c.toNat)).getD 0) = _
    rw [ih digits.2, digit]
    unfold Directive.read
    rw [List.foldl_cons, isDigit, if_pos rfl, decimal]
    rfl

theorem numberOf_decimals (decimal : d.base = 10) (v : Int) (least : Nat) : ∀ c ∈ d.numberOf v least, c ∈ decimals := by
  intro c member
  unfold Directive.numberOf at member
  dsimp only at member
  rw [decimal, if_neg (by simp), List.mem_append] at member
  rcases member with zero | digit
  · rw [List.eq_of_mem_replicate zero]
    decide
  · unfold Directive.numeral at digit
    rw [decimal] at digit
    rcases List.mem_map.mp digit with ⟨i, inside, rfl⟩
    exact (digs_decimal d).2 i (Nat.digits_lt_base (by decide) (List.mem_reverse.mp inside))

include isSigned

/-- A blank for the sign is one more blank in front. -/
theorem padded_sign (v : Int) (k z j : Nat) : ∃ p : Padded, p.value = v ∧ p.text =
    List.replicate k ' ' ++ ((d.signFor v).toList ++
      ((List.replicate z '0' ++ d.numberOf v d.least) ++ List.replicate j ' ')) := by
  have base := d.signed_base isSigned
  have decimal : ∀ c ∈ List.replicate z '0' ++ d.numberOf v d.least, c ∈ decimals := by
    intro c member
    rcases List.mem_append.mp member with zero | digit
    · rw [List.eq_of_mem_replicate zero]
      decide
    · exact numberOf_decimals base _ _ c digit
  have nonempty : List.replicate z '0' ++ d.numberOf v d.least ≠ [] :=
    List.append_ne_nil_of_right_ne_nil _ (d.numberOf_nonempty _)
  have number : Strtol.value 10 (bytes (List.replicate z '0' ++ d.numberOf v d.least)) = v.natAbs := by
    unfold Strtol.value
    rw [value_read base decimal, Directive.read_append,
      d.read_lead fun c member => Or.inl (List.eq_of_mem_replicate member), Directive.read_numberOf]
  unfold Directive.signFor
  rw [isSigned]
  by_cases negative : v < 0
  · rw [if_pos ⟨rfl, negative⟩]
    refine ⟨⟨k, some '-', _, j, by simp, decimal, nonempty⟩, ?_, rfl⟩
    rw [Padded.value, Padded.number, if_pos rfl, number]
    omega
  · rw [if_neg fun both => negative both.2]
    have positive : (v.natAbs : Int) = v := by omega
    unfold signOf
    split_ifs
    · refine ⟨⟨k, some '+', _, j, by simp, decimal, nonempty⟩, ?_, rfl⟩
      rw [Padded.value, Padded.number, if_neg (by simp), number, positive]
    · refine ⟨⟨k + 1, none, _, j, by simp, decimal, nonempty⟩, ?_, ?_⟩
      · rw [Padded.value, Padded.number, if_neg (by simp), number, positive]
      · unfold Padded.text Padded.signed
        rw [List.replicate_succ', List.append_assoc]
        rfl
    · refine ⟨⟨k, none, _, j, by simp, decimal, nonempty⟩, ?_, rfl⟩
      rw [Padded.value, Padded.number, if_neg (by simp), number, positive]

/-- Zeros stand behind the sign, unless they stand in front of a blank for it. -/
theorem shown_padded (apart : ¬('0' ∈ d.flags ∧ ' ' ∈ d.flags)) (v : Int) :
    ∃ p : Padded, p.value = v ∧ p.text = d.shown v := by
  have ahead := d.signed_ahead isSigned v
  have text : d.textFor v = (d.signFor v).toList ++ d.numberOf v d.least := by
    rw [Directive.textFor, ahead, List.append_nil]
  by_cases left : d.width.width ('-' ∈ d.flags) < 0
  · rcases padded_sign isSigned v 0 0 (d.width.number.natAbs - (d.textFor v).length) with ⟨p, value, shape⟩
    refine ⟨p, value, ?_⟩
    rw [shape, d.shown_left v left, text]
    simp
  · by_cases zeros : d.fill = '0'
    · rcases padded_sign isSigned v 0 (d.width.number.natAbs - (d.textFor v).length) 0 with ⟨p, value, shape⟩
      refine ⟨p, value, ?_⟩
      have front : leadLength (d.signFor v) (d.aheadOf v) = ((d.signFor v).toList ++ d.aheadOf v).length := by
        rw [ahead]
        rcases d.signFor_cases v with same | same | same | same
        · rw [same]
          rfl
        · rw [same]
          rfl
        · rw [same]
          rfl
        · exfalso
          apply apart
          refine ⟨d.fill_flags.2.1 zeros, ?_⟩
          unfold Directive.signFor signOf at same
          split_ifs at same with _ _ space
          · cases same
          · cases same
          · exact space
      rw [shape, d.shown_zeros v left zeros front, ahead]
      simp
    · rcases padded_sign isSigned v (d.width.number.natAbs - (d.textFor v).length) 0 0 with ⟨p, value, shape⟩
      refine ⟨p, value, ?_⟩
      rw [shape, d.shown_blank v left zeros, text]
      simp

end

theorem left_flags : ∀ c ∈ ['+', '-'], c = '-' ∨ c = '+' ∨ c = ' ' ∨ c = '#' ∨ c = '0' := by simp

theorem left_width : (Field.literal ['8']).IsNumber := by simp [Field.IsNumber]

theorem left_small : (Field.literal ['8']).number.natAbs ≤ 50 := by decide

theorem absent_small : Field.absent.number ≤ 50 := by decide

theorem left_start : (Field.literal ['8']).StartsWithNoZero := ⟨'8', [], rfl, by decide⟩

/-- `%+-8ld` of -42. -/
def leftLong : Directive where
  flags := ['+', '-']
  width := .literal ['8']
  precision := .absent
  length := .l
  conversion := .d
  value := -42
  flagsKnown := left_flags
  widthNumber := left_width
  widthStart := left_start
  widthSmall := left_small
  precisionNumber := trivial
  precisionSmall := absent_small

end Scc.Libc.ReadBack
