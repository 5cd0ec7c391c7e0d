import Scc.Libc.StrftimeItems

/-!
# The contract of the date formats

The loop over the items, the calls of `strftime()` for the conversions that stand for a format, and the formats
and sizes for which the array gets the expansion.
-/

namespace Scc.Libc.Strftime

set_option autoImplicit false

def Item.length (tm : Tm) (i : Item) : Nat := ((i.text tm).getD []).length

/-- There is space for the items, or the first one for which there is none ends at the end of the array. -/
def Room (tm : Tm) : Nat → List Item → Prop
  | _, [] => True
  | n, i :: items => if i.length tm < n then Room tm (n - i.length tm) items else n = 0 ∨ i.Stops n

/-- The size `n + 1` of a call is a `size_t`. -/
def Unwrapped (bits : Nat) (tm : Tm) (n : Nat) (items : List Item) : Prop :=
  n + 1 < 2 ^ bits ∨ ∀ i, items.find? (fun i => i.length tm ≠ 0) = some i → i.recursive = false

variable {i : Item} {tm : Tm}

theorem length_text {t : List Char} (is : i.text tm = some t) : i.length tm = t.length := by
  unfold Item.length
  rw [is]
  rfl

theorem recursive_length {t : List Char} (calls : i.recursive = true) (is : i.text tm = some t) :
    t.length ≠ 0 := by
  cases i with
  | plain ch => cases calls
  | cut => cases calls
  | conv c =>
    have member : c ∈ ['c', 'D', 'F', 'r', 'R', 'T', 'X', 'x'] := of_decide_eq_true calls
    simp only [List.mem_cons, List.not_mem_nil, or_false] at member
    rcases member with rfl | rfl | rfl | rfl | rfl | rfl | rfl | rfl <;> cases is <;> simp [date, time]

theorem expansion_cons {items : List Item} {text : List Char}
    (expands : expansion tm (i :: items) = some text) :
    ∃ t rest, i.text tm = some t ∧ expansion tm items = some rest ∧ text = t ++ rest := by
  rcases Option.bind_eq_some_iff.mp expands with ⟨t, is, expands⟩
  rcases Option.map_eq_some_iff.mp expands with ⟨rest, more, same⟩
  exact ⟨t, rest, is, more, same.symm⟩

section
variable {bits : Nat} {recur : Call} {tm : Tm}

variable {items : List Item}

theorem Unwrapped.call {n : Nat} {t : List Char} (is : i.text tm = some t)
    (unwrapped : Unwrapped bits tm n (i :: items)) (calls : i.recursive = true) : n + 1 < 2 ^ bits := by
  rcases unwrapped with small | first
  · exact small
  · have nonempty := recursive_length calls is
    rw [← length_text is] at nonempty
    have flat := first i (by rw [List.find?_cons_of_pos (by simpa using nonempty)])
    rw [flat] at calls
    cases calls

theorem Unwrapped.tail {n : Nat} {i : Item} {items : List Item} {t : List Char} (is : i.text tm = some t)
    (small : n < 2 ^ bits) (room : t.length < n) (unwrapped : Unwrapped bits tm n (i :: items)) :
    Unwrapped bits tm (n - t.length) items := by
  by_cases empty : t.length = 0
  · rcases unwrapped with small' | first
    · left
      omega
    · right
      intro j found
      apply first j
      rw [List.find?_cons_of_neg]
      · exact found
      · rw [length_text is, empty]
        simp
  · left
    omega

theorem loop_zero (items : List Item) (s : Nat) (inc : Option Nat) :
    loop bits recur tm items s 0 inc = some ([], s) := by
  cases items with
  | nil => rfl
  | cons i items => exact if_pos rfl

theorem loop_cons {s n len : Nat} {inc : Option Nat} {blocks : List Block} (some_ : 0 < n)
    (small : n < 2 ^ bits) (le : len ≤ n) (performs : perform bits recur tm i s n inc = some (blocks, len))
    (items : List Item) : loop bits recur tm (i :: items) s n inc =
      (loop bits recur tm items (s + len) (n - len) (some len)).map fun (more, e) => (blocks ++ more, e) := by
  have left : (n + (2 ^ bits - len)) % 2 ^ bits = n - len := by
    rw [show n + (2 ^ bits - len) = n - len + 2 ^ bits by omega, Nat.add_mod_right, Nat.mod_eq_of_lt (by omega)]
  rw [loop, if_neg (by omega), performs, Option.bind_some]
  dsimp only
  rw [left]

theorem loop_fits {text : List Char} (expands : expansion tm items = some text)
    (specs : ∀ i ∈ items, ∀ t, i.text tm = some t → Spec bits recur tm i t) {n : Nat} (room : text.length < n)
    (small : n < 2 ^ bits) (unwrapped : Unwrapped bits tm n items) (s : Nat) (inc : Option Nat) :
    ∃ blocks, loop bits recur tm items s n inc = some (blocks, s + text.length) ∧
      Fits (∀ i ∈ items, Right tm i) (.conv 'z' ∈ items) text s blocks := by
  induction items generalizing text n s inc with
  | nil =>
    cases expands
    have fits := fits_nil s
    exact ⟨[], rfl, fits.within, by simp, by simp, by simp⟩
  | cons i items ih =>
    rcases expansion_cons expands with ⟨t, rest, is, more, rfl⟩
    rw [List.length_append] at room
    rcases (specs i List.mem_cons_self t is).fits s n inc (by omega) (unwrapped.call is) with
      ⟨blocks, performs, fits⟩
    rcases ih more (fun j mem => specs j (List.mem_cons_of_mem _ mem)) (by omega) (by omega)
      (unwrapped.tail is small (by omega)) (s + t.length) (some t.length) with ⟨blocks', rest_, fits'⟩
    refine ⟨blocks ++ blocks', ?_, ?_⟩
    · rw [loop_cons (by omega) small (by omega) performs, rest_, List.length_append, ← Nat.add_assoc]
      rfl
    · have both := fits.append fits'
      constructor
      · exact both.within
      · intro good
        exact both.right ⟨good i List.mem_cons_self, fun j mem => good j (List.mem_cons_of_mem _ mem)⟩
      · intro bad
        apply both.wrong
        intro good
        apply bad
        intro j mem
        rcases List.mem_cons.mp mem with rfl | mem
        · exact good.1
        · exact good.2 j mem
      · intro none_
        apply both.covers
        rintro (same | mem)
        · exact none_ (by rw [same]; exact List.mem_cons_self)
        · exact none_ (List.mem_cons_of_mem _ mem)

theorem loop_full {text : List Char} (expands : expansion tm items = some text)
    (specs : ∀ i ∈ items, ∀ t, i.text tm = some t → Spec bits recur tm i t) {n : Nat} (full : n ≤ text.length)
    (small : n < 2 ^ bits) (unwrapped : Unwrapped bits tm n items) (room : Room tm n items) (s : Nat)
    (inc : Option Nat) :
    ∃ blocks, loop bits recur tm items s n inc = some (blocks, s + n) ∧ Within s (s + n) blocks := by
  induction items generalizing text n s inc with
  | nil =>
    cases expands
    have none_ : n = 0 := by simpa using full
    subst none_
    exact ⟨[], rfl, within_nil _ _⟩
  | cons i items ih =>
    by_cases none_ : n = 0
    · subst none_
      exact ⟨[], loop_zero _ _ _, within_nil _ _⟩
    rcases expansion_cons expands with ⟨t, rest, is, more, rfl⟩
    rw [List.length_append] at full
    have spec := specs i List.mem_cons_self t is
    rw [Room, length_text is] at room
    by_cases fits : t.length < n
    · rw [if_pos fits] at room
      rcases spec.fits s n inc fits (unwrapped.call is) with ⟨blocks, performs, here⟩
      rcases ih more (fun j mem => specs j (List.mem_cons_of_mem _ mem)) (by omega) (by omega)
        (unwrapped.tail is small fits) room (s + t.length) (some t.length) with ⟨blocks', rest_, within⟩
      refine ⟨blocks ++ blocks', ?_, here.within.append ?_ (Nat.le_refl s) (by omega)⟩
      · rw [loop_cons (by omega) small (by omega) performs, rest_]
        simp only [Option.map_some, Option.some_inj, Prod.mk.injEq, true_and]
        omega
      · intro b mem some_
        have := within b mem some_
        omega
    · rw [if_neg fits] at room
      have stops : i.Stops n := room.resolve_left none_
      rcases spec.full s n inc (by omega) (by omega) stops with ⟨blocks, performs, within⟩
      refine ⟨blocks, ?_, within⟩
      rw [loop_cons (by omega) small (Nat.le_refl n) performs, Nat.sub_self, loop_zero]
      simp

theorem loop_outside {text : List Char} (expands : expansion tm items = some text)
    (specs : ∀ i ∈ items, ∀ t, i.text tm = some t → Spec bits recur tm i t) {n : Nat} (small : n < 2 ^ bits)
    (unwrapped : Unwrapped bits tm n items) (noRoom : ¬ Room tm n items) (s : Nat) (inc : Option Nat)
    {blocks : List Block} {e : Nat} (made : loop bits recur tm items s n inc = some (blocks, e)) :
    Covers blocks (s + n) := by
  induction items generalizing text n s inc blocks e with
  | nil => exact absurd trivial noRoom
  | cons i items ih =>
    rcases expansion_cons expands with ⟨t, rest, is, more, rfl⟩
    have spec := specs i List.mem_cons_self t is
    rw [Room, length_text is] at noRoom
    by_cases fits : t.length < n
    · rw [if_pos fits] at noRoom
      rcases spec.fits s n inc fits (unwrapped.call is) with ⟨first, performs, here⟩
      rw [loop_cons (by omega) small (by omega) performs] at made
      rcases Option.map_eq_some_iff.mp made with ⟨⟨blocks', e'⟩, rest_, same⟩
      cases same
      have covers := ih more (fun j mem => specs j (List.mem_cons_of_mem _ mem)) (by omega)
        (unwrapped.tail is small fits) noRoom (s + t.length) (some t.length) rest_
      rw [show s + t.length + (n - t.length) = s + n by omega] at covers
      exact covers.right first
    · rw [if_neg fits, not_or] at noRoom
      rw [loop, if_neg noRoom.1] at made
      rcases Option.bind_eq_some_iff.mp made with ⟨⟨first, len⟩, performs, made⟩
      rcases Option.map_eq_some_iff.mp made with ⟨⟨blocks', e'⟩, rest_, same⟩
      cases same
      exact (spec.outside s n inc (by omega) (by omega) (unwrapped.call is) noRoom.2 first len performs).left _

theorem loop_covers {text : List Char} (expands : expansion tm items = some text)
    (specs : ∀ i ∈ items, ∀ t, i.text tm = some t → Spec bits recur tm i t) (noOffset : .conv 'z' ∉ items) {n : Nat}
    (small : n < 2 ^ bits) (unwrapped : Unwrapped bits tm n items) (s : Nat) (inc : Option Nat)
    {blocks : List Block} {e : Nat} (made : loop bits recur tm items s n inc = some (blocks, e)) {k : Nat}
    (inside : k < n) (written : k < text.length) : Covers blocks (s + k) := by
  induction items generalizing text n s inc blocks e k with
  | nil =>
    cases expands
    exact absurd written (Nat.not_lt_zero _)
  | cons i items ih =>
    rcases expansion_cons expands with ⟨t, rest, is, more, rfl⟩
    rw [List.length_append] at written
    have spec := specs i List.mem_cons_self t is
    have noOffset' : i ≠ .conv 'z' := fun same => noOffset (by rw [same]; exact List.mem_cons_self)
    by_cases fits : t.length < n
    · rcases spec.fits s n inc fits (unwrapped.call is) with ⟨first, performs, here⟩
      rw [loop_cons (by omega) small (by omega) performs] at made
      rcases Option.map_eq_some_iff.mp made with ⟨⟨blocks', e'⟩, rest_, same⟩
      cases same
      by_cases early : k < t.length
      · exact (here.covers noOffset' k early).left _
      · have covers := @ih rest more (fun j mem => specs j (List.mem_cons_of_mem _ mem))
          (fun mem => noOffset (List.mem_cons_of_mem _ mem)) (n - t.length) (by omega)
          (unwrapped.tail is small fits) (s + t.length) (some t.length) blocks' e rest_ (k - t.length) (by omega)
          (by omega)
        rw [show s + t.length + (k - t.length) = s + k by omega] at covers
        exact covers.right first
    · rw [loop, if_neg (by omega)] at made
      rcases Option.bind_eq_some_iff.mp made with ⟨⟨first, len⟩, performs, made⟩
      rcases Option.map_eq_some_iff.mp made with ⟨⟨blocks', e'⟩, rest_, same⟩
      cases same
      exact (spec.covers s n inc (by omega) (by omega) (unwrapped.call is) noOffset' first len performs k
        inside).left _

end

section
variable {bits depth : Nat} {tm : Tm} {fmt : List Char} {text : List Char}

theorem call_fits (expands : expansion tm (read fmt) = some text)
    (specs : ∀ i ∈ read fmt, ∀ t, i.text tm = some t → Spec bits (strftime bits tm depth) tm i t) {n : Nat}
    (room : text.length < n) (small : n < 2 ^ bits) (unwrapped : Unwrapped bits tm n (read fmt)) (s : Nat) :
    ∃ blocks, strftime bits tm (depth + 1) s n fmt =
      some (blocks ++ [⟨s + text.length, ['\x00']⟩], text.length) ∧
      Fits (∀ i ∈ read fmt, Right tm i) (.conv 'z' ∈ read fmt) text s blocks := by
  rcases loop_fits expands specs room small unwrapped s none with ⟨blocks, run, fits⟩
  refine ⟨blocks, ?_, fits⟩
  rw [strftime, run, Option.map_some]
  dsimp only
  rw [Nat.add_sub_cancel_left, if_neg (by omega)]

theorem call_covers (expands : expansion tm (read fmt) = some text)
    (specs : ∀ i ∈ read fmt, ∀ t, i.text tm = some t → Spec bits (strftime bits tm depth) tm i t)
    (noOffset : .conv 'z' ∉ read fmt) {n : Nat} (small : n < 2 ^ bits) (unwrapped : Unwrapped bits tm n (read fmt))
    {s : Nat} {blocks : List Block} {e : Nat} (made : strftime bits tm (depth + 1) s n fmt = some (blocks, e))
    {k : Nat} (inside : k < n) (written : k ≤ text.length) : Covers blocks (s + k) := by
  by_cases room : text.length < n
  · rcases call_fits expands specs room small unwrapped s with ⟨first, run, fits⟩
    rw [run] at made
    cases made
    by_cases last : k = text.length
    · subst last
      exact (covers_single (Nat.le_refl _) (by simp)).right first
    · exact (fits.covers noOffset k (by omega)).left _
  · rw [strftime] at made
    rcases Option.map_eq_some_iff.mp made with ⟨⟨first, e'⟩, run, same⟩
    have covers := loop_covers expands specs noOffset small unwrapped s none run inside (by omega)
    dsimp only at same
    split_ifs at same
    · cases same
      exact covers
    · cases same
      exact covers.left _

variable {c : Char} {maxYear : Int} {items : List Item} {maxsize : Nat}

theorem spec_call {tfmt : String} (leads : action tm c = .recursive tfmt) (calls : recursive c = true)
    (expands : expansion tm (read tfmt.toList) = some text)
    (specs : ∀ i ∈ read tfmt.toList, ∀ t, i.text tm = some t → Spec bits (strftime bits tm depth) tm i t)
    (noOffset : .conv 'z' ∉ read tfmt.toList)
    (first : ∀ i, (read tfmt.toList).find? (fun i => i.length tm ≠ 0) = some i → i.recursive = false)
    (right : Right tm (.conv c) ↔ ∀ i ∈ read tfmt.toList, Right tm i) :
    Spec bits (strftime bits tm (depth + 1)) tm (.conv c) text where
  fits := by
    intro s n inc room goes
    have size : (n + 1) % 2 ^ bits = n + 1 := Nat.mod_eq_of_lt (goes calls)
    rcases call_fits expands specs (n := n + 1) (by omega) (goes calls) (.inr first) s with ⟨blocks, run, fits⟩
    have fits := fits.nul
    refine ⟨_, ?_, ⟨fits.within, fun good => fits.right (right.mp good), fun bad => fits.wrong fun all =>
      bad (right.mpr all), fun _ => fits.covers noOffset⟩⟩
    rw [perform, leads]
    dsimp only
    rw [size, run]
  full := by
    intro s n inc _ _ stops
    rw [Item.Stops, Item.recursive, calls] at stops
    cases stops.1
  outside := by
    intro s n inc some_ small goes _ blocks e made
    have size : (n + 1) % 2 ^ bits = n + 1 := Nat.mod_eq_of_lt (goes calls)
    rw [perform, leads] at made
    dsimp only at made
    rw [size] at made
    exact call_covers expands specs noOffset (goes calls) (.inr first) made (by omega) small
  covers := by
    intro s n inc some_ small goes _ blocks e made k inside
    have size : (n + 1) % 2 ^ bits = n + 1 := Nat.mod_eq_of_lt (goes calls)
    rw [perform, leads] at made
    dsimp only at made
    rw [size] at made
    exact call_covers expands specs noOffset (goes calls) (.inr first) made (by omega) (by omega)

theorem spec_flat (known : maxYear = 2038 ∨ maxYear = 9999) (fields : InRange maxYear tm)
    {t : List Char} (flat : i.recursive = false) (is : i.text tm = some t) (recur : Call) : Spec bits recur tm i t := by
  cases i with
  | plain ch =>
    cases is
    exact spec_plain ch
  | cut => cases is
  | conv c =>
    by_cases zone : c = 'z'
    · subst zone
      cases is
      exact spec_offset fields
    · apply spec_simple flat (by simpa using zone)
      intro s n inc some_
      rcases @perform_simple bits recur tm c s n inc maxYear known fields t is flat zone some_ with ⟨w, simple⟩
      exact ⟨w, simple.performs, simple.length, simple.right⟩

theorem decimal_ne_nil (width : Nat) (fill : Char) (v : Int) : (decimal width fill v).length ≠ 0 := by
  have some_ := List.length_pos_iff.mpr (@Nat.toDigits_ne_nil v.toNat 10)
  unfold decimal List.leftpad
  rw [List.length_append]
  omega

theorem dayName_length (fields : InRange maxYear tm) : 3 ≤ (dayName tm).length := by
  have all : ∀ k < 7, 3 ≤ (days.getD k "").toList.length := by decide
  have wday := fields.wday
  exact all tm.wday.toNat (by omega)

/-- The formats of the conversions that call `strftime()` again. -/
structure Composite (tm : Tm) (c : Char) (t : List Char) (tfmt : String) : Prop where
  leads : action tm c = .recursive tfmt
  expands : expansion tm (read tfmt.toList) = some t
  nested : ∀ i ∈ read tfmt.toList, i.recursive = true → c = 'c' ∧ i = .conv 'T'
  noOffset : .conv 'z' ∉ read tfmt.toList
  first : ∃ i items, read tfmt.toList = i :: items ∧ i.recursive = false ∧ i.length tm ≠ 0
  right : Right tm (.conv c) ↔ ∀ i ∈ read tfmt.toList, Right tm i

theorem composite (fields : InRange maxYear tm) (calls : recursive c = true) {t : List Char}
    (is : expand tm c = some t) : ∃ tfmt, Composite tm c t tfmt := by
  have number := decimal_ne_nil
  have day : ((dayName tm).take 3).length ≠ 0 := by
    have := dayName_length fields
    rw [List.length_take]
    omega
  have dates : Composite tm 'D' (date tm) "%m/%d/%y" := by
    have items : read "%m/%d/%y".toList = [.conv 'm', .plain '/', .conv 'd', .plain '/', .conv 'y'] := rfl
    constructor
    · rfl
    · rw [items]
      simp [expansion, Item.text, expand, date]
    · decide
    · decide
    · exact ⟨_, _, items, rfl, number _ _ _⟩
    · rw [items]
      simp [Right]
  have times : Composite tm 'T' (time tm) "%H:%M:%S" := by
    have items : read "%H:%M:%S".toList = [.conv 'H', .plain ':', .conv 'M', .plain ':', .conv 'S'] := rfl
    constructor
    · rfl
    · rw [items]
      simp [expansion, Item.text, expand, time]
    · decide
    · decide
    · exact ⟨_, _, items, rfl, number _ _ _⟩
    · rw [items]
      simp [Right]
  have member : c ∈ ['c', 'D', 'F', 'r', 'R', 'T', 'X', 'x'] := of_decide_eq_true calls
  simp only [List.mem_cons, List.not_mem_nil, or_false] at member
  rcases member with rfl | rfl | rfl | rfl | rfl | rfl | rfl | rfl <;> cases is
  · have items : read "%a %b %e %T %Y".toList = [.conv 'a', .plain ' ', .conv 'b', .plain ' ', .conv 'e', .plain ' ',
      .conv 'T', .plain ' ', .conv 'Y'] := rfl
    refine ⟨"%a %b %e %T %Y", rfl, ?_, by decide, by decide, ⟨_, _, items, rfl, day⟩, ?_⟩
    · rw [items]
      simp [expansion, Item.text, expand]
    · rw [items]
      simp [Right]
  · exact ⟨_, dates⟩
  · have items : read "%Y-%m-%d".toList = [.conv 'Y', .plain '-', .conv 'm', .plain '-', .conv 'd'] := rfl
    refine ⟨"%Y-%m-%d", rfl, ?_, by decide, by decide, ⟨_, _, items, rfl, number _ _ _⟩, ?_⟩
    · rw [items]
      simp [expansion, Item.text, expand]
    · rw [items]
      simp [Right]
  · have items : read "%I:%M:%S %p".toList = [.conv 'I', .plain ':', .conv 'M', .plain ':', .conv 'S', .plain ' ',
      .conv 'p'] := rfl
    refine ⟨"%I:%M:%S %p", rfl, ?_, by decide, by decide, ⟨_, _, items, rfl, number _ _ _⟩, ?_⟩
    · rw [items]
      simp [expansion, Item.text, expand]
    · rw [items]
      simp [Right]
  · have items : read "%H:%M".toList = [.conv 'H', .plain ':', .conv 'M'] := rfl
    refine ⟨"%H:%M", rfl, ?_, by decide, by decide, ⟨_, _, items, rfl, number _ _ _⟩, ?_⟩
    · rw [items]
      simp [expansion, Item.text, expand]
    · rw [items]
      simp [Right]
  · exact ⟨_, times⟩
  · exact ⟨"%H:%M:%S", rfl, times.expands, by decide, times.noOffset, times.first, by rw [← times.right]; rfl⟩
  · exact ⟨"%m/%d/%y", rfl, dates.expands, by decide, dates.noOffset, dates.first, by rw [← dates.right]; rfl⟩

theorem spec_composite {tfmt : String} (format : Composite tm c text tfmt) (calls : recursive c = true)
    (specs : ∀ i ∈ read tfmt.toList, ∀ t, i.text tm = some t → Spec bits (strftime bits tm depth) tm i t) :
    Spec bits (strftime bits tm (depth + 1)) tm (.conv c) text := by
  apply spec_call format.leads calls format.expands specs format.noOffset _ format.right
  intro i found
  rcases format.first with ⟨j, items, same, flat, nonempty⟩
  rw [same, List.find?_cons_of_pos (by simpa using nonempty)] at found
  cases found
  exact flat

theorem spec_all (known : maxYear = 2038 ∨ maxYear = 9999) (fields : InRange maxYear tm) (i : Item)
    (t : List Char) (is : i.text tm = some t) : Spec bits (strftime bits tm (depth + 2)) tm i t := by
  by_cases flat : i.recursive = false
  · exact spec_flat known fields flat is _
  · cases i with
    | plain ch => exact absurd rfl flat
    | cut => exact absurd rfl flat
    | conv c =>
      have calls : recursive c = true := by simpa [Item.recursive] using flat
      rcases composite fields calls is with ⟨tfmt, format⟩
      apply spec_composite format calls
      intro j mem t' is'
      by_cases flat' : j.recursive = false
      · exact spec_flat known fields flat' is' _
      · have ⟨_, nested⟩ := format.nested j mem (by simpa using flat')
        subst nested
        have time_ : expand tm 'T' = some t' := is'
        rcases composite fields (by decide) time_ with ⟨tfmt', format'⟩
        apply spec_composite format' (by decide)
        intro k mem' t'' is''
        apply spec_flat known fields _ is''
        by_contra deeper
        have ⟨other, _⟩ := format'.nested k mem' (by simpa using deeper)
        exact absurd other (by decide)

/-- The first item that writes something is a call, which is given the size 0. -/
def Skips (bits : Nat) (tm : Tm) (maxsize : Nat) (items : List Item) : Prop :=
  maxsize + 1 = 2 ^ bits ∧ ∃ i, items.find? (fun i => i.length tm ≠ 0) = some i ∧ i.recursive = true

def skipped (tm : Tm) (items : List Item) : List Item := items.dropWhile fun i => i.recursive || i.length tm = 0

def totalLength (tm : Tm) (items : List Item) : Nat := (items.map (Item.length tm)).sum

def Met (bits : Nat) (tm : Tm) (maxsize : Nat) (items : List Item) : Prop :=
  (¬ Skips bits tm maxsize items →
      (totalLength tm items < maxsize → ∀ i ∈ items, Right tm i) ∧ Room tm maxsize items) ∧
    (Skips bits tm maxsize items → maxsize ≤ totalLength tm items ∧
      (skipped tm items = [] ∨
        (maxsize ≤ totalLength tm (skipped tm items) ∧ Room tm maxsize (skipped tm items))))

theorem totalLength_text {text : List Char} (expands : expansion tm items = some text) :
    totalLength tm items = text.length := by
  induction items generalizing text with
  | nil =>
    cases expands
    rfl
  | cons i items ih =>
    rcases expansion_cons expands with ⟨t, rest, is, more, rfl⟩
    have later := ih more
    unfold totalLength at later ⊢
    rw [List.map_cons, List.sum_cons, later, length_text is, List.length_append]

theorem room_of_fits {text : List Char} (expands : expansion tm items = some text) {n : Nat}
    (room : text.length < n) : Room tm n items := by
  induction items generalizing text n with
  | nil => trivial
  | cons i items ih =>
    rcases expansion_cons expands with ⟨t, rest, is, more, rfl⟩
    rw [List.length_append] at room
    rw [Room, length_text is, if_pos (by omega)]
    exact ih more (by omega)

theorem unwrapped_of_not_skips {n : Nat} (small : n < 2 ^ bits) (goes : ¬ Skips bits tm n items) :
    Unwrapped bits tm n items := by
  by_cases last : n + 1 = 2 ^ bits
  · right
    intro i found
    by_contra calls
    exact goes ⟨last, i, found, by simpa using calls⟩
  · left
    omega

theorem inside_iff {blocks : List Block} : (∀ b ∈ blocks, b.Inside maxsize) ↔ Within 0 maxsize blocks := by
  constructor
  · intro inside b mem some_
    exact ⟨Nat.zero_le _, inside b mem some_⟩
  · intro within b mem some_
    exact (within b mem some_).2

theorem Covers.not_within {blocks : List Block} {k maxsize : Nat} (covers : Covers blocks k) (outside : maxsize ≤ k) :
    ¬ Within 0 maxsize blocks := by
  intro within
  rcases covers with ⟨b, mem, low, high⟩
  have some_ : b.text ≠ [] := by
    intro none_
    rw [none_, List.length_nil] at high
    omega
  have := within b mem some_
  omega

theorem contract_fits (expands : expansion tm (read fmt) = some text)
    (specs : ∀ i ∈ read fmt, ∀ t, i.text tm = some t → Spec bits (strftime bits tm depth) tm i t)
    (room : text.length < maxsize) (small : maxsize < 2 ^ bits) (unwrapped : Unwrapped bits tm maxsize (read fmt)) :
    (∃ blocks n, strftime bits tm (depth + 1) 0 maxsize fmt = some (blocks, n) ∧ Contract maxsize text blocks n) ↔
      ∀ i ∈ read fmt, Right tm i := by
  rcases call_fits expands specs room small unwrapped 0 with ⟨first, run, plain⟩
  have fits := plain.nul
  rw [Nat.zero_add] at run
  rw [Nat.zero_add] at fits
  rw [run]
  constructor
  · rintro ⟨blocks, n, made, contract⟩
    cases made
    by_contra bad
    rcases fits.wrong bad with ⟨k, c, x, here, other⟩
    have wrong := other (fun _ => x) fun _ => rfl
    rw [Nat.zero_add] at wrong
    exact wrong ((contract.written room fun _ => x).1 k c here)
  · intro good
    refine ⟨_, _, rfl, ?_, (if_pos room).symm, ?_⟩
    · apply inside_iff.mpr
      intro b mem some_
      have := fits.within b mem some_
      omega
    · intro _ mem
      constructor
      · intro k c here
        have found := fits.right good mem k c here
        rw [Nat.zero_add] at found
        exact found
      · rw [store_append]
        exact @put_inside text.length 0 ['\x00'] _ rfl _

/-- The end of `strftime()` at the start of the array. -/
def finish (maxsize : Nat) (result : List Block × Nat) : List Block × Nat :=
  if result.2 - 0 = maxsize then (result.1, 0) else (result.1 ++ [⟨result.2, ['\x00']⟩], result.2 - 0)

theorem strftime_finish (maxsize : Nat) : strftime bits tm (depth + 1) 0 maxsize fmt =
      (loop bits (strftime bits tm depth) tm (read fmt) 0 maxsize none).map (finish maxsize) := rfl

theorem contract_full {items : List Item} {rest : List Char} (expands : expansion tm items = some rest)
    (specs : ∀ i ∈ items, ∀ t, i.text tm = some t → Spec bits (strftime bits tm depth) tm i t) {maxsize : Nat}
    (full : maxsize ≤ rest.length) (full' : maxsize ≤ text.length) (small : maxsize < 2 ^ bits)
    (unwrapped : Unwrapped bits tm maxsize items) (inc : Option Nat) {before : List Block}
    (start : Within 0 maxsize before) :
    (∃ blocks n, ((loop bits (strftime bits tm depth) tm items 0 maxsize inc).map fun (more, e) =>
        finish maxsize (before ++ more, e)) = some (blocks, n) ∧ Contract maxsize text blocks n) ↔
      Room tm maxsize items := by
  constructor
  · rintro ⟨blocks, n, made, contract⟩
    rcases Option.map_eq_some_iff.mp made with ⟨⟨more, e⟩, run, same⟩
    by_contra noRoom
    have covers := loop_outside expands specs small unwrapped noRoom 0 inc run
    have inside := inside_iff.mp contract.inside
    rw [Nat.zero_add] at covers
    apply covers.not_within (Nat.le_refl maxsize)
    intro b mem some_
    apply inside b _ some_
    unfold finish at same
    dsimp only at same
    split_ifs at same <;> cases same
    · exact List.mem_append_right _ mem
    · exact List.mem_append_left _ (List.mem_append_right _ mem)
  · intro room
    rcases loop_full expands specs full small unwrapped room 0 inc with ⟨more, run, within⟩
    rw [Nat.zero_add] at within run
    refine ⟨before ++ more, 0, ?_, ?_, (if_neg (by omega)).symm, fun fits => absurd fits (by omega)⟩
    · rw [run]
      exact congrArg some (if_pos rfl)
    · exact inside_iff.mpr (start.append within (Nat.le_refl _) (Nat.le_refl _))

theorem skipped_first (tm : Tm) (items : List Item) : skipped tm items = [] ∨
      ∃ i rest, skipped tm items = i :: rest ∧ i.recursive = false ∧ i.length tm ≠ 0 := by
  induction items with
  | nil => exact .inl rfl
  | cons i items ih =>
    unfold skipped at ih ⊢
    rw [List.dropWhile_cons]
    split_ifs with skip
    · exact ih
    · simp only [Bool.or_eq_true, decide_eq_true_eq, not_or, Bool.not_eq_true] at skip
      exact .inr ⟨i, items, rfl, skip⟩

theorem skipped_expands (expands : expansion tm items = some text) :
    ∃ rest, expansion tm (skipped tm items) = some rest := by
  induction items generalizing text with
  | nil => exact ⟨_, expands⟩
  | cons i items ih =>
    rcases expansion_cons expands with ⟨t, rest, is, more, rfl⟩
    unfold skipped at ih ⊢
    rw [List.dropWhile_cons]
    split_ifs
    · exact ih more
    · exact ⟨_, expands⟩

theorem skipped_length (tm : Tm) (items : List Item) : totalLength tm (skipped tm items) ≤ totalLength tm items := by
  induction items with
  | nil => exact le_rfl
  | cons i items ih =>
    unfold skipped totalLength at ih ⊢
    rw [List.dropWhile_cons]
    split_ifs
    · rw [List.map_cons, List.sum_cons]
      omega
    · exact le_rfl

theorem skipped_lost (found : items.find? (fun i => i.length tm ≠ 0) = some i)
    (calls : i.recursive = true) : totalLength tm (skipped tm items) < totalLength tm items := by
  induction items with
  | nil => cases found
  | cons j items ih =>
    by_cases empty : j.length tm = 0
    · rw [List.find?_cons_of_neg (by simpa using empty)] at found
      have less := ih found
      unfold skipped totalLength at less ⊢
      rw [List.dropWhile_cons_of_pos (by simp [empty]), List.map_cons, List.sum_cons]
      omega
    · rw [List.find?_cons_of_pos (by simpa using empty)] at found
      cases found
      have less := skipped_length tm items
      unfold skipped totalLength at less ⊢
      rw [List.dropWhile_cons_of_pos (by simp [calls]), List.map_cons, List.sum_cons]
      omega

theorem loop_skip {maxYear : Int} (known : maxYear = 2038 ∨ maxYear = 9999) (fields : InRange maxYear tm)
    {items : List Item} (expands : expansion tm items = some text) {n : Nat} (last : n + 1 = 2 ^ bits) (some_ : 0 < n) :
    ∀ inc, ∃ before inc', Within 0 n before ∧ loop bits (strftime bits tm (depth + 2)) tm items 0 n inc =
        (loop bits (strftime bits tm (depth + 2)) tm (skipped tm items) 0 n inc').map
          fun (more, e) => (before ++ more, e) := by
  induction items generalizing text with
  | nil => exact fun inc => ⟨[], inc, within_nil _ _, rfl⟩
  | cons i items ih =>
    intro inc
    rcases expansion_cons expands with ⟨t, rest, is, more, rfl⟩
    have drops : i.recursive = true ∨ i.length tm = 0 → skipped tm (i :: items) = skipped tm items := by
      intro skip
      unfold skipped
      rw [List.dropWhile_cons_of_pos (by simpa using skip)]
    by_cases calls : i.recursive = true
    · cases i with
      | plain ch => cases calls
      | cut => cases calls
      | conv c =>
        rcases composite fields calls is with ⟨tfmt, format⟩
        have performs : perform bits (strftime bits tm (depth + 2)) tm (.conv c) 0 n inc = some ([], 0) := by
          have nothing : strftime bits tm (depth + 2) 0 0 tfmt.toList = some ([], 0) := by
            rw [strftime, loop_zero]
            rfl
          rw [perform, format.leads]
          dsimp only
          rw [last, Nat.mod_self, nothing]
        rcases ih more (some 0) with ⟨before, inc', within, run⟩
        refine ⟨before, inc', within, ?_⟩
        rw [loop_cons some_ (by omega) (Nat.zero_le n) performs, drops (.inl calls), Nat.zero_add, Nat.sub_zero, run,
          Option.map_map]
        rfl
    · by_cases empty : i.length tm = 0
      · have none_ : t.length = 0 := by rw [← length_text is, empty]
        rcases (spec_all known fields i t is).fits 0 n inc (by omega) (fun h => absurd h calls) with
          ⟨blocks, performs, fits⟩
        rw [none_] at performs
        rcases ih more (some 0) with ⟨before, inc', within, run⟩
        refine ⟨blocks ++ before, inc', fits.within.append within (Nat.le_refl 0) (by omega), ?_⟩
        rw [loop_cons some_ (by omega) (Nat.zero_le n) performs, drops (.inr empty), Nat.zero_add, Nat.sub_zero, run,
          Option.map_map]
        congr 1
        funext result
        simp [List.append_assoc]
      · have stays : skipped tm (i :: items) = i :: items := by
          unfold skipped
          rw [List.dropWhile_cons_of_neg (by simp [calls, empty])]
        refine ⟨[], inc, within_nil _ _, ?_⟩
        rw [stays]
        simp

theorem skips_iff (known : maxYear = 2038 ∨ maxYear = 9999) (fields : InRange maxYear tm)
    (expands : expansion tm (read fmt) = some text) (some_ : 0 < maxsize)
    (skips : Skips bits tm maxsize (read fmt)) :
    (∃ blocks n, strftime bits tm (depth + 3) 0 maxsize fmt = some (blocks, n) ∧ Contract maxsize text blocks n) ↔
      maxsize ≤ totalLength tm (read fmt) ∧ (skipped tm (read fmt) = [] ∨
        (maxsize ≤ totalLength tm (skipped tm (read fmt)) ∧ Room tm maxsize (skipped tm (read fmt)))) := by
  have ⟨last, i, found, calls⟩ := skips
  have lost := skipped_lost found calls
  have total := totalLength_text expands
  rcases skipped_expands expands with ⟨rest, expands'⟩
  have total' := totalLength_text expands'
  rcases @loop_skip bits depth tm text maxYear known fields _ expands _ last some_ none with
    ⟨before, inc, within, run⟩
  rw [strftime_finish, run, Option.map_map, total, total']
  have specs : ∀ i ∈ skipped tm (read fmt), ∀ t, i.text tm = some t → Spec bits (strftime bits tm (depth + 2)) tm i t :=
    fun i _ t is => spec_all known fields i t is
  have small : maxsize < 2 ^ bits := by omega
  rcases skipped_first tm (read fmt) with none_ | ⟨j, items, first, flat, nonempty⟩
  · have ends : ((loop bits (strftime bits tm (depth + 2)) tm (skipped tm (read fmt)) 0 maxsize inc).map
        (finish maxsize ∘ fun (more, e) => (before ++ more, e))) = some (before ++ [⟨0, ['\x00']⟩], 0) := by
      rw [none_]
      change some (finish maxsize (before ++ [], 0)) = _
      rw [List.append_nil, finish, if_neg (by omega)]
      rfl
    rw [ends]
    constructor
    · rintro ⟨blocks, n, made, contract⟩
      cases made
      have returned := contract.returned
      refine ⟨?_, .inl none_⟩
      by_contra fits
      rw [if_pos (by omega)] at returned
      omega
    · intro met
      refine ⟨_, _, rfl, ?_, (if_neg (by omega)).symm, fun fits => absurd fits (by omega)⟩
      apply inside_iff.mpr
      exact within.append (within_single (Nat.le_refl 0) some_) (Nat.le_refl 0) (Nat.le_refl maxsize)
  · have unwrapped : Unwrapped bits tm maxsize (skipped tm (read fmt)) := by
      right
      intro k found'
      rw [first, List.find?_cons_of_pos (by simpa using nonempty)] at found'
      cases found'
      exact flat
    have some_rest : skipped tm (read fmt) ≠ [] := by
      rw [first]
      exact List.cons_ne_nil _ _
    have positive : 0 < rest.length := by
      rw [← total', first, totalLength, List.map_cons, List.sum_cons]
      omega
    by_cases fits : rest.length < maxsize
    · rcases loop_fits expands' specs fits small unwrapped 0 inc with ⟨more, run', _⟩
      rw [run', Nat.zero_add, Option.map_some]
      constructor
      · rintro ⟨blocks, n, made, contract⟩
        have returned := contract.returned
        have short : n = rest.length := by
          have made' : some (finish maxsize (before ++ more, rest.length)) = some (blocks, n) := made
          rw [finish, if_neg (by dsimp only; omega)] at made'
          cases made'
          rfl
        split_ifs at returned <;> omega
      · rintro ⟨_, none_ | ⟨full, _⟩⟩
        · exact absurd none_ some_rest
        · omega
    · by_cases large : maxsize ≤ text.length
      · have room := contract_full expands' specs (by omega) large small unwrapped inc within
        simp only [large, true_and, some_rest, false_or]
        rw [and_iff_right (by omega)]
        exact room
      · omega

/-- For every format of known conversions: with enough space every item has to be right, with too little the item at
the end of the array has to stop there. With the largest `size_t` the calls at the start are skipped. -/
theorem strftime_iff (bits : Nat) (size : bits = 32 ∨ bits = 64) (maxYear : Int)
    (known : maxYear = 2038 ∨ maxYear = 9999) (tm : Tm) (fields : InRange maxYear tm) (fmt text : List Char)
    (expands : expansion tm (read fmt) = some text) (maxsize : Nat) (small : maxsize < 2 ^ bits) (depth : Nat) :
    (∃ blocks n, strftime bits tm (depth + 3) 0 maxsize fmt = some (blocks, n) ∧ Contract maxsize text blocks n) ↔
      Met bits tm maxsize (read fmt) := by
  have total := totalLength_text expands
  have word : 2 ≤ 2 ^ bits := by
    rcases size with rfl | rfl <;> decide
  have specs : ∀ i ∈ read fmt, ∀ t, i.text tm = some t → Spec bits (strftime bits tm (depth + 2)) tm i t :=
    fun i _ t is => spec_all known fields i t is
  by_cases skips : Skips bits tm maxsize (read fmt)
  · have last := skips.1
    rw [skips_iff known fields expands (by omega) skips]
    exact ⟨fun met => ⟨fun goes => absurd skips goes, fun _ => met⟩, fun met => met.2 skips⟩
  · have unwrapped := unwrapped_of_not_skips small skips
    have met : Met bits tm maxsize (read fmt) ↔
        (text.length < maxsize → ∀ i ∈ read fmt, Right tm i) ∧ Room tm maxsize (read fmt) := by
      unfold Met
      rw [total]
      exact ⟨fun both => both.1 skips, fun here => ⟨fun _ => here, fun goes => absurd goes skips⟩⟩
    rw [met]
    by_cases fits : text.length < maxsize
    · rw [contract_fits expands specs fits small unwrapped]
      exact ⟨fun good => ⟨fun _ => good, room_of_fits expands fits⟩, fun both => both.1 fits⟩
    · have full : maxsize ≤ text.length := by omega
      have room := @contract_full bits (depth + 2) tm text _ text expands specs maxsize full full small unwrapped
        none [] (within_nil 0 maxsize)
      constructor
      · intro holds
        exact ⟨fun h => absurd h fits, room.mp holds⟩
      · intro both
        exact room.mpr both.2

end

def epoch : Tm := ⟨0, 0, 0, 1, 0, 70, 4, 0, 0, "GMT".toList⟩

theorem epoch_inRange : InRange 9999 epoch := by
  constructor <;> decide

theorem strftime_iff_time :
    (∃ blocks n, strftime 64 epoch 3 0 6 "%R".toList = some (blocks, n) ∧ Contract 6 "00:00".toList blocks n) ↔
      Met 64 epoch 6 (read "%R".toList) :=
  strftime_iff 64 (.inr rfl) 9999 (.inr rfl) epoch epoch_inRange _ _ rfl 6 (by decide) 0

/-- The NUL of the inner call is written behind an array that the time fills. -/
theorem time_outside : ¬ ∀ (bits : Nat), bits = 32 ∨ bits = 64 → ∀ maxYear : Int,
    maxYear = 2038 ∨ maxYear = 9999 → ∀ tm : Tm, InRange maxYear tm →
      ∀ fmt text : List Char, expansion tm (read fmt) = some text → ∀ maxsize < 2 ^ bits, ∀ depth, ∃ blocks n,
        strftime bits tm (depth + 3) 0 maxsize fmt = some (blocks, n) ∧ Contract maxsize text blocks n := by
  intro all
  rcases all 64 (.inr rfl) 9999 (.inr rfl) epoch epoch_inRange "%R".toList "00:00".toList rfl 5 (by decide) 0 with
    ⟨blocks, n, made, contract⟩
  have call : read "%R".toList = [.conv 'R'] := rfl
  have expands : expansion epoch (read "%R".toList) = some "00:00".toList := rfl
  have unwrapped : Unwrapped 64 epoch 5 (read "%R".toList) := .inl (by decide)
  have room := (@contract_full 64 2 epoch "00:00".toList _ _ expands
    (fun i _ t is => spec_all (.inr rfl) epoch_inRange i t is) 5 (by decide) (by decide) (by decide) unwrapped none []
    (within_nil 0 5)).mp ⟨blocks, n, made, contract⟩
  rw [call, Room, if_neg (by decide)] at room
  rcases room with none_ | stops
  · exact absurd none_ (by decide)
  · exact absurd stops.1 (by decide)

end Scc.Libc.Strftime
