import Scc.Libc.NumberBuffer

/-!
# The count of the characters

The loop of `vfprintf()` adds `inc` to `cnt` after every character of the format and every conversion, and
`%n` stores `cnt`. A format with its arguments is a list of `Item`s here, over the conversions of
characters, strings, integers and counts. `mem` is what the objects for `%n` hold before, and `open_` tells
which strings are arrays without a NUL, by the number of the arguments after them.
-/

namespace Scc.Libc.Printf

set_option autoImplicit false

inductive Item
  | literal (c : Char)
  | percent (conv : Conv)
  | char (ch : Int) (conv : Conv)
  | wchar (wc : Int) (conv : Conv)
  | str (s : List Char) (left : Nat) (conv : Conv)
  | wstr (ws : List Int) (left : Nat) (conv : Conv)
  | number (bits : BitVec 64) (c : Char) (conv : Conv)
  | count (p : BitVec 64) (flags : Nat)

/-- The conversion that a character ends, with its argument. -/
def item (c : Char) (conv : Conv) (args : List Arg) : Option (Item × List Arg) :=
  match c, args with
  | '%', args => some (.percent conv, args)
  | 'c', .word bits :: args =>
    some (if has conv.flags LONG then .wchar (int bits) conv else .char (int bits) conv, args)
  | 's', .str s :: args => if has conv.flags LONG then none else some (.str s args.length conv, args)
  | 's', .wstr ws :: args => if has conv.flags LONG then some (.wstr ws args.length conv, args) else none
  | 'n', .word p :: args => some (.count p conv.flags, args)
  | c, .word bits :: args => (numericCase c conv).map fun _ => (.number bits c conv, args)
  | _, _ => none

/-- The items of a format, when there is an argument of the right kind for every conversion. -/
def items : List Char → Option (Reading × Conv) → List Arg → Option (List Item)
  | [], _, _ => some []
  | c :: fmt, none, args =>
    if c = '%' then items fmt (some (.none, .initial)) args else (items fmt none args).map (.literal c :: ·)
  | c :: fmt, some (reading, conv), args =>
    match reading.next c with
    | some reading => if reading.value ≤ INT_MAX then items fmt (some (reading, conv)) args else none
    | none =>
      let conv := reading.finish conv
      match c, fmt, args with
      | '.', '*' :: fmt, .word bits :: args => items fmt (some (.none, setPrec (int bits) conv)) args
      | '.', '*' :: _, _ => none
      | '.', fmt, args => items fmt (some (.prec 0, conv)) args
      | '*', fmt, .word bits :: args => items fmt (some (.none, { conv with width := int bits })) args
      | '*', _, _ => none
      | '-', fmt, args => items fmt (some (.width 0, { conv with left := true })) args
      | c, fmt, args =>
        if c.isDigit ∧ c ≠ '0' then items fmt (some (.width (digit c), conv)) args
        else
          match flag c conv with
          | some conv => items fmt (some (.none, conv)) args
          | none => (item c conv args).bind fun (i, args) => (items fmt none args).map (i :: ·)

/-- What `wstrout()` writes, and the error flag of the stream. -/
def wide (ws : List Int) (len : Nat) (conv : Conv) (err : Bool) : Piece × Bool :=
  let (chars, err) := wstrout ws len conv.width conv.fill err
  (.text chars, err)

/-- What an item writes and the error flag, or nothing when the number does not fit the buffer. -/
def Item.piece (err : Bool) : Item → Option (Piece × Bool)
  | .literal c => some (.text [c], err)
  | .percent conv => some (.text (strout ['%'] 1 conv.width conv.fill), err)
  | .char ch conv =>
    some (.text (strout (if ch % 2 ^ 8 = 0 then [] else [byte (ch % 2 ^ 8).toNat]) 1 conv.width conv.fill), err)
  | .wchar wc conv => some (wide [wc] 1 conv err)
  | .str s _ conv => some (.text (strout s (conv.cut s.length) conv.width conv.fill), err)
  | .wstr ws _ conv => some (wide ws (conv.cut ws.length) conv err)
  | .number bits c conv =>
    (numericCase c conv).bind fun (conv, base) =>
      let (val, sign) := getnum bits conv.flags conv.sign
      let s := numtostr val conv.flags { conv with prec := min conv.prec MAXPREC, sign } base
      if s.length ≤ MAXPREC then some (.text (strout s s.length conv.width conv.fill), err) else none
  | .count _ _ => some (.silent, err)

def pieces (err : Bool) : List Item → Option (List Piece × Bool)
  | [] => some ([], err)
  | i :: l =>
    (i.piece err).bind fun (piece, err) => (pieces err l).map fun (more, err) => (piece :: more, err)

theorem convert_item {c : Char} {conv : Conv} {p : Printer} {i : Item} {args : List Arg}
    (is : item c conv p.args = some (i, args)) :
    convert c conv p = (i.piece p.err).map fun (piece, err) => { p with args, err }.add piece := by
  rcases p with ⟨given, err, pieces⟩
  unfold item at is
  split at is
  · cases is
    rfl
  · rename_i same
    dsimp only at same
    subst same
    cases is
    unfold convert Printer.int
    dsimp only [Option.map_some]
    split_ifs <;> rfl
  · rename_i same
    dsimp only at same
    subst same
    split_ifs at is with long
    cases is
    have plain : has conv.flags LONG = false := by simpa using long
    unfold convert
    simp only [plain]
    rfl
  · rename_i same
    dsimp only at same
    subst same
    split_ifs at is with long
    cases is
    unfold convert
    simp only [long]
    rfl
  · rename_i same
    dsimp only at same
    subst same
    cases is
    rfl
  · rename_i same
    dsimp only at same
    subst same
    rcases Option.map_eq_some_iff.mp is with ⟨⟨conv', base⟩, case, made⟩
    cases made
    rw [convert_numericCase case, Item.piece, case]
    unfold numeric
    dsimp only [Option.bind_some]
    split_ifs <;> rfl
  · cases is

variable {i : Item} {args : List Arg} {fmt text : List Char} {l : List Item}

theorem pieces_cons {piece : Piece} {err err' : Bool} (writes : i.piece err = some (piece, err'))
    (l : List Item) (rest : List Arg) (before : List Piece) :
    (pieces err' l).map (fun (more, err) => (⟨rest, err, before ++ [piece] ++ more⟩ : Printer)) =
      (pieces err (i :: l)).map fun (more, err) => ⟨rest, err, before ++ more⟩ := by
  rw [pieces, writes, Option.bind_some]
  dsimp only
  cases pieces err' l with
  | none => rfl
  | some made => simp

theorem vfprintf_other {c : Char} {reading : Reading} (next : reading.next c = none) (dot : c ≠ '.') (star : c ≠ '*')
    (minus : c ≠ '-') (digit : ¬(c.isDigit = true ∧ c ≠ '0')) (fmt : List Char) (conv : Conv) (p : Printer) :
    vfprintf (c :: fmt) (some (reading, conv)) p =
      match flag c (reading.finish conv) with
      | some conv => vfprintf fmt (some (.none, conv)) p
      | none => (convert c (reading.finish conv) p).bind (vfprintf fmt none) := by
  rw [vfprintf, next]
  dsimp only
  split
  · exact absurd rfl dot
  · exact absurd rfl dot
  · exact absurd rfl star
  · exact absurd rfl minus
  · exact if_neg digit

theorem vfprintf_items {state : Option (Reading × Conv)}
    (read : items fmt state args = some l) (err : Bool) (before : List Piece) :
    ∃ rest, vfprintf fmt state ⟨args, err, before⟩ =
      (pieces err l).map fun (more, err) => ⟨rest, err, before ++ more⟩ := by
  fun_induction items fmt state args generalizing err before l
  case case1 =>
    cases read
    exact ⟨_, by rw [vfprintf, pieces, Option.map_some]; dsimp only; rw [List.append_nil]⟩
  case case2 =>
    rename_i ih
    rcases ih read err before with ⟨rest, run⟩
    exact ⟨rest, by rw [vfprintf, if_pos rfl, run]⟩
  case case3 =>
    rename_i c _ _ other ih
    rcases Option.map_eq_some_iff.mp read with ⟨later, same, rfl⟩
    rcases ih same err (before ++ [.text [c]]) with ⟨rest, run⟩
    exact ⟨rest, by rw [vfprintf, if_neg other]; exact run.trans (pieces_cons rfl later rest before)⟩
  case case4 =>
    rename_i next small ih
    rcases ih read err before with ⟨rest, run⟩
    exact ⟨rest, by rw [vfprintf, next]; exact (if_pos small).trans run⟩
  case case6 =>
    rename_i next ih
    rcases ih read err before with ⟨rest, run⟩
    exact ⟨rest, by rw [vfprintf, next]; exact run⟩
  case case8 =>
    rename_i noStar next ih
    rcases ih read err before with ⟨rest, run⟩
    refine ⟨rest, ?_⟩
    rw [vfprintf, next]
    dsimp only
    split
    · exact absurd rfl (noStar _)
    · exact run
    all_goals simp_all
  case case9 =>
    rename_i next ih
    rcases ih read err before with ⟨rest, run⟩
    exact ⟨rest, by rw [vfprintf, next]; exact run⟩
  case case11 =>
    rename_i next ih
    rcases ih read err before with ⟨rest, run⟩
    exact ⟨rest, by rw [vfprintf, next]; exact run⟩
  case case12 =>
    rename_i dot _ star minus digit next ih
    rcases ih read err before with ⟨rest, run⟩
    refine ⟨rest, ?_⟩
    rw [vfprintf, next]
    dsimp only
    split
    · exact (dot rfl).elim
    · exact (dot rfl).elim
    · exact (star rfl).elim
    · exact (minus rfl).elim
    · exact (if_pos digit).trans run
  case case13 =>
    rename_i dot _ star minus digit other set next ih
    rcases ih read err before with ⟨rest, run⟩
    refine ⟨rest, ?_⟩
    rw [vfprintf_other next dot star minus digit]
    change flag _ (Reading.finish _ _) = some other at set
    rw [set]
    exact run
  case case14 =>
    rename_i dot _ star minus digit set next ih
    rcases Option.bind_eq_some_iff.mp read with ⟨⟨i, args⟩, is, tail⟩
    rcases Option.map_eq_some_iff.mp tail with ⟨later, same, rfl⟩
    have perform := @convert_item _ _ ⟨_, err, before⟩ _ _ is
    change flag _ (Reading.finish _ _) = none at set
    change convert _ (Reading.finish _ _) _ = _ at perform
    cases writes : i.piece err with
    | none =>
      refine ⟨[], ?_⟩
      rw [writes, Option.map_none] at perform
      rw [vfprintf_other next dot star minus digit, set, pieces, writes]
      dsimp only
      rw [perform]
      rfl
    | some made =>
      rcases made with ⟨piece, err'⟩
      rcases ih args same err' (before ++ [piece]) with ⟨rest, run⟩
      refine ⟨rest, ?_⟩
      rw [writes, Option.map_some] at perform
      rw [vfprintf_other next dot star minus digit, set, ← pieces_cons writes]
      dsimp only
      rw [perform]
      exact run
  all_goals cases read

theorem print_items (read : items fmt none args = some l) : print fmt args = pieces false l := by
  rcases vfprintf_items read false [] with ⟨rest, run⟩
  unfold print
  rw [run]
  cases pieces false l <;> rfl

/-- The bits that `savecnt()` writes. -/
def storeBits (flags : Nat) : Nat :=
  if has flags CHAR then 8
  else if has flags SHORT then 16
  else if has flags LONG then 64
  else if has flags LLONG then 64
  else if has flags SIZET then 64
  else if has flags INTMAX then 64
  else 32

/-- The bits of the object. A `ptrdiff_t` is the one that the code does not know. -/
def typeBits (flags : Nat) : Nat := if has flags PTRDIFF ∧ storeBits flags = 32 then 64 else storeBits flags

def savecnt (flags cnt old : Nat) : Nat :=
  old / 2 ^ storeBits flags * 2 ^ storeBits flags + cnt % 2 ^ storeBits flags

def stored (flags cnt old : Nat) : Int := (savecnt flags cnt old : Int).bmod (2 ^ typeBits flags)

/-- The elements that `strlen()` or `wcslen()` reads. -/
def strlenReads {α : Type} (s : List α) : Nat := s.length + 1

/-- The elements of the array of a string, which may be without the NUL. -/
def arraySize {α : Type} (s : List α) (unterminated : Bool) : Nat := s.length + if unterminated then 0 else 1

/-- The character of `%c` is written once, and a string is only read in its array. -/
def Item.Proper (open_ : Nat → Bool) : Item → Prop
  | .char ch conv =>
    (strout (if ch % 2 ^ 8 = 0 then [] else [byte (ch % 2 ^ 8).toNat]) 1 conv.width conv.fill).length =
      max 1 conv.width.natAbs
  | .str s left _ => strlenReads s ≤ arraySize s (open_ left)
  | .wstr ws left _ => strlenReads ws ≤ arraySize ws (open_ left)
  | _ => True

/-- The value and the counts that are stored are the numbers of the characters that are written. -/
structure Counts (mem : BitVec 64 → BitVec 64) (open_ : Nat → Bool) (fmt : List Char) (args : List Arg)
    (l : List Item) : Prop where
  returned : ∃ made err, print fmt args = some (made, err) ∧ result made err = some ((written made).length : Int)
  counts : ∀ before p flags after, l = before ++ .count p flags :: after →
    ∃ made err cnt, pieces false before = some (made, err) ∧ count none 0 made = some cnt ∧
      stored flags cnt (mem p).toNat = (written made).length
  proper : ∀ i ∈ l, i.Proper open_

/-- The wide characters that `wstrout()` passes on. -/
def wideChars (ws : List Int) (len : Nat) (conv : Conv) : List Int :=
  (if conv.width < 0 then [] else List.replicate (conv.width.natAbs - len) (conv.fill.toNat : Int)) ++
    (ws.take len).takeWhile (· ≠ 0) ++ if conv.width < 0 then List.replicate (conv.width.natAbs - len) 32 else []

def Item.quiet : Item → Bool
  | .str s _ conv => conv.width = 0 ∧ conv.cut s.length = 0 ∧ ¬(conv.fill = '0' ∧ prefixLength s ≠ 0)
  | .wchar wc conv => (wideChars [wc] 1 conv).isEmpty
  | .wstr ws _ conv => (wideChars ws (conv.cut ws.length) conv).isEmpty
  | _ => false

/-- The number of the characters of an item. -/
def Item.length (i : Item) : Nat := ((i.piece false).map (·.1.chars.length)).getD 0

/-- The characters that are written are complete. -/
def Item.Fine (open_ : Nat → Bool) : Item → Prop
  | .char ch _ => ch % 2 ^ 8 ≠ 0
  | .wchar wc conv => ∀ c ∈ wideChars [wc] 1 conv, (wcrtomb c).isSome
  | .str _ left _ => open_ left = false
  | .wstr ws left conv => open_ left = false ∧ ∀ c ∈ wideChars ws (conv.cut ws.length) conv, (wcrtomb c).isSome
  | .number bits c conv => ∃ conv' base, numericCase c conv = some (conv', base) ∧
      min conv'.prec MAXPREC + lead (getnum bits conv'.flags conv'.sign).1 conv'.flags base
        (getnum bits conv'.flags conv'.sign).2 ≤ MAXPREC
  | _ => True

/-- The count fits the object. The upper half of a `ptrdiff_t` is kept. -/
def Holds (flags w old : Nat) : Prop :=
  w < 2 ^ (storeBits flags - 1) ∧ (has flags PTRDIFF ∧ storeBits flags = 32 → old < 2 ^ 32)

/-- A count comes right after an item that writes nothing. Before it `w` characters are written, and the last
item was quiet. -/
def Countable (mem : BitVec 64 → BitVec 64) (open_ : Nat → Bool) : Bool → Nat → List Item → Prop
  | _, w, [] => w ≤ INT_MAX
  | quiet, w, .count p flags :: l =>
    quiet = true ∧ Holds flags w (mem p).toNat ∧ Countable mem open_ quiet w l
  | _, w, i :: l => i.Fine open_ ∧ Countable mem open_ i.quiet (w + i.length) l

theorem prefixLength_le (s : List Char) : prefixLength s ≤ s.length := by
  unfold prefixLength
  split <;> simp

theorem strout_length {s : List Char} {len : Nat} (inside : len ≤ s.length) (width : Int) (fill : Char) :
    (strout s len width fill).length =
      (if (if fill = '0' then prefixLength s else 0) ≤ len then len else s.length) + (width.natAbs - len) := by
  have short : (if fill = '0' then prefixLength s else 0) ≤ s.length := by
    split_ifs
    · exact prefixLength_le s
    · exact Nat.zero_le _
  unfold strout
  dsimp only
  generalize (if fill = '0' then prefixLength s else 0) = ahead at short ⊢
  split_ifs <;> simp <;> omega

theorem char_length_iff (ch : Int) (conv : Conv) :
    (strout (if ch % 2 ^ 8 = 0 then [] else [byte (ch % 2 ^ 8).toNat]) 1 conv.width conv.fill).length =
      max 1 conv.width.natAbs ↔ ch % 2 ^ 8 ≠ 0 := by
  by_cases zero : ch % 2 ^ 8 = 0
  · rw [if_pos zero]
    simp only [zero, ne_eq, not_true_eq_false, iff_false]
    unfold strout prefixLength
    dsimp only
    split_ifs <;> simp <;> omega
  · rw [if_neg zero]
    simp only [zero, ne_eq, not_false_eq_true, iff_true]
    rw [strout_length (by simp), List.length_singleton, ite_self]
    omega

theorem numtostr_ne_nil (val flags : Nat) (conv : Conv) (base : Nat) : numtostr val flags conv base ≠ [] := by
  have first : digits conv.digs base 64 val [] ≠ [] := digits_first (by decide)
  unfold numtostr
  dsimp only
  cases conv.sign with
  | none => split_ifs <;> simp [first]
  | some sign => simp

theorem fputwc_false (wc : Int) : (fputwc false wc).2 = false ↔ (wcrtomb wc).isSome = true := by
  unfold fputwc
  cases wcrtomb wc <;> simp

theorem wcrtomb_ne_nil {wc : Int} {bytes : List Char} (encodes : wcrtomb wc = some bytes) : bytes ≠ [] := by
  unfold wcrtomb at encodes
  dsimp only at encodes
  split_ifs at encodes
  · cases encodes
    simp
  · split at encodes <;> cases encodes
    simp

theorem fputws_err (ws : List Int) : (fputws true ws).2 = true := by
  induction ws with
  | nil => rfl
  | cons wc ws ih =>
    have stays : (fputwc true wc).2 = true := by
      unfold fputwc
      cases wcrtomb wc <;> rfl
    unfold fputws
    dsimp only
    rw [stays]
    exact ih

theorem fputws_false (ws : List Int) :
    (fputws false ws).2 = false ↔ ∀ wc ∈ ws, (wcrtomb wc).isSome = true := by
  induction ws with
  | nil => simp [fputws]
  | cons wc ws ih =>
    have next : (fputws false (wc :: ws)).2 = (fputws (fputwc false wc).2 ws).2 := rfl
    rw [List.forall_mem_cons, ← fputwc_false, ← ih, next]
    cases (fputwc false wc).2 with
    | false => simp
    | true => simp [fputws_err]

theorem fputws_nil {ws : List Int} (encodes : (fputws false ws).2 = false) :
    (fputws false ws).1.length = 0 ↔ ws = [] := by
  cases ws with
  | nil => simp [fputws]
  | cons wc ws =>
    have first := (fputws_false (wc :: ws)).mp encodes wc List.mem_cons_self
    rcases Option.isSome_iff_exists.mp first with ⟨bytes, is⟩
    have some_ := List.length_pos_iff.mpr (wcrtomb_ne_nil is)
    unfold fputws fputwc
    simp only [is, Bool.false_eq_true, if_false, List.length_append, reduceCtorEq, iff_false]
    omega

/-- What is written for an item that is no count. -/
structure Item.Writes (open_ : Nat → Bool) (i : Item) (text : List Char) : Prop where
  piece : i.piece false = some (.text text, false)
  proper : i.Proper open_

theorem Item.Writes.length {open_ : Nat → Bool} (writes : i.Writes open_ text) : i.length = text.length := by
  unfold Item.length
  rw [writes.piece]
  rfl

theorem strlenReads_le_iff {α : Type} (s : List α) (unterminated : Bool) :
    strlenReads s ≤ arraySize s unterminated ↔ unterminated = false := by
  unfold strlenReads arraySize
  cases unterminated <;> simp

theorem Item.fine_iff (open_ : Nat → Bool) (other : ∀ p flags, i ≠ .count p flags) :
    i.Fine open_ ↔ ∃ text, i.Writes open_ text := by
  cases i with
  | literal c => exact iff_of_true trivial ⟨_, rfl, trivial⟩
  | percent conv => exact iff_of_true trivial ⟨_, rfl, trivial⟩
  | char ch conv =>
    constructor
    · intro fine
      exact ⟨_, rfl, (char_length_iff ch conv).mpr fine⟩
    · rintro ⟨text, writes⟩
      exact (char_length_iff ch conv).mp writes.proper
  | wchar wc conv =>
    have encodes := fputws_false (wideChars [wc] 1 conv)
    constructor
    · intro fine
      have good := encodes.mpr fine
      exact ⟨(fputws false (wideChars [wc] 1 conv)).1, congrArg some (Prod.ext rfl good), trivial⟩
    · rintro ⟨text, writes⟩
      exact encodes.mp (congrArg Prod.snd (Option.some.inj writes.piece))
  | str s left conv =>
    constructor
    · intro fine
      exact ⟨_, rfl, (strlenReads_le_iff s (open_ left)).mpr fine⟩
    · rintro ⟨text, writes⟩
      exact (strlenReads_le_iff s (open_ left)).mp writes.proper
  | wstr ws left conv =>
    have encodes := fputws_false (wideChars ws (conv.cut ws.length) conv)
    constructor
    · rintro ⟨array, fine⟩
      have good := encodes.mpr fine
      exact ⟨(fputws false (wideChars ws (conv.cut ws.length) conv)).1, congrArg some (Prod.ext rfl good),
        (strlenReads_le_iff ws (open_ left)).mpr array⟩
    · rintro ⟨text, writes⟩
      exact ⟨(strlenReads_le_iff ws (open_ left)).mp writes.proper,
        encodes.mp (congrArg Prod.snd (Option.some.inj writes.piece))⟩
  | number bits c conv =>
    constructor
    · rintro ⟨conv', base, case, room⟩
      have fits := (numtostr_length (getnum bits conv'.flags conv'.sign).1 conv'.flags
        { conv' with prec := min conv'.prec MAXPREC, sign := (getnum bits conv'.flags conv'.sign).2 }
        (numericCase_base case) (getnum_lt bits conv'.flags conv'.sign) (Nat.min_le_right _ _)).mpr room
      generalize whole : numtostr (getnum bits conv'.flags conv'.sign).1 conv'.flags _ base = text at fits
      refine ⟨strout text text.length conv'.width conv'.fill, ?_, trivial⟩
      rw [Item.piece, case, Option.bind_some, ← whole]
      rw [← whole] at fits
      exact if_pos fits
    · rintro ⟨text, writes⟩
      have piece := writes.piece
      rw [Item.piece] at piece
      rcases Option.bind_eq_some_iff.mp piece with ⟨⟨conv', base⟩, case, made⟩
      have fits : (numtostr (getnum bits conv'.flags conv'.sign).1 conv'.flags
          { conv' with prec := min conv'.prec MAXPREC, sign := (getnum bits conv'.flags conv'.sign).2 }
          base).length ≤ MAXPREC := by
        by_contra long
        exact absurd (made.symm.trans (if_neg long)) (by simp)
      exact ⟨conv', base, case, (numtostr_length _ _ _ (numericCase_base case) (getnum_lt bits _ _)
        (Nat.min_le_right _ _)).mp fits⟩
  | count p flags => exact absurd rfl (other p flags)

theorem Item.Writes.quiet_iff {open_ : Nat → Bool} (writes : i.Writes open_ text) :
    i.quiet = true ↔ text.length = 0 := by
  have piece := writes.piece
  cases i with
  | literal c =>
    cases piece
    simp [Item.quiet]
  | percent conv =>
    cases piece
    rw [strout_length (by simp), List.length_singleton, ite_self]
    simp [Item.quiet]
  | char ch conv =>
    cases piece
    have whole := writes.proper
    unfold Item.Proper at whole
    rw [whole]
    simp [Item.quiet]
  | wchar wc conv =>
    have made := Option.some.inj piece
    cases congrArg Prod.fst made
    have encodes : (fputws false (wideChars [wc] 1 conv)).2 = false := congrArg Prod.snd made
    exact List.isEmpty_iff.trans (fputws_nil encodes).symm
  | wstr ws left conv =>
    have made := Option.some.inj piece
    cases congrArg Prod.fst made
    have encodes : (fputws false (wideChars ws (conv.cut ws.length) conv)).2 = false := congrArg Prod.snd made
    exact List.isEmpty_iff.trans (fputws_nil encodes).symm
  | str s left conv =>
    cases piece
    have inside : conv.cut s.length ≤ s.length := by
      unfold Conv.cut
      split_ifs with cut
      · exact cut.2.le
      · exact le_refl _
    have short := prefixLength_le s
    rw [strout_length inside]
    unfold Item.quiet
    simp only [decide_eq_true_eq]
    grind
  | number bits c conv =>
    rw [Item.piece] at piece
    rcases Option.bind_eq_some_iff.mp piece with ⟨⟨conv', base⟩, case, made⟩
    dsimp only at made
    split_ifs at made with fits
    cases made
    have some_ := List.length_pos_iff.mpr (numtostr_ne_nil (getnum bits conv'.flags conv'.sign).1 conv'.flags
      { conv' with prec := min conv'.prec MAXPREC, sign := (getnum bits conv'.flags conv'.sign).2 } base)
    rw [strout_length (le_refl _), ite_self]
    simp only [Item.quiet, Bool.false_eq_true, false_iff]
    omega
  | count p flags => cases piece

theorem storeBits_cases (flags : Nat) :
    storeBits flags = 8 ∨ storeBits flags = 16 ∨ storeBits flags = 64 ∨ storeBits flags = 32 := by
  unfold storeBits
  split_ifs <;> simp

theorem stored_eq_iff {flags cnt w old : Nat} (small : w ≤ INT_MAX) (word : old < 2 ^ 64) :
    stored flags cnt old = w ↔ cnt % 2 ^ storeBits flags = w ∧ Holds flags w old := by
  unfold INT_MAX at small
  have value : ∀ {bits x : Nat}, 0 < bits →
      ((x : Int).bmod (2 ^ bits) = w ↔ x % 2 ^ bits = w ∧ w < 2 ^ (bits - 1)) := by
    intro bits x positive
    have half : 2 ^ bits = 2 * 2 ^ (bits - 1) := by
      rw [← Nat.pow_succ', Nat.succ_eq_add_one, Nat.sub_add_cancel positive]
    have some_ := Nat.two_pow_pos (bits - 1)
    rw [half, Int.bmod_def]
    generalize 2 ^ (bits - 1) = m at some_ ⊢
    have cast : (x : Int) % ((2 * m : Nat) : Int) = ((x % (2 * m) : Nat) : Int) := rfl
    rw [cast]
    have := Nat.mod_lt x (y := 2 * m)
    split_ifs <;> omega
  unfold stored savecnt Holds typeBits
  rcases storeBits_cases flags with bits | bits | bits | bits <;> rw [bits]
  · rw [if_neg (by omega), value (by omega)]
    omega
  · rw [if_neg (by omega), value (by omega)]
    omega
  · rw [if_neg (by omega), value (by omega)]
    omega
  · split_ifs with wide
    · rw [value (by omega)]
      have := wide.1
      simp only [wide.1, and_self, forall_const]
      omega
    · have vacuous : has flags PTRDIFF = true ∧ 32 = 32 → old < 2 ^ 32 := fun known => absurd known wide
      rw [value (by omega), and_iff_left vacuous]
      omega

/-- The value of `vfprintf()` for the count. -/
def returned (cnt : Nat) : Int := ((cnt % 2 ^ 64 : Nat) : Int).bmod (2 ^ 32)

theorem returned_eq_iff (cnt w : Nat) : returned cnt = w ↔ cnt % 2 ^ 32 = w ∧ w ≤ INT_MAX := by
  unfold returned INT_MAX
  rw [Int.bmod_def]
  split_ifs <;> omega

/-- The counts from the middle of the format on, where `w` characters are written. -/
structure CountsFrom (mem : BitVec 64 → BitVec 64) (open_ : Nat → Bool) (inc : Option Nat) (cnt w : Nat)
    (l : List Item) : Prop where
  result : ∃ made cnt', pieces false l = some (made, false) ∧ count inc cnt made = some cnt' ∧
    Printf.returned cnt' = ((w + (written made).length : Nat) : Int)
  counts : ∀ before p flags after, l = before ++ .count p flags :: after →
    ∃ made err cnt', pieces false before = some (made, err) ∧ count inc cnt made = some cnt' ∧
      stored flags cnt' (mem p).toNat = ((w + (written made).length : Nat) : Int)
  proper : ∀ i ∈ l, i.Proper open_

def Accounts (mem : BitVec 64 → BitVec 64) (open_ : Nat → Bool) : Option Nat → Nat → Nat → List Item → Prop
  | _, cnt, w, [] => returned cnt = w
  | inc, cnt, w, i :: l =>
    match i with
    | .count p flags =>
      stored flags cnt (mem p).toNat = w ∧ ∃ last, inc = some last ∧ Accounts mem open_ inc (cnt + last) w l
    | i =>
      ∃ text, i.Writes open_ text ∧
        Accounts mem open_ (some text.length) (cnt + text.length) (w + text.length) l

variable {mem : BitVec 64 → BitVec 64} {open_ : Nat → Bool} {inc : Option Nat} {cnt w : Nat}

theorem countable_other (other : ∀ p flags, i ≠ .count p flags) (quiet : Bool) (l : List Item) :
    Countable mem open_ quiet w (i :: l) ↔ i.Fine open_ ∧ Countable mem open_ i.quiet (w + i.length) l := by
  cases i with
  | count p flags => exact absurd rfl (other p flags)
  | _ => rfl

theorem accounts_other (other : ∀ p flags, i ≠ .count p flags) (l : List Item) :
    Accounts mem open_ inc cnt w (i :: l) ↔ ∃ text, i.Writes open_ text ∧
      Accounts mem open_ (some text.length) (cnt + text.length) (w + text.length) l := by
  cases i with
  | count p flags => exact absurd rfl (other p flags)
  | _ => rfl

theorem piece_other {piece : Piece} {err err' : Bool} (writes : i.piece err = some (piece, err'))
    (other : ∀ p flags, i ≠ .count p flags) : ∃ text, piece = .text text := by
  cases i with
  | number bits c conv =>
    rw [Item.piece] at writes
    rcases Option.bind_eq_some_iff.mp writes with ⟨⟨conv', base⟩, case, made⟩
    dsimp only at made
    split_ifs at made
    cases made
    exact ⟨_, rfl⟩
  | count p flags => exact absurd rfl (other p flags)
  | _ =>
    cases writes
    exact ⟨_, rfl⟩

theorem piece_err {made : Piece × Bool} (writes : i.piece true = some made) : made.2 = true := by
  cases i with
  | number bits c conv =>
    rw [Item.piece] at writes
    rcases Option.bind_eq_some_iff.mp writes with ⟨⟨conv', base⟩, case, is⟩
    dsimp only at is
    split_ifs at is
    cases is
    rfl
  | wchar wc conv =>
    cases writes
    exact fputws_err _
  | wstr ws left conv =>
    cases writes
    exact fputws_err _
  | _ =>
    cases writes
    rfl

theorem pieces_err {made : List Piece × Bool} (writes : pieces true l = some made) : made.2 = true := by
  induction l generalizing made with
  | nil =>
    cases writes
    rfl
  | cons i l ih =>
    rcases Option.bind_eq_some_iff.mp writes with ⟨⟨piece, err⟩, first, writes⟩
    rcases Option.map_eq_some_iff.mp writes with ⟨later, more, rfl⟩
    have stays : err = true := piece_err first
    subst stays
    have rest := ih more
    exact rest

theorem pieces_cons_iff {made : List Piece} {err : Bool} : pieces false (i :: l) = some (made, err) ↔
      ∃ piece err' more, i.piece false = some (piece, err') ∧ pieces err' l = some (more, err) ∧
        made = piece :: more := by
  constructor
  · intro writes
    rcases Option.bind_eq_some_iff.mp writes with ⟨⟨piece, err'⟩, first, writes⟩
    rcases Option.map_eq_some_iff.mp writes with ⟨⟨more, _⟩, later, same⟩
    cases same
    exact ⟨piece, err', more, first, later, rfl⟩
  · rintro ⟨piece, err', more, first, later, rfl⟩
    rw [pieces, first, Option.bind_some]
    dsimp only
    rw [later]
    rfl

theorem countsFrom_text (writes : i.Writes open_ text) (l : List Item) :
    CountsFrom mem open_ inc cnt w (i :: l) ↔
      CountsFrom mem open_ (some text.length) (cnt + text.length) (w + text.length) l := by
  have longer : ∀ more : List Piece,
      w + (written (.text text :: more)).length = w + text.length + (written more).length := by
    intro more
    simp [written, Piece.chars, Nat.add_assoc]
  constructor
  · intro all
    constructor
    · rcases all.result with ⟨made, cnt', run, counted, right⟩
      rcases pieces_cons_iff.mp run with ⟨piece, err', more, first, later, rfl⟩
      cases writes.piece.symm.trans first
      rw [longer] at right
      exact ⟨more, cnt', later, counted, right⟩
    · intro before p flags after same
      rcases all.counts (i :: before) p flags after (by rw [same]; rfl) with
        ⟨made, err, cnt', run, counted, right⟩
      rcases pieces_cons_iff.mp run with ⟨piece, err', more, first, later, rfl⟩
      cases writes.piece.symm.trans first
      rw [longer] at right
      exact ⟨more, err, cnt', later, counted, right⟩
    · exact fun i mem => all.proper i (List.mem_cons_of_mem _ mem)
  · intro all
    constructor
    · rcases all.result with ⟨more, cnt', later, counted, right⟩
      rw [← longer] at right
      exact ⟨_, cnt', pieces_cons_iff.mpr ⟨_, _, _, writes.piece, later, rfl⟩, counted, right⟩
    · intro before p flags after same
      cases before with
      | nil =>
        cases same
        cases writes.piece
      | cons first before =>
        cases same
        rcases all.counts before p flags after rfl with ⟨more, err, cnt', later, counted, right⟩
        rw [← longer] at right
        exact ⟨_, err, cnt', pieces_cons_iff.mpr ⟨_, _, _, writes.piece, later, rfl⟩, counted, right⟩
    · intro j mem
      rcases List.mem_cons.mp mem with rfl | mem
      · exact writes.proper
      · exact all.proper j mem

theorem countsFrom_count (p : BitVec 64) (flags : Nat) (l : List Item) :
    CountsFrom mem open_ inc cnt w (.count p flags :: l) ↔
      stored flags cnt (mem p).toNat = w ∧ ∃ last, inc = some last ∧ CountsFrom mem open_ inc (cnt + last) w l := by
  constructor
  · intro all
    have here : stored flags cnt (mem p).toNat = w := by
      rcases all.counts [] p flags l rfl with ⟨made, err, cnt', run, counted, right⟩
      cases run
      cases counted
      exact right
    rcases all.result with ⟨made, cnt', run, counted, right⟩
    rcases pieces_cons_iff.mp run with ⟨piece, err', more, first, later, rfl⟩
    cases first
    rcases Option.bind_eq_some_iff.mp counted with ⟨last, rfl, counted⟩
    refine ⟨here, last, rfl, ⟨more, cnt', later, counted, right⟩, ?_, ?_⟩
    · intro before q flags' after same
      rcases all.counts (.count p flags :: before) q flags' after (by rw [same]; rfl) with
        ⟨made, err, cnt', run, counted, right⟩
      rcases pieces_cons_iff.mp run with ⟨piece, err', more, first, later, rfl⟩
      cases first
      exact ⟨more, err, cnt', later, counted, right⟩
    · exact fun i mem => all.proper i (List.mem_cons_of_mem _ mem)
  · rintro ⟨here, last, rfl, all⟩
    constructor
    · rcases all.result with ⟨more, cnt', later, counted, right⟩
      exact ⟨_, cnt', pieces_cons_iff.mpr ⟨_, _, _, rfl, later, rfl⟩, counted, right⟩
    · intro before q flags' after same
      cases before with
      | nil =>
        cases same
        exact ⟨[], false, cnt, rfl, rfl, here⟩
      | cons first before =>
        cases same
        rcases all.counts before q flags' after rfl with ⟨more, err, cnt', later, counted, right⟩
        exact ⟨_, err, cnt', pieces_cons_iff.mpr ⟨_, _, _, rfl, later, rfl⟩, counted, right⟩
    · intro j mem
      rcases List.mem_cons.mp mem with rfl | mem
      · exact trivial
      · exact all.proper j mem

theorem countsFrom_iff (l : List Item) : CountsFrom mem open_ inc cnt w l ↔ Accounts mem open_ inc cnt w l := by
  induction l generalizing inc cnt w with
  | nil =>
    constructor
    · intro all
      rcases all.result with ⟨made, cnt', run, counted, right⟩
      cases run
      cases counted
      exact right
    · intro right
      refine ⟨⟨[], cnt, rfl, rfl, right⟩, ?_, ?_⟩
      · intro before p flags after same
        exact absurd same (by simp)
      · exact fun i mem => absurd mem List.not_mem_nil
  | cons i l ih =>
    by_cases isCount : ∃ p flags, i = .count p flags
    · rcases isCount with ⟨p, flags, rfl⟩
      simp only [countsFrom_count, ih]
      rfl
    · have other : ∀ p flags, i ≠ .count p flags := fun p flags same => isCount ⟨p, flags, same⟩
      rw [accounts_other other]
      constructor
      · intro all
        rcases all.result with ⟨made, cnt', run, counted, right⟩
        rcases pieces_cons_iff.mp run with ⟨piece, err', more, first, later, rfl⟩
        rcases piece_other first other with ⟨text, rfl⟩
        have clear : err' = false := by
          by_contra set
          rw [Bool.not_eq_false] at set
          subst set
          exact absurd (pieces_err later) (by simp)
        subst clear
        have writes : i.Writes open_ text := ⟨first, all.proper i List.mem_cons_self⟩
        exact ⟨text, writes, ih.mp ((countsFrom_text writes l).mp all)⟩
      · rintro ⟨text, writes, all⟩
        exact (countsFrom_text writes l).mpr (ih.mpr all)

theorem Accounts.small (all : Accounts mem open_ inc cnt w l) : w ≤ INT_MAX := by
  induction l generalizing inc cnt w with
  | nil => exact ((returned_eq_iff cnt w).mp all).2
  | cons i l ih =>
    by_cases isCount : ∃ p flags, i = .count p flags
    · rcases isCount with ⟨p, flags, rfl⟩
      rcases all with ⟨here, last, same, all⟩
      exact ih all
    · rw [accounts_other fun p flags same => isCount ⟨p, flags, same⟩] at all
      rcases all with ⟨text, writes, all⟩
      exact (Nat.le_add_right _ _).trans (ih all)

theorem accounts_wrong {e : Nat} (some_ : 0 < e) (le : e ≤ w) (l : List Item) :
    ¬ Accounts mem open_ inc (w + e) w l := by
  induction l generalizing inc w with
  | nil =>
    intro all
    have := (returned_eq_iff (w + e) w).mp all
    unfold INT_MAX at this
    omega
  | cons i l ih =>
    intro all
    have small := all.small
    by_cases isCount : ∃ p flags, i = .count p flags
    · rcases isCount with ⟨p, flags, rfl⟩
      have here := (stored_eq_iff small (mem p).isLt).mp all.1
      have fits := here.2.1
      rcases storeBits_cases flags with bits | bits | bits | bits <;> rw [bits] at here fits <;> omega
    · rw [accounts_other fun p flags same => isCount ⟨p, flags, same⟩] at all
      rcases all with ⟨text, writes, all⟩
      rw [Nat.add_right_comm] at all
      exact ih (le.trans (Nat.le_add_right _ _)) all

theorem Countable.small {quiet : Bool} (all : Countable mem open_ quiet w l) : w ≤ INT_MAX := by
  induction l generalizing quiet w with
  | nil => exact all
  | cons i l ih =>
    by_cases isCount : ∃ p flags, i = .count p flags
    · rcases isCount with ⟨p, flags, rfl⟩
      exact ih all.2.2
    · rw [countable_other fun p flags same => isCount ⟨p, flags, same⟩] at all
      exact (Nat.le_add_right _ _).trans (ih all.2)

theorem accounts_iff {quiet : Bool} (last : quiet = true ↔ inc = some 0) (le : ∀ n, inc = some n → n ≤ w)
    (l : List Item) : Accounts mem open_ inc w w l ↔ Countable mem open_ quiet w l := by
  induction l generalizing inc quiet w with
  | nil =>
    change returned w = w ↔ w ≤ INT_MAX
    rw [returned_eq_iff]
    unfold INT_MAX
    omega
  | cons i l ih =>
    by_cases isCount : ∃ p flags, i = .count p flags
    · rcases isCount with ⟨p, flags, rfl⟩
      constructor
      · intro all
        have small := all.small
        rcases all with ⟨here, n, same, all⟩
        have zero : n = 0 := by
          by_contra some_
          exact accounts_wrong (Nat.pos_of_ne_zero some_) (le n same) l all
        subst zero
        exact ⟨last.mpr same, ((stored_eq_iff small (mem p).isLt).mp here).2, (ih last le).mp all⟩
      · intro all
        have small := all.small
        rcases all with ⟨quiet, holds, all⟩
        have here : w % 2 ^ storeBits flags = w := by
          have fits := holds.1
          rcases storeBits_cases flags with bits | bits | bits | bits <;> rw [bits] at fits ⊢ <;> omega
        exact ⟨(stored_eq_iff small (mem p).isLt).mpr ⟨here, holds⟩, 0, last.mp quiet, (ih last le).mpr all⟩
    · have other : ∀ p flags, i ≠ .count p flags := fun p flags same => isCount ⟨p, flags, same⟩
      have next : ∀ {text}, i.Writes open_ text →
          (Accounts mem open_ (some text.length) (w + text.length) (w + text.length) l ↔
            Countable mem open_ i.quiet (w + i.length) l) := by
        intro text writes
        rw [writes.length]
        apply ih
        · rw [writes.quiet_iff, Option.some_inj]
        · intro n same
          cases same
          exact Nat.le_add_left _ _
      rw [accounts_other other, countable_other other, Item.fine_iff open_ other]
      constructor
      · rintro ⟨text, writes, all⟩
        exact ⟨⟨text, writes⟩, (next writes).mp all⟩
      · rintro ⟨⟨text, writes⟩, all⟩
        exact ⟨text, writes, (next writes).mpr all⟩

theorem counts_from (read : items fmt none args = some l) :
    Counts mem open_ fmt args l ↔ CountsFrom mem open_ none 0 0 l := by
  have whole := print_items read
  constructor
  · intro all
    refine ⟨?_, ?_, all.proper⟩
    · rcases all.returned with ⟨made, err, printed, right⟩
      cases err with
      | true =>
        have negative : EOF = ((written made).length : Int) := Option.some.inj right
        unfold EOF at negative
        omega
      | false =>
        rcases Option.map_eq_some_iff.mp right with ⟨cnt', counted, right⟩
        exact ⟨made, cnt', whole.symm.trans printed, counted, by rw [Nat.zero_add]; exact right⟩
    · simp only [Nat.zero_add]
      exact all.counts
  · intro all
    refine ⟨?_, ?_, all.proper⟩
    · rcases all.result with ⟨made, cnt', run, counted, right⟩
      rw [Nat.zero_add] at right
      exact ⟨made, false, whole.trans run, Option.map_eq_some_iff.mpr ⟨cnt', counted, right⟩⟩
    · have counts := all.counts
      simp only [Nat.zero_add] at counts
      exact counts

/-- What `vfprintf()` returns and stores counts the characters when every `%n` comes right after a string of
which nothing is written, and every item writes all its characters. -/
theorem counts_iff (mem : BitVec 64 → BitVec 64) (open_ : Nat → Bool) (fmt : List Char) (args : List Arg)
    (l : List Item) (read : items fmt none args = some l) :
    Counts mem open_ fmt args l ↔ Countable mem open_ false 0 l := by
  rw [counts_from read, countsFrom_iff]
  exact accounts_iff (by simp) (by simp) l

theorem counts_iff_string :
    Counts (fun _ => 0) (fun _ => false) "%s%n%c".toList [.str [], .word 8, .word 65]
        [.str [] 2 .initial, .count 8 0, .char 65 .initial] ↔
      Countable (fun _ => 0) (fun _ => false) false 0 [.str [] 2 .initial, .count 8 0, .char 65 .initial] :=
  counts_iff _ _ _ _ _ rfl

/-- The one character before `%n` is added twice. -/
theorem count_added_again : ¬ ∀ (mem : BitVec 64 → BitVec 64) (open_ : Nat → Bool) (fmt : List Char)
    (args : List Arg) (l : List Item), items fmt none args = some l → Counts mem open_ fmt args l := by
  intro all
  rcases (all (fun _ => 0) (fun _ => false) "a%n".toList [.word 8] [.literal 'a', .count 8 0] rfl).returned with
    ⟨made, err, printed, right⟩
  have written : print "a%n".toList [.word 8] = some ([.text ['a'], .silent], false) := rfl
  cases written.symm.trans printed
  exact absurd right (by decide)

end Scc.Libc.Printf
