import Scc.Libmach.Coff32Read
import Scc.Libmach.PackRoundTrip

/-!
# The codecs of the records

What the packer of a record writes, the unpacker reads back, except for the kinds of records where the
formats of the two differ.
-/

namespace Scc.Libmach.Coff32

open Scc.Lib.Shifts Scc.Libmach.Pack Scc.Libmach.Reader

set_option autoImplicit false

def letter : Char → Letter
  | 'c' => .c
  | 's' => .s
  | 'l' => .l
  | _ => .q

theorem format_numbers {fmt : List Char} (numbers : fmt.all (· ∈ ['c', 's', 'l', 'q']) = true) :
    Format fmt (fmt.map letter) := by
  induction fmt with
  | nil => exact .nil
  | cons c fmt ih =>
    rw [List.all_cons, Bool.and_eq_true] at numbers
    have rest := ih numbers.2
    have here : c = 'c' ∨ c = 's' ∨ c = 'l' ∨ c = 'q' := by simpa using numbers.1
    rcases here with rfl | rfl | rfl | rfl
    · exact .c rest
    · exact .s rest
    · exact .l rest
    · exact .q rest

variable {fuel n v : Nat} {shifts : Letter → List Nat} {args : List Arg} {fmt : String}
  {order : Order} {buf : Bytes} {aux : AuxSym}

theorem packLoop_fuel {fmt : List Char} {va : List Arg} {r : Bytes × Bool}
    (result : packLoop shifts fuel fmt va = some r) : packLoop shifts (fuel + 1) fmt va = some r := by
  induction fuel generalizing fmt va r with
  | zero =>
    cases fmt with
    | nil => exact result
    | cons c fmt => cases result
  | succ fuel ih =>
    cases fmt with
    | nil => exact result
    | cons c fmt =>
      unfold packLoop at result ⊢
      cases reads : next (c :: fmt) with
      | letter letter fmt' =>
        rw [reads] at result
        cases va with
        | nil => cases result
        | cons arg va =>
          rcases Option.bind_eq_some_iff.mp result with ⟨bytes, written, rest⟩
          rcases Option.map_eq_some_iff.mp rest with ⟨later, more, same⟩
          dsimp only
          rw [written, Option.bind_some, ih more, Option.map_some, same]
      | unknown =>
        rw [reads] at result
        exact result
      | undefined =>
        rw [reads] at result
        cases va <;> cases result

def shiftsOf (order : Order) : Letter → List Nat := if order = .LITTLE_ENDIAN then lshifts else bshifts

theorem complete_shifts (order : Order) : Complete (shiftsOf order) := by
  unfold shiftsOf
  split_ifs
  · exact complete_lshifts
  · exact complete_bshifts

theorem packed_loop {bytes : Bytes}
    (written : packLoop (shiftsOf order) fmt.toList.length fmt.toList args = some (bytes, true))
    (length : bytes.length = n) (small : n ≤ INT_MAX) : packed order fmt n args = some bytes := by
  subst length
  unfold packed
  rw [pack_eq]
  change (Option.map _ (packLoop (shiftsOf order) _ _ _)).bind _ = _
  rw [written, Option.map_some, if_pos rfl, toInt_small small, Option.bind_some]
  exact if_pos rfl

theorem packed_round (order : Order) (n : Nat) {letters : List Letter}
    (format : Format fmt.toList letters) (fits : List.Forall₂ Fits letters args) (sized : Pack.size letters = n)
    (small : n ≤ INT_MAX) : ∃ bytes, packed order fmt n args = some bytes ∧ bytes.length = n ∧
      ∀ rest, unpacked order (bytes ++ rest) fmt n = some args := by
  subst sized
  rcases pack_unpack order format fits with ⟨bytes, length, written, read⟩
  rw [toInt_small small] at written read
  refine ⟨bytes, ?_, length, fun rest => ?_⟩
  · unfold packed
    rw [written, Option.bind_some, if_pos rfl]
  · unfold unpacked
    rw [read, Option.bind_some, if_pos rfl]

theorem copied_round (order : Order) (n m : Nat) (whole : String) (count : List Char)
    {letters : List Letter} (format : Format fmt.toList letters)
    (fits : List.Forall₂ Fits letters args) (sized : Pack.size letters = n) (decimal : count.all Char.isDigit = true)
    {s : Bytes} (length : s.length = Scc.Lib.Numeral.atoi count) (total : s.length + n = m) (small : m ≤ INT_MAX)
    (same : whole.toList = '\'' :: (count ++ fmt.toList)) :
    ∃ bytes, packed order fmt n args = some bytes ∧ bytes.length = n ∧
      ∀ rest, unpacked order (s ++ (bytes ++ rest)) whole m = some (.pointer s :: args) := by
  subst sized
  subst total
  have fuel : fmt.toList.length ≤ (count ++ fmt.toList).length := by simp
  rcases Pack.packed (complete_shifts order) format args _ fits (Nat.le_refl _) with ⟨bytes, long, written, -⟩
  rcases Pack.packed (complete_shifts order) format args _ fits fuel with ⟨bytes', -, written', read⟩
  have bytes_eq : bytes' = bytes := by
    have more : ∀ k, packLoop (shiftsOf order) (fmt.toList.length + k) fmt.toList args = some (bytes, true) := by
      intro k
      induction k with
      | zero => exact written
      | succ k ih => exact packLoop_fuel ih
    have enough := more ((count ++ fmt.toList).length - fmt.toList.length)
    rw [Nat.add_sub_cancel' fuel, written'] at enough
    exact congrArg Prod.fst (Option.some.inj enough)
  rw [bytes_eq] at read
  refine ⟨bytes, ?_, long, fun rest => ?_⟩
  · unfold packed
    rw [pack_eq]
    change (Option.map _ (packLoop (shiftsOf order) _ _ _)).bind _ = _
    rw [written, Option.map_some, Option.bind_some, if_pos rfl, long, toInt_small (by omega), if_pos rfl]
  · have got : Pack.get (shiftsOf order) (.array (Scc.Lib.Numeral.atoi count)) (s ++ (bytes ++ rest)) =
        some (.pointer s, bytes ++ rest) := by
      unfold Pack.get
      dsimp only
      rw [if_pos ⟨Int.natCast_nonneg _, by simp [length]⟩, Int.toNat_natCast, ← length, List.take_left' rfl,
        List.drop_left' rfl]
    have used : (s ++ (bytes ++ rest)).length - (bytes ++ rest).length = s.length := by
      rw [List.length_append]
      omega
    unfold unpacked
    rw [unpack_eq, same]
    change (Option.map _ (unpackLoop (shiftsOf order) ((count ++ fmt.toList).length + 1) _ _)).bind _ = _
    have int : Scc.Lib.Numeral.atoi count ≤ INT_MAX := by omega
    unfold unpackLoop
    rw [next_array decimal int format]
    dsimp only
    have total : toInt (s.length + Pack.size letters) = ((s.length + Pack.size letters : Nat) : Int) :=
      toInt_small (by omega)
    rw [got, Option.bind_some, read, Option.map_some, Option.map_some, Option.bind_some, used, if_pos rfl]
    dsimp only
    rw [total, if_pos rfl]

theorem apart_shifts (order : Order) (letter : Letter) : Apart (shiftsOf order letter) := by
  unfold Apart
  cases order <;> cases letter <;> simp [shiftsOf, lshifts, bshifts]

theorem get_injective (apart : ∀ letter, Apart (shifts letter)) {letter : Letter}
    {src src' rest rest' : Bytes} {arg : Arg} (read : Pack.get shifts letter src = some (arg, rest))
    (read' : Pack.get shifts letter src' = some (arg, rest')) :
    ∃ k, k ≤ src.length ∧ k ≤ src'.length ∧ src.take k = src'.take k ∧ rest = src.drop k ∧ rest' = src'.drop k := by
  have scalar (letter : Letter)
      (read : (if (shifts letter).length ≤ src.length then
        some (Arg.number (gather (shifts letter) src), src.drop (shifts letter).length) else none) = some (arg, rest))
      (read' : (if (shifts letter).length ≤ src'.length then
        some (Arg.number (gather (shifts letter) src'), src'.drop (shifts letter).length) else none) =
          some (arg, rest')) :
      ∃ k, k ≤ src.length ∧ k ≤ src'.length ∧ src.take k = src'.take k ∧ rest = src.drop k ∧ rest' = src'.drop k := by
    split_ifs at read read' with enough enough'
    cases read
    have number : gather (shifts letter) src' = gather (shifts letter) src :=
      Arg.number.inj (congrArg Prod.fst (Option.some.inj read'))
    refine ⟨_, enough, enough', ?_, rfl, (congrArg Prod.snd (Option.some.inj read')).symm⟩
    have head (src : Bytes) (enough : (shifts letter).length ≤ src.length) :
        gather (shifts letter) src = gather (shifts letter) (src.take (shifts letter).length) := by
      conv => lhs; rw [← List.take_append_drop (shifts letter).length src]
      exact gather_append _ (List.length_take_of_le enough) _
    rw [head src enough, head src' enough'] at number
    exact (gather_injective (apart letter) (List.length_take_of_le enough') (List.length_take_of_le enough) number).symm
  cases letter with
  | array n =>
    unfold Pack.get at read read'
    dsimp only at read read'
    split_ifs at read read' with enough enough'
    cases read
    have taken : src'.take n.toNat = src.take n.toNat :=
      Arg.pointer.inj (congrArg Prod.fst (Option.some.inj read'))
    exact ⟨_, enough.2, enough'.2, taken.symm, rfl, (congrArg Prod.snd (Option.some.inj read')).symm⟩
  | c => exact scalar .c read read'
  | s => exact scalar .s read read'
  | l => exact scalar .l read read'
  | q => exact scalar .q read read'

theorem unpackLoop_injective (apart : ∀ letter, Apart (shifts letter))
    {fmt : List Char} {src src' : Bytes} {n n' : Nat}
    (read : unpackLoop shifts fuel fmt src = some (args, n, true))
    (read' : unpackLoop shifts fuel fmt src' = some (args, n', true)) : n = n' ∧ src.take n = src'.take n := by
  induction fuel generalizing fmt src src' args n n' with
  | zero =>
    cases fmt with
    | nil =>
      cases read
      cases read'
      exact ⟨rfl, rfl⟩
    | cons c fmt => cases read
  | succ fuel ih =>
    cases fmt with
    | nil =>
      cases read
      cases read'
      exact ⟨rfl, rfl⟩
    | cons c fmt =>
      unfold unpackLoop at read read'
      cases reads : next (c :: fmt) with
      | unknown =>
        rw [reads] at read
        cases read
      | undefined =>
        rw [reads] at read
        cases read
      | letter letter fmt' =>
        rw [reads] at read read'
        dsimp only at read read'
        rcases Option.bind_eq_some_iff.mp read with ⟨⟨arg, rest⟩, first, more⟩
        rcases Option.bind_eq_some_iff.mp read' with ⟨⟨arg', rest'⟩, first', more'⟩
        rcases Option.map_eq_some_iff.mp more with ⟨⟨args₁, m, good⟩, later, same⟩
        rcases Option.map_eq_some_iff.mp more' with ⟨⟨args₂, m', good'⟩, later', same'⟩
        simp only [Prod.mk.injEq] at same same'
        rcases same with ⟨rfl, rfl, rfl⟩
        rcases same' with ⟨args_eq, rfl, rfl⟩
        cases args_eq
        rcases get_injective apart first first' with ⟨k, enough, enough', heads, rfl, rfl⟩
        rcases ih later later' with ⟨rfl, tails⟩
        have used (src : Bytes) (enough : k ≤ src.length) : src.length - (src.drop k).length = k := by
          rw [List.length_drop]
          omega
        rw [used src enough, used src' enough']
        exact ⟨rfl, by rw [List.take_add, List.take_add, heads, tails]⟩

theorem unpackLoop_used {fmt : List Char} {src : Bytes}
    {good : Bool} (read : unpackLoop shifts fuel fmt src = some (args, n, good)) : n ≤ src.length := by
  induction fuel generalizing fmt src args n good with
  | zero =>
    cases fmt with
    | nil =>
      cases read
      exact Nat.zero_le _
    | cons c fmt => cases read
  | succ fuel ih =>
    cases fmt with
    | nil =>
      cases read
      exact Nat.zero_le _
    | cons c fmt =>
      unfold unpackLoop at read
      cases reads : next (c :: fmt) with
      | unknown =>
        rw [reads] at read
        cases read
        exact Nat.zero_le _
      | undefined =>
        rw [reads] at read
        cases read
      | letter letter fmt' =>
        rw [reads] at read
        rcases Option.bind_eq_some_iff.mp read with ⟨⟨arg, rest⟩, first, more⟩
        rcases Option.map_eq_some_iff.mp more with ⟨⟨args', m, good'⟩, later, same⟩
        simp only [Prod.mk.injEq] at same
        rcases same with ⟨-, rfl, -⟩
        have tail : m ≤ rest.length := ih later
        have shorter : rest.length ≤ src.length := by
          unfold Pack.get at first
          cases letter <;> dsimp only at first <;> split_ifs at first <;> cases first <;> simp
        omega

theorem unpacked_loop (read : unpacked order buf fmt n = some args) (small : buf.length ≤ INT_MAX) :
    unpackLoop (shiftsOf order) fmt.toList.length fmt.toList buf = some (args, n, true) := by
  unfold unpacked at read
  rw [unpack_eq] at read
  rcases Option.bind_eq_some_iff.mp read with ⟨r, loop, sized⟩
  rcases Option.map_eq_some_iff.mp loop with ⟨⟨args', m, good⟩, result, rfl⟩
  have used := unpackLoop_used result
  cases good with
  | false =>
    dsimp only at sized
    rw [if_neg Bool.false_ne_true, if_neg (by omega)] at sized
    cases sized
  | true =>
    dsimp only at sized
    rw [if_pos rfl, toInt_small (Nat.le_trans used small)] at sized
    split_ifs at sized with number
    cases sized
    rw [Int.natCast_inj.mp number] at result
    exact result

def Fit (sizes : List (Nat × Nat)) : Prop := ∀ s ∈ sizes, s.1 < 2 ^ (8 * s.2)

instance (sizes : List (Nat × Nat)) : Decidable (Fit sizes) :=
  inferInstanceAs (Decidable (∀ s ∈ sizes, s.1 < 2 ^ (8 * s.2)))

def IsShort (v : Int) : Prop := -2 ^ 15 ≤ v ∧ v < 2 ^ 15
def IsChar (v : Int) : Prop := -2 ^ 7 ≤ v ∧ v < 2 ^ 7

/-- A name that is not taken for an offset, or an offset. -/
def Name.InRange (len : Nat) : Name → Prop
  | .name s => s.length = len ∧ s.take 4 ≠ [0, 0, 0, 0]
  | .offset n => n < 2 ^ 32

def Filhdr.InRange (hdr : Filhdr) : Prop :=
  Fit [(hdr.f_magic, 2), (hdr.f_nscns, 2), (hdr.f_timdat, 4), (hdr.f_symptr, 4), (hdr.f_nsyms, 4),
    (hdr.f_opthdr, 2), (hdr.f_flags, 2)]

def Aouthdr.InRange (aout : Aouthdr) : Prop :=
  IsShort aout.magic ∧ IsShort aout.vstamp ∧ Fit [(aout.tsize, 4), (aout.dsize, 4), (aout.bsize, 4), (aout.entry, 4),
    (aout.text_start, 4), (aout.data_start, 4)]

def Scnhdr.InRange (scn : Scnhdr) : Prop :=
  scn.s_name.InRange 8 ∧ Fit [(scn.s_paddr, 4), (scn.s_vaddr, 4), (scn.s_size, 4), (scn.s_scnptr, 4), (scn.s_relptr, 4),
    (scn.s_lnnoptr, 4), (scn.s_nrelloc, 2), (scn.s_nlnno, 2), (scn.s_flags, 4)]

def Syment.InRange (ent : Syment) : Prop :=
  ent.n_name.InRange 8 ∧ Fit [(ent.n_value, 4), (ent.n_type, 2)] ∧ IsShort ent.n_scnum ∧ IsChar ent.n_sclass ∧
    IsChar ent.n_numaux

def Reloc.InRange (rel : Reloc) : Prop := Fit [(rel.r_vaddr, 4), (rel.r_symndx, 4), (rel.r_type, 2)]

def Lineno.InRange (lp : Lineno) : Prop := Fit [(lp.l_symndx, 4), (lp.l_lnno, 2)]

def AuxFun.InRange (aux : AuxFun) : Prop :=
  Fit [(aux.x_tagndx, 4), (aux.x_fsize, 4), (aux.x_lnnoptr, 4), (aux.x_endndx, 4), (aux.x_tvndx, 2)]

def AuxSym.InRange (aux : AuxSym) : Prop :=
  Fit [(aux.x_tagndx, 4), (aux.x_lnno, 2), (aux.x_size, 2), (aux.x_lnnoptr, 4), (aux.x_endndx, 4), (aux.x_tvndx, 2)]

def AuxScn.InRange (aux : AuxScn) : Prop :=
  Fit [(aux.x_scnlen, 4), (aux.x_nreloc, 2), (aux.x_nlinno, 2), (aux.x_checksum, 4), (aux.x_associated, 2),
    (aux.x_comdat, 1)]

def AuxAry.InRange (aux : AuxAry) : Prop :=
  Fit [(aux.x_tagndx, 4), (aux.x_lnno, 2), (aux.x_size, 2), (aux.x_dimen0, 2), (aux.x_dimen1, 2), (aux.x_dimen2, 2),
    (aux.x_dimen3, 2), (aux.x_tvndx, 2)]

theorem toShort_short {v : Int} (inRange : IsShort v) : toShort (v % 2 ^ 16).toNat = v := by
  unfold toShort
  unfold IsShort at inRange
  rw [Int.bmod_def]
  split_ifs <;> omega

theorem toChar_char {v : Int} (inRange : IsChar v) : toChar (v % 2 ^ 8).toNat = v := by
  unfold toChar
  unfold IsChar at inRange
  rw [Int.bmod_def]
  split_ifs <;> omega

theorem fits_short (v : Int) : Fits .s (short v) := by
  change (v % 2 ^ 16).toNat < 2 ^ (8 * 2)
  omega

theorem fits_char (v : Int) : Fits .c (char v) := by
  change (v % 2 ^ 8).toNat < 2 ^ (8 * 1)
  omega

theorem fits_s (small : v < 2 ^ (8 * 2)) : Fits .s (.number v) := small
theorem fits_l (small : v < 2 ^ (8 * 4)) : Fits .l (.number v) := small

theorem hdr_round (order : Order) {hdr : Filhdr} (inRange : hdr.InRange) : ∃ bytes,
    pack_hdr order hdr = some bytes ∧ bytes.length = FILHSZ ∧ ∀ rest, unpack_hdr order (bytes ++ rest) = some hdr := by
  have format : Format "sslllss".toList [.s, .s, .l, .l, .l, .s, .s] := format_numbers (by decide)
  simp only [Filhdr.InRange, Fit, List.forall_mem_cons] at inRange
  rcases inRange with ⟨h0, h1, h2, h3, h4, h5, h6, -⟩
  rcases packed_round order FILHSZ format (.cons (fits_s h0) (.cons (fits_s h1) (.cons (fits_l h2) (.cons (fits_l h3)
    (.cons (fits_l h4) (.cons (fits_s h5) (.cons (fits_s h6) .nil))))))) rfl (by decide)
    with ⟨bytes, written, length, read⟩
  refine ⟨bytes, written, length, fun rest => ?_⟩
  unfold unpack_hdr
  rw [read]

theorem aout_round (order : Order) {aout : Aouthdr} (inRange : aout.InRange) : ∃ bytes,
    pack_aout order aout = some bytes ∧ bytes.length = AOUTSZ ∧
      ∀ rest, unpack_aout order (bytes ++ rest) = some aout := by
  have format : Format "ssllllll".toList [.s, .s, .l, .l, .l, .l, .l, .l] := format_numbers (by decide)
  simp only [Aouthdr.InRange, Fit, List.forall_mem_cons] at inRange
  rcases inRange with ⟨magic, vstamp, h2, h3, h4, h5, h6, h7, -⟩
  rcases packed_round order AOUTSZ format (.cons (fits_short aout.magic) (.cons (fits_short aout.vstamp) (.cons (fits_l h2)
    (.cons (fits_l h3) (.cons (fits_l h4) (.cons (fits_l h5) (.cons (fits_l h6) (.cons (fits_l h7) .nil))))))))
    rfl (by decide) with ⟨bytes, written, length, read⟩
  refine ⟨bytes, written, length, fun rest => ?_⟩
  unfold unpack_aout
  rw [read]
  unfold short
  dsimp only
  rw [toShort_short magic, toShort_short vstamp]

theorem ll_eq (order : Order) (n : Nat) : Pack.pack order "ll".toList [.number 0, .number n] =
    some ([0, 0, 0, 0] ++ scatter (shiftsOf order .l) n, 8) := by
  have written : packLoop (shiftsOf order) 2 ['l', 'l'] [.number 0, .number n] =
      some ([0, 0, 0, 0] ++ scatter (shiftsOf order .l) n, true) := by
    cases order <;> rfl
  have length : ([0, 0, 0, 0] ++ scatter (shiftsOf order .l) n).length = 8 := by
    cases order <;> rfl
  rw [pack_eq]
  change Option.map _ (packLoop (shiftsOf order) 2 ['l', 'l'] _) = _
  rw [written, Option.map_some, if_pos rfl, length, toInt_small (by decide)]
  rfl

theorem unpack_ll (order : Order) (small : n < 2 ^ 32) (rest : Bytes) :
    unpack order ([0, 0, 0, 0] ++ scatter (shiftsOf order .l) n ++ rest) "ll".toList =
      some ([.number 0, .number n], 8) := by
  have format : Format "ll".toList [.l, .l] := format_numbers (by decide)
  have zero : (0 : Nat) < 2 ^ (8 * 4) := by decide
  rcases pack_unpack order format (.cons (fits_l zero) (.cons (fits_l small) .nil)) with ⟨bytes, -, written, read⟩
  rw [ll_eq] at written
  have same : [0, 0, 0, 0] ++ scatter (shiftsOf order .l) n = bytes := congrArg Prod.fst (Option.some.inj written)
  rw [← same, toInt_small (by decide)] at read
  exact read rest

theorem name_round (order : Order) {name : Name} (inRange : name.InRange 8) : ∃ s, pack_name order name = some s ∧
    s.length = 8 ∧ unpack_name order s = some name := by
  cases name with
  | name s =>
    rcases inRange with ⟨length, nonzero⟩
    have all : s.take 8 = s := length ▸ List.take_length
    exact ⟨s, congrArg some all, length, if_neg nonzero⟩
  | offset n =>
    refine ⟨_, congrArg (Option.map Prod.fst) (ll_eq order n), ?_, ?_⟩
    · cases order <;> rfl
    · have read := unpack_ll order inRange []
      rw [List.append_nil] at read
      have first : ([0, 0, 0, 0] ++ scatter (shiftsOf order .l) n).take 4 = [0, 0, 0, 0] := rfl
      dsimp only
      unfold unpack_name
      rw [if_pos first, read]

theorem scn_round (order : Order) {scn : Scnhdr} (inRange : scn.InRange) : ∃ bytes,
    pack_scn order scn = some bytes ∧ bytes.length = SCNHSZ ∧ ∀ rest, unpack_scn order (bytes ++ rest) = some scn := by
  have format : Format "llllllssl".toList [.l, .l, .l, .l, .l, .l, .s, .s, .l] := format_numbers (by decide)
  simp only [Scnhdr.InRange, Fit, List.forall_mem_cons] at inRange
  rcases inRange with ⟨name, h0, h1, h2, h3, h4, h5, h6, h7, h8, -⟩
  rcases name_round order name with ⟨s, named, length, back⟩
  rcases copied_round order (SCNHSZ - 8) SCNHSZ "'8llllllssl" ['8'] format (.cons (fits_l h0) (.cons (fits_l h1)
    (.cons (fits_l h2) (.cons (fits_l h3) (.cons (fits_l h4) (.cons (fits_l h5) (.cons (fits_s h6) (.cons (fits_s h7)
    (.cons (fits_l h8) .nil))))))))) rfl rfl length (by rw [length]; rfl) (by decide) rfl
    with ⟨bytes, written, long, read⟩
  refine ⟨s ++ bytes, ?_, ?_, fun rest => ?_⟩
  · unfold pack_scn
    rw [named, Option.bind_some, written]
    rfl
  · rw [List.length_append, length, long]
    rfl
  · unfold unpack_scn
    rw [List.append_assoc, read]
    dsimp only
    rw [back]
    rfl

theorem ent_round (order : Order) {ent : Syment} (inRange : ent.InRange) : ∃ bytes,
    pack_ent order ent = some bytes ∧ bytes.length = SYMESZ ∧ ∀ rest, unpack_ent order (bytes ++ rest) = some ent := by
  have format : Format "lsscc".toList [.l, .s, .s, .c, .c] := format_numbers (by decide)
  simp only [Syment.InRange, Fit, List.forall_mem_cons] at inRange
  rcases inRange with ⟨name, ⟨h0, h1, -⟩, scnum, sclass, numaux⟩
  rcases name_round order name with ⟨s, named, length, back⟩
  rcases copied_round order (SYMESZ - 8) SYMESZ "'8lsscc" ['8'] format (.cons (fits_l h0)
    (.cons (fits_short ent.n_scnum) (.cons (fits_s h1) (.cons (fits_char ent.n_sclass)
    (.cons (fits_char ent.n_numaux) .nil))))) rfl rfl length (by rw [length]; rfl) (by decide) rfl
    with ⟨bytes, written, long, read⟩
  refine ⟨s ++ bytes, ?_, ?_, fun rest => ?_⟩
  · unfold pack_ent
    rw [named, Option.bind_some, written]
    rfl
  · rw [List.length_append, length, long]
    rfl
  · unfold unpack_ent
    rw [List.append_assoc, read]
    unfold short char
    dsimp only
    rw [back, toShort_short scnum, toChar_char sclass, toChar_char numaux]
    rfl

theorem reloc_round (order : Order) {rel : Reloc} (inRange : rel.InRange) : ∃ bytes,
    pack_reloc order rel = some bytes ∧ bytes.length = RELSZ ∧
      ∀ rest, unpack_reloc order (bytes ++ rest) = some rel := by
  have format : Format "lls".toList [.l, .l, .s] := format_numbers (by decide)
  simp only [Reloc.InRange, Fit, List.forall_mem_cons] at inRange
  rcases inRange with ⟨h0, h1, h2, -⟩
  rcases packed_round order RELSZ format (.cons (fits_l h0) (.cons (fits_l h1) (.cons (fits_s h2) .nil))) rfl
    (by decide) with ⟨bytes, written, length, read⟩
  refine ⟨bytes, written, length, fun rest => ?_⟩
  unfold unpack_reloc
  rw [read]

theorem line_undefined (order : Order) (lp : Lineno) : pack_line order lp = none := by
  cases order <;> rfl

theorem aux_fun_round (order : Order) {aux : AuxFun} (inRange : aux.InRange) : ∃ bytes,
    pack_aux_fun order aux = some bytes ∧ bytes.length = AUXESZ ∧
      ∀ rest, unpack_aux_fun order (bytes ++ rest) = some aux := by
  have format : Format "lllls".toList [.l, .l, .l, .l, .s] := format_numbers (by decide)
  simp only [AuxFun.InRange, Fit, List.forall_mem_cons] at inRange
  rcases inRange with ⟨h0, h1, h2, h3, h4, -⟩
  rcases packed_round order AUXESZ format (.cons (fits_l h0) (.cons (fits_l h1) (.cons (fits_l h2) (.cons (fits_l h3)
    (.cons (fits_s h4) .nil))))) rfl (by decide) with ⟨bytes, written, length, read⟩
  refine ⟨bytes, written, length, fun rest => ?_⟩
  unfold unpack_aux_fun
  rw [read]

theorem aux_sym_round (order : Order) (inRange : aux.InRange) : ∃ bytes,
    pack_aux_sym order aux = some bytes ∧ bytes.length = AUXESZ ∧
      ∀ rest, unpack_aux_sym order (bytes ++ rest) = some aux := by
  have format : Format "lsslls".toList [.l, .s, .s, .l, .l, .s] := format_numbers (by decide)
  simp only [AuxSym.InRange, Fit, List.forall_mem_cons] at inRange
  rcases inRange with ⟨h0, h1, h2, h3, h4, h5, -⟩
  rcases packed_round order AUXESZ format (.cons (fits_l h0) (.cons (fits_s h1) (.cons (fits_s h2) (.cons (fits_l h3)
    (.cons (fits_l h4) (.cons (fits_s h5) .nil)))))) rfl (by decide) with ⟨bytes, written, length, read⟩
  refine ⟨bytes, written, length, fun rest => ?_⟩
  unfold unpack_aux_sym
  rw [read]

/-- What follows the name of a symbol, in bytes. -/
def Syment.tail (order : Order) (ent : Syment) : Bytes :=
  scatter (shiftsOf order .l) ent.n_value ++ (scatter (shiftsOf order .s) (ent.n_scnum % 2 ^ 16).toNat ++
    (scatter (shiftsOf order .s) ent.n_type ++ (scatter (shiftsOf order .c) (ent.n_sclass % 2 ^ 8).toNat ++
    scatter (shiftsOf order .c) (ent.n_numaux % 2 ^ 8).toNat)))

def AuxSym.tail (order : Order) (aux : AuxSym) : Bytes :=
  scatter (shiftsOf order .l) aux.x_lnnoptr ++
    (scatter (shiftsOf order .l) aux.x_endndx ++ scatter (shiftsOf order .s) aux.x_tvndx)

/-- The bytes of an auxiliary entry of a symbol are right although it is packed like that of a file. Without a
tag, its first numbers are in the place of an offset, and the others must be in the buffer from the ninth byte on. -/
def AuxSym.Kept (order : Order) (ninth : Bytes) (aux : AuxSym) : Prop :=
  if aux.x_tagndx = 0 then (order = .LITTLE_ENDIAN ∨ aux.x_lnno = aux.x_size) ∧ ninth = aux.tail order
  else scatter (shiftsOf order .l) aux.x_tagndx = scatter (lshifts .l) aux.x_tagndx ∧
    aux.x_lnno = 0 ∧ aux.x_size = 0 ∧ aux.x_lnnoptr = 0 ∧ aux.x_endndx = 0 ∧ aux.x_tvndx = 0

theorem byte_add (v w k : Nat) (low : k < 16) (aligned : k % 8 = 0) :
    UInt8.ofNat ((v + 2 ^ 16 * w) >>> k) = UInt8.ofNat (v >>> k) := by
  rw [← UInt8.toNat_inj, UInt8.toNat_ofNat', UInt8.toNat_ofNat', Nat.shiftRight_eq_div_pow, Nat.shiftRight_eq_div_pow]
  have k_eq : k = 0 ∨ k = 8 := by omega
  rcases k_eq with rfl | rfl <;> omega

theorem byte_high (v w k : Nat) (small : v < 2 ^ 16) :
    UInt8.ofNat ((v + 2 ^ 16 * w) >>> (16 + k)) = UInt8.ofNat (w >>> k) := by
  have high : (v + 2 ^ 16 * w) / 2 ^ 16 = w := by omega
  rw [Nat.shiftRight_add, Nat.shiftRight_eq_div_pow _ 16, high]

theorem scatter_pair {v w : Nat} (small : v < 2 ^ 16) : scatter (lshifts .l) (v + 2 ^ 16 * w) =
    scatter (lshifts .s) v ++ scatter (lshifts .s) w := by
  have low := byte_add v w
  have high := byte_high v w
  simp only [lshifts, scatter, List.map_cons, List.map_nil, List.cons_append, List.nil_append, low 0 (by decide) rfl,
    low 8 (by decide) rfl, high 0 small, high 8 small]

theorem scatter_pair_swapped {v w : Nat} (small : v < 2 ^ 16) : scatter (bshifts .l) (v + 2 ^ 16 * w) =
    scatter (bshifts .s) w ++ scatter (bshifts .s) v := by
  have low := byte_add v w
  have high := byte_high v w
  simp only [bshifts, scatter, List.map_cons, List.map_nil, List.cons_append, List.nil_append, low 0 (by decide) rfl,
    low 8 (by decide) rfl, high 0 small, high 8 small]

theorem scatter_long (small : v < 2 ^ 32) :
    scatter (lshifts .q) v = scatter (lshifts .l) v ++ [0, 0, 0, 0] := by
  have zero (k : Nat) (above : 32 ≤ k) : UInt8.ofNat (v >>> k) = 0 := by
    have none_ : v >>> k = 0 := by
      rw [Nat.shiftRight_eq_div_pow]
      exact Nat.div_eq_of_lt (lt_of_lt_of_le small (Nat.pow_le_pow_right (by decide) above))
    rw [none_]
    rfl
  simp only [lshifts, scatter, List.map_cons, List.map_nil, List.cons_append, List.nil_append, zero 32 (by decide),
    zero 40 (by decide), zero 48 (by decide), zero 56 (by decide)]

theorem scatter_zero (order : Order) (letter : Letter) :
    scatter (shiftsOf order letter) 0 = List.replicate (shiftsOf order letter).length 0 := by
  cases order <;> cases letter <;> rfl

theorem aux_sym_eq (order : Order) (aux : AuxSym) : pack_aux_sym order aux =
    some (scatter (shiftsOf order .l) aux.x_tagndx ++ (scatter (shiftsOf order .s) aux.x_lnno ++
      (scatter (shiftsOf order .s) aux.x_size ++ aux.tail order))) := by
  apply packed_loop
  · cases order <;> rfl
  · cases order <;> rfl
  · decide

theorem overlay_name (order : Order) (buf : Bytes) (tagged : aux.x_tagndx ≠ 0)
    (small : aux.x_tagndx < 2 ^ 32) : pack_aux_file order buf (overlay aux) =
      some (scatter (lshifts .l) aux.x_tagndx ++ ([0, 0, 0, 0] ++ (scatter (lshifts .s) aux.x_lnno ++
        (scatter (lshifts .s) aux.x_size ++ ([0, 0, 0, 0] ++ scatter (lshifts .s) aux.x_lnnoptr))))) := by
  unfold overlay
  rw [if_neg tagged, scatter_long small]
  rfl

theorem overlay_offset (order : Order) (buf : Bytes) (untagged : aux.x_tagndx = 0) :
    pack_aux_file order buf (overlay aux) =
      some ([0, 0, 0, 0] ++ scatter (shiftsOf order .l) (aux.x_lnno + 2 ^ 16 * aux.x_size) ++ buf.drop 8) := by
  unfold overlay
  rw [if_pos untagged]
  exact congrArg (Option.map fun r => r.1 ++ buf.drop 8) (ll_eq order _)

theorem aux_sym_kept (order : Order) (inRange : aux.InRange) :
    pack_aux_file order buf (overlay aux) = pack_aux_sym order aux ↔ aux.Kept order (buf.drop 8) := by
  simp only [AuxSym.InRange, Fit, List.forall_mem_cons] at inRange
  rcases inRange with ⟨tag, lnno, size, lnnoptr, endndx, tvndx, -⟩
  have covers (letter : Letter) (scalar : ∀ n, letter ≠ .array n) := (complete_shifts order letter scalar).2
  have zero_s {v : Nat} (small : v < 2 ^ (8 * 2)) : scatter (shiftsOf order .s) v = [0, 0] ↔ v = 0 := by
    rw [← scatter_inj (covers .s (by simp)) small (by decide), scatter_zero]
    cases order <;> exact Iff.rfl
  have zero_l {v : Nat} (small : v < 2 ^ (8 * 4)) : scatter (shiftsOf order .l) v = [0, 0, 0, 0] ↔ v = 0 := by
    rw [← scatter_inj (covers .l (by simp)) small (by decide), scatter_zero]
    cases order <;> exact Iff.rfl
  have two (order : Order) (v : Nat) : (scatter (shiftsOf order .s) v).length = 2 := by cases order <;> rfl
  have four (order : Order) (v : Nat) : (scatter (shiftsOf order .l) v).length = 4 := by cases order <;> rfl
  unfold AuxSym.Kept
  split_ifs with untagged
  · have zero : scatter (shiftsOf order .l) 0 = [0, 0, 0, 0] := by cases order <;> rfl
    rw [overlay_offset order buf untagged, aux_sym_eq, untagged, zero, Option.some_inj, List.append_assoc,
      List.append_right_inj]
    cases order with
    | LITTLE_ENDIAN =>
      change scatter (lshifts .l) _ ++ _ = scatter (lshifts .s) _ ++ (scatter (lshifts .s) _ ++ _) ↔ _
      rw [scatter_pair lnno, List.append_assoc, List.append_right_inj, List.append_right_inj]
      simp
    | BIG_ENDIAN =>
      have inj := scatter_inj (covers .s (by simp)) lnno size
      change scatter (bshifts .l) _ ++ _ = scatter (shiftsOf .BIG_ENDIAN .s) _ ++ _ ↔ _
      rw [scatter_pair_swapped lnno, List.append_assoc]
      change scatter (shiftsOf .BIG_ENDIAN .s) _ ++ (scatter (shiftsOf .BIG_ENDIAN .s) _ ++ _) = _ ↔ _
      rw [List.append_eq_append_iff_of_size_eq_left (by rw [two, two]),
        List.append_eq_append_iff_of_size_eq_left (by rw [two, two]), inj, eq_comm, inj]
      simp
  · rw [overlay_name order buf untagged tag, aux_sym_eq, Option.some_inj,
      List.append_eq_append_iff_of_size_eq_left (by rw [four]; rfl), @eq_comm Bytes (scatter _ _)]
    refine and_congr_right fun _ => ⟨fun same => ?_, fun zeros => ?_⟩
    · have first := @List.append_inj _ [0, 0] _ _ _ same (two order _).symm
      have second := @List.append_inj _ [0, 0] _ _ _ first.2 (two order _).symm
      have lnno_zero := (zero_s lnno).mp first.1.symm
      have size_zero := (zero_s size).mp second.1.symm
      rw [lnno_zero, size_zero] at second
      have third := @List.append_inj _ [0, 0, 0, 0] _ _ _ second.2 (four order _).symm
      have lnnoptr_zero := (zero_l lnnoptr).mp third.1.symm
      rw [lnnoptr_zero] at third
      have fourth := @List.append_inj _ [0, 0, 0, 0] _ _ _ third.2 (four order _).symm
      exact ⟨lnno_zero, size_zero, lnnoptr_zero, (zero_l endndx).mp fourth.1.symm, (zero_s tvndx).mp fourth.2.symm⟩
    · rcases zeros with ⟨lnno_zero, size_zero, lnnoptr_zero, endndx_zero, tvndx_zero⟩
      unfold AuxSym.tail
      rw [lnno_zero, size_zero, lnnoptr_zero, endndx_zero, tvndx_zero]
      cases order <;> rfl


theorem aux_sym_bytes (inRange : aux.InRange)
    (length : buf.length = AUXESZ) (read : unpack_aux_sym order buf = some aux) : pack_aux_sym order aux = some buf := by
  rcases aux_sym_round order inRange with ⟨bytes, written, long, back⟩
  have values {b : Bytes} (length : b.length = AUXESZ) (read : unpack_aux_sym order b = some aux) :
      unpackLoop (shiftsOf order) 6 "lsslls".toList b = some ([.number aux.x_tagndx, .number aux.x_lnno,
        .number aux.x_size, .number aux.x_lnnoptr, .number aux.x_endndx, .number aux.x_tvndx], AUXESZ, true) := by
    unfold unpack_aux_sym at read
    split at read
    next result =>
      cases read
      exact unpacked_loop result (length ▸ by decide)
    next => cases read
  have again := back []
  rw [List.append_nil] at again
  have same := (unpackLoop_injective (apart_shifts order) (values length read) (values long again)).2
  rw [List.take_of_length_le (Nat.le_of_eq length), List.take_of_length_le (Nat.le_of_eq long)] at same
  rw [same, written]

theorem packed_short (m : Nat) {bytes : Bytes}
    (written : packLoop (shiftsOf order) fmt.toList.length fmt.toList args = some (bytes, true))
    (length : bytes.length = m) (small : m ≤ INT_MAX) (other : m ≠ n) : packed order fmt n args = none := by
  subst length
  unfold packed
  rw [pack_eq]
  change (Option.map _ (packLoop (shiftsOf order) _ _ _)).bind _ = _
  rw [written, Option.map_some, Option.bind_some, if_pos rfl, toInt_small small, if_neg (by simpa using other)]

theorem aux_scn_short (order : Order) (aux : AuxScn) : pack_aux_scn order aux = none := by
  cases order
  · exact packed_short 15 rfl rfl (by decide) (by decide)
  · exact packed_short 15 rfl rfl (by decide) (by decide)

theorem aux_ary_short (order : Order) (aux : AuxAry) : pack_aux_ary order aux = none := by
  cases order
  · exact packed_short 16 rfl rfl (by decide) (by decide)
  · exact packed_short 16 rfl rfl (by decide) (by decide)

theorem aux_file_round (order : Order) (long : buf.length = AUXESZ) {name : Name}
    (inRange : name.InRange E_FILNMLEN) : ∃ bytes, pack_aux_file order buf name = some bytes ∧
      bytes.length = AUXESZ ∧ ∀ rest, unpack_aux_file order (bytes ++ rest) = some name := by
  have taken (s : Bytes) (length : s.length = AUXESZ) (rest : Bytes) :
      unpacked order (s ++ rest) "'18" AUXESZ = some [.pointer s] := by
    have format : Format "".toList [] := .nil
    rcases copied_round order 0 AUXESZ "'18" ['1', '8'] format .nil rfl rfl (s := s) length length (by decide) rfl
      with ⟨bytes, -, none_, read⟩
    rw [List.length_eq_zero_iff.mp none_] at read
    exact read rest
  cases name with
  | name s =>
    rcases inRange with ⟨length, nonzero⟩
    have all : s.take E_FILNMLEN = s := length ▸ List.take_length
    refine ⟨s, congrArg some all, length, fun rest => ?_⟩
    unfold unpack_aux_file
    rw [taken s length]
    exact if_neg nonzero
  | offset n =>
    have eight : ([0, 0, 0, 0] ++ scatter (shiftsOf order .l) n).length = 8 := by cases order <;> rfl
    have length : ([0, 0, 0, 0] ++ scatter (shiftsOf order .l) n ++ buf.drop 8).length = AUXESZ := by
      rw [List.length_append, eight, List.length_drop, long]
      rfl
    refine ⟨_, ?_, length, fun rest => ?_⟩
    · exact congrArg (Option.map fun r => r.1 ++ buf.drop 8) (ll_eq order n)
    · unfold unpack_aux_file
      rw [taken _ length]
      dsimp only
      have first : ([0, 0, 0, 0] ++ scatter (shiftsOf order .l) n ++ buf.drop 8).take 4 = [0, 0, 0, 0] := rfl
      unfold unpack_name
      rw [if_pos first, unpack_ll order inRange]

end Scc.Libmach.Coff32
