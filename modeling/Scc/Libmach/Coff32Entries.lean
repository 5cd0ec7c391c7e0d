import Scc.Libmach.Coff32Codec
import Scc.Libmach.Coff32Offsets

/-!
# The symbol table

The entries of the symbol table are written one after the other in one buffer, and read back. This
gives the same entries only for some kinds of them.
-/

namespace Scc.Libmach.Coff32

open Scc.Lib.Shifts Scc.Libmach.Pack Scc.Libmach.Reader

set_option autoImplicit false

/-- What is in the buffer for an entry. The entries of symbols are packed like those of files. -/
def pack_entry (order : Order) (buf : Bytes) : Ent → Option Bytes
  | .SYM_ENT ent => pack_ent order ent
  | .SYM_AUX_UNK b => some (b.take AUXESZ)
  | .SYM_AUX_SYM aux => pack_aux_file order buf (overlay aux)
  | .SYM_AUX_FILE x_fname => pack_aux_file order buf x_fname
  | .SYM_AUX_SCN aux => pack_aux_scn order aux
  | .SYM_AUX_FUN aux => pack_aux_fun order aux
  | .SYM_AUX_ARY aux => pack_aux_ary order aux

def strlen (s : Bytes) : Nat := (s.takeWhile (· ≠ 0)).length

/-- The length of a name in the string table. -/
def Name.long (strtbl : Bytes) : Name → Option Nat
  | .name _ => none
  | .offset n => some (strlen (strtbl.drop n))

def Ent.long (strtbl : Bytes) : Ent → Option Nat
  | .SYM_ENT ent => ent.n_name.long strtbl
  | .SYM_AUX_FILE x_fname => x_fname.long strtbl
  | _ => none

structure Writer where
  out : Bytes
  /-- The size of the new string table. -/
  siz : Int
  buf : Bytes

def writeent (order : Order) (strtbl : Bytes) (w : Writer) (ep : Ent) : Option Writer :=
  (putname (ep.long strtbl) w.siz).bind fun siz =>
    (pack_entry order w.buf ep).map fun buf => ⟨w.out ++ buf, siz, buf⟩

def writeents (order : Order) (strtbl : Bytes) (w : Writer) (ents : List Ent) : Option Writer :=
  ents.foldlM (writeent order strtbl) w

/-- The kind of the first auxiliary entry is the one that belongs to the symbol. -/
def Selected (sym : Syment) : Ent → Prop
  | .SYM_AUX_FILE _ => sym.n_sclass = C_FILE
  | .SYM_AUX_SCN _ => sym.n_sclass = C_STAT ∧ sym.n_type / 16 % 16 = DT_NON ∧ sym.n_type % 16 = T_NULL
  | .SYM_AUX_FUN _ => sym.n_sclass ≠ C_FILE ∧ sym.n_type / 16 % 16 = DT_FCN
  | .SYM_AUX_ARY _ => sym.n_sclass ≠ C_FILE ∧ sym.n_type / 16 % 16 = DT_ARY
  | .SYM_AUX_SYM _ => sym.n_sclass ≠ C_FILE ∧
      ¬ (sym.n_sclass = C_STAT ∧ sym.n_type / 16 % 16 = DT_NON ∧ sym.n_type % 16 = T_NULL) ∧
      sym.n_type / 16 % 16 ≠ DT_FCN ∧ sym.n_type / 16 % 16 ≠ DT_ARY
  | _ => False

def Ent.InRange : Ent → Prop
  | .SYM_ENT ent => ent.InRange
  | .SYM_AUX_UNK buf => buf.length = AUXESZ
  | .SYM_AUX_SYM aux => aux.InRange
  | .SYM_AUX_FILE x_fname => x_fname.InRange E_FILNMLEN
  | .SYM_AUX_SCN aux => aux.InRange
  | .SYM_AUX_FUN aux => aux.InRange
  | .SYM_AUX_ARY aux => aux.InRange

inductive Group
  | plain (sym : Syment)
  | auxs (sym : Syment) (first : Ent) (unks : List Bytes)

def Group.sym : Group → Syment
  | .plain sym => sym
  | .auxs sym _ _ => sym

def Group.entries : Group → List Ent
  | .plain sym => [.SYM_ENT sym]
  | .auxs sym first unks => .SYM_ENT sym :: first :: unks.map .SYM_AUX_UNK

def Group.Formed (f_nscns : Nat) : Group → Prop
  | .plain sym => sym.InRange ∧ sym.n_scnum ≤ f_nscns ∧ sym.n_numaux = 0
  | .auxs sym first unks => sym.InRange ∧ sym.n_scnum ≤ f_nscns ∧ sym.n_numaux = unks.length + 1 ∧
      Selected sym first ∧ first.InRange ∧ ∀ buf ∈ unks, buf.length = AUXESZ

def entries (groups : List Group) : List Ent := groups.flatMap Group.entries

/-- The table is the same after it has been written and read. -/
def Survives (order : Order) (strtbl : Bytes) (f_nscns : Nat) (buf : Bytes) (groups : List Group) : Prop :=
  ∃ w, writeents order strtbl ⟨[], 0, buf⟩ (entries groups) = some w ∧
    readents order f_nscns (entries groups).length (entries groups).length w.out = .ok (entries groups, [])

def Name.Short : Name → Prop
  | .name _ => True
  | .offset _ => False

/-- An auxiliary entry whose bytes are right when there is this in the buffer from the ninth byte on. -/
def Ent.Kept (order : Order) (ninth : Bytes) : Ent → Prop
  | .SYM_AUX_SYM aux => aux.Kept order ninth
  | .SYM_AUX_SCN _ => False
  | .SYM_AUX_ARY _ => False
  | _ => True

def Ent.Short : Ent → Prop
  | .SYM_ENT ent => ent.n_name.Short
  | .SYM_AUX_FILE x_fname => x_fname.Short
  | _ => True

/-- The buffer holds the bytes of the symbol when its first auxiliary entry is packed. -/
def Group.Packable (order : Order) : Group → Prop
  | .plain sym => sym.n_name.Short
  | .auxs sym first _ => sym.n_name.Short ∧ first.Short ∧ first.Kept order (sym.tail order)

/-- What is packed has the size of the record, and is unpacked to the same. -/
def Round {α : Type} (pack : Option Bytes) (size : Nat) (unpack : Bytes → Option α) (r : α) : Prop :=
  ∃ bytes, pack = some bytes ∧ bytes.length = size ∧ ∀ rest, unpack (bytes ++ rest) = some r

/-- The unpacker for the kind of an auxiliary entry. -/
def Ent.unpack (order : Order) (b : Bytes) : Ent → Option Ent
  | .SYM_AUX_FILE _ => (unpack_aux_file order b).map .SYM_AUX_FILE
  | .SYM_AUX_SCN _ => (unpack_aux_scn order b).map .SYM_AUX_SCN
  | .SYM_AUX_FUN _ => (unpack_aux_fun order b).map .SYM_AUX_FUN
  | .SYM_AUX_ARY _ => (unpack_aux_ary order b).map .SYM_AUX_ARY
  | .SYM_AUX_SYM _ => (unpack_aux_sym order b).map .SYM_AUX_SYM
  | _ => none

variable (order : Order)

theorem unpack_aux_selected {sym : Syment} {first : Ent} (selected : Selected sym first) (b : Bytes) :
    unpack_aux order sym b = first.unpack order b := by
  unfold unpack_aux
  dsimp only
  cases first with
  | SYM_ENT => exact selected.elim
  | SYM_AUX_UNK => exact selected.elim
  | SYM_AUX_FILE => exact if_pos selected
  | SYM_AUX_SCN =>
    have other : sym.n_sclass ≠ C_FILE := by
      rw [selected.1]
      decide
    exact (if_neg other).trans (if_pos selected)
  | SYM_AUX_FUN =>
    have other : ¬ (sym.n_sclass = C_STAT ∧ sym.n_type / 16 % 16 = DT_NON ∧ sym.n_type % 16 = T_NULL) := by
      rintro ⟨-, none_, -⟩
      rw [selected.2] at none_
      cases none_
    rw [if_neg selected.1, if_neg other, if_pos selected.2]
    rfl
  | SYM_AUX_ARY =>
    have other : ¬ (sym.n_sclass = C_STAT ∧ sym.n_type / 16 % 16 = DT_NON ∧ sym.n_type % 16 = T_NULL) := by
      rintro ⟨-, none_, -⟩
      rw [selected.2] at none_
      cases none_
    have function : sym.n_type / 16 % 16 ≠ DT_FCN := by
      rw [selected.2]
      decide
    rw [if_neg selected.1, if_neg other, if_neg function, if_pos selected.2]
    rfl
  | SYM_AUX_SYM =>
    rw [if_neg selected.1, if_neg selected.2.1, if_neg selected.2.2.1, if_neg selected.2.2.2]
    rfl

theorem overlay_length {buf bytes : Bytes} (long : buf.length = AUXESZ) {aux : AuxSym}
    (inRange : aux.InRange) (written : pack_aux_file order buf (overlay aux) = some bytes) : bytes.length = AUXESZ := by
  by_cases untagged : aux.x_tagndx = 0
  · rw [overlay_offset order buf untagged] at written
    cases written
    rw [List.length_append, List.length_drop, long]
    cases order <;> rfl
  · rw [overlay_name order buf untagged (inRange _ List.mem_cons_self)] at written
    cases written
    rfl

theorem first_kept {buf : Bytes} (long : buf.length = AUXESZ) {sym : Syment} {first : Ent}
    (selected : Selected sym first) (inRange : first.InRange) (kept : first.Kept order (buf.drop 8)) :
    Round (pack_entry order buf first) AUXESZ (unpack_aux order sym) first := by
  have unpack := unpack_aux_selected order selected
  cases first with
  | SYM_ENT => exact selected.elim
  | SYM_AUX_UNK => exact selected.elim
  | SYM_AUX_FILE x_fname =>
    rcases aux_file_round order long inRange with ⟨bytes, written, length, read⟩
    exact ⟨bytes, written, length, fun rest => by rw [unpack, Ent.unpack, read, Option.map_some]⟩
  | SYM_AUX_FUN aux =>
    rcases aux_fun_round order inRange with ⟨bytes, written, length, read⟩
    exact ⟨bytes, written, length, fun rest => by rw [unpack, Ent.unpack, read, Option.map_some]⟩
  | SYM_AUX_SYM aux =>
    rcases aux_sym_round order inRange with ⟨bytes, written, length, read⟩
    exact ⟨bytes, ((aux_sym_kept order inRange).mpr kept).trans written, length,
      fun rest => by rw [unpack, Ent.unpack, read, Option.map_some]⟩
  | SYM_AUX_SCN => exact kept.elim
  | SYM_AUX_ARY => exact kept.elim

theorem first_lost (order : Order) {buf bytes : Bytes} (long : buf.length = AUXESZ) {sym : Syment} {first : Ent}
    (selected : Selected sym first) (inRange : first.InRange) (lost : ¬ first.Kept order (buf.drop 8))
    (written : pack_entry order buf first = some bytes) :
    bytes.length = AUXESZ ∧ unpack_aux order sym bytes ≠ some first := by
  have unpack := unpack_aux_selected order selected
  cases first with
  | SYM_ENT => exact selected.elim
  | SYM_AUX_UNK => exact selected.elim
  | SYM_AUX_FILE => exact absurd trivial lost
  | SYM_AUX_FUN => exact absurd trivial lost
  | SYM_AUX_SYM aux =>
    have length := overlay_length order long inRange written
    refine ⟨length, fun read => lost ?_⟩
    rw [unpack] at read
    rcases Option.map_eq_some_iff.mp read with ⟨aux', found, same⟩
    cases same
    exact (aux_sym_kept order inRange).mp (written.trans (aux_sym_bytes inRange length found).symm)
  | SYM_AUX_SCN aux => exact absurd ((aux_scn_short order aux).symm.trans written) (by simp)
  | SYM_AUX_ARY aux => exact absurd ((aux_ary_short order aux).symm.trans written) (by simp)

theorem pack_ent_eq (sym : Syment) :
    pack_ent order sym = (pack_name order sym.n_name).map (· ++ sym.tail order) := by
  unfold pack_ent
  cases pack_name order sym.n_name with
  | none => rfl
  | some s =>
    change Option.map (s ++ ·) _ = Option.map (s ++ ·) (some _)
    refine congrArg _ (packed_loop ?_ ?_ ?_)
    · cases order <;> rfl
    · cases order <;> rfl
    · decide

theorem ent_tail {sym : Syment} (inRange : sym.InRange) : ∃ bytes, pack_ent order sym = some bytes ∧
    bytes.length = SYMESZ ∧ bytes.drop 8 = sym.tail order ∧ ∀ rest, unpack_ent order (bytes ++ rest) = some sym := by
  rcases ent_round order inRange with ⟨bytes, written, length, read⟩
  refine ⟨bytes, written, length, ?_, read⟩
  rcases name_round order inRange.1 with ⟨s, named, eight, -⟩
  rw [pack_ent_eq, named, Option.map_some] at written
  cases written
  exact List.drop_left' eight

theorem Name.long_none {name : Name} (strtbl : Bytes) : name.long strtbl = none ↔ name.Short := by
  cases name with
  | name s => exact ⟨fun _ => trivial, fun _ => rfl⟩
  | offset n => exact ⟨nofun, False.elim⟩

theorem Ent.long_none {ep : Ent} (strtbl : Bytes) : ep.long strtbl = none ↔ ep.Short := by
  cases ep with
  | SYM_ENT ent => exact Name.long_none strtbl
  | SYM_AUX_FILE x_fname => exact Name.long_none strtbl
  | _ => exact ⟨fun _ => trivial, fun _ => rfl⟩

theorem writeent_short {order : Order} {strtbl : Bytes} {out buf bytes : Bytes} {ep : Ent} (short : ep.Short)
    (written : pack_entry order buf ep = some bytes) :
    writeent order strtbl ⟨out, 0, buf⟩ ep = some ⟨out ++ bytes, 0, bytes⟩ := by
  unfold writeent
  dsimp only
  rw [(Ent.long_none strtbl).mpr short, written]
  rfl

theorem writeent_some {order : Order} {strtbl : Bytes} {out buf : Bytes} {ep : Ent} {w : Writer}
    (result : writeent order strtbl ⟨out, 0, buf⟩ ep = some w) :
    ep.Short ∧ ∃ bytes, pack_entry order buf ep = some bytes ∧ w = ⟨out ++ bytes, 0, bytes⟩ := by
  rcases Option.bind_eq_some_iff.mp result with ⟨siz, put, rest⟩
  rcases Option.map_eq_some_iff.mp rest with ⟨bytes, written, rfl⟩
  dsimp only at put written
  rw [putname_eq] at put
  split_ifs at put with short
  cases put
  exact ⟨(Ent.long_none strtbl).mp (Option.isNone_iff_eq_none.mp short), bytes, written, rfl⟩

theorem writeents_cons (strtbl : Bytes) (w : Writer) (ep : Ent) (ents : List Ent) :
    writeents order strtbl w (ep :: ents) = (writeent order strtbl w ep).bind (writeents order strtbl · ents) := by
  unfold writeents
  rw [List.foldlM_cons]
  rfl

theorem writeents_append (strtbl : Bytes) (w : Writer) (ents ents' : List Ent) :
    writeents order strtbl w (ents ++ ents') =
      (writeents order strtbl w ents).bind (writeents order strtbl · ents') := by
  unfold writeents
  rw [List.foldlM_append]
  rfl

theorem writeents_after (strtbl out : Bytes) (w : Writer) (ents : List Ent) :
    writeents order strtbl ⟨out ++ w.out, w.siz, w.buf⟩ ents =
      (writeents order strtbl w ents).map fun w => ⟨out ++ w.out, w.siz, w.buf⟩ := by
  induction ents generalizing w with
  | nil => rfl
  | cons ep ents ih =>
    have first : writeent order strtbl ⟨out ++ w.out, w.siz, w.buf⟩ ep =
        (writeent order strtbl w ep).map fun w => ⟨out ++ w.out, w.siz, w.buf⟩ := by
      unfold writeent
      dsimp only
      cases putname (ep.long strtbl) w.siz with
      | none => rfl
      | some siz =>
        cases pack_entry order w.buf ep with
        | none => rfl
        | some bytes =>
          rw [Option.bind_some, Option.bind_some, Option.map_some, Option.map_some, Option.map_some, List.append_assoc]
    rw [writeents_cons, writeents_cons, first]
    cases writeent order strtbl w ep with
    | none => rfl
    | some w' => exact ih w'

theorem unks_written (strtbl : Bytes) {unks : List Bytes} (sized : ∀ b ∈ unks, b.length = AUXESZ)
    (buf : Bytes) : ∃ buf' : Bytes,
      ∀ out, writeents order strtbl ⟨out, 0, buf⟩ (unks.map .SYM_AUX_UNK) = some ⟨out ++ unks.flatten, 0, buf'⟩ := by
  induction unks generalizing buf with
  | nil =>
    refine ⟨buf, fun out => ?_⟩
    rw [List.flatten_nil, List.append_nil]
    rfl
  | cons b unks ih =>
    have here : b.length = AUXESZ := sized b List.mem_cons_self
    rcases ih (fun b member => sized b (List.mem_cons_of_mem _ member)) b with ⟨buf', written⟩
    refine ⟨buf', fun out => ?_⟩
    have first : pack_entry order buf (.SYM_AUX_UNK b) = some b :=
      congrArg some (List.take_of_length_le (Nat.le_of_eq here))
    rw [List.map_cons, writeents_cons, @writeent_short _ _ _ _ _ (.SYM_AUX_UNK b) trivial first, Option.bind_some,
      written, List.flatten_cons, List.append_assoc]

theorem unks_read {unks : List Bytes} (sized : ∀ b ∈ unks, b.length = AUXESZ) {room : Nat}
    (enough : unks.length ≤ room) (rest : Bytes) :
    readunks unks.length room (unks.flatten ++ rest) = .ok (unks.map .SYM_AUX_UNK, rest) := by
  induction unks generalizing room with
  | nil => rfl
  | cons b unks ih =>
    cases room with
    | zero => exact absurd enough (by simp)
    | succ room =>
      have here : b.length = AUXESZ := sized b List.mem_cons_self
      rw [List.flatten_cons, List.append_assoc, List.length_cons, readunks, fread_append here]
      change (readunks unks.length room (unks.flatten ++ rest) >>= _) = _
      rw [ih (fun b member => sized b (List.mem_cons_of_mem _ member)) (by simpa using enough)]
      rfl

theorem readents_sym {f_nscns : Nat} {sym : Syment} (scnum : sym.n_scnum ≤ f_nscns) {bytes : Bytes}
    (length : bytes.length = SYMESZ) (read : unpack_ent order bytes = some sym) (fuel room : Nat) (fp : Bytes) :
    readents order f_nscns (fuel + 1) (room + 1) (bytes ++ fp) = (readauxs order sym room fp).bind fun auxs =>
      (readents order f_nscns fuel (room - auxs.1.length) auxs.2).map fun r => (.SYM_ENT sym :: (auxs.1 ++ r.1), r.2) := by
  have inside : ¬ sym.n_scnum > f_nscns := by omega
  rw [readents, fread_append length]
  change (assertion (unpack_ent order bytes) >>= _) = _
  rw [read]
  change (if _ then _ else _) = _
  rw [if_neg inside]
  cases readauxs order sym room fp with
  | error stop => rfl
  | ok auxs =>
    change (readents order f_nscns fuel _ _ >>= _) = Except.map _ _
    cases readents order f_nscns fuel (room - auxs.1.length) auxs.2 with
    | error stop => rfl
    | ok r => rfl

theorem readauxs_first {sym : Syment} {n : Nat} (numaux : sym.n_numaux = n + 1) {b : Bytes}
    (length : b.length = AUXESZ) (room : Nat) (fp : Bytes) :
    readauxs order sym (room + 1) (b ++ fp) = (assertion (unpack_aux order sym b)).bind fun first =>
      (readunks n room fp).map fun r => (first :: r.1, r.2) := by
  have some_ : sym.n_numaux ≠ 0 := by omega
  have positive : ¬ sym.n_numaux < 0 := by omega
  have rest : sym.n_numaux.toNat - 1 = n := by omega
  unfold readauxs
  rw [if_neg some_, fread_append length]
  change (assertion (unpack_aux order sym b) >>= _) = _
  cases unpack_aux order sym b with
  | none => rfl
  | some first =>
    change (if _ then _ else _) = Except.map _ _
    rw [if_neg positive, rest]
    cases readunks n room fp with
    | error stop => rfl
    | ok r => rfl

theorem group_kept (strtbl : Bytes) {f_nscns : Nat} {g : Group} (formed : g.Formed f_nscns)
    (packable : g.Packable order) (buf : Bytes) : ∃ bytes buf',
      (∀ out, writeents order strtbl ⟨out, 0, buf⟩ g.entries = some ⟨out ++ bytes, 0, buf'⟩) ∧
      ∀ fuel room rest, readents order f_nscns (fuel + 1) (room + g.entries.length) (bytes ++ rest) =
        (readents order f_nscns fuel room rest).map fun r => (g.entries ++ r.1, r.2) := by
  cases g with
  | plain sym =>
    rcases formed with ⟨inRange, scnum, numaux⟩
    rcases ent_tail order inRange with ⟨bytes, written, length, -, read⟩
    have back := read []
    rw [List.append_nil] at back
    refine ⟨bytes, bytes, fun out => ?_, fun fuel room rest => ?_⟩
    · unfold Group.entries
      rw [writeents_cons, @writeent_short _ _ _ _ _ (.SYM_ENT sym) packable written]
      rfl
    · have none_ : readauxs order sym room rest = .ok ([], rest) := if_pos numaux
      unfold Group.entries
      rw [List.length_singleton, readents_sym order scnum length back, none_]
      rfl
  | auxs sym first unks =>
    rcases formed with ⟨inRange, scnum, numaux, selected, firstRange, sized⟩
    rcases packable with ⟨short, firstShort, kept⟩
    rcases ent_tail order inRange with ⟨bytes, written, length, tail, read⟩
    rw [← tail] at kept
    rcases first_kept order length selected firstRange kept with ⟨b, firstWritten, firstLength, firstRead⟩
    rcases unks_written order strtbl sized b with ⟨buf', rest_⟩
    have back := read []
    have firstBack := firstRead []
    rw [List.append_nil] at back firstBack
    refine ⟨bytes ++ (b ++ unks.flatten), buf', fun out => ?_, fun fuel room rest => ?_⟩
    · unfold Group.entries
      rw [writeents_cons, @writeent_short _ _ _ _ _ (.SYM_ENT sym) short written, Option.bind_some, writeents_cons,
        writeent_short firstShort firstWritten, Option.bind_some, rest_, List.append_assoc, List.append_assoc]
    · have more : readunks unks.length (room + unks.length) (unks.flatten ++ rest) = .ok (unks.map .SYM_AUX_UNK, rest) :=
        unks_read sized (Nat.le_add_left _ _) rest
      have count : room + (Group.auxs sym first unks).entries.length = room + unks.length + 1 + 1 := by
        simp [Group.entries]
        omega
      have left : room + unks.length + 1 - (first :: unks.map Ent.SYM_AUX_UNK).length = room := by
        simp
      rw [count, List.append_assoc, readents_sym order scnum length back, List.append_assoc,
        readauxs_first order numaux firstLength, firstBack]
      change ((readunks unks.length _ _).map _).bind _ = _
      rw [more]
      change (readents order f_nscns fuel _ rest).map _ = _
      rw [left]
      rfl

theorem group_lost (strtbl : Bytes) {f_nscns : Nat} {g : Group} (formed : g.Formed f_nscns)
    (lost : ¬ g.Packable order) {buf : Bytes} {w : Writer} (result : writeents order strtbl ⟨[], 0, buf⟩ g.entries = some w)
    {fuel room : Nat} {more : Bytes} {r : List Ent × Bytes}
    (read : readents order f_nscns fuel room (w.out ++ more) = .ok r) : ¬ g.entries <+: r.1 := by
  cases g with
  | plain sym =>
    unfold Group.entries at result
    rw [writeents_cons] at result
    rcases Option.bind_eq_some_iff.mp result with ⟨w', first, -⟩
    exact absurd (writeent_some first).1 lost
  | auxs sym first unks =>
    rcases formed with ⟨inRange, scnum, numaux, selected, firstRange, sized⟩
    unfold Group.entries at result
    rw [writeents_cons] at result
    rcases Option.bind_eq_some_iff.mp result with ⟨w', here, later⟩
    rcases writeent_some here with ⟨short, bytes, written, rfl⟩
    rw [writeents_cons] at later
    rcases Option.bind_eq_some_iff.mp later with ⟨w'', here', later'⟩
    rcases writeent_some here' with ⟨firstShort, b, firstWritten, rfl⟩
    rcases ent_tail order inRange with ⟨bytes', written', length, tail, back⟩
    cases written.symm.trans written'
    have notKept : ¬ first.Kept order (bytes.drop 8) := by
      rw [tail]
      exact fun kept => lost ⟨short, firstShort, kept⟩
    rcases first_lost order length selected firstRange notKept firstWritten with ⟨firstLength, other⟩
    have after := writeents_after order strtbl (bytes ++ b) ⟨[], 0, b⟩ (unks.map .SYM_AUX_UNK)
    rw [List.append_nil] at after
    rw [List.nil_append, after] at later'
    rcases Option.map_eq_some_iff.mp later' with ⟨w, -, rfl⟩
    have parts : bytes ++ b ++ w.out ++ more = bytes ++ (b ++ (w.out ++ more)) := by simp
    have sym_back := back []
    rw [List.append_nil] at sym_back
    rw [parts] at read
    unfold Group.entries
    intro same
    cases room with
    | zero =>
      have empty : r = ([], bytes ++ (b ++ (w.out ++ more))) := by
        cases fuel <;> exact (Except.ok.inj read).symm
      rw [empty] at same
      simp at same
    | succ room =>
      cases fuel with
      | zero => cases read
      | succ fuel =>
        rw [readents_sym order scnum length sym_back] at read
        cases room with
        | zero =>
          have fault : readauxs order sym 0 (b ++ (w.out ++ more)) = .error .fault := by
            have some_ : sym.n_numaux ≠ 0 := by omega
            unfold readauxs
            rw [if_neg some_, fread_append firstLength]
            rfl
          rw [fault] at read
          cases read
        | succ room =>
          rw [readauxs_first order numaux firstLength] at read
          cases found : unpack_aux order sym b with
          | none =>
            rw [found] at read
            cases read
          | some first' =>
            rw [found] at read
            change Except.bind (Except.map _ (readunks unks.length room (w.out ++ more))) _ = _ at read
            cases rest_ : readunks unks.length room (w.out ++ more) with
            | error stop =>
              rw [rest_] at read
              cases read
            | ok auxs =>
              rw [rest_] at read
              change Except.map _ (readents order f_nscns fuel _ auxs.2) = _ at read
              revert read
              cases readents order f_nscns fuel _ auxs.2 with
              | error stop => nofun
              | ok r' =>
                intro read
                cases read
                have second := (List.cons_prefix_cons.mp (List.cons_prefix_cons.mp same).2).1
                rw [second] at other
                exact other found

theorem survives_iff (strtbl : Bytes) {f_nscns : Nat} {groups : List Group}
    (formed : ∀ g ∈ groups, g.Formed f_nscns) (buf : Bytes) {fuel : Nat} (enough : groups.length ≤ fuel) :
    (∃ w, writeents order strtbl ⟨[], 0, buf⟩ (entries groups) = some w ∧
      readents order f_nscns fuel (entries groups).length w.out = .ok (entries groups, [])) ↔
      ∀ g ∈ groups, g.Packable order := by
  induction groups generalizing buf fuel with
  | nil =>
    refine ⟨fun _ => nofun, fun _ => ⟨_, rfl, ?_⟩⟩
    cases fuel <;> rfl
  | cons g groups ih =>
    have here := formed g List.mem_cons_self
    have rest := ih fun g member => formed g (List.mem_cons_of_mem _ member)
    have table : entries (g :: groups) = g.entries ++ entries groups := List.flatMap_cons
    rw [table, writeents_append]
    by_cases packable : g.Packable order
    · rcases group_kept order strtbl here packable buf with ⟨bytes, buf', written, read⟩
      have after := writeents_after order strtbl bytes ⟨[], 0, buf'⟩ (entries groups)
      rw [List.append_nil] at after
      cases fuel with
      | zero => cases enough
      | succ fuel =>
        have step := rest buf' (Nat.le_of_succ_le_succ enough)
        have count : (g.entries ++ entries groups).length = (entries groups).length + g.entries.length := by
          rw [List.length_append, Nat.add_comm]
        rw [written, Option.bind_some, List.nil_append, after, List.forall_mem_cons, ← step]
        constructor
        · rintro ⟨w, result, back⟩
          rcases Option.map_eq_some_iff.mp result with ⟨w', result', rfl⟩
          refine ⟨packable, w', result', ?_⟩
          rw [count, read] at back
          revert back
          cases readents order f_nscns fuel (entries groups).length w'.out with
          | error stop => nofun
          | ok r =>
            intro back
            cases r
            simp only [Except.map, Except.ok.injEq, Prod.mk.injEq, List.append_right_inj] at back
            rw [back.1, back.2]
        · rintro ⟨-, w, result, back⟩
          refine ⟨⟨bytes ++ w.out, w.siz, w.buf⟩, by rw [result, Option.map_some], ?_⟩
          rw [count, read, back]
          rfl
    · refine ⟨fun ⟨w, result, back⟩ => ?_, fun all => absurd (all g List.mem_cons_self) packable⟩
      rcases Option.bind_eq_some_iff.mp result with ⟨w', first, later⟩
      have after := writeents_after order strtbl w'.out ⟨[], w'.siz, w'.buf⟩ (entries groups)
      rw [List.append_nil] at after
      rcases Option.map_eq_some_iff.mp (after.symm.trans later) with ⟨w'', -, rfl⟩
      exact absurd (List.prefix_append _ _) (group_lost order strtbl here packable first back)

end Scc.Libmach.Coff32
