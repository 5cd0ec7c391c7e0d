import Scc.Libmach.Coff32Reading

/-!
# Which objects are read soundly

The reader takes numbers of the file for indexes. Some of them are checked while it reads, and for the
others it depends on the file whether they stay inside of the tables.
-/

namespace Scc.Libmach.Coff32

open Scc.Libmach.Pack Scc.Libmach.Reader

set_option autoImplicit false

/-- An offset is inside of the string table, and its string ends there. -/
def Name.InTable (strtbl : Bytes) : Name → Prop
  | .name _ => True
  | .offset n => n < strtbl.length ∧ 0 ∈ strtbl.drop n

structure Sound (obj : Object) : Prop where
  scns : ∀ scn ∈ obj.scns, scn.s_name.InTable obj.strtbl
  syms : ∀ sym, Ent.SYM_ENT sym ∈ obj.ents → sym.n_name.InTable obj.strtbl
  /-- The numbers below one are those of symbols without a section. -/
  scnums : ∀ sym, Ent.SYM_ENT sym ∈ obj.ents → -2 ≤ sym.n_scnum ∧ sym.n_scnum ≤ obj.scns.length
  auxs : obj.ents.length = obj.hdr.f_nsyms ∧ Grouped obj.scns.length obj.ents
  rels : ∀ rp ∈ obj.rels, ∀ rel ∈ rp, rel.r_symndx < obj.hdr.f_nsyms

/-- A sound object is read, or none, and nothing is written outside of the arrays. -/
def SoundRead : Read Object → Prop
  | .ok obj => Sound obj
  | .error .fault => False
  | .error .stray => False
  | .error _ => True

/-- The header of a section, with what was in the buffer before when the file ends. -/
def scnBytes : Bytes → Bytes → Nat → Bytes
  | buf, fp, 0 => fill buf fp
  | buf, fp, i + 1 => scnBytes (fill buf fp) (fp.drop SCNHSZ) i

/-- The symbols that are found by going over the auxiliary entries, when there is room for all of them. -/
inductive Symtab (order : Order) : Nat → Bytes → List Syment → Prop
  | nil (fp : Bytes) : Symtab order 0 fp []
  | cons {room n : Nat} {fp : Bytes} {sym : Syment} {syms : List Syment}
      (read : unpack_ent order (fp.take SYMESZ) = some sym) (numaux : sym.n_numaux = n) (fits : n ≤ room)
      (later : Symtab order (room - n) (fp.drop (SYMESZ * (n + 1))) syms) : Symtab order (room + 1) fp (sym :: syms)

def strings (order : Order) (f_nsyms : Nat) (unset : Bytes) (fp : Bytes) : Bytes :=
  if f_nsyms = 0 then []
  else
    match strsize order (fp.take 4) with
    | some siz => if siz = 4 then [] else unset ++ (fp.drop 4).take (siz - 4)
    | none => []

/-- The numbers of the file that are not checked are right. -/
structure Tables (order : Order) (unset : Unset) (file : Bytes) (hdr : Filhdr) (fp : Bytes) : Prop where
  syms : ∃ syms, Symtab order hdr.f_nsyms (file.drop hdr.f_symptr) syms ∧ ∀ sym ∈ syms, -2 ≤ sym.n_scnum ∧
    sym.n_name.InTable (strings order hdr.f_nsyms unset.str (file.drop (hdr.f_symptr + SYMESZ * hdr.f_nsyms)))
  scns : ∀ i < hdr.f_nscns, ∀ scn, unpack_scn order (scnBytes unset.buf fp i) = some scn →
    scn.s_name.InTable (strings order hdr.f_nsyms unset.str (file.drop (hdr.f_symptr + SYMESZ * hdr.f_nsyms))) ∧
      (0 < scn.s_nrelloc → i < scn.s_nrelloc)

/-- The file header, and the place after it and the optional header. -/
def Wellformed (order : Order) (unset : Unset) (file : Bytes) : Prop :=
  ∀ hdr, unpack_hdr order (file.take FILHSZ) = some hdr →
    Tables order unset file hdr ((file.drop FILHSZ).drop (if hdr.f_opthdr = 0 then 0 else AOUTSZ))

theorem safe_readscns (order : Order) (n : Nat) (buf fp : Bytes) : Safe (readscns order n buf fp) := by
  induction n generalizing buf fp with
  | zero => exact safe_ok _
  | succ n ih =>
    apply safe_bind (safe_assertion _)
    intro scn _
    apply safe_bind (ih _ _)
    intro rest _
    exact safe_ok _

variable {n room : Nat} {fp fp' file : Bytes} {order : Order} {scns : List Scnhdr} {hdr : Filhdr}
  {unset : Unset}

theorem safe_readunks (fits : n ≤ room) (fp : Bytes) : Safe (readunks n room fp) := by
  induction n generalizing room fp with
  | zero => exact safe_ok _
  | succ n ih =>
    cases room with
    | zero => exact absurd fits (Nat.not_succ_le_zero n)
    | succ room =>
      apply safe_bind (safe_fread _ _)
      intro r _
      apply safe_bind (ih (Nat.le_of_succ_le_succ fits) _)
      intro rest _
      exact safe_ok _

theorem safe_readauxs (order : Order) {ent : Syment} (numaux : ent.n_numaux = n) (fits : n ≤ room)
    (fp : Bytes) : Safe (readauxs order ent room fp) := by
  unfold readauxs
  split_ifs with none_ negative
  · exact safe_ok _
  · omega
  · apply safe_bind (safe_fread _ _)
    intro r _
    cases room with
    | zero => omega
    | succ room =>
      apply safe_bind (safe_assertion _)
      intro first _
      have count : ent.n_numaux.toNat - 1 ≤ room := by omega
      apply safe_bind (safe_readunks count _)
      intro rest _
      exact safe_ok _

theorem safe_readents {f_nscns fuel room : Nat} {syms : List Syment}
    (table : Symtab order room fp syms) : Safe (readents order f_nscns fuel room fp) := by
  induction fuel generalizing room fp syms with
  | zero =>
    cases room with
    | zero => exact safe_ok _
    | succ room => exact safe_fail
  | succ fuel ih =>
    cases table with
    | nil => exact safe_ok _
    | @cons room n _ sym syms read numaux fits later =>
      apply safe_bind (safe_fread _ _)
      rintro ⟨buf, fp1⟩ first
      rcases fread_ok first with ⟨-, rfl, rfl⟩
      apply safe_bind (safe_assertion _)
      intro ent unpacked_
      cases (assertion_ok unpacked_).symm.trans read
      split_ifs with outside
      · exact safe_fail
      · apply safe_bind (safe_readauxs order numaux fits _)
        rintro ⟨auxs, fp2⟩ belong
        rcases readauxs_ok belong with ⟨count, -, rfl, -⟩
        have same : auxs.length = n := by omega
        have there : (fp.drop SYMESZ).drop (AUXESZ * auxs.length) = fp.drop (SYMESZ * (n + 1)) := by
          rw [List.drop_drop, same, Nat.mul_succ, Nat.add_comm]
          rfl
        apply safe_bind
        · rw [there, same]
          exact ih later
        · intro rest _
          exact safe_ok _

theorem safe_readstr (order : Order) (f_nsyms : Nat) (unset fp : Bytes) : Safe (readstr order f_nsyms unset fp) := by
  unfold readstr
  split_ifs
  · exact safe_ok _
  · apply safe_bind (safe_fread _ _)
    intro r _
    apply safe_bind (safe_assertion _)
    intro siz _
    split_ifs
    · exact safe_fail
    · exact safe_ok _
    · apply safe_bind (safe_fread _ _)
      intro r' _
      exact safe_ok _

theorem safe_readrels (order : Order) (f_nsyms : Nat) {i nrelloc n : Nat} (inside : 0 < n → i < nrelloc)
    (rp : List Reloc) (fp : Bytes) : Safe (readrels order f_nsyms i nrelloc n rp fp) := by
  induction n generalizing rp fp with
  | zero => exact safe_ok _
  | succ n ih =>
    have here := inside (Nat.succ_pos n)
    apply safe_bind (safe_fread _ _)
    intro r _
    apply safe_bind (safe_assertion _)
    intro rel _
    split_ifs
    · omega
    · exact safe_fail
    · exact ih (fun _ => here) _ _

theorem safe_readreloc (order : Order) (f_nsyms : Nat) (file : Bytes) {i : Nat}
    (inside : ∀ k scn, scns[k]? = some scn → 0 < scn.s_nrelloc → i + k < scn.s_nrelloc) :
    Safe (readreloc order f_nsyms file i scns) := by
  induction scns generalizing i with
  | nil => exact safe_ok _
  | cons scn scns ih =>
    apply safe_bind (safe_readrels order f_nsyms (inside 0 scn rfl) _ _)
    intro rp _
    apply safe_bind
    · apply ih
      intro k scn' found some_
      have there := inside (k + 1) scn' found some_
      omega
    · intro rest _
      exact safe_ok _

theorem safe_readlnnos (order : Order) (f_nsyms n : Nat) (fp : Bytes) : Safe (readlnnos order f_nsyms n fp) := by
  induction n generalizing fp with
  | zero => exact safe_ok _
  | succ n ih =>
    apply safe_bind (safe_fread _ _)
    intro r _
    apply safe_bind (safe_assertion _)
    intro lp _
    split_ifs
    · exact safe_fail
    · apply safe_bind (ih _)
      intro rest _
      exact safe_ok _

theorem safe_readlines (order : Order) (f_nsyms : Nat) (file : Bytes) (scns : List Scnhdr) :
    Safe (readlines order f_nsyms file scns) := by
  induction scns with
  | nil => exact safe_ok _
  | cons scn scns ih =>
    apply safe_bind (safe_readlnnos order f_nsyms _ _)
    intro lp _
    apply safe_bind ih
    intro rest _
    exact safe_ok _

theorem readscns_ok {buf fp : Bytes} (ok : readscns order n buf fp = .ok scns) : scns.length = n ∧
      ∀ i scn, scns[i]? = some scn → unpack_scn order (scnBytes buf fp i) = some scn := by
  induction n generalizing buf fp scns with
  | zero =>
    cases ok
    exact ⟨rfl, nofun⟩
  | succ n ih =>
    rcases bind_ok ok with ⟨scn, first, more⟩
    rcases bind_ok more with ⟨rest, later, same⟩
    rcases ih later with ⟨length, found⟩
    cases same
    refine ⟨by rw [List.length_cons, length], ?_⟩
    intro i scn' here
    cases i with
    | zero =>
      cases here
      exact assertion_ok first
    | succ i => exact found i scn' here

theorem readents_symtab {f_nscns fuel room : Nat} {ents : List Ent}
    (ok : readents order f_nscns fuel room fp = .ok (ents, fp')) :
    ∃ syms, Symtab order room fp syms ∧ ∀ sym, Ent.SYM_ENT sym ∈ ents ↔ sym ∈ syms := by
  induction fuel generalizing room fp fp' ents with
  | zero =>
    cases room with
    | zero =>
      cases ok
      exact ⟨[], .nil _, fun sym => ⟨nofun, nofun⟩⟩
    | succ room => cases ok
  | succ fuel ih =>
    cases room with
    | zero =>
      cases ok
      exact ⟨[], .nil _, fun sym => ⟨nofun, nofun⟩⟩
    | succ room =>
      rcases bind_ok ok with ⟨⟨buf, fp1⟩, read, more⟩
      rcases bind_ok more with ⟨sym, unpacked_, rest⟩
      rcases fread_ok read with ⟨-, rfl, rfl⟩
      split_ifs at rest with outside
      rcases bind_ok rest with ⟨⟨auxs, fp2⟩, belong, rest'⟩
      rcases bind_ok rest' with ⟨⟨later, fp3⟩, again, same⟩
      rcases readauxs_ok belong with ⟨numaux, fits, rfl, kinds⟩
      rcases ih again with ⟨syms, table, members⟩
      cases same
      have there : (fp.drop SYMESZ).drop (AUXESZ * auxs.length) = fp.drop (SYMESZ * (auxs.length + 1)) := by
        rw [List.drop_drop, Nat.mul_succ, Nat.add_comm]
        rfl
      rw [there] at table
      refine ⟨sym :: syms, .cons (assertion_ok unpacked_) numaux fits table, fun sym' => ?_⟩
      rw [List.mem_cons, List.mem_append, members, List.mem_cons, Ent.SYM_ENT.injEq]
      have aux : ¬ Ent.SYM_ENT sym' ∈ auxs := fun member => kinds _ member
      simp [aux]

theorem symtab_unique {syms syms' : List Syment}
    (table : Symtab order room fp syms) (table' : Symtab order room fp syms') : syms = syms' := by
  induction table generalizing syms' with
  | nil =>
    cases table'
    rfl
  | cons read numaux fits later ih =>
    cases table' with
    | cons read' numaux' fits' later' =>
      cases read.symm.trans read'
      have same := Int.natCast_inj.mp (numaux.symm.trans numaux')
      subst same
      rw [ih later']

theorem readstr_ok {f_nsyms : Nat} {unset fp strtbl : Bytes}
    (ok : readstr order f_nsyms unset fp = .ok strtbl) : strtbl = strings order f_nsyms unset fp := by
  unfold readstr at ok
  unfold strings
  split_ifs at ok ⊢ with none_
  · exact (Except.ok.inj ok).symm
  · rcases bind_ok ok with ⟨⟨buf, fp1⟩, read, more⟩
    rcases fread_ok read with ⟨-, rfl, rfl⟩
    rcases bind_ok more with ⟨siz, size, rest⟩
    rw [assertion_ok size]
    split_ifs at rest with small four
    · cases rest
      exact (if_pos four).symm
    · rcases bind_ok rest with ⟨⟨str, fp2⟩, read', same⟩
      rcases fread_ok read' with ⟨-, rfl, -⟩
      cases same
      exact (if_neg four).symm

theorem readrels_ok {f_nsyms i nrelloc n : Nat} {rp rp' : List Reloc}
    (ok : readrels order f_nsyms i nrelloc n rp fp = .ok rp') : (0 < n → i < nrelloc ∧ 0 < f_nsyms) ∧
      ∀ rel ∈ rp', rel ∈ rp ∨ rel.r_symndx < f_nsyms := by
  induction n generalizing rp fp with
  | zero =>
    cases ok
    exact ⟨fun none_ => absurd none_ (Nat.lt_irrefl 0), fun rel member => .inl member⟩
  | succ n ih =>
    rcases bind_ok ok with ⟨⟨buf, fp1⟩, read, more⟩
    rcases bind_ok more with ⟨rel, unpacked_, rest⟩
    split_ifs at rest with outside large
    rcases ih rest with ⟨-, members⟩
    refine ⟨fun _ => ⟨by omega, by omega⟩, ?_⟩
    intro rel' member
    rcases members rel' member with old | good
    · rcases List.mem_or_eq_of_mem_set old with old | rfl
      · exact .inl old
      · exact .inr (by omega)
    · exact .inr good

theorem readreloc_ok {f_nsyms : Nat} {i : Nat}
    {rels : List (List Reloc)} (ok : readreloc order f_nsyms file i scns = .ok rels) :
    (∀ k scn, scns[k]? = some scn → 0 < scn.s_nrelloc → i + k < scn.s_nrelloc) ∧
      ∀ rp ∈ rels, ∀ rel ∈ rp, rel.r_symndx < f_nsyms := by
  induction scns generalizing i rels with
  | nil =>
    cases ok
    exact ⟨nofun, nofun⟩
  | cons scn scns ih =>
    rcases bind_ok ok with ⟨rp, first, more⟩
    rcases bind_ok more with ⟨rest, later, same⟩
    rcases readrels_ok first with ⟨inside, members⟩
    rcases ih later with ⟨insides, all⟩
    cases same
    constructor
    · intro k scn' found some_
      cases k with
      | zero =>
        cases found
        exact (inside some_).1
      | succ k =>
        have there := insides k scn' found some_
        omega
    · intro rp' member
      rcases List.mem_cons.mp member with rfl | member
      · intro rel here
        rcases members rel here with unset | good
        · rcases List.mem_replicate.mp unset with ⟨some_, rfl⟩
          exact (inside (Nat.pos_of_ne_zero some_)).2
        · exact good
      · exact all rp' member

theorem grouped_scnum {f_nscns : Nat} {ents : List Ent} (grouped : Grouped f_nscns ents) {sym : Syment}
    (member : Ent.SYM_ENT sym ∈ ents) : sym.n_scnum ≤ f_nscns := by
  induction grouped with
  | nil => cases member
  | cons sym' auxs rest scnum numaux kinds later ih =>
    rcases List.mem_cons.mp member with same | member
    · cases same
      exact scnum
    · rcases List.mem_append.mp member with aux | member
      · exact (kinds _ aux).elim
      · exact ih member

theorem sound_iff {aout : Option Aouthdr}
    {obj : Object} (ok : readparts order unset file hdr aout fp = .ok obj) :
    Sound obj ↔ Tables order unset file hdr fp := by
  rcases bind_ok ok with ⟨scns, scnsRead, ok⟩
  rcases bind_ok ok with ⟨⟨ents, fp1⟩, entsRead, ok⟩
  rcases bind_ok ok with ⟨strtbl, strRead, ok⟩
  rcases bind_ok ok with ⟨rels, relsRead, ok⟩
  rcases bind_ok ok with ⟨lines, -, ok⟩
  rcases readscns_ok scnsRead with ⟨nscns, headers⟩
  rcases readents_ok entsRead with ⟨nsyms, place, grouped⟩
  rcases readents_symtab entsRead with ⟨syms, table, members⟩
  rcases readreloc_ok relsRead with ⟨inside, symndxs⟩
  have strtbl_eq := readstr_ok strRead
  rw [place, List.drop_drop] at strtbl_eq
  split_ifs at ok
  cases ok
  constructor
  · intro sound
    refine ⟨⟨syms, table, fun sym member => ⟨(sound.scnums sym ((members sym).mpr member)).1, ?_⟩⟩, ?_⟩
    · rw [← strtbl_eq]
      exact sound.syms sym ((members sym).mpr member)
    · intro i below scn unpacked_
      have here : scns[i]? = some scns[i] := List.getElem?_eq_getElem _
      cases (headers i _ here).symm.trans unpacked_
      have offset := inside i _ here
      rw [Nat.zero_add] at offset
      refine ⟨?_, offset⟩
      rw [← strtbl_eq]
      exact sound.scns _ (List.getElem_mem _)
  · rintro ⟨⟨syms', table', good⟩, scnsGood⟩
    cases symtab_unique table table'
    have symbol {sym : Syment} (member : Ent.SYM_ENT sym ∈ ents) := good sym ((members sym).mp member)
    refine ⟨?_, ?_, ?_, ⟨nsyms, nscns ▸ grouped⟩, symndxs⟩
    · intro scn member
      rcases List.mem_iff_getElem?.mp member with ⟨i, here⟩
      have below : i < hdr.f_nscns := nscns ▸ (List.getElem?_eq_some_iff.mp here).1
      rw [strtbl_eq]
      exact (scnsGood i below scn (headers i scn here)).1
    · intro sym member
      rw [strtbl_eq]
      exact (symbol member).2
    · intro sym member
      refine ⟨(symbol member).1, ?_⟩
      rw [nscns]
      exact grouped_scnum grouped member

theorem safe_readparts (aout : Option Aouthdr)
    (tables : Tables order unset file hdr fp) : Safe (readparts order unset file hdr aout fp) := by
  rcases tables.syms with ⟨syms, table, -⟩
  apply safe_bind (safe_readscns _ _ _ _)
  intro scns scnsRead
  rcases readscns_ok scnsRead with ⟨nscns, headers⟩
  apply safe_bind (safe_readents table)
  rintro ⟨ents, fp1⟩ _
  apply safe_bind (safe_readstr _ _ _ _)
  intro strtbl _
  apply safe_bind
  · apply safe_readreloc
    intro k scn here some_
    have below : k < hdr.f_nscns := nscns ▸ (List.getElem?_eq_some_iff.mp here).1
    rw [Nat.zero_add]
    exact (tables.scns k below scn (headers k scn here)).2 some_
  · intro rels _
    apply safe_bind (safe_readlines _ _ _ _)
    intro lines _
    split_ifs
    · exact safe_ok _
    · exact safe_fail

theorem readhdr_ok (ok : readhdr order fp = .ok (hdr, fp')) :
    unpack_hdr order (fp.take FILHSZ) = some hdr ∧ fp' = fp.drop FILHSZ := by
  rcases bind_ok ok with ⟨⟨buf, fp1⟩, read, ok⟩
  rcases bind_ok ok with ⟨hdr', unpacked_, same⟩
  rcases fread_ok read with ⟨-, rfl, rfl⟩
  cases same
  exact ⟨assertion_ok unpacked_, rfl⟩

theorem readaout_ok {f_opthdr : Nat} {aout : Option Aouthdr}
    (ok : readaout order f_opthdr fp = .ok (aout, fp')) : fp' = fp.drop (if f_opthdr = 0 then 0 else AOUTSZ) := by
  unfold readaout at ok
  split_ifs at ok ⊢ with none_
  · cases ok
    rfl
  · rcases bind_ok ok with ⟨⟨buf, fp1⟩, read, ok⟩
    rcases bind_ok ok with ⟨aout', -, same⟩
    rcases fread_ok read with ⟨-, -, rfl⟩
    cases same
    rfl

theorem safe_readhdr (order : Order) (fp : Bytes) : Safe (readhdr order fp) := by
  apply safe_bind (safe_fread _ _)
  intro r _
  apply safe_bind (safe_assertion _)
  intro hdr _
  exact safe_ok _

theorem safe_readaout (order : Order) (f_opthdr : Nat) (fp : Bytes) : Safe (readaout order f_opthdr fp) := by
  unfold readaout
  split_ifs
  · exact safe_ok _
  · apply safe_bind (safe_fread _ _)
    intro r _
    apply safe_bind (safe_assertion _)
    intro aout _
    exact safe_ok _

theorem coff32read_ok {obj : Object}
    (ok : coff32read order unset file = .ok obj) : ∃ hdr aout, unpack_hdr order (file.take FILHSZ) = some hdr ∧
      readparts order unset file hdr aout ((file.drop FILHSZ).drop (if hdr.f_opthdr = 0 then 0 else AOUTSZ)) =
        .ok obj := by
  rcases bind_ok ok with ⟨⟨hdr, fp⟩, header, ok⟩
  rcases bind_ok ok with ⟨⟨aout, fp'⟩, optional, ok⟩
  rcases readhdr_ok header with ⟨found, rfl⟩
  have place := readaout_ok optional
  subst place
  exact ⟨hdr, aout, found, ok⟩

theorem safe_coff32read (wellformed : Wellformed order unset file) : Safe (coff32read order unset file) := by
  apply safe_bind (safe_readhdr _ _)
  rintro ⟨hdr, fp⟩ header
  apply safe_bind (safe_readaout _ _ _)
  rintro ⟨aout, fp'⟩ optional
  rcases readhdr_ok header with ⟨found, rfl⟩
  have place := readaout_ok optional
  subst place
  exact safe_readparts aout (wellformed hdr found)

theorem soundRead_iff (x : Read Object) : SoundRead x ↔ Safe x ∧ ∀ obj, x = .ok obj → Sound obj := by
  cases x with
  | ok obj =>
    refine ⟨fun sound => ⟨safe_ok obj, fun obj' same => ?_⟩, fun all => all.2 obj rfl⟩
    cases same
    exact sound
  | error stop =>
    cases stop with
    | fail => exact iff_of_true trivial ⟨⟨nofun, nofun⟩, nofun⟩
    | abort => exact iff_of_true trivial ⟨⟨nofun, nofun⟩, nofun⟩
    | fault => exact iff_of_false id fun all => all.1.1 rfl
    | stray => exact iff_of_false id fun all => all.1.2 rfl

/-- When the numbers of the file that are not checked are right, an object is sound or is not read. When an
object is read, or the reading writes outside of an array, they are right if the object is sound. -/
theorem sound_read_iff (order : Order) (unset : Unset) (file : Bytes) :
    (Wellformed order unset file → SoundRead (coff32read order unset file)) ∧
    ((∃ obj, coff32read order unset file = .ok obj) ∨ coff32read order unset file = .error .fault →
      (SoundRead (coff32read order unset file) ↔ Wellformed order unset file)) := by
  have enough : Wellformed order unset file → SoundRead (coff32read order unset file) := by
    intro wellformed
    rw [soundRead_iff]
    refine ⟨safe_coff32read wellformed, fun obj ok => ?_⟩
    rcases coff32read_ok ok with ⟨hdr, aout, header, parts⟩
    exact (sound_iff parts).mpr (wellformed hdr header)
  refine ⟨enough, fun outcome => ⟨fun sound => ?_, enough⟩⟩
  rcases outcome with ⟨obj, ok⟩ | fault
  · intro hdr header
    rcases coff32read_ok ok with ⟨hdr', aout, header', parts⟩
    cases header'.symm.trans header
    rw [ok] at sound
    exact (sound_iff parts).mp sound
  · rw [fault] at sound
    exact sound.elim

/-- A header, a symbol whose name has an offset of a hundred, and the size of an empty string table. -/
def farFile : Bytes :=
  [0x4c, 0x01, 0, 0, 0, 0, 0, 0, 20, 0, 0, 0, 1, 0, 0, 0, 0, 0, 0, 0] ++
  [0, 0, 0, 0, 100, 0, 0, 0, 0, 0, 0, 0, 0, 0, 0, 0, 2, 0] ++ [4, 0, 0, 0]

def farObject : Object :=
  ⟨⟨0x14c, 0, 0, 20, 1, 0, 0⟩, none, [], [.SYM_ENT ⟨.offset 100, 0, 0, 0, 2, 0⟩], [], [], []⟩

theorem far_read : coff32read .LITTLE_ENDIAN ⟨[], []⟩ farFile = .ok farObject := by decide +kernel

theorem far_unsound : ¬ SoundRead (coff32read .LITTLE_ENDIAN ⟨[], []⟩ farFile) := by
  rw [far_read]
  intro sound
  have inside := sound.syms _ List.mem_cons_self
  exact absurd inside.1 (by decide)

theorem sound_read_far : ¬ Wellformed .LITTLE_ENDIAN ⟨[], []⟩ farFile := by
  intro wellformed
  have sound := (sound_read_iff .LITTLE_ENDIAN ⟨[], []⟩ farFile).2 (.inl ⟨farObject, far_read⟩)
  exact far_unsound (sound.mpr wellformed)

/-- The offset is only compared when there is none. -/
theorem far_accepted : ¬ ∀ (order : Order) (unset : Unset) (file : Bytes), SoundRead (coff32read order unset file) :=
  fun all => far_unsound (all .LITTLE_ENDIAN ⟨[], []⟩ farFile)

end Scc.Libmach.Coff32
