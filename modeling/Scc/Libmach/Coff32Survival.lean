import Scc.Libmach.Coff32Entries

/-!
# Which records survive

Every kind of record is packed for the file and unpacked from it. Line numbers and three kinds of
auxiliary entries are not the same afterwards, and a symbol table with one of them or with a long
name is not either.
-/

namespace Scc.Libmach.Coff32

open Scc.Libmach.Pack Scc.Libmach.Reader

set_option autoImplicit false

inductive Record
  | hdr (hdr : Filhdr)
  | aout (aout : Aouthdr)
  | scn (scn : Scnhdr)
  | ent (sym : Syment)
  /-- The first auxiliary entry after a symbol. -/
  | aux (sym : Syment) (ep : Ent)
  | unk (buf : Bytes)
  | reloc (rel : Reloc)
  | line (lp : Lineno)

def Record.InRange : Record → Prop
  | .hdr r => r.InRange
  | .aout r => r.InRange
  | .scn r => r.InRange
  | .ent sym => sym.InRange
  | .aux sym ep => Selected sym ep ∧ ep.InRange
  | .unk buf => buf.length = AUXESZ
  | .reloc rel => rel.InRange
  | .line lp => lp.InRange

/-- The packer and the unpacker at the same place agree, when there is this in the buffer before. -/
def RoundTrips (order : Order) (buf : Bytes) : Record → Prop
  | .hdr hdr => Round (pack_hdr order hdr) FILHSZ (unpack_hdr order) hdr
  | .aout aout => Round (pack_aout order aout) AOUTSZ (unpack_aout order) aout
  | .scn scn => Round (pack_scn order scn) SCNHSZ (unpack_scn order) scn
  | .ent sym => Round (pack_ent order sym) SYMESZ (unpack_ent order) sym
  | .aux sym ep => Round (pack_entry order buf ep) AUXESZ (unpack_aux order sym) ep
  | .unk b => Round (pack_entry order buf (.SYM_AUX_UNK b)) AUXESZ (fun fp => some (fp.take AUXESZ)) b
  | .reloc rel => Round (pack_reloc order rel) RELSZ (unpack_reloc order) rel
  | .line lp => Round (pack_line order lp) LINESZ (unpack_line order) lp

def Record.Kept (order : Order) (ninth : Bytes) : Record → Prop
  | .aux _ ep => ep.Kept order ninth
  | .line _ => False
  | _ => True

theorem aux_round_iff (order : Order) {buf : Bytes} (long : buf.length = AUXESZ) {sym : Syment} {ep : Ent}
    (selected : Selected sym ep) (inRange : ep.InRange) :
    Round (pack_entry order buf ep) AUXESZ (unpack_aux order sym) ep ↔ ep.Kept order (buf.drop 8) := by
  constructor
  · rintro ⟨bytes, written, -, read⟩
    by_contra lost
    have back := read []
    rw [List.append_nil] at back
    exact (first_lost order long selected inRange lost written).2 back
  · exact first_kept order long selected inRange

theorem record_round_iff (order : Order) {buf : Bytes} (long : buf.length = AUXESZ) {r : Record}
    (inRange : r.InRange) : RoundTrips order buf r ↔ r.Kept order (buf.drop 8) := by
  cases r with
  | hdr => exact iff_of_true (hdr_round order inRange) trivial
  | aout => exact iff_of_true (aout_round order inRange) trivial
  | scn => exact iff_of_true (scn_round order inRange) trivial
  | ent => exact iff_of_true (ent_round order inRange) trivial
  | aux sym ep => exact aux_round_iff order long inRange.1 inRange.2
  | unk b =>
    have whole : b.take AUXESZ = b := List.take_of_length_le (Nat.le_of_eq inRange)
    exact iff_of_true ⟨b, congrArg some whole, inRange, fun rest => congrArg some (List.take_left' inRange)⟩ trivial
  | reloc => exact iff_of_true (reloc_round order inRange) trivial
  | line lp =>
    refine iff_of_false ?_ id
    rintro ⟨bytes, written, -⟩
    exact absurd ((line_undefined order lp).symm.trans written) nofun

/-- A record is the same when it has been written and read, except for line numbers, auxiliary entries of
sections and arrays, and most auxiliary entries of symbols. A table is the same when it has none of these
and no name in the string table. -/
theorem codecs_agree_iff (order : Order) : (∀ (buf : Bytes) (r : Record), buf.length = AUXESZ → r.InRange →
      (RoundTrips order buf r ↔ r.Kept order (buf.drop 8))) ∧
    ∀ (strtbl buf : Bytes) (f_nscns : Nat) (groups : List Group), (∀ g ∈ groups, g.Formed f_nscns) →
      (Survives order strtbl f_nscns buf groups ↔ ∀ g ∈ groups, g.Packable order) := by
  refine ⟨fun buf r long inRange => record_round_iff order long inRange, fun strtbl buf f_nscns groups formed => ?_⟩
  have enough : groups.length ≤ (entries groups).length := by
    clear formed
    induction groups with
    | nil => exact Nat.le_refl _
    | cons g groups ih =>
      have some_ : 1 ≤ g.entries.length := by
        cases g <;> simp [Group.entries]
      have table : entries (g :: groups) = g.entries ++ entries groups := List.flatMap_cons
      rw [table, List.length_append, List.length_cons]
      omega
  exact survives_iff order strtbl formed buf enough

/-- The symbol of the section `.text`, with its auxiliary entry. -/
def textSym : Syment := ⟨.name [46, 116, 101, 120, 116, 0, 0, 0], 0, 1, 0, C_STAT, 1⟩
def textAux : AuxScn := ⟨16, 0, 0, 0, 0, 0⟩

theorem text_formed : (Group.auxs textSym (.SYM_AUX_SCN textAux) []).Formed 1 := by
  refine ⟨⟨⟨rfl, by decide⟩, by decide, ⟨by decide, by decide⟩, ⟨by decide, by decide⟩, ⟨by decide, by decide⟩⟩, by decide,
    rfl, ⟨rfl, rfl, rfl⟩, ?_, nofun⟩
  change Fit _
  decide

theorem codecs_agree_text : ¬ Survives .LITTLE_ENDIAN [] 1 [] [.auxs textSym (.SYM_AUX_SCN textAux) []] := by
  intro survives
  have formed : ∀ g ∈ [Group.auxs textSym (.SYM_AUX_SCN textAux) []], g.Formed 1 := by
    intro g member
    rw [List.mem_singleton.mp member]
    exact text_formed
  exact (((codecs_agree_iff .LITTLE_ENDIAN).2 [] [] 1 _ formed).mp survives _ List.mem_cons_self).2.2

/-- The entry of a section has fifteen bytes instead of eighteen. -/
theorem section_lost : ¬ ∀ (order : Order) (strtbl buf : Bytes) (f_nscns : Nat) (groups : List Group),
    (∀ g ∈ groups, g.Formed f_nscns) → Survives order strtbl f_nscns buf groups := by
  intro all
  have formed : ∀ g ∈ [Group.auxs textSym (.SYM_AUX_SCN textAux) []], g.Formed 1 := by
    intro g member
    rw [List.mem_singleton.mp member]
    exact text_formed
  rcases all .LITTLE_ENDIAN [] [] 1 _ formed with ⟨w, result, -⟩
  rw [entries, List.flatMap_singleton, Group.entries, writeents_cons] at result
  rcases Option.bind_eq_some_iff.mp result with ⟨w', first, later⟩
  rcases writeent_some first with ⟨-, bytes, -, rfl⟩
  rw [writeents_cons] at later
  rcases Option.bind_eq_some_iff.mp later with ⟨w'', second, -⟩
  rcases writeent_some second with ⟨-, bytes', written, -⟩
  cases (aux_scn_short .LITTLE_ENDIAN textAux).symm.trans written

end Scc.Libmach.Coff32
