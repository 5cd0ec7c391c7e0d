import Mathlib.Data.List.Forall2
import Scc.Libmach.Coff32Build
import Scc.Libmach.Coff32Reading

/-!
# Names in a COFF object

The names of an object that is built do not come back when it has a symbol: the string table is written
with the size zero when all names are short, and not at all when one is long.
-/

namespace Scc.Libmach.Coff32

open Scc.Lib.Shifts Scc.Libmach.Pack Scc.Libmach.Reader

set_option autoImplicit false

def Scnhdr.cut (scn : Scnhdr) : Scnhdr :=
  ⟨scn.s_name, scn.s_paddr % 2 ^ 32, scn.s_vaddr % 2 ^ 32, scn.s_size % 2 ^ 32, scn.s_scnptr % 2 ^ 32,
    scn.s_relptr % 2 ^ 32, scn.s_lnnoptr % 2 ^ 32, scn.s_nrelloc % 2 ^ 16, scn.s_nlnno % 2 ^ 16, scn.s_flags % 2 ^ 32⟩

theorem pack_scn_eq (order : Order) (scn : Scnhdr) : pack_scn order scn = (pack_name order scn.s_name).map fun s =>
    s ++ (scatter (shiftsOf order .l) scn.s_paddr ++ (scatter (shiftsOf order .l) scn.s_vaddr ++
      (scatter (shiftsOf order .l) scn.s_size ++ (scatter (shiftsOf order .l) scn.s_scnptr ++
      (scatter (shiftsOf order .l) scn.s_relptr ++ (scatter (shiftsOf order .l) scn.s_lnnoptr ++
      (scatter (shiftsOf order .s) scn.s_nrelloc ++ (scatter (shiftsOf order .s) scn.s_nlnno ++
      scatter (shiftsOf order .l) scn.s_flags)))))))) := by
  unfold pack_scn
  cases pack_name order scn.s_name with
  | none => rfl
  | some s =>
    change Option.map (s ++ ·) _ = Option.map (s ++ ·) (some _)
    refine congrArg _ (packed_loop ?_ ?_ ?_)
    · cases order <;> rfl
    · cases order <;> rfl
    · decide

theorem pack_scn_cut (order : Order) (scn : Scnhdr) : pack_scn order scn.cut = pack_scn order scn := by
  have long (v : Nat) : scatter (shiftsOf order .l) (v % 2 ^ 32) = scatter (shiftsOf order .l) v := by
    apply scatter_mod
    cases order <;> decide
  have short_ (v : Nat) : scatter (shiftsOf order .s) (v % 2 ^ 16) = scatter (shiftsOf order .s) v := by
    apply scatter_mod
    cases order <;> decide
  rw [pack_scn_eq, pack_scn_eq]
  simp only [Scnhdr.cut, long, short_]

variable {scn : Scnhdr} {n : Nat} {name : Str} {coff coff' : Coff} {secs syms : List Str}
  {scns : List Scnhdr} {order : Order}

theorem cut_inRange (name : scn.s_name.InRange 8) : scn.cut.InRange := by
  refine ⟨name, ?_⟩
  simp only [Scnhdr.cut, Fit, List.forall_mem_cons]
  refine ⟨?_, ?_, ?_, ?_, ?_, ?_, ?_, ?_, ?_, nofun⟩ <;> exact Nat.mod_lt _ (by decide)

inductive Built : Coff → List Str → List Str → Prop
  | coff32new {arch : Arch} (known : arch ∈ coff32archs) : Built (coff32new arch) [] []
  | setsec {coff coff' : Coff} {secs syms : List Str} (before : Built coff secs syms) {unset n : Nat} {sec : Section}
      (done : coff32setsec unset coff n sec = some coff') : Built coff' (putAt secs n sec.name) syms
  | setsym {coff coff' : Coff} {secs syms : List Str} (before : Built coff secs syms) {unset : Garbage} {n : Nat}
      {sym : Symbol} (done : coff32setsym unset coff n sym = some coff') : Built coff' secs (putAt syms n sym.name)

def NamedScn (scn : Scnhdr) (name : Str) : Prop :=
  name.bytes.length < SCNNMLEN ∧ (∃ unset, scn.s_name = inlineName name unset) ∧ scn.s_nrelloc = 0 ∧ scn.s_nlnno = 0

def NamedEnt (ep : Ent) (_ : Str) : Prop :=
  ∃ sym, ep = .SYM_ENT sym ∧ ∀ s, sym.n_name = .name s → s.length = 8

/-- What holds of an object that is built. -/
structure WellBuilt (coff : Coff) (secs syms : List Str) : Prop where
  magic : coff.hdr.f_magic < 2 ^ 16
  flags : coff.hdr.f_flags < 2 ^ 16
  timdat : coff.hdr.f_timdat = 0
  opthdr : coff.hdr.f_opthdr = 0
  nscns : coff.hdr.f_nscns = coff.scns.length
  few : coff.scns.length ≤ SHRT_MAX
  nsyms : coff.hdr.f_nsyms = coff.ents.length
  small : coff.ents.length ≤ INT_MAX
  scns : List.Forall₂ NamedScn coff.scns secs
  ents : List.Forall₂ NamedEnt coff.ents syms

theorem forall₂_putAt {α β : Type} {R : α → β → Prop} {l : List α} {l' : List β} (all : List.Forall₂ R l l')
    {a : α} {b : β} (here : R a b) (n : Nat) : List.Forall₂ R (putAt l n a) (putAt l' n b) := by
  unfold putAt
  rw [← all.length_eq]
  split_ifs with inside
  · clear inside
    induction all generalizing n with
    | nil => exact .nil
    | cons first rest ih =>
      cases n with
      | zero => exact .cons here rest
      | succ n => exact .cons first (ih n)
  · exact List.rel_append all (.cons here .nil)

theorem putAt_length {α : Type} (l : List α) (n : Nat) (a : α) :
    (putAt l n a).length = if n < l.length then l.length else l.length + 1 := by
  unfold putAt
  split_ifs
  · exact List.length_set
  · exact List.length_append

theorem strncpy_length {name : Bytes} (fits : name.length ≤ n) : (strncpy name n).length = n := by
  unfold strncpy
  rw [List.length_append, List.length_replicate]
  omega

theorem inlineName_name {unset : Nat} {s : Bytes} (short_ : name.bytes.length < 8)
    (same : inlineName name unset = .name s) : s.length = 8 := by
  unfold inlineName at same
  split_ifs at same
  cases same
  exact strncpy_length (Nat.le_of_lt short_)

theorem appendName_same (done : appendName coff name = some (n, coff')) :
    coff'.hdr = coff.hdr ∧ coff'.scns = coff.scns ∧ coff'.ents = coff.ents := by
  unfold appendName at done
  dsimp only at done
  split_ifs at done
  cases done
  exact ⟨rfl, rfl, rfl⟩

theorem setsec_built (well : WellBuilt coff secs syms) {unset n : Nat}
    {sec : Section} (done : coff32setsec unset coff n sec = some coff') : WellBuilt coff' (putAt secs n sec.name) syms := by
  rcases Option.bind_eq_some_iff.mp done with ⟨flags, -, rest⟩
  rcases Option.ite_none_left_eq_some.mp rest with ⟨long, rest⟩
  rcases Option.ite_none_left_eq_some.mp rest with ⟨beyond, rest⟩
  rcases Option.ite_none_left_eq_some.mp rest with ⟨many, rest⟩
  rcases Option.map_eq_some_iff.mp rest with ⟨⟨name, coff1⟩, named, rfl⟩
  have short_ : sec.name.bytes.length < SCNNMLEN := by omega
  unfold secname at named
  rw [if_pos short_] at named
  cases named
  have count := putAt_length coff.scns n ⟨inlineName sec.name unset, sec.load, sec.base, sec.size, 0, 0, 0, 0, 0, flags⟩
  have nscns := well.nscns
  have few := well.few
  have limit : SHRT_MAX = 32767 := rfl
  refine { well with nscns := ?_, few := ?_, scns := forall₂_putAt well.scns ⟨short_, ⟨unset, rfl⟩, rfl, rfl⟩ n }
  · dsimp only
    rw [count]
    split_ifs <;> omega
  · dsimp only
    rw [count]
    split_ifs <;> omega

theorem setsym_built (well : WellBuilt coff secs syms) {unset : Garbage}
    {sym : Symbol} (done : coff32setsym unset coff n sym = some coff') :
    WellBuilt coff' secs (putAt syms n sym.name) := by
  unfold coff32setsym at done
  rcases Option.ite_none_left_eq_some.mp done with ⟨beyond, done⟩
  rcases Option.ite_none_left_eq_some.mp done with ⟨many, done⟩
  rcases Option.bind_eq_some_iff.mp done with ⟨⟨name, coff1⟩, named, rest⟩
  rcases Option.map_eq_some_iff.mp rest with ⟨d, -, rfl⟩
  have same : coff1.hdr = coff.hdr ∧ coff1.scns = coff.scns ∧ coff1.ents = coff.ents ∧
      ∀ s, name = .name s → s.length = 8 := by
    unfold symname at named
    split_ifs at named with short_
    · cases named
      exact ⟨rfl, rfl, rfl, fun s same => inlineName_name short_ same⟩
    · rcases Option.map_eq_some_iff.mp named with ⟨⟨at_, coff2⟩, appended, pair⟩
      cases pair
      rcases appendName_same appended with ⟨hdr, scns, ents⟩
      exact ⟨hdr, scns, ents, nofun⟩
  rcases same with ⟨hdr, scns, ents, eight⟩
  have count := putAt_length coff.ents n (.SYM_ENT ⟨name, sym.value, d.1, unset.n_type, d.2, 0⟩)
  have nsyms := well.nsyms
  have small := well.small
  have flags := well.flags
  dsimp only
  rw [hdr, scns, ents]
  refine { well with flags := ?_, nsyms := ?_, small := ?_, ents := forall₂_putAt well.ents ⟨_, rfl, eight⟩ n }
  · dsimp only
    split_ifs <;> omega
  · dsimp only
    rw [count]
    split_ifs <;> omega
  · dsimp only
    rw [count]
    split_ifs <;> omega

theorem built_well (built : Built coff secs syms) : WellBuilt coff secs syms := by
  induction built with
  | @coff32new arch known =>
    have small : arch.f_magic < 2 ^ 16 ∧ arch.f_flags < 2 ^ 16 := by
      revert arch
      decide
    exact ⟨small.1, small.2, rfl, rfl, rfl, Nat.zero_le _, rfl, Nat.zero_le _, .nil, .nil⟩
  | setsec before done ih => exact setsec_built ih done
  | setsym before done ih => exact setsym_built ih done

theorem named_short (named : NamedScn scn name) : scn.s_name.Short ↔ name.bytes ≠ [] := by
  rcases named with ⟨-, ⟨unset, same⟩, -⟩
  rw [same]
  unfold inlineName
  split_ifs with empty
  · exact iff_of_false id fun some_ => some_ empty
  · exact iff_of_true trivial empty

theorem named_name (named : NamedScn scn name) (some_ : name.bytes ≠ []) :
    scn.s_name.InRange 8 ∧ ∀ strtbl, coff32str strtbl scn.s_name = some name.bytes := by
  rcases named with ⟨short_, ⟨unset, same⟩, -⟩
  have inline : scn.s_name = .name (strncpy name.bytes 8) := same.trans (if_neg some_)
  rw [inline]
  constructor
  · refine ⟨strncpy_length (Nat.le_of_lt short_), ?_⟩
    have no_nul := name.no_nul
    cases chars : name.bytes with
    | nil => exact absurd chars some_
    | cons c rest =>
      rw [chars] at no_nul
      intro zeros
      have first : c = 0 := (List.cons.inj zeros).1
      exact no_nul (first ▸ List.mem_cons_self)
  · intro strtbl
    have all : ∀ c ∈ name.bytes, (decide (c ≠ 0)) = true := by
      intro c member
      have other : c ≠ 0 := fun zero => name.no_nul (zero ▸ member)
      exact decide_eq_true other
    have pad : (List.replicate (8 - name.bytes.length) (0 : UInt8)).takeWhile (fun c => decide (c ≠ 0)) = [] := by
      cases 8 - name.bytes.length <;> rfl
    unfold coff32str strncpy
    dsimp only
    rw [List.takeWhile_append_of_pos all, pad, List.append_nil]

theorem placedata_named (named : List.Forall₂ NamedScn scns secs)
    (map : List Mapsec) (ptr : Nat) : List.Forall₂ NamedScn (placedata map ptr scns).1 secs := by
  induction named generalizing ptr with
  | nil => exact .nil
  | @cons scn name _ _ here rest ih =>
    unfold placedata
    cases mapped map scn with
    | none => exact .cons here (ih _)
    | some bytes => exact .cons here (ih _)

theorem placeparts_named (named : List.Forall₂ NamedScn scns secs)
    {count : Scnhdr → Nat} {put : Scnhdr → Nat → Scnhdr}
    (same : ∀ scn name ptr, NamedScn scn name → NamedScn (put scn ptr) name) (ptr : Nat) :
    List.Forall₂ NamedScn (placeparts count put ptr scns).1 secs := by
  induction named generalizing ptr with
  | nil => exact .nil
  | cons here rest ih => exact .cons (same _ _ _ here) (ih _)

theorem writescns_some {strtbl : Bytes} {out : Bytes} {r : Bytes × Int}
    (done : scns.foldlM (writescn order strtbl) (out, 0) = some r) : r.2 = 0 ∧ ∀ scn ∈ scns, scn.s_name.Short := by
  induction scns generalizing out with
  | nil =>
    cases done
    exact ⟨rfl, nofun⟩
  | cons scn scns ih =>
    rw [List.foldlM_cons] at done
    rcases Option.bind_eq_some_iff.mp done with ⟨w, first, later⟩
    rcases Option.bind_eq_some_iff.mp first with ⟨siz, put, written⟩
    rcases Option.map_eq_some_iff.mp written with ⟨buf, -, rfl⟩
    rw [putname_eq] at put
    split_ifs at put with short_
    cases put
    rcases ih later with ⟨zero, rest⟩
    refine ⟨zero, ?_⟩
    intro scn' member
    rcases List.mem_cons.mp member with rfl | member
    · exact (Name.long_none strtbl).mp (Option.isNone_iff_eq_none.mp short_)
    · exact rest scn' member

theorem scns_written (order : Order) (strtbl : Bytes)
    (inline : ∀ scn ∈ scns, scn.s_name.Short ∧ scn.s_name.InRange 8) : ∃ bytes : Bytes,
      bytes.length = SCNHSZ * scns.length ∧
      (∀ out, scns.foldlM (writescn order strtbl) (out, 0) = some (out ++ bytes, 0)) ∧
      ∀ buf rest, buf.length = SCNHSZ → readscns order scns.length buf (bytes ++ rest) = .ok (scns.map Scnhdr.cut) := by
  induction scns with
  | nil => exact ⟨[], rfl, fun out => by rw [List.append_nil]; rfl, fun _ _ _ => rfl⟩
  | cons scn scns ih =>
    rcases inline scn List.mem_cons_self with ⟨short_, inRange⟩
    rcases ih fun scn member => inline scn (List.mem_cons_of_mem _ member) with ⟨bytes, length, written, read⟩
    rcases scn_round order (cut_inRange inRange) with ⟨first, packed_, firstLength, back⟩
    rw [pack_scn_cut] at packed_
    refine ⟨first ++ bytes, ?_, fun out => ?_, fun buf rest sized => ?_⟩
    · rw [List.length_append, firstLength, length, List.length_cons, Nat.mul_succ, Nat.add_comm]
    · have step : writescn order strtbl (out, 0) scn = some (out ++ first, 0) := by
        unfold writescn
        dsimp only
        rw [(Name.long_none strtbl).mpr short_, packed_]
        rfl
      rw [List.foldlM_cons, step]
      exact (written (out ++ first)).trans (by rw [List.append_assoc])
    · have whole : fill buf (first ++ bytes ++ rest) = first := by
        unfold fill
        rw [List.append_assoc, sized, List.take_left' firstLength, firstLength, ← sized, List.drop_length,
          List.append_nil]
      have next : (first ++ bytes ++ rest).drop SCNHSZ = bytes ++ rest := by
        rw [List.append_assoc, List.drop_left' firstLength]
      have here := back []
      rw [List.append_nil] at here
      rw [List.length_cons, readscns, whole, here, next]
      change (readscns order scns.length first (bytes ++ rest) >>= _) = _
      rw [read first rest firstLength]
      rfl

/-- The object can be written with any map and at any place, and what is read has the same names. -/
def NamesSurvive (order : Order) (coff : Coff) (secs syms : List Str) : Prop :=
  ∀ (buf : Bytes) (map : List Mapsec) (start : Nat) (unset : Unset), unset.buf.length = SCNHSZ →
    ∃ file obj, coff32write order buf coff map start = some file ∧ coff32read order unset file = .ok obj ∧
      getsecs obj = secs.map (some ·.bytes) ∧ getsyms obj = syms.map (some ·.bytes)

theorem place_named (well : WellBuilt coff secs syms) (map : List Mapsec)
    (start : Nat) : List.Forall₂ NamedScn (place map start coff).2 secs := by
  apply placeparts_named
  · apply placeparts_named
    · exact placedata_named well.scns map _
    · exact fun _ _ _ named => named
  · exact fun _ _ _ named => named

theorem hdr_inRange (well : WellBuilt coff secs syms) (map : List Mapsec)
    (start : Nat) (symptr : (place map start coff).1.f_symptr < 2 ^ 32) : (place map start coff).1.InRange := by
  have few := well.few
  have small := well.small
  have limit : SHRT_MAX = 32767 := rfl
  have limit' : INT_MAX = 2147483647 := rfl
  simp only [Filhdr.InRange, Fit, List.forall_mem_cons]
  refine ⟨well.magic, ?_, ?_, symptr, ?_, ?_, well.flags, List.forall_mem_nil _⟩
  · change coff.hdr.f_nscns < _
    rw [well.nscns]
    omega
  · change coff.hdr.f_timdat < _
    rw [well.timdat]
    decide
  · change coff.hdr.f_nsyms < _
    rw [well.nsyms]
    omega
  · change coff.hdr.f_opthdr < _
    rw [well.opthdr]
    decide

theorem coff32read_parts {unset : Unset} {header rest : Bytes} {hdr : Filhdr}
    (length : header.length = FILHSZ) (read : unpack_hdr order header = some hdr) (plain : hdr.f_opthdr = 0) :
    coff32read order unset (header ++ rest) = readparts order unset (header ++ rest) hdr none rest := by
  unfold coff32read readhdr
  rw [fread_append length]
  change ((assertion (unpack_hdr order header) >>= fun hdr => Except.ok (hdr, rest)) >>= _) = _
  rw [read]
  change (readaout order hdr.f_opthdr rest >>= _) = _
  unfold readaout
  rw [if_pos plain]
  rfl

theorem readreloc_none (order : Order) (f_nsyms : Nat) (file : Bytes)
    (none_ : ∀ scn ∈ scns, scn.s_nrelloc = 0) (i : Nat) : ∃ rels, readreloc order f_nsyms file i scns = .ok rels := by
  induction scns generalizing i with
  | nil => exact ⟨_, rfl⟩
  | cons scn scns ih =>
    rcases ih (fun scn member => none_ scn (List.mem_cons_of_mem _ member)) (i + 1) with ⟨rels, read⟩
    refine ⟨[] :: rels, ?_⟩
    rw [readreloc, none_ scn List.mem_cons_self]
    change (readreloc order f_nsyms file (i + 1) scns >>= _) = _
    rw [read]
    rfl

theorem readlines_none (order : Order) (f_nsyms : Nat) (file : Bytes)
    (none_ : ∀ scn ∈ scns, scn.s_nlnno = 0) : ∃ lines, readlines order f_nsyms file scns = .ok lines := by
  induction scns with
  | nil => exact ⟨_, rfl⟩
  | cons scn scns ih =>
    rcases ih fun scn member => none_ scn (List.mem_cons_of_mem _ member) with ⟨lines, read⟩
    refine ⟨[] :: lines, ?_⟩
    rw [readlines, none_ scn List.mem_cons_self]
    change (readlines order f_nsyms file scns >>= _) = _
    rw [read]
    rfl

theorem cut_names (named : List.Forall₂ NamedScn scns secs)
    (some_ : ∀ name ∈ secs, name.bytes ≠ []) (strtbl : Bytes) :
    (scns.map Scnhdr.cut).map (fun scn => coff32str strtbl scn.s_name) = secs.map (some ·.bytes) := by
  induction named with
  | nil => rfl
  | cons here rest ih =>
    rw [List.forall_mem_cons] at some_
    rw [List.map_cons, List.map_cons, List.map_cons, ih some_.2]
    exact congrArg (· :: _) ((named_name here some_.1).2 strtbl)

theorem named_inline (named : List.Forall₂ NamedScn scns secs)
    (some_ : ∀ name ∈ secs, name.bytes ≠ []) : ∀ scn ∈ scns, scn.s_name.Short ∧ scn.s_name.InRange 8 := by
  induction named with
  | nil => exact nofun
  | cons here rest ih =>
    rw [List.forall_mem_cons] at some_ ⊢
    exact ⟨⟨(named_short here).mpr some_.1, (named_name here some_.1).1⟩, ih some_.2⟩

theorem writestr_empty (order : Order) (strtbl : Bytes) : writestr order 0 strtbl = some ([0, 0, 0, 0] ++ strtbl) := by
  have size : (Pack.pack order "l".toList [.number 0]).map Prod.fst = some [0, 0, 0, 0] := by cases order <;> rfl
  rcases Option.map_eq_some_iff.mp size with ⟨r, written, first⟩
  unfold writestr
  rw [if_neg (by decide)]
  change (Pack.pack order "l".toList [.number 0]).map _ = _
  rw [written, Option.map_some, first]

theorem cut_parts (named : List.Forall₂ NamedScn scns secs) :
    ∀ scn ∈ scns.map Scnhdr.cut, scn.s_nrelloc = 0 ∧ scn.s_nlnno = 0 := by
  induction named with
  | nil => exact nofun
  | @cons scn _ _ _ here rest ih =>
    rw [List.map_cons, List.forall_mem_cons]
    refine ⟨⟨?_, ?_⟩, ih⟩
    · change scn.s_nrelloc % 2 ^ 16 = 0
      rw [here.2.2.1]
      rfl
    · change scn.s_nlnno % 2 ^ 16 = 0
      rw [here.2.2.2]
      rfl

theorem names_kept (order : Order) (well : WellBuilt coff secs [])
    (some_ : ∀ name ∈ secs, name.bytes ≠ []) : NamesSurvive order coff secs [] := by
  intro buf map start unset sized
  have named := place_named well map start
  have empty : coff.ents = [] := List.forall₂_nil_right_iff.mp well.ents
  have nsyms : coff.hdr.f_nsyms = 0 := by rw [well.nsyms, empty]; rfl
  have symptr : (place map start coff).1.f_symptr = 0 := by
    change (if coff.hdr.f_nsyms > 0 then _ else 0) = 0
    rw [nsyms]
    rfl
  rcases hdr_round order (hdr_inRange well map start (by rw [symptr]; decide))
    with ⟨header, packed_, length, back⟩
  rcases scns_written order coff.strtbl (named_inline named some_) with ⟨bytes, -, written, read⟩
  let data := coff.scns.flatMap fun scn => (mapped map scn).getD []
  let strings := (place map start coff).2.flatMap (·.s_name.string coff.strtbl) ++
    ([] : List Ent).flatMap (·.string coff.strtbl)
  let rest := data ++ ([] ++ ([0, 0, 0, 0] ++ strings))
  let scns := (place map start coff).2.map Scnhdr.cut
  have parts := cut_parts named
  rcases readreloc_none order 0 (header ++ (bytes ++ rest)) (fun scn member => (parts scn member).1) 0
    with ⟨rels, relocs⟩
  rcases readlines_none order 0 (header ++ (bytes ++ rest)) (fun scn member => (parts scn member).2)
    with ⟨lines, lnnos⟩
  refine ⟨header ++ (bytes ++ rest), ⟨(place map start coff).1, none, scns, [], rels, lines, []⟩, ?_, ?_, ?_, ?_⟩
  · have all := written []
    rw [List.nil_append] at all
    unfold coff32write
    dsimp only
    rw [packed_, Option.bind_some, if_neg (not_not.mpr well.opthdr)]
    unfold writescns
    rw [all, Option.bind_some, empty]
    change (writestr order 0 _).map _ = _
    rw [writestr_empty, Option.map_some]
  · have header_back := back []
    rw [List.append_nil] at header_back
    have nscns : (place map start coff).1.f_nscns = (place map start coff).2.length := by
      rw [named.length_eq, ← well.scns.length_eq]
      exact well.nscns
    have none_ : (place map start coff).1.f_nsyms = 0 := nsyms
    rw [coff32read_parts length header_back well.opthdr]
    unfold readparts
    rw [none_, nscns, read unset.buf rest sized]
    change (readreloc order 0 (header ++ (bytes ++ rest)) 0 scns >>= _) = _
    rw [relocs]
    change (readlines order 0 (header ++ (bytes ++ rest)) scns >>= _) = _
    rw [lnnos]
    rfl
  · exact cut_names named some_ []
  · unfold getsyms
    split_ifs <;> rfl

theorem ents_length {strtbl : Bytes} {ents : List Ent}
    (named : List.Forall₂ NamedEnt ents syms) {out buf : Bytes} {w : Writer}
    (done : writeents order strtbl ⟨out, 0, buf⟩ ents = some w) :
    w.siz = 0 ∧ ∃ more : Bytes, w.out = out ++ more ∧ more.length = SYMESZ * ents.length := by
  induction named generalizing out buf with
  | nil =>
    cases done
    exact ⟨rfl, [], (List.append_nil _).symm, rfl⟩
  | @cons ep _ ents _ here rest ih =>
    rcases here with ⟨sym, rfl, eight⟩
    rw [writeents_cons] at done
    rcases Option.bind_eq_some_iff.mp done with ⟨w', first, later⟩
    rcases writeent_some first with ⟨short_, bytes, packed_, rfl⟩
    rcases ih later with ⟨zero, more, same, length⟩
    refine ⟨zero, bytes ++ more, by rw [same, List.append_assoc], ?_⟩
    have size : bytes.length = SYMESZ := by
      change sym.n_name.Short at short_
      change pack_ent order sym = some bytes at packed_
      rw [pack_ent_eq] at packed_
      cases name : sym.n_name with
      | offset n =>
        rw [name] at short_
        exact short_.elim
      | name s =>
        rw [name] at packed_
        cases packed_
        have ten : (sym.tail order).length = 10 := by cases order <;> rfl
        rw [List.length_append, List.length_take, eight s name, ten]
        rfl
    rw [List.length_append, size, length, List.length_cons, Nat.mul_succ, Nat.add_comm]

theorem named_some (named : List.Forall₂ NamedScn scns secs)
    (short_ : ∀ scn ∈ scns, scn.s_name.Short) : ∀ name ∈ secs, name.bytes ≠ [] := by
  induction named with
  | nil => exact nofun
  | cons here rest ih =>
    rw [List.forall_mem_cons] at short_ ⊢
    exact ⟨(named_short here).mp short_.1, ih short_.2⟩

theorem placedata_nil (ptr : Nat) (scns : List Scnhdr) : (placedata [] ptr scns).2 = ptr := by
  induction scns with
  | nil => rfl
  | cons scn scns ih => exact ih

theorem readstr_zero (order : Order) {f_nsyms : Nat} (some_ : f_nsyms ≠ 0) (unset rest : Bytes) :
    readstr order f_nsyms unset ([0, 0, 0, 0] ++ rest) = .error .fail := by
  have size : strsize order [0, 0, 0, 0] = some 0 := by
    have values : (unpack order [0, 0, 0, 0] "l".toList).map Prod.fst = some [.number 0] := by cases order <;> rfl
    rcases Option.map_eq_some_iff.mp values with ⟨⟨args, n⟩, read, first⟩
    cases first
    unfold strsize
    rw [read]
  unfold readstr
  rw [if_neg some_, @fread_append [0, 0, 0, 0] 4 rfl]
  change (assertion (strsize order [0, 0, 0, 0]) >>= _) = _
  rw [size]
  rfl

theorem names_lost (order : Order) (well : WellBuilt coff secs syms)
    (survive : NamesSurvive order coff secs syms) : syms = [] ∧ ∀ name ∈ secs, name.bytes ≠ [] := by
  rcases survive [] [] 0 ⟨List.replicate SCNHSZ 0, []⟩ List.length_replicate with ⟨file, obj, written, read, -⟩
  have named := place_named well [] 0
  rcases Option.bind_eq_some_iff.mp written with ⟨header, packed_, written⟩
  rw [if_neg (not_not.mpr well.opthdr)] at written
  rcases Option.bind_eq_some_iff.mp written with ⟨⟨bytes, siz⟩, scnsWritten, written⟩
  rcases Option.bind_eq_some_iff.mp written with ⟨w, entsWritten, written⟩
  rcases Option.map_eq_some_iff.mp written with ⟨str, strWritten, rfl⟩
  rcases writescns_some scnsWritten with ⟨zero, short_⟩
  have some_ := named_some named short_
  refine ⟨?_, some_⟩
  by_contra symbols
  cases zero
  rcases ents_length well.ents entsWritten with ⟨zero, more, out, length⟩
  rw [zero, writestr_empty] at strWritten
  cases strWritten
  rcases scns_written order coff.strtbl (named_inline named some_) with ⟨bytes', scnsLength, scnsWritten', -⟩
  cases (scnsWritten' []).symm.trans scnsWritten
  have count : (place [] 0 coff).2.length = coff.scns.length := by rw [named.length_eq, well.scns.length_eq]
  have present : coff.hdr.f_nsyms ≠ 0 := by
    rw [well.nsyms, well.ents.length_eq]
    simpa using symbols
  have symptr : (place [] 0 coff).1.f_symptr = FILHSZ + coff.scns.length * SCNHSZ := by
    change (if coff.hdr.f_nsyms > 0 then (placedata [] _ coff.scns).2 else 0) = _
    rw [if_pos (Nat.pos_of_ne_zero present), placedata_nil, well.opthdr, Nat.zero_add, Nat.add_zero]
  have few := well.few
  have limit : SHRT_MAX = 32767 := rfl
  have sizes : FILHSZ = 20 ∧ SCNHSZ = 40 := ⟨rfl, rfl⟩
  have small : (place [] 0 coff).1.f_symptr < 2 ^ 32 := by
    rw [symptr, sizes.1, sizes.2]
    omega
  rcases hdr_round order (hdr_inRange well [] 0 small) with ⟨header', packed', headerLength, back⟩
  cases packed'.symm.trans packed_
  have header_back := back []
  rw [List.append_nil] at header_back
  rw [coff32read_parts headerLength header_back well.opthdr] at read
  rcases bind_ok read with ⟨scns, -, read⟩
  rcases bind_ok read with ⟨⟨ents, fp⟩, entsRead, read⟩
  rcases bind_ok read with ⟨strtbl, strRead, -⟩
  rcases readents_ok entsRead with ⟨-, rfl, -⟩
  have data : coff.scns.flatMap (fun scn => (mapped [] scn).getD []) = [] :=
    List.flatMap_eq_nil_iff.mpr fun _ _ => rfl
  have front : (header ++ bytes').length = (place [] 0 coff).1.f_symptr := by
    rw [List.length_append, headerLength, scnsLength, symptr, count, Nat.mul_comm]
  have table : w.out.length = SYMESZ * (place [] 0 coff).1.f_nsyms := by
    rw [out, List.nil_append, length]
    exact congrArg _ well.nsyms.symm
  have skip (tail : Bytes) : ((header ++ (([] ++ bytes') ++ (coff.scns.flatMap (fun scn => (mapped [] scn).getD []) ++
      (w.out ++ tail)))).drop (place [] 0 coff).1.f_symptr).drop (SYMESZ * (place [] 0 coff).1.f_nsyms) = tail := by
    rw [data, List.nil_append, List.nil_append, ← List.append_assoc, List.drop_left' front, List.drop_left' table]
  rw [skip] at strRead
  cases (readstr_zero order present _ _).symm.trans strRead

/-- A section with a long name is refused. An object that is built has the same names after it was written and
read if and only if it has no symbols and no section without a name. -/
theorem names_survive_iff (order : Order) :
    (∀ (unset : Nat) (coff : Coff) (n : Nat) (sec : Section), SCNNMLEN ≤ sec.name.bytes.length →
      coff32setsec unset coff n sec = none) ∧ ∀ (coff : Coff) (secs syms : List Str), Built coff secs syms →
      (NamesSurvive order coff secs syms ↔ syms = [] ∧ ∀ name ∈ secs, name.bytes ≠ []) := by
  constructor
  · intro unset coff n sec long
    unfold coff32setsec
    cases stypOf sec with
    | none => rfl
    | some flags => exact if_pos long
  · intro coff secs syms built
    have well := built_well built
    constructor
    · exact names_lost order well
    · rintro ⟨rfl, some_⟩
      exact names_kept order well some_

/-- The symbol `main`. -/
def mainStr : Str := ⟨[109, 97, 105, 110], by decide⟩
def mainSymbol : Symbol := ⟨mainStr, 0, 0, 'U'⟩
def mainCoff : Coff :=
  ⟨⟨0x014c, 0, 0, 0, 1, 0, 0x0105⟩, [], [.SYM_ENT ⟨.name [109, 97, 105, 110, 0, 0, 0, 0], 0, 0, 0, 0, 0⟩], [], 0⟩

theorem main_built : Built mainCoff [] [mainStr] := by
  have new : Built (coff32new ⟨0x014c, 0x0105, .LITTLE_ENDIAN⟩) [] [] := .coff32new (by decide)
  have done : coff32setsym ⟨0, 0, 0⟩ (coff32new ⟨0x014c, 0x0105, .LITTLE_ENDIAN⟩) 0 mainSymbol = some mainCoff := rfl
  exact .setsym new done

theorem names_survive_main : ¬ NamesSurvive .LITTLE_ENDIAN mainCoff [] [mainStr] := by
  intro survive
  have none_ := (((names_survive_iff .LITTLE_ENDIAN).2 _ _ _ main_built).mp survive).1
  cases none_

/-- The string table of an object with one short symbol is written without its size. -/
theorem main_lost : ¬ ∀ (order : Order) (coff : Coff) (secs syms : List Str), Built coff secs syms →
    NamesSurvive order coff secs syms := by
  intro all
  have none_ := (names_lost .LITTLE_ENDIAN (built_well main_built) (all .LITTLE_ENDIAN _ _ _ main_built)).1
  cases none_

end Scc.Libmach.Coff32
