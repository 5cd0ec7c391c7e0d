import Mathlib.Data.List.Forall2
import Scc.Libmach.Coff32Codec

/-!
# The relocations of an object

The loops of `readreloc()` and `writereloc()` over the entries of a section use the number of the section as
their index.
-/

namespace Scc.Libmach.Coff32

open Scc.Libmach.Pack Scc.Libmach.Reader

set_option autoImplicit false

/-- The entries of the section with this number; a place outside of the table is not there to be read. -/
def writerels (order : Order) (i : Nat) (rp : List Reloc) : Nat → Except Stop Bytes
  | 0 => .ok []
  | n + 1 =>
    match rp[i]? with
    | none => .error .fault
    | some rel => do
        let buf ← assertion (pack_reloc order rel)
        let rest ← writerels order i rp n
        .ok (buf ++ rest)

def writereloc (order : Order) : Nat → List Scnhdr → List (List Reloc) → Except Stop Bytes
  | i, scn :: scns, rp :: rels => do
      let bytes ← writerels order i rp scn.s_nrelloc
      let rest ← writereloc order (i + 1) scns rels
      .ok (bytes ++ rest)
  | _, _, _ => .ok []

def relocEntry (order : Order) (rel : Reloc) : Bytes := (pack_reloc order rel).getD []

def relocTable (order : Order) (rp : List Reloc) : Bytes := rp.flatMap (relocEntry order)

/-- The section has these relocations, and they are in the file. -/
structure TableAt (order : Order) (f_nsyms : Nat) (file : Bytes) (scn : Scnhdr) (rp : List Reloc) : Prop where
  count : rp.length = scn.s_nrelloc
  entries : ∀ rel ∈ rp, rel.InRange ∧ rel.r_symndx < f_nsyms
  bytes : ∃ rest, file.drop scn.s_relptr = relocTable order rp ++ rest

/-- The file of an object. Apart from the relocations its parts are what is read. -/
structure FileOf (order : Order) (unset : Unset) (file : Bytes) (obj : Object) : Prop where
  headers : ∃ fp fp', readhdr order file = .ok (obj.hdr, fp) ∧
    readaout order obj.hdr.f_opthdr fp = .ok (obj.aout, fp') ∧
    readscns order obj.hdr.f_nscns unset.buf fp' = .ok obj.scns
  symbols : ∃ fp,
    readents order obj.hdr.f_nscns obj.hdr.f_nsyms obj.hdr.f_nsyms (file.drop obj.hdr.f_symptr) =
      .ok (obj.ents, fp) ∧
    readstr order obj.hdr.f_nsyms unset.str fp = .ok obj.strtbl
  rels : List.Forall₂ (TableAt order obj.hdr.f_nsyms file) obj.scns obj.rels
  lines : readlines order obj.hdr.f_nsyms file obj.scns = .ok obj.lines
  valid : validate obj.hdr.f_nsyms obj.strtbl.length obj.scns none obj.ents = true

/-- The entries but the last one of the section with its number are zeros, and the section has more entries
than its number. -/
def ReadKept (i : Nat) (rp : List Reloc) : Prop :=
  rp = [] ∨ i < rp.length ∧ ∀ k rel, rp[k]? = some rel → rel = ⟨0, 0, 0⟩ ∨ (k = i ∧ i + 1 = rp.length)

/-- The entries are all the same, and the section has more of them than its number. -/
def WriteKept (i : Nat) (rp : List Reloc) : Prop :=
  rp = [] ∨ ∃ rel, rp[i]? = some rel ∧ ∀ rel' ∈ rp, rel' = rel

variable {rel : Reloc} {rp : List Reloc} {α : Type} {i : Nat} {rels : List (List Reloc)}
  {file : Bytes} {order : Order}

theorem relocEntry_eq (order : Order) (inRange : rel.InRange) :
    pack_reloc order rel = some (relocEntry order rel) ∧ (relocEntry order rel).length = RELSZ ∧
      ∀ rest, unpack_reloc order (relocEntry order rel ++ rest) = some rel := by
  rcases reloc_round order inRange with ⟨bytes, written, length, read⟩
  have same : relocEntry order rel = bytes := by
    unfold relocEntry
    rw [written, Option.getD_some]
  rw [same]
  exact ⟨written, length, read⟩

theorem relocEntry_inj (order : Order) {rel rel' : Reloc} (inRange : rel.InRange) (inRange' : rel'.InRange) :
    relocEntry order rel = relocEntry order rel' ↔ rel = rel' := by
  constructor
  · intro same
    have read := (relocEntry_eq order inRange).2.2 []
    rw [same, (relocEntry_eq order inRange').2.2] at read
    exact (Option.some.inj read).symm
  · intro same
    rw [same]

theorem relocTable_cons (order : Order) (rel : Reloc) (rp : List Reloc) :
    relocTable order (rel :: rp) = relocEntry order rel ++ relocTable order rp :=
  List.flatMap_cons

theorem relocTable_length (order : Order) (inRange : ∀ rel ∈ rp, rel.InRange) :
    (relocTable order rp).length = rp.length * RELSZ := by
  induction rp with
  | nil => rw [List.length_nil, Nat.zero_mul]; rfl
  | cons rel rp ih =>
    rw [List.forall_mem_cons] at inRange
    rw [relocTable_cons, List.length_append, (relocEntry_eq order inRange.1).2.1, ih inRange.2,
      List.length_cons, Nat.succ_mul, Nat.add_comm]

theorem readrels_cons (order : Order) (f_nsyms i nrelloc : Nat) (inRange : rel.InRange)
    (es rp : List Reloc) (rest : Bytes) :
    readrels order f_nsyms i nrelloc (rel :: es).length rp (relocTable order (rel :: es) ++ rest) =
      if nrelloc ≤ i then .error .fault else if rel.r_symndx ≥ f_nsyms then .error .fail
      else readrels order f_nsyms i nrelloc es.length (rp.set i rel) (relocTable order es ++ rest) := by
  rcases relocEntry_eq order inRange with ⟨_, length, read⟩
  have first : fread RELSZ (relocTable order (rel :: es) ++ rest) =
      .ok (relocEntry order rel, relocTable order es ++ rest) := by
    rw [relocTable_cons, List.append_assoc]
    exact fread_append length _
  have unpacked_ : unpack_reloc order (relocEntry order rel) = some rel := by
    have alone := read []
    rwa [List.append_nil] at alone
  rw [List.length_cons, readrels, first]
  change (assertion (unpack_reloc order (relocEntry order rel)) >>= _) = _
  rw [unpacked_]
  rfl

theorem readrels_eq (order : Order) {f_nsyms i nrelloc : Nat} {es : List Reloc}
    (entries : ∀ rel ∈ es, rel.InRange ∧ rel.r_symndx < f_nsyms) (inside : i < nrelloc) (rp : List Reloc)
    (rest : Bytes) : readrels order f_nsyms i nrelloc es.length rp (relocTable order es ++ rest) =
      .ok (es.foldl (fun rp rel => rp.set i rel) rp) := by
  induction es generalizing rp with
  | nil => rfl
  | cons rel es ih =>
    rw [List.forall_mem_cons] at entries
    rw [readrels_cons order f_nsyms i nrelloc entries.1.1, if_neg (Nat.not_le.mpr inside),
      if_neg (Nat.not_le.mpr entries.1.2)]
    exact ih entries.2 _

theorem foldl_set (i : Nat) (a : α) (es rp : List α) :
    (a :: es).foldl (fun rp rel => rp.set i rel) rp = rp.set i ((a :: es).getLast (List.cons_ne_nil a es)) := by
  induction es generalizing a rp with
  | nil => rfl
  | cons b es ih =>
    have later := ih b (rp.set i a)
    rw [List.set_set] at later
    exact later

theorem set_replicate_iff (zero : α) {rp : List α} (inside : i < rp.length) (some_ : rp ≠ []) :
    (List.replicate rp.length zero).set i (rp.getLast some_) = rp ↔
      ∀ k rel, rp[k]? = some rel → rel = zero ∨ (k = i ∧ i + 1 = rp.length) := by
  have last : rp.getLast some_ = rp[rp.length - 1] := List.getLast_eq_getElem some_
  constructor
  · intro same k rel found
    rcases List.getElem?_eq_some_iff.mp found with ⟨bound, rfl⟩
    have entry (j : Nat) (bound : j < rp.length) : rp[j] = if i = j then rp.getLast some_ else zero := by
      have there := congrArg (fun l => l[j]?) same
      simp only [List.getElem?_set, List.getElem?_replicate, List.length_replicate, bound, if_true,
        List.getElem?_eq_getElem bound] at there
      split_ifs at there with here
      · rw [if_pos here]
        exact (Option.some.inj there).symm
      · rw [if_neg here]
        exact (Option.some.inj there).symm
    by_cases here : i = k
    · by_cases end_ : i + 1 = rp.length
      · exact .inr ⟨here.symm, end_⟩
      · left
        rw [entry k bound, if_pos here, last, entry _ (by omega), if_neg (by omega)]
    · left
      rw [entry k bound, if_neg here]
  · intro kept
    have entry (j : Nat) (bound : j < rp.length) (other : j = i → i + 1 ≠ rp.length) : rp[j] = zero := by
      rcases kept j rp[j] (List.getElem?_eq_getElem bound) with null | ⟨here, end_⟩
      · exact null
      · exact absurd end_ (other here)
    apply List.ext_getElem
    · rw [List.length_set, List.length_replicate]
    · intro k _ bound
      rw [List.getElem_set, List.getElem_replicate]
      split_ifs with here
      · subst here
        by_cases end_ : i + 1 = rp.length
        · rw [last]
          congr 1
          omega
        · rw [last, entry _ (by omega) (by omega), entry i bound (fun _ => end_)]
      · rw [entry k bound (fun same => absurd same.symm here)]

theorem readrels_iff (order : Order) {f_nsyms i : Nat} {rp : List Reloc}
    (entries : ∀ rel ∈ rp, rel.InRange ∧ rel.r_symndx < f_nsyms) (rest : Bytes) :
    readrels order f_nsyms i rp.length rp.length (List.replicate rp.length ⟨0, 0, 0⟩)
        (relocTable order rp ++ rest) = .ok rp ↔ ReadKept i rp := by
  cases rp with
  | nil => exact iff_of_true rfl (.inl rfl)
  | cons rel es =>
    unfold ReadKept
    by_cases inside : i < (rel :: es).length
    · rw [readrels_eq order entries inside, foldl_set, Except.ok.injEq,
        set_replicate_iff _ inside (List.cons_ne_nil rel es), or_iff_right (List.cons_ne_nil rel es),
        and_iff_right inside]
    · have first := entries rel List.mem_cons_self
      rw [readrels_cons order f_nsyms i _ first.1, if_pos (Nat.not_lt.mp inside),
        or_iff_right (List.cons_ne_nil rel es)]
      exact iff_of_false nofun fun kept => inside kept.1

theorem bind_cons_iff {x : Read α} {y : Read (List α)} {a : α} {l : List α} :
    (x >>= fun a => y >>= fun l => .ok (a :: l)) = .ok (a :: l) ↔ x = .ok a ∧ y = .ok l := by
  constructor
  · intro ok
    rcases bind_ok ok with ⟨a', first, more⟩
    rcases bind_ok more with ⟨l', later, same⟩
    rw [Except.ok.injEq, List.cons.injEq] at same
    rw [first, later, same.1, same.2]
    exact ⟨rfl, rfl⟩
  · intro both
    rw [both.1, both.2]
    rfl

theorem numbered_cons {Kept : Nat → List Reloc → Prop} :
    (∀ k rp', (rp :: rels)[k]? = some rp' → Kept (i + k) rp') ↔
      Kept i rp ∧ ∀ k rp', rels[k]? = some rp' → Kept (i + 1 + k) rp' := by
  constructor
  · intro kept
    constructor
    · exact kept 0 rp rfl
    · intro k rp' found
      rw [Nat.add_assoc, Nat.add_comm 1 k]
      exact kept (k + 1) rp' found
  · intro kept k rp' found
    cases k with
    | zero =>
      cases found
      exact kept.1
    | succ k =>
      have there := kept.2 k rp' found
      rwa [Nat.add_assoc, Nat.add_comm 1 k] at there

theorem readreloc_iff {f_nsyms : Nat} {scns : List Scnhdr}
    (tables : List.Forall₂ (TableAt order f_nsyms file) scns rels) (i : Nat) :
    readreloc order f_nsyms file i scns = .ok rels ↔ ∀ k rp, rels[k]? = some rp → ReadKept (i + k) rp := by
  induction tables generalizing i with
  | nil => exact iff_of_true rfl nofun
  | @cons scn rp scns rels table _ ih =>
    rcases table.bytes with ⟨rest, place⟩
    have first := @readrels_iff order f_nsyms i rp table.entries rest
    rw [table.count] at first
    rw [readreloc, bind_cons_iff, place, first, ih (i + 1), numbered_cons]

theorem coff32read_iff {unset : Unset} {obj : Object} (fileOf : FileOf order unset file obj) :
    coff32read order unset file = .ok obj ↔ readreloc order obj.hdr.f_nsyms file 0 obj.scns = .ok obj.rels := by
  rcases fileOf.headers with ⟨fp, fp', hdr, aout, scns⟩
  rcases fileOf.symbols with ⟨fp'', ents, strtbl⟩
  have parts : coff32read order unset file =
      (readreloc order obj.hdr.f_nsyms file 0 obj.scns).bind fun rels => .ok { obj with rels := rels } := by
    unfold coff32read
    rw [hdr]
    change (readaout order obj.hdr.f_opthdr fp >>= _) = _
    rw [aout]
    change (readscns order obj.hdr.f_nscns unset.buf fp' >>= _) = _
    rw [scns]
    change (readents order obj.hdr.f_nscns obj.hdr.f_nsyms obj.hdr.f_nsyms (file.drop obj.hdr.f_symptr) >>= _) = _
    rw [ents]
    change (readstr order obj.hdr.f_nsyms unset.str fp'' >>= _) = _
    rw [strtbl]
    change (readreloc order obj.hdr.f_nsyms file 0 obj.scns >>= _) = _
    apply congrArg (Except.bind (readreloc order obj.hdr.f_nsyms file 0 obj.scns))
    funext rels
    rw [fileOf.lines]
    change (if validate obj.hdr.f_nsyms obj.strtbl.length obj.scns none obj.ents = true then _ else _) = _
    rw [if_pos fileOf.valid]
  rw [parts]
  cases readreloc order obj.hdr.f_nsyms file 0 obj.scns with
  | error stop => exact iff_of_false nofun nofun
  | ok rels =>
    change Except.ok { obj with rels := rels } = Except.ok obj ↔ Except.ok rels = Except.ok obj.rels
    rw [Except.ok.injEq, Except.ok.injEq]
    constructor
    · intro same
      exact congrArg Object.rels same
    · intro same
      rw [same]

theorem writerels_eq (order : Order) (found : rp[i]? = some rel) (inRange : rel.InRange) (n : Nat) :
    writerels order i rp n = .ok (relocTable order (List.replicate n rel)) := by
  induction n with
  | zero => rfl
  | succ n ih =>
    rw [writerels, found]
    dsimp only
    rw [(relocEntry_eq order inRange).1, ih, List.replicate_succ, relocTable_cons]
    rfl

theorem writerels_length (inRange : ∀ rel ∈ rp, rel.InRange)
    {n : Nat} {bytes : Bytes} (ok : writerels order i rp n = .ok bytes) : bytes.length = n * RELSZ := by
  cases found : rp[i]? with
  | none =>
    cases n with
    | zero =>
      cases ok
      rw [Nat.zero_mul]
      rfl
    | succ n =>
      rw [writerels, found] at ok
      cases ok
  | some rel =>
    have here := inRange rel (List.mem_of_getElem? found)
    rw [writerels_eq order found here, Except.ok.injEq] at ok
    rw [← ok, relocTable_length order (fun rel' member => by rwa [List.eq_of_mem_replicate member]),
      List.length_replicate]

theorem relocTable_replicate_iff (order : Order) (inRange : rel.InRange) {es : List Reloc}
    (entries : ∀ rel ∈ es, rel.InRange) :
    relocTable order (List.replicate es.length rel) = relocTable order es ↔ ∀ rel' ∈ es, rel' = rel := by
  induction es with
  | nil => exact iff_of_true rfl nofun
  | cons first es ih =>
    rw [List.forall_mem_cons] at entries ⊢
    have same : (relocEntry order rel).length = (relocEntry order first).length := by
      rw [(relocEntry_eq order inRange).2.1, (relocEntry_eq order entries.1).2.1]
    rw [List.length_cons, List.replicate_succ, relocTable_cons, relocTable_cons]
    constructor
    · intro equal
      rcases List.append_inj equal same with ⟨head, tail⟩
      exact ⟨((relocEntry_inj order inRange entries.1).mp head).symm, (ih entries.2).mp tail⟩
    · intro all
      rw [(ih entries.2).mpr all.2, all.1]

theorem writerels_iff (order : Order) {i : Nat} {rp : List Reloc} (entries : ∀ rel ∈ rp, rel.InRange) :
    writerels order i rp rp.length = .ok (relocTable order rp) ↔ WriteKept i rp := by
  cases found : rp[i]? with
  | none =>
    cases rp with
    | nil => exact iff_of_true rfl (.inl rfl)
    | cons rel es =>
      rw [List.length_cons, writerels, found]
      refine iff_of_false nofun ?_
      intro kept
      rcases kept with none_ | ⟨rel', found', _⟩
      · cases none_
      · rw [found] at found'
        cases found'
  | some rel =>
    have here := entries rel (List.mem_of_getElem? found)
    rw [writerels_eq order found here, Except.ok.injEq, relocTable_replicate_iff order here entries]
    constructor
    · intro all
      exact .inr ⟨rel, found, all⟩
    · intro kept
      rcases kept with none_ | ⟨rel', found', all⟩
      · rw [none_] at found
        cases found
      · rw [found] at found'
        cases found'
        exact all

theorem writereloc_iff {f_nsyms : Nat} {scns : List Scnhdr}
    (tables : List.Forall₂ (TableAt order f_nsyms file) scns rels) (i : Nat) :
    writereloc order i scns rels = .ok (rels.flatMap (relocTable order)) ↔
      ∀ k rp, rels[k]? = some rp → WriteKept (i + k) rp := by
  induction tables generalizing i with
  | nil => exact iff_of_true rfl nofun
  | @cons scn rp scns rels table _ ih =>
    have entries : ∀ rel ∈ rp, rel.InRange := fun rel member => (table.entries rel member).1
    have first := @writerels_iff order i rp entries
    have split : writereloc order i (scn :: scns) (rp :: rels) =
          .ok ((rp :: rels).flatMap (relocTable order)) ↔
        writerels order i rp rp.length = .ok (relocTable order rp) ∧
          writereloc order (i + 1) scns rels = .ok (rels.flatMap (relocTable order)) := by
      rw [writereloc, ← table.count, List.flatMap_cons]
      constructor
      · intro ok
        rcases bind_ok ok with ⟨bytes, head, more⟩
        rcases bind_ok more with ⟨rest, tail, same⟩
        rw [Except.ok.injEq] at same
        rcases List.append_inj same (by rw [writerels_length entries head, relocTable_length order entries])
          with ⟨rfl, rfl⟩
        exact ⟨head, tail⟩
      · intro both
        rw [both.1, both.2]
        rfl
    rw [split, first, ih (i + 1), numbered_cons]

/-- Reading keeps the relocations when all but the entry with the number of the section are zeros and this is
the last one, writing when all the entries of a section are the same. -/
theorem relocs_carried_iff {order : Order} {unset : Unset} {file : Bytes} {obj : Object}
    (fileOf : FileOf order unset file obj) :
    (coff32read order unset file = .ok obj ↔ ∀ i rp, obj.rels[i]? = some rp → ReadKept i rp) ∧
    (writereloc order 0 obj.scns obj.rels = .ok (obj.rels.flatMap (relocTable order)) ↔
      ∀ i rp, obj.rels[i]? = some rp → WriteKept i rp) := by
  have read := readreloc_iff fileOf.rels 0
  have written := writereloc_iff fileOf.rels 0
  simp only [Nat.zero_add] at read written
  exact ⟨(coff32read_iff fileOf).trans read, written⟩

/-- The headers, the section `.text` with these relocations, a symbol, and the size of an empty string
table. -/
def relocFile (rp : List Reloc) : Bytes :=
  [0x4c, 0x01, 1, 0, 0, 0, 0, 0, 60 + 10 * rp.length.toUInt8, 0, 0, 0, 1, 0, 0, 0, 0, 0, 0, 0] ++
  [46, 116, 101, 120, 116, 0, 0, 0, 0, 0, 0, 0, 0, 0, 0, 0, 0, 0, 0, 0, 0, 0, 0, 0, 60, 0, 0, 0, 0, 0, 0, 0,
    rp.length.toUInt8, 0, 0, 0, 0, 0, 0, 0] ++
  relocTable .LITTLE_ENDIAN rp ++
  [120, 0, 0, 0, 0, 0, 0, 0, 0, 0, 0, 0, 0, 0, 0, 0, 2, 0] ++ [4, 0, 0, 0]

def relocObject (rp : List Reloc) : Object :=
  ⟨⟨0x14c, 1, 0, 60 + 10 * rp.length, 1, 0, 0⟩, none,
    [⟨.name [46, 116, 101, 120, 116, 0, 0, 0], 0, 0, 0, 0, 60, 0, rp.length, 0, 0⟩],
    [.SYM_ENT ⟨.name [120, 0, 0, 0, 0, 0, 0, 0], 0, 0, 0, 2, 0⟩], [rp], [[]], []⟩

def oneReloc : List Reloc := [⟨4, 0, 6⟩]
def twoRelocs : List Reloc := [⟨4, 0, 6⟩, ⟨8, 0, 6⟩]

theorem relocFile_one :
    FileOf .LITTLE_ENDIAN ⟨List.replicate 40 0, []⟩ (relocFile oneReloc) (relocObject oneReloc) where
  headers := ⟨(relocFile oneReloc).drop 20, (relocFile oneReloc).drop 20, by decide +kernel, by decide +kernel,
    by decide +kernel⟩
  symbols := ⟨[4, 0, 0, 0], by decide +kernel, by decide +kernel⟩
  rels := .cons ⟨rfl, by unfold Reloc.InRange Fit; decide, ⟨(relocFile oneReloc).drop 70, by decide +kernel⟩⟩ .nil
  lines := by decide +kernel
  valid := by decide +kernel

theorem relocFile_two :
    FileOf .LITTLE_ENDIAN ⟨List.replicate 40 0, []⟩ (relocFile twoRelocs) (relocObject twoRelocs) where
  headers := ⟨(relocFile twoRelocs).drop 20, (relocFile twoRelocs).drop 20, by decide +kernel, by decide +kernel,
    by decide +kernel⟩
  symbols := ⟨[4, 0, 0, 0], by decide +kernel, by decide +kernel⟩
  rels := .cons ⟨rfl, by unfold Reloc.InRange Fit; decide, ⟨(relocFile twoRelocs).drop 80, by decide +kernel⟩⟩ .nil
  lines := by decide +kernel
  valid := by decide +kernel

/-- One relocation in the first section. -/
theorem relocs_carried_one :
    coff32read .LITTLE_ENDIAN ⟨List.replicate 40 0, []⟩ (relocFile oneReloc) = .ok (relocObject oneReloc) ∧
      writereloc .LITTLE_ENDIAN 0 (relocObject oneReloc).scns [oneReloc] =
        .ok ([oneReloc].flatMap (relocTable .LITTLE_ENDIAN)) := by
  have carried := relocs_carried_iff relocFile_one
  have kept (i : Nat) (rp : List Reloc) (found : [oneReloc][i]? = some rp) : ReadKept i rp ∧ WriteKept i rp := by
    cases i with
    | succ i => cases found
    | zero =>
      cases found
      constructor
      · right
        refine ⟨by decide, ?_⟩
        intro k rel there
        cases k with
        | succ k => cases there
        | zero => exact .inr ⟨rfl, rfl⟩
      · exact .inr ⟨⟨4, 0, 6⟩, rfl, by decide⟩
  exact ⟨carried.1.mpr fun i rp found => (kept i rp found).1, carried.2.mpr fun i rp found => (kept i rp found).2⟩

/-- Two relocations. -/
theorem two_relocs_lost : ¬ ∀ (order : Order) (unset : Unset) (file : Bytes) (obj : Object),
    FileOf order unset file obj → coff32read order unset file = .ok obj ∧
      writereloc order 0 obj.scns obj.rels = .ok (obj.rels.flatMap (relocTable order)) := by
  intro all
  have carried := all .LITTLE_ENDIAN ⟨List.replicate 40 0, []⟩ (relocFile twoRelocs) (relocObject twoRelocs)
    relocFile_two
  have read : coff32read .LITTLE_ENDIAN ⟨List.replicate 40 0, []⟩ (relocFile twoRelocs) =
      .ok { relocObject twoRelocs with rels := [[⟨8, 0, 6⟩, ⟨0, 0, 0⟩]] } := by decide +kernel
  have same := congrArg Object.rels (Except.ok.inj (read.symm.trans carried.1))
  exact absurd same (by decide)

end Scc.Libmach.Coff32
