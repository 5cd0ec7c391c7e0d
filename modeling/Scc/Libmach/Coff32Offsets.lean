import Scc.Libmach.Coff32Write

/-!
# The offsets of a COFF object

Every writer fills the file from where the last one stopped, so the regions never
overlap. The stored offsets are compared with these places: the symbols are written after
the relocations but `f_symptr` does not count them.
-/

namespace Scc.Libmach

set_option autoImplicit false

/-- The regions go from one position to the other, in this order. -/
structure Fills (first last : Nat) (regions : List Region) : Prop where
  le : first ≤ last
  inside : ∀ region ∈ regions, first ≤ region.pos ∧ region.pos + region.len ≤ last
  ordered : regions.Pairwise Region.before

theorem Fills.nil (pos : Nat) : Fills pos pos [] :=
  ⟨Nat.le_refl pos, by simp, List.Pairwise.nil⟩

theorem Fills.append {first middle last : Nat} {regions more : List Region}
    (filled : Fills first middle regions) (rest : Fills middle last more) :
    Fills first last (regions ++ more) := by
  constructor
  · exact Nat.le_trans filled.le rest.le
  · intro region member
    rcases List.mem_append.mp member with old | new
    · exact ⟨(filled.inside region old).1, Nat.le_trans (filled.inside region old).2 rest.le⟩
    · exact ⟨Nat.le_trans filled.le (rest.inside region new).1, (rest.inside region new).2⟩
  · rw [List.pairwise_append]
    refine ⟨filled.ordered, rest.ordered, ?_⟩
    intro region old later new
    exact Nat.le_trans (filled.inside region old).2 (rest.inside later new).1

theorem Fills.one (part : Part) (pos n : Nat) : Fills pos (pos + n) [⟨part, pos, n⟩] := by
  constructor
  · omega
  · simp
  · simp

/-- The regions that `writeparts` adds. -/
def regionsOf (bytes : Scnhdr → Option Nat) (part : Nat → Part) :
    Nat → Nat → List Scnhdr → List Region
  | _, _, [] => []
  | i, pos, scn :: rest =>
    match bytes scn with
    | some n => ⟨part i, pos, n⟩ :: regionsOf bytes part (i + 1) (pos + n) rest
    | none => regionsOf bytes part (i + 1) pos rest

section Parts

variable (bytes : Scnhdr → Option Nat) (part : Nat → Part)

theorem pass_cons_some {scn : Scnhdr} {n : Nat} (rest : List Scnhdr) (has : bytes scn = some n) :
    pass bytes (scn :: rest) = n + pass bytes rest := by
  simp [pass, has]

theorem pass_cons_none {scn : Scnhdr} (rest : List Scnhdr) (has : bytes scn = none) :
    pass bytes (scn :: rest) = pass bytes rest := by
  simp [pass, has]

theorem writeparts_eq (scns : List Scnhdr) : ∀ (i : Nat) (fp : Stream), writeparts bytes part i scns fp =
      { fp with
        pos := fp.pos + pass bytes scns
        written := fp.written ++ regionsOf bytes part i fp.pos scns } := by
  induction scns with
  | nil =>
    intro i fp
    simp [writeparts, pass, regionsOf]
  | cons scn rest ih =>
    intro i fp
    cases has : bytes scn with
    | none => simp only [writeparts, regionsOf, has, ih, pass_cons_none bytes rest has]
    | some n =>
      simp only [writeparts, regionsOf, has, ih, pass_cons_some bytes rest has,
        Stream.fwrite, List.append_assoc, List.singleton_append, Nat.add_assoc]

theorem regionsOf_fills (scns : List Scnhdr) : ∀ (i pos : Nat),
    Fills pos (pos + pass bytes scns) (regionsOf bytes part i pos scns) := by
  induction scns with
  | nil =>
    intro i pos
    exact Fills.nil pos
  | cons scn rest ih =>
    intro i pos
    cases has : bytes scn with
    | none =>
      simp only [regionsOf, has, pass_cons_none bytes rest has]
      exact ih (i + 1) pos
    | some n =>
      simp only [regionsOf, has, pass_cons_some bytes rest has]
      have tail := (Fills.one (part i) pos n).append (ih (i + 1) (pos + n))
      rw [Nat.add_assoc] at tail
      exact tail

theorem regionsOf_part {region : Region} (scns : List Scnhdr) : ∀ (i pos : Nat),
    region ∈ regionsOf bytes part i pos scns → ∃ j, region.part = part j := by
  induction scns with
  | nil =>
    intro i pos member
    simp [regionsOf] at member
  | cons scn rest ih =>
    intro i pos member
    cases has : bytes scn with
    | none =>
      simp only [regionsOf, has] at member
      exact ih _ _ member
    | some n =>
      simp only [regionsOf, has] at member
      rcases List.mem_cons.mp member with rfl | later
      · exact ⟨i, rfl⟩
      · exact ih _ _ later

theorem regionsOf_located (scns : List Scnhdr) : ∀ (i pos j : Nat) (scn : Scnhdr) (n : Nat),
    scns[j]? = some scn → bytes scn = some n → ∃ ptr, (pointers bytes pos scns)[j]? = some ptr ∧
        ⟨part (i + j), ptr, n⟩ ∈ regionsOf bytes part i pos scns := by
  induction scns with
  | nil =>
    intro i pos j scn n get
    simp at get
  | cons first rest ih =>
    intro i pos j scn n get has
    cases j with
    | zero =>
      have same : first = scn := by simpa using get
      subst same
      exact ⟨pos, by simp [pointers, has], by simp [regionsOf, has]⟩
    | succ j =>
      have later : rest[j]? = some scn := by simpa using get
      have shift : i + (j + 1) = i + 1 + j := by omega
      rw [shift]
      cases first_bytes : bytes first with
      | none =>
        rcases ih (i + 1) pos j scn n later has with ⟨ptr, ptr_eq, member⟩
        exact ⟨ptr, by simpa [pointers, first_bytes] using ptr_eq,
          by simpa only [regionsOf, first_bytes] using member⟩
      | some m =>
        rcases ih (i + 1) (pos + m) j scn n later has with ⟨ptr, ptr_eq, member⟩
        refine ⟨ptr, by simpa [pointers, first_bytes] using ptr_eq, ?_⟩
        simp only [regionsOf, first_bytes]
        exact List.mem_cons_of_mem _ member

theorem located_of_regions {fp : Stream} {scns : List Scnhdr} {pos : Nat}
    (written : ∀ region ∈ regionsOf bytes part 0 pos scns, region ∈ fp.written) :
    Located fp bytes part scns (pointers bytes pos scns) := by
  intro i scn n get has
  rcases regionsOf_located bytes part scns 0 pos i scn n get has with ⟨ptr, ptr_eq, member⟩
  rw [Nat.zero_add] at member
  exact ⟨ptr, ptr_eq, written _ member⟩

end Parts

theorem foldlM_fixed {α σ : Type} (pack : σ → α → Option σ) (good : α → Bool) (s : σ)
    (step : ∀ x, pack s x = if good x then some s else none) (xs : List α) :
    xs.foldlM pack s = if xs.all good then some s else none := by
  induction xs with
  | nil => rfl
  | cons x rest ih =>
    rw [List.foldlM_cons, step x]
    cases ok : good x with
    | true => simp [ok, ih]
    | false => simp [ok]

theorem allocstring_none (len : Nat) : allocstring len 0 = none := by
  have large : (len : Int) + 1 > 0 - LONG_MAX := by
    unfold LONG_MAX
    omega
  exact if_pos large

theorem putname_eq (name : Option Nat) : putname name 0 = if name.isNone then some 0 else none := by
  cases name with
  | none => rfl
  | some len => exact allocstring_none len

theorem packent_eq (ent : Entry) : packent ent 0 = if ent.writable then some 0 else none := by
  have sym : pack "lsscc" + 8 = SYMESZ := by decide
  have scn : ¬ pack "lsslsc" = AUXESZ := by decide
  have fn : pack "lllls" = AUXESZ := by decide
  have ary : ¬ pack "lssssss" = AUXESZ := by decide
  cases ent with
  | SYM_ENT name => cases name <;> simp [packent, putname, allocstring_none, assert, sym, Entry.writable]
  | SYM_AUX_UNK => rfl
  | SYM_AUX_SYM => rfl
  | SYM_AUX_FILE name => exact putname_eq name
  | SYM_AUX_SCN => simp [packent, assert, scn, Entry.writable]
  | SYM_AUX_FUN => simp [packent, assert, fn, Entry.writable]
  | SYM_AUX_ARY => simp [packent, assert, ary, Entry.writable]

/-- What must hold for the object to be written at all. -/
def packable (coff : Coff32) : Bool :=
  coff.f_opthdr = 0 && coff.scns.all (fun scn => scn.name.isNone) && coff.ents.all Entry.writable &&
    !coff.scns.any fun scn => scn.s_nlnno > 0

/-- The regions of an object, and where the last one ends. -/
def image (coff : Coff32) (start : Nat) : Stream :=
  let hdr := start + FILHSZ
  let data := hdr + coff.scns.length * SCNHSZ
  let relocs := data + pass dataBytes coff.scns
  let ents := relocs + pass relocBytes coff.scns
  let strings := ents + coff.ents.length * SYMESZ
  { pos := strings + 4
    written := [⟨.header, start, FILHSZ⟩] ++ [⟨.sections, hdr, coff.scns.length * SCNHSZ⟩] ++
      regionsOf dataBytes .data 0 data coff.scns ++ regionsOf relocBytes .relocs 0 relocs coff.scns ++
      [⟨.symbols, ents, coff.ents.length * SYMESZ⟩] ++ [⟨.strings, strings, 4⟩]
    error := false }

theorem writehdr_eq (fp : Stream) : writehdr fp = some (fp.fwrite .header FILHSZ) := by
  have size : pack "sslllss" = FILHSZ := by decide
  simp [writehdr, assert, size]

variable (scns : List Scnhdr)

theorem writescns_eq (fp : Stream) : writescns scns fp = if scns.all (fun scn => scn.name.isNone) then
      some (fp.fwrite .sections (scns.length * SCNHSZ), 0) else none := by
  have size : pack "llllllssl" + 8 = SCNHSZ := by decide
  have step : ∀ scn : Scnhdr, ((putname scn.name 0).bind fun siz =>
      (assert (pack "llllllssl" + 8 = SCNHSZ)).map fun _ => siz) =
        if scn.name.isNone then some 0 else none := by
    intro scn
    rw [putname_eq]
    cases scn.name with
    | none => simp [assert, size]
    | some len => rfl
  unfold writescns
  rw [foldlM_fixed _ (fun scn => scn.name.isNone) 0 step scns]
  split_ifs <;> rfl

theorem writereloc_eq (fp : Stream) :
    writereloc scns fp = some (writeparts relocBytes .relocs 0 scns fp) := by
  have size : pack "lls" = RELSZ := by decide
  simp [writereloc, assert, size]

theorem writelines_eq (fp : Stream) :
    writelines scns fp = if scns.any (fun scn => scn.s_nlnno > 0) then none else some fp := by
  have size : ¬ pack "lls" = LINESZ := by decide
  unfold writelines
  split_ifs with lines
  · simp [assert, size]
  · rfl

theorem writeents_eq (ents : List Entry) (fp : Stream) : writeents ents 0 fp = if ents.all Entry.writable then
      some (fp.fwrite .symbols (ents.length * SYMESZ), 0) else none := by
  unfold writeents
  rw [foldlM_fixed _ Entry.writable 0 packent_eq ents]
  split_ifs <;> rfl

theorem coff32write_eq (coff : Coff32) (start : Nat) : coff32write coff start =
      if packable coff then some (offsets coff start, image coff start) else none := by
  unfold coff32write
  rw [writehdr_eq, Option.bind_some, writescns_eq]
  cases names : coff.scns.all (fun scn => scn.name.isNone) with
  | false => simp [packable, names]
  | true =>
    rw [if_pos rfl, Option.bind_some, writereloc_eq, Option.bind_some, writelines_eq]
    cases lines : coff.scns.any (fun scn => scn.s_nlnno > 0) with
    | true => simp [packable, lines]
    | false =>
      rw [if_neg (by simp), Option.bind_some, writeents_eq]
      cases entries : coff.ents.all Entry.writable with
      | false => simp [packable, entries]
      | true =>
        rw [if_pos rfl, Option.bind_some]
        by_cases opthdr : coff.f_opthdr = 0
        · simp [packable, names, lines, entries, opthdr, writestr, writeaout, writedata,
            writeparts_eq, Stream.fwrite, image, offsets, Nat.add_assoc]
        · simp [packable, opthdr, writestr, writeaout, writedata, writeparts_eq, Stream.fwrite, Stream.fread]

theorem image_fills (coff : Coff32) (start : Nat) :
    Fills start (image coff start).pos (image coff start).written :=
  ((((Fills.one .header start FILHSZ).append (Fills.one .sections _ _)).append
    (regionsOf_fills dataBytes .data coff.scns 0 _)).append
      (regionsOf_fills relocBytes .relocs coff.scns 0 _)).append
        (Fills.one .symbols _ _) |>.append (Fills.one .strings _ _)

theorem symbols_unique {coff : Coff32} {start ptr n : Nat}
    (member : ⟨.symbols, ptr, n⟩ ∈ (image coff start).written) :
    ptr = start + FILHSZ + coff.scns.length * SCNHSZ + pass dataBytes coff.scns +
      pass relocBytes coff.scns := by
  unfold image at member
  simp only [List.mem_append, List.mem_singleton] at member
  rcases member with ((((header | sections) | data) | relocs) | symbols) | strings
  · cases header
  · cases sections
  · rcases regionsOf_part dataBytes .data _ _ _ data with ⟨j, part⟩
    cases part
  · rcases regionsOf_part relocBytes .relocs _ _ _ relocs with ⟨j, part⟩
    cases part
  · exact congrArg Region.pos symbols
  · cases strings

theorem pass_reloc_eq_zero : pass relocBytes scns = 0 ↔ ∀ scn ∈ scns, scn.s_nrelloc = 0 := by
  have each : ∀ scn : Scnhdr, (relocBytes scn).getD 0 = 0 ↔ scn.s_nrelloc = 0 := by
    intro scn
    unfold relocBytes RELSZ
    split_ifs with some_relocs
    · simp only [Option.getD_some]
      omega
    · simp only [Option.getD_none, true_iff]
      omega
  unfold pass
  rw [List.sum_eq_zero_iff_forall_eq_nat]
  simp only [List.mem_map, forall_exists_index, and_imp, forall_apply_eq_imp_iff₂, each]

theorem packable_iff (coff : Coff32) :
    packable coff = true ↔ coff.f_opthdr = 0 ∧ (∀ scn ∈ coff.scns, scn.name = none) ∧
      (∀ ent ∈ coff.ents, ent.writable = true) ∧ ∀ scn ∈ coff.scns, scn.s_nlnno = 0 := by
  simp [packable, and_assoc]

theorem image_correct_iff {coff : Coff32} (start : Nat) (packed : packable coff = true) :
    Correct coff (offsets coff start) (image coff start) ↔
      (coff.ents = [] ∨ ∀ scn ∈ coff.scns, scn.s_nrelloc = 0) := by
  rcases (packable_iff coff).mp packed with ⟨opthdr, names, entries, lines⟩
  have place : (offsets coff start).f_symptr =
      if coff.ents.length > 0 then
        start + FILHSZ + coff.scns.length * SCNHSZ + pass dataBytes coff.scns else 0 := by
    simp [offsets, opthdr]
  constructor
  · intro correct
    by_cases empty : coff.ents = []
    · exact Or.inl empty
    · right
      have some_ents : coff.ents.length > 0 := List.length_pos_iff.mpr empty
      have ptr := symbols_unique (correct.symbols empty)
      rw [place, if_pos some_ents] at ptr
      have none_left : pass relocBytes coff.scns = 0 := by omega
      exact (pass_reloc_eq_zero coff.scns).mp none_left
  · intro relocs
    constructor
    · intro nonempty
      have some_ents : coff.ents.length > 0 := List.length_pos_iff.mpr nonempty
      have none_left : pass relocBytes coff.scns = 0 :=
        (pass_reloc_eq_zero coff.scns).mpr (relocs.resolve_left nonempty)
      rw [place, if_pos some_ents]
      simp [image, none_left]
    · have ptrs : (offsets coff start).s_scnptr =
          pointers dataBytes (start + FILHSZ + coff.scns.length * SCNHSZ) coff.scns := by
        simp [offsets, opthdr]
      rw [ptrs]
      apply located_of_regions
      intro region member
      simp [image, member]
    · have ptrs : (offsets coff start).s_relptr = pointers relocBytes
          (start + FILHSZ + coff.scns.length * SCNHSZ + pass dataBytes coff.scns) coff.scns := by
        simp [offsets, opthdr]
      rw [ptrs]
      apply located_of_regions
      intro region member
      simp [image, member]
    · intro i scn n get has
      have zero := lines scn (List.mem_of_getElem? get)
      simp [zero] at has
    · exact (image_fills coff start).ordered

end Scc.Libmach
