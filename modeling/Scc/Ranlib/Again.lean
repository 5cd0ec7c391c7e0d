import Scc.Ranlib.BadArchive

/-!
# A second run

The index that a run has written should be replaced by the next run. It is kept, because its name is
compared with the blanks that follow it.
-/

namespace Scc.Ranlib

open Scc.Lib Scc.Ar

set_option autoImplicit false

section Again

variable (genhash : Name → Nat) (objs : Objects) (prop prop' : Fprop) (file : Bytes)

/-- After a second run the members are the same, behind the one index of that run. -/
def Idempotent : Prop :=
  ∀ r, Runs genhash objs (Env.calm prop) file r → ∃ r', Runs genhash objs (Env.calm prop') r.file r' ∧
    match r.index with
    | none => r'.file = r.file
    | some idx => ∃ members idx', r.file = beginning prop idx ++ members ∧ r'.index = some idx' ∧
        r'.file = beginning prop' idx' ++ members

/-- The scan of the library finds an object of the format with an index, and then it does not come to the end
of the file, or there is only this format and some symbol that counts. -/
def Indexable : Prop :=
  ∃ s xs result, (Env.calm prop).Begins file s ∧ Walk ((Env.calm prop).turn file) (0, s) xs result ∧
    FORMAT ((Env.calm prop).kind objs file xs) = COFF32 ∧ (result = true → ¬ (Env.calm prop).Unfit objs file xs)

end Again

variable {genhash : Name → Nat} {objs : Objects} {prop prop' : Fprop} {file : Bytes}

theorem calm_stumbles (prop : Fprop) {kind : Option Nat} : (Env.calm prop).Stumbles kind ↔ NFORMATS ≤ FORMAT kind := by
  unfold Env.Stumbles Env.calm
  simp

theorem coff_iff {kind : Option Nat} :
    FORMAT kind = COFF32 ↔ ¬ NFORMATS ≤ FORMAT kind ∧ FORMAT kind ≠ ELF := by
  unfold COFF32 NFORMATS ELF
  omega

theorem calm_scanned (genhash : Name → Nat) (objs : Objects) (prop : Fprop) (file : Bytes) (xs : List Turn) :
    Scanned genhash objs (Env.calm prop) file xs ((Env.calm prop).scan genhash objs file xs) :=
  scanned genhash fun _ _ _ => rfl

theorem written_indexable {r : Result} (run : Runs genhash objs (Env.calm prop) file r) (written : r.index ≠ none) :
    Indexable objs prop file := by
  cases run with
  | unopened => exact absurd rfl written
  | run _ read done =>
    rcases finish_index done written with ⟨zero, goes, coff, -⟩
    cases read with
    | unrecognized => exact absurd formatless_stumbles goes
    | refused => exact absurd formatless_stumbles goes
    | @corrupted s xs begins walk =>
      have known := calm_scanned genhash objs prop file xs
      rw [calm_stumbles prop] at goes
      rw [known.artype] at goes coff
      refine ⟨s, xs, false, begins, walk, coff_iff.mpr ⟨goes, coff⟩, fun impossible => ?_⟩
      cases impossible
    | @ended s xs begins walk =>
      have known := calm_scanned genhash objs prop file xs
      rw [calm_stumbles prop] at goes
      rw [known.artype] at goes coff
      exact ⟨s, xs, true, begins, walk, coff_iff.mpr ⟨goes, coff⟩, fun _ => (zero_iff fun _ _ _ => rfl).mp zero⟩

theorem goes_written {env : Env} {scan : Scan} (opened : env.fopen = false)
    (read : env.Readsyms genhash objs file scan true) (goes : ¬ env.Stumbles scan.st.artype)
    (coff : FORMAT scan.st.artype ≠ ELF) : ∃ r, Runs genhash objs env file r ∧ r.index ≠ none :=
  ⟨_, .run opened read ((finish_goes goes).trans (if_neg coff)), Option.some_ne_none _⟩

theorem indexable_written (genhash : Name → Nat) (indexable : Indexable objs prop file) :
    ∃ r, Runs genhash objs (Env.calm prop) file r ∧ r.index ≠ none := by
  rcases indexable with ⟨s, xs, result, begins, walk, format, fits⟩
  have known := calm_scanned genhash objs prop file xs
  rw [coff_iff, ← known.artype] at format
  have goes : ¬ (Env.calm prop).Stumbles ((Env.calm prop).scan genhash objs file xs).st.artype :=
    mt (calm_stumbles prop).mp format.1
  cases result with
  | false =>
    have read : (Env.calm prop).Readsyms genhash objs file _ _ := .corrupted begins walk
    exact goes_written rfl read goes format.2
  | true =>
    have read : (Env.calm prop).Readsyms genhash objs file _ _ := .ended begins walk
    rw [(zero_iff fun _ _ _ => rfl).mpr (fits rfl)] at read
    exact goes_written rfl read goes format.2

theorem padded_length (width : Nat) (s : Bytes) : width ≤ (padded width s).length := by
  unfold padded
  rw [List.length_append, List.length_replicate]
  omega

theorem header_length (prop : Fprop) (size : Nat) : hdrsize ≤ (header prop size).length := by
  unfold header hdrsize
  simp only [List.length_append]
  have name := padded_length 16 (namidx.take 16)
  have date := padded_length 12 (number 10 prop.time)
  have uid := padded_length 6 (number 10 prop.uid)
  have gid := padded_length 6 (number 10 prop.gid)
  have mode := padded_length 8 (number 8 prop.mode)
  have bytes := padded_length 10 (number 10 size)
  have mark : ARFMAG.length = 2 := rfl
  omega

theorem beginning_drop (prop : Fprop) (idx members : Bytes) : (beginning prop idx ++ members).drop SARMAG =
    header prop idx.length ++ (idx ++ ((if idx.length % 2 = 1 then [10] else []) ++ members)) := by
  unfold beginning
  simp only [List.append_assoc]
  exact List.drop_left' rfl

theorem kept_beginning (prop : Fprop) (idx members : Bytes) : kept (beginning prop idx ++ members) = some SARMAG := by
  have name : ∃ rest, header prop idx.length = (47 :: List.replicate 15 32) ++ rest := by
    unfold header
    simp only [List.append_assoc]
    exact ⟨_, rfl⟩
  have long := header_length prop idx.length
  unfold kept fread
  rw [beginning_drop]
  dsimp only
  rw [if_neg (by rw [List.length_append]; omega), Option.map_some]
  rcases name with ⟨rest, name⟩
  have other : cstring (47 :: List.replicate 15 32) ≠ namidx := by decide
  rw [name, List.append_assoc, List.take_left' (by decide), if_neg other]

theorem index_kept {env : Env} {idx members : Bytes} {r : Result}
    (run : Runs genhash objs env (beginning prop idx ++ members) r) :
    r.file = beginning prop idx ++ members ∨ ∃ idx', r.index = some idx' ∧
      r.file = beginning env.prop idx' ++ (header prop idx.length ++
        (idx ++ ((if idx.length % 2 = 1 then [10] else []) ++ members))) := by
  cases run with
  | unopened => exact .inl rfl
  | @run scan zero r opened read done =>
    cases index : r.index with
    | none => exact .inl (finish_file done index)
    | some idx' =>
      right
      rcases finish_index done (by rw [index]; exact Option.some_ne_none _) with ⟨-, -, -, rfl⟩
      cases index
      refine ⟨_, rfl, ?_⟩
      unfold merge
      rw [kept_beginning]
      dsimp only
      rw [beginning_drop]

theorem not_again {members idx idx' : Bytes} {r' : Result}
    (run : Runs genhash objs (Env.calm prop') (beginning prop idx ++ members) r') (index : r'.index = some idx') :
    r'.file ≠ beginning prop' idx' ++ members := by
  intro again
  cases run with
  | unopened => cases index
  | run opened read done =>
    rcases finish_index done (by rw [index]; exact Option.some_ne_none _) with ⟨-, -, -, rfl⟩
    cases index
    unfold merge at again
    rw [kept_beginning] at again
    have same := congrArg List.length (List.append_cancel_left again)
    have long := header_length prop idx.length
    unfold beginning at same
    rw [List.length_drop] at same
    simp only [List.length_append] at same
    have mark : ARMAG.length = SARMAG := rfl
    unfold hdrsize at long
    omega

theorem unwritten_again (prop' : Fprop) {r : Result} (run : Runs genhash objs (Env.calm prop) file r)
    (unwritten : r.index = none) : r.file = file ∧ ∃ r', Runs genhash objs (Env.calm prop') file r' ∧ r'.file = file := by
  cases run with
  | unopened no => cases no
  | @run scan zero r _ read done =>
    refine ⟨finish_file done unwritten, ?_⟩
    have read' : (Env.calm prop').Readsyms genhash objs file scan zero := by
      cases read with
      | unrecognized no => exact .unrecognized no
      | refused yes corrupted => exact .refused yes corrupted
      | corrupted begins walk => exact .corrupted begins walk
      | ended begins walk => exact .ended begins walk
    cases zero with
    | false => exact ⟨_, .run rfl read' (finish_not scan), rfl⟩
    | true =>
      by_cases stumbles : (Env.calm prop).Stumbles scan.st.artype
      · rw [calm_stumbles, ← calm_stumbles prop'] at stumbles
        rcases finish_stumbles file stumbles with ⟨e, failed⟩
        exact ⟨_, .run rfl read' failed, rfl⟩
      · rw [finish_goes stumbles] at done
        split_ifs at done
        cases done
        cases unwritten

/-- scc-ranlib is idempotent exactly on what it writes no index for. -/
theorem idempotent_iff (genhash : Name → Nat) (objs : Objects) (prop prop' : Fprop) (file : Bytes) :
    Idempotent genhash objs prop prop' file ↔ ¬ Indexable objs prop file := by
  constructor
  · intro idempotent indexable
    rcases indexable_written genhash indexable with ⟨r, run, written⟩
    rcases idempotent r run with ⟨r', run', again⟩
    cases index : r.index with
    | none => exact written index
    | some idx =>
      rw [index] at again
      rcases again with ⟨members, idx', first, index', second⟩
      rw [first] at run'
      exact not_again run' index' second
  · intro unindexed r run
    have unwritten : r.index = none := by
      by_contra written
      exact unindexed (written_indexable run written)
    rcases unwritten_again prop' run unwritten with ⟨same, r', run', same'⟩
    rw [same, unwritten]
    exact ⟨r', run', same'⟩

/-- The second run on a library with one member does not replace its index. -/
theorem index_not_replaced : ¬ ∀ (genhash : Name → Nat) (objs : Objects) (prop prop' : Fprop) (file : Bytes),
    Idempotent genhash objs prop prop' file := by
  intro all
  let prop : Fprop := ⟨0, 0, 0, 0⟩
  let objs := someObjects [⟨['f'], 'T'⟩]
  have begins : (Env.calm prop).Begins oneMember SARMAG := ⟨rfl, by decide, rfl, rfl⟩
  have first : (Env.calm prop).turn oneMember (0, SARMAG) = .visit (0, ⟨[97], 8, 2⟩) (1, 70) := rfl
  have last : (Env.calm prop).turn oneMember (1, 70) = .stop true := rfl
  have walk : Walk ((Env.calm prop).turn oneMember) (0, SARMAG) [(0, ⟨[97], 8, 2⟩)] true := .visit first (.stop last)
  have read : (Env.calm prop).Readsyms (fun _ => 0) objs oneMember
      ⟨⟨⟨[⟨['f'], 'T', 68⟩], []⟩, some 0, false⟩, []⟩ true :=
    .ended begins walk
  have run : Runs (fun _ => 0) objs (Env.calm prop) oneMember
      ⟨merge prop (setindex [⟨['f'], 'T', 68⟩]) oneMember, [], some (setindex [⟨['f'], 'T', 68⟩])⟩ :=
    .run rfl read rfl
  rcases all _ objs prop prop oneMember _ run with ⟨r', run', members, idx', written, index', again⟩
  rw [written] at run'
  exact not_again run' index' again

end Scc.Ranlib
