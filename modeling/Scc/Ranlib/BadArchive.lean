import Scc.Ranlib.Run

/-!
# Bad libraries

A library that cannot be read should be reported and left as it is. scc-ranlib does so unless
something goes wrong of which it takes no notice, or it goes on after a message.
-/

namespace Scc.Ranlib

open Scc.Lib Scc.Ar

set_option autoImplicit false

/-- The size is not a number with blanks behind it. -/
def BadSize (file : Bytes) (pos : Nat) : Prop := ∃ hdr, fread file pos = some hdr ∧ getnum hdr.ar_size 10 = none

/-- Where the first member is that is not an index. -/
def firstMember (file : Bytes) : Nat :=
  match Libmach.armember file SARMAG with
  | .member memb off => if isIndex memb then fseek SARMAG off else SARMAG
  | _ => SARMAG

section Library

variable (genhash : Name → Nat) (objs : Objects) (env : Env) (file : Bytes)

inductive Env.Happens : Trouble → Prop
  | unopened (no : env.fopen = true) : Env.Happens .unopened
  | unrecognized (opened : env.fopen = false) (no : env.archive file = false) : Env.Happens .unrecognized
  | first (opened : env.fopen = false) (yes : env.archive file = true)
      (corrupted : env.first = true ∨ start file = none) : Env.Happens .refused
  | refused {s : Nat} {xs : List Turn} {t : Nat × Nat} (begins : env.Begins file s)
      (path : Path (env.turn file) (0, s) xs t) (stopped : env.turn file t = .stop false) : Env.Happens .refused
  | truncated {s : Nat} {xs : List Turn} {t : Nat × Nat} (begins : env.Begins file s)
      (path : Path (env.turn file) (0, s) xs t) (stopped : env.turn file t = .stop true) (within : t.2 < file.length)
      (short : fread file t.2 = none) : Env.Happens .truncated
  | firstSize {s : Nat} (begins : env.Begins file s) (bad : BadSize file SARMAG) : Env.Happens .size
  | size {s : Nat} {xs : List Turn} {t : Nat × Nat} (begins : env.Begins file s)
      (path : Path (env.turn file) (0, s) xs t) (accepted : env.turn file t ≠ .stop false)
      (bad : BadSize file t.2) : Env.Happens .size
  | probe {s : Nat} {xs : List Turn} {t : Nat × Nat} {x : Turn} (begins : env.Begins file s)
      (path : Path (env.turn file) (0, s) xs t) (visited : x ∈ xs) (fault : (env.turns x.1).probe = true) :
      Env.Happens .probe
  | probeAgain {s : Nat} {xs : List Turn} {t : Nat × Nat} {x : Turn} (begins : env.Begins file s)
      (path : Path (env.turn file) (0, s) xs t) (visited : x ∈ xs) (object : env.format objs file x ≠ none)
      (fault : (env.turns x.1).probeAgain = true) : Env.Happens .probeAgain
  | unread {s : Nat} {xs : List Turn} {t : Nat × Nat} (begins : env.Begins file s)
      (path : Path (env.turn file) (0, s) xs t) (unread : env.Unread objs file (env.kind objs file xs) xs) :
      Env.Happens .unread

/-- All members are scanned, from the first one to the end of the file, and nothing goes wrong. -/
structure Env.Whole : Prop where
  calm : ∀ e, ¬ env.Happens objs file e
  copied : env.copying = false
  scanned : ∃ xs, env.Begins file (firstMember file) ∧ Walk (env.turn file) (0, firstMember file) xs true ∧
    (readObjects genhash (env.objects objs file (env.kind objs file xs) xs)).multiple = []

/-- A library that is bad is reported and not changed, and only one that is scanned as a whole is replaced. -/
structure Env.LeavesAlone : Prop where
  reports : ∀ e, env.Happens objs file e →
    ∃ r, Runs genhash objs env file r ∧ e ∈ r.errors ∧ r.status = true ∧ r.file = file ∧ r.index = none
  copying : ∀ r, Runs genhash objs env file r → .copying ∈ r.errors → r.file = file ∧ r.index = none
  replaced : ∀ r, Runs genhash objs env file r → r.index ≠ none → env.Whole genhash objs file

def Trouble.silent : Trouble → Bool
  | .truncated | .size | .probe | .probeAgain => true
  | _ => false

def Env.Quiet : Prop := ∀ e, env.Happens objs file e → e.silent = false

/-- A step fails before the library is replaced. -/
def Env.Stumbles (kind : Option Nat) : Prop :=
  env.tmpfile = true ∨ env.malloc = true ∨ NFORMATS ≤ FORMAT kind ∨
    FORMAT kind ≠ ELF ∧ (env.fflush = true ∨ env.getstat = true ∨ env.tmpname = true ∨ env.create = true ∨
      env.copying = true ∨ env.rename = true)

def Env.Unfit (xs : List Turn) : Prop :=
  env.Mixed objs file (env.kind objs file xs) xs ∨
    ∀ ob ∈ env.objects objs file (env.kind objs file xs) xs, ∀ sym ∈ ob.syms, counted sym = false

/-- What has been read is not replaced, or it is all of a library without faults. -/
def Env.Settled (s : Nat) (xs : List Turn) (result : Bool) : Prop :=
  env.Stumbles (env.kind objs file xs) ∨
    result = true ∧ (env.Unfit objs file xs ∨
      ¬ env.Unread objs file (env.kind objs file xs) xs ∧
        (FORMAT (env.kind objs file xs) = ELF ∨
          s = firstMember file ∧
            (readObjects genhash (env.objects objs file (env.kind objs file xs) xs)).multiple = []))

def Env.Keeps : Prop :=
  env.Quiet objs file ∧ ∀ s xs result, env.Begins file s → Walk (env.turn file) (0, s) xs result →
    env.Settled genhash objs file s xs result

end Library

variable {genhash : Name → Nat} {objs : Objects} {env : Env} {file : Bytes}

theorem turn_visit {t next : Nat × Nat} {seen : Turn} (visits : env.turn file t = .visit seen next) :
    ∃ v p, Libmach.turn file t.2 = .visit v p ∧ seen = (t.1, v) ∧ next = (t.1 + 1, p) := by
  unfold Env.turn at visits
  split_ifs at visits
  cases plain : Libmach.turn file t.2 with
  | visit v p =>
    rw [plain] at visits
    injection visits with same moved
    exact ⟨v, p, rfl, same.symm, moved.symm⟩
  | stop result =>
    rw [plain] at visits
    cases visits

theorem number_nonneg {hdr : ArHdr} {n : Nat} (good : getnum hdr.ar_size 10 = some n) :
    0 ≤ Libmach.strtol (hdr.ar_size ++ ARFMAG) := by
  have characters : ∀ c ∈ hdr.ar_size, c ≠ 45 := by
    intro c member minus
    unfold getnum at good
    dsimp only at good
    split_ifs at good with blanks
    rw [← List.takeWhile_append_dropWhile (p := fun c : UInt8 => 48 ≤ c && c ≤ 57 && c.toNat - 48 < 10)
      (l := hdr.ar_size)] at member
    rw [minus] at member
    rcases List.mem_append.mp member with digit | blank
    · exact absurd (List.mem_takeWhile_imp digit) (by decide)
    · exact absurd (List.all_eq_true.mp blanks _ blank) (by decide)
  unfold Libmach.strtol
  split
  next rest minus =>
    exfalso
    have member : (45 : UInt8) ∈ hdr.ar_size ++ ARFMAG :=
      (List.dropWhile_sublist _).subset (minus ▸ List.mem_cons_self)
    rcases List.mem_append.mp member with inside | behind
    · exact characters 45 inside rfl
    · exact absurd behind (by decide)
  · exact Int.natCast_nonneg _
  · exact Int.natCast_nonneg _

theorem good_forward {pos next : Nat} {v : Visit} (good : ¬ BadSize file pos)
    (visits : Libmach.turn file pos = .visit v next) : file.length - next < file.length - pos := by
  unfold Libmach.turn Libmach.armember at visits
  cases header : fread file pos with
  | none =>
    rw [header] at visits
    cases visits
  | some hdr =>
    have inside : pos < file.length := by
      by_contra beyond
      unfold fread at header
      dsimp only at header
      rw [if_pos (by rw [List.length_drop]; unfold hdrsize; omega)] at header
      cases header
    rw [header] at visits
    dsimp only at visits
    split_ifs at visits with fmag empty
    · rw [not_not] at fmag
      rcases Option.ne_none_iff_exists'.mp fun none_ => good ⟨hdr, header, none_⟩ with ⟨n, number⟩
      have positive : 0 < Libmach.occupied hdr := by
        have siz := number_nonneg number
        rw [← fmag] at siz
        unfold Libmach.occupied at empty ⊢
        dsimp only at empty ⊢
        split_ifs at empty ⊢ <;> omega
      dsimp only at visits
      split_ifs at visits
      injection visits with _ moved
      unfold fseek hdrsize at moved
      rw [if_pos (by omega)] at moved
      omega

variable {s : Nat} {scan : Scan} {r : Result} {zero : Bool} {xs : List Turn}

theorem scan_stops (begins : env.Begins file s) (sizes : ¬ env.Happens objs file .size) :
    ∃ xs result, Walk (env.turn file) (0, s) xs result := by
  refine walk_of_path (fun t : Nat × Nat => file.length - t.2) (0, s) fun xs t seen next path stepped => ?_
  have good : ¬ BadSize file t.2 := fun bad =>
    sizes (.size begins path (by rw [stepped]; exact fun same => by cases same) bad)
  rcases turn_visit stepped with ⟨v, p, visits, -, rfl⟩
  exact good_forward good visits

theorem finish_not (scan : Scan) : env.finish file scan false = some ⟨file, scan.errors, none⟩ := by
  unfold Env.finish
  rfl

theorem finish_stumbles (file : Bytes) (stumbles : env.Stumbles scan.st.artype) :
    ∃ e, env.finish file scan true = some ⟨file, scan.errors ++ [e], none⟩ := by
  unfold Env.Stumbles at stumbles
  unfold Env.finish
  simp only [not_true_eq_false, if_false]
  by_cases early : env.tmpfile = true ∨ env.malloc = true ∨ NFORMATS ≤ FORMAT scan.st.artype
  · rw [if_pos early]
    exact ⟨_, rfl⟩
  · rw [if_neg early]
    rcases stumbles with first | second | third | ⟨other, late⟩
    · exact absurd (.inl first) early
    · exact absurd (.inr (.inl second)) early
    · exact absurd (.inr (.inr third)) early
    · rw [if_neg other]
      split_ifs
      · exact ⟨_, rfl⟩
      · exact ⟨_, rfl⟩
      · exact ⟨_, rfl⟩
      · exfalso
        tauto

theorem finish_goes (goes : ¬ env.Stumbles scan.st.artype) : env.finish file scan true =
      if FORMAT scan.st.artype = ELF then none
      else some ⟨merge env.prop (setindex scan.st.tab.head) file, scan.errors, some (setindex scan.st.tab.head)⟩ := by
  unfold Env.Stumbles at goes
  unfold Env.finish
  simp only [not_true_eq_false, if_false]
  rw [if_neg (by tauto)]
  by_cases elf : FORMAT scan.st.artype = ELF
  · rw [if_pos elf, if_pos elf]
  · rw [if_neg elf, if_neg elf, if_neg (by tauto), if_neg (by tauto), if_neg (by tauto)]

theorem finish_index (done : env.finish file scan zero = some r)
    (written : r.index ≠ none) : zero = true ∧ ¬ env.Stumbles scan.st.artype ∧ FORMAT scan.st.artype ≠ ELF ∧
      r = ⟨merge env.prop (setindex scan.st.tab.head) file, scan.errors, some (setindex scan.st.tab.head)⟩ := by
  cases zero with
  | false =>
    rw [finish_not] at done
    cases done
    exact absurd rfl written
  | true =>
    by_cases stumbles : env.Stumbles scan.st.artype
    · rcases finish_stumbles file stumbles with ⟨e, failed⟩
      rw [failed] at done
      cases done
      exact absurd rfl written
    · rw [finish_goes stumbles] at done
      split_ifs at done with elf
      exact ⟨rfl, stumbles, elf, (Option.some.inj done).symm⟩

theorem finish_file (done : env.finish file scan zero = some r)
    (unwritten : r.index = none) : r.file = file := by
  cases zero with
  | false =>
    rw [finish_not] at done
    cases done
    rfl
  | true =>
    by_cases stumbles : env.Stumbles scan.st.artype
    · rcases finish_stumbles file stumbles with ⟨e, failed⟩
      rw [failed] at done
      cases done
      rfl
    · rw [finish_goes stumbles] at done
      split_ifs at done
      cases done
      cases unwritten

theorem finish_errors (done : env.finish file scan zero = some r) :
    ∀ e ∈ r.errors, e ∈ scan.errors ∨ e = .other ∨ e = .copying := by
  unfold Env.finish at done
  dsimp only at done
  have added {last : Trouble} (told : last = .other ∨ last = .copying) :
      ∀ e ∈ scan.errors ++ [last], e ∈ scan.errors ∨ e = .other ∨ e = .copying := by
    intro e member
    rcases List.mem_append.mp member with before | here
    · exact .inl before
    · rw [List.mem_singleton.mp here]
      exact .inr told
  split_ifs at done
  · cases done
    exact added (.inl rfl)
  · cases done
    exact added (.inl rfl)
  · cases done
    exact added (.inr rfl)
  · cases done
    exact added (.inl rfl)
  · cases done
    exact fun e member => .inl member
  · cases done
    exact fun e member => .inl member

theorem begins_accepted (begins : env.Begins file s) : ¬ (env.first = true ∨ start file = none) := by
  rintro (fault | none_)
  · rw [begins.2.2.1] at fault
    cases fault
  · rw [begins.2.2.2] at none_
    cases none_

theorem readsyms_unique {scan scan' : Scan} {zero zero' : Bool} (read : env.Readsyms genhash objs file scan zero)
    (read' : env.Readsyms genhash objs file scan' zero') : scan = scan' ∧ zero = zero' := by
  have recognized {s : Nat} (begins : env.Begins file s) (no : env.archive file = false) : False :=
    Bool.false_ne_true (no.symm.trans begins.2.1)
  have same {s s' : Nat} {xs xs' : List Turn} {result result' : Bool} (begins : env.Begins file s)
      (begins' : env.Begins file s') (walk : Walk (env.turn file) (0, s) xs result)
      (walk' : Walk (env.turn file) (0, s') xs' result') : xs = xs' ∧ result = result' := by
    cases Option.some.inj (begins.2.2.2.symm.trans begins'.2.2.2)
    exact walk.unique walk'
  cases read with
  | unrecognized no =>
    cases read' with
    | unrecognized => exact ⟨rfl, rfl⟩
    | refused yes => exact absurd (no.symm.trans yes) Bool.false_ne_true
    | corrupted begins => exact (recognized begins no).elim
    | ended begins => exact (recognized begins no).elim
  | refused yes corrupted =>
    cases read' with
    | unrecognized no => exact absurd (no.symm.trans yes) Bool.false_ne_true
    | refused => exact ⟨rfl, rfl⟩
    | corrupted begins => exact (begins_accepted begins corrupted).elim
    | ended begins => exact (begins_accepted begins corrupted).elim
  | corrupted begins walk =>
    cases read' with
    | unrecognized no => exact (recognized begins no).elim
    | refused _ corrupted => exact (begins_accepted begins corrupted).elim
    | corrupted begins' walk' =>
      cases (same begins begins' walk walk').1
      exact ⟨rfl, rfl⟩
    | ended begins' walk' => cases (same begins begins' walk walk').2
  | ended begins walk =>
    cases read' with
    | unrecognized no => exact (recognized begins no).elim
    | refused _ corrupted => exact (begins_accepted begins corrupted).elim
    | corrupted begins' walk' => cases (same begins begins' walk walk').2
    | ended begins' walk' =>
      cases (same begins begins' walk walk').1
      exact ⟨rfl, rfl⟩

theorem runs_iff (opened : env.fopen = false) (read : env.Readsyms genhash objs file scan zero) :
    Runs genhash objs env file r ↔ env.finish file scan zero = some r := by
  constructor
  · intro run
    cases run with
    | unopened no =>
      rw [opened] at no
      cases no
    | run _ read' done =>
      rcases readsyms_unique read read' with ⟨rfl, rfl⟩
      exact done
  · exact .run opened read

theorem readsyms_errors (read : env.Readsyms genhash objs file scan zero) :
    ∀ e ∈ scan.errors, e.silent = false ∧ e ≠ .copying := by
  have told (xs : List Turn) : ∀ e ∈ (env.scan genhash objs file xs).errors, e.silent = false ∧ e ≠ .copying := by
    intro e member
    rcases scan_only xs e member with rfl | rfl <;> decide
  cases read with
  | unrecognized => decide
  | refused => decide
  | corrupted _ _ =>
    intro e member
    rcases List.mem_append.mp member with before | here
    · exact told _ e before
    · rw [List.mem_singleton.mp here]
      decide
  | ended _ _ => exact told _

theorem runs_errors (run : Runs genhash objs env file r) : ∀ e ∈ r.errors, e.silent = false := by
  intro e member
  cases run with
  | unopened =>
    rw [List.mem_singleton.mp member]
    rfl
  | run _ read done =>
    rcases finish_errors done e member with inside | rfl | rfl
    · exact (readsyms_errors read e inside).1
    · rfl
    · rfl

theorem stumbles_of_runs (opened : env.fopen = false)
    (read : env.Readsyms genhash objs file scan true) (run : Runs genhash objs env file r) (unwritten : r.index = none) :
    env.Stumbles scan.st.artype := by
  by_contra goes
  have done := (runs_iff opened read).mp run
  rw [finish_goes goes] at done
  split_ifs at done
  cases done
  cases unwritten

theorem quiet_calm {result : Bool} (quiet : env.Quiet objs file) (begins : env.Begins file s)
    (walk : Walk (env.turn file) (0, s) xs result) :
    ∀ x ∈ xs, env.format objs file x ≠ none → (env.turns x.1).probeAgain = false := by
  intro x member object
  rcases walk.last with ⟨t, path, -⟩
  rw [Bool.eq_false_iff]
  intro fault
  cases quiet _ (.probeAgain begins path member object fault)

theorem zero_iff (calm : ∀ x ∈ xs, env.format objs file x ≠ none → (env.turns x.1).probeAgain = false) :
    (!((env.scan genhash objs file xs).st.nolib || (env.scan genhash objs file xs).st.tab.head.isEmpty)) = true ↔
      ¬ env.Unfit objs file xs := by
  have known := scanned genhash calm
  unfold Env.Unfit
  rw [Bool.not_eq_true', Bool.or_eq_false_iff, not_or, ← known.nolib, Bool.not_eq_true, 
    ← readObjects_nil genhash, ← known.tab, List.isEmpty_eq_false_iff]

theorem unread_longer (rest : List Turn) (unread : env.Unread objs file (env.kind objs file xs) xs) :
    env.Unread objs file (env.kind objs file (xs ++ rest)) (xs ++ rest) := by
  rcases unread with ⟨x, member, t, kind, format, bad⟩
  refine ⟨x, List.mem_append_left _ member, t, ?_, format, bad⟩
  unfold Env.kind at kind ⊢
  rw [List.filterMap_append, List.head?_append, kind]
  rfl

theorem formatless_stumbles : env.Stumbles State.init.artype := .inr (.inr (.inl (by decide)))

theorem alone_quiet (alone : env.LeavesAlone genhash objs file) : env.Quiet objs file := by
  intro e happens
  rcases alone.reports e happens with ⟨r, run, member, -⟩
  exact runs_errors run e member

theorem alone_settled (alone : env.LeavesAlone genhash objs file) {result : Bool}
    (begins : env.Begins file s) (walk : Walk (env.turn file) (0, s) xs result) :
    env.Settled genhash objs file s xs result := by
  have quiet := alone_quiet alone
  have calm := quiet_calm quiet begins walk
  have known := scanned genhash calm
  have stopped {scan : Scan} {e : Trouble} (read : env.Readsyms genhash objs file scan true)
      (happens : env.Happens objs file e) : env.Stumbles scan.st.artype := by
    rcases alone.reports e happens with ⟨r, run, -, -, -, unwritten⟩
    exact stumbles_of_runs begins.1 read run unwritten
  rcases walk.last with ⟨t, path, last⟩
  cases result with
  | false =>
    left
    rw [← known.artype]
    have stumbles := stopped (.corrupted begins walk) (.refused begins path last)
    exact stumbles
  | true =>
    by_cases unfit : env.Unfit objs file xs
    · exact .inr ⟨rfl, .inl unfit⟩
    have read : env.Readsyms genhash objs file _ _ := .ended begins walk
    rw [(zero_iff calm).mpr unfit] at read
    by_cases unread : env.Unread objs file (env.kind objs file xs) xs
    · left
      rw [← known.artype]
      exact stopped read (.unread begins path unread)
    by_cases stumbles : env.Stumbles (env.kind objs file xs)
    · exact .inl stumbles
    refine .inr ⟨rfl, .inr ⟨unread, ?_⟩⟩
    by_cases elf : FORMAT (env.kind objs file xs) = ELF
    · exact .inl elf
    right
    rw [← known.artype] at stumbles elf
    have run := (runs_iff begins.1 read).mpr ((finish_goes stumbles).trans (if_neg elf))
    rcases (alone.replaced _ run (Option.some_ne_none _)).scanned with ⟨xs', begins', walk', silent⟩
    have same : s = firstMember file := Option.some.inj (begins.2.2.2.symm.trans begins'.2.2.2)
    rw [← same] at walk'
    rw [(walk.unique walk').1]
    exact ⟨same, silent⟩

theorem stopped_reports {e : Trouble} (opened : env.fopen = false)
    (read : env.Readsyms genhash objs file scan true) (told : e ∈ scan.errors)
    (stumbles : env.Stumbles scan.st.artype) :
    ∃ r, Runs genhash objs env file r ∧ e ∈ r.errors ∧ r.status = true ∧ r.file = file ∧ r.index = none := by
  rcases finish_stumbles file stumbles with ⟨last, done⟩
  refine ⟨_, .run opened read done, List.mem_append_left _ told, ?_, rfl, rfl⟩
  unfold Result.status
  simp

theorem corrupted_stumbles (keeps : env.Keeps genhash objs file) (begins : env.Begins file s)
    (walk : Walk (env.turn file) (0, s) xs false) : env.Stumbles (env.scan genhash objs file xs).st.artype := by
  rw [(scanned genhash (quiet_calm keeps.1 begins walk)).artype]
  rcases keeps.2 s xs false begins walk with stumbles | ⟨impossible, -⟩
  · exact stumbles
  · cases impossible

theorem keeps_reports (keeps : env.Keeps genhash objs file) {e : Trouble} (happens : env.Happens objs file e) :
    ∃ r, Runs genhash objs env file r ∧ e ∈ r.errors ∧ r.status = true ∧ r.file = file ∧ r.index = none := by
  have quiet := keeps.1
  have noise := quiet e happens
  cases happens with
  | unopened no => exact ⟨_, .unopened no, List.mem_cons_self, rfl, rfl, rfl⟩
  | unrecognized opened no => exact stopped_reports opened (.unrecognized no) List.mem_cons_self formatless_stumbles
  | first opened yes corrupted =>
    exact stopped_reports opened (.refused yes corrupted) List.mem_cons_self formatless_stumbles
  | refused begins path stopped =>
    have walk := path.walk (.stop stopped)
    rw [List.append_nil] at walk
    have stumbles := corrupted_stumbles keeps begins walk
    exact stopped_reports begins.1 (.corrupted begins walk) (List.mem_append_right _ List.mem_cons_self) stumbles
  | truncated => cases noise
  | firstSize => cases noise
  | size => cases noise
  | probe => cases noise
  | probeAgain => cases noise
  | @unread s xs t begins path unread =>
    rcases scan_stops begins (fun size => by cases quiet _ size) with ⟨all, result, walk⟩
    rcases walk.after path with ⟨rest, rfl, -⟩
    have calm := quiet_calm quiet begins walk
    have known := scanned genhash calm
    have unread := unread_longer rest unread
    have told := known.unread.mpr unread
    cases result with
    | false =>
      have stumbles := corrupted_stumbles keeps begins walk
      exact stopped_reports begins.1 (.corrupted begins walk) (List.mem_append_left _ told) stumbles
    | true =>
      have read : env.Readsyms genhash objs file _ _ := .ended begins walk
      by_cases unfit : env.Unfit objs file (xs ++ rest)
      · rw [Bool.eq_false_iff.mpr fun zero => (zero_iff calm).mp zero unfit] at read
        refine ⟨_, .run begins.1 read (finish_not _), told, ?_, rfl, rfl⟩
        unfold Result.status
        simp [List.ne_nil_of_mem told]
      · rw [(zero_iff calm).mpr unfit] at read
        rcases keeps.2 _ _ _ begins walk with stumbles | ⟨-, unfit' | ⟨fine, -⟩⟩
        · rw [← known.artype] at stumbles
          exact stopped_reports begins.1 read told stumbles
        · exact absurd unfit' unfit
        · exact absurd unread fine

theorem copying_unchanged (run : Runs genhash objs env file r) (member : .copying ∈ r.errors) :
    r.file = file ∧ r.index = none := by
  cases run with
  | unopened => exact ⟨rfl, rfl⟩
  | run opened read done =>
    have unwritten : r.index = none := by
      by_contra written
      rcases finish_index done written with ⟨-, -, -, rfl⟩
      exact (readsyms_errors read _ member).2 rfl
    exact ⟨finish_file done unwritten, unwritten⟩

theorem ended_calm (quiet : env.Quiet objs file) (begins : env.Begins file s)
    (walk : Walk (env.turn file) (0, s) xs true) (read : ¬ env.Unread objs file (env.kind objs file xs) xs)
    (e : Trouble) : ¬ env.Happens objs file e := by
  intro happens
  have noise := quiet e happens
  cases happens with
  | unopened no => exact absurd (begins.1.symm.trans no) Bool.false_ne_true
  | unrecognized _ no => exact absurd (no.symm.trans begins.2.1) Bool.false_ne_true
  | first _ _ corrupted => exact begins_accepted begins corrupted
  | refused begins' path stopped =>
    cases Option.some.inj (begins.2.2.2.symm.trans begins'.2.2.2)
    cases (walk.unique (path.walk (.stop stopped))).2
  | truncated => cases noise
  | firstSize => cases noise
  | size => cases noise
  | probe => cases noise
  | probeAgain => cases noise
  | unread begins' path bad =>
    cases Option.some.inj (begins.2.2.2.symm.trans begins'.2.2.2)
    rcases walk.after path with ⟨rest, rfl, -⟩
    exact read (unread_longer rest bad)

theorem keeps_whole (keeps : env.Keeps genhash objs file) (run : Runs genhash objs env file r)
    (written : r.index ≠ none) : env.Whole genhash objs file := by
  cases run with
  | unopened => exact absurd rfl written
  | run opened read done =>
    rcases finish_index done written with ⟨zero, goes, coff, -⟩
    cases read with
    | unrecognized => exact absurd formatless_stumbles goes
    | refused => exact absurd formatless_stumbles goes
    | corrupted begins walk =>
      exact absurd (corrupted_stumbles keeps begins walk) goes
    | @ended s xs begins walk =>
      have calm := quiet_calm keeps.1 begins walk
      have known := scanned genhash calm
      rw [known.artype] at goes coff
      rcases keeps.2 _ _ _ begins walk with stumbles | ⟨-, unfit | ⟨unread, elf | ⟨same, silent⟩⟩⟩
      · exact absurd stumbles goes
      · exact absurd unfit ((zero_iff calm).mp zero)
      · exact absurd elf coff
      constructor
      case calm => exact ended_calm keeps.1 begins walk unread
      case copied =>
        rw [Bool.eq_false_iff]
        intro fault
        exact goes (.inr (.inr (.inr ⟨coff, .inr (.inr (.inr (.inr (.inl fault))))⟩)))
      case scanned =>
        rw [← same]
        exact ⟨xs, begins, walk, silent⟩

/-- scc-ranlib leaves a bad library alone, exactly if nothing goes wrong silently and what has been read
is not written anyway. -/
theorem leaves_alone_iff (genhash : Name → Nat) (objs : Objects) (env : Env) (file : Bytes) :
    env.LeavesAlone genhash objs file ↔ env.Keeps genhash objs file := by
  constructor
  · intro alone
    exact ⟨alone_quiet alone, fun _ _ _ => alone_settled alone⟩
  · intro keeps
    constructor
    case reports => exact fun _ => keeps_reports keeps
    case copying => exact fun _ => copying_unchanged
    case replaced => exact fun _ => keeps_whole keeps

/-- A library whose second member has sixty blanks in place of a header. -/
def blankHeader : Bytes := oneMember ++ List.replicate 60 32

set_option maxRecDepth 2000 in
/-- It is replaced although scc-ranlib says that it is corrupted. -/
theorem corrupted_replaced : ¬ ∀ (genhash : Name → Nat) (objs : Objects) (env : Env) (file : Bytes),
    env.LeavesAlone genhash objs file := by
  intro all
  let env := Env.calm ⟨0, 0, 0, 0⟩
  let objs := someObjects [⟨['f'], 'T'⟩]
  have begins : env.Begins blankHeader SARMAG := ⟨rfl, by decide, rfl, by decide⟩
  have first : env.turn blankHeader (0, SARMAG) = .visit (0, ⟨[97], 8, 2⟩) (1, 70) := rfl
  have last : env.turn blankHeader (1, 70) = .stop false := rfl
  have walk : Walk (env.turn blankHeader) (0, SARMAG) [(0, ⟨[97], 8, 2⟩)] false := .visit first (.stop last)
  have happens : env.Happens objs blankHeader .refused := .refused begins (.next first (.here _)) last
  rcases (all (fun _ => 0) objs env blankHeader).reports _ happens with ⟨r, run, -, -, -, unwritten⟩
  have stumbles := stumbles_of_runs rfl (.corrupted begins walk) run unwritten
  exact absurd stumbles (by unfold Env.Stumbles; decide)

end Scc.Ranlib
