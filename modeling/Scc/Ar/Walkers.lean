import Scc.Lib.Walk
import Scc.Ar.Header

/-!
# Two ways through an archive

The loop around `armember()` and the loop of scc-ar visit the members of an archive. Both
see the same if and only if every header on the way says the same to both of them.
-/

namespace Scc.Ar

open Scc.Lib

set_option autoImplicit false

/-- A member that is visited: its name, where its header is, and how many bytes follow that. -/
structure Visit where
  name : Bytes
  pos : Nat
  size : Int
deriving DecidableEq

/-- `fseek()`, which does nothing when the place is before the beginning of the file. -/
def fseek (pos : Nat) (off : Int) : Nat := if 0 ≤ pos + off then (pos + off).toNat else pos

/-- One turn of a loop around `armember()`. The result tells whether the end of the file is met. -/
def Libmach.turn (file : Bytes) (pos : Nat) : Step Nat Visit Bool :=
  match armember file pos with
  | .eof => .stop true
  | .error => .stop false
  | .member name off =>
    if off = 0 then .stop true
    else if off = -1 then .stop false
    else .visit ⟨name, pos, off - hdrsize⟩ (fseek pos off)

/-- One turn of `run()`. -/
def turn (file : Bytes) (pos : Nat) : Step Nat Visit Bool :=
  match fread file pos with
  | none => .stop true
  | some hdr =>
    match valid hdr with
    | none => .stop false
    | some m => .visit ⟨m.fname, pos, even m.size⟩ (pos + hdrsize + even m.size)

/-- Both loops come to an end, the same one, and visit the same members. -/
def Agree (file : Bytes) : Prop :=
  ∃ visits result, Walk (turn file) SARMAG visits result ∧ Walk (Libmach.turn file) SARMAG visits result

/-- A header that says the same to both readers: a name and the same size other than zero, or
that it is no header. -/
def Alike (hdr : ArHdr) : Prop :=
  match valid hdr with
  | none => hdr.ar_fmag ≠ ARFMAG ∨ Libmach.occupied hdr = 0
  | some m => m.size ≠ 0 ∧ Libmach.occupied hdr = even m.size ∧ Libmach.getfname hdr = m.fname

theorem even_eq_zero {size : Nat} : even size = 0 ↔ size = 0 := by
  unfold even
  omega

theorem valid_fmag {hdr : ArHdr} {m : Member} (good : valid hdr = some m) : hdr.ar_fmag = ARFMAG := by
  rcases Option.bind_eq_some_iff.mp good with ⟨size, _, good⟩
  rcases Option.bind_eq_some_iff.mp good with ⟨mode, _, good⟩
  rcases Option.bind_eq_some_iff.mp good with ⟨date, _, good⟩
  by_contra other
  rw [if_pos other] at good
  cases good

theorem turn_same_iff (file : Bytes) (pos : Nat) :
    Libmach.turn file pos = turn file pos ↔ ∀ hdr, fread file pos = some hdr → Alike hdr := by
  unfold Libmach.turn turn Libmach.armember
  cases header : fread file pos with
  | none => simp
  | some hdr =>
    simp only [Option.some.injEq, forall_eq']
    unfold Alike
    cases good : valid hdr with
    | none =>
      by_cases fmag : hdr.ar_fmag ≠ ARFMAG
      · simp [fmag]
      · rw [if_neg fmag]
        by_cases empty : Libmach.occupied hdr = 0
        · simp [empty]
        · rw [if_neg empty]
          dsimp only
          simp only [fmag, empty, or_self, iff_false]
          split_ifs with back impossible
          · intro same
            cases same
          · -- an even number is never sixty-one below zero
            exfalso
            have parity : Libmach.occupied hdr % 2 = 0 := by
              unfold Libmach.occupied
              dsimp only
              split_ifs <;> omega
            unfold hdrsize at impossible
            omega
          · intro same
            cases same
    | some m =>
      rw [if_neg (not_not.mpr (valid_fmag good))]
      by_cases empty : Libmach.occupied hdr = 0
      · rw [if_pos empty]
        constructor
        · intro same
          cases same
        · rintro ⟨some_, same, _⟩
          rw [empty] at same
          exact absurd (even_eq_zero.mp (by omega)) some_
      · rw [if_neg empty]
        dsimp only
        unfold hdrsize
        constructor
        · intro same
          split_ifs at same
          injection same with seen _
          injection seen with name _ size
          have same : Libmach.occupied hdr = even m.size := by omega
          refine ⟨fun none_ => empty ?_, same, name⟩
          rw [same, even_eq_zero.mpr none_]
          rfl
        · rintro ⟨_, same, name⟩
          rw [if_neg (by omega), if_neg (by omega), name]
          congr 1
          · congr 1
            omega
          · unfold fseek
            rw [if_pos (by omega)]
            omega

variable {file : Bytes} {next pos : Nat} {seen : Visit}

theorem turn_forward
    (visits : turn file pos = .visit seen next) : file.length - next < file.length - pos := by
  unfold turn at visits
  cases header : fread file pos with
  | none =>
    rw [header] at visits
    cases visits
  | some hdr =>
    rw [header] at visits
    have inside : hdrsize ≤ (file.drop pos).length := by
      by_contra short
      unfold fread at header
      dsimp only at header
      rw [if_pos (by omega)] at header
      cases header
    rw [List.length_drop] at inside
    dsimp only at visits
    cases good : valid hdr with
    | none =>
      rw [good] at visits
      cases visits
    | some m =>
      rw [good] at visits
      injection visits with _ moved
      unfold hdrsize at inside moved
      omega

theorem turn_stops (file : Bytes) (pos : Nat) : ∃ visits result, Walk (turn file) pos visits result :=
  walk_of_decreasing (fun p => file.length - p) (fun _ _ _ => turn_forward) pos

theorem turn_next (visits : turn file pos = .visit seen next) :
    (next : Int) = seen.pos + hdrsize + seen.size := by
  unfold turn at visits
  split at visits
  · cases visits
  · split at visits
    · cases visits
    · injection visits with same moved
      rw [← same, ← moved]
      dsimp only
      omega

theorem Libmach.turn_next
    (visits : Libmach.turn file pos = .visit seen next) : next = fseek seen.pos (seen.size + hdrsize) := by
  unfold Libmach.turn at visits
  split at visits
  · cases visits
  · cases visits
  · split_ifs at visits
    injection visits with same moved
    rw [← same, ← moved]
    dsimp only
    rw [Int.sub_add_cancel]

theorem same_turns {visits : List Visit} {result : Bool}
    (walk : Walk (turn file) pos visits result) (same : Walk (Libmach.turn file) pos visits result) :
    ∀ p, Reached (turn file) pos p → Libmach.turn file p = turn file p := by
  induction walk with
  | stop stopped =>
    intro p reached
    cases same with
    | stop stopped' =>
      cases reached with
      | here => exact stopped'.trans stopped.symm
      | next stepped _ =>
        rw [stopped] at stepped
        cases stepped
  | @visit s next seen visits result stepped rest ih =>
    intro p reached
    cases same with
    | @visit _ next' _ _ _ stepped' rest' =>
      -- what is visited tells where the walk goes on
      have sameNext : next' = next := by
        have moved := turn_next stepped
        rw [Libmach.turn_next stepped', fseek, if_pos (by omega)]
        omega
      subst sameNext
      cases reached with
      | here => exact stepped'.trans stepped.symm
      | next stepped'' reached =>
        rw [stepped] at stepped''
        cases stepped''
        exact ih rest' p reached

/-- The loops agree if and only if every header that scc-ar comes to is read alike. -/
theorem walkers_agree_iff (file : Bytes) : Agree file ↔
    ∀ pos hdr, Reached (turn file) SARMAG pos → fread file pos = some hdr → Alike hdr := by
  constructor
  · rintro ⟨visits, result, walk, walk'⟩ pos hdr reached header
    exact (turn_same_iff file pos).mp (same_turns walk walk' pos reached) hdr header
  · intro alike
    rcases turn_stops file SARMAG with ⟨visits, result, walk⟩
    refine ⟨visits, result, walk, walk.follow fun pos reached => ?_⟩
    exact (turn_same_iff file pos).mpr fun hdr header => alike pos hdr reached header

def emptyMember : Bytes :=
  ARMAG ++ ([97, 32, 32, 32, 32, 32, 32, 32, 32, 32, 32, 32, 32, 32, 32, 32] ++
    [48, 32, 32, 32, 32, 32, 32, 32, 32, 32, 32, 32] ++ [48, 32, 32, 32, 32, 32] ++
    [48, 32, 32, 32, 32, 32] ++ [54, 52, 52, 32, 32, 32, 32, 32] ++
    [48, 32, 32, 32, 32, 32, 32, 32, 32, 32] ++ ARFMAG)

/-- scc-ar goes past an empty member, and for libmach it is an error. -/
theorem empty_member_refused : ¬ ∀ file : Bytes, file.take SARMAG = ARMAG → Agree file := by
  intro all
  rcases all emptyMember (by decide) with ⟨visits, result, walk, walk'⟩
  have same := same_turns walk walk' SARMAG (.here _)
  have refused : Libmach.turn emptyMember SARMAG = .stop false := rfl
  have visited : turn emptyMember SARMAG = .visit ⟨[97], 8, 0⟩ 68 := rfl
  rw [refused, visited] at same
  cases same

end Scc.Ar
