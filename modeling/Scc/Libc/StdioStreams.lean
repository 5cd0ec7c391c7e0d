import Scc.Libc.StdioRefine

/-!
# Runs of streams

The steps are put together for every sequence of calls on a stream that was opened and perhaps given
a buffer. Streams that are only read need the condition of fewer calls.
-/

namespace Scc.Libc.Stdio

set_option autoImplicit false

variable {a : Logical} {s : State} {r : Int × FILE} {call : Call}

theorem call_spec (inv : Inv s a) (call : Call) (legal : Legal s call) (meets : Meets s call) :
    ∃ r, s.fp.call call = some r ∧ r.1 = (a.call call).1 ∧ Inv (s.after call r) (a.call call).2 := by
  cases call with
  | getc short => exact getc_spec inv short legal
  | ungetc c => exact ungetc_spec inv c meets
  | putc ch => exact putc_spec inv ch legal meets
  | fflush => exact fflush_spec inv meets
  | fseek off whence => exact fseek_spec inv off whence meets
  | ftell => exact ftell_spec inv meets

/-- The results of calls and the state after them, unless something outside of the buffer is used. -/
def State.run (s : State) : List Call → Option (List Int × State)
  | [] => some ([], s)
  | call :: calls =>
    (s.fp.call call).bind fun r => ((s.after call r).run calls).map fun rest => (r.1 :: rest.1, rest.2)

def Logical.run (a : Logical) : List Call → List Int × Logical
  | [] => ([], a)
  | call :: calls => ((a.call call).1 :: ((a.call call).2.run calls).1, ((a.call call).2.run calls).2)

/-- Every call of a run meets a condition in the state in which it is made. -/
def Along (condition : State → Call → Prop) (s : State) : List Call → Prop
  | [] => True
  | call :: calls => condition s call ∧ match s.fp.call call with
    | some r => Along condition (s.after call r) calls
    | none => True

instance decidableAlong (condition : State → Call → Prop) [decide : ∀ s call, Decidable (condition s call)] :
    ∀ (s : State) (calls : List Call), Decidable (Along condition s calls)
  | _, [] => isTrue trivial
  | s, call :: calls =>
    have : Decidable (match s.fp.call call with
        | some r => Along condition (s.after call r) calls
        | none => True) :=
      match s.fp.call call with
      | some r => decidableAlong condition (s.after call r) calls
      | none => isTrue trivial
    inferInstanceAs (Decidable (_ ∧ _))

theorem run_spec (inv : Inv s a) (calls : List Call)
    (along : Along (fun s call => Legal s call ∧ Meets s call) s calls) :
    ∃ s', s.run calls = some ((a.run calls).1, s') ∧ Inv s' (a.run calls).2 := by
  induction calls generalizing s a with
  | nil => exact ⟨s, rfl, inv⟩
  | cons call calls ih =>
    rcases call_spec inv call along.1.1 along.1.2 with ⟨r, made, result, inv'⟩
    have later := along.2
    rw [made] at later
    rcases ih inv' later with ⟨s', rest, inv''⟩
    refine ⟨s', ?_, inv''⟩
    rw [State.run, made, Option.bind_some, rest, Option.map_some, result, Logical.run]

/-- A stream that was just opened, after a call of `setvbuf()` or not. -/
def State.start (access : Access) (kernel : Kernel) (buffering : Option (Option (List UInt8) × Mode)) : State :=
  { fp := match buffering with
      | none => fpopen access kernel
      | some (buf, mode) => (fpopen access kernel).setvbuf buf mode
    dir := .unknown
    filled := false }

/-- The buffer given to `setvbuf()` has room for a byte. -/
def Sized : Option (Option (List UInt8) × Mode) → Prop
  | some (some buf, mode) => mode = .IONBF ∨ 0 < buf.length
  | _ => True

theorem start_inv (access : Access) (kernel : Kernel) (buffering : Option (Option (List UInt8) × Mode))
    (sized : Sized buffering) : Inv (.start access kernel buffering) { kernel, pushed := none } := by
  have flags : (State.start access kernel buffering).fp.flags.IOREAD = decide (access = .O_RDONLY) ∧
      (State.start access kernel buffering).fp.flags.IOWRITE = decide (access = .O_WRONLY) ∧
      (State.start access kernel buffering).fp.flags.IORW = decide (access = .O_RDWR) ∧
      (State.start access kernel buffering).fp.flags.IOEOF = false ∧
      (State.start access kernel buffering).fp.flags.IOERR = false ∧
      (State.start access kernel buffering).fp.wp = 0 ∧ (State.start access kernel buffering).fp.rp = 0 ∧
      (State.start access kernel buffering).fp.kernel = kernel := by
    cases buffering with
    | none => cases access <;> exact ⟨rfl, rfl, rfl, rfl, rfl, rfl, rfl, rfl⟩
    | some given =>
      cases given with
      | mk buf mode => cases access <;> exact ⟨rfl, rfl, rfl, rfl, rfl, rfl, rfl, rfl⟩
  have ⟨read, write, both, eof, err, wp, rp, kern⟩ := flags
  have shape : (∀ mem, (State.start access kernel buffering).fp.buf = some mem → 0 < mem.length ∧
      (State.start access kernel buffering).fp.lp = mem.length) ∧
      ((State.start access kernel buffering).fp.buf = none → (State.start access kernel buffering).fp.lp = 0) := by
    cases buffering with
    | none => exact ⟨nofun, fun _ => rfl⟩
    | some given =>
      rcases given with ⟨buf, mode⟩
      cases buf with
      | none =>
        cases mode with
        | IONBF => cases access <;> exact ⟨fun mem is => by cases is; exact ⟨Nat.one_pos, rfl⟩, nofun⟩
        | IOFBF => cases access <;> exact ⟨nofun, fun _ => rfl⟩
        | IOLBF => cases access <;> exact ⟨nofun, fun _ => rfl⟩
      | some buf =>
        cases mode with
        | IONBF => cases access <;> exact ⟨fun mem is => by cases is; exact ⟨Nat.one_pos, rfl⟩, nofun⟩
        | IOFBF =>
          have room := sized.resolve_left nofun
          cases access <;> exact ⟨fun mem is => by cases is; exact ⟨room, rfl⟩, nofun⟩
        | IOLBF =>
          have room := sized.resolve_left nofun
          cases access <;> exact ⟨fun mem is => by cases is; exact ⟨room, rfl⟩, nofun⟩
  generalize start : State.start access kernel buffering = s at *
  have dir : s.dir = .unknown := by rw [← start]; rfl
  have filled : s.filled = false := by rw [← start]; rfl
  refine ⟨err, rfl, ?_, ?_, ?_, ?_, ?_, ?_, ?_, ?_⟩
  · intro mem is
    exact ⟨(shape.1 mem is).1, (shape.1 mem is).2, by omega⟩
  · exact fun none_ => ⟨rp, wp, shape.2 none_⟩
  · rw [eof]
    nofun
  · rw [read, filled]
    intro either
    have only : access = .O_RDONLY := by simpa using either
    refine ⟨by rw [kern], by rw [kern], by omega, ?_, ?_, ?_, fun _ => rp.trans wp.symm⟩
    · rw [kern, wp, rp]
      rfl
    · intro i _ below
      omega
    · rw [write, only]
      rfl
  · intro _ _
    refine ⟨?_, .inl rp, fun _ => wp, fun _ _ => wp⟩
    rw [kern, wp, List.take_zero]
    rfl
  · rw [both, write]
    intro update only
    rw [of_decide_eq_true update] at only
    cases only
  · rw [both, read]
    intro update only
    rw [of_decide_eq_true update] at only
    cases only
  · rw [write, read, both]
    cases access <;> rfl

/-- When a call on a stream that is only read does what it should: nothing is pushed back, and it is
positioned only when all that was read into the buffer has been taken, or to no place in the file. -/
def ReadMeets (s : State) : Call → Prop
  | .getc _ => True
  | .ungetc c => c = EOF
  | .fseek off whence =>
    s.fp.rp = s.fp.wp ∨ s.fp.kernel.lseek
      (if whence = .SEEK_CUR then off - ((s.fp.wp : Int) - s.fp.rp) else off) whence = none
  | .ftell => True
  | .putc _ => False
  | .fflush => False

instance (s : State) (call : Call) : Decidable (ReadMeets s call) :=
  match call with
  | .getc _ => isTrue trivial
  | .ungetc c => inferInstanceAs (Decidable (c = EOF))
  | .fseek _ _ => inferInstanceAs (Decidable (_ ∨ _))
  | .ftell => isTrue trivial
  | .putc _ => isFalse not_false
  | .fflush => isFalse not_false

/-- A stream that was opened for reading and not written. -/
structure ReadOnly (s : State) : Prop where
  dir : s.dir ≠ .writing
  readable : s.fp.flags.IOREAD = true ∨ s.fp.flags.IORW = true

theorem not_written (inv : Inv s a) (only : ReadOnly s) : s.fp.flags.IOWRITE = false := by
  cases only.readable with
  | inl read => exact (inv.unread (.inl read)).not_writing
  | inr both => exact Bool.eq_false_iff.mpr fun write => only.dir (inv.writing both write)

theorem flsbuf_flags (fp : FILE) : fp.flsbuf.flags = fp.flags := by
  unfold FILE.flsbuf
  split_ifs <;> rfl

theorem allocbuf_flags (fp : FILE) : fp.allocbuf.flags = fp.flags := by
  unfold FILE.allocbuf
  split_ifs <;> rfl

theorem load_flags {fp : FILE} (made : fp.load = some r) : r.2.flags = fp.flags := by
  rcases Option.map_eq_some_iff.mp made with ⟨c, _, rfl⟩
  rfl

theorem seek_readable {flags : Flags} (readable : flags.IOREAD = true ∨ flags.IORW = true) :
    (if flags.IORW then { flags with IOREAD := false, IOWRITE := false } else flags : Flags).IOREAD = true ∨
      (if flags.IORW then { flags with IOREAD := false, IOWRITE := false } else flags : Flags).IORW = true := by
  by_cases both : flags.IORW = true
  · rw [if_pos both]
    exact .inr both
  · rw [if_neg both]
    exact readable

theorem readable_kept {fp : FILE} (made : fp.call call = some r)
    (reads : ∀ ch, call ≠ .putc ch) (readable : fp.flags.IOREAD = true ∨ fp.flags.IORW = true) :
    r.2.flags.IOREAD = true ∨ r.2.flags.IORW = true := by
  cases call with
  | putc ch => exact absurd rfl (reads ch)
  | ftell =>
    change fp.ftell = some r at made
    unfold FILE.ftell at made
    dsimp only at made
    split_ifs at made <;> cases made <;> exact readable
  | fflush =>
    cases made
    change fp.flsbuf.flags.IOREAD = true ∨ fp.flsbuf.flags.IORW = true
    rw [flsbuf_flags]
    exact readable
  | ungetc c =>
    change fp.ungetc c = some r at made
    unfold FILE.ungetc at made
    split_ifs at made <;> cases made <;> exact readable
  | fseek off whence =>
    change fp.fseek off whence = some r at made
    unfold FILE.fseek at made
    have still : (if fp.flags.IOWRITE then fp.flsbuf else fp).flags = fp.flags := by
      split_ifs
      · exact flsbuf_flags fp
      · rfl
    generalize (if fp.flags.IOWRITE then fp.flsbuf else fp) = fp' at *
    by_cases err : fp.flags.IOERR = true
    · rw [if_pos err] at made
      cases made
      exact readable
    · rw [if_neg err] at made
      dsimp only at made
      rw [← still] at readable
      generalize fp'.kernel.lseek _ whence = moved at made
      cases moved with
      | none =>
        cases made
        exact readable
      | some kernel =>
        cases made
        exact seek_readable readable
  | getc short =>
    change fp.getc short = some r at made
    unfold FILE.getc at made
    split_ifs at made with empty
    · unfold FILE.getcFill at made
      dsimp only at made
      split_ifs at made
      · cases made
        exact readable
      · cases made
        exact readable
      · cases made
        change fp.allocbuf.flags.IOREAD = true ∨ fp.allocbuf.flags.IORW = true
        rw [allocbuf_flags]
        exact readable
      · rw [load_flags made]
        exact .inl rfl
    · rw [load_flags made]
      exact readable

theorem reads_meet (inv : Inv s a) (only : ReadOnly s) (meets : ReadMeets s call) :
    Legal s call ∧ Meets s call := by
  have write := not_written inv only
  cases call with
  | getc short => exact ⟨⟨only.readable, only.dir⟩, trivial⟩
  | ungetc c => exact ⟨fun pushed => absurd meets pushed, meets⟩
  | fseek off whence => exact ⟨trivial, fun _ => meets, fun writing => absurd writing only.dir⟩
  | ftell =>
    refine ⟨trivial, fun writing => absurd writing only.dir, ?_, fun writing => absurd writing only.dir⟩
    rw [write]
    nofun
  | putc ch => exact meets.elim
  | fflush => exact meets.elim

theorem readOnly_after (only : ReadOnly s) (meets : ReadMeets s call)
    (made : s.fp.call call = some r) : ReadOnly (s.after call r) := by
  refine ⟨?_, readable_kept made (fun ch is => by rw [is] at meets; exact meets) only.readable⟩
  cases call with
  | getc short => exact nofun
  | ungetc c => exact only.dir
  | fseek off whence =>
    change (if r.1 = 0 then Direction.unknown else s.dir) ≠ .writing
    split_ifs
    · exact nofun
    · exact only.dir
  | ftell => exact only.dir
  | putc ch => exact meets.elim
  | fflush => exact only.dir

theorem read_run (inv : Inv s a) (only : ReadOnly s) (calls : List Call)
    (along : Along ReadMeets s calls) : Along (fun s call => Legal s call ∧ Meets s call) s calls := by
  induction calls generalizing s a with
  | nil => trivial
  | cons call calls ih =>
    have ⟨legal, meets⟩ := reads_meet inv only along.1
    rcases call_spec inv call legal meets with ⟨r, made, _, inv'⟩
    have later := along.2
    rw [made] at later
    refine ⟨⟨legal, meets⟩, ?_⟩
    rw [made]
    exact ih inv' (readOnly_after only along.1 made) later

/-- For every file and every run of a stream that is opened for reading, if each call meets the
condition, then every call gives what the position gives. -/
theorem read_stream (access : Access) (readable : access ≠ .O_WRONLY) (kernel : Kernel) (calls : List Call)
    (along : Along ReadMeets (.start access kernel none) calls) :
    ∃ s, (State.start access kernel none).run calls =
      some ((Logical.run { kernel, pushed := none } calls).1, s) := by
  have inv := start_inv access kernel none trivial
  have only : ReadOnly (.start access kernel none) := by
    refine ⟨nofun, ?_⟩
    cases access with
    | O_RDONLY => exact .inl rfl
    | O_WRONLY => exact absurd rfl readable
    | O_RDWR => exact .inr rfl
  rcases run_spec inv calls (read_run inv only calls along) with ⟨s, run, _⟩
  exact ⟨s, run⟩

/-- The file `ab` is read to its end and again. -/
theorem read_stream_ab : ∃ s, (State.start .O_RDONLY ⟨[97, 98], 0, false⟩ none).run
    [.getc 511, .getc 511, .getc 511, .fseek 1 .SEEK_SET, .ftell, .getc 511] =
      some ([97, 98, -1, 0, 1, 98], s) :=
  read_stream .O_RDONLY nofun ⟨[97, 98], 0, false⟩ [.getc 511, .getc 511, .getc 511, .fseek 1 .SEEK_SET, .ftell, .getc 511]
    (by decide +kernel)

/-- With unread bytes in the buffer the byte after `fseek()` is not that of the file at the position, and
a byte is never pushed back. -/
theorem seek_stale :
    ((State.start .O_RDONLY ⟨[97, 98], 0, false⟩ none).run [.getc 511, .fseek 0 .SEEK_SET, .getc 511]).map Prod.fst =
        some [97, 0, 98] ∧
      (Logical.run ⟨⟨[97, 98], 0, false⟩, none⟩ [.getc 511, .fseek 0 .SEEK_SET, .getc 511]).1 = [97, 0, 97] ∧
      ((State.start .O_RDONLY ⟨[97, 98], 0, false⟩ none).run [.getc 511, .ungetc 97, .getc 511]).map Prod.fst =
        some [97, -1, 98] ∧
      (Logical.run ⟨⟨[97, 98], 0, false⟩, none⟩ [.getc 511, .ungetc 97, .getc 511]).1 = [97, 97, 97] := by
  decide +kernel

/-- For every file, buffering and run of calls that a program may make, if each call meets the condition,
then every call gives what the position gives, and if nothing that was read is left for `fclose()` to
write, the file has every byte at its position. -/
theorem write_stream (access : Access) (kernel : Kernel) (buffering : Option (Option (List UInt8) × Mode))
    (sized : Sized buffering) (calls : List Call)
    (along : Along (fun s call => Legal s call ∧ Meets s call) (.start access kernel buffering) calls) :
    ∃ s, (State.start access kernel buffering).run calls =
        some ((Logical.run { kernel, pushed := none } calls).1, s) ∧
      ((s.filled = true → s.fp.flags.IOREAD = true) →
        s.fp.fclose.2.kernel.file = (Logical.run { kernel, pushed := none } calls).2.kernel.file) := by
  rcases run_spec (start_inv access kernel buffering sized) calls along with ⟨s, run, inv⟩
  refine ⟨s, run, fun left => ?_⟩
  unfold FILE.fclose
  dsimp only
  rw [if_pos inv.opened]
  cases read : s.fp.flags.IOREAD with
  | true =>
    rw [FILE.flsbuf, if_pos read]
    exact (inv.unread (.inl read)).file.symm
  | false =>
    have not_full : s.filled = false := Bool.eq_false_iff.mpr fun full => by
      rw [left full] at read
      cases read
    exact congrArg Kernel.file (inv_flsbuf inv read not_full).2.2

/-- Two bytes and a third over the first, in a buffer of two bytes. -/
theorem write_stream_cb : ∃ s, (State.start .O_WRONLY ⟨[], 0, false⟩ (some (some [0, 0], .IOFBF))).run
      [.putc 97, .putc 98, .ftell, .fseek 0 .SEEK_SET, .putc 99] = some ([97, 98, 2, 0, 99], s) ∧
    ((s.filled = true → s.fp.flags.IOREAD = true) → s.fp.fclose.2.kernel.file = [99, 98]) :=
  write_stream .O_WRONLY ⟨[], 0, false⟩ (some (some [0, 0], .IOFBF)) (.inr (by decide))
    [.putc 97, .putc 98, .ftell, .fseek 0 .SEEK_SET, .putc 99] (by decide +kernel)

/-- In a line buffered stream `ftell()` counts the whole buffer. In a fully buffered stream for both, what
is stored after `fseek()` is written where the next `fseek()` goes, and what was read is written
back. -/
theorem stored_misplaced :
    ((State.start .O_WRONLY ⟨[], 0, false⟩ (some (none, .IOLBF))).run [.putc 97, .ftell]).map Prod.fst = some [97, 512] ∧
      (Logical.run ⟨⟨[], 0, false⟩, none⟩ [.putc 97, .ftell]).1 = [97, 1] ∧
      ((State.start .O_RDWR ⟨[], 0, false⟩ (some (none, .IOFBF))).run
        [.putc 97, .fseek 0 .SEEK_SET, .putc 98, .fseek 1 .SEEK_SET]).map (fun r => r.2.fp.fclose.2.kernel.file) =
        some [97, 98] ∧
      (Logical.run ⟨⟨[], 0, false⟩, none⟩ [.putc 97, .fseek 0 .SEEK_SET, .putc 98, .fseek 1 .SEEK_SET]).2.kernel.file = [98] ∧
      ((State.start .O_RDWR ⟨[97], 0, false⟩ none).run [.getc 511, .fseek 1 .SEEK_SET]).map
        (fun r => r.2.fp.fclose.2.kernel.file) = some [97, 97] ∧
      (Logical.run ⟨⟨[97], 0, false⟩, none⟩ [.getc 511, .fseek 1 .SEEK_SET]).2.kernel.file = [97] := by
  decide +kernel

end Scc.Libc.Stdio
