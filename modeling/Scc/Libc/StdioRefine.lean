import Scc.Libc.Stdio

/-!
# Streams and positions

The buffer either holds bytes that were read and not taken, or bytes that were stored and not
written. As long as the code does not take one for the other, the stream is its file with a position.
-/

namespace Scc.Libc.Stdio

set_option autoImplicit false

/-- The direction of the last transfer since the stream was opened or positioned. -/
inductive Direction
  | unknown | reading | writing
deriving DecidableEq

/-- A stream in a run, with what happened before. -/
structure State where
  fp : FILE
  dir : Direction
  /-- The buffer was filled by a read. -/
  filled : Bool

def State.after (s : State) (call : Call) (r : Int × FILE) : State :=
  { fp := r.2
    dir := match call with
      | .getc _ => .reading
      | .putc _ => .writing
      | .fseek _ _ => if r.1 = 0 then .unknown else s.dir
      | _ => s.dir
    filled := s.filled || match call with
      | .getc _ => r.2.flags.IOREAD
      | _ => false }

/-- What a program may do: the stream was opened for it, and reading and writing are separated by
`fseek()`. -/
def Legal (s : State) : Call → Prop
  | .getc _ => (s.fp.flags.IOREAD = true ∨ s.fp.flags.IORW = true) ∧ s.dir ≠ .writing
  | .ungetc c => c ≠ EOF → s.dir = .reading
  | .putc _ => (s.fp.flags.IOWRITE = true ∨ s.fp.flags.IORW = true) ∧ s.dir ≠ .reading
  | _ => True

/-- When a call treats the buffer as what it is. -/
def Meets (s : State) : Call → Prop
  | .getc _ => True
  | .ungetc c => c = EOF
  | .putc _ => s.filled = false
  | .fflush => s.filled = true → s.fp.flags.IOREAD = true
  | .fseek off whence =>
    (s.fp.flags.IOREAD = true → s.fp.rp = s.fp.wp ∨ s.fp.kernel.lseek
        (if whence = .SEEK_CUR then off - ((s.fp.wp : Int) - s.fp.rp) else off) whence = none) ∧
      (s.dir = .writing → s.fp.flags.IOWRITE = true ∨ s.fp.wp = 0)
  | .ftell =>
    (s.dir = .writing → s.fp.flags.IOWRITE = true ∨ s.fp.wp = 0) ∧
      (s.fp.flags.IOWRITE = true → s.fp.flags.IOLBF = true → s.fp.wp = s.fp.lp) ∧
      (s.dir = .writing → s.fp.kernel.append = true → s.fp.wp = 0 ∨ s.fp.kernel.off = s.fp.kernel.file.length)

instance (s : State) (call : Call) : Decidable (Legal s call) :=
  match call with
  | .getc _ => inferInstanceAs (Decidable ((_ ∨ _) ∧ _ ≠ _))
  | .ungetc c => inferInstanceAs (Decidable (c ≠ EOF → _))
  | .putc _ => inferInstanceAs (Decidable ((_ ∨ _) ∧ _ ≠ _))
  | .fflush => isTrue trivial
  | .fseek _ _ => isTrue trivial
  | .ftell => isTrue trivial

instance (s : State) (call : Call) : Decidable (Meets s call) :=
  match call with
  | .getc _ => isTrue trivial
  | .ungetc c => inferInstanceAs (Decidable (c = EOF))
  | .putc _ => inferInstanceAs (Decidable (_ = false))
  | .fflush => inferInstanceAs (Decidable (_ → _))
  | .fseek _ _ => inferInstanceAs (Decidable ((_ → _ ∨ _) ∧ (_ → _)))
  | .ftell => inferInstanceAs (Decidable ((_ → _) ∧ (_ → _) ∧ (_ → _)))

/-- The buffer has what comes next in the file. -/
structure Unread (fp : FILE) (a : Logical) : Prop where
  file : a.kernel.file = fp.kernel.file
  append : a.kernel.append = fp.kernel.append
  ordered : fp.rp ≤ fp.wp
  position : a.kernel.off + (fp.wp - fp.rp) = fp.kernel.off
  contents : ∀ i, fp.rp ≤ i → i < fp.wp → fp.mem[i]? = fp.kernel.file[a.kernel.off + (i - fp.rp)]?
  not_writing : fp.flags.IOWRITE = false
  taken : fp.flags.IOREAD = false → fp.rp = fp.wp

/-- The buffer has what is still to be written. -/
structure Pending (s : State) (a : Logical) : Prop where
  kernel : a.kernel = s.fp.kernel.write (s.fp.mem.take s.fp.wp)
  limit : s.fp.rp = 0 ∨ s.fp.flags.IOFBF = true ∧ s.fp.rp = s.fp.lp
  flushed : s.dir ≠ .writing → s.fp.wp = 0
  unbuffered : s.fp.flags.IOFBF = false → s.fp.flags.IOLBF = false → s.fp.wp = 0

structure Inv (s : State) (a : Logical) : Prop where
  no_error : s.fp.flags.IOERR = false
  no_pushed : a.pushed = none
  room : ∀ mem, s.fp.buf = some mem → 0 < mem.length ∧ s.fp.lp = mem.length ∧ s.fp.wp ≤ mem.length
  unallocated : s.fp.buf = none → s.fp.rp = 0 ∧ s.fp.wp = 0 ∧ s.fp.lp = 0
  at_end : s.fp.flags.IOEOF = true → s.dir = .reading ∧ a.kernel.file.length ≤ a.kernel.off ∧ s.fp.wp ≤ s.fp.rp
  unread : s.fp.flags.IOREAD = true ∨ s.filled = true → Unread s.fp a
  pending : s.fp.flags.IOREAD = false → s.filled = false → Pending s a
  writing : s.fp.flags.IORW = true → s.fp.flags.IOWRITE = true → s.dir = .writing
  reading : s.fp.flags.IORW = true → s.fp.flags.IOREAD = true → s.filled = true
  opened : (s.fp.flags.IOWRITE || s.fp.flags.IOREAD || s.fp.flags.IORW) = true

variable {fp : FILE} {a : Logical} {s : State} {k : Kernel}

theorem allocbuf_some {mem : List UInt8} (allocated : fp.buf = some mem) : fp.allocbuf = fp := by
  rw [FILE.allocbuf, if_pos (by rw [allocated]; rfl)]

theorem allocbuf_none (unallocated : fp.buf = none) :
    fp.allocbuf = { fp with buf := some (List.replicate BUFSIZ 0), rp := 0, wp := 0, lp := BUFSIZ } := by
  rw [FILE.allocbuf, if_neg (by rw [unallocated]; decide)]

theorem inv_allocbuf (inv : Inv s a) :
    Inv { s with fp := s.fp.allocbuf } a ∧ s.fp.allocbuf.flags = s.fp.flags ∧ s.fp.allocbuf.kernel = s.fp.kernel ∧
      s.fp.allocbuf.wp = s.fp.wp ∧ s.fp.allocbuf.rp = s.fp.rp ∧ ∃ mem, s.fp.allocbuf.buf = some mem := by
  cases allocated : s.fp.buf with
  | some mem =>
    rw [allocbuf_some allocated]
    exact ⟨inv, rfl, rfl, rfl, rfl, mem, allocated⟩
  | none =>
    have ⟨rp, wp, lp⟩ := inv.unallocated allocated
    rw [allocbuf_none allocated]
    refine ⟨?_, rfl, rfl, wp.symm, rp.symm, _, rfl⟩
    refine ⟨inv.no_error, inv.no_pushed, ?_, nofun, ?_, ?_, ?_, inv.writing, inv.reading, inv.opened⟩
    · intro mem same
      cases same
      rw [List.length_replicate]
      exact ⟨by decide, rfl, Nat.zero_le _⟩
    · intro eof
      have ⟨reading, ended, _⟩ := inv.at_end eof
      exact ⟨reading, ended, Nat.le_refl 0⟩
    · intro read
      have unread := inv.unread read
      refine ⟨unread.file, unread.append, Nat.le_refl 0, ?_, ?_, unread.not_writing, fun _ => rfl⟩
      · have position := unread.position
        rw [rp, wp] at position
        exact position
      · intro i _ inside
        exact absurd inside (Nat.not_lt_zero i)
    · intro unread empty
      have pending := inv.pending unread empty
      have kernel := pending.kernel
      rw [wp] at kernel
      exact ⟨kernel, .inl rfl, fun _ => rfl, fun _ _ => rfl⟩

theorem read_spec (k : Kernel) (n : Nat) (some_ : 0 < n) :
    (k.file.length ≤ k.off ∧ (k.read n).1 = [] ∧ (k.read n).2 = k) ∨
      (0 < (k.read n).1.length ∧ (k.read n).1.length ≤ n ∧
        (k.read n).2 = { k with off := k.off + (k.read n).1.length } ∧
        ∀ i < (k.read n).1.length, (k.read n).1[i]? = k.file[k.off + i]?) := by
  by_cases ended : k.file.length ≤ k.off
  · refine .inl ⟨ended, ?_, ?_⟩
    · rw [Kernel.read, List.drop_eq_nil_of_le ended, List.take_nil]
    · rw [Kernel.read, List.drop_eq_nil_of_le ended, List.take_nil]
      rfl
  · refine .inr ⟨?_, ?_, rfl, ?_⟩
    · rw [Kernel.read, List.length_take, List.length_drop]
      omega
    · rw [Kernel.read, List.length_take]
      omega
    · intro i inside
      rw [Kernel.read, List.length_take] at inside
      rw [Kernel.read, List.getElem?_take_of_lt (by omega), List.getElem?_drop]

theorem Unread.kernel (unread : Unread fp a) (empty : fp.rp ≥ fp.wp) : a.kernel = fp.kernel := by
  have position := unread.position
  have off : a.kernel.off = fp.kernel.off := by omega
  have file := unread.file
  have append := unread.append
  cases a with
  | mk kernel pushed =>
    cases kernel
    cases is : fp.kernel
    rw [is] at off file append
    cases off
    cases file
    cases append
    rfl

theorem logical_getc (none_ : a.pushed = none) (short : Nat) :
    a.call (.getc short) = match a.kernel.file[a.kernel.off]? with
      | some c => ((c.toNat : Int), { a with kernel := { a.kernel with off := a.kernel.off + 1 } })
      | none => (EOF, a) := by
  cases a with
  | mk kernel pushed =>
    cases none_
    rfl

theorem inv_reading (inv : Inv s a) (reading : s.dir ≠ .writing) (filled : Bool)
    (same : filled = true → s.fp.flags.IOREAD = true ∨ s.filled = true) (grown : s.filled = true → filled = true) :
    Inv { fp := s.fp, dir := .reading, filled } a := by
  refine ⟨inv.no_error, inv.no_pushed, inv.room, inv.unallocated, ?_, ?_, ?_,
    fun both write => absurd (inv.writing both write) reading, fun both read => grown (inv.reading both read), inv.opened⟩
  · intro eof
    exact ⟨rfl, (inv.at_end eof).2⟩
  · intro read
    cases read with
    | inl read => exact inv.unread (.inl read)
    | inr full => exact inv.unread (same full)
  · intro unread empty
    have empty_ : s.filled = false := by
      cases full : s.filled with
      | false => rfl
      | true => exact absurd (grown full) (by rw [show filled = false from empty]; decide)
    have pending := inv.pending unread empty_
    exact ⟨pending.kernel, pending.limit, fun _ => pending.flushed reading, pending.unbuffered⟩

theorem getcFill_spec (inv : Inv s a) (short : Nat)
    (may : s.fp.flags.IOREAD = true ∨ s.fp.flags.IORW = true) (reading : s.dir ≠ .writing)
    (empty : s.fp.rp ≥ s.fp.wp) (same : a.kernel = s.fp.kernel) :
    ∃ r, s.fp.getcFill short = some r ∧ r.1 = (a.call (.getc short)).1 ∧
      Inv (s.after (.getc short) r) (a.call (.getc short)).2 := by
  have kept (fp : FILE) (flags : fp.flags = s.fp.flags) :
      (s.filled || fp.flags.IOREAD) = true → s.fp.flags.IOREAD = true ∨ s.filled = true := by
    intro either
    rw [flags] at either
    exact (Bool.or_eq_true_iff.mp either).symm
  rw [logical_getc inv.no_pushed, FILE.getcFill]
  by_cases eof : s.fp.flags.IOEOF = true
  · have ended := (inv.at_end eof).2.1
    rw [if_pos (by rw [eof]; rfl), List.getElem?_eq_none ended]
    exact ⟨_, rfl, rfl, inv_reading inv reading _ (kept s.fp rfl) (fun full => by rw [full]; rfl)⟩
  have not_eof : s.fp.flags.IOEOF = false := Bool.eq_false_iff.mpr eof
  have allowed : ¬ (!s.fp.flags.IOREAD && !s.fp.flags.IORW) = true := by
    cases may with
    | inl read => simp [read]
    | inr both => simp [both]
  rw [if_neg (by rw [not_eof, inv.no_error]; decide), if_neg allowed]
  have ⟨inv', flags, kern, wp, rp, mem, allocated⟩ := inv_allocbuf inv
  have contents : s.fp.allocbuf.mem = mem := by rw [FILE.mem, allocated]; rfl
  have ⟨room, lp, inside⟩ := inv'.room mem allocated
  have same' : a.kernel = s.fp.allocbuf.kernel := same.trans kern.symm
  dsimp only
  rw [contents, same']
  rcases read_spec s.fp.allocbuf.kernel (min mem.length (short + 1)) (by omega) with
    ⟨ended, nothing, unchanged⟩ | ⟨some_, few, moved, bytes⟩
  · rw [if_pos nothing, unchanged, List.getElem?_eq_none ended]
    refine ⟨_, rfl, rfl, ?_⟩
    have reading' := inv_reading inv' reading (s.filled || s.fp.allocbuf.flags.IOREAD)
      (fun either => by rw [flags]; exact kept s.fp.allocbuf flags either) (fun full => by rw [full]; rfl)
    refine ⟨inv'.no_error, inv.no_pushed, inv'.room, inv'.unallocated, ?_, ?_, ?_, reading'.writing,
      reading'.reading, inv'.opened⟩
    · intro _
      refine ⟨rfl, by rw [same']; exact ended, ?_⟩
      change s.fp.allocbuf.wp ≤ s.fp.allocbuf.rp
      rw [wp, rp]
      exact empty
    · intro read
      have unread := reading'.unread read
      exact ⟨unread.file, unread.append, unread.ordered, unread.position, unread.contents, unread.not_writing, unread.taken⟩
    · intro not_read not_full
      have pending := reading'.pending not_read not_full
      exact ⟨pending.kernel, pending.limit, pending.flushed, pending.unbuffered⟩
  · rw [if_neg (by intro nothing; rw [nothing] at some_; exact absurd some_ (by decide)), moved]
    have not_write : s.fp.allocbuf.flags.IOWRITE = false := by
      rw [flags]
      cases may with
      | inl read => exact (inv.unread (.inl read)).not_writing
      | inr both => exact Bool.eq_false_iff.mpr fun write => reading (inv.writing both write)
    generalize (s.fp.allocbuf.kernel.read (min mem.length (short + 1))).1 = got at *
    have first : s.fp.allocbuf.kernel.file[s.fp.allocbuf.kernel.off]? = some got[0] := by
      rw [← Nat.add_zero s.fp.allocbuf.kernel.off, ← bytes 0 some_, List.getElem?_eq_getElem some_]
    have loaded : (got ++ mem.drop got.length)[0]? = some got[0] := by
      rw [List.getElem?_append_left some_, List.getElem?_eq_getElem some_]
    rw [first, FILE.load]
    change ∃ r, Option.map _ (got ++ mem.drop got.length)[0]? = some r ∧ _
    rw [loaded]
    refine ⟨_, rfl, rfl, inv'.no_error, inv.no_pushed, ?_, nofun, ?_, ?_, ?_,
      fun _ write => absurd write (by change ¬ s.fp.allocbuf.flags.IOWRITE = true; rw [not_write]; decide),
      fun _ _ => Bool.or_true _, ?_⟩
    · intro mem' is
      cases is
      rw [List.length_append, List.length_drop]
      exact ⟨by omega, by change s.fp.allocbuf.lp = _; rw [lp]; omega, by change got.length ≤ _; omega⟩
    · intro eof'
      rw [← flags] at not_eof
      exact absurd eof' (by change ¬ s.fp.allocbuf.flags.IOEOF = true; rw [not_eof]; decide)
    · intro _
      refine ⟨rfl, rfl, some_, ?_, ?_, not_write, nofun⟩
      · change s.fp.allocbuf.kernel.off + 1 + (got.length - 1) = s.fp.allocbuf.kernel.off + got.length
        omega
      · intro i from_ below
        change (got ++ mem.drop got.length)[i]? = s.fp.allocbuf.kernel.file[s.fp.allocbuf.kernel.off + 1 + (i - 1)]?
        rw [List.getElem?_append_left below, bytes i below]
        congr 1
        change 1 ≤ i at from_
        omega
    · intro not_read
      exact Bool.noConfusion not_read
    · change (s.fp.allocbuf.flags.IOWRITE || true || s.fp.allocbuf.flags.IORW) = true
      rw [Bool.or_true, Bool.true_or]

theorem getc_spec (inv : Inv s a) (short : Nat) (legal : Legal s (.getc short)) :
    ∃ r, s.fp.getc short = some r ∧ r.1 = (a.call (.getc short)).1 ∧
      Inv (s.after (.getc short) r) (a.call (.getc short)).2 := by
  have ⟨may, reading⟩ := legal
  by_cases phase : s.fp.flags.IOREAD = true ∨ s.filled = true
  · have unread := inv.unread phase
    by_cases empty : s.fp.rp ≥ s.fp.wp
    · rw [FILE.getc, if_pos empty]
      exact getcFill_spec inv short may reading empty (unread.kernel empty)
    · have next := unread.contents s.fp.rp (Nat.le_refl _) (by omega)
      rw [Nat.sub_self, Nat.add_zero, ← unread.file] at next
      have inside : s.fp.rp < s.fp.mem.length := by
        cases allocated : s.fp.buf with
        | none =>
          have := inv.unallocated allocated
          omega
        | some mem =>
          have := inv.room mem allocated
          rw [FILE.mem, allocated]
          change s.fp.rp < mem.length
          omega
      rw [FILE.getc, if_neg empty, FILE.load, logical_getc inv.no_pushed, ← next, List.getElem?_eq_getElem inside]
      have not_end : s.fp.flags.IOEOF = false := by
        refine Bool.eq_false_iff.mpr fun eof => ?_
        have := (inv.at_end eof).2.2
        omega
      have position := unread.position
      refine ⟨_, rfl, rfl, inv.no_error, inv.no_pushed, inv.room, ?_, ?_, ?_, ?_, ?_, ?_, inv.opened⟩
      · intro unallocated
        have := inv.unallocated unallocated
        omega
      · intro eof
        rw [show s.fp.flags.IOEOF = true from eof] at not_end
        exact absurd not_end (by decide)
      · intro _
        refine ⟨unread.file, unread.append, by change s.fp.rp + 1 ≤ s.fp.wp; omega, ?_, ?_, unread.not_writing, ?_⟩
        · change a.kernel.off + 1 + (s.fp.wp - (s.fp.rp + 1)) = s.fp.kernel.off
          omega
        · intro i from_ below
          change s.fp.rp + 1 ≤ i at from_
          change s.fp.mem[i]? = s.fp.kernel.file[a.kernel.off + 1 + (i - (s.fp.rp + 1))]?
          rw [unread.contents i (by omega) below]
          congr 1
          omega
        · intro not_read
          have := unread.taken not_read
          omega
      · intro not_read _
        have := unread.taken not_read
        omega
      · intro both write
        exact absurd (inv.writing both write) reading
      · intro both read
        change (s.filled || _) = true
        rw [inv.reading both read, Bool.true_or]
  · rw [not_or] at phase
    have pending := inv.pending (Bool.eq_false_iff.mpr phase.1) (Bool.eq_false_iff.mpr phase.2)
    have flushed := pending.flushed reading
    rw [FILE.getc, if_pos (by omega)]
    refine getcFill_spec inv short may reading (by omega) ?_
    have kernel := pending.kernel
    rw [flushed, List.take_zero] at kernel
    exact kernel

theorem ungetc_spec (inv : Inv s a) (c : Int) (meets : Meets s (.ungetc c)) :
    ∃ r, s.fp.ungetc c = some r ∧ r.1 = (a.call (.ungetc c)).1 ∧
      Inv (s.after (.ungetc c) r) (a.call (.ungetc c)).2 := by
  have nothing : c = EOF := meets
  subst nothing
  refine ⟨(EOF, s.fp), rfl, rfl, ?_⟩
  have same : s.after (.ungetc EOF) (EOF, s.fp) = s := by
    cases s with
    | mk fp dir filled =>
      change State.mk fp dir (filled || false) = _
      rw [Bool.or_false]
  rw [same]
  exact inv

theorem ftell_spec (inv : Inv s a) (meets : Meets s .ftell) :
    ∃ r, s.fp.ftell = some r ∧ r.1 = (a.call .ftell).1 ∧ Inv (s.after .ftell r) (a.call .ftell).2 := by
  have ⟨counted, line, append⟩ := meets
  have same (n : Int) : s.after .ftell (n, s.fp) = s := by
    cases s with
    | mk fp dir filled =>
      change State.mk fp dir (filled || false) = _
      rw [Bool.or_false]
  suffices position : s.fp.ftell = some ((a.kernel.off : Int), s.fp) by
    refine ⟨_, position, rfl, ?_⟩
    rw [same]
    exact inv
  rw [FILE.ftell, if_neg (by rw [inv.no_error]; decide)]
  by_cases phase : s.fp.flags.IOREAD = true ∨ s.filled = true
  · have unread := inv.unread phase
    have position := unread.position
    have ordered := unread.ordered
    by_cases read : s.fp.flags.IOREAD = true
    · rw [if_pos read]
      congr 2
      omega
    · have taken := unread.taken (Bool.eq_false_iff.mpr read)
      rw [if_neg read, if_neg (by rw [unread.not_writing]; decide)]
      congr 2
      omega
  · rw [not_or] at phase
    have not_full : s.filled = false := Bool.eq_false_iff.mpr phase.2
    have pending := inv.pending (Bool.eq_false_iff.mpr phase.1) not_full
    have length : (s.fp.mem.take s.fp.wp).length = s.fp.wp := by
      rw [List.length_take]
      cases allocated : s.fp.buf with
      | none =>
        have := inv.unallocated allocated
        omega
      | some mem =>
        have := inv.room mem allocated
        rw [FILE.mem, allocated]
        change min s.fp.wp mem.length = _
        omega
    have off : a.kernel.off = s.fp.kernel.off + s.fp.wp := by
      rw [pending.kernel, Kernel.write_off, length]
      intro at_end
      by_cases writing : s.dir = .writing
      · cases append writing at_end with
        | inl none_ => exact .inl (by rw [none_, List.take_zero])
        | inr there => exact .inr there
      · exact .inl (by rw [pending.flushed writing, List.take_zero])
    rw [if_neg phase.1]
    by_cases write : s.fp.flags.IOWRITE = true
    · rw [if_pos write]
      have p : (if s.fp.flags.IOLBF = true then s.fp.lp else s.fp.wp) = s.fp.wp := by
        split_ifs with lbf
        · exact (line write lbf).symm
        · rfl
      dsimp only
      rw [p, off]
      rfl
    · have none_ : s.fp.wp = 0 := by
        by_cases writing : s.dir = .writing
        · exact (counted writing).resolve_left write
        · exact pending.flushed writing
      rw [if_neg write, off, none_]
      rfl

/-- A buffer with bytes that are still to be written to give `k`. -/
structure Buffered (fp : FILE) (k : Kernel) : Prop where
  kernel : k = fp.kernel.write (fp.mem.take fp.wp)
  allocated : fp.buf.isSome = true
  room : 0 < fp.mem.length
  limit : fp.lp = fp.mem.length
  inside : fp.wp ≤ fp.mem.length

theorem buffered_flsbuf (buffered : Buffered fp k) (not_read : fp.flags.IOREAD = false) :
    fp.flsbuf = { fp with kernel := k, wp := 0 } ∧ Buffered fp.flsbuf k := by
  have same : fp.flsbuf = { fp with kernel := k, wp := 0 } := by
    rw [FILE.flsbuf, if_neg (by rw [not_read]; decide), buffered.kernel]
  rw [same]
  exact ⟨rfl, by rw [List.take_zero]; rfl, buffered.allocated, buffered.room, buffered.limit, Nat.zero_le _⟩

theorem buffered_store (buffered : Buffered fp k) (ch : Int) (fits : fp.wp < fp.lp) :
    ∃ fp', fp.store ch = some fp' ∧ Buffered fp' (k.put (UInt8.ofInt ch)) ∧ fp'.flags = fp.flags ∧ fp'.rp = fp.rp ∧
      fp'.lp = fp.lp ∧ fp'.wp = fp.wp + 1 := by
  rw [buffered.limit] at fits
  rw [FILE.store, if_pos fits]
  refine ⟨_, rfl, ?_, rfl, rfl, rfl, rfl⟩
  have mem : (fp.buf.map fun mem => mem.set fp.wp (UInt8.ofInt ch)).getD [] = fp.mem.set fp.wp (UInt8.ofInt ch) := by
    have allocated := buffered.allocated
    unfold FILE.mem
    cases is : fp.buf with
    | none =>
      rw [is] at allocated
      cases allocated
    | some mem => rfl
  refine ⟨?_, ?_, ?_, ?_, ?_⟩
  · change k.put (UInt8.ofInt ch) = fp.kernel.write (((fp.buf.map _).getD []).take (fp.wp + 1))
    rw [mem, List.take_add_one, List.take_set_of_le (Nat.le_refl _), List.getElem?_set_self fits, Kernel.write_append,
      ← buffered.kernel]
    rfl
  · rw [Option.isSome_map]
    exact buffered.allocated
  · change 0 < ((fp.buf.map _).getD []).length
    rw [mem, List.length_set]
    exact buffered.room
  · change fp.lp = ((fp.buf.map _).getD []).length
    rw [mem, List.length_set]
    exact buffered.limit
  · change fp.wp + 1 ≤ ((fp.buf.map _).getD []).length
    rw [mem, List.length_set]
    exact fits

theorem buffered_of_pending (inv : Inv s a) (pending : Pending s a) {mem : List UInt8}
    (allocated : s.fp.buf = some mem) : Buffered s.fp a.kernel := by
  have ⟨room, limit, inside⟩ := inv.room mem allocated
  have same : s.fp.mem = mem := by rw [FILE.mem, allocated]; rfl
  exact ⟨pending.kernel, by rw [allocated]; rfl, same ▸ room, same ▸ limit, same ▸ inside⟩

theorem inv_of_buffered (buffered : Buffered fp k) (no_error : fp.flags.IOERR = false)
    (not_read : fp.flags.IOREAD = false) (not_end : fp.flags.IOEOF = false) (opened : (fp.flags.IOWRITE || fp.flags.IORW) = true)
    (limit : fp.rp = 0 ∨ fp.flags.IOFBF = true ∧ fp.rp = fp.lp)
    (unbuffered : fp.flags.IOFBF = false → fp.flags.IOLBF = false → fp.wp = 0) :
    Inv { fp, dir := .writing, filled := false } { kernel := k, pushed := none } where
  no_error := no_error
  no_pushed := rfl
  room := by
    intro mem is
    have same : fp.mem = mem := by rw [FILE.mem, is]; rfl
    rw [← same]
    exact ⟨buffered.room, buffered.limit, buffered.inside⟩
  unallocated := by
    intro none_
    have allocated := buffered.allocated
    rw [none_] at allocated
    cases allocated
  at_end := by
    intro eof
    rw [not_end] at eof
    cases eof
  unread := by
    intro either
    rw [not_read] at either
    cases either with
    | inl read => cases read
    | inr full => cases full
  pending := fun _ _ => ⟨buffered.kernel, limit, fun other => absurd rfl other, unbuffered⟩
  writing := fun _ _ => rfl
  reading := by
    intro _ read
    rw [not_read] at read
    cases read
  opened := by
    rw [not_read, Bool.or_false]
    exact opened

theorem putc_spec (inv : Inv s a) (ch : Int) (legal : Legal s (.putc ch)) (meets : Meets s (.putc ch)) :
    ∃ r, s.fp.putc ch = some r ∧ r.1 = (a.call (.putc ch)).1 ∧ Inv (s.after (.putc ch) r) (a.call (.putc ch)).2 := by
  have ⟨may, not_reading⟩ := legal
  have not_full : s.filled = false := meets
  have not_read : s.fp.flags.IOREAD = false := by
    refine Bool.eq_false_iff.mpr fun read => ?_
    cases may with
    | inl write =>
      rw [(inv.unread (.inl read)).not_writing] at write
      cases write
    | inr both =>
      rw [inv.reading both read] at not_full
      cases not_full
  have not_end : s.fp.flags.IOEOF = false := Bool.eq_false_iff.mpr fun eof => not_reading (inv.at_end eof).1
  have writable : (s.fp.flags.IOWRITE || s.fp.flags.IORW) = true := Bool.or_eq_true_iff.mpr may
  have result (fp : FILE) (inv' : Inv { fp, dir := .writing, filled := false }
      { kernel := a.kernel.put (UInt8.ofInt ch), pushed := none }) :
      Inv (s.after (.putc ch) (ch % 256, fp)) (a.call (.putc ch)).2 := by
    have same : s.after (.putc ch) (ch % 256, fp) = { fp, dir := .writing, filled := false } := by
      rw [State.after, not_full]
      rfl
    have after : (a.call (.putc ch)).2 = { kernel := a.kernel.put (UInt8.ofInt ch), pushed := none } := by
      rw [Logical.call, inv.no_pushed]
    rw [same, after]
    exact inv'
  by_cases direct : s.fp.wp ≥ s.fp.rp
  · have ⟨inv', flags, _, wp, rp, mem, allocated⟩ := inv_allocbuf inv
    have pending := inv'.pending (by rw [flags]; exact not_read) not_full
    have buffered := buffered_of_pending inv' pending allocated
    rw [← flags] at not_read not_end writable
    have no_error := inv'.no_error
    rw [FILE.putc, if_pos direct, FILE.putcFlush, if_neg (by rw [inv.no_error]; decide),
      if_neg (by rw [← flags, not_read]; decide)]
    generalize s.fp.allocbuf = fp at *
    change fp.flags.IOERR = false at no_error
    change Buffered fp a.kernel at buffered
    have ⟨flushed, empty⟩ := buffered_flsbuf buffered not_read
    have fits := buffered.limit ▸ buffered.room
    -- what remains is to say in which order bytes are stored and written
    have finish (fp' : FILE) (buffered' : Buffered fp' (a.kernel.put (UInt8.ofInt ch))) (flags' : fp'.flags = fp.flags)
        (limit' : fp'.rp = 0 ∨ fp.flags.IOFBF = true ∧ fp'.rp = fp'.lp)
        (unbuffered' : fp.flags.IOFBF = false → fp.flags.IOLBF = false → fp'.wp = 0) :
        Inv (s.after (.putc ch) (ch % 256, { fp' with flags := { fp'.flags with IOWRITE := true } }))
          (a.call (.putc ch)).2 := by
      refine result _ (inv_of_buffered ⟨buffered'.kernel, buffered'.allocated, buffered'.room, buffered'.limit,
        buffered'.inside⟩ ?_ ?_ ?_ rfl ?_ ?_)
      · exact (congrArg Flags.IOERR flags').trans no_error
      · exact (congrArg Flags.IOREAD flags').trans not_read
      · exact (congrArg Flags.IOEOF flags').trans not_end
      · cases limit' with
        | inl start => exact .inl start
        | inr full => exact .inr ⟨(congrArg Flags.IOFBF flags').trans full.1, full.2⟩
      · intro not_full not_line
        exact unbuffered' ((congrArg Flags.IOFBF flags').symm.trans not_full) ((congrArg Flags.IOLBF flags').symm.trans not_line)
    by_cases line : fp.flags.IOLBF = true
    · dsimp only
      rw [if_pos line]
      have ready : ∃ fp0, (if fp.wp = fp.lp then fp.flsbuf else fp) = fp0 ∧ Buffered fp0 a.kernel ∧ fp0.wp < fp0.lp ∧
          fp0.flags = fp.flags ∧ fp0.rp = fp.rp ∧ fp0.lp = fp.lp := by
        by_cases full : fp.wp = fp.lp
        · rw [if_pos full]
          refine ⟨_, rfl, empty, ?_⟩
          rw [flushed]
          exact ⟨fits, rfl, rfl, rfl⟩
        · rw [if_neg full]
          have inside := buffered.inside
          have limit := buffered.limit
          exact ⟨_, rfl, buffered, by omega, rfl, rfl, rfl⟩
      rcases ready with ⟨fp0, is, buffered0, fits0, flags0, rp0, lp0⟩
      rcases buffered_store buffered0 ch fits0 with ⟨fp1, stored, buffered1, flags1, rp1, lp1, wp1⟩
      rw [is, stored]
      have limit1 : fp1.rp = 0 ∨ fp.flags.IOFBF = true ∧ fp1.rp = fp1.lp := by
        rw [rp1, rp0, lp1, lp0]
        exact pending.limit
      by_cases newline : ch = 10
      · refine ⟨_, by rw [Option.map_some, if_pos newline]; rfl, rfl, ?_⟩
        have ⟨flushed1, empty1⟩ := buffered_flsbuf buffered1 (by rw [flags1, flags0]; exact not_read)
        refine finish _ empty1 ?_ ?_ ?_
        · rw [flushed1]
          exact flags1.trans flags0
        · rw [flushed1]
          exact limit1
        · intro _ not_line
          rw [line] at not_line
          cases not_line
      · refine ⟨_, by rw [Option.map_some, if_neg newline]; rfl, rfl, ?_⟩
        refine finish _ buffered1 (flags1.trans flags0) limit1 ?_
        intro _ not_line
        rw [line] at not_line
        cases not_line
    · by_cases full : fp.flags.IOFBF = true
      · dsimp only
        rw [if_neg line, if_pos full]
        rcases buffered_store empty ch (by rw [flushed]; exact fits) with ⟨fp1, stored, buffered1, flags1, rp1, lp1, wp1⟩
        rw [stored]
        refine ⟨_, rfl, rfl, ?_⟩
        refine finish { fp1 with rp := fp1.mem.length } ⟨buffered1.kernel, buffered1.allocated, buffered1.room, buffered1.limit, buffered1.inside⟩ ?_ ?_ ?_
        · rw [flushed] at flags1
          exact flags1
        · exact .inr ⟨full, buffered1.limit.symm⟩
        · intro not_full'
          rw [full] at not_full'
          cases not_full'
      · dsimp only
        rw [if_neg line, if_neg full]
        have not_line : fp.flags.IOLBF = false := Bool.eq_false_iff.mpr line
        have not_fbf : fp.flags.IOFBF = false := Bool.eq_false_iff.mpr full
        have start := pending.unbuffered not_fbf not_line
        rcases buffered_store buffered ch (by change fp.wp = 0 at start; omega) with
          ⟨fp1, stored, buffered1, flags1, rp1, lp1, wp1⟩
        have ⟨flushed1, empty1⟩ := buffered_flsbuf buffered1 (by rw [flags1]; exact not_read)
        rw [stored]
        refine ⟨_, rfl, rfl, ?_⟩
        refine finish _ empty1 ?_ ?_ ?_
        · rw [flushed1]
          exact flags1
        · rw [flushed1]
          change fp1.rp = 0 ∨ _
          rw [rp1]
          cases pending.limit with
          | inl start => exact .inl start
          | inr fully => exact absurd fully.1 full
        · intro _ _
          rw [flushed1]
  · have pending := inv.pending not_read not_full
    have ⟨fully, limit⟩ := pending.limit.resolve_left (by omega)
    cases allocated : s.fp.buf with
    | none =>
      have := inv.unallocated allocated
      omega
    | some mem =>
      have buffered := buffered_of_pending inv pending allocated
      rcases buffered_store buffered ch (by omega) with ⟨fp1, stored, buffered1, flags1, rp1, lp1, wp1⟩
      rw [FILE.putc, if_neg direct, stored]
      refine ⟨_, rfl, rfl, result _ (inv_of_buffered buffered1 ?_ ?_ ?_ ?_ ?_ ?_)⟩
      · rw [flags1]
        exact inv.no_error
      · rw [flags1]
        exact not_read
      · rw [flags1]
        exact not_end
      · rw [flags1]
        exact writable
      · rw [flags1, rp1, lp1]
        exact .inr ⟨fully, limit⟩
      · rw [flags1, fully]
        nofun

theorem inv_flsbuf (inv : Inv s a) (not_read : s.fp.flags.IOREAD = false)
    (not_full : s.filled = false) : Inv { s with fp := s.fp.flsbuf } a ∧ s.fp.flsbuf.wp = 0 ∧ s.fp.flsbuf.kernel = a.kernel := by
  have pending := inv.pending not_read not_full
  have same : s.fp.flsbuf = { s.fp with kernel := a.kernel, wp := 0 } := by
    rw [FILE.flsbuf, if_neg (by rw [not_read]; decide), pending.kernel]
  rw [same]
  refine ⟨⟨inv.no_error, inv.no_pushed, ?_, ?_, ?_, ?_, ?_, inv.writing, inv.reading, inv.opened⟩, rfl, rfl⟩
  · intro mem is
    have ⟨room, limit, _⟩ := inv.room mem is
    exact ⟨room, limit, Nat.zero_le _⟩
  · intro none_
    have ⟨rp, _, lp⟩ := inv.unallocated none_
    exact ⟨rp, rfl, lp⟩
  · intro eof
    have ⟨reading, ended, _⟩ := inv.at_end eof
    exact ⟨reading, ended, Nat.zero_le _⟩
  · intro either
    cases either with
    | inl read =>
      rw [show s.fp.flags.IOREAD = true from read] at not_read
      cases not_read
    | inr full =>
      rw [show s.filled = true from full] at not_full
      cases not_full
  · exact fun _ _ => ⟨by rw [List.take_zero]; rfl, pending.limit, fun _ => rfl, fun _ _ => rfl⟩

theorem fflush_spec (inv : Inv s a) (meets : Meets s .fflush) :
    ∃ r, s.fp.fflush = some r ∧ r.1 = (a.call .fflush).1 ∧ Inv (s.after .fflush r) (a.call .fflush).2 := by
  have same (fp : FILE) : s.after .fflush (0, fp) = { s with fp } := by
    change State.mk fp s.dir (s.filled || false) = _
    rw [Bool.or_false]
  refine ⟨_, rfl, rfl, ?_⟩
  rw [same]
  cases read : s.fp.flags.IOREAD with
  | true =>
    rw [FILE.flsbuf, if_pos read]
    exact inv
  | false =>
    have not_full : s.filled = false := Bool.eq_false_iff.mpr fun full => by
      rw [meets full] at read
      cases read
    exact (inv_flsbuf inv read not_full).1

theorem inv_lseek (inv : Inv s a) (none_ : s.fp.rp ≥ s.fp.wp)
    (empty : s.fp.flags.IOREAD = false → s.filled = false → s.fp.wp = 0) (kernel : Kernel)
    (file : kernel.file = s.fp.kernel.file) (append : kernel.append = s.fp.kernel.append) : Inv { s with
      fp := { s.fp with
        kernel
        flags := { (if s.fp.flags.IORW then { s.fp.flags with IOREAD := false, IOWRITE := false } else s.fp.flags)
          with IOEOF := false } }
      dir := .unknown } { kernel, pushed := none } := by
  have flags : ((if s.fp.flags.IORW then { s.fp.flags with IOREAD := false, IOWRITE := false } else s.fp.flags) : Flags) =
      { s.fp.flags with
        IOREAD := s.fp.flags.IOREAD && !s.fp.flags.IORW, IOWRITE := s.fp.flags.IOWRITE && !s.fp.flags.IORW } := by
    cases s.fp.flags.IORW <;> simp
  rw [flags]
  refine ⟨inv.no_error, rfl, inv.room, inv.unallocated, nofun, ?_, ?_, ?_, ?_, ?_⟩
  · intro either
    have before : s.fp.flags.IOREAD = true ∨ s.filled = true := by
      cases either with
      | inl read => exact .inl (Bool.and_eq_true_iff.mp read).1
      | inr full => exact .inr full
    have unread := inv.unread before
    have ordered := unread.ordered
    refine ⟨rfl, rfl, ordered, ?_, ?_, ?_, ?_⟩
    · change kernel.off + (s.fp.wp - s.fp.rp) = kernel.off
      omega
    · intro i from_ below
      change s.fp.rp ≤ i at from_
      change i < s.fp.wp at below
      omega
    · change (s.fp.flags.IOWRITE && _) = false
      rw [unread.not_writing, Bool.false_and]
    · intro _
      exact Nat.le_antisymm ordered none_
  · intro not_read not_full
    have read : s.fp.flags.IOREAD = false := by
      refine Bool.eq_false_iff.mpr fun read => ?_
      change (s.fp.flags.IOREAD && !s.fp.flags.IORW) = false at not_read
      cases both : s.fp.flags.IORW with
      | true =>
        have full := inv.reading both read
        rw [show s.filled = false from not_full] at full
        cases full
      | false =>
        rw [read, both] at not_read
        cases not_read
    have wp := empty read not_full
    have pending := inv.pending read not_full
    refine ⟨?_, pending.limit, fun _ => wp, fun _ _ => wp⟩
    change kernel = kernel.write (s.fp.mem.take s.fp.wp)
    rw [wp, List.take_zero]
    rfl
  · intro both write
    change (s.fp.flags.IOWRITE && !s.fp.flags.IORW) = true at write
    rw [show s.fp.flags.IORW = true from both, Bool.not_true, Bool.and_false] at write
    cases write
  · intro both read
    change (s.fp.flags.IOREAD && !s.fp.flags.IORW) = true at read
    rw [show s.fp.flags.IORW = true from both, Bool.not_true, Bool.and_false] at read
    cases read
  · have opened := inv.opened
    change ((s.fp.flags.IOWRITE && !s.fp.flags.IORW) || (s.fp.flags.IOREAD && !s.fp.flags.IORW) || s.fp.flags.IORW) = true
    cases both : s.fp.flags.IORW with
    | true => rw [Bool.or_true]
    | false =>
      rw [both] at opened
      simpa using opened

theorem lseek_file {k k' : Kernel} {off : Int} {whence : Whence} (moved : k.lseek off whence = some k') :
    k'.file = k.file ∧ k'.append = k.append := by
  unfold Kernel.lseek at moved
  dsimp only at moved
  split_ifs at moved
  cases moved
  exact ⟨rfl, rfl⟩

theorem fseek_empty {fp' : FILE} (inv : Inv { s with fp := fp' } a) (off : Int) (whence : Whence)
    (no_error : s.fp.flags.IOERR = false) (is : (if s.fp.flags.IOWRITE then s.fp.flsbuf else s.fp) = fp')
    (none_ : fp'.rp ≥ fp'.wp) (taken : fp'.flags.IOREAD = true → fp'.rp = fp'.wp)
    (empty : fp'.flags.IOREAD = false → s.filled = false → fp'.wp = 0) (same : a.kernel = fp'.kernel) :
    ∃ r, s.fp.fseek off whence = some r ∧ r.1 = (a.call (.fseek off whence)).1 ∧
      Inv (s.after (.fseek off whence) r) (a.call (.fseek off whence)).2 := by
  have offset : (if whence = .SEEK_CUR ∧ fp'.flags.IOREAD then off - ((fp'.wp : Int) - fp'.rp) else off) = off := by
    split_ifs with current
    · rw [taken current.2]
      omega
    · rfl
  rw [FILE.fseek, if_neg (by rw [no_error]; decide)]
  dsimp only
  rw [is, offset, Logical.call, same]
  cases moved : fp'.kernel.lseek off whence with
  | none =>
    refine ⟨_, rfl, rfl, ?_⟩
    have after : s.after (.fseek off whence) (EOF, fp') = { s with fp := fp' } := by
      change State.mk fp' s.dir (s.filled || false) = _
      rw [Bool.or_false]
    rw [after]
    exact inv
  | some kernel =>
    have ⟨file, append⟩ := lseek_file moved
    refine ⟨_, rfl, rfl, ?_⟩
    have done := inv_lseek inv none_ empty kernel file append
    have after (fp : FILE) : s.after (.fseek off whence) (0, fp) = { s with fp, dir := .unknown } := by
      change State.mk fp .unknown (s.filled || false) = _
      rw [Bool.or_false]
    rw [after]
    exact done

theorem fseek_fails (inv : Inv s a) (off : Int) (whence : Whence)
    (read : s.fp.flags.IOREAD = true) (fails : s.fp.kernel.lseek
      (if whence = .SEEK_CUR then off - ((s.fp.wp : Int) - s.fp.rp) else off) whence = none) :
    ∃ r, s.fp.fseek off whence = some r ∧ r.1 = (a.call (.fseek off whence)).1 ∧
      Inv (s.after (.fseek off whence) r) (a.call (.fseek off whence)).2 := by
  have unread := inv.unread (.inl read)
  have position := unread.position
  have ordered := unread.ordered
  have refused : a.kernel.lseek off whence = none := by
    unfold Kernel.lseek at fails ⊢
    dsimp only at fails ⊢
    rw [unread.file]
    cases whence with
    | SEEK_SET => simpa using fails
    | SEEK_END => simpa using fails
    | SEEK_CUR =>
      rw [if_pos rfl] at fails
      dsimp only at fails ⊢
      split_ifs at fails with below
      rw [if_pos (by omega)]
  have offset : (if whence = .SEEK_CUR ∧ s.fp.flags.IOREAD then off - ((s.fp.wp : Int) - s.fp.rp) else off) =
      if whence = .SEEK_CUR then off - ((s.fp.wp : Int) - s.fp.rp) else off := by
    rw [read]
    simp
  refine ⟨(EOF, s.fp), ?_, ?_, ?_⟩
  · rw [FILE.fseek, if_neg (by rw [inv.no_error]; decide)]
    dsimp only
    rw [if_neg (by rw [unread.not_writing]; decide), offset, fails]
  · rw [Logical.call, refused]
  · have after : s.after (.fseek off whence) (EOF, s.fp) = s := by
      cases s with
      | mk fp dir filled =>
        change State.mk fp dir (filled || false) = _
        rw [Bool.or_false]
    rw [after, Logical.call, refused]
    exact inv

theorem fseek_spec (inv : Inv s a) (off : Int) (whence : Whence) (meets : Meets s (.fseek off whence)) :
    ∃ r, s.fp.fseek off whence = some r ∧ r.1 = (a.call (.fseek off whence)).1 ∧
      Inv (s.after (.fseek off whence) r) (a.call (.fseek off whence)).2 := by
  have ⟨taken, stored⟩ := meets
  by_cases phase : s.fp.flags.IOREAD = true ∨ s.filled = true
  · have unread := inv.unread phase
    by_cases fails : s.fp.flags.IOREAD = true ∧ s.fp.rp ≠ s.fp.wp
    · exact fseek_fails inv off whence fails.1 ((taken fails.1).resolve_left fails.2)
    have all : s.fp.rp = s.fp.wp := by
      cases read : s.fp.flags.IOREAD with
      | true => exact not_not.mp fun left => fails ⟨read, left⟩
      | false => exact unread.taken read
    refine fseek_empty inv off whence inv.no_error (if_neg (by rw [unread.not_writing]; decide)) (by omega) (fun _ => all)
      ?_ (unread.kernel (by omega))
    intro not_read not_full
    rw [not_read, not_full] at phase
    cases phase with
    | inl read => cases read
    | inr full => cases full
  · rw [not_or] at phase
    have not_read : s.fp.flags.IOREAD = false := Bool.eq_false_iff.mpr phase.1
    have not_full : s.filled = false := Bool.eq_false_iff.mpr phase.2
    by_cases write : s.fp.flags.IOWRITE = true
    · have ⟨flushed, wp, kernel⟩ := inv_flsbuf inv not_read not_full
      have still : s.fp.flsbuf.flags = s.fp.flags := by
        rw [FILE.flsbuf, if_neg (by rw [not_read]; decide)]
      refine fseek_empty flushed off whence inv.no_error (if_pos write) (by rw [wp]; exact Nat.zero_le _) ?_ (fun _ _ => wp) kernel.symm
      rw [still, not_read]
      nofun
    · have wp : s.fp.wp = 0 := by
        by_cases writing : s.dir = .writing
        · exact (stored writing).resolve_left write
        · exact (inv.pending not_read not_full).flushed writing
      refine fseek_empty inv off whence inv.no_error (if_neg write) (by omega) ?_ (fun _ _ => wp) ?_
      · rw [not_read]
        nofun
      · have kernel := (inv.pending not_read not_full).kernel
        rw [wp, List.take_zero] at kernel
        exact kernel

end Scc.Libc.Stdio
