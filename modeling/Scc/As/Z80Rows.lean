import Scc.As.Z80Fields

/-!
# The rows of the Z80 one by one

A row is right when it keeps exactly the operands that fit. There is one result for every way
in which a format writes its numbers.
-/

namespace Scc.As.Z80

open Scc.Lib Scc.As.Match Scc.As.Match.X80

set_option autoImplicit false

variable {nps : List Operand} {op : Op} {buf : List UInt8} {pc : UInt64}

theorem plain_matched (as : List Arg)
    (matched : match_ check (str2args (as.map .once)) (nps.map Operand.node) = .success) :
    List.Forall₂ (fun a np => check a np.node = .ok) as nps := by
  cases nps with
  | nil =>
    cases as with
    | nil => exact .nil
    | cons a as => cases matched
  | cons np nps =>
    rw [match_operands _ (by simp)] at matched
    have plain : ∀ e ∈ as.map (Elem.once (α := Arg)), ∃ a, e = .once a ∧
        Sound check (fun a x => check a x = .ok) a := by
      intro e member
      rcases List.mem_map.mp member with ⟨a, _, rfl⟩
      exact ⟨a, rfl, fun _ => Iff.rfl⟩
    have splits := (plain_success _ plain _).mp matched
    exact List.forall₂_map_right_iff.mp splits.onces

variable {a : Arg} {np : Operand} {siz : Nat}

theorem one_matched (args : op.args = [.once a])
    (matched : match_ check (str2args op.args) (nps.map Operand.node) = .success) :
    ∃ np, nps = [np] ∧ check a np.node = .ok := by
  rw [args] at matched
  cases plain_matched [a] matched with
  | cons first rest =>
    cases rest
    exact ⟨_, rfl, first⟩

theorem two_matched {a b : Arg} (args : op.args = [.once a, .once b])
    (matched : match_ check (str2args op.args) (nps.map Operand.node) = .success) :
    ∃ np nq, nps = [np, nq] ∧ check a np.node = .ok ∧ check b nq.node = .ok := by
  rw [args] at matched
  cases plain_matched [a, b] matched with
  | cons first rest =>
    cases rest with
    | cons second rest =>
      cases rest
      exact ⟨_, _, rfl, first, second⟩

theorem three_matched {a b c : Arg} (args : op.args = [.once a, .once b, .once c])
    (matched : match_ check (str2args op.args) (nps.map Operand.node) = .success) :
    ∃ np nq nr, nps = [np, nq, nr] ∧ check a np.node = .ok ∧ check b nq.node = .ok ∧
      check c nr.node = .ok := by
  rw [args] at matched
  cases plain_matched [a, b, c] matched with
  | cons first rest =>
    cases rest with
    | cons second rest =>
      cases rest with
      | cons third rest =>
        cases rest
        exact ⟨_, _, _, rfl, first, second, third⟩

theorem imm_accepted {width : Width} {listed : width ≠ .AIMM2 ∧ width ≠ .AIMM5}
    (accepted : check (.AIMM width listed) np.node = .ok) :
    ∃ isIden value, np = .imm isIden value ∧ value.toNat < 2 ^ width.bound := by
  have narrow : width ≠ .AIMM64 := by
    intro wide
    subst wide
    cases np <;> cases accepted
  have sat := (imm_sound width np.node narrow).mp accepted
  cases np with
  | imm isIden value => exact ⟨isIden, value, rfl, sat⟩
  | _ => cases sat

theorem index_accepted {r : Reg} {listed : r = .IX ∨ r = .IY}
    (accepted : check (.AINDEX r listed) np.node = .ok) : ∃ s off, np = .index s off := by
  cases np with
  | index s off => exact ⟨s, off, rfl⟩
  | _ => cases accepted

theorem direct_accepted (accepted : check .ADIRECT np.node = .ok) : ∃ value, np = .direct value := by
  cases np with
  | direct value => exact ⟨value, rfl⟩
  | _ => cases accepted

theorem zero_accepted (accepted : check .AZERO np.node = .ok) : ∃ isIden value, np = .imm isIden value := by
  cases np with
  | imm isIden value => exact ⟨isIden, value, rfl⟩
  | _ => cases accepted

theorem rst_accepted (accepted : check .ARST np.node = .ok) : ∃ isIden value, np = .imm isIden value ∧
      value ∈ [0x00, 0x08, 0x10, 0x18, 0x20, 0x28, 0x30, (0x38 : UInt64)] := by
  cases np with
  | imm isIden value =>
    refine ⟨isIden, value, rfl, (rst_iff value).mp ?_⟩
    exact of_decide_eq_true ((ofBool_ok _).mp accepted)
  | _ => cases accepted

theorem indirect_accepted {r : Reg} {listed : r ∈ indirect}
    (accepted : check (.AINDER r listed) np.node = .ok) : ∃ s, np = .indir s := by
  cases np with
  | indir s => exact ⟨s, rfl⟩
  | _ => cases accepted

/-- The registers of an argument all have a number. -/
def writes (toInt : Operand → Except Failure UInt8) : Arg → Bool
  | .AREG r _ => (toInt (.reg r)).toBool
  | .AREG_CLASS class_ => class_.members.all fun r => (toInt (.reg r)).toBool
  | _ => false

theorem ok_of_toBool {val : Except Failure UInt8} (holds : val.toBool = true) : ∃ bits, val = .ok bits := by
  cases val with
  | ok bits => exact ⟨bits, rfl⟩
  | error failure => cases holds

theorem register_accepted {toInt : Operand → Except Failure UInt8}
    (written : writes toInt a = true) (accepted : check a np.node = .ok) :
    ∃ r bits, np = .reg r ∧ toInt (.reg r) = .ok bits := by
  cases a with
  | AREG r listed =>
    cases np with
    | reg s =>
      have same : s = r := of_decide_eq_true ((ofBool_ok _).mp accepted)
      rcases ok_of_toBool written with ⟨bits, done⟩
      exact ⟨s, bits, rfl, same ▸ done⟩
    | _ => cases accepted
  | AREG_CLASS class_ =>
    cases np with
    | reg s =>
      have member := (members_iff class_ s).mp ((ofBool_ok _).mp accepted)
      rcases ok_of_toBool (List.all_eq_true.mp written s member) with ⟨bits, done⟩
      exact ⟨s, bits, rfl, done⟩
    | _ => cases accepted
  | _ => cases written

theorem reg2int_small {bits : UInt8} (done : reg2int np = .ok bits) : bits.toNat < 8 := by
  unfold reg2int at done
  split at done <;> cases done <;> decide

@[simp] theorem ok_bind {α β : Type} (val : α) (next : α → Except Failure β) :
    (Except.ok val >>= next) = next val := rfl

/-- The row keeps exactly the operands that fit. -/
def Op.Right (op : Op) : Prop :=
  ∀ pc nps, match_ check (str2args op.args) (nps.map Operand.node) = .success →
    (op.AllFit nps ∨ ∃ buf, runFormat pc op nps = .ok buf) ∧
      ∀ buf, runFormat pc op nps = .ok buf →
        (Told op pc buf 0 (pairs op.args nps) ↔ op.AllFit nps)

section

variable {op : Op} {pc : UInt64} {nps : List Operand} {buf : List UInt8}

theorem right_of_run (emitted : runFormat pc op nps = .ok buf)
    (told : Told op pc buf 0 (pairs op.args nps) ↔ op.AllFit nps) :
    (op.AllFit nps ∨ ∃ buf, runFormat pc op nps = .ok buf) ∧ ∀ buf, runFormat pc op nps = .ok buf →
        (Told op pc buf 0 (pairs op.args nps) ↔ op.AllFit nps) := by
  refine ⟨Or.inr ⟨buf, emitted⟩, ?_⟩
  intro other same
  rw [emitted] at same
  cases same
  exact told

/-- The field of an operand reads as the operand. -/
def Op.Tells (op : Op) (pc : UInt64) (buf : List UInt8) (k : Nat) (a : Arg) (np : Operand) :
    Prop :=
  ∀ field value, op.field k a = some field → np.number = some value → field.decode pc buf = value

variable {a : Arg} {k : Nat} {np : Operand} {isIden : Bool} {value : UInt64} {width : Width}

theorem told_cons {rest : List (Arg × Operand)} (here : op.Tells pc buf k a np ↔ op.Fits a np)
    (later : Told op pc buf (k + 1) rest ↔ ∀ pair ∈ rest, op.Fits pair.1 pair.2) :
    Told op pc buf k ((a, np) :: rest) ↔ ∀ pair ∈ (a, np) :: rest, op.Fits pair.1 pair.2 := by
  rw [List.forall_mem_cons]
  exact and_congr here later

theorem told_nil : Told op pc buf k [] ↔ ∀ pair ∈ ([] : List (Arg × Operand)), op.Fits pair.1 pair.2 := by
  simp [Told]

theorem one_told (args : op.args = [.once a]) (first : op.Tells pc buf 0 a np ↔ op.Fits a np) :
    Told op pc buf 0 (pairs op.args [np]) ↔ op.AllFit [np] := by
  rw [Op.AllFit, args]
  exact told_cons first told_nil

theorem two_told {a b : Arg} {np nq : Operand} (args : op.args = [.once a, .once b])
    (first : op.Tells pc buf 0 a np ↔ op.Fits a np) (second : op.Tells pc buf 1 b nq ↔ op.Fits b nq) :
    Told op pc buf 0 (pairs op.args [np, nq]) ↔ op.AllFit [np, nq] := by
  rw [Op.AllFit, args]
  exact told_cons first (told_cons second told_nil)

theorem three_told {a b c : Arg} {np nq nr : Operand} (args : op.args = [.once a, .once b, .once c])
    (first : op.Tells pc buf 0 a np ↔ op.Fits a np) (second : op.Tells pc buf 1 b nq ↔ op.Fits b nq)
    (third : op.Tells pc buf 2 c nr ↔ op.Fits c nr) :
    Told op pc buf 0 (pairs op.args [np, nq, nr]) ↔ op.AllFit [np, nq, nr] := by
  rw [Op.AllFit, args]
  exact told_cons first (told_cons second (told_cons third told_nil))

theorem tells_field {field : Field} {value : Int}
    (here : op.field k a = some field) (number : np.number = some value) :
    op.Tells pc buf k a np ↔ field.decode pc buf = value := by
  simp [Op.Tells, here, number]

def numberless : Arg → Bool
  | .AREG _ _ | .AINDER _ _ | .AREG_CLASS _ | .ASYM | .ASTR => true
  | _ => false

theorem tells_numberless (none_ : numberless a = true) : op.Tells pc buf k a np ↔ op.Fits a np := by
  cases a with
  | AINDEX r listed => cases none_
  | ARST => cases none_
  | AZERO => cases none_
  | AIMM width listed => cases none_
  | ADIRECT => cases none_
  | _ => simp [Op.Tells, Op.field, Op.Fits]

theorem writes_numberless {toInt : Operand → Except Failure UInt8}
    (written : writes toInt a = true) : numberless a = true := by
  cases a with
  | AREG r listed => rfl
  | AREG_CLASS class_ => rfl
  | _ => cases written

theorem tells_register {toInt : Operand → Except Failure UInt8}
    (written : writes toInt a = true) : op.Tells pc buf k a np ↔ op.Fits a np :=
  tells_numberless (writes_numberless written)

theorem tells_offset {r s : Reg} {listed : r = .IX ∨ r = .IY} {off : UInt64}
    (third : buf.getD 2 0 = off.toUInt8) : op.Tells pc buf k (.AINDEX r listed) (.index s off) ↔
      op.Fits (.AINDEX r listed) (.index s off) := by
  have here : op.field k (.AINDEX r listed) = some .offset := rfl
  rw [tells_field here rfl]
  change signed (buf.getD 2 0) = signed64 off ↔ _
  rw [third]
  exact offset_recovered off

variable {listed : width ≠ .AIMM2 ∧ width ≠ .AIMM5}

theorem tells_byte (here : op.field k (.AIMM width listed) = some (.number (op.size - 1) 1))
    (absolute : op.format ≠ .im ∧ op.format ≠ .jr) (bound : value.toNat < 2 ^ 8)
    (last : (buf.drop (op.size - 1)).take 1 = [value.toUInt8]) :
    op.Tells pc buf k (.AIMM width listed) (.imm isIden value) ↔
      op.Fits (.AIMM width listed) (.imm isIden value) := by
  rw [tells_field here rfl]
  have kept : unsigned ((buf.drop (op.size - 1)).take 1) = value.toNat := by
    rw [last]
    exact (byte_recovered value).mpr bound
  simp [Field.decode, kept, Op.Fits, absolute]

theorem tells_address (format_ : op.format ≠ .inout)
    (last : (buf.drop (op.size - 2)).take 2 = [value.toUInt8, (value.toUInt32 >>> 8).toUInt8]) :
    op.Tells pc buf k .ADIRECT (.direct value) ↔ op.Fits .ADIRECT (.direct value) := by
  have here : op.field k .ADIRECT = some (.number (op.size - 2) 2) := by
    simp [Op.field]
  rw [tells_field here rfl]
  simp only [Field.decode, last, Op.Fits, format_, if_false]
  rw [Int.ofNat_inj]
  exact word_recovered value

theorem tells_word {listed : Width.AIMM16 ≠ .AIMM2 ∧ Width.AIMM16 ≠ .AIMM5}
    (format_ : op.format = .ld16 ∨ op.format = .jp) (bound : value.toNat < 2 ^ 16)
    (last : (buf.drop (op.size - 2)).take 2 = [value.toUInt8, (value.toUInt32 >>> 8).toUInt8]) :
    op.Tells pc buf k (.AIMM .AIMM16 listed) (.imm isIden value) ↔
      op.Fits (.AIMM .AIMM16 listed) (.imm isIden value) := by
  have here : op.field k (.AIMM .AIMM16 listed) = some (.number (op.size - 2) 2) := by
    rcases format_ with format_ | format_ <;> simp [Op.field, format_]
  rw [tells_field here rfl]
  have kept := (word_recovered value).mpr bound
  rcases format_ with format_ | format_ <;>
    simp [Field.decode, last, kept, Op.Fits, format_]

theorem tells_port (format_ : op.format = .inout) (last : (buf.drop (op.size - 1)).take 1 = [value.toUInt8]) :
    op.Tells pc buf k .ADIRECT (.direct value) ↔ op.Fits .ADIRECT (.direct value) := by
  have here : op.field k .ADIRECT = some (.number (op.size - 1) 1) := by
    simp [Op.field, format_]
  rw [tells_field here rfl]
  simp only [Field.decode, last, Op.Fits, format_, if_true]
  rw [Int.ofNat_inj]
  exact byte_recovered value

theorem tells_bits (format_ : op.format = .rotBit) (kept : middle (buf.getD (op.size - 1) 0) = value.toNat) :
    op.Tells pc buf k (.AIMM width listed) (.imm isIden value) ↔
      op.Fits (.AIMM width listed) (.imm isIden value) := by
  have here : op.field k (.AIMM width listed) = some (.bits (op.size - 1)) := by
    simp [Op.field, format_]
  rw [tells_field here rfl]
  simp only [Field.decode, kept, Op.Fits, format_]
  simp

theorem tells_target (format_ : op.format = .jr)
    (second : buf.getD 1 0 = (value.toUInt32.toUInt64 - (pc - 2)).toUInt8) :
    op.Tells pc buf k (.AIMM width listed) (.imm isIden value) ↔
      op.Fits (.AIMM width listed) (.imm isIden value) := by
  have here : op.field k (.AIMM width listed) = some .target := by
    simp [Op.field, format_]
  rw [tells_field here rfl]
  have lost := target_lost pc value
  simp only [Field.decode, second, Op.Fits, format_]
  simpa using lost

theorem tells_mode {b : UInt8} (format_ : op.format = .im)
    (clear : middle b = 0) (bound : value.toNat < 2 ^ 8)
    (second : buf.getD 1 0 = b ||| ((if 0 < value.toUInt32 then value.toUInt32 + 1
      else value.toUInt32) <<< 3).toUInt8) : op.Tells pc buf k (.AIMM width listed) (.imm isIden value) ↔
      op.Fits (.AIMM width listed) (.imm isIden value) := by
  have here : op.field k (.AIMM width listed) = some .mode := by
    simp [Op.field, format_]
  rw [tells_field here rfl]
  simp only [Field.decode, second, Op.Fits, format_]
  rw [Int.ofNat_inj, mode_recovered clear bound]
  simp

theorem tells_zero : op.Tells pc buf k .AZERO (.imm isIden value) ↔ op.Fits .AZERO (.imm isIden value) := by
  have here : op.field k .AZERO = some .zero := rfl
  rw [tells_field here rfl]
  change (0 : Int) = (value.toNat : Int) ↔ value = 0
  rw [← UInt64.toNat_inj]
  have zero : (0 : UInt64).toNat = 0 := rfl
  omega

theorem tells_restart (kept : middle (buf.getD 0 0) * 8 = value.toNat) :
    op.Tells pc buf k .ARST (.imm isIden value) ↔ op.Fits .ARST (.imm isIden value) := by
  have here : op.field k .ARST = some .restart := rfl
  rw [tells_field here rfl]
  simp [Field.decode, Op.Fits, ← kept]

end

/-- A register, or an address in one, in front of a number. -/
def leads : Arg → Bool
  | .AINDER _ _ => true
  | a => writes reg2int a

theorem leads_numberless (leading : leads a = true) : numberless a = true := by
  cases a with
  | AINDER r listed => rfl
  | AREG r listed => rfl
  | AREG_CLASS class_ => rfl
  | _ => cases leading

theorem leads_accepted (leading : leads a = true) (accepted : check a np.node = .ok) :
    (∃ s, np = .indir s) ∨ ∃ r bits, np = .reg r ∧ reg2int (.reg r) = .ok bits := by
  cases a with
  | AINDER r listed => exact Or.inl (indirect_accepted accepted)
  | AREG r listed => exact Or.inr (register_accepted (a := .AREG r listed) leading accepted)
  | AREG_CLASS class_ => exact Or.inr (register_accepted (a := .AREG_CLASS class_) leading accepted)
  | _ => cases leading

theorem tells_leading {k : Nat} (leading : leads a = true) : op.Tells pc buf k a np ↔ op.Fits a np :=
  tells_numberless (leads_numberless leading)

section

variable {op : Op} (sized : op.size = op.image.length)

include sized

variable {a : Arg} {r : Reg} {listed : Width.AIMM16 ≠ .AIMM2 ∧ Width.AIMM16 ≠ .AIMM5}

theorem ld8_right {listed : Width.AIMM8 ≠ .AIMM2 ∧ Width.AIMM8 ≠ .AIMM5}
    (format_ : op.format = .ld8) (args : op.args = [.once a, .once (.AIMM .AIMM8 listed)])
    (leading : leads a = true)
    (image : (∃ x y, op.image = [x, y]) ∨ ∃ x y z, op.image = [x, y, z]) : op.Right := by
  intro pc nps matched
  rcases two_matched args matched with ⟨np, nq, rfl, first, second⟩
  rcases imm_accepted second with ⟨isIden, value, rfl, bound⟩
  have emitted : ∃ high : UInt8, runFormat pc op [np, .imm isIden value] =
      .ok ((op.image.set (op.size - 1) value.toUInt8).modify (op.size - 2) (· ||| high)) := by
    rcases leads_accepted leading first with ⟨s, rfl⟩ | ⟨r, bits, rfl, done⟩
    · exact ⟨0, by simp [runFormat, format_, ld8]⟩
    · exact ⟨bits <<< 3, by simp [runFormat, format_, ld8, shifted, done]⟩
  rcases emitted with ⟨high, emitted⟩
  refine right_of_run emitted (two_told args (tells_leading leading) (tells_byte ?_ ?_ bound ?_))
  · simp [Op.field, format_]
  · simp [format_]
  · rcases image with ⟨x, y, image⟩ | ⟨x, y, z, image⟩ <;> simp [sized, image]

theorem idx_left_right {listed : r = .IX ∨ r = .IY}
    (format_ : op.format = .idx) (args : op.args = [.once a, .once (.AINDEX r listed)])
    (written : writes reg2int a = true) (image : ∃ x y z, op.image = [x, y, z]) : op.Right := by
  intro pc nps matched
  rcases two_matched args matched with ⟨np, nq, rfl, first, second⟩
  rcases index_accepted second with ⟨s, off, rfl⟩
  rcases register_accepted written first with ⟨reg, bits, rfl, done⟩
  rcases image with ⟨x, y, z, image⟩
  have emitted : runFormat pc op [.reg reg, .index s off] =
      .ok [x, y ||| bits <<< 3, off.toUInt8] := by
    simp [runFormat, format_, idx, idxOrdered, done, image, sized]
  exact right_of_run emitted (two_told args (tells_register written) (tells_offset rfl))

theorem idx_right_right {listed : r = .IX ∨ r = .IY}
    (format_ : op.format = .idx) (args : op.args = [.once (.AINDEX r listed), .once a])
    (written : writes reg2int a = true) (image : ∃ x y z, op.image = [x, y, z]) : op.Right := by
  intro pc nps matched
  rcases two_matched args matched with ⟨np, nq, rfl, first, second⟩
  rcases index_accepted first with ⟨s, off, rfl⟩
  rcases register_accepted written second with ⟨reg, bits, rfl, done⟩
  rcases image with ⟨x, y, z, image⟩
  have emitted : runFormat pc op [.index s off, .reg reg] = .ok [x, y ||| bits, off.toUInt8] := by
    simp [runFormat, format_, idx, idxOrdered, done, image, sized]
  exact right_of_run emitted (two_told args (tells_offset rfl) (tells_register written))

theorem idx_imm_right {listed : r = .IX ∨ r = .IY}
    {narrow : Width.AIMM8 ≠ .AIMM2 ∧ Width.AIMM8 ≠ .AIMM5} (format_ : op.format = .idx)
    (args : op.args = [.once (.AINDEX r listed), .once (.AIMM .AIMM8 narrow)])
    (image : ∃ x y z w, op.image = [x, y, z, w]) : op.Right := by
  intro pc nps matched
  rcases two_matched args matched with ⟨np, nq, rfl, first, second⟩
  rcases index_accepted first with ⟨s, off, rfl⟩
  rcases imm_accepted second with ⟨isIden, value, rfl, bound⟩
  rcases image with ⟨x, y, z, w, image⟩
  have emitted : runFormat pc op [.index s off, .imm isIden value] =
      .ok [x, y, off.toUInt8, value.toUInt8] := by
    simp [runFormat, format_, idx, idxOrdered, Operand.value, image, sized]
  refine right_of_run emitted (two_told args (tells_offset rfl) (tells_byte ?_ ?_ bound ?_))
  · simp [Op.field, format_]
  · simp [format_]
  · simp [sized, image]

theorem dir_left_right (format_ : op.format = .dir)
    (args : op.args = [.once a, .once .ADIRECT]) (written : writes reg2int a = true)
    (image : ∃ x y z, op.image = [x, y, z]) : op.Right := by
  intro pc nps matched
  rcases two_matched args matched with ⟨np, nq, rfl, first, second⟩
  rcases direct_accepted second with ⟨value, rfl⟩
  rcases register_accepted written first with ⟨reg, bits, rfl, done⟩
  rcases image with ⟨x, y, z, image⟩
  have emitted : runFormat pc op [.reg reg, .direct value] =
      .ok [x, value.toUInt8, (value.toUInt32 >>> 8).toUInt8] := by
    simp [runFormat, format_, dir, setWord, image, sized]
  refine right_of_run emitted (two_told args (tells_register written) (tells_address ?_ ?_))
  · simp [format_]
  · simp [sized, image]

theorem dir_right_right (format_ : op.format = .dir)
    (args : op.args = [.once .ADIRECT, .once a]) (written : writes reg2int a = true)
    (image : ∃ x y z, op.image = [x, y, z]) : op.Right := by
  intro pc nps matched
  rcases two_matched args matched with ⟨np, nq, rfl, first, second⟩
  rcases direct_accepted first with ⟨value, rfl⟩
  rcases register_accepted written second with ⟨reg, bits, rfl, done⟩
  rcases image with ⟨x, y, z, image⟩
  have emitted : runFormat pc op [.direct value, .reg reg] =
      .ok [x, value.toUInt8, (value.toUInt32 >>> 8).toUInt8] := by
    simp [runFormat, format_, dir, setWord, image, sized]
  refine right_of_run emitted (two_told args (tells_address ?_ ?_)
    (tells_register written))
  · simp [format_]
  · simp [sized, image]

theorem word_last (image : (∃ x y z, op.image = [x, y, z]) ∨ ∃ x y z w, op.image = [x, y, z, w])
    (value : UInt64) (high : UInt8) :
    ((((setWord op.image op.size value).modify (op.size - 3) (· ||| high)).drop
      (op.size - 2)).take 2) = [value.toUInt8, (value.toUInt32 >>> 8).toUInt8] := by
  rcases image with ⟨x, y, z, image⟩ | ⟨x, y, z, w, image⟩ <;> simp [setWord, sized, image]

theorem ld16_imm_right
    (format_ : op.format = .ld16) (args : op.args = [.once a, .once (.AIMM .AIMM16 listed)])
    (written : writes reg2int a = true)
    (image : (∃ x y z, op.image = [x, y, z]) ∨ ∃ x y z w, op.image = [x, y, z, w]) :
    op.Right := by
  intro pc nps matched
  rcases two_matched args matched with ⟨np, nq, rfl, first, second⟩
  rcases imm_accepted second with ⟨isIden, value, rfl, bound⟩
  rcases register_accepted written first with ⟨reg, bits, rfl, done⟩
  have emitted : runFormat pc op [.reg reg, .imm isIden value] =
      .ok ((setWord op.image op.size value).modify (op.size - 3) (· ||| bits <<< 4)) := by
    simp [runFormat, format_, ld16, Operand.word, Operand.value, done]
  exact right_of_run emitted (two_told args (tells_register written)
    (tells_word (Or.inl format_) bound (word_last sized image value _)))

theorem ld16_left_right (format_ : op.format = .ld16)
    (args : op.args = [.once a, .once .ADIRECT]) (written : writes reg2int a = true)
    (image : (∃ x y z, op.image = [x, y, z]) ∨ ∃ x y z w, op.image = [x, y, z, w]) :
    op.Right := by
  intro pc nps matched
  rcases two_matched args matched with ⟨np, nq, rfl, first, second⟩
  rcases direct_accepted second with ⟨value, rfl⟩
  rcases register_accepted written first with ⟨reg, bits, rfl, done⟩
  have emitted : runFormat pc op [.reg reg, .direct value] =
      .ok ((setWord op.image op.size value).modify (op.size - 3) (· ||| bits <<< 4)) := by
    simp [runFormat, format_, ld16, Operand.word, done]
  exact right_of_run emitted (two_told args (tells_register written)
    (tells_address (by simp [format_]) (word_last sized image value _)))

theorem ld16_right_right (format_ : op.format = .ld16)
    (args : op.args = [.once .ADIRECT, .once a]) (written : writes reg2int a = true)
    (image : (∃ x y z, op.image = [x, y, z]) ∨ ∃ x y z w, op.image = [x, y, z, w]) :
    op.Right := by
  intro pc nps matched
  rcases two_matched args matched with ⟨np, nq, rfl, first, second⟩
  rcases direct_accepted first with ⟨value, rfl⟩
  rcases register_accepted written second with ⟨reg, bits, rfl, done⟩
  have emitted : runFormat pc op [.direct value, .reg reg] =
      .ok ((setWord op.image op.size value).modify (op.size - 3) (· ||| bits <<< 4)) := by
    simp [runFormat, format_, ld16, Operand.word, done]
  exact right_of_run emitted (two_told args
    (tells_address (by simp [format_]) (word_last sized image value _)) (tells_register written))

theorem jp_right (format_ : op.format = .jp) (args : op.args = [.once (.AIMM .AIMM16 listed)])
    (image : ∃ x y z, op.image = [x, y, z]) : op.Right := by
  intro pc nps matched
  rcases one_matched args matched with ⟨np, rfl, first⟩
  rcases imm_accepted first with ⟨isIden, value, rfl, bound⟩
  rcases image with ⟨x, y, z, image⟩
  have emitted : runFormat pc op [.imm isIden value] =
      .ok [x, value.toUInt8, (value.toUInt32 >>> 8).toUInt8] := by
    simp [runFormat, format_, jp, branch, branchTarget, setWord, image, sized]
  exact right_of_run emitted (one_told args
    (tells_word (Or.inr format_) bound (by simp [sized, image])))

theorem jp_flag_right (format_ : op.format = .jp) (args : op.args = [.once a, .once (.AIMM .AIMM16 listed)])
    (written : writes cc2int a = true) (image : ∃ x y z, op.image = [x, y, z]) : op.Right := by
  intro pc nps matched
  rcases two_matched args matched with ⟨np, nq, rfl, first, second⟩
  rcases imm_accepted second with ⟨isIden, value, rfl, bound⟩
  rcases register_accepted written first with ⟨reg, bits, rfl, done⟩
  have emitted : runFormat pc op [.reg reg, .imm isIden value] =
      .ok ((setWord op.image op.size value).modify (op.size - 3) (· ||| bits <<< 3)) := by
    simp [runFormat, format_, jp, branch, branchTarget, Operand.value, done, Nat.sub_sub]
  refine right_of_run emitted (two_told args (tells_register written)
    (tells_word (Or.inr format_) bound ?_))
  exact word_last sized (Or.inl image) value _

theorem alu8_imm_right {listed : Width.AIMM8 ≠ .AIMM2 ∧ Width.AIMM8 ≠ .AIMM5}
    (format_ : op.format = .alu8) (args : op.args = [.once a, .once (.AIMM .AIMM8 listed)])
    (numberless_ : numberless a = true) (image : ∃ x, op.image = [x, 0]) : op.Right := by
  intro pc nps matched
  rcases two_matched args matched with ⟨np, nq, rfl, first, second⟩
  rcases imm_accepted second with ⟨isIden, value, rfl, bound⟩
  rcases image with ⟨x, image⟩
  have emitted : runFormat pc op [np, .imm isIden value] = .ok [x, value.toUInt8] := by
    simp [runFormat, format_, alu8, image, sized]
  refine right_of_run emitted (two_told args (tells_numberless numberless_)
    (tells_byte ?_ ?_ bound ?_))
  · simp [Op.field, format_]
  · simp [format_]
  · simp [sized, image]

theorem alu8_index_right {listed : r = .IX ∨ r = .IY}
    (format_ : op.format = .alu8) (args : op.args = [.once a, .once (.AINDEX r listed)])
    (numberless_ : numberless a = true) (image : ∃ x y, op.image = [x, y, 0]) : op.Right := by
  intro pc nps matched
  rcases two_matched args matched with ⟨np, nq, rfl, first, second⟩
  rcases index_accepted second with ⟨s, off, rfl⟩
  rcases image with ⟨x, y, image⟩
  have emitted : runFormat pc op [np, .index s off] = .ok [x, y, off.toUInt8] := by
    simp [runFormat, format_, alu8, image, sized]
  exact right_of_run emitted (two_told args (tells_numberless numberless_) (tells_offset rfl))

theorem alu8_one_right {listed : r = .IX ∨ r = .IY} (format_ : op.format = .alu8)
    (args : op.args = [.once (.AINDEX r listed)]) (image : ∃ x y, op.image = [x, y, 0]) :
    op.Right := by
  intro pc nps matched
  rcases one_matched args matched with ⟨np, rfl, first⟩
  rcases index_accepted first with ⟨s, off, rfl⟩
  rcases image with ⟨x, y, image⟩
  have emitted : runFormat pc op [.index s off] = .ok [x, y, off.toUInt8] := by
    simp [runFormat, format_, alu8, image, sized]
  exact right_of_run emitted (one_told args (tells_offset rfl))

theorem rotBit_one_right {listed : r = .IX ∨ r = .IY} (format_ : op.format = .rotBit)
    (args : op.args = [.once (.AINDEX r listed)]) (image : ∃ x y z w, op.image = [x, y, z, w]) :
    op.Right := by
  intro pc nps matched
  rcases one_matched args matched with ⟨np, rfl, first⟩
  rcases index_accepted first with ⟨s, off, rfl⟩
  rcases image with ⟨x, y, z, w, image⟩
  have emitted : runFormat pc op [.index s off] = .ok [x, y, off.toUInt8, w] := by
    simp [runFormat, format_, rotBit, rotBitParameter, image, sized]
  exact right_of_run emitted (one_told args (tells_offset rfl))

theorem rotBit_copy_right {listed : r = .IX ∨ r = .IY}
    (format_ : op.format = .rotBit) (args : op.args = [.once (.AINDEX r listed), .once a])
    (written : writes reg2int a = true) (image : ∃ x y z w, op.image = [x, y, z, w]) :
    op.Right := by
  intro pc nps matched
  rcases two_matched args matched with ⟨np, nq, rfl, first, second⟩
  rcases index_accepted first with ⟨s, off, rfl⟩
  rcases register_accepted written second with ⟨reg, bits, rfl, done⟩
  rcases image with ⟨x, y, z, w, image⟩
  have emitted : runFormat pc op [.index s off, .reg reg] =
      .ok [x, y, off.toUInt8, w ||| bits] := by
    simp [runFormat, format_, rotBit, rotBitParameter, image, sized, done]
  exact right_of_run emitted (two_told args (tells_offset rfl) (tells_register written))

theorem rotBit_bit_right {listed : Width.AIMM3 ≠ .AIMM2 ∧ Width.AIMM3 ≠ .AIMM5}
    (format_ : op.format = .rotBit) (args : op.args = [.once (.AIMM .AIMM3 listed), .once a])
    (leading : leads a = true) (image : ∃ x b, op.image = [x, b] ∧ middle b = 0) : op.Right := by
  intro pc nps matched
  rcases two_matched args matched with ⟨np, nq, rfl, first, second⟩
  rcases imm_accepted first with ⟨isIden, value, rfl, bound⟩
  rcases image with ⟨x, b, image, clear⟩
  have emitted : ∃ low : UInt8, low.toNat < 8 ∧ runFormat pc op [.imm isIden value, nq] =
      .ok [x, b ||| (value <<< 3).toUInt8 ||| low] := by
    rcases leads_accepted leading second with ⟨s, rfl⟩ | ⟨r, bits, rfl, done⟩
    · refine ⟨0, by decide, ?_⟩
      simp [runFormat, format_, rotBit, rotBitParameter, image, sized]
    · refine ⟨bits, reg2int_small done, ?_⟩
      simp [runFormat, format_, rotBit, rotBitParameter, image, sized, done]
  rcases emitted with ⟨low, small, emitted⟩
  refine right_of_run emitted (two_told args (tells_bits format_ ?_)
    (tells_leading leading))
  simpa [sized, image] using middle_bits clear small bound

theorem rotBit_index_right {indexed : r = .IX ∨ r = .IY}
    {listed : Width.AIMM3 ≠ .AIMM2 ∧ Width.AIMM3 ≠ .AIMM5} (format_ : op.format = .rotBit)
    (args : op.args = [.once (.AIMM .AIMM3 listed), .once (.AINDEX r indexed)])
    (image : ∃ x y z b, op.image = [x, y, z, b] ∧ middle b = 0) : op.Right := by
  intro pc nps matched
  rcases two_matched args matched with ⟨np, nq, rfl, first, second⟩
  rcases imm_accepted first with ⟨isIden, value, rfl, bound⟩
  rcases index_accepted second with ⟨s, off, rfl⟩
  rcases image with ⟨x, y, z, b, image, clear⟩
  have emitted : runFormat pc op [.imm isIden value, .index s off] =
      .ok [x, y, off.toUInt8, b ||| (value <<< 3).toUInt8] := by
    simp [runFormat, format_, rotBit, rotBitParameter, image, sized]
  refine right_of_run emitted (two_told args (tells_bits format_ ?_) (tells_offset rfl))
  have kept : middle (b ||| (value <<< 3).toUInt8 ||| 0) = value.toNat :=
    middle_bits clear (by decide) bound
  simpa [sized, image] using kept

theorem rotBit_triple_right {indexed : r = .IX ∨ r = .IY}
    {listed : Width.AIMM3 ≠ .AIMM2 ∧ Width.AIMM3 ≠ .AIMM5} (format_ : op.format = .rotBit)
    (args : op.args = [.once (.AIMM .AIMM3 listed), .once (.AINDEX r indexed), .once a])
    (written : writes reg2int a = true)
    (image : ∃ x y z b, op.image = [x, y, z, b] ∧ middle b = 0) : op.Right := by
  intro pc nps matched
  rcases three_matched args matched with ⟨np, nq, nr, rfl, first, second, third⟩
  rcases imm_accepted first with ⟨isIden, value, rfl, bound⟩
  rcases index_accepted second with ⟨s, off, rfl⟩
  rcases register_accepted written third with ⟨reg, bits, rfl, done⟩
  rcases image with ⟨x, y, z, b, image, clear⟩
  have emitted : runFormat pc op [.imm isIden value, .index s off, .reg reg] =
      .ok [x, y, off.toUInt8, b ||| (value <<< 3).toUInt8 ||| bits] := by
    simp [runFormat, format_, rotBit, rotBitParameter, image, sized, done]
  refine right_of_run emitted (three_told args (tells_bits format_ ?_) (tells_offset rfl)
    (tells_register written))
  simpa [sized, image] using middle_bits clear (reg2int_small done) bound

theorem im_right {listed : Width.AIMM8 ≠ .AIMM2 ∧ Width.AIMM8 ≠ .AIMM5}
    (format_ : op.format = .im) (args : op.args = [.once (.AIMM .AIMM8 listed)])
    (image : ∃ x b, op.image = [x, b] ∧ middle b = 0) : op.Right := by
  intro pc nps matched
  rcases one_matched args matched with ⟨np, rfl, first⟩
  rcases imm_accepted first with ⟨isIden, value, rfl, bound⟩
  rcases image with ⟨x, b, image, clear⟩
  have emitted : runFormat pc op [.imm isIden value] = .ok [x, b ||| ((if 0 < value.toUInt32
      then value.toUInt32 + 1 else value.toUInt32) <<< 3).toUInt8] := by
    simp [runFormat, format_, im, Operand.value, image, sized]
  exact right_of_run emitted (one_told args (tells_mode format_ clear bound rfl))

theorem inout_left_right (format_ : op.format = .inout)
    (args : op.args = [.once a, .once .ADIRECT]) (written : writes reg2int a = true)
    (image : ∃ x, op.image = [x, 0]) : op.Right := by
  intro pc nps matched
  rcases two_matched args matched with ⟨np, nq, rfl, first, second⟩
  rcases direct_accepted second with ⟨value, rfl⟩
  rcases register_accepted written first with ⟨reg, bits, rfl, done⟩
  rcases image with ⟨x, image⟩
  have emitted : runFormat pc op [.reg reg, .direct value] = .ok [x, value.toUInt8] := by
    simp [runFormat, format_, inout, image, sized]
  exact right_of_run emitted (two_told args (tells_register written)
    (tells_port format_ (by simp [sized, image])))

theorem inout_right_right (format_ : op.format = .inout)
    (args : op.args = [.once .ADIRECT, .once a]) (written : writes reg2int a = true)
    (image : ∃ x, op.image = [x, 0]) : op.Right := by
  intro pc nps matched
  rcases two_matched args matched with ⟨np, nq, rfl, first, second⟩
  rcases direct_accepted first with ⟨value, rfl⟩
  rcases register_accepted written second with ⟨reg, bits, rfl, done⟩
  rcases image with ⟨x, image⟩
  have emitted : runFormat pc op [.direct value, .reg reg] = .ok [x, value.toUInt8] := by
    simp [runFormat, format_, inout, image, sized]
  exact right_of_run emitted (two_told args (tells_port format_ (by simp [sized, image]))
    (tells_register written))

omit sized in
theorem inout_zero_right {listed : r ∈ indirect} (format_ : op.format = .inout)
    (args : op.args = [.once (.AINDER r listed), .once .AZERO]) : op.Right := by
  intro pc nps matched
  rcases two_matched args matched with ⟨np, nq, rfl, first, second⟩
  rcases indirect_accepted first with ⟨s, rfl⟩
  rcases zero_accepted second with ⟨isIden, value, rfl⟩
  have emitted : ∃ buf, runFormat pc op [.indir s, .imm isIden value] = .ok buf :=
    ⟨_, by simp [runFormat, format_, inout]; rfl⟩
  rcases emitted with ⟨buf, emitted⟩
  exact right_of_run emitted (two_told args (tells_numberless rfl) tells_zero)

theorem jr_right (format_ : op.format = .jr) (args : op.args = [.once (.AIMM .AIMM16 listed)])
    (image : ∃ x y, op.image = [x, y]) : op.Right := by
  intro pc nps matched
  rcases one_matched args matched with ⟨np, rfl, first⟩
  rcases imm_accepted first with ⟨isIden, value, rfl, bound⟩
  rcases image with ⟨x, y, image⟩
  have emitted : runFormat pc op [.imm isIden value] =
      .ok [x, (value.toUInt32.toUInt64 - (pc - 2)).toUInt8] := by
    simp [runFormat, format_, jr, branch, branchTarget, image, sized]
  exact right_of_run emitted (one_told args (tells_target format_ rfl))

theorem jr_flag_right (format_ : op.format = .jr) (args : op.args = [.once a, .once (.AIMM .AIMM16 listed)])
    (written : writes ss2int a = true) (image : ∃ x y, op.image = [x, y]) : op.Right := by
  intro pc nps matched
  rcases two_matched args matched with ⟨np, nq, rfl, first, second⟩
  rcases imm_accepted second with ⟨isIden, value, rfl, bound⟩
  rcases register_accepted written first with ⟨reg, bits, rfl, done⟩
  rcases image with ⟨x, y, image⟩
  have emitted : runFormat pc op [.reg reg, .imm isIden value] =
      .ok [x ||| bits <<< 3, (value.toUInt32.toUInt64 - (pc - 2)).toUInt8] := by
    simp [runFormat, format_, jr, branch, branchTarget, Operand.value, image, sized, done]
  exact right_of_run emitted (two_told args (tells_register written) (tells_target format_ rfl))

omit sized in
theorem rst_right (format_ : op.format = .rst) (args : op.args = [.once .ARST])
    (image : ∃ b, op.image = [b] ∧ middle b = 0) : op.Right := by
  intro pc nps matched
  rcases one_matched args matched with ⟨np, rfl, first⟩
  rcases rst_accepted first with ⟨isIden, value, rfl, member⟩
  rcases image with ⟨b, image, clear⟩
  have emitted : runFormat pc op [.imm isIden value] = .ok [b ||| value.toUInt8] := by
    simp [runFormat, format_, rst, Operand.value, image]
  have kept : middle (b ||| value.toUInt8) * 8 = value.toNat := by
    rw [middle_or, clear, Nat.zero_or]
    simp only [List.mem_cons, List.not_mem_nil, or_false] at member
    rcases member with rfl | rfl | rfl | rfl | rfl | rfl | rfl | rfl <;> rfl
  exact right_of_run emitted (one_told args (tells_restart kept))

end

theorem pairs_arg {es : List (Elem Arg)} {pair : Arg × Operand}
    (member : pair ∈ pairs es nps) : ∃ e ∈ es, e.arg = pair.1 := by
  induction es generalizing nps with
  | nil => cases member
  | cons e es ih =>
    have later : ∀ {nps : List Operand}, pair ∈ pairs es nps → ∃ d ∈ e :: es, d.arg = pair.1 := by
      intro nps inside
      rcases ih inside with ⟨d, inside, same⟩
      exact ⟨d, List.mem_cons_of_mem _ inside, same⟩
    cases e with
    | rep a =>
      rcases List.mem_map.mp member with ⟨np, _, rfl⟩
      exact ⟨.rep a, List.mem_cons_self, rfl⟩
    | once a =>
      cases nps with
      | nil => cases member
      | cons np nps =>
        rcases List.mem_cons.mp member with rfl | member
        · exact ⟨.once a, List.mem_cons_self, rfl⟩
        · exact later member
    | opt a =>
      cases nps with
      | nil => cases member
      | cons np nps =>
        rcases List.mem_cons.mp member with rfl | member
        · exact ⟨.opt a, List.mem_cons_self, rfl⟩
        · exact later member

theorem told_each {l : List (Arg × Operand)} :
    ∀ k, (∀ pair ∈ l, ∀ k, op.Tells pc buf k pair.1 pair.2 ↔ op.Fits pair.1 pair.2) →
      (Told op pc buf k l ↔ ∀ pair ∈ l, op.Fits pair.1 pair.2) := by
  induction l with
  | nil =>
    intro k _
    exact told_nil
  | cons pair l ih =>
    intro k each
    apply told_cons (each pair List.mem_cons_self k)
    exact ih (k + 1) fun pair member => each pair (List.mem_cons_of_mem _ member)

theorem numberless_fits (none_ : numberless a = true) (np : Operand) : op.Fits a np := by
  cases a with
  | AINDEX r listed => cases none_
  | ARST => cases none_
  | AZERO => cases none_
  | AIMM width listed => cases none_
  | ADIRECT => cases none_
  | _ => trivial

theorem numberless_right (all : ∀ e ∈ op.args, numberless e.arg = true) :
    op.Right := by
  intro pc nps _
  have none_ : ∀ pair ∈ pairs op.args nps, numberless pair.1 = true := by
    intro pair member
    rcases pairs_arg member with ⟨e, inside, same⟩
    rw [← same]
    exact all e inside
  constructor
  · exact Or.inl fun pair member => numberless_fits (none_ pair member) pair.2
  · intro buf _
    exact told_each 0 fun pair member k => tells_numberless (none_ pair member)

/-! Directives with a list of numbers. -/

theorem tobytes_recovered {v : UInt64} {nbytes : Nat} {bytes : List UInt8}
    (done : tobytes v nbytes = .ok bytes) : bytes.length = nbytes ∧ unsigned bytes = v.toNat := by
  induction nbytes generalizing v bytes with
  | zero =>
    unfold tobytes at done
    split_ifs at done with empty
    cases done
    exact ⟨rfl, by rw [empty]; rfl⟩
  | succ nbytes ih =>
    unfold tobytes at done
    cases rest : tobytes (v >>> 8) nbytes with
    | error failure =>
      rw [rest] at done
      cases done
    | ok later =>
      rw [rest] at done
      cases done
      rcases ih rest with ⟨length, value⟩
      have shift : (v >>> 8).toNat = v.toNat / 2 ^ 8 := by
        rw [UInt64.toNat_shiftRight, Nat.shiftRight_eq_div_pow]
        rfl
      constructor
      · rw [List.length_cons, length]
      · rw [unsigned, value, shift, UInt64.toNat_toUInt8]
        omega

theorem def_cons {args : List Operand} (done : def_ siz (np :: args) = .ok buf) :
    ∃ value bytes rest, np.value = .ok value ∧ tobytes value siz = .ok bytes ∧
      def_ siz args = .ok rest ∧ buf = bytes ++ rest := by
  unfold def_ at done
  cases read : np.value with
  | error failure =>
    rw [read] at done
    cases done
  | ok value =>
    rw [read, ok_bind] at done
    cases wrote : tobytes value siz with
    | error failure =>
      rw [wrote] at done
      cases done
    | ok bytes =>
      rw [wrote, ok_bind] at done
      cases later : def_ siz args with
      | error failure =>
        rw [later] at done
        cases done
      | ok rest =>
        rw [later, ok_bind] at done
        cases done
        exact ⟨value, bytes, rest, rfl, wrote, rfl, rfl⟩

theorem value_number {value : UInt64} (read : np.value = .ok value) :
    np.number = some (value.toNat : Int) := by
  cases np with
  | direct _ => cases read
  | indir _ => cases read
  | index _ _ => cases read
  | _ =>
    cases read
    rfl

theorem def_told (field : ∀ k, op.field k a = some (.number (siz * k) siz)) :
    ∀ {k front rest}, front.length = siz * k → def_ siz nps = .ok rest →
      Told op pc (front ++ rest) k (nps.map fun np => (a, np)) := by
  induction nps with
  | nil => exact fun _ _ => trivial
  | cons np nps ih =>
    intro k front rest length done
    rcases def_cons done with ⟨value, bytes, later, read, wrote, next, rfl⟩
    rcases tobytes_recovered wrote with ⟨size, kept⟩
    constructor
    · intro found shown here number
      rw [field k] at here
      rw [value_number read] at number
      cases here
      cases number
      have part : ((front ++ (bytes ++ later)).drop (siz * k)).take siz = bytes := by
        rw [← length, List.drop_left, ← size, List.take_left]
      simp only [Field.decode, part, kept]
    · rw [← List.append_assoc]
      apply ih _ next
      rw [List.length_append, length, size, Nat.mul_succ]

theorem data_right (args : op.args = [.rep a]) (run : ∀ pc nps, runFormat pc op nps = def_ siz nps)
    (field : ∀ k, op.field k a = some (.number (siz * k) siz)) (fits : ∀ np, op.Fits a np) : op.Right := by
  intro pc nps _
  have all : op.AllFit nps := by
    intro pair member
    rw [args] at member
    rcases List.mem_map.mp member with ⟨np, _, rfl⟩
    exact fits np
  constructor
  · exact Or.inl all
  · intro buf done
    rw [run] at done
    refine ⟨fun _ => all, fun _ => ?_⟩
    rw [args]
    have told : Told op pc ([] ++ buf) 0 (nps.map fun np => (a, np)) :=
      def_told field rfl done
    exact told

end Scc.As.Z80
