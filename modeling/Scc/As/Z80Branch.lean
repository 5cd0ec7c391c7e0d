import Scc.As.Z80Fields

/-!
# The relative jumps of the Z80

A relative jump leads from the instruction after it. `branch()` takes the difference from four bytes before
that one, and nothing looks at the range. An error is reported only for a target of more than 16 bits, by
`match()`.
-/

namespace Scc.As.Z80

open Scc.As.Match Scc.As.Match.X80

set_option autoImplicit false

/-- The relative jumps; a flag is one of `ss`. -/
inductive Jump
  | DJNZ
  | JR
  | JR_flag (flag : Reg) (isFlag : Class.SSCLASS ∈ getclass flag)

def Jump.str : Jump → String
  | .DJNZ => "DJNZ"
  | .JR | .JR_flag _ _ => "JR"

/-- The operands; the target is a number or a label. -/
def Jump.args (isIden : Bool) (target : UInt64) : Jump → List Operand
  | .DJNZ | .JR => [.imm isIden target]
  | .JR_flag flag _ => [.reg flag, .imm isIden target]

def InReach (pc target : UInt64) : Prop :=
  -128 ≤ (target.toNat : Int) - (pc.toNat + 2) ∧ (target.toNat : Int) - (pc.toNat + 2) ≤ 127

/-- A target in reach is jumped to, any other one is an error. -/
def Jump.Right (jump : Jump) (pc : UInt64) (isIden : Bool) (target : UInt64) : Prop :=
  (InReach pc target → ∃ op buf, translate (ins jump.str) pc (jump.args isIden target) = .ok (op, buf) ∧
      (pc.toNat : Int) + 2 + signed (buf.getD 1 0) = target.toNat) ∧
    (¬ InReach pc target → translate (ins jump.str) pc (jump.args isIden target) = .error .error)

set_option maxRecDepth 4000 in
theorem ins_DJNZ : ins "DJNZ" = [⟨"DJNZ", [Opers.imm16], 2, [0x10], .jr⟩] := rfl

set_option maxRecDepth 4000 in
theorem ins_JR :
    ins "JR" = [⟨"JR", [Opers.imm16], 2, [0x18], .jr⟩, ⟨"JR", [Opers.ss, Opers.imm16], 2, [0x00], .jr⟩] :=
  rfl

/-- How `match()` comes out for a target. -/
def targetMatch (target : UInt64) : Outcome := if target > 0xFFFF then .stop else .success

theorem match_target (isIden : Bool) (target : UInt64) :
    match_ check (str2args [Opers.imm16]) [Operand.node (.imm isIden target)] = targetMatch target := by
  unfold targetMatch
  by_cases wide : target > 0xFFFF
  · simp [match_, matchLoop, str2args, str2arg, Opers.imm16, Opers.immediate, Operand.node, check,
      checkImm, toobig, wide]
  · simp [match_, matchLoop, str2args, str2arg, Opers.imm16, Opers.immediate, Operand.node, check,
      checkImm, toobig, wide]

theorem match_flag (flag : Reg) (isIden : Bool) (target : UInt64) :
    match_ check (str2args [Opers.imm16]) [Operand.node (.reg flag), Operand.node (.imm isIden target)] =
      .failure := by
  simp [match_, matchLoop, str2args, str2arg, Opers.imm16, Opers.immediate, Operand.node, check, checkImm]

theorem match_flag_target {flag : Reg} (isFlag : Class.SSCLASS ∈ getclass flag) (isIden : Bool)
    (target : UInt64) :
    match_ check (str2args [Opers.ss, Opers.imm16])
        [Operand.node (.reg flag), Operand.node (.imm isIden target)] = targetMatch target := by
  unfold targetMatch
  by_cases wide : target > 0xFFFF
  · simp [match_, matchLoop, str2args, str2arg, Opers.imm16, Opers.immediate, Opers.ss, Operand.node, check,
      checkImm, checkClass, ofBool, toobig, isFlag, wide]
  · simp [match_, matchLoop, str2args, str2arg, Opers.imm16, Opers.immediate, Opers.ss, Operand.node, check,
      checkImm, checkClass, ofBool, toobig, isFlag, wide]

def Jump.row : Jump → Op
  | .DJNZ => ⟨"DJNZ", [Opers.imm16], 2, [0x10], .jr⟩
  | .JR => ⟨"JR", [Opers.imm16], 2, [0x18], .jr⟩
  | .JR_flag _ _ => ⟨"JR", [Opers.ss, Opers.imm16], 2, [0x00], .jr⟩

theorem select_jump (jump : Jump) (isIden : Bool) (target : UInt64) :
    select (ins jump.str) (jump.args isIden target) =
      if target > 0xFFFF then .error .error else .ok jump.row := by
  cases jump with
  | DJNZ =>
    rw [Jump.str, Jump.args, ins_DJNZ, select, List.map_singleton, match_target, targetMatch]
    split_ifs <;> rfl
  | JR =>
    rw [Jump.str, Jump.args, ins_JR, select, List.map_singleton, match_target, targetMatch]
    split_ifs <;> rfl
  | JR_flag flag isFlag =>
    rw [Jump.str, Jump.args, ins_JR, select, List.map_cons, List.map_singleton, match_flag]
    dsimp only
    rw [select, List.map_cons, List.map_singleton, match_flag_target isFlag, targetMatch]
    split_ifs <;> rfl

/-- The byte that `branch()` stores. -/
def displacement (pc target : UInt64) : UInt8 := (target.toUInt32.toUInt64 - (pc - 2)).toUInt8

theorem displaced {pc target : UInt64} (narrow : ¬ target > 0xFFFF) :
    (pc.toNat : Int) + 2 + signed (displacement pc target) ≠ target.toNat := by
  intro jumps
  have bound : target.toNat < 2 ^ 16 := by
    rw [gt_iff_lt, UInt64.lt_iff_toNat_lt] at narrow
    have limit : (0xFFFF : UInt64).toNat = 65535 := rfl
    omega
  have lost := target_lost pc target
  unfold displacement at jumps
  rw [jumps] at lost
  omega

theorem ss2int_flag {flag : Reg} (isFlag : Class.SSCLASS ∈ getclass flag) :
    ∃ val, ss2int (.reg flag) = .ok val := by
  revert isFlag
  cases flag <;> simp [getclass, ss2int]

theorem run_jump (jump : Jump) (pc : UInt64) (isIden : Bool) (target : UInt64) :
    ∃ buf, runFormat pc jump.row (jump.args isIden target) = .ok buf ∧
      buf.getD 1 0 = displacement pc target := by
  cases jump with
  | DJNZ => exact ⟨_, rfl, rfl⟩
  | JR => exact ⟨_, rfl, rfl⟩
  | JR_flag flag isFlag =>
    rcases ss2int_flag isFlag with ⟨val, found⟩
    refine ⟨[(0 : UInt8) ||| val <<< 3, displacement pc target], ?_, rfl⟩
    unfold runFormat Jump.row Jump.args jr branch
    simp only [Operand.value, if_true, found]
    rfl

theorem translate_jump (jump : Jump) (pc : UInt64) (isIden : Bool) (target : UInt64) : (target > 0xFFFF →
        translate (ins jump.str) pc (jump.args isIden target) = .error .error) ∧ (¬ target > 0xFFFF →
        ∃ buf, translate (ins jump.str) pc (jump.args isIden target) = .ok (jump.row, buf) ∧
          buf.getD 1 0 = displacement pc target) := by
  unfold translate
  rw [select_jump]
  constructor
  · intro wide
    rw [if_pos wide]
    rfl
  · intro narrow
    rcases run_jump jump pc isIden target with ⟨buf, run, second⟩
    rw [if_neg narrow]
    refine ⟨buf, ?_, second⟩
    change (runFormat pc jump.row (jump.args isIden target) >>= fun buf => .ok (jump.row, buf)) = _
    rw [run]
    rfl

/-- A relative jump is right only where an error is due and the target has more than 16 bits. -/
theorem jump_right_iff (jump : Jump) (pc : UInt64) (isIden : Bool) (target : UInt64) :
    jump.Right pc isIden target ↔ ¬ InReach pc target ∧ 0xFFFF < target.toNat := by
  have translated := translate_jump jump pc isIden target
  constructor
  · rintro ⟨reached, reported⟩
    have out : ¬ InReach pc target := by
      intro reach
      rcases reached reach with ⟨op, buf, emitted, jumps⟩
      by_cases wide : target > 0xFFFF
      · rw [translated.1 wide] at emitted
        cases emitted
      · rcases translated.2 wide with ⟨buf', emitted', second⟩
        rw [emitted'] at emitted
        cases emitted
        rw [second] at jumps
        exact displaced wide jumps
    refine ⟨out, ?_⟩
    by_contra narrow
    rcases translated.2 (fun wide => narrow (UInt64.lt_iff_toNat_lt.mp wide)) with ⟨buf, emitted, _⟩
    rw [reported out] at emitted
    cases emitted
  · rintro ⟨out, wide⟩
    exact ⟨fun reach => absurd reach out, fun _ => translated.1 (UInt64.lt_iff_toNat_lt.mpr wide)⟩

/-- `L1: JR $L1` -/
theorem self_not_right : ¬ Jump.JR.Right 0 true 0 := by
  rintro ⟨reached, _⟩
  rcases reached (by unfold InReach; decide) with ⟨op, buf, emitted, jumps⟩
  rcases (translate_jump .JR 0 true 0).2 (by decide) with ⟨buf', emitted', second⟩
  rw [emitted'] at emitted
  cases emitted
  rw [second] at jumps
  exact absurd jumps (by decide)

end Scc.As.Z80
