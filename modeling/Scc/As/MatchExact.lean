import Mathlib.Data.List.Forall2
import Scc.As.Match

/-!
# Where operand matching is exact

Plain arguments are matched one to one. An optional or a repeated one takes an operand that
is not looked at, so a list with the wrong operand there is accepted.
-/

namespace Scc.As.Match

open Scc.Lib

set_option autoImplicit false

section

variable {α β : Type} {check : α → β → Verdict} {sat : α → β → Prop}

theorem matchLoop_arg {opt : Bool} {a : α} {p : List (Code α)} {x : β} {xs : List β} :
    matchLoop check false opt (.arg a :: p) (x :: xs) = .success ↔
      check a x = .ok ∧ matchLoop check false opt p xs = .success := by
  rw [matchLoop]
  cases check a x with
  | ok => simp
  | no => simp
  | stop => simp

theorem matchLoop_ne_beyond (args : List β) : ∀ rep opt p, matchLoop check rep opt p args ≠ .beyond := by
  induction args with
  | nil =>
    intro rep opt p
    cases p with
    | nil => exact Outcome.noConfusion
    | cons arg p =>
      unfold matchLoop
      split_ifs <;> exact Outcome.noConfusion
  | cons np args ih =>
    intro rep opt p
    cases p with
    | nil => exact Outcome.noConfusion
    | cons arg p =>
      cases arg with
      | AOPT => exact ih rep true _
      | AREP => exact ih true opt _
      | arg a =>
        unfold matchLoop
        dsimp only
        cases check a np with
        | ok => exact ih rep opt _
        | no => exact Outcome.noConfusion
        | stop => exact Outcome.noConfusion

theorem match_operands (p : List (Code α)) {nps : List β} (operands : nps ≠ []) :
    match_ check p nps = matchLoop check false false p nps := by
  cases nps with
  | nil => exact absurd rfl operands
  | cons np nps => cases p <;> rfl

theorem str2args_cons (e : Elem α) (es : List (Elem α)) : str2args (e :: es) = str2arg e ++ str2args es := rfl

theorem prefix_success (as : List α) (es : List (Elem α)) (rest : List β) :
    ∀ xs : List β, xs.length = as.length →
      (matchLoop check false false (str2args (as.map .once ++ es)) (xs ++ rest) = .success ↔
        List.Forall₂ (fun a x => check a x = .ok) as xs ∧
          matchLoop check false false (str2args es) rest = .success) := by
  induction as with
  | nil =>
    intro xs length
    rw [List.length_eq_zero_iff.mp length]
    simp
  | cons a as ih =>
    intro xs length
    cases xs with
    | nil => cases length
    | cons x xs =>
      rw [List.map_cons, List.cons_append, List.cons_append, str2args_cons]
      change matchLoop check false false (.arg a :: str2args (as.map .once ++ es)) _ = _ ↔ _
      rw [matchLoop_arg, ih xs (Nat.succ.inj length), List.forall₂_cons, and_assoc]

/-- The check of an argument is what the argument says. -/
def Sound (check : α → β → Verdict) (sat : α → β → Prop) (a : α) : Prop :=
  ∀ x, check a x = .ok ↔ sat a x

/-- The loop is right for every list with an operand. -/
def Agrees (check : α → β → Verdict) (sat : α → β → Prop) (args : List (Elem α)) : Prop :=
  ∀ nps, nps ≠ [] →
    (matchLoop check false false (str2args args) nps = .success ↔ Splits sat args nps)

theorem plain_success (args : List (Elem α)) (plain : ∀ e ∈ args, ∃ a, e = .once a ∧ Sound check sat a) :
    ∀ nps, matchLoop check false false (str2args args) nps = .success ↔ Splits sat args nps := by
  induction args with
  | nil =>
    intro nps
    rw [Splits.nil_iff]
    cases nps <;> simp [str2args, matchLoop]
  | cons e args ih =>
    intro nps
    rcases plain e List.mem_cons_self with ⟨a, rfl, sound⟩
    have tail := ih fun e member => plain e (List.mem_cons_of_mem _ member)
    cases nps with
    | nil =>
      constructor
      · intro success
        cases success
      · intro splits
        exact absurd splits Splits.once_nil
    | cons np nps =>
      rw [str2args_cons]
      change matchLoop check false false (.arg a :: str2args args) (np :: nps) = _ ↔ _
      rw [matchLoop_arg, Splits.cons_once_iff, sound np, tail nps]

theorem split_plain (args : List (Elem α)) : ∃ (as : List α) (es : List (Elem α)), args = as.map .once ++ es ∧
      (es = [] ∨ (∃ a es', es = .opt a :: es') ∨ ∃ a es', es = .rep a :: es') := by
  induction args with
  | nil => exact ⟨[], [], rfl, Or.inl rfl⟩
  | cons e args ih =>
    cases e with
    | once a =>
      rcases ih with ⟨as, es, rfl, shape⟩
      exact ⟨a :: as, es, rfl, shape⟩
    | opt a => exact ⟨[], _, rfl, Or.inr (Or.inl ⟨a, args, rfl⟩)⟩
    | rep a => exact ⟨[], _, rfl, Or.inr (Or.inr ⟨a, args, rfl⟩)⟩

section

variable {g : α → β} (good : ∀ a, sat a (g a))

include good

theorem goods_split (as : List α) (es : List (Elem α)) :
    Splits sat (as.map .once ++ es) (as.map g ++ es.map fun e => g e.arg) := by
  rw [Splits.prefix_iff as es _ (as.map g) (List.length_map _)]
  constructor
  · rw [List.forall₂_map_right_iff, List.forall₂_same]
    exact fun a _ => good a
  · apply Splits.one_each
    rw [List.forall₂_map_right_iff, List.forall₂_same]
    exact fun e _ => good e.arg

variable {as : List α} {es : List (Elem α)}

theorem Agrees.goods (agrees : Agrees check sat (as.map .once ++ es)) :
    as.map g ++ es.map (fun e => g e.arg) ≠ [] → (List.Forall₂ (fun a x => check a x = .ok) as (as.map g) ∧
        matchLoop check false false (str2args es) (es.map fun e => g e.arg) = .success) := by
  intro operands
  have success := (agrees _ operands).mpr (goods_split good as es)
  exact (prefix_success as es _ (as.map g) (List.length_map _)).mp success

theorem Agrees.prefix_ok (agrees : Agrees check sat (as.map .once ++ es)) :
    List.Forall₂ (fun a x => check a x = .ok) as (as.map g) := by
  cases as with
  | nil => exact List.Forall₂.nil
  | cons a as => exact (agrees.goods good (by simp)).1

theorem Agrees.ok_of_sat (agrees : Agrees check sat (as.map .once ++ es)) {a : α} (member : a ∈ as) {x : β}
    (satisfied : sat a x) : check a x = .ok := by
  classical
  have chosen : ∀ b, sat b (Function.update g a x b) := by
    intro b
    by_cases same : b = a
    · subst same
      rwa [Function.update_self]
    · rw [Function.update_of_ne same]
      exact good b
  have accepted := agrees.prefix_ok chosen
  rw [List.forall₂_map_right_iff, List.forall₂_same] at accepted
  have here := accepted a member
  rwa [Function.update_self] at here

theorem Agrees.sat_of_ok (agrees : Agrees check sat (as.map .once)) {a : α}
    (member : a ∈ as) {x : β} (accepted : check a x = .ok) : sat a x := by
  classical
  rw [← List.append_nil (as.map Elem.once)] at agrees
  have oks : List.Forall₂ (fun a x => check a x = .ok) as (as.map (Function.update g a x)) := by
    rw [List.forall₂_map_right_iff, List.forall₂_same]
    intro b inside
    by_cases same : b = a
    · subst same
      rwa [Function.update_self]
    · rw [Function.update_of_ne same]
      exact agrees.ok_of_sat good inside (good b)
  have operands : as.map (Function.update g a x) ++ [] ≠ [] := by
    intro empty
    rw [List.append_nil, List.map_eq_nil_iff] at empty
    rw [empty] at member
    cases member
  have success := (prefix_success as [] [] _ (List.length_map _)).mpr ⟨oks, rfl⟩
  have splits := (agrees _ operands).mp success
  have all := ((Splits.prefix_iff as [] [] _ (List.length_map _)).mp splits).1
  rw [List.forall₂_map_right_iff, List.forall₂_same] at all
  have here := all a member
  rwa [Function.update_self] at here

theorem not_agrees_rep (bad : ∀ a, ∃ x, ¬ sat a x) (as : List α) (a : α) (es : List (Elem α)) :
    ¬ Agrees check sat (as.map .once ++ .rep a :: es) := by
  intro agrees
  rcases bad a with ⟨x, wrong⟩
  have success := (prefix_success as (.rep a :: es) [x] _ (List.length_map _)).mpr
    ⟨agrees.prefix_ok good, rfl⟩
  have splits := (agrees _ (by simp)).mp success
  exact wrong ((Splits.prefix_iff as _ [x] _ (List.length_map _)).mp splits).2.rep_head

theorem not_agrees_opt (bad : ∀ a, ∃ x, ¬ sat a x) (as : List α) (a : α) (es : List (Elem α)) :
    ¬ Agrees check sat (as.map .once ++ .opt a :: es) := by
  intro agrees
  by_cases opts : ∀ e ∈ es, e.isOpt = true
  · rcases bad a with ⟨x, wrong⟩
    have goods := agrees.goods good (by simp)
    have later : matchLoop check false true (.arg a :: str2args es) (es.map fun e => g e.arg) =
        .success := goods.2
    have success := (prefix_success as (.opt a :: es) (x :: es.map fun (e : Elem α) => g e.arg) _
      (List.length_map _)).mpr ⟨goods.1, later⟩
    have splits := (agrees _ (by simp)).mp success
    have rest := ((Splits.prefix_iff as _ _ _ (List.length_map _)).mp splits).2
    exact wrong (rest.opt_head opts (List.length_map _))
  · push Not at opts
    rcases opts with ⟨e, member, required⟩
    rcases bad e.arg with ⟨x, wrong⟩
    have success := (prefix_success as (.opt a :: es) [x] _ (List.length_map _)).mpr
      ⟨agrees.prefix_ok good, rfl⟩
    have splits := (agrees _ (by simp)).mp success
    have rest := ((Splits.prefix_iff as _ [x] _ (List.length_map _)).mp splits).2
    exact wrong (rest.required (List.mem_cons_of_mem _ member) (by simpa using required))

end

theorem agrees_iff (good : ∀ a, ∃ x, sat a x) (bad : ∀ a, ∃ x, ¬ sat a x) (args : List (Elem α)) :
    Agrees check sat args ↔ ∀ e ∈ args, ∃ a, e = .once a ∧ Sound check sat a := by
  rcases Classical.skolem.mp good with ⟨g, chosen⟩
  constructor
  · intro agrees
    rcases split_plain args with ⟨as, es, rfl, rfl | ⟨a, es', rfl⟩ | ⟨a, es', rfl⟩⟩
    · rw [List.append_nil] at agrees ⊢
      intro e member
      rcases List.mem_map.mp member with ⟨a, inside, rfl⟩
      refine ⟨a, rfl, fun x => ⟨agrees.sat_of_ok chosen inside, ?_⟩⟩
      rw [← List.append_nil (as.map Elem.once)] at agrees
      exact agrees.ok_of_sat chosen inside
    · exact absurd agrees (not_agrees_opt chosen bad as a es')
    · exact absurd agrees (not_agrees_rep chosen bad as a es')
  · intro plain nps _
    exact plain_success args plain nps

end

section

variable {Reg : Type}

theorem not_toobig (value : UInt64) (width : Width) (narrow : width ≠ .AIMM64) :
    toobig value width = false ↔ value.toNat < 2 ^ width.bound := by
  cases width with
  | AIMM64 => exact absurd rfl narrow
  | _ => simp [toobig, Width.bound, UInt64.le_iff_toNat_le]; omega

theorem imm_sound (width : Width) (np : Node Reg) (narrow : width ≠ .AIMM64) :
    checkImm width np = .ok ↔ IsImm width np := by
  cases np with
  | imm isIden value =>
    change (if toobig value width = true then Verdict.stop else .ok) = .ok ↔ value.toNat < _
    rw [← not_toobig value width narrow]
    cases toobig value width <;> simp
  | _ => simp [checkImm, IsImm]

theorem sym_sound (np : Node Reg) : checkSym np = .ok ↔ IsSym np := by
  cases np with
  | imm isIden value => cases isIden <;> simp [checkSym, IsSym, ofBool]
  | _ => simp [checkSym, IsSym]

theorem direct_sound (np : Node Reg) : checkDirect np = .ok ↔ IsDirect np := by
  cases np <;> simp [checkDirect, IsDirect]

theorem str_sound (np : Node Reg) : checkStr np = .ok ↔ IsStr np := by
  cases np <;> simp [checkStr, IsStr]

theorem ofBool_ok (holds : Bool) : ofBool holds = .ok ↔ holds = true := by
  cases holds <;> simp [ofBool]

theorem class_sound (holds : Reg → Bool) (members : List Reg)
    (same : ∀ r, holds r = true ↔ r ∈ members) (np : Node Reg) :
    checkClass (fun r => some (holds r)) np = .ok ↔ IsReg members np := by
  cases np with
  | reg r =>
    change ofBool (holds r) = .ok ↔ r ∈ members
    rw [ofBool_ok, same r]
  | _ => simp [checkClass, IsReg]

theorem imm64_unsound : ¬ ∀ np : Node Reg, checkImm .AIMM64 np = .ok ↔ IsImm .AIMM64 np := by
  intro sound
  have none_ := (sound (.imm false 0)).mpr (show (0 : UInt64).toNat < 2 ^ 64 by decide)
  cases none_

end

theorem rst_iff (value : UInt64) : value &&& ~~~0x38 = 0 ↔
    value ∈ [0x00, 0x08, 0x10, 0x18, 0x20, 0x28, 0x30, (0x38 : UInt64)] := by
  constructor
  · intro masked
    have parts : (value &&& 0x38) ||| (value &&& ~~~0x38) = value := by
      apply UInt64.toBitVec_inj.mp
      rw [UInt64.toBitVec_or, UInt64.toBitVec_and, UInt64.toBitVec_and,
        ← BitVec.and_or_distrib_left, UInt64.toBitVec_not, BitVec.or_not_self, BitVec.and_allOnes]
    have kept : value &&& 0x38 = value := by
      rw [masked, UInt64.or_zero] at parts
      exact parts
    have small : value.toNat < 57 := by
      have bound : value ≤ 0x38 := by
        rw [← kept]
        exact UInt64.and_le_right
      rw [UInt64.le_iff_toNat_le] at bound
      exact Nat.lt_succ_of_le bound
    have all : ∀ n : Fin 57, UInt64.ofNat n.val &&& ~~~0x38 = 0 → UInt64.ofNat n.val ∈
        [0x00, 0x08, 0x10, 0x18, 0x20, 0x28, 0x30, (0x38 : UInt64)] := by decide
    have here := all ⟨value.toNat, small⟩
    simp only [UInt64.ofNat_toNat] at here
    exact here masked
  · intro member
    simp only [List.mem_cons, List.not_mem_nil, or_false] at member
    rcases member with rfl | rfl | rfl | rfl | rfl | rfl | rfl | rfl <;> decide

namespace X80

theorem good (a : Arg) : ∃ np, sat a np := by
  cases a with
  | AREG r listed => exact ⟨.reg r, List.mem_singleton.mpr rfl⟩
  | AINDER r listed => exact ⟨.indir r, rfl⟩
  | AINDEX r listed => exact ⟨.index r 0, rfl⟩
  | AREG_CLASS class_ =>
    cases class_ with
    | CCCLASS => exact ⟨.reg .C, by simp [sat, IsReg, Class.members]⟩
    | SSCLASS => exact ⟨.reg .C, by simp [sat, IsReg, Class.members]⟩
    | RCLASS => exact ⟨.reg .B, by simp [sat, IsReg, Class.members]⟩
    | PCLASS => exact ⟨.reg .B, by simp [sat, IsReg, Class.members]⟩
    | QCLASS => exact ⟨.reg .B, by simp [sat, IsReg, Class.members]⟩
    | _ => exact ⟨.reg .BC, by simp [sat, IsReg, Class.members]⟩
  | ARST => exact ⟨.imm false 0, by simp [sat]⟩
  | AZERO => exact ⟨.imm false 0, rfl⟩
  | AIMM width listed => exact ⟨.imm false 0, Nat.two_pow_pos width.bound⟩
  | ASYM => exact ⟨.iden, trivial⟩
  | ADIRECT => exact ⟨.direct, trivial⟩
  | ASTR => exact ⟨.str, trivial⟩

theorem bad (a : Arg) : ∃ np, ¬ sat a np := by
  cases a with
  | ASTR => exact ⟨.iden, id⟩
  | _ => exact ⟨.str, id⟩

theorem members_iff (class_ : Class) (r : Reg) :
    decide (class_ ∈ getclass r) = true ↔ r ∈ class_.members := by
  cases class_ <;> cases r <;> decide

theorem reg_not_toobig (r : Reg) : toobig r.value .AIMM8 = false := by
  cases r <;> rfl

theorem sound_iff (a : Arg) : Sound check sat a ↔ ¬ Proc.x80.faulty a := by
  have fine : ¬ Proc.x80.faulty a → Sound check sat a := by
    intro notFaulty np
    cases a with
    | AREG r listed => cases np <;> simp [check, sat, IsReg, ofBool_ok]
    | AINDER r listed => cases np <;> simp [check, sat, ofBool_ok]
    | AINDEX r listed =>
      cases np with
      | index s off =>
        change (if s ≠ r then Verdict.no else if toobig s.value .AIMM8 then .stop else .ok) = .ok ↔
          s = r
        rw [reg_not_toobig]
        by_cases same : s = r <;> simp [same]
      | _ => simp [check, sat]
    | AREG_CLASS class_ => exact class_sound _ class_.members (members_iff class_) np
    | ARST =>
      cases np with
      | imm isIden value =>
        change ofBool (decide (value &&& ~~~0x38 = 0)) = .ok ↔ _
        rw [ofBool_ok, decide_eq_true_iff]
        exact rst_iff value
      | _ => simp [check, sat]
    | AZERO => exact absurd (Or.inl rfl) notFaulty
    | AIMM width listed =>
      apply imm_sound width np
      intro wide
      subst wide
      exact notFaulty (Or.inr ⟨listed, rfl⟩)
    | ASYM => exact sym_sound np
    | ADIRECT => exact direct_sound np
    | ASTR => exact str_sound np
  refine ⟨?_, fine⟩
  rintro sound (rfl | ⟨listed, rfl⟩)
  · have zero : (1 : UInt64) = 0 := (sound (.imm false 1)).mp rfl
    exact absurd zero (by decide)
  · exact imm64_unsound sound

end X80

namespace X86

theorem good (a : Arg) : ∃ np, sat a np := by
  cases a with
  | AREG_R8CLASS => exact ⟨.reg .AL, by simp [sat, IsReg]⟩
  | AREG_R16CLASS => exact ⟨.reg .AX, by simp [sat, IsReg]⟩
  | AREG_R32CLASS => exact ⟨.reg .EAX, by simp [sat, IsReg]⟩
  | AIMM width listed => exact ⟨.imm false 0, Nat.two_pow_pos width.bound⟩
  | ASYM => exact ⟨.iden, trivial⟩
  | ADIRECT => exact ⟨.direct, trivial⟩
  | ASTR => exact ⟨.str, trivial⟩

theorem bad (a : Arg) : ∃ np, ¬ sat a np := by
  cases a with
  | ASTR => exact ⟨.iden, id⟩
  | _ => exact ⟨.str, id⟩

theorem sound_iff (a : Arg) : Sound check sat a ↔ ¬ Proc.x86.faulty a := by
  have fine : ¬ Proc.x86.faulty a → Sound check sat a := by
    intro notFaulty np
    cases a with
    | AREG_R8CLASS =>
      apply class_sound
      intro r
      cases r <;> simp [getclass]
    | AREG_R16CLASS =>
      apply class_sound
      intro r
      cases r <;> simp [getclass]
    | AREG_R32CLASS => exact absurd (Or.inl rfl) notFaulty
    | AIMM width listed =>
      apply imm_sound width np
      intro wide
      subst wide
      exact notFaulty (Or.inr ⟨listed, rfl⟩)
    | ASYM => exact sym_sound np
    | ADIRECT => exact direct_sound np
    | ASTR => exact str_sound np
  refine ⟨?_, fine⟩
  rintro sound (rfl | ⟨listed, rfl⟩)
  · have aborted := (sound (.reg .EAX)).mpr (by simp [sat, IsReg])
    cases aborted
  · exact imm64_unsound sound

end X86

namespace Ppc

theorem good (a : Arg) : ∃ np, sat a np := by
  cases a with
  | AIMM width listed => exact ⟨.imm false 0, Nat.two_pow_pos width.bound⟩
  | ASYM => exact ⟨.iden, trivial⟩
  | ASTR => exact ⟨.str, trivial⟩

theorem bad (a : Arg) : ∃ np, ¬ sat a np := by
  cases a with
  | ASTR => exact ⟨.iden, id⟩
  | _ => exact ⟨.str, id⟩

theorem sound_iff (a : Arg) : Sound check sat a ↔ ¬ Proc.ppc.faulty a := by
  have fine : ¬ Proc.ppc.faulty a → Sound check sat a := by
    intro notFaulty np
    cases a with
    | AIMM width listed =>
      apply imm_sound width np
      intro wide
      subst wide
      exact notFaulty ⟨listed, rfl⟩
    | ASYM => exact sym_sound np
    | ASTR => exact str_sound np
  refine ⟨?_, fine⟩
  rintro sound ⟨listed, rfl⟩
  exact imm64_unsound sound

end Ppc

theorem Proc.good (proc : Proc) (a : proc.Arg) : ∃ np, proc.sat a np := by
  cases proc with
  | x80 => exact X80.good a
  | x86 => exact X86.good a
  | ppc => exact Ppc.good a

theorem Proc.bad (proc : Proc) (a : proc.Arg) : ∃ np, ¬ proc.sat a np := by
  cases proc with
  | x80 => exact X80.bad a
  | x86 => exact X86.bad a
  | ppc => exact Ppc.bad a

theorem Proc.sound_iff (proc : Proc) (a : proc.Arg) : Sound proc.check proc.sat a ↔ ¬ proc.faulty a := by
  cases proc with
  | x80 => exact X80.sound_iff a
  | x86 => exact X86.sound_iff a
  | ppc => exact Ppc.sound_iff a

end Scc.As.Match
