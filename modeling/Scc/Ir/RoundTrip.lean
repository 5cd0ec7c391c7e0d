import Mathlib.Data.List.Basic
import Scc.Ir.Expression

/-!
# The round trip of an expression

Reading what was written of a tree puts one node on the stack, the tree without its casts
to void. The stack has to have room for it, with one place more for the types.
-/

namespace Scc.Ir

open Scc.Lib.Numeral

set_option autoImplicit false

def Ty.read : Ty → CType
  | .plain letter => .simple letter
  | .ftn ellipsis => .simple (if ellipsis then .ELLIPSIS else .FUNCTION)
  | .composed _ id => .composed id.val

def Sclass.storage : Sclass → Storage
  | .register => .OREG
  | .auto => .OAUTO
  | _ => .OMEM

def Op.read : Op → NodeOp
  | .binary op => .binary op
  | .unary op => .unary op
  | .assign sub => .assign sub
  | .OASK => .OASK
  | .OCOLON => .OASK
  | .OPAR => .OPAR
  | .OCALL => .OCALL
  | .OCALLE => .OCALLE

/-- The parameters in the order of the call, where they are chained from the last to the first. -/
def rechain : Node → Node → Node
  | .node .OPAR type rest left, acc => rechain rest (.node .OPAR type left acc)
  | _, acc => acc

def translate : Tree → Node
  | .nil => .nil
  | .var sclass id _ => .sym sclass.storage id.val
  | .const letter size u _ => .const (.simple letter) (masked size u)
  | .bin .OCOLON _ left right => .colon (translate left) (translate right)
  | .bin .OCALL type left right => .node .OCALL type.read (translate left) (rechain (translate right) .nil)
  | .bin .OCALLE type left right =>
    .node .OCALLE type.read (translate left) (rechain (translate right) .nil)
  | .bin op type left right => .node op.read type.read (translate left) (translate right)
  | .cast type left =>
    if type.isVoid then translate left else .node .OCAST type.read (translate left) .nil
  | .builtin sym type left right =>
    .node (.OBUILTIN sym) type.read (translate left) (translate right)

/-- Trees that cc1 makes, and with `true` the parameters of a call. There are no compound
literals. -/
inductive Formed : Bool → Tree → Prop
  | var (sclass : Sclass) (id : Id) : Formed false (.var sclass id false)
  | const (letter : Letter) (size : Nat) (u : BitVec 64) : Formed false (.const letter size u false)
  | binary {left right : Tree} (op : Bin) (type : Ty) (first : Formed false left)
      (second : Formed false right) : Formed false (.bin (.binary op) type left right)
  | assign {left right : Tree} (sub : Option Sub) (type : Ty) (first : Formed false left)
      (second : Formed false right) : Formed false (.bin (.assign sub) type left right)
  | unary {left : Tree} (op : Un) (type : Ty) (first : Formed false left) :
      Formed false (.bin (.unary op) type left .nil)
  | ask {cond yes no : Tree} (type colon : Ty) (first : Formed false cond)
      (second : Formed false yes) (third : Formed false no) :
      Formed false (.bin .OASK type cond (.bin .OCOLON colon yes no))
  | call {fn pars : Tree} (ellipsis : Bool) (type : Ty) (first : Formed false fn)
      (second : Formed true pars) :
      Formed false (.bin (if ellipsis then .OCALLE else .OCALL) type fn pars)
  | cast {left : Tree} (letter : Letter) (first : Formed false left) :
      Formed false (.cast (.plain letter) left)
  | builtin1 {left : Tree} {sym : Builtin} (type : Ty) (one : sym.nchilds = 1)
      (first : Formed false left) : Formed false (.builtin sym type left .nil)
  | builtin2 {left right : Tree} {sym : Builtin} (type : Ty) (two : sym.nchilds = 2)
      (first : Formed false left) (second : Formed false right) :
      Formed false (.builtin sym type left right)
  | nopars : Formed true .nil
  | par {pars arg : Tree} (type : Ty) (first : Formed true pars) (second : Formed false arg) :
      Formed true (.bin .OPAR type pars arg)

def count : Tree → Nat
  | .bin .OPAR _ pars _ => count pars + 1
  | _ => 0

def need : Tree → Nat
  | .nil => 0
  | .var _ _ _ => 1
  | .const _ _ _ _ => 1
  | .bin (.unary _) _ left _ => max (need left) 2
  | .bin .OASK _ left right => max (need left) (max (1 + need right) 4)
  | .bin .OCOLON _ left right => max (need left) (1 + need right)
  | .bin .OPAR _ left right => max (need left) (count left + max (need right) 2)
  | .bin .OCALL _ left right => max (need left) (1 + need right)
  | .bin .OCALLE _ left right => max (need left) (1 + need right)
  | .bin _ _ left right => max (need left) (max (1 + need right) 3)
  | .cast type left => if type.isVoid then need left else max (need left) 2
  | .builtin sym _ left right => max (need left) (max (1 + need right) (sym.nchilds + 2))

def Ty.ids : Ty → List Nat
  | .composed _ id => [id.val]
  | _ => []

def ids : Tree → List Nat
  | .nil => []
  | .var _ id _ => [id.val]
  | .const _ _ _ _ => []
  | .bin .OCOLON _ left right => ids left ++ ids right
  | .bin _ type left right => ids left ++ ids right ++ type.ids
  | .cast _ left => ids left
  | .builtin _ type left right => ids left ++ ids right ++ type.ids

/-- With so much on the stack there is room for the tree, and cc2 has its identifiers. -/
def Fits (depth : Nat) (np : Tree) : Prop :=
  depth + need np ≤ STACKSIZ ∧ ∀ id ∈ ids np, id < USHRT_MAX

instance (depth : Nat) (np : Tree) : Decidable (Fits depth np) := by
  unfold Fits
  infer_instance

def fields : Tree → List (List Char)
  | .nil => []
  | .var sclass id _ => [emitvar sclass id]
  | .const letter size u _ => [emitconst letter size u]
  | .bin op type left right =>
    fields left ++ fields right ++
      match optxt op with
      | some s => [s ++ emitletter type]
      | none => []
  | .cast type left => fields left ++ if type.isVoid then [] else [['g', type.letter]]
  | .builtin sym type left right =>
    fields left ++ fields right ++ ['"' :: sym.name, 'm' :: emitletter type]

attribute [local simp] fields in
theorem emitnode_fields {pars : Bool} {np : Tree} (formed : Formed pars np) :
    emitnode np = (fields np).flatMap fun field => '\t' :: field := by
  induction formed with
  | var sclass id => simp [emitnode, fields, emitsym]
  | const letter size u => simp [emitnode, fields, emitsym]
  | binary op type _ _ ih ih' => simp [emitnode, fields, optxt, ih, ih']
  | assign sub type _ _ ih ih' => cases sub <;> simp [emitnode, fields, optxt, ih, ih']
  | unary op type _ ih => simp [emitnode, fields, optxt, ih]
  | ask type colon _ _ _ ih ih' ih'' => simp [emitnode, fields, optxt, ih, ih', ih'']
  | call ellipsis type _ _ ih ih' => cases ellipsis <;> simp [emitnode, fields, optxt, ih, ih']
  | cast letter _ ih =>
    unfold emitnode fields
    rw [ih, List.flatMap_append]
    split_ifs <;> simp
  | builtin1 type one _ ih => simp [emitnode, fields, ih]
  | builtin2 type two _ _ ih ih' => simp [emitnode, fields, ih, ih']
  | nopars => rfl
  | par type _ _ ih ih' => simp [emitnode, fields, optxt, ih, ih']

def isSep (c : Char) : Bool := c = '\t' ∨ c = '\n'

/-- What `strtok()` finds as one field. -/
def IsField (field : List Char) : Prop := field ≠ [] ∧ ∀ c ∈ field, isSep c = false

theorem plain_of_all {text : List Char} (all : (text.all fun c => !isSep c) = true) :
    ∀ c ∈ text, isSep c = false := by
  simpa using all

theorem numeral_plain (base n : Nat) : ∀ c ∈ numeral base n, isSep c = false := by
  intro c member
  have all : (letters.all fun c => !isSep c) = true := by decide
  exact plain_of_all all c (numeral_mem member)

theorem letter_plain (letter : Letter) : isSep letter.char = false := by cases letter <;> rfl

theorem emitletter_plain (type : Ty) : ∀ c ∈ emitletter type, isSep c = false := by
  cases type with
  | plain letter => simpa [emitletter] using letter_plain letter
  | ftn ellipsis => cases ellipsis <;> simp [emitletter, letter_plain]
  | composed kind id =>
    unfold emitletter
    rw [List.forall_mem_cons]
    exact ⟨by cases kind <;> rfl, numeral_plain 10 id.val⟩

theorem IsField.cons {c : Char} {rest : List Char} (first : isSep c = false)
    (others : ∀ c ∈ rest, isSep c = false) : IsField (c :: rest) :=
  ⟨List.cons_ne_nil c rest, List.forall_mem_cons.mpr ⟨first, others⟩⟩

theorem optxt_field {op : Op} {s : List Char} (text : optxt op = some s) (type : Ty) :
    IsField (s ++ emitletter type) := by
  have plain : s ≠ [] ∧ ∀ c ∈ s, isSep c = false := by
    cases op with
    | binary op => cases op <;> cases text <;> simp [isSep, Bin.char]
    | unary op => cases op <;> cases text <;> simp [isSep, Un.char]
    | assign sub =>
      cases sub with
      | none => cases text; simp [isSep]
      | some sub => cases sub <;> cases text <;> simp [isSep, Sub.char]
    | _ => cases text <;> simp [isSep]
  refine ⟨by simp [plain.1], ?_⟩
  rw [List.forall_mem_append]
  exact ⟨plain.2, emitletter_plain type⟩

theorem fields_plain (np : Tree) : ∀ field ∈ fields np, IsField field := by
  induction np with
  | nil => simp [fields]
  | var sclass id initlst =>
    simp only [fields, List.forall_mem_singleton]
    exact IsField.cons (by cases sclass <;> rfl) (numeral_plain 10 id.val)
  | const letter size u initlst =>
    simp only [fields, List.forall_mem_singleton]
    exact IsField.cons rfl (List.forall_mem_cons.mpr ⟨letter_plain letter, numeral_plain 16 _⟩)
  | bin op type left right ih ih' =>
    unfold fields
    rw [List.forall_mem_append, List.forall_mem_append]
    refine ⟨⟨ih, ih'⟩, ?_⟩
    cases text : optxt op with
    | none => simp
    | some s => simpa using optxt_field text type
  | cast type left ih =>
    unfold fields
    rw [List.forall_mem_append]
    refine ⟨ih, ?_⟩
    split_ifs with void
    · simp
    · rw [List.forall_mem_singleton]
      refine IsField.cons rfl (List.forall_mem_singleton.mpr ?_)
      cases type with
      | plain letter => exact letter_plain letter
      | ftn ellipsis => rfl
      | composed kind id => cases kind <;> rfl
  | builtin sym type left right ih ih' =>
    unfold fields
    rw [List.forall_mem_append, List.forall_mem_append, List.forall_mem_cons, List.forall_mem_singleton]
    refine ⟨⟨ih, ih'⟩, IsField.cons rfl (plain_of_all ?_), IsField.cons rfl (emitletter_plain type)⟩
    cases sym <;> decide

theorem strtok_fields (texts : List (List Char)) (plain : ∀ field ∈ texts, IsField field) :
    strtok (texts.flatMap fun field => '\t' :: field) = texts := by
  have split : ∀ first : List Char, (∀ c ∈ first, isSep c = false) →
      ((first ++ texts.flatMap fun field => '\t' :: field).splitOnP isSep) = first :: texts := by
    induction texts with
    | nil =>
      intro first noSep
      rw [List.flatMap_nil, List.append_nil]
      exact List.splitOnP_eq_singleton noSep
    | cons field texts ih =>
      intro first noSep
      have here := plain field List.mem_cons_self
      rw [List.flatMap_cons, List.cons_append, List.splitOnP_append_cons_of_forall_mem noSep '\t' rfl,
        ih (fun field member => plain field (List.mem_cons_of_mem _ member)) field here.2]
  change (List.splitOnP isSep _).filter _ = _
  have all := split [] (by simp)
  rw [List.nil_append] at all
  rw [all, List.filter_cons_of_neg (by simp), List.filter_eq_self]
  intro field member
  simpa using (plain field member).1

/-- There is room for the type of a field, and cc2 has its identifier. -/
def TypeFits (type : Ty) (s : Stack) : Prop :=
  s.length < STACKSIZ ∧ ∀ id ∈ type.ids, id < USHRT_MAX

instance (type : Ty) (s : Stack) : Decidable (TypeFits type s) := by
  unfold TypeFits
  infer_instance

theorem optbl_letter (letter : Letter) : optbl letter.char = some (.type letter) := by
  cases letter <;> rfl

theorem optbl_kind (kind : Kind) : optbl kind.char = some .composed := by
  cases kind <;> rfl

theorem gettype_letter (letter : Letter) (rest : List Char) (s : Stack) :
    gettype (letter.char :: rest) s = if s.length < STACKSIZ then some (.simple letter) else none := by
  unfold gettype
  simp only [optbl_letter, push]
  split_ifs <;> rfl

theorem getsym_eq (id : Nat) : getsym id = if id < USHRT_MAX then some id else none := by
  unfold getsym
  split_ifs <;> first | rfl | omega

theorem gettype_emitletter (type : Ty) (s : Stack) :
    gettype (emitletter type) s = if TypeFits type s then some type.read else none := by
  unfold TypeFits
  cases type with
  | plain letter =>
    rw [emitletter, gettype_letter]
    simp [Ty.ids, Ty.read]
  | ftn ellipsis =>
    cases ellipsis <;> simp [emitletter, gettype_letter, Ty.ids, Ty.read]
  | composed kind id =>
    unfold emitletter gettype
    simp only [optbl_kind, atoi_numeral, getsym_eq, push, Ty.ids, List.forall_mem_singleton, Ty.read]
    by_cases known : id.val < USHRT_MAX <;> by_cases room : s.length < STACKSIZ <;>
      simp [known, room]

variable {s : Stack} {fn : Node} {left right : Tree}

theorem eval_cons {c : Char} {token : List Char} {parse : Parse} {rest : List (List Char)}
    (found : optbl c = some parse) :
    eval ((c :: token) :: rest) s = (parse.run token s).bind (eval rest) := by
  rw [eval, found]

theorem push_room {e : Elem} (room : s.length < STACKSIZ) : push e s = some (e :: s) :=
  if_pos room

theorem bind_fits {type : Ty} (next : CType → Option Stack) {made : Stack}
    {rest : Stack → Option Stack} (does : TypeFits type s → next type.read = some made) :
    (((if TypeFits type s then some type.read else none).bind next).bind rest) =
      if TypeFits type s then rest made else none := by
  split_ifs with fits
  · rw [Option.bind_some, does fits, Option.bind_some]
  · rfl

theorem optbl_bin (op : Bin) : optbl op.char = some (.binary op) := by cases op <;> rfl

theorem optbl_un (op : Un) : optbl op.char = some (.unary (.unary op)) := by cases op <;> rfl

theorem subop_char (sub : Sub) : subop sub.char = some sub := by cases sub <;> rfl

theorem subop_letter (type : Ty) : ∃ c token, emitletter type = c :: token ∧ subop c = none := by
  cases type with
  | plain letter => exact ⟨_, _, rfl, by cases letter <;> rfl⟩
  | ftn ellipsis => exact ⟨_, _, rfl, by cases ellipsis <;> rfl⟩
  | composed kind id => exact ⟨_, _, rfl, by cases kind <;> rfl⟩

section

variable {type : Ty} {left right third : Node} {s : Stack} {rest : List (List Char)}

theorem eval_binary (op : Bin) :
    eval ((op.char :: emitletter type) :: rest) (.node right :: .node left :: s) =
      if TypeFits type (.node right :: .node left :: s) then
        eval rest (.node (.node (.binary op) type.read left right) :: s) else none := by
  rw [eval_cons (optbl_bin op), Parse.run, gettype_emitletter, bind_fits]
  intro fits
  exact push_room (Nat.lt_of_succ_lt (Nat.lt_of_succ_lt fits.1))

theorem eval_unary {c : Char} {op : NodeOp} (found : optbl c = some (.unary op)) :
    eval ((c :: emitletter type) :: rest) (.node left :: s) =
      if TypeFits type (.node left :: s) then
        eval rest (.node (.node op type.read left .nil) :: s) else none := by
  rw [eval_cons found, Parse.run, gettype_emitletter, bind_fits]
  intro fits
  exact push_room (Nat.lt_of_succ_lt fits.1)

theorem eval_assign (sub : Option Sub) (text : List Char) (written : optxt (.assign sub) = some text) :
    eval ((text ++ emitletter type) :: rest) (.node right :: .node left :: s) =
      if TypeFits type (.node right :: .node left :: s) then
        eval rest (.node (.node (.assign sub) type.read left right) :: s) else none := by
  have room : TypeFits type (.node right :: .node left :: s) → s.length < STACKSIZ := by
    intro fits
    exact Nat.lt_of_succ_lt (Nat.lt_of_succ_lt fits.1)
  cases sub with
  | some sub =>
    cases written
    change eval ((':' :: sub.char :: emitletter type) :: rest) _ = _
    rw [eval_cons (show optbl ':' = some .assign from rfl), Parse.run, subop_char]
    dsimp only
    rw [gettype_emitletter, bind_fits]
    exact fun fits => push_room (room fits)
  | none =>
    cases written
    rcases subop_letter type with ⟨c, token, letter, notSub⟩
    change eval ((':' :: emitletter type) :: rest) _ = _
    rw [eval_cons (show optbl ':' = some .assign from rfl), ← bind_fits
      (fun tp => binaryNode (.assign none) tp (.node right :: .node left :: s))
      fun fits => push_room (room fits), ← gettype_emitletter, letter, Parse.run, notSub]

theorem eval_ask : eval (('?' :: emitletter type) :: rest) (.node third :: .node right :: .node left :: s) =
      if TypeFits type (.node third :: .node right :: .node left :: s) then
        eval rest (.node (.node .OASK type.read left (.colon right third)) :: s) else none := by
  rw [eval_cons (show optbl '?' = some .ternary from rfl), Parse.run, gettype_emitletter, bind_fits]
  intro fits
  exact push_room (Nat.lt_of_succ_lt (Nat.lt_of_succ_lt (Nat.lt_of_succ_lt fits.1)))

end

/-- What the parameters leave on the stack. -/
def parStack : Tree → Stack
  | .bin .OPAR type pars arg => .node (.node .OPAR type.read (translate arg) .nil) :: parStack pars
  | _ => []

attribute [local simp] need ids translate in
theorem parStack_length (pars : Tree) : (parStack pars).length = count pars := by
  induction pars with
  | bin op type left right ih _ =>
    cases op with
    | OPAR =>
      change (parStack left).length + 1 = count left + 1
      rw [ih]
    | _ => rfl
  | _ => rfl

def Node.isPar : Node → Bool
  | .node .OPAR _ _ _ => true
  | _ => false

theorem translate_notPar {np : Tree} (formed : Formed false np) : (translate np).isPar = false := by
  generalize mode : false = pars at formed
  induction formed with
  | var sclass id => rfl
  | const letter size u => rfl
  | binary op type _ _ _ _ => rfl
  | assign sub type _ _ _ _ => rfl
  | unary op type _ _ => rfl
  | ask type colon _ _ _ _ _ _ => rfl
  | call ellipsis type _ _ _ _ => cases ellipsis <;> rfl
  | cast letter _ ih =>
    unfold translate
    split_ifs with void
    · exact ih rfl
    · rfl
  | builtin1 type one _ _ => rfl
  | builtin2 type two _ _ _ _ => rfl
  | nopars => cases mode
  | par type _ _ _ _ => cases mode

theorem popCall_fn (notPar : fn.isPar = false) (acc : Node) (s : Stack) :
    popCall acc (.node fn :: s) = some (fn, acc, s) := by
  cases fn with
  | node op type left right =>
    cases op with
    | OPAR => cases notPar
    | _ => rfl
  | _ => rfl

theorem popCall_pars {pars : Tree} (formed : Formed true pars) (notPar : fn.isPar = false) (s : Stack) :
    ∀ acc, popCall acc (parStack pars ++ .node fn :: s) = some (fn, rechain (translate pars) acc, s) := by
  generalize mode : true = isPars at formed
  induction formed with
  | nopars =>
    intro acc
    exact popCall_fn notPar acc s
  | par type first second ih _ =>
    intro acc
    exact ih rfl _
  | _ => cases mode

theorem eval_call {pars : Tree} (formed : Formed true pars) (notPar : fn.isPar = false)
    {c : Char} {op : NodeOp} (found : optbl c = some (.call op)) (type : Ty)
    (rest : List (List Char)) (s : Stack) :
    eval ((c :: emitletter type) :: rest) (parStack pars ++ .node fn :: s) =
      if TypeFits type s then
        eval rest (.node (.node op type.read fn (rechain (translate pars) .nil)) :: s) else none := by
  rw [eval_cons found, Parse.run, popCall_pars formed notPar, Option.bind_some]
  dsimp only
  rw [gettype_emitletter, bind_fits]
  exact fun fits => push_room fits.1

/-- What reading a tree leaves on the stack. -/
def results (pars : Bool) (np : Tree) : Stack :=
  if pars then parStack np else [.node (translate np)]

theorem need_pos {np : Tree} (formed : Formed false np) : 1 ≤ need np := by
  generalize mode : false = pars at formed
  induction formed with
  | call ellipsis type _ _ ih _ => cases ellipsis <;> exact le_max_of_le_left (ih rfl)
  | cast letter _ ih =>
    unfold need
    split_ifs
    · exact ih rfl
    · exact le_max_of_le_left (ih rfl)
  | nopars => cases mode
  | par type _ _ _ _ => cases mode
  | var sclass id => exact Nat.le_refl 1
  | const letter size u => exact Nat.le_refl 1
  | binary op type _ _ ih _ => exact le_max_of_le_left (ih rfl)
  | assign sub type _ _ ih _ => exact le_max_of_le_left (ih rfl)
  | unary op type _ ih => exact le_max_of_le_left (ih rfl)
  | ask type colon _ _ _ ih _ _ => exact le_max_of_le_left (ih rfl)
  | builtin1 type one _ ih => exact le_max_of_le_left (ih rfl)
  | builtin2 type two _ _ ih _ => exact le_max_of_le_left (ih rfl)

theorem builtins_name (sym : Builtin) : builtins sym.name = some sym := by
  cases sym <;> decide

theorem eval_builtin (sym : Builtin) (type : Ty) (rest : List (List Char)) (s made : Stack)
    (does : s.length < STACKSIZ → (if sym.nchilds = 2 then binaryNode (.OBUILTIN sym) type.read s
      else unaryNode (.OBUILTIN sym) type.read s) = some made) :
    eval (('"' :: sym.name) :: ('m' :: emitletter type) :: rest) s =
      if TypeFits type (.name sym.name :: s) then eval rest made else none := by
  rw [eval_cons (show optbl '"' = some .getname from rfl), Parse.run, push]
  by_cases room : s.length < STACKSIZ
  · rw [if_pos room, Option.bind_some, eval_cons (show optbl 'm' = some .builtin from rfl), Parse.run,
      gettype_emitletter, bind_fits]
    intro _
    rw [← does room]
    unfold popName
    rw [Option.bind_some]
    dsimp only
    rw [builtins_name, Option.bind_some]
  · have tight : ¬ TypeFits type (.name sym.name :: s) := fun fits => room (Nat.lt_of_succ_lt fits.1)
    rw [if_neg room, if_neg tight]
    rfl

theorem eval_var (sclass : Sclass) (id : Id) (rest : List (List Char)) (s : Stack) :
    eval (emitvar sclass id :: rest) s =
      if Fits s.length (.var sclass id false) then
        eval rest (.node (translate (.var sclass id false)) :: s) else none := by
  have found : optbl sclass.char = some (.symbol sclass.storage) := by cases sclass <;> rfl
  unfold emitvar
  rw [eval_cons found, Parse.run, atoi_numeral, getsym_eq]
  unfold Fits push
  simp only [need, ids, List.forall_mem_singleton, Nat.add_one_le_iff, translate]
  by_cases known : id.val < USHRT_MAX <;> by_cases room : s.length < STACKSIZ <;>
    simp [known, room]

theorem masked_lt (size : Nat) (u : BitVec 64) : masked size u < 2 ^ 64 :=
  Nat.lt_of_le_of_lt (Nat.mod_le _ _) u.isLt

theorem eval_const (letter : Letter) (size : Nat) (u : BitVec 64) (rest : List (List Char)) (s : Stack) :
    eval (emitconst letter size u :: rest) s =
      if Fits s.length (.const letter size u false) then
        eval rest (.node (translate (.const letter size u false)) :: s) else none := by
  unfold emitconst
  rw [eval_cons (show optbl '#' = some .constant from rfl), Parse.run, gettype_letter,
    List.drop_one, List.tail_cons, value_hex, Nat.mod_eq_of_lt (masked_lt size u)]
  unfold Fits push
  simp only [need, ids, Nat.add_one_le_iff, translate, List.not_mem_nil, false_implies,
    implies_true, and_true]
  by_cases room : s.length < STACKSIZ <;> simp [room]

/-- The fields of a tree are read, in front of any others. -/
def Reads (np : Tree) : Prop :=
  ∀ rest s, eval (fields np ++ rest) s =
    if Fits s.length np then eval rest (.node (translate np) :: s) else none

def ReadsPars (np : Tree) : Prop :=
  ∀ rest s, s.length ≤ STACKSIZ → eval (fields np ++ rest) s =
    if Fits s.length np then eval rest (parStack np ++ s) else none

theorem Reads.two (first : Reads left) (second : Reads right) (rest : List (List Char)) (s : Stack) :
    eval (fields left ++ (fields right ++ rest)) s =
      if Fits s.length left ∧ Fits (s.length + 1) right then
        eval rest (.node (translate right) :: .node (translate left) :: s) else none := by
  rw [first, second, ite_and]
  rfl

theorem reads_binary (op : Bin) (type : Ty) (first : Reads left)
    (second : Reads right) : Reads (.bin (.binary op) type left right) := by
  intro rest s
  change eval (fields left ++ fields right ++ [op.char :: emitletter type] ++ rest) s = _
  rw [List.append_assoc, List.append_assoc, first.two second, List.singleton_append, eval_binary, ← ite_and]
  apply if_congr _ rfl rfl
  simp only [Fits, TypeFits, need, ids, List.forall_mem_append, List.length_cons, STACKSIZ]
  constructor
  · rintro ⟨⟨early, late⟩, field⟩
    exact ⟨by omega, ⟨early.2, late.2⟩, field.2⟩
  · rintro ⟨room, ⟨early, late⟩, field⟩
    exact ⟨⟨⟨by omega, early⟩, by omega, late⟩, by omega, field⟩

theorem reads_assign (sub : Option Sub) (type : Ty) (first : Reads left)
    (second : Reads right) : Reads (.bin (.assign sub) type left right) := by
  intro rest s
  rcases (show ∃ text, optxt (.assign sub) = some text by cases sub <;> exact ⟨_, rfl⟩) with
    ⟨text, written⟩
  have written_ : fields (.bin (.assign sub) type left right) =
      fields left ++ fields right ++ [text ++ emitletter type] := by
    simp only [fields, written]
  rw [written_, List.append_assoc, List.append_assoc, first.two second, List.singleton_append,
    eval_assign sub text written, ← ite_and]
  apply if_congr _ rfl rfl
  simp only [Fits, TypeFits, need, ids, List.forall_mem_append, List.length_cons, STACKSIZ]
  constructor
  · rintro ⟨⟨early, late⟩, field⟩
    exact ⟨by omega, ⟨early.2, late.2⟩, field.2⟩
  · rintro ⟨room, ⟨early, late⟩, field⟩
    exact ⟨⟨⟨by omega, early⟩, by omega, late⟩, by omega, field⟩

theorem reads_unary (op : Un) (type : Ty) (first : Reads left) : Reads (.bin (.unary op) type left .nil) := by
  intro rest s
  change eval (fields left ++ [] ++ [op.char :: emitletter type] ++ rest) s = _
  rw [List.append_nil, List.append_assoc, first, List.singleton_append, eval_unary (optbl_un op), ← ite_and]
  apply if_congr _ rfl rfl
  simp only [Fits, TypeFits, need, ids, List.append_nil, List.forall_mem_append, List.length_cons, STACKSIZ]
  constructor
  · rintro ⟨early, field⟩
    exact ⟨by omega, early.2, field.2⟩
  · rintro ⟨room, early, field⟩
    exact ⟨⟨by omega, early⟩, by omega, field⟩

theorem reads_ask {cond yes no : Tree} (type colon : Ty) (first : Reads cond) (second : Reads yes)
    (third : Reads no) : Reads (.bin .OASK type cond (.bin .OCOLON colon yes no)) := by
  intro rest s
  change eval (fields cond ++ (fields yes ++ fields no ++ []) ++ ['?' :: emitletter type] ++ rest) s = _
  rw [List.append_nil, List.append_assoc, List.append_assoc, List.append_assoc, first,
    second.two third, List.singleton_append, eval_ask, ← ite_and, ← ite_and]
  apply if_congr _ rfl rfl
  simp only [Fits, TypeFits, need, ids, List.forall_mem_append, List.length_cons, STACKSIZ]
  constructor
  · rintro ⟨⟨early, middle, late⟩, field⟩
    exact ⟨by omega, ⟨early.2, middle.2, late.2⟩, field.2⟩
  · rintro ⟨room, ⟨early, middle, late⟩, field⟩
    exact ⟨⟨⟨by omega, early⟩, ⟨by omega, middle⟩, by omega, late⟩, by omega, field⟩

theorem reads_cast (letter : Letter) (first : Reads left) : Reads (.cast (.plain letter) left) := by
  intro rest s
  unfold fields translate
  by_cases void : (Ty.plain letter).isVoid = true
  · rw [if_pos void, if_pos void, List.append_nil, first]
    apply if_congr _ rfl rfl
    simp only [Fits, need, ids, if_pos void]
  · rw [if_neg void, if_neg void, List.append_assoc, first, List.singleton_append]
    change (if _ then eval (('g' :: emitletter (.plain letter)) :: rest) _ else none) = _
    rw [eval_unary (show optbl 'g' = some (.unary .OCAST) from rfl), ← ite_and]
    apply if_congr _ rfl rfl
    simp only [Fits, need, ids, if_neg void, TypeFits, Ty.ids, List.length_cons, STACKSIZ]
    constructor
    · rintro ⟨early, field⟩
      exact ⟨by omega, early.2⟩
    · rintro ⟨room, early⟩
      exact ⟨⟨by omega, early⟩, by omega, by simp⟩

theorem reads_builtin1 {sym : Builtin} (type : Ty) (one : sym.nchilds = 1)
    (first : Reads left) : Reads (.builtin sym type left .nil) := by
  intro rest s
  change eval (fields left ++ [] ++ ['"' :: sym.name, 'm' :: emitletter type] ++ rest) s = _
  rw [List.append_nil, List.append_assoc, first, List.cons_append, List.singleton_append,
    eval_builtin sym type rest _ (.node (translate (.builtin sym type left .nil)) :: s), ← ite_and]
  · apply if_congr _ rfl rfl
    simp only [Fits, TypeFits, need, ids, one, List.append_nil, List.forall_mem_append,
      List.length_cons, STACKSIZ]
    constructor
    · rintro ⟨early, field⟩
      exact ⟨by omega, early.2, field.2⟩
    · rintro ⟨room, early, field⟩
      exact ⟨⟨by omega, early⟩, by omega, field⟩
  · intro room
    rw [if_neg (by omega)]
    exact push_room (Nat.lt_of_succ_lt room)

theorem reads_builtin2 {sym : Builtin} (type : Ty) (two : sym.nchilds = 2)
    (first : Reads left) (second : Reads right) : Reads (.builtin sym type left right) := by
  intro rest s
  change eval (fields left ++ fields right ++ ['"' :: sym.name, 'm' :: emitletter type] ++ rest) s = _
  rw [List.append_assoc, List.append_assoc, first.two second, List.cons_append, List.singleton_append,
    eval_builtin sym type rest _ (.node (translate (.builtin sym type left right)) :: s), ← ite_and]
  · apply if_congr _ rfl rfl
    simp only [Fits, TypeFits, need, ids, two, List.forall_mem_append, List.length_cons, STACKSIZ]
    constructor
    · rintro ⟨⟨early, late⟩, field⟩
      exact ⟨by omega, ⟨early.2, late.2⟩, field.2⟩
    · rintro ⟨room, ⟨early, late⟩, field⟩
      exact ⟨⟨⟨by omega, early⟩, by omega, late⟩, by omega, field⟩
  · intro room
    rw [if_pos two]
    exact push_room (Nat.lt_of_succ_lt (Nat.lt_of_succ_lt room))

theorem reads_par {pars arg : Tree} (type : Ty) (first : ReadsPars pars) (second : Reads arg) :
    ReadsPars (.bin .OPAR type pars arg) := by
  intro rest s bounded
  change eval (fields pars ++ fields arg ++ ['p' :: emitletter type] ++ rest) s = _
  rw [List.append_assoc, List.append_assoc, first _ _ bounded, second, List.singleton_append,
    eval_unary (show optbl 'p' = some (.unary .OPAR) from rfl), ← ite_and, ← ite_and]
  apply if_congr _ rfl rfl
  simp only [Fits, TypeFits, need, ids, List.forall_mem_append, List.length_cons, List.length_append,
    parStack_length, STACKSIZ]
  constructor
  · rintro ⟨⟨early, late⟩, field⟩
    exact ⟨by omega, ⟨early.2, late.2⟩, field.2⟩
  · rintro ⟨room, ⟨early, late⟩, field⟩
    exact ⟨⟨⟨by omega, early⟩, by omega, late⟩, by omega, field⟩

theorem eval_called {fn pars : Tree} (formed : Formed false fn) (formedPars : Formed true pars)
    (first : Reads fn) (second : ReadsPars pars) {c : Char} {op : NodeOp}
    (found : optbl c = some (.call op)) (type : Ty) (rest : List (List Char)) (s : Stack) :
    eval (fields fn ++ fields pars ++ [c :: emitletter type] ++ rest) s =
      if Fits s.length fn ∧ Fits (s.length + 1) pars ∧ ∀ id ∈ type.ids, id < USHRT_MAX then
        eval rest (.node (.node op type.read (translate fn) (rechain (translate pars) .nil)) :: s)
      else none := by
  rw [List.append_assoc, List.append_assoc, first, ite_and]
  by_cases fits : Fits s.length fn
  · have room : s.length + 1 ≤ STACKSIZ := by
      have positive := need_pos formed
      have high := fits.1
      omega
    rw [if_pos fits, if_pos fits, second _ _ (by simpa using room), List.singleton_append,
      eval_call formedPars (translate_notPar formed) found, ← ite_and]
    apply if_congr _ rfl rfl
    unfold TypeFits
    rw [List.length_cons]
    constructor
    · rintro ⟨late, field⟩
      exact ⟨late, field.2⟩
    · rintro ⟨late, field⟩
      exact ⟨late, room, field⟩
  · rw [if_neg fits, if_neg fits]

theorem reads_call {fn pars : Tree} (ellipsis : Bool) (type : Ty) (formed : Formed false fn)
    (formedPars : Formed true pars) (first : Reads fn) (second : ReadsPars pars) :
    Reads (.bin (if ellipsis then .OCALLE else .OCALL) type fn pars) := by
  intro rest s
  have room : ∀ op, op = Op.OCALL ∨ op = Op.OCALLE →
      (Fits s.length (.bin op type fn pars) ↔
        Fits s.length fn ∧ Fits (s.length + 1) pars ∧ ∀ id ∈ type.ids, id < USHRT_MAX) := by
    rintro op (rfl | rfl) <;> simp only [Fits, need, ids, List.forall_mem_append, STACKSIZ]
    all_goals
      constructor
      · rintro ⟨high, ⟨early, late⟩, field⟩
        exact ⟨⟨by omega, early⟩, ⟨by omega, late⟩, field⟩
      · rintro ⟨early, late, field⟩
        exact ⟨by omega, ⟨early.2, late.2⟩, field⟩
  cases ellipsis with
  | false =>
    rw [if_neg Bool.false_ne_true]
    simp only [room .OCALL (Or.inl rfl)]
    exact eval_called formed formedPars first second
      (show optbl 'c' = some (.call .OCALL) from rfl) type rest s
  | true =>
    rw [if_pos rfl]
    simp only [room .OCALLE (Or.inr rfl)]
    exact eval_called formed formedPars first second
      (show optbl 'z' = some (.call .OCALLE) from rfl) type rest s

theorem formed_reads {pars : Bool} {np : Tree} (formed : Formed pars np) :
    if pars then ReadsPars np else Reads np := by
  induction formed with
  | var sclass id => exact eval_var sclass id
  | const letter size u => exact eval_const letter size u
  | binary op type _ _ ih ih' => exact reads_binary op type ih ih'
  | assign sub type _ _ ih ih' => exact reads_assign sub type ih ih'
  | unary op type _ ih => exact reads_unary op type ih
  | ask type colon _ _ _ ih ih' ih'' => exact reads_ask type colon ih ih' ih''
  | call ellipsis type first second ih ih' => exact reads_call ellipsis type first second ih ih'
  | cast letter _ ih => exact reads_cast letter ih
  | builtin1 type one _ ih => exact reads_builtin1 type one ih
  | builtin2 type two _ _ ih ih' => exact reads_builtin2 type two ih ih'
  | nopars =>
    intro rest s bounded
    change eval rest s = _
    rw [if_pos ⟨bounded, by simp [ids]⟩]
    rfl
  | par type _ _ ih ih' => exact reads_par type ih ih'

theorem strtok_emitnode {np : Tree} (formed : Formed false np) : strtok (emitnode np) = fields np := by
  rw [emitnode_fields formed]
  exact strtok_fields _ (fields_plain np)

theorem strtok_end (line : List Char) : strtok (line ++ ['\n']) = strtok line := by
  unfold strtok
  rw [List.splitOnP_append_cons line [] (by decide), List.filter_append]
  simp

theorem eval_formed {np : Tree} (formed : Formed false np) (s : Stack) :
    eval (fields np) s = if Fits s.length np then some (.node (translate np) :: s) else none := by
  have all := formed_reads formed [] s
  rw [List.append_nil] at all
  rw [all]
  rfl

/-- `f(x, y) + 1`. -/
def sumOfCall : Tree :=
  .bin (.binary .OADD) (.plain .INT32)
    (.bin .OCALL (.plain .INT32) (.var .global 1 false)
      (.bin .OPAR (.plain .INT32)
        (.bin .OPAR (.plain .INT32) .nil (.var .auto 2 false)) (.var .auto 3 false)))
    (.const .INT32 4 1 false)

theorem sumOfCall_formed : Formed false sumOfCall :=
  .binary _ _ (.call false _ (.var _ _) (.par _ (.par _ .nopars (.var _ _)) (.var _ _)))
    (.const _ _ _)

end Scc.Ir
