import Mathlib.Data.Nat.ModEq
import Scc.Libmach.Pack
import Scc.Ranlib.IndexLaw

/-!
# Writing the index

The new index comes first in the library, and the members follow. The offsets in it are
those of the members before that: they are right if the members keep their places.
-/

namespace Scc.Ranlib

open Scc.Lib Scc.Ar

set_option autoImplicit false

/-- The four bytes of a number, the highest first. -/
def long (v : Int) : Bytes := Shifts.scatter (Libmach.Pack.bshifts .l) (v % 2 ^ 64).toNat

def bytes (s : List Char) : Bytes := s.map fun c => c.toNat.toUInt8

/-- `coff32setidx()`, the only format with an index: the number of the symbols, their offsets and their
names. -/
def setindex (head : List Symdef) : Bytes :=
  long head.length ++ head.flatMap (fun dp => long dp.offset) ++ head.flatMap fun dp => bytes dp.name ++ [0]

def stored (dp : Symdef) : Nat := (dp.offset % 2 ^ 32).toNat

structure Fprop where
  time : Nat
  uid : Nat
  gid : Nat
  mode : Nat

def padded (width : Nat) (s : Bytes) : Bytes := s ++ List.replicate (width - s.length) 32

def number (base n : Nat) : Bytes := bytes (Nat.toDigits base n)

def namidx : Bytes := [47]

def header (prop : Fprop) (size : Nat) : Bytes :=
  padded 16 (namidx.take 16) ++ padded 12 (number 10 prop.time) ++ padded 6 (number 10 prop.uid) ++
    padded 6 (number 10 prop.gid) ++ padded 8 (number 8 prop.mode) ++ padded 10 (number 10 size) ++ ARFMAG

def beginning (prop : Fprop) (idx : Bytes) : Bytes :=
  ARMAG ++ header prop idx.length ++ idx ++ if idx.length % 2 = 1 then [10] else []

def atol (s : Bytes) : Int :=
  match s.dropWhile Libmach.isspace with
  | 45 :: s => -(Libmach.number 10 s : Int)
  | 43 :: s => Libmach.number 10 s
  | s => Libmach.number 10 s

/-- Where the members begin that are copied: after an index of the same name. -/
def kept (file : Bytes) : Option Nat :=
  (fread file SARMAG).map fun first =>
    if cstring first.ar_name = namidx then fseek (SARMAG + hdrsize) (atol (first.ar_size ++ first.ar_fmag))
    else SARMAG

def merge (prop : Fprop) (idx file : Bytes) : Bytes :=
  match kept file with
  | none => []
  | some s => beginning prop idx ++ file.drop s

/-- Where the new library has what was at a place of the old one. -/
def place (prop : Fprop) (idx file : Bytes) (pos : Nat) : Option Nat :=
  (kept file).bind fun s => if s ≤ pos then some ((beginning prop idx).length + (pos - s)) else none

/-- The table has this entry from this member. -/
def Found (objs : Objects) (file : Bytes) (v : Visit) (dp : Symdef) : Prop :=
  dp.offset = (v.pos + hdrsize : Nat) ∧ ∃ ob ∈ objects objs file [v], ∃ sym ∈ ob.syms, counted sym = true ∧ sym.name = dp.name

section Entries

variable {genhash : Name → Nat} {objs : Objects} {file : Bytes}

theorem newsymbol_head {offset : Int} {tab : Table} {sym : Symbol} {dp : Symdef}
    (member : dp ∈ (newsymbol genhash offset tab sym).1.head) :
    dp ∈ tab.head ∨ dp.offset = offset ∧ counted sym = true ∧ sym.name = dp.name := by
  cases yes : counted sym with
  | false =>
    rw [uncounted yes] at member
    exact .inl member
  | true =>
    have set_ {head : List Symdef} (member : dp ∈ head.map fun dp =>
        if dp.name = sym.name then { dp with type := sym.type, offset := offset } else dp) :
        dp ∈ head ∧ dp.name ≠ sym.name ∨ dp.offset = offset ∧ true = true ∧ sym.name = dp.name := by
      rcases List.mem_map.mp member with ⟨old, inside, rfl⟩
      by_cases here : old.name = sym.name
      · right
        simp [here]
      · left
        simp [here, inside]
    unfold newsymbol at member
    rw [if_neg (by simp [yes]), lookup_eq] at member
    cases found : tab.head.find? fun dp => dp.name = sym.name with
    | none =>
      rw [found] at member
      dsimp only at member
      rw [if_neg (by decide), if_pos rfl] at member
      rcases set_ member with ⟨inside, other⟩ | same
      · rcases List.mem_cons.mp inside with rfl | inside
        · exact absurd rfl other
        · exact .inl inside
      · exact .inr same
    | some np =>
      have named : np.name = sym.name := by simpa using List.find?_some found
      rw [found] at member
      dsimp only at member
      rw [named] at member
      split_ifs at member
      · exact .inl member
      · exact (set_ member).imp_left And.left
      · exact (set_ member).imp_left And.left
      · exact .inl member
      · exact .inl member

theorem newsymbols_head {offset : Int} {tab : Table} {syms : List Symbol} {dp : Symdef}
    (member : dp ∈ (newsymbols genhash offset tab syms).head) :
    dp ∈ tab.head ∨ dp.offset = offset ∧ ∃ sym ∈ syms, counted sym = true ∧ sym.name = dp.name := by
  induction syms generalizing tab with
  | nil => exact .inl member
  | cons sym syms ih =>
    have one {tab' : Table} (same : (newsymbol genhash offset tab sym).1 = tab') (inside : dp ∈ tab'.head) :
        dp ∈ tab.head ∨ dp.offset = offset ∧ ∃ sym' ∈ sym :: syms, counted sym' = true ∧ sym'.name = dp.name := by
      rw [← same] at inside
      exact (newsymbol_head inside).imp_right fun new => ⟨new.1, sym, List.mem_cons_self, new.2⟩
    unfold newsymbols at member
    split at member
    next tab' same =>
      rcases ih member with inside | ⟨offset, sym', later, new⟩
      · exact one (congrArg Prod.fst same) inside
      · exact .inr ⟨offset, sym', List.mem_cons_of_mem _ later, new⟩
    next tab' same => exact one (congrArg Prod.fst same) member

theorem readObjects_found {visits : List Visit} {dp : Symdef}
    (member : dp ∈ (readObjects genhash (objects objs file visits)).head) : ∃ v ∈ visits, Found objs file v dp := by
  induction visits using List.reverseRecOn with
  | nil => cases member
  | append_singleton visits v ih =>
    have parts : objects objs file (visits ++ [v]) = objects objs file visits ++ objects objs file [v] :=
      List.filterMap_append
    unfold readObjects at member ih
    rw [parts, List.foldl_append] at member
    have earlier (inside : dp ∈ ((objects objs file visits).foldl
        (fun tab ob => newsymbols genhash ob.offset tab ob.syms) ⟨[], []⟩).head) :
        ∃ v' ∈ visits ++ [v], Found objs file v' dp := by
      rcases ih inside with ⟨v', here, found⟩
      exact ⟨v', List.mem_append_left _ here, found⟩
    cases new : objects objs file [v] with
    | nil =>
      rw [new] at member
      exact earlier member
    | cons ob rest =>
      have only : rest = [] ∧ ob.offset = (v.pos + hdrsize : Nat) := by
        unfold objects at new
        rw [List.filterMap_cons] at new
        split at new
        · cases new
        next ob' same =>
          cases new
          rcases Option.bind_eq_some_iff.mp same with ⟨t, -, read⟩
          rcases Option.map_eq_some_iff.mp read with ⟨syms, -, rfl⟩
          exact ⟨rfl, rfl⟩
      rw [new, only.1, List.foldl_cons, List.foldl_nil] at member
      rcases newsymbols_head member with inside | ⟨offset, sym, inside, counts⟩
      · exact earlier inside
      · refine ⟨v, List.mem_append_right _ List.mem_cons_self, offset.trans only.2, ob, ?_, sym, inside, counts⟩
        rw [new]
        exact List.mem_cons_self

/-- A run that ends well: what is visited, the table, and the new library. -/
inductive Written (genhash : Name → Nat) (objs : Objects) (prop : Fprop) (file : Bytes) :
    List Visit → Table → Bytes → Prop
  | run {s : Nat} {visits : List Visit} {st : State} (starts : start file = some s)
      (walk : Walk (Libmach.turn file) s visits true)
      (read : st = visits.foldl (fun st v => newmember genhash objs file st v.pos) State.init)
      (built : st.nolib = false) (entries : st.tab.head ≠ []) (silent : st.tab.multiple = []) :
      Written genhash objs prop file visits st.tab (merge prop (setindex st.tab.head) file)

theorem kept_some {s : Nat} {visits : List Visit} (starts : start file = some s)
    (walk : Walk (Libmach.turn file) s visits true) (visited : visits ≠ []) : ∃ first, kept file = some first := by
  unfold kept
  cases header : fread file SARMAG with
  | some hdr => exact ⟨_, rfl⟩
  | none =>
    exfalso
    have nothing : Libmach.armember file SARMAG = .eof := by
      unfold Libmach.armember
      rw [header]
    unfold start at starts
    rw [nothing] at starts
    cases starts
    have stops : Libmach.turn file SARMAG = .stop true := by
      unfold Libmach.turn
      rw [nothing]
    exact visited (walk.unique (.stop stops)).1

theorem oneMember_written (prop : Fprop) : Written (fun _ => 0) (someObjects [⟨['f'], 'T'⟩]) prop oneMember
    [⟨[97], 8, 2⟩] ⟨[⟨['f'], 'T', 68⟩], []⟩ (merge prop (setindex [⟨['f'], 'T', 68⟩]) oneMember) := by
  have starts : start oneMember = some SARMAG := rfl
  have read : (⟨⟨[⟨['f'], 'T', 68⟩], []⟩, some 0, false⟩ : State) = [(⟨[97], 8, 2⟩ : Visit)].foldl
      (fun st v => newmember (fun _ => 0) (someObjects [⟨['f'], 'T'⟩]) oneMember st v.pos) State.init := rfl
  exact .run starts oneMember_walk read rfl (by simp) rfl

end Entries

end Scc.Ranlib
