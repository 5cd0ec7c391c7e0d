import Scc.Libmach.Coff32Build

/-!
# The string table of a COFF object

Names that do not fit a symbol go to the string table, which `realloc()` makes longer for every one of
them. A run of `setsec()` and `setsym()` takes the indexes in any order and goes on after a call that
fails, with what this call has already changed. `Run` remembers the names that were given and the places
where long names were put. Memory that is not set is an argument.
-/

namespace Scc.Libmach.Coff32

open Scc.Libmach.Pack Scc.Libmach.Reader

set_option autoImplicit false

/-- Whether `realloc()` has memory for the array and for the string table. -/
structure Heap where
  array : Bool
  table : Bool

/-- No object has more than `PTRDIFF_MAX` bytes. -/
def Heap.gives (heap : Heap) (siz : Nat) : Bool := heap.table && decide (siz < 2 ^ 63)

inductive Call
  | setsec (n : Nat) (sec : Section) (heap : Heap)
  | setsym (n : Nat) (sym : Symbol) (heap : Heap)

structure Fresh where
  scn : Nat → Scnhdr
  ent : Nat → Ent
  garbage : Garbage

/-- The array with the element at an index. -/
def grow {α : Type} (unset : Nat → α) (l : List α) (n : Nat) : List α :=
  l ++ (List.range (n + 1 - l.length)).map fun i => unset (l.length + i)

/-- `secname()` and `symname()`, when there is memory for the string table. -/
def given (heap : Heap) (coff : Coff) (name : Str) (len : Nat) (put : Option (Name × Coff)) :
    Option (Name × Coff) :=
  if name.bytes.length < len ∨ heap.gives (name.bytes.length + coff.strsiz + 1) then put else none

def Coff.growScns (unset : Fresh) (coff : Coff) (n : Nat) : Coff :=
  { coff with
    hdr := { coff.hdr with f_nscns := if n ≥ coff.scns.length then n + 1 else coff.hdr.f_nscns }
    scns := grow unset.scn coff.scns n }

def Coff.growEnts (unset : Fresh) (coff : Coff) (n : Nat) : Coff :=
  { coff with
    hdr := { coff.hdr with f_nsyms := if n ≥ coff.ents.length then n + 1 else coff.hdr.f_nsyms }
    ents := grow unset.ent coff.ents n }

def Coff.hasSyms (coff : Coff) : Coff :=
  { coff with
    hdr :=
      { coff.hdr with
        f_flags := if coff.hdr.f_flags / F_LSYMS % 2 = 1 then coff.hdr.f_flags - F_LSYMS else coff.hdr.f_flags } }

/-- `coff32setsec()`: the object afterwards, and whether the call succeeds. -/
def setsec (unset : Fresh) (coff : Coff) (n : Nat) (sec : Section) (heap : Heap) : Coff × Bool :=
  match stypOf sec with
  | none => (coff, false)
  | some flags =>
    if sec.name.bytes.length ≥ SCNNMLEN then (coff, false)
    else if n ≥ coff.scns.length ∧ (n > SHRT_MAX - 1 ∨ heap.array = false) then (coff, false)
    else
      let coff := coff.growScns unset n
      match given heap coff sec.name SCNNMLEN (secname coff sec.name unset.garbage.n_offset) with
      | none => (coff, false)
      | some (s_name, coff) =>
        ({ coff with scns := coff.scns.set n ⟨s_name, sec.load, sec.base, sec.size, 0, 0, 0, 0, 0, flags⟩ }, true)

/-- `coff32setsym()`. The name is already set when the type is refused. -/
def setsym (unset : Fresh) (coff : Coff) (n : Nat) (sym : Symbol) (heap : Heap) : Coff × Bool :=
  let coff := coff.hasSyms
  if n ≥ coff.ents.length ∧ (n + 1 > INT_MAX ∨ heap.array = false) then (coff, false)
  else
    let coff := coff.growEnts unset n
    match given heap coff sym.name SYMNMLEN (symname coff sym.name unset.garbage.n_offset) with
    | none => (coff, false)
    | some (n_name, coff) =>
      let (d, accepted) := match defent sym unset.garbage.n_sclass with
        | some d => (d, true)
        | none => ((sym.section_ + 1, unset.garbage.n_sclass), false)
      ({ coff with ents := coff.ents.set n (.SYM_ENT ⟨n_name, sym.value, d.1, unset.garbage.n_type, d.2, 0⟩) },
        accepted)

def Call.run (unset : Fresh) (coff : Coff) : Call → Coff × Bool
  | .setsec n sec heap => Coff32.setsec unset coff n sec heap
  | .setsym n sym heap => Coff32.setsym unset coff n sym heap

inductive Slot
  | scn (n : Nat)
  | ent (n : Nat)
deriving DecidableEq

def Call.slot : Call → Slot
  | .setsec n _ _ => .scn n
  | .setsym n _ _ => .ent n

def Call.name : Call → Str
  | .setsec _ sec _ => sec.name
  | .setsym _ sym _ => sym.name

def Ent.symbolName : Ent → Option Name
  | .SYM_ENT sym => some sym.n_name
  | _ => none

def Coff.nameAt (coff : Coff) : Slot → Option Name
  | .scn n => coff.scns[n]?.map Scnhdr.s_name
  | .ent n => coff.ents[n]?.bind Ent.symbolName

/-- `coff32str()` for the name of a section or a symbol. -/
def Coff.retrieve (coff : Coff) (slot : Slot) : Option Bytes := (coff.nameAt slot).bind (coff32str coff.strtbl)

/-- The call comes to the name, which it stores. -/
def Call.Stores (coff : Coff) : Call → Prop
  | .setsec n sec heap => (stypOf sec).isSome ∧ sec.name.bytes.length < SCNNMLEN ∧
      (n < coff.scns.length ∨ n ≤ SHRT_MAX - 1 ∧ heap.array = true)
  | .setsym n sym heap => (n < coff.ents.length ∨ n + 1 ≤ INT_MAX ∧ heap.array = true) ∧
      (sym.name.bytes.length < SYMNMLEN ∨ heap.gives (sym.name.bytes.length + coff.strsiz + 1) = true)

instance (coff : Coff) (call : Call) : Decidable (call.Stores coff) := by
  cases call <;> unfold Call.Stores <;> infer_instance

/-- The call puts its name into the string table. -/
def Call.Appends (coff : Coff) (call : Call) : Prop := call.Stores coff ∧ SYMNMLEN ≤ call.name.bytes.length

instance (coff : Coff) (call : Call) : Decidable (call.Appends coff) := by
  unfold Call.Appends
  infer_instance

/-- A run: the names that sections and symbols were given last, and the places of the names in the string
table with their sizes, the last one first. -/
structure Run where
  coff : Coff
  names : Slot → Option Bytes
  places : List (Nat × Nat)

/-- A name without characters is not stored. -/
def Run.step (unset : Fresh) (run : Run) (call : Call) : Run where
  coff := (call.run unset run.coff).1
  names := fun slot =>
    if slot = call.slot ∧ call.Stores run.coff then
      if call.name.bytes = [] then none else some call.name.bytes
    else run.names slot
  places :=
    if call.Appends run.coff then (run.coff.strsiz, call.name.bytes.length + 1) :: run.places else run.places

def Run.after (unset : Fresh) (run : Run) (calls : List Call) : Run := calls.foldl (Run.step unset) run

def Run.start (coff : Coff) : Run := ⟨coff, fun _ => none, []⟩

/-- The recorded size is the size of the memory, names are found again, and no two of them overlap. -/
structure Run.Accounted (run : Run) : Prop where
  size : run.coff.strsiz = run.coff.strtbl.length
  retrieved : ∀ slot name, run.names slot = some name → run.coff.retrieve slot = some name
  inside : ∀ p ∈ run.places, p.1 + p.2 ≤ run.coff.strtbl.length
  apart : run.places.Pairwise fun later earlier => earlier.1 + earlier.2 ≤ later.1

/-- Every name goes to a string table that is empty. -/
def EmptyBefore (unset : Fresh) : Coff → List Call → Prop
  | _, [] => True
  | coff, call :: calls => (call.Appends coff → coff.strsiz = 0) ∧ EmptyBefore unset (call.run unset coff).1 calls


def Keeps (coff coff' : Coff) (changed : Slot → Prop) : Prop :=
  ∀ slot name, ¬changed slot → coff.nameAt slot = some name → coff'.nameAt slot = some name

/-- The table after `realloc()` and `strcpy()`. -/
def appended (coff : Coff) (name : Str) : Bytes :=
  coff.strtbl ++ List.replicate (coff.strsiz - coff.strtbl.length) 0 ++ name.bytes ++ [0]

variable {α : Type} {coff : Coff} {heap : Heap}

theorem grow_getElem? (unset : Nat → α) {l : List α} {n i : Nat} (inside : i < l.length) :
    (grow unset l n)[i]? = l[i]? := List.getElem?_append_left inside

theorem grow_length (unset : Nat → α) (l : List α) (n : Nat) : n < (grow unset l n).length := by
  simp [grow]
  omega

theorem grow_set (unset : Nat → α) {l : List α} {n i : Nat} {a old : α} (other : i ≠ n)
    (here : l[i]? = some old) : ((grow unset l n).set n a)[i]? = some old := by
  have inside : i < l.length := (List.getElem?_eq_some_iff.mp here).1
  rw [List.getElem?_set_ne (Ne.symm other), grow_getElem? unset inside, here]

theorem given_none {name : Str} {len : Nat} {put : Option (Name × Coff)}
    (long : len ≤ name.bytes.length) (full : heap.gives (name.bytes.length + coff.strsiz + 1) ≠ true) :
    given heap coff name len put = none := by
  unfold given
  rw [if_neg]
  rintro (short | room)
  · omega
  · exact full room

theorem given_short {name : Str} {unset : Nat} (short : name.bytes.length < 8) :
    given heap coff name SYMNMLEN (symname coff name unset) = some (inlineName name unset, coff) := by
  unfold given symname SYMNMLEN
  rw [if_pos (.inl short), if_pos short]

theorem given_long {name : Str} {unset : Nat} (long : 8 ≤ name.bytes.length)
    (room : heap.gives (name.bytes.length + coff.strsiz + 1) = true) :
    given heap coff name SYMNMLEN (symname coff name unset) = some (.offset coff.strsiz, { coff with
          strtbl := appended coff name
          strsiz := coff.strsiz + (name.bytes.length + coff.strsiz + 1) }) := by
  have small : name.bytes.length + coff.strsiz + 1 < 2 ^ 63 := by
    unfold Heap.gives at room
    simp only [Bool.and_eq_true, decide_eq_true_eq] at room
    exact room.2
  unfold given symname SYMNMLEN
  rw [if_pos (.inr room), if_neg (by omega)]
  unfold appendName ULONG_MAX
  dsimp only
  rw [if_neg (by omega)]
  rfl

/-- What the calls do to the names and the string table. -/
inductive Effect (coff coff' : Coff) (call : Call) : Prop
  | nothing (idle : ¬call.Stores coff) (table : coff'.strtbl = coff.strtbl) (size : coff'.strsiz = coff.strsiz)
      (keeps : Keeps coff coff' fun _ => False)
  | short (stores : call.Stores coff) (few : call.name.bytes.length < SYMNMLEN)
      (table : coff'.strtbl = coff.strtbl) (size : coff'.strsiz = coff.strsiz)
      (name : ∃ unset, coff'.nameAt call.slot = some (inlineName call.name unset))
      (keeps : Keeps coff coff' (· = call.slot))
  | long (appends : call.Appends coff) (table : coff'.strtbl = appended coff call.name)
      (size : coff'.strsiz = coff.strsiz + (call.name.bytes.length + coff.strsiz + 1))
      (name : coff'.nameAt call.slot = some (.offset coff.strsiz)) (keeps : Keeps coff coff' (· = call.slot))

variable (unset : Fresh)

theorem setsec_effect (coff : Coff) (n : Nat) (sec : Section) (heap : Heap) :
    Effect coff (setsec unset coff n sec heap).1 (.setsec n sec heap) := by
  unfold setsec
  cases type : stypOf sec with
  | none =>
    have idle : ¬(Call.setsec n sec heap).Stores coff := by
      rintro ⟨some_, -⟩
      rw [type] at some_
      cases some_
    exact .nothing idle rfl rfl fun _ _ _ same => same
  | some flags =>
    dsimp only
    split_ifs with long refused
    · have idle : ¬(Call.setsec n sec heap).Stores coff := fun stores => by
        have := stores.2.1
        omega
      exact .nothing idle rfl rfl fun _ _ _ same => same
    · have idle : ¬(Call.setsec n sec heap).Stores coff := by
        rintro ⟨-, -, inside | ⟨few, room⟩⟩
        · omega
        · rcases refused.2 with many | none_
          · omega
          · rw [room] at none_
            cases none_
      exact .nothing idle rfl rfl fun _ _ _ same => same
    · have few : sec.name.bytes.length < SCNNMLEN := by omega
      have stores : (Call.setsec n sec heap).Stores coff := by
        refine ⟨by rw [type]; rfl, few, ?_⟩
        by_cases inside : n < coff.scns.length
        · exact .inl inside
        · right
          cases room : heap.array with
          | false => exact absurd ⟨by omega, .inr room⟩ refused
          | true => exact ⟨by by_contra many; exact refused ⟨by omega, .inl (by omega)⟩, rfl⟩
      have named : given heap (coff.growScns unset n) sec.name SCNNMLEN
          (secname (coff.growScns unset n) sec.name unset.garbage.n_offset) = some (_, _) := given_short few
      have inside : n < (coff.growScns unset n).scns.length := grow_length _ _ _
      rw [named]
      refine .short stores few rfl rfl ?_ ?_
      · exists unset.garbage.n_offset
        unfold Coff.nameAt Call.slot
        dsimp only
        rw [List.getElem?_set_self inside]
        rfl
      · intro slot name other same
        cases slot with
        | scn i =>
          unfold Coff.nameAt at same ⊢
          rcases Option.map_eq_some_iff.mp same with ⟨old, here, rfl⟩
          have apart : i ≠ n := fun equal => other (congrArg Slot.scn equal)
          exact congrArg (Option.map Scnhdr.s_name) (grow_set unset.scn apart here)
        | ent i => exact same

theorem growEnts_keeps (coff : Coff) (n : Nat) :
    Keeps coff (coff.hasSyms.growEnts unset n) fun _ => False := by
  intro slot name _ same
  cases slot with
  | scn i => exact same
  | ent i =>
    unfold Coff.nameAt at same ⊢
    rcases Option.bind_eq_some_iff.mp same with ⟨old, here, symbol⟩
    have inside := (List.getElem?_eq_some_iff.mp here).1
    exact Option.bind_eq_some_iff.mpr ⟨old, (grow_getElem? unset.ent inside).trans here, symbol⟩

theorem set_ent (unset : Fresh) (coff : Coff) (n : Nat) (sym : Syment) (strtbl : Bytes) (strsiz : Nat) :
    let coff' :=
      { coff.hasSyms.growEnts unset n with
        ents := (coff.hasSyms.growEnts unset n).ents.set n (.SYM_ENT sym)
        strtbl
        strsiz }
    coff'.nameAt (.ent n) = some sym.n_name ∧ Keeps coff coff' (· = .ent n) := by
  have inside : n < (coff.hasSyms.growEnts unset n).ents.length := grow_length _ _ _
  constructor
  · unfold Coff.nameAt
    dsimp only
    rw [List.getElem?_set_self inside]
    rfl
  · intro slot name other same
    cases slot with
    | scn i => exact same
    | ent i =>
      unfold Coff.nameAt at same ⊢
      rcases Option.bind_eq_some_iff.mp same with ⟨old, here, symbol⟩
      have apart : i ≠ n := fun equal => other (congrArg Slot.ent equal)
      exact Option.bind_eq_some_iff.mpr ⟨old, grow_set unset.ent apart here, symbol⟩

theorem setsym_effect (coff : Coff) (n : Nat) (sym : Symbol) (heap : Heap) :
    Effect coff (setsym unset coff n sym heap).1 (.setsym n sym heap) := by
  unfold setsym
  dsimp only
  split_ifs with refused
  · have idle : ¬(Call.setsym n sym heap).Stores coff := by
      rintro ⟨inside | ⟨few, room⟩, -⟩
      · have : n ≥ coff.ents.length := refused.1
        omega
      · rcases refused.2 with many | none_
        · omega
        · rw [room] at none_
          cases none_
    exact .nothing idle rfl rfl fun slot name _ same => by cases slot <;> exact same
  · have reached : n < coff.ents.length ∨ n + 1 ≤ INT_MAX ∧ heap.array = true := by
      by_cases inside : n < coff.ents.length
      · exact .inl inside
      · right
        have outside : n ≥ coff.hasSyms.ents.length := by
          change n ≥ coff.ents.length
          omega
        cases room : heap.array with
        | false => exact absurd ⟨outside, .inr room⟩ refused
        | true => exact ⟨by by_contra many; exact refused ⟨outside, .inl (by omega)⟩, rfl⟩
    generalize decided : (match defent sym unset.garbage.n_sclass with
        | some d => (d, true)
        | none => ((sym.section_ + 1, unset.garbage.n_sclass), false)) = d
    by_cases few : sym.name.bytes.length < SYMNMLEN
    · have named : given heap (coff.hasSyms.growEnts unset n) sym.name SYMNMLEN
          (symname (coff.hasSyms.growEnts unset n) sym.name unset.garbage.n_offset) = some (_, _) := given_short few
      rw [named]
      have entry := set_ent unset coff n ⟨inlineName sym.name unset.garbage.n_offset, sym.value, d.1.1,
        unset.garbage.n_type, d.1.2, 0⟩ coff.strtbl coff.strsiz
      exact .short ⟨reached, .inl few⟩ few rfl rfl ⟨_, entry.1⟩ entry.2
    · have long : 8 ≤ sym.name.bytes.length := by
        unfold SYMNMLEN at few
        omega
      by_cases room : heap.gives (sym.name.bytes.length + coff.strsiz + 1) = true
      · have named : given heap (coff.hasSyms.growEnts unset n) sym.name SYMNMLEN
            (symname (coff.hasSyms.growEnts unset n) sym.name unset.garbage.n_offset) = some (_, _) :=
          given_long long room
        rw [named]
        have entry := set_ent unset coff n ⟨.offset coff.strsiz, sym.value, d.1.1, unset.garbage.n_type, d.1.2, 0⟩
          (appended coff sym.name) (coff.strsiz + (sym.name.bytes.length + coff.strsiz + 1))
        exact .long ⟨⟨reached, .inr room⟩, long⟩ rfl rfl entry.1 entry.2
      · have named : given heap (coff.hasSyms.growEnts unset n) sym.name SYMNMLEN
            (symname (coff.hasSyms.growEnts unset n) sym.name unset.garbage.n_offset) = none :=
          given_none long room
        rw [named]
        have idle : ¬(Call.setsym n sym heap).Stores coff := by
          rintro ⟨-, short | there⟩
          · exact few short
          · exact room there
        exact .nothing idle rfl rfl (growEnts_keeps unset coff n)

theorem call_effect (coff : Coff) (call : Call) : Effect coff (call.run unset coff).1 call := by
  cases call with
  | setsec n sec heap => exact setsec_effect unset coff n sec heap
  | setsym n sym heap => exact setsym_effect unset coff n sym heap

theorem grow_putAt (unset : Nat → α) {l : List α} {n : Nat} (next : n ≤ l.length) (a : α) :
    (grow unset l n).set n a = putAt l n a := by
  unfold grow putAt
  split_ifs with inside
  · rw [show n + 1 - l.length = 0 by omega]
    simp
  · have last : n = l.length := by omega
    subst last
    simp

theorem setsec_of_coff32setsec {coff coff' : Coff} {n : Nat} {sec : Section}
    (done : coff32setsec unset.garbage.n_offset coff n sec = some coff') (heap : Heap) (room : heap.array = true) :
    setsec unset coff n sec heap = (coff', true) := by
  unfold coff32setsec at done
  rcases Option.bind_eq_some_iff.mp done with ⟨flags, type, set⟩
  by_cases long : sec.name.bytes.length ≥ SCNNMLEN
  · rw [if_pos long] at set
    cases set
  by_cases far : n > coff.scns.length
  · rw [if_neg long, if_pos far] at set
    cases set
  by_cases many : n ≥ coff.scns.length ∧ n > SHRT_MAX - 1
  · rw [if_neg long, if_neg far, if_pos many] at set
    cases set
  rw [if_neg long, if_neg far, if_neg many] at set
  have few : sec.name.bytes.length < SCNNMLEN := by omega
  have short : secname coff sec.name unset.garbage.n_offset = some (_, coff) := if_pos few
  have named : given heap (coff.growScns unset n) sec.name SCNNMLEN
      (secname (coff.growScns unset n) sec.name unset.garbage.n_offset) = some (_, _) := given_short few
  rw [short] at set
  cases set
  unfold setsec
  rw [type]
  dsimp only
  have accepted : ¬(n ≥ coff.scns.length ∧ (n > SHRT_MAX - 1 ∨ heap.array = false)) := by
    rw [room]
    rintro ⟨after, large | none_⟩
    · exact many ⟨after, large⟩
    · cases none_
  rw [if_neg long, if_neg accepted, named]
  dsimp only
  rw [show (coff.growScns unset n).scns = grow unset.scn coff.scns n from rfl, grow_putAt unset.scn (by omega)]
  rfl

theorem coff32str_append {strtbl : Bytes} {name : Name} {s : Bytes} (found : coff32str strtbl name = some s)
    (more : Bytes) : coff32str (strtbl ++ more) name = some s := by
  cases name with
  | name bytes => exact found
  | offset n =>
    unfold coff32str at found ⊢
    dsimp only at found ⊢
    split_ifs at found with inside
    rw [if_pos (by rw [List.length_append]; omega), List.drop_append_of_le_length (by omega)]
    unfold string at found ⊢
    split_ifs at found with ends
    rw [if_pos (List.mem_append_left _ ends), ← found, List.takeWhile_append, if_neg]
    intro whole
    have all := List.takeWhile_eq_self_iff.mp ((List.takeWhile_prefix _).eq_of_length whole)
    simpa using all 0 ends

theorem takeWhile_name (name : Str) (rest : Bytes) :
    (name.bytes ++ 0 :: rest).takeWhile (fun c => decide (c ≠ 0)) = name.bytes := by
  have all : ∀ c ∈ name.bytes, decide (c ≠ 0) = true := by
    intro c member
    exact decide_eq_true fun zero => name.no_nul (zero ▸ member)
  rw [List.takeWhile_append_of_pos all]
  simp

theorem inlineName_str {name : Str} (some_ : name.bytes ≠ []) (few : name.bytes.length < SYMNMLEN) (unset : Nat)
    (strtbl : Bytes) : coff32str strtbl (inlineName name unset) = some name.bytes := by
  unfold inlineName strncpy SYMNMLEN
  unfold SYMNMLEN at few
  rw [if_neg some_, show 8 - name.bytes.length = 8 - name.bytes.length - 1 + 1 by omega, List.replicate_succ]
  exact congrArg some (takeWhile_name name _)

theorem appended_length (name : Str) (fits : coff.strtbl.length ≤ coff.strsiz) :
    (appended coff name).length = coff.strsiz + (name.bytes.length + 1) := by
  simp [appended]
  omega

theorem appended_str (name : Str) (fits : coff.strtbl.length ≤ coff.strsiz) :
    coff32str (appended coff name) (.offset coff.strsiz) = some name.bytes := by
  have before : (coff.strtbl ++ List.replicate (coff.strsiz - coff.strtbl.length) 0).length = coff.strsiz := by
    simp
    omega
  unfold coff32str
  dsimp only
  rw [if_pos (by rw [appended_length name fits]; omega)]
  unfold appended string
  rw [List.append_assoc, List.drop_left' before, if_pos (by simp)]
  exact congrArg some (takeWhile_name name [])

/-- What holds of a run, whatever is recorded as the size. -/
structure Run.Sound (run : Run) : Prop where
  fits : run.coff.strtbl.length ≤ run.coff.strsiz
  retrieved : ∀ slot name, run.names slot = some name → run.coff.retrieve slot = some name
  inside : ∀ p ∈ run.places, p.1 + p.2 ≤ run.coff.strtbl.length
  apart : run.places.Pairwise fun later earlier => earlier.1 + earlier.2 ≤ later.1

theorem retrieve_kept {coff coff' : Coff} {changed : Slot → Prop} (keeps : Keeps coff coff' changed)
    (table : ∃ more, coff'.strtbl = coff.strtbl ++ more) {slot : Slot} (same : ¬changed slot) {name : Bytes}
    (found : coff.retrieve slot = some name) : coff'.retrieve slot = some name := by
  rcases table with ⟨more, longer⟩
  rcases Option.bind_eq_some_iff.mp found with ⟨field, here, str⟩
  unfold Coff.retrieve
  rw [keeps slot field same here, longer]
  exact coff32str_append str more

theorem Run.step_nothing {unset : Fresh} {run : Run} {call : Call} (idle : ¬call.Stores run.coff) :
    (run.step unset call).names = run.names ∧ (run.step unset call).places = run.places := by
  unfold Run.step
  dsimp only
  rw [if_neg fun appends : call.Appends run.coff => idle appends.1]
  refine ⟨?_, rfl⟩
  funext slot
  rw [if_neg fun stored => idle stored.2]

theorem Run.Sound.step {unset : Fresh} {run : Run} (sound : run.Sound) (call : Call) :
    (run.step unset call).Sound := by
  have same_coff : (run.step unset call).coff = (call.run unset run.coff).1 := rfl
  have effect := call_effect unset run.coff call
  rw [← same_coff] at effect
  cases effect with
  | nothing idle table size keeps =>
    have same := @Run.step_nothing unset run call idle
    have longer : ∃ more, (run.step unset call).coff.strtbl = run.coff.strtbl ++ more := ⟨[], by simp [table]⟩
    constructor
    · rw [table, size]
      exact sound.fits
    · rw [same.1]
      exact fun slot name has => retrieve_kept keeps longer not_false (sound.retrieved slot name has)
    · rw [same.2, table]
      exact sound.inside
    · rw [same.2]
      exact sound.apart
  | short stores few table size named keeps =>
    have longer : ∃ more, (run.step unset call).coff.strtbl = run.coff.strtbl ++ more := ⟨[], by simp [table]⟩
    have places : (run.step unset call).places = run.places := if_neg fun appends => by
      have := appends.2
      omega
    rcases named with ⟨garbage, field⟩
    constructor
    · rw [table, size]
      exact sound.fits
    · intro slot name has
      unfold Run.step at has
      dsimp only at has
      split_ifs at has with here empty
      · cases has
        rw [here.1]
        unfold Coff.retrieve
        rw [field]
        exact inlineName_str empty few garbage _
      · exact retrieve_kept keeps longer (fun there => here ⟨there, stores⟩) (sound.retrieved slot name has)
    · rw [places, table]
      exact sound.inside
    · rw [places]
      exact sound.apart
  | long appends table size field keeps =>
    have grown := appended_length call.name sound.fits
    have longer : ∃ more, (run.step unset call).coff.strtbl = run.coff.strtbl ++ more := by
      rw [table]
      exact ⟨_, by rw [appended, List.append_assoc, List.append_assoc]⟩
    have places : (run.step unset call).places = (run.coff.strsiz, call.name.bytes.length + 1) :: run.places :=
      if_pos appends
    constructor
    · rw [table, size, grown]
      omega
    · intro slot name has
      unfold Run.step at has
      dsimp only at has
      split_ifs at has with here empty
      · cases has
        rw [here.1]
        unfold Coff.retrieve
        rw [field, table]
        exact appended_str call.name sound.fits
      · exact retrieve_kept keeps longer (fun there => here ⟨there, appends.1⟩) (sound.retrieved slot name has)
    · rw [places, table, grown]
      intro p mem
      have fits := sound.fits
      rcases List.mem_cons.mp mem with same | earlier
      · rw [same]
      · have := sound.inside p earlier
        omega
    · rw [places]
      refine List.pairwise_cons.mpr ⟨fun p mem => ?_, sound.apart⟩
      exact (sound.inside p mem).trans sound.fits

theorem Run.Sound.after {unset : Fresh} {run : Run} (sound : run.Sound) (calls : List Call) :
    (run.after unset calls).Sound := by
  induction calls generalizing run with
  | nil => exact sound
  | cons call calls ih => exact ih (sound.step call)

theorem step_size_iff {unset : Fresh} (fits : coff.strtbl.length ≤ coff.strsiz) (call : Call) :
    (call.run unset coff).1.strsiz = (call.run unset coff).1.strtbl.length ↔
      coff.strsiz = coff.strtbl.length ∧ (call.Appends coff → coff.strsiz = 0) := by
  cases call_effect unset coff call with
  | nothing idle table size keeps =>
    rw [table, size]
    exact (and_iff_left fun appends => absurd appends.1 idle).symm
  | short stores few table size named keeps =>
    rw [table, size]
    refine (and_iff_left fun appends => ?_).symm
    have := appends.2
    omega
  | long appends table size field keeps =>
    rw [table, size, appended_length call.name fits]
    constructor
    · intro same
      exact ⟨by omega, fun _ => by omega⟩
    · rintro ⟨-, empty⟩
      have := empty appends
      omega

theorem after_size_iff {unset : Fresh} {run : Run} (sound : run.Sound) (calls : List Call) :
    (run.after unset calls).coff.strsiz = (run.after unset calls).coff.strtbl.length ↔
      run.coff.strsiz = run.coff.strtbl.length ∧ EmptyBefore unset run.coff calls := by
  induction calls generalizing run with
  | nil => exact (and_iff_left trivial).symm
  | cons call calls ih =>
    refine (ih (sound.step call)).trans ?_
    rw [show (run.step unset call).coff = (call.run unset run.coff).1 from rfl, step_size_iff sound.fits]
    exact and_assoc

/-- The string table of an object is accounted for after any calls just when no name goes to a table that has
one. -/
theorem accounted_iff (unset : Fresh) (run : Run) (calls : List Call) (start : run.Accounted) :
    (run.after unset calls).Accounted ↔ EmptyBefore unset run.coff calls := by
  have sound : run.Sound := ⟨Nat.le_of_eq start.size.symm, start.retrieved, start.inside, start.apart⟩
  have still := @Run.Sound.after unset run sound calls
  constructor
  · intro accounted
    exact ((after_size_iff sound calls).mp accounted.size).2
  · intro empty
    exact ⟨(after_size_iff sound calls).mpr ⟨start.size, empty⟩, still.retrieved, still.inside, still.apart⟩

theorem start_accounted (arch : Arch) : (Run.start (coff32new arch)).Accounted where
  size := rfl
  retrieved := nofun
  inside := nofun
  apart := .nil

/-- A defined symbol with a name of eight characters. -/
def eight (letter : UInt8) (nonzero : letter ≠ 0) : Symbol where
  name := ⟨List.replicate 8 letter, fun mem => nonzero (List.eq_of_mem_replicate mem).symm⟩
  value := 0
  section_ := 0
  type := 'T'

def idle : Fresh := ⟨fun _ => ⟨.offset 0, 0, 0, 0, 0, 0, 0, 0, 0, 0⟩, fun _ => .SYM_AUX_UNK [], ⟨0, 0, 0⟩⟩

def plenty : Heap := ⟨true, true⟩

theorem accounted_iff_one : ((Run.start (coff32new ⟨0x014c, 0x0105, .LITTLE_ENDIAN⟩)).after idle
        [.setsym 0 (eight 97 (by decide)) plenty]).Accounted ↔
      EmptyBefore idle (coff32new ⟨0x014c, 0x0105, .LITTLE_ENDIAN⟩) [.setsym 0 (eight 97 (by decide)) plenty] :=
  accounted_iff idle _ _ ⟨rfl, nofun, nofun, .nil⟩

/-- After two names of nine bytes the table has 18 bytes, and 27 are recorded. -/
theorem two_names_unaccounted : ¬ ∀ (unset : Fresh) (run : Run) (calls : List Call), run.Accounted →
    (run.after unset calls).Accounted := by
  intro always
  have accounted := always idle (Run.start (coff32new ⟨0x014c, 0x0105, .LITTLE_ENDIAN⟩))
    [.setsym 0 (eight 97 (by decide)) plenty, .setsym 1 (eight 98 (by decide)) plenty] (start_accounted _)
  exact absurd accounted.size (by decide)

end Scc.Libmach.Coff32
