import Scc.Ranlib.Index

/-!
# The law of the index

The index that scc-ranlib builds holds what it should if the symbols come in a consistent
order. Where no name is defined twice, this is also necessary.
-/

namespace Scc.Ranlib

open Scc.Lib Scc.Ar

set_option autoImplicit false

variable {genhash : Name → Nat}

variable {offset : Int} {tab : Table} {obs : List Object} {file : Bytes}

theorem newsymbol_quiet {sym : Symbol} (message : (newsymbol genhash offset tab sym).2 = false) :
    counted sym = true ∧ clash (tab.entry sym.name) sym.type = true := by
  cases yes : counted sym with
  | false =>
    rw [uncounted yes] at message
    cases message
  | true =>
    rw [(newsymbol_spec yes offset tab).2.1] at message
    exact ⟨rfl, by simpa using message⟩

theorem records_uncounted {uses : List (Int × Symbol)} (none_ : ∀ use ∈ uses, counted use.2 = false) (tab : Table) :
    uses.foldl (record genhash) tab = tab := by
  induction uses with
  | nil => rfl
  | cons use uses ih =>
    have same : record genhash tab use = tab := by
      unfold record
      rw [uncounted (none_ use List.mem_cons_self)]
    rw [List.foldl_cons, same]
    exact ih fun use' member => none_ use' (List.mem_cons_of_mem _ member)

theorem newsymbols_eq {syms : List Symbol} (late : ∀ before sym after, syms = before ++ sym :: after →
      (newsymbol genhash offset ((before.map fun sym => (offset, sym)).foldl (record genhash) tab) sym).2 = false →
      ∀ sym ∈ after, counted sym = false) :
    newsymbols genhash offset tab syms = (syms.map fun sym => (offset, sym)).foldl (record genhash) tab := by
  induction syms generalizing tab with
  | nil => rfl
  | cons sym syms ih =>
    rw [List.map_cons, List.foldl_cons]
    unfold newsymbols
    cases one : newsymbol genhash offset tab sym with
    | mk tab' more =>
      have here : record genhash tab (offset, sym) = tab' := by
        unfold record
        rw [one]
      rw [here]
      cases more with
      | true =>
        refine ih fun before sym' after same message => ?_
        refine late (sym :: before) sym' after (congrArg (sym :: ·) same) ?_
        rw [List.map_cons, List.foldl_cons, here]
        exact message
      | false =>
        have message : (newsymbol genhash offset tab sym).2 = false := by rw [one]
        refine (records_uncounted (fun use member => ?_) tab').symm
        rcases List.mem_map.mp member with ⟨sym', member', rfl⟩
        exact late [] sym syms rfl message sym' member'

theorem newsymbols_silent {syms : List Symbol}
    (silent : (newsymbols genhash offset tab syms).multiple = []) : tab.multiple = [] ∧
    newsymbols genhash offset tab syms = (syms.map fun sym => (offset, sym)).foldl (record genhash) tab := by
  induction syms generalizing tab with
  | nil => exact ⟨silent, rfl⟩
  | cons sym syms ih =>
    rw [List.map_cons, List.foldl_cons]
    unfold newsymbols at silent ⊢
    cases one : newsymbol genhash offset tab sym with
    | mk tab' more =>
      rw [one] at silent
      have here : record genhash tab (offset, sym) = tab' := by
        unfold record
        rw [one]
      rw [here]
      have messages : tab'.multiple = tab.multiple ++
          if clash (tab.entry sym.name) sym.type && counted sym then [sym.name] else [] := by
        cases yes : counted sym with
        | false =>
          rw [uncounted yes] at one
          cases one
          simp
        | true =>
          have spec : (newsymbol genhash offset tab sym).1.multiple = _ := (newsymbol_spec yes offset tab).2.2
          rw [one] at spec
          simpa using spec
      cases more with
      | true =>
        rcases ih silent with ⟨silent', rest⟩
        rw [messages] at silent'
        exact ⟨(List.append_eq_nil_iff.mp silent').1, rest⟩
      | false =>
        have message : (newsymbol genhash offset tab sym).2 = false := by rw [one]
        have both := newsymbol_quiet message
        rw [both.1, both.2] at messages
        change tab'.multiple = [] at silent
        rw [messages] at silent
        simp at silent

def readObjects (genhash : Name → Nat) (obs : List Object) : Table :=
  obs.foldl (fun tab ob => newsymbols genhash ob.offset tab ob.syms) ⟨[], []⟩

theorem readObjects_silent (silent : (readObjects genhash obs).multiple = []) :
    readObjects genhash obs = (obs.flatMap Object.uses).foldl (record genhash) ⟨[], []⟩ := by
  induction obs using List.reverseRecOn with
  | nil => rfl
  | append_singleton obs ob ih =>
    unfold readObjects at silent ⊢
    rw [List.foldl_append, List.foldl_cons, List.foldl_nil] at silent ⊢
    rcases newsymbols_silent silent with ⟨silent', rest⟩
    rw [rest, List.flatMap_append, List.foldl_append, ← ih silent']
    simp [readObjects, Object.uses]

theorem readObjects_consistent (consistent : Consistent obs) :
    readObjects genhash obs = (obs.flatMap Object.uses).foldl (record genhash) ⟨[], []⟩ := by
  have pieces : ∀ before after, obs = before ++ after →
      readObjects genhash before = (before.flatMap Object.uses).foldl (record genhash) ⟨[], []⟩ := by
    intro before
    induction before using List.reverseRecOn with
    | nil => exact fun _ _ => rfl
    | append_singleton before ob ih =>
      intro after same
      have same' : obs = before ++ ob :: after := by rw [same, List.append_assoc, List.singleton_append]
      have sofar := ih (ob :: after) same'
      unfold readObjects at sofar ⊢
      rw [List.foldl_append, List.foldl_cons, List.foldl_nil, sofar, newsymbols_eq]
      · simp [Object.uses]
      · intro syms sym rest split message
        rcases newsymbol_quiet message with ⟨yes, clashes⟩
        rw [← List.foldl_append, records_entry] at clashes
        rcases clash_cases clashes with ⟨d, old, isProper, notcommon⟩
        have member : d ∈ word sym.name (before.flatMap Object.uses ++ syms.map fun sym => (ob.offset, sym)) :=
          (fold_mem old).resolve_right (by simp [Table.entry])
        have parts : word sym.name (obs.flatMap Object.uses) =
            word sym.name (before.flatMap Object.uses ++ syms.map fun sym => (ob.offset, sym)) ++
              (sym.type, ob.offset) :: word sym.name (rest.map (fun sym => (ob.offset, sym)) ++ after.flatMap Object.uses) := by
          have one : word sym.name [(ob.offset, sym)] = [(sym.type, ob.offset)] := by simp [word, yes]
          rw [← List.singleton_append, ← one, ← word_append, ← word_append, same', List.flatMap_append, List.flatMap_cons]
          unfold Object.uses
          rw [split]
          simp
        have plain := consistent.plain sym.name
        rw [parts] at plain
        have again : proper sym.type = true :=
          (proper_or sym.type).resolve_right (not_or.mpr ⟨plain.after_proper member isProper, notcommon⟩)
        rw [word_append] at member
        rcases List.mem_append.mp member with earlier | here
        · exact consistent.last before ob after syms sym rest same' split yes again ⟨d, earlier, isProper⟩
        · exfalso
          have once := consistent.once ob (by simp [same']) sym.name
          have cut : word sym.name ob.uses = word sym.name (syms.map fun sym => (ob.offset, sym)) ++
              (sym.type, ob.offset) :: word sym.name (rest.map fun sym => (ob.offset, sym)) := by
            have one : word sym.name [(ob.offset, sym)] = [(sym.type, ob.offset)] := by simp [word, yes]
            rw [← List.singleton_append, ← one, ← word_append, ← word_append]
            unfold Object.uses
            rw [split]
            simp
          have one : 0 < (word sym.name (syms.map fun sym => (ob.offset, sym))).countP fun x => proper x.1 :=
            List.countP_pos_iff.mpr ⟨d, here, isProper⟩
          rw [cut, List.countP_append, List.countP_cons_of_pos (p := fun x : Char × Int => proper x.1) again] at once
          omega
  exact pieces obs [] (List.append_nil obs).symm

theorem readObjects_names (obs : List Object) : ((readObjects genhash obs).head.map Symdef.name).Nodup := by
  induction obs using List.reverseRecOn with
  | nil => exact List.nodup_nil
  | append_singleton obs ob ih =>
    unfold readObjects at ih ⊢
    rw [List.foldl_append, List.foldl_cons, List.foldl_nil]
    exact newsymbols_names ih

theorem newmember_nolib {objs : Objects} {st : State} {pos : Nat}
    (nolib : (newmember genhash objs file st pos).nolib = false) : st.nolib = false ∧
    (newmember genhash objs file st pos).tab = ((objs.objprobe file (pos + hdrsize)).bind fun t =>
      (objs.readobj t file (pos + hdrsize)).map fun syms =>
        newsymbols genhash (pos + hdrsize : Nat) st.tab syms).getD st.tab := by
  unfold newmember at nolib ⊢
  dsimp only at nolib ⊢
  cases probe : objs.objprobe file (pos + hdrsize) with
  | none =>
    rw [probe] at nolib
    exact ⟨nolib, rfl⟩
  | some t =>
    rw [probe] at nolib
    dsimp only at nolib ⊢
    split_ifs at nolib ⊢ with other
    cases readobj : objs.readobj t file (pos + hdrsize) with
    | none =>
      rw [readobj] at nolib
      exact ⟨nolib, by simp [readobj]⟩
    | some syms =>
      rw [readobj] at nolib
      exact ⟨nolib, by simp [readobj]⟩

theorem members_tab {objs : Objects} {visits : List Visit}
    (nolib : (visits.foldl (fun st v => newmember genhash objs file st v.pos) State.init).nolib = false) :
    (visits.foldl (fun st v => newmember genhash objs file st v.pos) State.init).tab =
      readObjects genhash (objects objs file visits) := by
  induction visits using List.reverseRecOn with
  | nil => rfl
  | append_singleton visits v ih =>
    rw [List.foldl_append, List.foldl_cons, List.foldl_nil] at nolib ⊢
    rcases newmember_nolib nolib with ⟨nolib', tab⟩
    rw [tab, ih nolib']
    unfold objects readObjects
    rw [List.filterMap_append, List.foldl_append]
    cases probe : objs.objprobe file (v.pos + hdrsize) with
    | none => simp [probe]
    | some t =>
      cases readobj : objs.readobj t file (v.pos + hdrsize) with
      | none => simp [probe, readobj]
      | some syms => simp [probe, readobj]

theorem members_of_start {visits : List Visit} (archive : Walk (Libmach.turn file) SARMAG visits true)
    (unindexed : start file = some SARMAG) : members visits = visits := by
  cases archive with
  | stop stopped => rfl
  | @visit _ _ seen visits _ stepped rest =>
    unfold Libmach.turn at stepped
    unfold start at unindexed
    cases member : Libmach.armember file SARMAG with
    | eof =>
      rw [member] at stepped
      cases stepped
    | error =>
      rw [member] at stepped
      cases stepped
    | member name off =>
      rw [member] at stepped unindexed
      dsimp only at stepped unindexed
      split_ifs at stepped
      injection stepped with same moved
      rw [← same]
      have other : ¬ isIndex name := by
        intro index
        rw [if_pos index] at unindexed
        split_ifs at unindexed
        have moved := Option.some.inj unindexed
        unfold hdrsize at moved
        omega
      exact if_neg other

theorem consistent_indexed (consistent : Consistent obs) : Indexed (readObjects genhash obs) obs := by
  constructor
  case names => exact readObjects_names obs
  case entry =>
    intro name
    rw [readObjects_consistent consistent, records_entry, definer_eq]
    exact congrArg (Option.map Prod.snd) (consistent.plain name).run
  case multiple =>
    intro name
    rw [readObjects_consistent consistent, records_multiple, ← count_word fun ob member => consistent.once ob member name,
      ← (consistent.plain name).clash_iff]
    simp [Table.entry]

theorem fold_some (d : Char × Int) (w : List (Char × Int)) : ∃ y, w.foldl combine (some d) = some y := by
  induction w generalizing d with
  | nil => exact ⟨d, rfl⟩
  | cons x w ih =>
    rw [List.foldl_cons, combine_some]
    split_ifs
    · exact ih d
    · exact ih x

theorem fold_reference {w : List (Char × Int)} {old : Option (Char × Int)} (improper : ∀ x ∈ w, proper x.1 = false)
    (oldImproper : ∀ y, old = some y → proper y.1 = false) {x : Char × Int} (member : x ∈ w) (reference : x.1 = 'U') :
    ∃ y ∈ w, w.foldl combine old = some y := by
  induction w generalizing old with
  | nil => cases member
  | cons z w ih =>
    rw [List.foldl_cons]
    rcases List.mem_cons.mp member with rfl | later
    · have here : combine old x = some x := by
        cases old with
        | none => rfl
        | some y =>
          rw [combine_some, if_neg]
          simp [oldImproper y rfl, reference]
      rw [here]
      rcases fold_some x w with ⟨y, result⟩
      refine ⟨y, ?_, result⟩
      rcases fold_mem result with member | same
      · exact List.mem_cons_of_mem _ member
      · exact Option.some.inj same ▸ List.mem_cons_self
    · have next : ∀ y, combine old z = some y → proper y.1 = false := by
        intro y result
        rcases combine_mem result with rfl | before
        · exact improper y List.mem_cons_self
        · exact oldImproper y before
      rcases ih (fun x member => improper x (List.mem_cons_of_mem _ member)) next later with ⟨y, member, result⟩
      exact ⟨y, List.mem_cons_of_mem _ member, result⟩

theorem plain_of_run {w : List (Char × Int)} (distinct : (w.map Prod.snd).Nodup)
    (run : (w.foldl combine none).map Prod.snd = (pick w).map Prod.snd)
    (quiet : ∀ before x after, w = before ++ x :: after → clash (before.foldl combine none) x.1 = false) : Plain w := by
  by_cases some_ : ∃ x ∈ w, proper x.1 = true
  · rcases exists_first some_ with ⟨before, d, after, rfl, isProper, improper⟩
    refine .inr ⟨before, d, after, rfl, fun x member reference => ?_, improper, .inl isProper⟩
    rcases List.append_of_mem member with ⟨between, rest, rfl⟩
    have silent := quiet (before ++ d :: between) x rest (by simp)
    rw [fold_first isProper improper] at silent
    simp [clash, isProper, reference] at silent
  · have improper : ∀ x ∈ w, proper x.1 = false := fun x member =>
      Bool.eq_false_iff.mpr fun isProper => some_ ⟨x, member, isProper⟩
    have none_ : w.find? (fun x => proper x.1) = none := List.find?_eq_none.mpr fun x member => by simp [improper x member]
    rw [pick, none_, Option.none_or] at run
    by_cases commons : ∃ x ∈ w, (fun x : Char × Int => decide (x.1 = 'C')) x = true
    · rcases exists_first commons with ⟨before, d, after, rfl, common, first⟩
      have found : (before ++ d :: after).find? (fun x => x.1 = 'C') = some d := find_first common first
      rw [found] at run
      refine .inr ⟨before, d, after, rfl, fun x member reference => ?_,
        fun x member => improper x (List.mem_append_left _ member),
        .inr ⟨by simpa using common, fun x member => by simpa using first x member,
          fun x member => improper x (List.mem_append_right _ (List.mem_cons_of_mem _ member))⟩⟩
      -- the run ends at the reference or after it, which is in another object
      have start_ : ∀ y, combine (before.foldl combine none) d = some y → proper y.1 = false := by
        intro y result
        rcases combine_mem result with rfl | earlier
        · exact improper y (List.mem_append_right _ List.mem_cons_self)
        · exact fold_improper (fun x member => improper x (List.mem_append_left _ member)) earlier
      rcases fold_reference (fun x member => improper x (List.mem_append_right _ (List.mem_cons_of_mem _ member)))
        start_ member reference with ⟨y, later, result⟩
      rw [List.foldl_append, List.foldl_cons, result] at run
      have same : y.2 = d.2 := Option.some.inj run
      rw [List.map_append, List.map_cons, List.nodup_append, List.nodup_cons, ← same] at distinct
      exact distinct.2.1.1 (List.mem_map_of_mem later)
    · have nothing : w.find? (fun x => x.1 = 'C') = none :=
        List.find?_eq_none.mpr fun x member isCommon => commons ⟨x, member, isCommon⟩
      rw [nothing] at run
      cases w with
      | nil => exact .inl rfl
      | cons x w =>
        rcases fold_some x w with ⟨y, result⟩
        change (w.foldl combine (some x)).map Prod.snd = none at run
        rw [result] at run
        cases run

theorem indexed_consistent (regular : Regular obs) (indexed : Indexed (readObjects genhash obs) obs) :
    Consistent obs := by
  have silent : (readObjects genhash obs).multiple = [] := by
    rw [List.eq_nil_iff_forall_not_mem]
    intro name member
    have twice := (indexed.multiple name).mp member
    have single := regular.single name
    omega
  have run := readObjects_silent silent
  constructor
  case plain =>
    intro name
    have entry := indexed.entry name
    rw [run, records_entry, definer_eq] at entry
    refine plain_of_run (regular.once name) entry fun before x after same => ?_
    rw [Bool.eq_false_iff]
    intro clashes
    have message : name ∈ (readObjects genhash obs).multiple := by
      rw [run, records_multiple]
      exact .inr ⟨before, x, after, same, clashes⟩
    rw [silent] at message
    cases message
  case once =>
    intro ob member name
    rcases List.append_of_mem member with ⟨before, after, rfl⟩
    have distinct := regular.once name
    rw [List.flatMap_append, List.flatMap_cons, word_append, word_append, List.map_append, List.map_append,
      List.nodup_append, List.nodup_append] at distinct
    have constant : (word name ob.uses).map Prod.snd = List.replicate (word name ob.uses).length ob.offset := by
      rw [List.eq_replicate_iff]
      refine ⟨List.length_map _, fun offset member => ?_⟩
      rcases List.mem_map.mp member with ⟨x, here, rfl⟩
      exact word_offset here
    have short := distinct.2.1.1
    rw [constant, List.nodup_replicate] at short
    exact le_trans List.countP_le_length short
  case last =>
    intro before ob after syms sym rest same split yes isProper earlier
    exfalso
    have single := regular.single sym.name
    rcases earlier with ⟨x, member, properx⟩
    have ob_defines : ob.defines sym.name = true := by
      unfold Object.defines Object.has
      rw [split]
      simp [yes, isProper]
    have before_defines : 0 < before.countP fun ob => ob.defines sym.name := by
      rw [List.countP_pos_iff]
      by_contra nobody
      have found := find_word before sym.name proper
      have none_ : (before.find? fun ob => ob.has sym.name proper) = none :=
        List.find?_eq_none.mpr fun ob member holds => nobody ⟨ob, member, holds⟩
      rw [none_] at found
      exact List.find?_eq_none.mp (Option.map_eq_none_iff.mp found) x member properx
    rw [same, List.countP_append, List.countP_cons_of_pos (p := fun ob : Object => ob.defines sym.name) ob_defines] at single
    omega

/-- For every library whose members can be read to the end: if it begins without an index and its
symbols come in a consistent order, the index is right. For regular ones there is no other case. -/
theorem index_law {objs : Objects} {file : Bytes} {visits : List Visit} {st : State}
    (archive : Walk (Libmach.turn file) SARMAG visits true) (run : Readsyms genhash objs file st)
    (built : st.nolib = false) : (start file = some SARMAG ∧ Consistent (objects objs file (members visits)) →
      Indexed st.tab (objects objs file (members visits))) ∧
    (start file = some SARMAG → Regular (objects objs file (members visits)) →
      Indexed st.tab (objects objs file (members visits)) → Consistent (objects objs file (members visits))) := by
  have table (unindexed : start file = some SARMAG) :
      st.tab = readObjects genhash (objects objs file (members visits)) := by
    rw [members_of_start archive unindexed]
    cases run with
    | refused corrupted =>
      rw [corrupted] at unindexed
      cases unindexed
    | @members s seen result starts walk =>
      rw [unindexed] at starts
      cases starts
      rcases archive.unique walk with ⟨rfl, -⟩
      exact members_tab built
  constructor
  · rintro ⟨unindexed, consistent⟩
    rw [table unindexed]
    exact consistent_indexed consistent
  · intro unindexed regular indexed
    rw [table unindexed] at indexed
    exact indexed_consistent regular indexed

/-- A library with one member, which is an object. -/
def oneMember : Bytes :=
  ARMAG ++ ([97, 32, 32, 32, 32, 32, 32, 32, 32, 32, 32, 32, 32, 32, 32, 32] ++
    [48, 32, 32, 32, 32, 32, 32, 32, 32, 32, 32, 32] ++ [48, 32, 32, 32, 32, 32] ++
    [48, 32, 32, 32, 32, 32] ++ [54, 52, 52, 32, 32, 32, 32, 32] ++
    [50, 32, 32, 32, 32, 32, 32, 32, 32, 32] ++ ARFMAG) ++ [0, 0]

/-- Every member is an object with these symbols. -/
def someObjects (syms : List Symbol) : Objects := ⟨fun _ _ => some 0, fun _ _ _ => some syms⟩

theorem oneMember_walk : Walk (Libmach.turn oneMember) SARMAG [⟨[97], 8, 2⟩] true := by
  have first : Libmach.turn oneMember SARMAG = .visit ⟨[97], 8, 2⟩ 70 := rfl
  have last : Libmach.turn oneMember 70 = .stop true := rfl
  exact .visit first (.stop last)

theorem oneMember_run (genhash : Name → Nat) (syms : List Symbol) : Readsyms genhash (someObjects syms) oneMember
    ⟨newsymbols genhash 68 ⟨[], []⟩ syms, some 0, false⟩ :=
  .members (s := SARMAG) rfl oneMember_walk

theorem index_law_one : (start oneMember = some SARMAG ∧
        Consistent (objects (someObjects [⟨['f'], 'T'⟩]) oneMember (members [⟨[97], 8, 2⟩])) →
      Indexed ⟨[⟨['f'], 'T', 68⟩], []⟩ (objects (someObjects [⟨['f'], 'T'⟩]) oneMember (members [⟨[97], 8, 2⟩]))) ∧
    (start oneMember = some SARMAG →
      Regular (objects (someObjects [⟨['f'], 'T'⟩]) oneMember (members [⟨[97], 8, 2⟩])) →
      Indexed ⟨[⟨['f'], 'T', 68⟩], []⟩ (objects (someObjects [⟨['f'], 'T'⟩]) oneMember (members [⟨[97], 8, 2⟩])) →
      Consistent (objects (someObjects [⟨['f'], 'T'⟩]) oneMember (members [⟨[97], 8, 2⟩]))) :=
  have run : Readsyms (fun _ => 0) (someObjects [⟨['f'], 'T'⟩]) oneMember
      ⟨⟨[⟨['f'], 'T', 68⟩], []⟩, some 0, false⟩ := oneMember_run _ _
  index_law oneMember_walk run rfl

/-- A reference is put in the index of a library where nothing is defined. -/
theorem reference_indexed : ∃ (objs : Objects) (file : Bytes) (visits : List Visit) (st : State),
    Walk (Libmach.turn file) SARMAG visits true ∧ Readsyms (fun _ => 0) objs file st ∧ st.nolib = false ∧
      ¬ Indexed st.tab (objects objs file (members visits)) := by
  refine ⟨someObjects [⟨['f'], 'U'⟩], oneMember, _, _, oneMember_walk, oneMember_run _ _, rfl, fun indexed => ?_⟩
  have entry := indexed.entry ['f']
  exact absurd entry (by decide)

end Scc.Ranlib
