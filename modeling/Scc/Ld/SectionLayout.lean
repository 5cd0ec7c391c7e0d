import Mathlib.Algebra.Order.Ring.Nat
import Scc.Ld.Section

/-!
# The layout of the sections

After the first section of a name the table holds twice its size, and no alignment, so
any other section of the name is refused. The second pass counts the sections of the
first object again.
-/

namespace Scc.Ld

set_option autoImplicit false

theorem Section.align_pos (sec : Section) : 0 < sec.align := by
  rcases sec.power with ⟨k, isPower⟩
  rw [isPower]
  exact Nat.two_pow_pos k

/-- What the table says after the sections. -/
structure Seen (secs : List Section) (st : State) : Prop where
  fresh : ∀ name, name ∉ secs.map Section.name → st.secs name = unseen
  taken : ∀ name, name ∈ secs.map Section.name → (st.secs name).type ≠ 'U' ∧ (st.secs name).align = 0

/-- The table entry of a section that is alone with its name. -/
def doubled (sec : Section) : OutSection := ⟨sec.type, sec.flags, 0, 2 * sec.size⟩

def State.put (st : State) (osec : Section) : State :=
  ⟨Function.update st.secs osec.name (doubled osec), st.placed ++ [(osec, some osec.size)]⟩

@[simp] theorem put_same (st : State) (osec : Section) : (st.put osec).secs osec.name = doubled osec :=
  Function.update_self ..

variable {name : String} {osec sec : Section} {st st' : State} {secs rest sections : List Section}

theorem put_other (st : State) (differ : name ≠ osec.name) :
    (st.put osec).secs name = st.secs name := Function.update_of_ne differ _ _

theorem newsec_new (new : st.secs osec.name = unseen) :
    newsec st osec = if 2 * osec.size ≤ ULLONG_MAX then some (st.put osec) else none := by
  have bounded := osec.bounded
  have fresh : unseen.type = 'U' := rfl
  rw [newsec, new, if_pos fresh, State.rebase, copy, mkfile]
  by_cases fits : 2 * osec.size ≤ ULLONG_MAX
  · have notOver : ¬ osec.size > ULLONG_MAX - osec.size := by omega
    rw [if_neg notOver, if_pos fits, ← Nat.two_mul]
    rfl
  · have tooBig : osec.size > ULLONG_MAX - osec.size := by omega
    rw [if_pos tooBig, if_neg fits]
    rfl

theorem newsec_again (notNew : (st.secs osec.name).type ≠ 'U')
    (unaligned : (st.secs osec.name).align = 0) : newsec st osec = some (st.reject osec) := by
  have pos := osec.align_pos
  have differ : (st.secs osec.name).align ≠ osec.align := by omega
  rw [newsec, if_neg notNew, if_pos (Or.inr (Or.inr differ))]

theorem Seen.put (seen : Seen secs st) (osec : Section) : Seen (secs ++ [osec]) (st.put osec) := by
  constructor
  · intro name absent
    rw [List.map_append, List.mem_append, not_or, List.map_singleton, List.mem_singleton] at absent
    rw [put_other st absent.2]
    exact seen.fresh name absent.1
  · intro name present
    rw [List.map_append, List.mem_append, List.map_singleton, List.mem_singleton] at present
    by_cases same : name = osec.name
    · rw [same, put_same]
      exact ⟨osec.seen, rfl⟩
    · rw [put_other st same]
      exact seen.taken name (present.resolve_right same)

theorem newsec_placed (made : newsec st osec = some st') :
    ∃ offset, st'.placed = st.placed ++ [(osec, offset)] := by
  have rebased : ∀ sec, st.rebase osec sec = some st' →
      ∃ offset, st'.placed = st.placed ++ [(osec, offset)] := by
    intro sec made
    rw [State.rebase, Option.map_eq_some_iff] at made
    rcases made with ⟨sec', _, isState⟩
    rw [← isState]
    exact ⟨some sec.size, rfl⟩
  rw [newsec] at made
  split_ifs at made
  · exact rebased _ made
  · rw [← Option.some.inj made]
    exact ⟨none, rfl⟩
  · rw [Option.bind_eq_some_iff] at made
    rcases made with ⟨sec, _, made⟩
    exact rebased sec made

theorem pass1_initial (made : rest.foldlM newsec st = some st') : st.placed <+: st'.placed := by
  induction rest generalizing st with
  | nil =>
    cases made
    exact List.prefix_rfl
  | cons osec rest ih =>
    rw [List.foldlM_cons] at made
    rcases Option.bind_eq_some_iff.mp made with ⟨next, first, made⟩
    rcases newsec_placed first with ⟨offset, placed⟩
    have later := ih made
    rw [placed] at later
    exact (List.prefix_append _ _).trans later

theorem pass1_alone (seen : Seen secs st)
    (made : rest.foldlM newsec st = some st') (all : ∀ place ∈ st'.placed, place.2 ≠ none) :
    (rest.map Section.name).Nodup ∧ (∀ sec ∈ rest, sec.name ∉ secs.map Section.name) ∧
      ∀ sec ∈ rest, 2 * sec.size ≤ ULLONG_MAX := by
  induction rest generalizing secs st with
  | nil => simp
  | cons osec rest ih =>
    rw [List.foldlM_cons] at made
    rcases Option.bind_eq_some_iff.mp made with ⟨next, first, made⟩
    have fresh : osec.name ∉ secs.map Section.name := by
      intro present
      have taken := seen.taken _ present
      rw [newsec_again taken.1 taken.2] at first
      rw [← Option.some.inj first] at made
      have rejected : (osec, none) ∈ st'.placed :=
        (pass1_initial made).subset (List.mem_append_right _ (List.mem_singleton.mpr rfl))
      exact all _ rejected rfl
    rw [newsec_new (seen.fresh _ fresh)] at first
    split_ifs at first with fits
    rw [← Option.some.inj first] at made
    rcases ih (seen.put osec) made with ⟨nodup, apart, rest_fit⟩
    refine ⟨?_, ?_, ?_⟩
    · rw [List.map_cons, List.nodup_cons]
      refine ⟨?_, nodup⟩
      intro later
      rcases List.mem_map.mp later with ⟨sec, isIn, sameName⟩
      apply apart sec isIn
      rw [sameName, List.map_append]
      exact List.mem_append_right _ (List.mem_singleton.mpr rfl)
    · intro sec isIn
      rcases List.mem_cons.mp isIn with isFirst | isLater
      · rw [isFirst]
        exact fresh
      · intro present
        apply apart sec isLater
        rw [List.map_append]
        exact List.mem_append_left _ present
    · intro sec isIn
      rcases List.mem_cons.mp isIn with isFirst | isLater
      · rw [isFirst]
        exact fits
      · exact rest_fit sec isLater

theorem pass1_doubled (seen : Seen secs st)
    (nodup : (rest.map Section.name).Nodup) (apart : ∀ sec ∈ rest, sec.name ∉ secs.map Section.name)
    (fit : ∀ sec ∈ rest, 2 * sec.size ≤ ULLONG_MAX) : ∃ st', rest.foldlM newsec st = some st' ∧
      st'.placed = st.placed ++ rest.map (fun sec => (sec, some sec.size)) ∧
      (∀ sec ∈ rest, st'.secs sec.name = doubled sec) ∧
      ∀ name, name ∉ rest.map Section.name → st'.secs name = st.secs name := by
  induction rest generalizing secs st with
  | nil => exact ⟨st, rfl, by simp, by simp, by simp⟩
  | cons osec rest ih =>
    rw [List.map_cons, List.nodup_cons] at nodup
    have fresh := apart osec List.mem_cons_self
    have later : ∀ sec ∈ rest, sec.name ∉ (secs ++ [osec]).map Section.name := by
      intro sec isIn present
      rw [List.map_append, List.mem_append, List.map_singleton, List.mem_singleton] at present
      rcases present with before | same
      · exact apart sec (List.mem_cons_of_mem _ isIn) before
      · apply nodup.1
        rw [← same]
        exact List.mem_map_of_mem isIn
    rcases ih (seen.put osec) nodup.2 later fun sec isIn => fit sec (List.mem_cons_of_mem _ isIn)
      with ⟨st', made, placed, entries, others⟩
    refine ⟨st', ?_, ?_, ?_, ?_⟩
    · rw [List.foldlM_cons, newsec_new (seen.fresh _ fresh), if_pos (fit osec List.mem_cons_self)]
      exact made
    · rw [placed, State.put, List.append_assoc]
      rfl
    · intro sec isIn
      rcases List.mem_cons.mp isIn with isFirst | isLater
      · rw [isFirst, others _ nodup.1, put_same]
      · exact entries sec isLater
    · intro name absent
      rw [List.map_cons, List.mem_cons, not_or] at absent
      rw [others name absent.2, put_other st absent.1]

/-- The size that the second pass makes of a doubled one. -/
def counted (sec : Section) : Nat := ((2 * sec.size + ULLONG_MAX) % 2 ^ 64 + sec.size) % 2 ^ 64

theorem mksec_doubled {secs : String → OutSection} (entry : secs sec.name = doubled sec) :
    (mksec secs sec sec.name).size = counted sec := by
  have mask : (0 + ULLONG_MAX) % 2 ^ 64 = 2 ^ 64 - 1 := rfl
  have align : (doubled sec).align = 0 := rfl
  have size : (doubled sec).size = 2 * sec.size := rfl
  rw [mksec, Function.update_self, entry]
  dsimp only
  split_ifs
  · rw [align, mask, Nat.and_two_pow_sub_one_eq_mod, Nat.mod_mod, size, Nat.add_zero]
    rfl
  · rw [align, mask, Nat.and_two_pow_sub_one_eq_mod, Nat.mod_mod, size, Nat.add_zero]
    rfl

theorem pass2_other (secs : String → OutSection)
    (absent : name ∉ sections.map Section.name) : sections.foldl mksec secs name = secs name := by
  induction sections generalizing secs with
  | nil => rfl
  | cons sec rest ih =>
    rw [List.map_cons, List.mem_cons, not_or] at absent
    rw [List.foldl_cons, ih _ absent.2, mksec]
    exact Function.update_of_ne absent.1 _ _

theorem pass2_counted {secs : String → OutSection}
    (nodup : (sections.map Section.name).Nodup) (entries : ∀ sec ∈ sections, secs sec.name = doubled sec) :
    ∀ sec ∈ sections, (sections.foldl mksec secs sec.name).size = counted sec := by
  induction sections generalizing secs with
  | nil => simp
  | cons first rest ih =>
    rw [List.map_cons, List.nodup_cons] at nodup
    intro sec isIn
    rw [List.foldl_cons]
    rcases List.mem_cons.mp isIn with isFirst | isLater
    · rw [isFirst, pass2_other _ nodup.1]
      exact mksec_doubled (entries first List.mem_cons_self)
    · apply ih nodup.2 ?_ sec isLater
      intro other isOther
      have differ : other.name ≠ first.name := by
        intro same
        apply nodup.1
        rw [← same]
        exact List.mem_map_of_mem isOther
      rw [mksec, Function.update_of_ne differ]
      exact entries other (List.mem_cons_of_mem _ isOther)

theorem counted_iff (fits : 2 * sec.size ≤ ULLONG_MAX) : counted sec = 2 * sec.size ↔ sec.size = 1 := by
  rw [counted]
  unfold ULLONG_MAX at fits ⊢
  omega

theorem places_alone (nodup : (sections.map Section.name).Nodup)
    (placed : st.placed = sections.map fun sec => (sec, some sec.size))
    (isIn : sec ∈ sections) : st.places sec.name = [(sec, some sec.size)] := by
  rw [State.places, placed]
  clear placed
  induction sections with
  | nil => exact absurd isIn List.not_mem_nil
  | cons first rest ih =>
    rw [List.map_cons, List.nodup_cons] at nodup
    rw [List.map_cons]
    rcases List.mem_cons.mp isIn with isFirst | isLater
    · rw [isFirst, List.filter_cons_of_pos (by simp)]
      congr 1
      rw [List.filter_eq_nil_iff]
      intro place isPlace
      rcases List.mem_map.mp isPlace with ⟨other, isOther, isPair⟩
      rw [← isPair, decide_eq_true_eq]
      intro same
      apply nodup.1
      rw [← same]
      exact List.mem_map_of_mem isOther
    · have differ : first.name ≠ sec.name := by
        intro same
        apply nodup.1
        rw [same]
        exact List.mem_map_of_mem isLater
      rw [List.filter_cons_of_neg (by simpa using differ)]
      exact ih nodup.2 isLater

theorem places_none (placed : st.placed = sections.map fun sec => (sec, some sec.size))
    (absent : name ∉ sections.map Section.name) : st.places name = [] := by
  rw [State.places, placed, List.filter_eq_nil_iff]
  intro place isPlace
  rcases List.mem_map.mp isPlace with ⟨sec, isSec, isPair⟩
  rw [← isPair, decide_eq_true_eq]
  intro same
  apply absent
  rw [← same]
  exact List.mem_map_of_mem isSec

theorem flatten_cons (objs : List (List Section)) : objs.flatten = objs.headD [] ++ objs.tail.flatten := by
  cases objs with
  | nil => rfl
  | cons obj rest => rfl

theorem link_alone {objs : List (List Section)} (nodup : (objs.flatten.map Section.name).Nodup)
    (fit : ∀ sec ∈ objs.flatten, 2 * sec.size ≤ ULLONG_MAX) :
    ∃ st, link objs = some st ∧ st.placed = objs.flatten.map (fun sec => (sec, some sec.size)) ∧
      (∀ sec ∈ objs.headD [], (st.secs sec.name).size = counted sec) ∧
      ∀ sec ∈ objs.tail.flatten, (st.secs sec.name).size = 2 * sec.size := by
  have start : Seen [] ⟨fun _ => unseen, []⟩ := ⟨fun _ _ => rfl, by simp⟩
  rcases pass1_doubled start nodup (by simp) fit with ⟨st, made, placed, entries, others⟩
  have split := flatten_cons objs
  refine ⟨{ st with secs := pass2 st.secs objs }, ?_, ?_, ?_, ?_⟩
  · rw [link, pass1, made]
    rfl
  · exact placed
  · rw [split] at entries nodup
    rw [List.map_append, List.nodup_append] at nodup
    exact pass2_counted nodup.1 fun sec isIn => entries sec (List.mem_append_left _ isIn)
  · intro sec isIn
    rw [split] at entries nodup
    rw [List.map_append, List.nodup_append] at nodup
    have absent : sec.name ∉ (objs.headD []).map Section.name := by
      intro present
      exact nodup.2.2 _ present _ (List.mem_map_of_mem isIn) rfl
    have entry := entries sec (List.mem_append_right _ isIn)
    dsimp only
    rw [pass2, pass2_other _ absent, entry]
    rfl

theorem sections_placed_iff (objs : List (List Section)) :
    (∃ st, link objs = some st ∧ LaidOut st) ↔ Fortunate objs := by
  have start : Seen [] ⟨fun _ => unseen, []⟩ := ⟨fun _ _ => rfl, by simp⟩
  have split := flatten_cons objs
  constructor
  · rintro ⟨st, made, laid⟩
    rcases Option.map_eq_some_iff.mp made with ⟨st', first, isState⟩
    have placedSame : st.placed = st'.placed := by rw [← isState]
    have all : ∀ place ∈ st'.placed, place.2 ≠ none := by
      intro place isIn isNone
      rw [← placedSame] at isIn
      rcases laid.placed place isIn with ⟨offset, isSome, _⟩
      rw [isNone] at isSome
      cases isSome
    rcases pass1_alone start first all with ⟨nodup, _, fit⟩
    rcases link_alone nodup fit with ⟨st'', made', placed, heads, tails⟩
    rw [made] at made'
    cases made'
    have ends : ∀ sec ∈ objs.flatten, sec.align ∣ sec.size ∧ (st.secs sec.name).size = 2 * sec.size := by
      intro sec isIn
      have alone := places_alone nodup placed isIn
      have place : (sec, some sec.size) ∈ st.placed := by
        rw [placed]
        exact List.mem_map.mpr ⟨sec, isIn, rfl⟩
      rcases laid.placed _ place with ⟨offset, isSome, aligned⟩
      cases isSome
      have sized := laid.sized sec.name (sec, some sec.size) (by rw [alone]; rfl) sec.size rfl
      refine ⟨aligned, ?_⟩
      rw [sized, Nat.two_mul]
    constructor
    · exact nodup
    · intro sec isIn
      have inAll : sec ∈ objs.flatten := by
        rw [split]
        exact List.mem_append_left _ isIn
      have one : sec.size = 1 := by
        rw [← counted_iff (fit sec inAll), ← heads sec isIn]
        exact (ends sec inAll).2
      refine ⟨one, ?_⟩
      have divides := (ends sec inAll).1
      rw [one] at divides
      exact Nat.dvd_one.mp divides
    · intro sec isIn
      have inAll : sec ∈ objs.flatten := by
        rw [split]
        exact List.mem_append_right _ isIn
      exact ⟨(ends sec inAll).1, fit sec inAll⟩
  · intro fortunate
    have fit : ∀ sec ∈ objs.flatten, 2 * sec.size ≤ ULLONG_MAX := by
      intro sec isIn
      rw [split] at isIn
      rcases List.mem_append.mp isIn with isFirst | isLater
      · rw [(fortunate.first sec isFirst).1]
        decide
      · exact (fortunate.later sec isLater).2
    rcases link_alone fortunate.alone fit with ⟨st, made, placed, heads, tails⟩
    refine ⟨st, made, ?_, ?_, ?_⟩
    · intro place isPlace
      rw [placed] at isPlace
      rcases List.mem_map.mp isPlace with ⟨sec, isIn, isPair⟩
      rw [← isPair]
      refine ⟨sec.size, rfl, ?_⟩
      rw [split] at isIn
      rcases List.mem_append.mp isIn with isFirst | isLater
      · rw [(fortunate.first sec isFirst).2]
        exact Nat.one_dvd _
      · exact (fortunate.later sec isLater).1
    · intro name
      by_cases present : name ∈ objs.flatten.map Section.name
      · rcases List.mem_map.mp present with ⟨sec, isIn, isName⟩
        rw [← isName, places_alone fortunate.alone placed isIn]
        exact List.IsChain.singleton _
      · rw [places_none placed present]
        exact List.IsChain.nil
    · intro name place isLast offset isOffset
      by_cases present : name ∈ objs.flatten.map Section.name
      · rcases List.mem_map.mp present with ⟨sec, isIn, isName⟩
        rw [← isName, places_alone fortunate.alone placed isIn, List.getLast?_singleton] at isLast
        cases isLast
        cases isOffset
        rw [← isName, ← Nat.two_mul]
        have inAll := isIn
        rw [split] at isIn
        rcases List.mem_append.mp isIn with isFirst | isLater
        · rw [heads sec isFirst, counted_iff (fit sec inAll)]
          exact (fortunate.first sec isFirst).1
        · exact tails sec isLater
      · rw [places_none placed present] at isLast
        cases isLast

/-- A section of four bytes, as `coff32getsec()` describes it. -/
def text : Section where
  name := ".text"
  type := 'T'
  flags := 63
  align := 4
  size := 4
  seen := by decide
  power := ⟨2, rfl⟩
  bounded := by decide

/-- The second of two sections with one name is not placed. -/
theorem second_text_not_placed : ¬ ∃ st, link [[text], [text]] = some st ∧ LaidOut st := by
  rintro ⟨st, made, laid⟩
  have places : (link [[text], [text]]).map State.placed = some [(text, some 4), (text, none)] := rfl
  rw [made, Option.map_some, Option.some.injEq] at places
  have second : (text, none) ∈ st.placed := by
    rw [places]
    exact List.mem_cons_of_mem _ (List.mem_singleton.mpr rfl)
  rcases laid.placed _ second with ⟨offset, isSome, _⟩
  cases isSome

end Scc.Ld
