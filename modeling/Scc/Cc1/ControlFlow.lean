import Scc.Cc1.Dispatch

/-!
# Control flow

The records that `stmt()` writes do what the statements do, as long as no ordering is turned
round by `commutative()` and no switch is on something wider than an int.
-/

namespace Scc.Cc1.Lowering

open Scc.Lib.Simulation

set_option autoImplicit false

variable {arch : Arch} {ν : Valuation} {program : List Emit}

/-- The records follow a step of the statements. -/
def Follows (program : List Emit) (ν : Valuation) (src src' : Source arch) (rest : List Emit) : Prop :=
  ∃ n rest', Moves arch ν program src.seen src'.seen n rest rest' ∧
    Placed program src'.s src'.k rest' ∧ (n = 0 → rank src' < rank src)

variable {h : History} {rest : List Emit} {body : Stmt arch} {first last : State}

theorem Follows.stay {s s' : Stmt arch} {k k' : Cont arch}
    (placed : Placed program s' k' rest) (falls : s'.nodes + k'.nodes < s.nodes + k.nodes) :
    Follows program ν ⟨s, k, h⟩ ⟨s', k', h⟩ rest :=
  ⟨0, rest, Moves.stay rest h, placed, fun _ => falls⟩

theorem Follows.one {src src' : Source arch} {rest rest' : List Emit}
    (stepped : exec arch ν program ⟨rest, src.seen⟩ = some ⟨rest', src'.seen⟩)
    (placed : Placed program src'.s src'.k rest') : Follows program ν src src' rest :=
  ⟨1, rest', Moves.evaluate stepped, placed, by simp⟩

theorem mark_moves {m : Mark} {st : State} {before : List Emit × State}
    (made : mark arch st m = some before) (h : History) (tail : List Emit) :
    ∃ n, Moves arch ν program h h (n + 1) (before.1 ++ tail) tail := by
  cases m with
  | label name =>
    unfold mark at made
    dsimp only at made
    split_ifs at made
    cases made
    exact ⟨0, Moves.silent rfl (Moves.stay tail h)⟩
  | case type value fits =>
    rcases Option.bind_eq_some_iff.mp made with ⟨np, folded, made⟩
    rcases Option.bind_eq_some_iff.mp made with ⟨sw, _, made⟩
    split_ifs at made
    cases made
    exact ⟨1, Moves.silent rfl (Moves.silent rfl (Moves.stay tail h))⟩
  | default =>
    rcases Option.bind_eq_some_iff.mp made with ⟨sw, _, made⟩
    split_ifs at made
    cases made
    exact ⟨1, Moves.silent rfl (Moves.silent rfl (Moves.stay tail h))⟩

theorem negated_moves {cond : Exp arch} {np : Node} (direct : cond.Direct)
    (tested : condition cond true = some np) (h : History) {sym : Label} {more no : List Emit}
    (found : target program sym = some no) :
    ∃ n, Moves arch ν program h (cond.expr.eval ν h).2 n (branch sym (some np) ++ more)
      (if (cond.expr.eval ν h).1 ≠ 0 then more else no) := by
  have value := condition_eval (ν := ν) direct tested
  rcases branch_moves value.1 (value.2 h) found with ⟨n, moves⟩
  refine ⟨n, ?_⟩
  by_cases met : (cond.expr.eval ν h).1 ≠ 0
  · rw [if_pos met]
    rwa [decide_eq_true met] at moves
  · rw [if_neg met]
    rwa [decide_eq_false met] at moves

theorem init_moves {init : Option (Exp arch)} {einit : Option Node}
    (direct : ∀ x ∈ init, Exp.Direct x) (started : optional expression init = some einit)
    (h : History) (tail : List Emit) : ∃ n, Moves arch ν program h (after ν init h) n
      ((einit.toList.map fun np => Emit.OEXPR (some np)) ++ tail) tail := by
  cases init with
  | none =>
    cases started
    exact ⟨0, Moves.stay tail h⟩
  | some e =>
    have stepped : exec arch ν program ⟨.OEXPR einit :: tail, h⟩ = some ⟨tail, after ν (some e) h⟩ :=
      optional_after direct started h tail
    rcases Option.map_eq_some_iff.mp started with ⟨np, _, rfl⟩
    exact ⟨1, Moves.evaluate stepped⟩

theorem perform_follows
    (whole : stmt body none none first = some (program, last)) {s : Stmt arch} {k : Cont arch}
    (placed : Placed program s k rest) (sound : Sound ⟨s, k, h⟩)
    {src' : Source arch} (stepped : perform ν body ⟨s, k, h⟩ = some src') :
    Follows program ν ⟨s, k, h⟩ src' rest := by
  have once := (stmt_spans whole).nodup
  rcases placed with ⟨suffix, lbreak, lcont, st, code, st', more, made, rfl, later⟩
  cases s with
  | null =>
    cases made
    exact resume_moves later h src' suffix sound stepped
  | exp e =>
    rcases Option.map_eq_some_iff.mp made with ⟨np, built, shape⟩
    cases shape
    cases stepped
    apply Follows.one _ (Placed.null (suffix_behind [_] suffix) later)
    change some (Config.mk more (np.eval arch ν h).2) = _
    rw [expression_eval sound built]
  | mark m s =>
    rcases stmt_mark made with ⟨before, inner, marked, body, rfl⟩
    rw [List.append_assoc] at suffix ⊢
    cases stepped
    rcases mark_moves marked h (inner ++ more) with ⟨n, moves⟩
    exact ⟨n + 1, _, moves, Placed.of body (suffix_behind _ suffix) later, by simp⟩
  | compound items =>
    rcases stmt_compound made with ⟨st₁, st₂, body⟩
    cases stepped
    apply Follows.stay (Placed.of body suffix later)
    simp only [Stmt.nodes]
    omega
  | item s rest =>
    rcases stmt_item made with ⟨first, second, middle, head, tail, rfl⟩
    rw [List.append_assoc] at suffix ⊢
    cases stepped
    apply Follows.stay (Placed.of head suffix (.item tail later))
    simp only [Stmt.nodes, Cont.nodes]
    omega
  | If cond s =>
    rcases stmt_if made with ⟨np, lelse, inner, st₁, st₂, tested, body, rfl⟩
    simp only [List.append_assoc] at suffix ⊢
    cases stepped
    have inside := suffix_behind _ suffix
    have no : target program (.fresh lelse) = some more := target_suffix once (suffix_behind _ inside)
    rcases negated_moves sound tested h no with ⟨n, moves⟩
    unfold test
    dsimp only
    by_cases met : (cond.expr.eval ν h).1 ≠ 0
    · rw [if_pos met] at moves ⊢
      refine ⟨n, _, moves, Placed.of body inside (.label _ (.fi later)), fun _ => ?_⟩
      simp only [rank, Stmt.nodes, Cont.nodes]
      omega
    · rw [if_neg met] at moves ⊢
      refine ⟨n, _, moves, Placed.null (suffix_of_target no) later, fun _ => ?_⟩
      simp only [rank, Stmt.nodes]
      omega
  | Ifelse cond s lelse =>
    rcases stmt_ifelse made with ⟨np, no, last, inner, other, st₁, st₂, st₃, st₄, tested, yes, body, rfl⟩
    simp only [List.append_assoc, List.cons_append] at suffix ⊢
    cases stepped
    have inside := suffix_behind _ suffix
    have second := suffix_behind [_] (suffix_behind _ inside)
    have no_label := target_suffix once second
    have last_label : target program (.fresh last) = some more :=
      target_suffix once (suffix_behind _ (suffix_behind [_] second))
    rcases negated_moves sound tested h no_label with ⟨n, moves⟩
    by_cases met : (cond.expr.eval ν h).1 ≠ 0
    · rw [if_pos met] at moves
      simp only [if_pos met]
      refine ⟨n, _, moves, Placed.of yes inside (.jump _ last_label (.fi later)), fun _ => ?_⟩
      simp only [rank, Stmt.nodes, Cont.nodes]
      omega
    · rw [if_neg met] at moves
      simp only [if_neg met]
      refine ⟨n, _, moves, Placed.of body (suffix_behind [_] second) (.label _ (.fi later)),
        fun _ => ?_⟩
      simp only [rank, Stmt.nodes, Cont.nodes]
      omega
  | While cond s =>
    rcases stmt_while made with ⟨np, again, test, last, inner, st₁, st₂, tested, body, rfl⟩
    simp only [List.append_assoc, List.cons_append, loopTail_append] at suffix ⊢
    cases stepped
    have loop := Loop.of_suffix once body (suffix_behind [_] suffix) (loopTail_last _ _ _ _)
    apply Follows.one _ (Placed.null (suffix_of_target loop.continues) (.loop tested loop later))
    change (target program _).map (Config.mk · h) = _
    rw [loop.continues]
    rfl
  | Dowhile s cond =>
    rcases stmt_dowhile made with ⟨np, again, test, last, inner, st₁, st₂, tested, body, rfl⟩
    simp only [List.append_assoc, List.cons_append, loopTail_append] at suffix ⊢
    cases stepped
    have loop := Loop.of_suffix once body suffix (loopTail_last _ _ _ _)
    refine ⟨2, _, Moves.silent rfl (Moves.silent rfl (Moves.stay _ h)), ?_, by simp⟩
    exact Placed.of body (suffix_behind [_, _] suffix) (.label _ (.loop tested loop later))
  | For init cond inc s =>
    rcases stmt_for made with ⟨einit, econd, einc, again, next, test, last, inner, st₁, st₂, started,
      tested, increased, body, rfl⟩
    simp only [forHead, List.append_assoc, List.cons_append, forTail_append] at suffix ⊢
    have start := suffix_behind _ (suffix_behind _ suffix)
    have loop := Loop.of_suffix once body start (forTail_last _ _ _ _ _ _)
    have starts : ∀ tail, ∃ n, Moves arch ν program h (after ν init h) n _ tail :=
      init_moves sound started h
    cases cond with
    | none =>
      cases stepped
      cases tested
      rcases starts _ with ⟨n, moves⟩
      refine ⟨n + 1 + 1, _, (moves.after rfl).after rfl, ?_, by simp⟩
      exact Placed.of body (suffix_behind [_, _] start) (.label _ (.forinc rfl increased loop later))
    | some e =>
      cases stepped
      have test_label : target program (.fresh test) =
          some (loopTail (.fresh again) (.fresh last) econd more) :=
        target_suffix once (suffix_behind [_] (suffix_of_target loop.continues))
      rcases Option.map_eq_some_iff.mp tested with ⟨np, _, rfl⟩
      have jumped : ∀ rest, exec arch ν program ⟨.OJUMP (.fresh test) :: rest, after ν init h⟩ =
          some ⟨loopTail (.fresh again) (.fresh last) (some np) more, after ν init h⟩ := by
        intro rest
        change (target program _).map (Config.mk · _) = _
        rw [test_label]
        rfl
      rcases starts _ with ⟨n, moves⟩
      exact ⟨n + 1, _, moves.after (jumped _), Placed.null (suffix_of_target test_label)
        (.forcond tested increased loop later), by simp⟩
  | Break =>
    rcases Option.map_eq_some_iff.mp made with ⟨sym, inside, shape⟩
    cases shape
    rcases later.leave sym inside with ⟨k', more', leaves, found, ob, oc, resumes⟩
    change (k.leave).map (Source.mk Stmt.null · h) = some src' at stepped
    rw [leaves] at stepped
    cases stepped
    apply Follows.one _ (Placed.null (suffix_of_target found) resumes)
    change (target program _).map (Config.mk · h) = _
    rw [found]
    rfl
  | Continue =>
    rcases Option.map_eq_some_iff.mp made with ⟨sym, inside, shape⟩
    cases shape
    rcases later.again sym inside with ⟨k', more', goesOn, found, ob, oc, resumes⟩
    change (k.again).map (Source.mk Stmt.null · h) = some src' at stepped
    rw [goesOn] at stepped
    cases stepped
    apply Follows.one _ (Placed.null (suffix_of_target found) resumes)
    change (target program _).map (Config.mk · h) = _
    rw [found]
    rfl
  | Goto name =>
    cases made
    rcases Option.map_eq_some_iff.mp stepped with ⟨⟨s', k'⟩, found, rfl⟩
    have jump := goto_target whole name
    rw [found] at jump
    rcases jump with ⟨rest, found, placed⟩
    apply Follows.one _ placed
    change (target program _).map (Config.mk · h) = _
    rw [found]
    rfl
  | Return e =>
    rcases Option.map_eq_some_iff.mp made with ⟨np, returned, shape⟩
    cases shape
    cases stepped
    apply Follows.one _ (Placed.null (List.nil_suffix) .stop)
    cases e with
    | none =>
      cases returned
      rfl
    | some e =>
      rcases Option.map_eq_some_iff.mp returned with ⟨tree, built, rfl⟩
      change some (Config.mk [] (tree.eval arch ν h).2) = _
      rw [expression_eval (sound e rfl) built]
      rfl
  | Swtch cond s =>
    rcases stmt_swtch made with ⟨np, last, inner, st₁, st₂, converted, body, rfl⟩
    simp only [List.append_assoc, List.cons_append, List.nil_append] at suffix ⊢
    cases stepped
    rcases select_target once sound.2.1 sound.2.2 (cond.expr.eval_fits (ν := ν) h) body
      (suffix_behind [_, _] suffix) later with ⟨sym, rest', chosen, found, placed⟩
    apply Follows.one _ placed
    have value := switch_eval sound.1 converted ν h
    change (dispatch arch ((simplify arch np).eval arch ν h).1 _).bind (fun sym =>
      (target program sym).map (Config.mk · ((simplify arch np).eval arch ν h).2)) = _
    rw [value, chosen, Option.bind_some, found]
    rfl

theorem perform_halts
    (whole : stmt body none none first = some (program, last)) {s : Stmt arch} {k : Cont arch}
    (placed : Placed program s k rest) (ended : perform ν body ⟨s, k, h⟩ = none) :
    ∃ n cfg, Passes (recordMachine arch ν program) (fun a => a = h) n ⟨rest, h⟩ cfg ∧
      exec arch ν program cfg = none := by
  rcases placed with ⟨suffix, lbreak, lcont, st, code, st', more, made, rfl, later⟩
  cases s with
  | null =>
    cases made
    exact resume_halts later h ended
  | Break =>
    rcases Option.map_eq_some_iff.mp made with ⟨sym, inside, _⟩
    rcases later.leave sym inside with ⟨k', more', leaves, _⟩
    change (k.leave).map (Source.mk Stmt.null · h) = none at ended
    rw [leaves] at ended
    cases ended
  | Continue =>
    rcases Option.map_eq_some_iff.mp made with ⟨sym, inside, _⟩
    rcases later.again sym inside with ⟨k', more', goesOn, _⟩
    change (k.again).map (Source.mk Stmt.null · h) = none at ended
    rw [goesOn] at ended
    cases ended
  | Goto name =>
    cases made
    have nowhere := Option.map_eq_none_iff.mp ended
    have jump := goto_target whole name
    rw [nowhere] at jump
    refine ⟨0, _, Passes.refl rfl, ?_⟩
    change (target program _).map (Config.mk · h) = _
    rw [jump]
    rfl
  | For init cond inc s => cases cond <;> cases ended
  | _ => cases ended

/-- The records stand where the statements do, and have seen the same. -/
def Related (program : List Emit) (src : Source arch) (cfg : Config) : Prop :=
  src.seen = cfg.seen ∧ Placed program src.s src.k cfg.rest

theorem simulates (whole : stmt body none none first = some (program, last)) :
    Simulates (statementMachine ν body) (recordMachine arch ν program) Sound (Related program) rank := by
  constructor
  · exact fun related => related.1
  · rintro ⟨s, k, h⟩ src' ⟨rest, _⟩ ⟨rfl, placed⟩ sound stepped
    rcases perform_follows whole placed sound stepped with ⟨n, rest', moves, placed', falls⟩
    exact ⟨n, ⟨rest', src'.seen⟩, moves, ⟨rfl, placed'⟩, falls⟩
  · rintro ⟨s, k, h⟩ ⟨rest, _⟩ ⟨rfl, placed⟩ _ ended
    exact perform_halts whole placed ended

def ilp32 : Arch := ⟨4, Nat.zero_lt_succ 3, Nat.le_add_left 4 4⟩

def longtype : Ty := ⟨.INT, 8, true⟩

/-- `switch (x) case 0: g();` -/
def switchOn (type : Ty) : Stmt ilp32 :=
  .item (.Swtch ⟨type, .other type 0⟩
    (.mark (.case ilp32.inttype 0 ⟨by decide, rfl⟩) (.exp ⟨ilp32.inttype, .other ilp32.inttype 1⟩))) .null

def switchRecords (controlling : Node) : List Emit :=
  [.OBSWITCH, .OEXPR (some controlling), .OCASE (.fresh 1), .OEXPR (some (.const ilp32.inttype 0)),
    .OLABEL (.fresh 1), .OEXPR (some (.other ilp32.inttype 1)), .OESWITCH (.fresh 0), .OLABEL (.fresh 0)]

end Scc.Cc1.Lowering
