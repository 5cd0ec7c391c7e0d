import Scc.Libmach.Coff32Read

/-!
# What the reader reads

The entries that are read are as many as the header says, and the auxiliary entries of a symbol
come after it.
-/

namespace Scc.Libmach.Coff32

open Scc.Libmach.Reader

set_option autoImplicit false

def Ent.isAux : Ent → Prop
  | .SYM_ENT _ => False
  | _ => True

/-- Each symbol is followed by its auxiliary entries. -/
inductive Grouped (f_nscns : Nat) : List Ent → Prop
  | nil : Grouped f_nscns []
  | cons (sym : Syment) (auxs rest : List Ent) (scnum : sym.n_scnum ≤ f_nscns) (numaux : sym.n_numaux = auxs.length)
      (kinds : ∀ ep ∈ auxs, ep.isAux) (later : Grouped f_nscns rest) : Grouped f_nscns (.SYM_ENT sym :: (auxs ++ rest))

variable {fp fp' : Bytes} {order : Scc.Libmach.Pack.Order}

theorem readunks_ok {n room : Nat} {unks : List Ent} (ok : readunks n room fp = .ok (unks, fp')) :
    unks.length = n ∧ n ≤ room ∧ fp' = fp.drop (AUXESZ * n) ∧ ∀ ep ∈ unks, ep.isAux := by
  induction n generalizing room fp fp' unks with
  | zero =>
    cases ok
    exact ⟨rfl, Nat.zero_le _, rfl, nofun⟩
  | succ n ih =>
    cases room with
    | zero => cases ok
    | succ room =>
      rcases bind_ok ok with ⟨⟨buf, fp1⟩, read, more⟩
      rcases bind_ok more with ⟨⟨rest, fp2⟩, later, same⟩
      rcases fread_ok read with ⟨-, -, rfl⟩
      rcases ih later with ⟨length, room_, rfl, kinds⟩
      cases same
      refine ⟨by rw [List.length_cons, length], Nat.succ_le_succ room_, ?_, ?_⟩
      · rw [List.drop_drop, Nat.mul_succ, Nat.add_comm]
      · intro ep member
        rcases List.mem_cons.mp member with rfl | member
        · trivial
        · exact kinds ep member

theorem unpack_aux_isAux {ent : Syment} {buf : Bytes} {ep : Ent}
    (read : unpack_aux order ent buf = some ep) : ep.isAux := by
  unfold unpack_aux at read
  dsimp only at read
  split_ifs at read <;> rcases Option.map_eq_some_iff.mp read with ⟨_, -, rfl⟩ <;> trivial

theorem readauxs_ok {ent : Syment} {room : Nat} {auxs : List Ent}
    (ok : readauxs order ent room fp = .ok (auxs, fp')) : ent.n_numaux = auxs.length ∧ auxs.length ≤ room ∧
      fp' = fp.drop (AUXESZ * auxs.length) ∧ ∀ ep ∈ auxs, ep.isAux := by
  unfold readauxs at ok
  by_cases none_ : ent.n_numaux = 0
  · rw [if_pos none_] at ok
    cases ok
    exact ⟨none_, Nat.zero_le _, rfl, nofun⟩
  · rw [if_neg none_] at ok
    rcases bind_ok ok with ⟨⟨buf, fp1⟩, read, more⟩
    rcases fread_ok read with ⟨-, -, rfl⟩
    cases room with
    | zero => cases more
    | succ room =>
      rcases bind_ok more with ⟨first, unpacked_, rest⟩
      split_ifs at rest with negative
      rcases bind_ok rest with ⟨⟨unks, fp2⟩, later, same⟩
      rcases readunks_ok later with ⟨length, room_, rfl, kinds⟩
      cases same
      have count : (first :: unks).length = unks.length + 1 := List.length_cons
      refine ⟨by omega, by omega, ?_, ?_⟩
      · rw [List.drop_drop, count, length, Nat.mul_succ, Nat.add_comm]
      · intro ep member
        rcases List.mem_cons.mp member with rfl | member
        · exact unpack_aux_isAux (assertion_ok unpacked_)
        · exact kinds ep member

theorem readents_ok {f_nscns fuel room : Nat} {ents : List Ent}
    (ok : readents order f_nscns fuel room fp = .ok (ents, fp')) :
    ents.length = room ∧ fp' = fp.drop (SYMESZ * room) ∧ Grouped f_nscns ents := by
  induction fuel generalizing room fp fp' ents with
  | zero =>
    cases room with
    | zero =>
      cases ok
      exact ⟨rfl, rfl, .nil⟩
    | succ room => cases ok
  | succ fuel ih =>
    cases room with
    | zero =>
      cases ok
      exact ⟨rfl, rfl, .nil⟩
    | succ room =>
      rcases bind_ok ok with ⟨⟨buf, fp1⟩, read, more⟩
      rcases bind_ok more with ⟨sym, unpacked_, rest⟩
      rcases fread_ok read with ⟨-, -, rfl⟩
      split_ifs at rest with outside
      rcases bind_ok rest with ⟨⟨auxs, fp2⟩, belong, rest'⟩
      rcases bind_ok rest' with ⟨⟨later, fp3⟩, again, same⟩
      rcases readauxs_ok belong with ⟨numaux, fits, rfl, kinds⟩
      rcases ih again with ⟨length, rfl, grouped⟩
      cases same
      refine ⟨?_, ?_, .cons sym auxs later (by omega) numaux kinds grouped⟩
      · rw [List.length_cons, List.length_append, length]
        omega
      · have total : AUXESZ * auxs.length + SYMESZ * (room - auxs.length) = SYMESZ * room := by
          have part : auxs.length + (room - auxs.length) = room := by omega
          change SYMESZ * auxs.length + SYMESZ * (room - auxs.length) = SYMESZ * room
          rw [← Nat.mul_add, part]
        rw [List.drop_drop, List.drop_drop, total, Nat.mul_succ, Nat.add_comm]

end Scc.Libmach.Coff32
