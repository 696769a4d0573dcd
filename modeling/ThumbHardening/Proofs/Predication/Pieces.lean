import ThumbHardening.Proofs.Predication.GroupSearch
import ThumbHardening.Proofs.Predication.Stripped

/-!
# Pieces of consistent code

Consistent code is a sequence of pieces: instructions that need no group, and groups with their `It`. An edit takes
apart at most the group of the piece in which it happens, and the repair concerns that piece only. So it can be said
by how many instructions the code gets longer or shorter. An insertion adds the new instructions at least. A removal
takes the `It` along if its group has no other member, and so does a cut directly behind an `It`.
-/

namespace ThumbHardening
namespace Code

variable {code front piece back members behind rest : Code} {conds : List Cond} {i : Instr} {index it k : Nat}

/-! ### Pieces -/

/-- An instruction that needs no group, or an `It` with all that it covers. -/
inductive Piece : Code → Prop
  | plain {i : Instr} : i.isIt = false → i.Bare → Piece [i]
  | group {i : Instr} {conds : List Cond} {members : Code} : i.announced? = some conds → Stretch conds members →
      DebugBare members → Piece (i :: members)

/-- Where a piece with the instruction at a position stands. -/
structure PieceAt (code : Code) (index : Nat) (front piece back : Code) : Prop where
  code_eq : code = front ++ (piece ++ back)
  is_piece : Piece piece
  front_grouped : Grouped Instr.Bare [] front
  back_grouped : Grouped Instr.Bare [] back
  le : front.length ≤ index
  lt : index < front.length + piece.length

theorem Stretch.grouped (h : Stretch conds members) (hdebug : DebugBare members) (hback : Grouped Instr.Bare [] back) :
    Grouped Instr.Bare conds (members ++ back) := by
  induction h with
  | nil => exact hback
  | debug hi _ ih =>
    obtain ⟨hbare, hothers⟩ := List.forall_mem_cons.mp hdebug
    exact .debug hi (hbare hi) (ih hothers)
  | member hi hmeets _ ih => exact .member hi hmeets (ih (List.forall_mem_cons.mp hdebug).2)

theorem Piece.grouped (h : Piece piece) (hback : Grouped Instr.Bare [] back) :
    Grouped Instr.Bare [] (piece ++ back) := by
  cases h with
  | plain hit hbare => exact .plain hit hbare hback
  | group hconds hmembers hdebug => exact .it hconds (hmembers.grouped hdebug hback)

theorem Grouped.exists_stretch (h : Grouped Instr.Bare conds code) :
    ∃ members back, code = members ++ back ∧ Stretch conds members ∧ DebugBare members ∧
      Grouped Instr.Bare [] back := by
  have hnone : DebugBare [] := fun _ hi => by cases hi
  induction h with
  | nil => exact ⟨[], [], rfl, .nil, hnone, .nil⟩
  | @plain i rest hit hbare hrest => exact ⟨[], i :: rest, rfl, .nil, hnone, .plain hit hbare hrest⟩
  | @it i conds rest hconds hrest => exact ⟨[], i :: rest, rfl, .nil, hnone, .it hconds hrest⟩
  | @debug i c later rest hi hbare _ ih =>
    obtain ⟨members, back, rfl, hmembers, hdebug, hback⟩ := ih
    exact ⟨i :: members, back, rfl, .debug hi hmembers, List.forall_mem_cons.mpr ⟨fun _ => hbare, hdebug⟩, hback⟩
  | @member i c later rest hi hmeets _ ih =>
    obtain ⟨members, back, rfl, hmembers, hdebug, hback⟩ := ih
    refine ⟨i :: members, back, rfl, .member hi hmeets hmembers, List.forall_mem_cons.mpr ⟨fun hother => ?_, hdebug⟩,
      hback⟩
    rw [hi] at hother
    cases hother

/-- The first piece of consistent code. -/
theorem Grouped.exists_first (h : Grouped Instr.Bare [] code) (hne : code ≠ []) :
    ∃ piece back, code = piece ++ back ∧ Piece piece ∧ Grouped Instr.Bare [] back := by
  cases h with
  | nil => exact absurd rfl hne
  | @plain i rest hit hbare hrest => exact ⟨[i], rest, rfl, .plain hit hbare, hrest⟩
  | @it i conds rest hconds hrest =>
    obtain ⟨members, back, rfl, hmembers, hdebug, hback⟩ := hrest.exists_stretch
    exact ⟨i :: members, back, rfl, .group hconds hmembers hdebug, hback⟩

theorem exists_pieceAt (h : Grouped Instr.Bare [] code) (hindex : index < code.length) :
    ∃ front piece back, PieceAt code index front piece back := by
  induction hlength : code.length using Nat.strongRecOn generalizing code index with
  | ind length ih =>
    have hne : code ≠ [] := by
      rintro rfl
      exact Nat.not_lt_zero _ hindex
    obtain ⟨piece, rest, rfl, hpiece, hrest⟩ := h.exists_first hne
    rw [List.length_append] at hindex hlength
    rcases Nat.lt_or_ge index piece.length with hlt | hge
    · exact ⟨[], piece, rest, rfl, hpiece, .nil, hrest, Nat.zero_le _, by simpa using hlt⟩
    · -- the piece with the position is behind the first one, which is not empty
      have hpos : 0 < piece.length := by cases hpiece <;> exact Nat.succ_pos _
      obtain ⟨front, other, back, hat⟩ := ih rest.length (by omega) hrest
        (show index - piece.length < rest.length by omega) rfl
      obtain ⟨rfl, hother, hfront, hback, hle, hlt⟩ := hat
      refine ⟨piece ++ front, other, back, by rw [List.append_assoc], hother, hpiece.grouped hfront, hback, ?_, ?_⟩
      · rw [List.length_append]
        omega
      · rw [List.length_append]
        omega

/-! ### Groups in consistent code -/

theorem Stretch.needsGroup (h : Stretch conds members) (hi : i ∈ members) (hdebug : i.isDebug = false) :
    i.needsGroup = true := by
  induction h with
  | nil => cases hi
  | debug hother _ ih =>
    rcases List.mem_cons.mp hi with rfl | hi
    · rw [hdebug] at hother
      cases hother
    · exact ih hi
  | member _ hmeets _ ih =>
    rcases List.mem_cons.mp hi with rfl | hi
    · exact hmeets.needs
    · exact ih hi

/-- Consistent code does not change what is covered in front of it. -/
theorem coveredBy_append_front (hback : Grouped Instr.Bare [] back) (hit : it < code.length) :
    coveredBy (code ++ back) it = coveredBy code it := by
  simp only [coveredBy, List.getElem?_append_left hit, List.drop_append_of_le_length hit, coverage_append hback]

/-! ### Finding the group of an instruction -/

namespace PieceAt

variable (h : PieceAt code index front piece back)
include h

theorem getElem?_eq : code[index]? = piece[index - front.length]? := by
  obtain ⟨rfl, -, -, -, hle, hlt⟩ := h
  rw [List.getElem?_append_right hle, List.getElem?_append_left (by omega)]

/-- Only an `It` in front of the piece can cover an instruction in it. -/
theorem eq_of_covers (hcovers : Covers code it index) :
    it = front.length ∧ ∃ j conds members, piece = j :: members ∧ j.announced? = some conds ∧ Stretch conds members ∧
      DebugBare members := by
  obtain ⟨hlt, -⟩ := hcovers.bounds
  obtain ⟨j, covered, hj, hjit, hcovered, hindex⟩ := hcovers
  obtain ⟨rfl, hpiece, -, hback, hle, hbound⟩ := h
  -- an `It` further in front covers only what is in front of the piece
  have hge : front.length ≤ it := by
    by_contra hbefore
    rw [coveredBy_append_front (hpiece.grouped hback) (by omega)] at hcovered
    have := (covers_of_coveredBy hcovered hindex).bounds.2
    omega
  rw [List.getElem?_append_right hge, List.getElem?_append_left (by omega)] at hj
  cases hpiece with
  | plain hit _ =>
    rw [List.length_singleton] at hbound
    omega
  | @group first conds members hconds hmembers hdebug =>
    refine ⟨?_, first, conds, members, rfl, hconds, hmembers, hdebug⟩
    -- behind the first instruction of the piece there is no `It`
    by_contra hne
    have hbehind : it - front.length = (it - front.length - 1) + 1 := by omega
    rw [hbehind, List.getElem?_cons_succ] at hj
    rw [hmembers.isIt_eq_false j (List.mem_of_getElem? hj)] at hjit
    cases hjit

/-- An instruction of the piece that needs a group is a member of the group that the piece is. -/
theorem exists_group (hi : code[index]? = some i) (hneeds : i.needsGroup = true) :
    ∃ j conds members, piece = j :: members ∧ j.announced? = some conds ∧ Stretch conds members ∧ DebugBare members ∧
      front.length < index ∧ members[index - (front.length + 1)]? = some i ∧ i.isDebug = false := by
  rw [h.getElem?_eq] at hi
  have hle := h.le
  cases h.is_piece with
  | plain hit hbare =>
    have hmem := List.mem_of_getElem? hi
    rw [List.mem_singleton.mp hmem, hbare] at hneeds
    cases hneeds
  | @group j conds members hconds hmembers hdebug =>
    have hlt : front.length < index := by
      rcases Nat.lt_or_ge front.length index with hlt | hge
      · exact hlt
      · rw [Nat.sub_eq_zero_of_le hge] at hi
        cases hi
        rw [Instr.needsGroup, Instr.isIt_of_announced? hconds] at hneeds
        simp at hneeds
    have hbehind : index - front.length = index - (front.length + 1) + 1 := by omega
    rw [hbehind, List.getElem?_cons_succ] at hi
    refine ⟨j, conds, members, rfl, hconds, hmembers, hdebug, hlt, hi, ?_⟩
    by_contra hother
    rw [hdebug i (List.mem_of_getElem? hi) (by simpa using hother)] at hneeds
    cases hneeds

/-- The search finds the `It` of a member. -/
theorem findGroup_eq (hi : code[index]? = some i) (hneeds : i.needsGroup = true) :
    code.findGroup index = some front.length := by
  obtain ⟨j, conds, members, rfl, hconds, hmembers, -, hlt, hmember, hdebug⟩ := h.exists_group hi hneeds
  have hcovered := coveredBy_group hconds hmembers front back
  rw [← h.code_eq] at hcovered
  refine findGroup_eq_some_iff.mpr (covers_of_coveredBy hcovered (List.mem_map.mpr ⟨_, ?_, Nat.sub_add_cancel hlt⟩))
  exact mem_memberPositions.mpr ⟨i, hmember, hdebug⟩

theorem findGroup_eq_none (hi : code[index]? = some i) (hneeds : i.needsGroup = false) :
    code.findGroup index = none := by
  cases hfound : code.findGroup index with
  | none => rfl
  | some it =>
    have hcovers := findGroup_eq_some_iff.mp hfound
    obtain ⟨rfl, j, conds, members, rfl, hconds, hmembers, -⟩ := h.eq_of_covers hcovers
    obtain ⟨-, covered, -, -, hcovered, hindex⟩ := hcovers
    rw [h.code_eq, coveredBy_group hconds hmembers, Option.some.injEq] at hcovered
    obtain ⟨pos, hpos, rfl⟩ := List.mem_map.mp (hcovered ▸ hindex)
    obtain ⟨member, hmember, hdebug⟩ := mem_memberPositions.mp hpos
    rw [h.getElem?_eq] at hi
    have hbehind : pos + (front.length + 1) - front.length = pos + 1 := by omega
    rw [hbehind, List.getElem?_cons_succ, hmember] at hi
    obtain rfl := Option.some.inj hi
    rw [hmembers.needsGroup (List.mem_of_getElem? hmember) hdebug] at hneeds
    cases hneeds

end PieceAt

end Code
end ThumbHardening
