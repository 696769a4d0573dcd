import ThumbHardening.Proofs.Predication.Pieces

/-!
# By how much edits lengthen consistent code

An edit takes apart at most the group of the piece in which it happens, and the repair concerns that piece only. An
insertion never shortens the code. A removal takes one instruction out, and the `It` as well if its group has no
other member. The part in front of a cut loses an `It` exactly if the cut leaves the `It` no member there.
-/

namespace ThumbHardening
namespace Code

variable {code front piece back left members : Code} {conds : List Cond} {i anchor : Instr} {index k : Nat}

/-! ### Insertions -/

/-- Once its group is taken apart, an instruction is among the other members. -/
theorem PieceAt.ungroup_eq (h : PieceAt code index front (i :: members) back)
    (hfound : code.findGroup index = some front.length) :
    code.ungroup index = (front ++ (members ++ back), index - 1) := by
  rw [Code.ungroup, hfound]
  simp only
  rw [h.code_eq, List.eraseIdx_append_of_length_le (Nat.le_refl _), Nat.sub_self, List.cons_append,
    List.eraseIdx_cons_zero]

/-- The code with the group of an instruction taken apart differs in the piece of that instruction only. -/
theorem PieceAt.exists_ungroup (h : PieceAt code index front piece back) :
    ∃ left pos, code.ungroup index = (front ++ (left ++ back), front.length + pos) ∧ pos < left.length ∧
      ordinary left = ordinary piece := by
  have hle := h.le
  have hlt := h.lt
  cases hfound : code.findGroup index with
  | none =>
    have hungroup : code.ungroup index = (code, index) := by rw [Code.ungroup, hfound]
    refine ⟨piece, index - front.length, ?_, by omega, rfl⟩
    rw [hungroup, ← h.code_eq, Nat.add_sub_cancel' hle]
  | some it =>
    obtain ⟨rfl, j, conds, members, rfl, hconds, -⟩ := h.eq_of_covers (findGroup_eq_some_iff.mp hfound)
    have hbehind := (findGroup_eq_some hfound).1
    rw [List.length_cons] at hlt
    refine ⟨members, index - 1 - front.length, ?_, by omega,
      (ordinary_cons_it (Instr.isIt_of_announced? hconds) _).symm⟩
    rw [h.ungroup_eq hfound, Nat.add_sub_cancel' (by omega)]

theorem ordinary_sublist (code : Code) : (ordinary code).Sublist code :=
  List.filter_sublist

theorem ordinary_ordinary (code : Code) : ordinary (ordinary code) = ordinary code :=
  List.filter_eq_self.mpr fun _ hi => (List.mem_filter.mp hi).2

theorem ordinary_members (h : ∀ i ∈ members, i.isIt = false) : ordinary members = members :=
  List.filter_eq_self.mpr fun i hi => by simp [h i hi]

theorem Stretch.exists_needsGroup (h : Stretch conds members) (hne : conds ≠ []) :
    ∃ i ∈ members, i.needsGroup = true := by
  have hpositions : memberPositions members ≠ [] := by
    rw [← List.length_pos_iff, h.length_memberPositions]
    exact List.length_pos_iff.mpr hne
  obtain ⟨pos, hpos⟩ := List.exists_mem_of_ne_nil _ hpositions
  obtain ⟨i, hi, hdebug⟩ := mem_memberPositions.mp hpos
  exact ⟨i, List.mem_of_getElem? hi, h.needsGroup (List.mem_of_getElem? hi) hdebug⟩

/-- As long as all of its instructions are there, a piece does not become shorter. -/
theorem Piece.length_le_repair (h : Piece piece) (hsub : (ordinary piece).Sublist code) :
    piece.length ≤ (repair code).length := by
  have hkept : (ordinary piece).length ≤ (ordinary code).length := by
    rw [← ordinary_ordinary piece]
    exact (hsub.filter _).length_le
  cases h with
  | @plain i hit _ =>
    rw [ordinary_cons hit] at hkept
    exact Nat.le_trans hkept (length_ordinary_le_repair code)
  | @group i conds members hconds hmembers _ =>
    rw [ordinary_cons_it (Instr.isIt_of_announced? hconds), ordinary_members hmembers.isIt_eq_false] at hkept hsub
    obtain ⟨j, hj, hneeds⟩ := hmembers.exists_needsGroup (announced?_ne_nil hconds)
    exact Nat.lt_of_le_of_lt hkept (length_ordinary_lt_repair ⟨j, hsub.subset hj, hneeds⟩)

theorem take_append_between (front back : Code) (hk : k ≤ left.length) :
    (front ++ (left ++ back)).take (front.length + k) = front ++ left.take k := by
  rw [List.take_length_add_append, List.take_append_of_le_length hk]

theorem drop_append_between (front back : Code) (hk : k ≤ left.length) :
    (front ++ (left ++ back)).drop (front.length + k) = left.drop k ++ back := by
  rw [List.drop_length_add_append, List.drop_append_of_le_length hk]

/-- An insertion does not shorten consistent code. -/
theorem length_le_insertAround (h : code.isConsistent = true) (hanchor : code[index]? = some anchor) (behind : Bool)
    (new : List Instr) : code.length ≤ (code.insertAround anchor index behind new).1.length := by
  have hindex := (List.getElem?_eq_some_iff.mp hanchor).1
  obtain ⟨front, piece, back, hat⟩ := exists_pieceAt (isConsistent_iff_grouped.mp h) hindex
  obtain ⟨left, pos, hungroup, hpos, hordinary⟩ := hat.exists_ungroup
  rw [insertAround, hungroup]
  simp only
  generalize new.map (adopt (neighbourPred anchor)) = new'
  obtain ⟨k, hk, hplace⟩ : ∃ k, k ≤ left.length ∧
      (if behind then front.length + pos + 1 else front.length + pos) = front.length + k := by
    cases behind with
    | false => exact ⟨pos, Nat.le_of_lt hpos, rfl⟩
    | true => exact ⟨pos + 1, hpos, rfl⟩
  rw [hplace, take_append_between front back hk, drop_append_between front back hk]
  have hcode : front ++ left.take k ++ (new' ++ (left.drop k ++ back))
      = front ++ ((left.take k ++ (new' ++ left.drop k)) ++ back) := by
    simp only [List.append_assoc]
  have hsub : (ordinary piece).Sublist (left.take k ++ (new' ++ left.drop k)) := by
    have hleft : left.Sublist (left.take k ++ (new' ++ left.drop k)) := by
      conv => lhs; rw [← List.take_append_drop k left]
      exact (List.Sublist.refl _).append (List.sublist_append_right ..)
    rw [← hordinary]
    exact (ordinary_sublist left).trans hleft
  have hpiece := hat.is_piece.length_le_repair hsub
  rw [hcode, repair_append hat.front_grouped hat.back_grouped, hat.code_eq]
  simp only [List.length_append]
  omega

/-! ### Removals -/

/-- Whether an instruction is the only one that its `It` covers. -/
def aloneInGroup (code : Code) (index : Nat) : Bool :=
  (code.findGroup index).bind (coveredBy code) = some [index]

/-- What needs no group is not missed by any. -/
theorem Grouped.eraseIdx (h : Grouped Instr.Bare conds code) (hi : code[index]? = some i) (hit : i.isIt = false)
    (hbare : i.Bare) : Grouped Instr.Bare conds (code.eraseIdx index) := by
  induction h generalizing index with
  | nil => cases hi
  | @plain j rest hj hout hrest ih =>
    cases index with
    | zero => exact hrest
    | succ index => exact .plain hj hout (ih hi)
  | @it j conds rest hconds _ ih =>
    cases index with
    | zero =>
      cases hi
      rw [Instr.isIt_of_announced? hconds] at hit
      cases hit
    | succ index => exact .it hconds (ih hi)
  | @debug j c later rest hdebug hout hrest ih =>
    cases index with
    | zero => exact hrest
    | succ index => exact .debug hdebug hout (ih hi)
  | @member j c later rest hdebug hmeets _ ih =>
    cases index with
    | zero =>
      cases hi
      have hneeds := hmeets.needs
      rw [hbare] at hneeds
      cases hneeds
    | succ index => exact .member hdebug hmeets (ih hi)

/-- Without one of its members, a stretch has no other one exactly if that was the only one. -/
theorem memberPositions_eq_singleton_iff (hi : members[k]? = some i) (hdebug : i.isDebug = false) :
    memberPositions members = [k] ↔ ∀ j ∈ members.eraseIdx k, j.isDebug = true := by
  have hmem : k ∈ memberPositions members := mem_memberPositions.mpr ⟨i, hi, hdebug⟩
  constructor
  · intro hpositions j hj
    obtain ⟨pos, hne, hpos⟩ := List.mem_eraseIdx_iff_getElem?.mp hj
    by_contra hother
    have hin : pos ∈ memberPositions members := mem_memberPositions.mpr ⟨j, hpos, by simpa using hother⟩
    rw [hpositions] at hin
    exact hne (List.mem_singleton.mp hin)
  · intro hothers
    apply List.perm_singleton.mp
    apply (List.perm_ext_iff_of_nodup (nodup_memberPositions members) (List.nodup_singleton k)).mpr
    intro pos
    rw [List.mem_singleton]
    constructor
    · intro hpos
      obtain ⟨j, hj, hjdebug⟩ := mem_memberPositions.mp hpos
      by_contra hne
      rw [hothers j (List.mem_eraseIdx_iff_getElem?.mpr ⟨pos, hne, hj⟩)] at hjdebug
      cases hjdebug
    · rintro rfl
      exact hmem

/-- A removal takes one instruction out of consistent code, or two if an `It` covers nothing else. -/
theorem length_removeAt (h : code.isConsistent = true) (hi : code[index]? = some i) (hit : i.isIt = false) :
    (code.removeAt index).length + (if code.aloneInGroup index then 2 else 1) = code.length := by
  have hgrouped := isConsistent_iff_grouped.mp h
  have hindex := (List.getElem?_eq_some_iff.mp hi).1
  obtain ⟨front, piece, back, hat⟩ := exists_pieceAt hgrouped hindex
  cases hneeds : i.needsGroup with
  | false =>
    have hnone := hat.findGroup_eq_none hi hneeds
    have hkept := repair_eq_self (isConsistent_iff_grouped.mpr (hgrouped.eraseIdx hi hit hneeds))
    rw [removeAt, Code.ungroup, aloneInGroup, hnone]
    simp only [hkept, Option.bind_none, reduceCtorEq, decide_false, Bool.false_eq_true, if_false]
    rw [List.length_eraseIdx_of_lt hindex]
    omega
  | true =>
    have hfound := hat.findGroup_eq hi hneeds
    obtain ⟨j, conds, members, rfl, hconds, hmembers, hbare, hbehind, hmember, hdebug⟩ := hat.exists_group hi hneeds
    obtain ⟨k, hk⟩ := Nat.exists_eq_add_of_lt hbehind
    obtain rfl : index = front.length + 1 + k := by omega
    rw [Nat.add_sub_cancel_left] at hmember
    have hklt := (List.getElem?_eq_some_iff.mp hmember).1
    have halone : code.aloneInGroup (front.length + 1 + k) = true ↔ ∀ m ∈ members.eraseIdx k, m.isDebug = true := by
      rw [← memberPositions_eq_singleton_iff hmember hdebug, aloneInGroup, hfound, Option.bind_some, hat.code_eq,
        coveredBy_group hconds hmembers, decide_eq_true_eq, Option.some.injEq]
      have hshift : [front.length + 1 + k] = [k].map (· + (front.length + 1)) := by simp [Nat.add_comm]
      rw [hshift, List.map_inj_right fun _ _ => Nat.add_right_cancel]
    obtain ⟨conds', hsub, hremnant⟩ := hmembers.exists_remnant hbare (List.eraseIdx_sublist members k)
    obtain ⟨hlength, halike⟩ := Instr.announced?_bounds hconds
    have hrepair := hremnant.length_repair (halike.sublist hsub) (Nat.le_trans hsub.length_le hlength)
    have hremove : code.removeAt (front.length + 1 + k) = front ++ (repair (members.eraseIdx k) ++ back) := by
      have hbefore : front.length + 1 + k - 1 = front.length + k := by omega
      rw [removeAt, hat.ungroup_eq hfound]
      simp only
      rw [hbefore, List.eraseIdx_append_of_length_le (Nat.le_add_right ..), Nat.add_sub_cancel_left,
        List.eraseIdx_append_of_lt_length hklt, repair_append hat.front_grouped hat.back_grouped]
    rw [← hremnant.conds_eq_nil_iff] at halone
    have hlengthCode : code.length = front.length + (members.length + 1 + back.length) := by
      rw [hat.code_eq, List.length_append, List.length_append, List.length_cons]
    rw [hremove, List.length_append, List.length_append, hrepair, List.length_eraseIdx_of_lt hklt, hlengthCode]
    by_cases hconds' : conds' = []
    · rw [if_pos hconds', if_pos (halone.mpr hconds')]
      omega
    · rw [if_neg hconds', if_neg (mt halone.mp hconds')]
      omega

/-! ### Cuts -/

/-- Whether the last instruction that produces code is an `It`. -/
def endsWithIt (code : Code) : Bool :=
  code.withoutDebug.getLast?.any Instr.isIt

theorem withoutDebug_eq_nil_iff : code.withoutDebug = [] ↔ ∀ i ∈ code, i.isDebug = true := by
  simp [withoutDebug]

theorem withoutDebug_cons_ne_nil (hdebug : i.isDebug = false) (rest : Code) : withoutDebug (i :: rest) ≠ [] := by
  rw [withoutDebug_cons, if_neg (by simp [hdebug])]
  exact List.cons_ne_nil _ _

theorem endsWithIt_cons (i : Instr) (rest : Code) :
    endsWithIt (i :: rest) = if rest.withoutDebug = [] then i.isIt else rest.endsWithIt := by
  rw [endsWithIt, endsWithIt, withoutDebug_cons]
  cases hdebug : i.isDebug with
  | true =>
    rw [if_pos rfl]
    split
    · next hnil => simp [hnil, isIt_of_isDebug hdebug]
    · rfl
  | false =>
    rw [if_neg Bool.false_ne_true]
    split
    · next hnil => simp [hnil]
    · next hne =>
      rw [← List.singleton_append, List.getLast?_append_of_ne_nil _ hne]

theorem endsWithIt_append (front : Code) (h : back.withoutDebug ≠ []) :
    endsWithIt (front ++ back) = back.endsWithIt := by
  rw [endsWithIt, withoutDebug_append, List.getLast?_append_of_ne_nil _ h, endsWithIt]

theorem endsWithIt_of_isIt_eq_false (h : ∀ i ∈ code, i.isIt = false) : code.endsWithIt = false := by
  rw [endsWithIt, Option.any_eq_false]
  intro i hi
  rw [h i (List.mem_filter.mp (List.mem_of_getLast? hi)).1]

/-- In consistent code there is a member behind each `It`. -/
theorem endsWithIt_eq_false (h : Grouped Instr.Bare conds code) :
    code.endsWithIt = false ∧ (conds ≠ [] → code.withoutDebug ≠ []) := by
  induction h with
  | nil => exact ⟨rfl, fun h => absurd rfl h⟩
  | @plain i rest hit _ _ ih =>
    refine ⟨?_, fun h => absurd rfl h⟩
    rw [endsWithIt_cons, hit, ih.1, ite_self]
  | @it i conds rest hconds _ ih =>
    refine ⟨?_, fun h => absurd rfl h⟩
    rw [endsWithIt_cons, if_neg (ih.2 (announced?_ne_nil hconds)), ih.1]
  | @debug i c later rest hdebug _ _ ih =>
    refine ⟨?_, fun hne => ?_⟩
    · rw [endsWithIt_cons, isIt_of_isDebug hdebug, ih.1, ite_self]
    · rw [withoutDebug_cons, if_pos hdebug]
      exact ih.2 hne
  | @member i c later rest hdebug hmeets _ ih =>
    refine ⟨?_, fun _ => withoutDebug_cons_ne_nil hdebug rest⟩
    rw [endsWithIt_cons, isIt_of_needsGroup hmeets.needs, ih.1, ite_self]

/-- An `It` does not agree with the first part of what it covers. -/
theorem Stretch.matchConds_take_eq_none (h : Stretch conds members) (hk : k < members.length) :
    matchConds conds (members.take k) = none := by
  induction h generalizing k with
  | nil => exact absurd hk (Nat.not_lt_zero k)
  | debug hdebug _ ih =>
    cases k with
    | zero => rfl
    | succ k => rw [List.take_succ_cons, matchConds_debug hdebug, ih (Nat.lt_of_succ_lt_succ hk), Option.map_none]
  | member hdebug hmeets _ ih =>
    cases k with
    | zero => rfl
    | succ k =>
      rw [List.take_succ_cons, matchConds_member hdebug hmeets, ih (Nat.lt_of_succ_lt_succ hk), Option.map_none]

/-- The part in front of a cut through consistent code is as long as before, unless the cut is directly behind an `It`
or only debug information is between them. -/
theorem length_repair_take (h : code.isConsistent = true) (hindex : index ≤ code.length) :
    (repair (code.take index)).length + (if endsWithIt (code.take index) then 1 else 0) = index := by
  have hgrouped := isConsistent_iff_grouped.mp h
  -- a cut between pieces
  have hbetween (hfront : Grouped Instr.Bare [] (code.take index)) :
      (repair (code.take index)).length + (if endsWithIt (code.take index) then 1 else 0) = index := by
    rw [repair_eq_self (isConsistent_iff_grouped.mpr hfront), (endsWithIt_eq_false hfront).1,
      List.length_take_of_le hindex]
    rfl
  rcases Nat.lt_or_ge index code.length with hlt | hge
  · obtain ⟨front, piece, back, hat⟩ := exists_pieceAt hgrouped hlt
    obtain ⟨pos, rfl⟩ := Nat.exists_eq_add_of_le hat.le
    have hpos : pos < piece.length := by
      have hlt' := hat.lt
      omega
    have htake : code.take (front.length + pos) = front ++ piece.take pos := by
      rw [hat.code_eq, take_append_between front back (Nat.le_of_lt hpos)]
    cases pos with
    | zero =>
      apply hbetween
      rw [htake, List.take_zero, List.append_nil]
      exact hat.front_grouped
    | succ k =>
      have hpiece := hat.is_piece
      cases hpiece with
      | plain => simp at hpos
      | @group j conds members hconds hmembers hbare =>
        have hk : k < members.length := Nat.lt_of_succ_lt_succ hpos
        have hit := Instr.isIt_of_announced? hconds
        obtain ⟨conds', hsub, hremnant⟩ := hmembers.exists_remnant hbare (List.take_sublist k members)
        obtain ⟨hlength, halike⟩ := Instr.announced?_bounds hconds
        have hleft := hremnant.length_repair (halike.sublist hsub) (Nat.le_trans hsub.length_le hlength)
        -- the `It` has lost members, so it goes
        have hstale : repair (j :: members.take k) = repair (members.take k) := by
          have hkept := dropStale_append hremnant.isIt_eq_false []
          rw [List.append_nil, dropStale, List.append_nil] at hkept
          have hcoverage : coverage j (members.take k) = none := by
            rw [coverage_eq, hconds, Option.bind_some, hmembers.matchConds_take_eq_none hk]
          rw [repair_eq, repair_eq, dropStale, hkept, if_pos (by simp [hit, hcoverage])]
        have hrepair : repair (front ++ j :: members.take k) = front ++ repair (members.take k) := by
          have hlocal := repair_append hat.front_grouped .nil (j :: members.take k)
          rwa [List.append_nil, List.append_nil, hstale] at hlocal
        have hends : endsWithIt (front ++ j :: members.take k) = true ↔ conds' = [] := by
          rw [endsWithIt_append front (withoutDebug_cons_ne_nil (isDebug_of_isIt hit) _), endsWithIt_cons, hit,
            endsWithIt_of_isIt_eq_false hremnant.isIt_eq_false, hremnant.conds_eq_nil_iff, ← withoutDebug_eq_nil_iff]
          simp
        rw [htake, List.take_succ_cons, hrepair, List.length_append, hleft, List.length_take_of_le (Nat.le_of_lt hk)]
        by_cases hconds' : conds' = []
        · rw [if_pos hconds', if_pos (hends.mpr hconds')]
          omega
        · rw [if_neg hconds', if_neg (mt hends.mp hconds')]
          omega
  · apply hbetween
    rw [List.take_of_length_le hge]
    exact hgrouped

end Code
end ThumbHardening
