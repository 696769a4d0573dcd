import ThumbHardening.Proofs.Predication.Edits
import Mathlib.Tactic.Tauto

/-!
# Insertions are exact

An insertion takes a group apart, puts the new instructions in, repairs the code and then looks for the anchor
again by its rank among the instructions other than `It`. Apart from `It` instructions the code is then the
old one with the new instructions next to the anchor, and the position that is found is the anchor's.
-/

namespace ThumbHardening
namespace Code

/-- The instruction `i` stands at a position, with these instructions other than `It` in front of it and
behind it. -/
def At (code : Code) (index : Nat) (front : Code) (i : Instr) (back : Code) : Prop :=
  ∃ a b, code = a ++ i :: b ∧ index = a.length ∧ front = ordinary a ∧ back = ordinary b

variable {code front back : Code} {index : Nat} {i : Instr} {new : List Instr}

theorem ordinary_cons (hit : i.isIt = false) (code : Code) :
    ordinary (i :: code) = i :: ordinary code := by
  simp [ordinary, hit]

theorem mem_ordinary (hi : i ∈ code) (hit : i.isIt = false) : i ∈ ordinary code :=
  List.mem_filter.mpr ⟨hi, by simp [hit]⟩

theorem exists_at (h : code[index]? = some i) : ∃ front back, At code index front i back := by
  obtain ⟨hlt, hget⟩ := List.getElem?_eq_some_iff.mp h
  refine ⟨_, _, code.take index, code.drop (index + 1), ?_, ?_, rfl, rfl⟩
  · rw [← hget, List.getElem_cons_drop, List.take_append_drop]
  · rw [List.length_take, Nat.min_eq_left (Nat.le_of_lt hlt)]

theorem getElem?_between (front : Code) (i : Instr) (back : Code) : (front ++ i :: back)[front.length]? = some i := by
  rw [List.getElem?_append_right (Nat.le_refl _), Nat.sub_self, List.getElem?_cons_zero]

theorem At.get (h : At code index front i back) : code[index]? = some i := by
  obtain ⟨a, b, rfl, rfl, -, -⟩ := h
  exact getElem?_between a i b

theorem At.ordinary_eq (h : At code index front i back) (hit : i.isIt = false) :
    ordinary code = front ++ i :: back := by
  obtain ⟨a, b, rfl, -, rfl, rfl⟩ := h
  rw [ordinary_append, ordinary_cons hit]

theorem modify_append (a b : Code) (change : Instr → Instr) :
    List.modify (a ++ i :: b) a.length change = a ++ change i :: b := by
  induction a with
  | nil => rfl
  | cons j rest ih => exact congrArg (j :: ·) ih

theorem At.modify (h : At code index front i back) (change : Instr → Instr) :
    At (code.modify index change) index front (change i) back := by
  obtain ⟨a, b, rfl, rfl, rfl, rfl⟩ := h
  exact ⟨a, b, modify_append a b change, rfl, rfl, rfl⟩

theorem At.mem_modify (h : At code index front i back) {change : Instr → Instr} {j : Instr}
    (hj : j ∈ List.modify code index change) : j ∈ code ∨ j = change i := by
  obtain ⟨a, b, rfl, rfl, rfl, rfl⟩ := h
  rw [modify_append] at hj
  simp only [List.mem_append, List.mem_cons] at hj ⊢
  tauto

/-! ### Taking a group apart -/

theorem findGroup_eq_some {it : Nat} (h : code.findGroup index = some it) :
    it < index ∧ ∃ j, code[it]? = some j ∧ j.isIt = true := by
  have hcovers := List.find?_some h
  have hbefore := List.mem_of_mem_take (List.mem_of_find?_eq_some h)
  refine ⟨?_, ?_⟩
  · have hmem := List.mem_range.mp (List.mem_reverse.mp (List.mem_of_mem_filter hbefore))
    omega
  · cases hcovered : coveredBy code it with
    | none => simp [hcovered] at hcovers
    | some positions =>
      rw [coveredBy] at hcovered
      obtain ⟨j, hj, hrest⟩ := Option.bind_eq_some_iff.mp hcovered
      obtain ⟨covered, hcoverage, -⟩ := Option.bind_eq_some_iff.mp hrest
      rw [coverage_eq] at hcoverage
      obtain ⟨conds, hconds, -⟩ := Option.bind_eq_some_iff.mp hcoverage
      exact ⟨j, hj, Instr.isIt_of_announced? hconds⟩

theorem ordinary_eraseIdx {it : Nat} {j : Instr} (hj : code[it]? = some j) (hit : j.isIt = true) :
    ordinary (code.eraseIdx it) = ordinary code := by
  obtain ⟨_, _, a, b, rfl, rfl, -, -⟩ := exists_at hj
  rw [List.eraseIdx_append_of_length_le (Nat.le_refl _), Nat.sub_self, List.eraseIdx_cons_zero,
    ordinary_append, ordinary_append, ordinary_cons_it hit]

theorem At.ungroup (h : At code index front i back) :
    At (code.ungroup index).1 (code.ungroup index).2 front i back := by
  rw [Code.ungroup]
  split
  · next it hgroup =>
    obtain ⟨hlt, j, hj, hit⟩ := findGroup_eq_some hgroup
    obtain ⟨a, b, rfl, rfl, rfl, rfl⟩ := h
    rw [List.getElem?_append_left hlt] at hj
    refine ⟨a.eraseIdx it, b, List.eraseIdx_append_of_lt_length hlt _, ?_, ?_, rfl⟩
    · rw [List.length_eraseIdx_of_lt hlt]
    · rw [ordinary_eraseIdx hj hit]
  · exact h

/-! ### Finding the anchor again -/

theorem at_locate (hit : i.isIt = false) (h : ordinary code = front ++ i :: back) :
    At code (locate code front.length) front i back := by
  induction code generalizing front with
  | nil => simp [ordinary] at h
  | cons j rest ih =>
    cases hj : j.isIt with
    | true =>
      rw [ordinary_cons_it hj] at h
      obtain ⟨a, b, hrest, hindex, hfront, hback⟩ := ih h
      refine ⟨j :: a, b, by rw [hrest, List.cons_append], ?_, ?_, hback⟩
      · simp [locate, hj, hindex]
      · rw [ordinary_cons_it hj, hfront]
    | false =>
      rw [ordinary_cons hj] at h
      cases front with
      | nil =>
        obtain ⟨rfl, hback⟩ := List.cons.inj h
        refine ⟨[], rest, rfl, ?_, rfl, hback.symm⟩
        simp [locate, hj]
      | cons first front =>
        obtain ⟨rfl, hrest⟩ := List.cons.inj h
        obtain ⟨a, b, hrest, hindex, hfront, hback⟩ := ih hrest
        refine ⟨j :: a, b, by rw [hrest, List.cons_append], ?_, ?_, hback⟩
        · simp [locate, hj, hindex]
        · rw [ordinary_cons hj, hfront]

theorem rankOf_append (a b : Code) : rankOf (a ++ b) a.length = (ordinary a).length := by
  rw [rankOf, List.take_left, List.countP_eq_length_filter]
  rfl

/-- Code that is repaired has its instructions other than `It` where they were. -/
theorem at_repair (hit : i.isIt = false) (a b : Code) :
    At (repair (a ++ i :: b)) (locate (repair (a ++ i :: b)) (rankOf (a ++ i :: b) a.length))
      (ordinary a) i (ordinary b) := by
  rw [rankOf_append]
  apply at_locate hit
  rw [ordinary_repair, ordinary_append, ordinary_cons hit]

theorem insertAround_before (h : At code index front i back) (hit : i.isIt = false)
    (new : List Instr) :
    At (code.insertAround i index false new).1 (code.insertAround i index false new).2
      (front ++ ordinary (new.map (adopt (neighbourPred i)))) i back := by
  obtain ⟨a, b, hcode, hindex, rfl, rfl⟩ := h.ungroup
  have hungroup : code.ungroup index = (a ++ i :: b, a.length) := Prod.ext hcode hindex
  have hrepair := at_repair hit (a ++ new.map (adopt (neighbourPred i))) b
  rw [List.length_append, List.length_map, List.append_assoc, ordinary_append] at hrepair
  rw [insertAround, hungroup]
  simpa using hrepair

theorem insertAround_behind (h : At code index front i back) (hit : i.isIt = false)
    (new : List Instr) :
    At (code.insertAround i index true new).1 (code.insertAround i index true new).2
      front i (ordinary (new.map (adopt (neighbourPred i))) ++ back) := by
  obtain ⟨a, b, hcode, hindex, rfl, rfl⟩ := h.ungroup
  have hungroup : code.ungroup index = (a ++ i :: b, a.length) := Prod.ext hcode hindex
  have htake : (a ++ i :: b).take (a.length + 1) = a ++ [i] := by
    rw [List.append_cons]
    exact List.take_left' (by simp)
  have hrepair := at_repair hit a (new.map (adopt (neighbourPred i)) ++ b)
  rw [ordinary_append] at hrepair
  rw [insertAround, hungroup]
  simpa [htake] using hrepair

/-! ### New groups -/

theorem mem_of_mem_dropStale {j : Instr} (h : j ∈ dropStale code) : j ∈ code := by
  induction code with
  | nil => exact h
  | cons i rest ih =>
    simp only [dropStale] at h
    split at h
    · exact List.mem_cons_of_mem _ (ih h)
    · rcases List.mem_cons.mp h with rfl | h
      · exact List.mem_cons_self
      · exact List.mem_cons_of_mem _ (ih h)

theorem mem_regroup {marked : List (Instr × Bool)} {j : Instr} (h : j ∈ regroup marked) :
    j ∈ marked.map Prod.fst ∨ ∃ first mask, j = .it first mask := by
  induction marked using regroup.induct with
  | case1 =>
    rw [regroup] at h
    cases h
  | case2 i covered rest hkept ih =>
    rw [regroup, if_pos hkept] at h
    rcases List.mem_cons.mp h with rfl | h
    · exact .inl List.mem_cons_self
    · exact (ih h).imp_left (List.mem_cons_of_mem _)
  | case3 i covered rest hopen split ih =>
    rw [regroup, if_neg hopen] at h
    have hrest : rest.map Prod.fst = split.1 ++ split.2.map Prod.fst :=
      (takeMembers_append i.pred (groupRoom i) rest).symm
    rw [List.map_cons, hrest]
    rcases List.mem_cons.mp h with rfl | h
    · exact .inr ⟨_, _, rfl⟩
    · rcases List.mem_cons.mp h with rfl | h
      · exact .inl List.mem_cons_self
      · rcases List.mem_append.mp h with h | h
        · exact .inl (List.mem_cons_of_mem _ (List.mem_append_left _ h))
        · exact (ih h).imp_left fun h => List.mem_cons_of_mem _ (List.mem_append_right _ h)

/-- What is in repaired code was there before, or is the `It` of a new group. -/
theorem mem_repair {j : Instr} (h : j ∈ repair code) :
    j ∈ code ∨ ∃ first mask, j = .it first mask := by
  refine (mem_regroup h).imp_left fun h => ?_
  rw [map_fst_zip_coveredMarks] at h
  exact mem_of_mem_dropStale h

theorem mem_insertAround {behind : Bool} {j : Instr}
    (h : j ∈ (code.insertAround i index behind new).1) :
    j ∈ code ∨ j ∈ new.map (adopt (neighbourPred i)) ∨ ∃ first mask, j = .it first mask := by
  rw [insertAround] at h
  rcases mem_repair h with h | h
  · rcases List.mem_append.mp h with h | h
    · exact .inl (mem_of_mem_ungroup (List.mem_of_mem_take h))
    · rcases List.mem_append.mp h with h | h
      · exact .inr (.inl h)
      · exact .inl (mem_of_mem_ungroup (List.mem_of_mem_drop h))
  · exact .inr (.inr h)

/-! ### Changes in place -/

/-- An instruction that can stand for another one in a group or outside of groups. -/
structure SameRole (i j : Instr) : Prop where
  old : i.isIt = false
  new : j.isIt = false
  debug : j.isDebug = i.isDebug
  needs : j.needsGroup = i.needsGroup
  pred : j.pred = i.pred
  ends : j.opcode.endsGroup = i.opcode.endsGroup

theorem Grouped.modify {conds : List Cond} {change : Instr → Instr}
    (h : Grouped Instr.Bare conds code) (hsame : ∀ j, code[index]? = some j → SameRole j (change j)) :
    Grouped Instr.Bare conds (code.modify index change) := by
  induction h generalizing index with
  | nil =>
    rw [List.modify_nil]
    exact .nil
  | @plain j rest hit hbare hrest ih =>
    cases index with
    | zero =>
      have hrole := hsame j rfl
      exact .plain hrole.new (hrole.needs.trans hbare) hrest
    | succ index => exact .plain hit hbare (ih hsame)
  | @it j conds rest hconds hrest ih =>
    cases index with
    | zero =>
      have hit := Instr.isIt_of_announced? hconds
      rw [(hsame j rfl).old] at hit
      cases hit
    | succ index => exact .it hconds (ih hsame)
  | @debug j c later rest hdebug hbare hrest ih =>
    cases index with
    | zero =>
      have hrole := hsame j rfl
      exact .debug (hrole.debug.trans hdebug) (hrole.needs.trans hbare) hrest
    | succ index => exact .debug hdebug hbare (ih hsame)
  | @member j c later rest hdebug hmeets hrest ih =>
    cases index with
    | zero =>
      have hrole := hsame j rfl
      refine .member (hrole.debug.trans hdebug) ⟨hrole.needs.trans hmeets.needs,
        hrole.pred.trans hmeets.pred_eq, fun hends => hmeets.last ?_⟩ hrest
      rw [← hends]
      exact hrole.ends.symm
    | succ index => exact .member hdebug hmeets (ih hsame)

theorem isConsistent_modify {change : Instr → Instr} (h : code.isConsistent = true)
    (hget : code[index]? = some i) (hsame : SameRole i (change i)) :
    isConsistent (code.modify index change) = true := by
  refine isConsistent_iff_grouped.mpr ((isConsistent_iff_grouped.mp h).modify fun j hj => ?_)
  rw [hget] at hj
  cases hj
  exact hsame

/-! ### The first instruction -/

theorem announced?_ne_nil {conds : List Cond} (h : i.announced? = some conds) : conds ≠ [] := by
  obtain ⟨fields, -, hdecode⟩ := Option.bind_eq_some_iff.mp h
  rw [decodeMask?] at hdecode
  split at hdecode
  · cases hdecode
  · obtain ⟨later, -, rfl⟩ := Option.map_eq_some_iff.mp hdecode
    exact List.cons_ne_nil _ _

/-- Behind an `It` the first instruction that produces code is a member of its group. -/
theorem head?_of_grouped (h : Grouped Instr.Bare [] code) (hhead : (ordinary code).head? = some i)
    (hdebug : i.isDebug = false) (hbare : i.Bare) : code.head? = some i := by
  cases h with
  | nil => exact hhead
  | plain hit =>
    rw [ordinary_cons hit] at hhead
    exact hhead
  | @it j conds rest hconds hrest =>
    rw [ordinary_cons_it (Instr.isIt_of_announced? hconds)] at hhead
    exfalso
    cases hrest with
    | nil => exact announced?_ne_nil hconds rfl
    | plain => exact announced?_ne_nil hconds rfl
    | it => exact announced?_ne_nil hconds rfl
    | debug hj =>
      rw [ordinary_cons (isIt_of_isDebug hj)] at hhead
      cases hhead
      rw [hdebug] at hj
      cases hj
    | member _ hmeets =>
      rw [ordinary_cons (isIt_of_needsGroup hmeets.needs)] at hhead
      cases hhead
      have hneeds := hmeets.needs
      rw [hbare] at hneeds
      cases hneeds

end Code
end ThumbHardening
