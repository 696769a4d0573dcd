import ThumbHardening.Proofs.Predication.Kept

/-!
# Repairs are local

Consistent code in front of other code or behind it takes no part in a repair: its groups agree with it whatever
stands around them, and no group reaches into it from outside. So a repair does to a piece of code between
consistent code what it does to that piece alone.
-/

namespace ThumbHardening
namespace Code

variable {outside : Instr → Prop} {front back code rest : Code} {conds : List Cond} {i : Instr}
  {marked marked' : List (Instr × Bool)}

/-! ### Coverage -/

theorem matchConds_bare (hdebug : i.isDebug = false) (hbare : i.Bare) (c : Cond) (later : List Cond) (rest : Code) :
    matchConds (c :: later) (i :: rest) = none := by
  cases hmatch : matchConds (c :: later) (i :: rest) with
  | none => rfl
  | some positions =>
    have hneeds := (meets_of_matchConds hdebug hmatch).needs
    rw [hbare] at hneeds
    cases hneeds

/-- Consistent code meets no condition from in front of it. -/
theorem matchConds_eq_none (h : Grouped Instr.Bare [] code) (c : Cond) (later : List Cond) :
    matchConds (c :: later) code = none := by
  induction code with
  | nil => rfl
  | cons i rest ih =>
    cases h with
    | plain hit hbare hrest =>
      cases hdebug : i.isDebug with
      | true => rw [matchConds_debug hdebug, ih hrest, Option.map_none]
      | false => exact matchConds_bare hdebug hbare c later rest
    | it hconds _ =>
      have hit := Instr.isIt_of_announced? hconds
      exact matchConds_bare (isDebug_of_isIt hit) (by simp [Instr.Bare, Instr.needsGroup, hit]) c later rest

theorem matchConds_append (hback : Grouped Instr.Bare [] back) (conds : List Cond) (code : Code) :
    matchConds conds (code ++ back) = matchConds conds code := by
  induction code generalizing conds with
  | nil =>
    cases conds with
    | nil => rw [matchConds_nil, matchConds_nil]
    | cons c later => exact matchConds_eq_none hback c later
  | cons i rest ih =>
    cases conds with
    | nil => rw [matchConds_nil, matchConds_nil]
    | cons c later => simp only [List.cons_append, matchConds, ih]

theorem coverage_append (hback : Grouped Instr.Bare [] back) (i : Instr) (code : Code) :
    coverage i (code ++ back) = coverage i code := by
  simp only [coverage_eq, matchConds_append hback]

/-! ### Groups that do not agree -/

/-- Nothing is dropped from consistent code in front, since its conditions are met there. -/
theorem dropStale_append_behind (h : Grouped outside conds front) (code : Code) :
    dropStale (front ++ code) = front ++ dropStale code ∧
      ∃ positions, matchConds conds (front ++ dropStale code) = some positions := by
  induction h with
  | nil => exact ⟨rfl, [], matchConds_nil _⟩
  | @plain i rest hit _ _ ih =>
    refine ⟨?_, [], matchConds_nil _⟩
    rw [List.cons_append, dropStale, ih.1, if_neg (by simp [hit])]
    rfl
  | @it i conds rest hconds _ ih =>
    obtain ⟨hrest, positions, hmatch⟩ := ih
    refine ⟨?_, [], matchConds_nil _⟩
    have hagrees : coverage i (rest ++ dropStale code) = some positions := by
      rw [coverage_eq, hconds]
      exact hmatch
    rw [List.cons_append, dropStale, hrest, if_neg (by simp [hagrees])]
    rfl
  | @debug i c later rest hdebug _ _ ih =>
    obtain ⟨hrest, positions, hmatch⟩ := ih
    refine ⟨?_, positions.map (· + 1), ?_⟩
    · rw [List.cons_append, dropStale, hrest, if_neg (by simp [isIt_of_isDebug hdebug])]
      rfl
    · rw [List.cons_append, matchConds_debug hdebug, hmatch, Option.map_some]
  | @member i c later rest hdebug hmeets _ ih =>
    obtain ⟨hrest, positions, hmatch⟩ := ih
    refine ⟨?_, 0 :: positions.map (· + 1), ?_⟩
    · rw [List.cons_append, dropStale, hrest, if_neg (by simp [isIt_of_needsGroup hmeets.needs])]
      rfl
    · rw [List.cons_append, matchConds_member hdebug hmeets, hmatch, Option.map_some]

theorem dropStale_append_front (hback : Grouped Instr.Bare [] back) (code : Code) :
    dropStale (code ++ back) = dropStale code ++ back := by
  induction code with
  | nil => exact dropStale_eq_self (lastStale?_eq_none (isConsistent_iff_grouped.mpr hback))
  | cons i rest ih =>
    rw [List.cons_append, dropStale, dropStale, ih, coverage_append hback]
    split <;> rfl

/-! ### Marks -/

/-- The instructions with the marks that a repair looks at. -/
def marks (code : Code) : List (Instr × Bool) :=
  code.zip (coveredMarks code)

theorem map_fst_marks (code : Code) : code.marks.map Prod.fst = code :=
  map_fst_zip_coveredMarks code

theorem repair_eq (code : Code) : repair code = regroup (dropStale code).marks := rfl

theorem Grouped.marked_marks (h : Grouped outside [] code) : Marked [] code.marks :=
  h.marked_zip

theorem Marked.append (h : Marked conds marked) (h' : Marked [] marked') : Marked conds (marked ++ marked') := by
  induction h with
  | nil => exact h'
  | plain hit _ ih => exact .plain hit ih
  | it hconds _ ih => exact .it hconds ih
  | debug hdebug _ ih => exact .debug hdebug ih
  | member hdebug hmeets _ ih => exact .member hdebug hmeets ih

/-- The code determines the marks. -/
theorem Marked.unique (h : Marked conds marked) (h' : Marked conds marked')
    (hfst : marked'.map Prod.fst = marked.map Prod.fst) : marked' = marked := by
  induction h generalizing marked' with
  | nil => exact List.map_eq_nil_iff.mp hfst
  | @plain i rest hit _ ih =>
    cases h' with
    | nil => cases hfst
    | plain _ hrest =>
      obtain ⟨rfl, hothers⟩ := List.cons.inj hfst
      rw [ih hrest hothers]
    | it hconds =>
      obtain ⟨rfl, -⟩ := List.cons.inj hfst
      rw [Instr.isIt_of_announced? hconds] at hit
      cases hit
  | @it i conds rest hconds _ ih =>
    cases h' with
    | nil => cases hfst
    | plain hit =>
      obtain ⟨rfl, -⟩ := List.cons.inj hfst
      rw [Instr.isIt_of_announced? hconds] at hit
      cases hit
    | it hother hrest =>
      obtain ⟨rfl, hothers⟩ := List.cons.inj hfst
      obtain rfl := Option.some.inj (hother.symm.trans hconds)
      rw [ih hrest hothers]
  | @debug i c later rest hdebug _ ih =>
    cases h' with
    | debug _ hrest =>
      obtain ⟨rfl, hothers⟩ := List.cons.inj hfst
      rw [ih hrest hothers]
    | member hother =>
      obtain ⟨rfl, -⟩ := List.cons.inj hfst
      rw [hdebug] at hother
      cases hother
  | @member i c later rest hdebug _ _ ih =>
    cases h' with
    | debug hother =>
      obtain ⟨rfl, -⟩ := List.cons.inj hfst
      rw [hdebug] at hother
      cases hother
    | member _ _ hrest =>
      obtain ⟨rfl, hothers⟩ := List.cons.inj hfst
      rw [ih hrest hothers]

theorem Grouped.noneOpen_marks (h : Grouped Instr.Bare [] code) : NoneOpen code.marks := by
  apply h.marked_marks.grouped_iff.mp
  rw [map_fst_marks]
  exact h

theorem marks_append (h : Grouped outside [] (front ++ (code ++ back))) (hfront : Marked [] front.marks)
    (hcode : Marked [] code.marks) (hback : Marked [] back.marks) :
    (front ++ (code ++ back)).marks = front.marks ++ (code.marks ++ back.marks) := by
  apply (hfront.append (hcode.append hback)).unique h.marked_marks
  simp only [List.map_append, map_fst_marks]

/-! ### Opening groups -/

/-- Every group stops in front of what is covered or needs no group. -/
theorem takeMembers_noneOpen (h : NoneOpen marked) (first : Cond) (room : Nat) :
    takeMembers first room marked = ([], marked) := by
  induction marked generalizing room with
  | nil => cases room <;> rfl
  | cons entry rest ih =>
    obtain ⟨i, covered⟩ := entry
    obtain ⟨hfirst, hrest⟩ := List.forall_mem_cons.mp h
    cases room with
    | zero => rfl
    | succ room =>
      have hstop : (covered || !i.needsGroup || !(i.pred = first || i.pred = first.inverse)) = true := by
        rcases hfirst with hcovered | hbare
        · simp [show covered = true from hcovered]
        · simp [show i.needsGroup = false from hbare]
      cases hdebug : i.isDebug with
      | true => rw [takeMembers, if_pos hdebug, ih hrest]
      | false => rw [takeMembers, if_neg (by simp [hdebug]), if_pos hstop]

/-! ### Repairs -/

/-- Between consistent code, a repair does what it does to the code alone. -/
theorem repair_append (hfront : Grouped Instr.Bare [] front) (hback : Grouped Instr.Bare [] back) (code : Code) :
    repair (front ++ (code ++ back)) = front ++ (repair code ++ back) := by
  have hkept : dropStale (front ++ (code ++ back)) = front ++ (dropStale code ++ back) := by
    rw [(dropStale_append_behind hfront _).1, dropStale_append_front hback]
  have hmarks : (front ++ (dropStale code ++ back)).marks
      = front.marks ++ ((dropStale code).marks ++ back.marks) :=
    marks_append (hkept ▸ grouped_dropStale _) hfront.marked_marks (marked_dropStale code) hback.marked_marks
  have hopen := hback.noneOpen_marks
  rw [repair_eq, hkept, hmarks, regroup_append hfront.noneOpen_marks, map_fst_marks,
    regroup_append_of_stop (takeMembers_noneOpen hopen), regroup_eq_self hopen, map_fst_marks, ← repair_eq]

end Code
end ThumbHardening
