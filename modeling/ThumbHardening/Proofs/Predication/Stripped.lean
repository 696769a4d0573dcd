import ThumbHardening.Proofs.Predication.Grouped

/-!
# Code without debug information

Debug information produces no code, so it should not matter where it stands or whether it is there. For groups
it does not, as long as it has no predicate: a group goes on behind it, and outside of groups it is an
instruction like any other that needs none.
-/

namespace ThumbHardening
namespace Code

/-- What produces code. -/
def withoutDebug (code : Code) : Code :=
  code.filter fun i => !i.isDebug

/-- Code from which some debug information without a predicate has been deleted. -/
inductive Stripped : Code → Code → Prop
  | nil : Stripped [] []
  | keep {code stripped : Code} (i : Instr) : Stripped code stripped → Stripped (i :: code) (i :: stripped)
  | drop {code stripped : Code} {i : Instr} : i.isDebug = true → i.isConditional = false →
      Stripped code stripped → Stripped (i :: code) stripped

variable {outside : Instr → Prop} {code stripped rest rest' : Code} {conds : List Cond} {i : Instr}

@[simp] theorem withoutDebug_nil : withoutDebug [] = [] :=
  rfl

theorem withoutDebug_cons (i : Instr) (code : Code) :
    withoutDebug (i :: code) = if i.isDebug then withoutDebug code else i :: withoutDebug code := by
  rw [withoutDebug, List.filter_cons]
  cases i.isDebug <;> rfl

theorem withoutDebug_append (front back : Code) :
    withoutDebug (front ++ back) = withoutDebug front ++ withoutDebug back :=
  List.filter_append ..

theorem withoutDebug_of_isDebug (hdebug : ∀ i ∈ code, i.isDebug = true) : withoutDebug code = [] :=
  List.filter_eq_nil_iff.mpr fun i hi => by simp [hdebug i hi]

theorem withoutDebug_withoutDebug (code : Code) : withoutDebug (withoutDebug code) = withoutDebug code :=
  List.filter_eq_self.mpr fun _ hi => (List.mem_filter.mp hi).2

theorem Stripped.withoutDebug_eq (h : Stripped code stripped) : stripped.withoutDebug = code.withoutDebug := by
  induction h with
  | nil => rfl
  | keep i _ ih => rw [withoutDebug_cons, withoutDebug_cons, ih]
  | drop hdebug _ _ ih => rw [withoutDebug_cons, if_pos hdebug, ih]

/-! ### Groups -/

/-- Debug information that may stand outside of groups changes nothing about what is still to be met. -/
theorem grouped_cons_debug_iff (hdebug : i.isDebug = true) (houtside : outside i) :
    Grouped outside conds (i :: rest) ↔ Grouped outside conds rest := by
  constructor
  · intro h
    cases h with
    | plain _ _ hrest => exact hrest
    | it hconds _ =>
      have hit := isIt_of_isDebug hdebug
      rw [Instr.isIt_of_announced? hconds] at hit
      cases hit
    | debug _ _ hrest => exact hrest
    | member hmember _ _ =>
      rw [hdebug] at hmember
      cases hmember
  · intro h
    cases conds with
    | nil => exact .plain (isIt_of_isDebug hdebug) houtside h
    | cons c later => exact .debug hdebug houtside h

/-- What an instruction leaves to be met does not depend on the code behind it. -/
theorem Grouped.cons_imp (h : Grouped outside conds (i :: rest))
    (hrest : ∀ conds, Grouped outside conds rest → Grouped outside conds rest') :
    Grouped outside conds (i :: rest') := by
  cases h with
  | plain hit houtside h => exact .plain hit houtside (hrest _ h)
  | it hconds h => exact .it hconds (hrest _ h)
  | debug hdebug houtside h => exact .debug hdebug houtside (hrest _ h)
  | member hdebug hmeets h => exact .member hdebug hmeets (hrest _ h)

theorem Stripped.grouped_iff (h : Stripped code stripped) (conds : List Cond) :
    Grouped Instr.Bare conds stripped ↔ Grouped Instr.Bare conds code := by
  induction h generalizing conds with
  | nil => rfl
  | keep i _ ih =>
    exact ⟨fun h => h.cons_imp fun conds => (ih conds).mp, fun h => h.cons_imp fun conds => (ih conds).mpr⟩
  | @drop _ _ i hdebug hfree _ ih =>
    have hbare : i.Bare := by simp [Instr.Bare, Instr.needsGroup, hfree]
    rw [grouped_cons_debug_iff hdebug hbare, ih]

theorem Stripped.isConsistent_eq (h : Stripped code stripped) : stripped.isConsistent = code.isConsistent := by
  rw [Bool.eq_iff_iff, isConsistent_iff_grouped, isConsistent_iff_grouped, h.grouped_iff]

end Code
end ThumbHardening
