import ThumbHardening.Liveness
import Mathlib.Data.List.Basic

/-!
# Liveness through a block

What one instruction and a list of instructions do to a set of live registers, read as membership. More
registers live behind means more registers live before, so the sets at the block starts can only grow.
-/

namespace ThumbHardening

/-! ### Sets of registers -/

namespace RegSet

instance : HasSubset RegSet where
  Subset s t := ∀ r, s.contains r = true → t.contains r = true

theorem size_le (s : RegSet) : s.size ≤ 17 :=
  List.length_filter_le s.contains PhysReg.all

theorem mem_toList_iff {s : RegSet} {r : PhysReg} : r ∈ s.toList ↔ s.contains r = true := by
  rw [toList, List.mem_filter]
  exact and_iff_right (PhysReg.mem_all r)

theorem size_lt_of_subset {s t : RegSet} (hsub : s ⊆ t) (hne : s ≠ t) : s.size < t.size := by
  have hlist : s.toList.Sublist t.toList := List.monotone_filter_right _ hsub
  refine Nat.lt_of_not_le fun hle => hne (ext_contains fun r => ?_)
  have heq := hlist.eq_of_length_le hle
  rw [Bool.eq_iff_iff, ← mem_toList_iff, heq, mem_toList_iff]

end RegSet

/-! ### Instructions -/

/-- Whether an instruction replaces the value of a register in any case. -/
def Instr.Overwrites (i : Instr) (r : PhysReg) : Prop :=
  i.isConditional = false ∧ i.physDefs.contains r = true

theorem Instr.contains_liveBefore_iff {i : Instr} {after : RegSet} {r : PhysReg} :
    (i.liveBefore after).contains r = true
      ↔ i.physUses.contains r = true ∨ ¬i.Overwrites r ∧ after.contains r = true := by
  rw [liveBefore, Overwrites]
  cases hpred : i.isConditional with
  | true =>
    simp only [if_true, RegSet.contains_union, Bool.or_eq_true, Bool.true_eq_false, false_and,
      not_false_eq_true, true_and]
    exact or_comm
  | false =>
    simp only [Bool.false_eq_true, if_false, RegSet.contains_union, RegSet.contains_diff,
      Bool.or_eq_true, Bool.and_eq_true, Bool.not_eq_true', true_and, Bool.not_eq_true]
    exact or_comm.trans (or_congr_right and_comm)

theorem Instr.liveBefore_mono (i : Instr) {s t : RegSet} (h : s ⊆ t) :
    i.liveBefore s ⊆ i.liveBefore t := by
  intro r hr
  rw [contains_liveBefore_iff] at hr ⊢
  exact hr.imp_right fun hkept => ⟨hkept.1, h r hkept.2⟩

/-! ### Code -/

theorem Code.liveBefore_mono (code : Code) {s t : RegSet} (h : s ⊆ t) :
    Code.liveBefore code s ⊆ Code.liveBefore code t := by
  induction code with
  | nil => exact h
  | cons i rest ih => exact i.liveBefore_mono ih

/-- Whether code replaces the value of a register in any case before it looks at it. -/
inductive Code.OverwritesFirst (r : PhysReg) : Code → Prop
  | here {i rest} : i.physUses.contains r = false → i.Overwrites r → OverwritesFirst r (i :: rest)
  | later {i rest} : i.physUses.contains r = false → OverwritesFirst r rest →
      OverwritesFirst r (i :: rest)

theorem Code.OverwritesFirst.exists_overwrites {r : PhysReg} {code : Code}
    (h : Code.OverwritesFirst r code) : ∃ i ∈ code, i.Overwrites r := by
  induction h with
  | here _ hover => exact ⟨_, List.mem_cons_self, hover⟩
  | later _ _ ih =>
    obtain ⟨i, hi, hover⟩ := ih
    exact ⟨i, List.mem_cons_of_mem _ hi, hover⟩

theorem Code.not_contains_liveBefore {r : PhysReg} {code : Code} (h : Code.OverwritesFirst r code)
    (after : RegSet) : (Code.liveBefore code after).contains r = false := by
  induction h with
  | here huses hover =>
    rw [← Bool.not_eq_true]
    change ¬(Instr.liveBefore _ _).contains r = true
    rw [Instr.contains_liveBefore_iff]
    intro hcase
    rcases hcase with hread | ⟨hkept, -⟩
    · rw [huses] at hread
      cases hread
    · exact hkept hover
  | later huses _ ih =>
    rw [← Bool.not_eq_true] at ih ⊢
    change ¬(Instr.liveBefore _ _).contains r = true
    rw [Instr.contains_liveBefore_iff]
    intro hcase
    rcases hcase with hread | ⟨-, hlive⟩
    · rw [huses] at hread
      cases hread
    · exact ih hlive

/-- What is live behind code is live before it unless the code overwrites it first. -/
theorem Code.contains_liveBefore {r : PhysReg} {code : Code} (h : ¬Code.OverwritesFirst r code)
    {after : RegSet} (hafter : after.contains r = true) :
    (Code.liveBefore code after).contains r = true := by
  induction code with
  | nil => exact hafter
  | cons i rest ih =>
    change (Instr.liveBefore i _).contains r = true
    rw [Instr.contains_liveBefore_iff]
    cases huses : i.physUses.contains r with
    | true => exact .inl rfl
    | false =>
      refine .inr ⟨fun hover => h (.here huses hover), ih fun hrest => h (.later huses hrest)⟩

/-! ### Blocks -/

theorem Block.contains_liveOut_iff {b : Block} {live : LiveMap} {r : PhysReg} :
    (b.liveOut live).contains r = true
      ↔ ∃ edge ∈ b.edges, (live.get edge.target).contains r = true := by
  have hfold (edges : List Edge) (s : RegSet) :
      (edges.foldl (fun regs edge => regs.union (live.get edge.target)) s).contains r = true
        ↔ s.contains r = true ∨ ∃ edge ∈ edges, (live.get edge.target).contains r = true := by
    induction edges generalizing s with
    | nil => simp
    | cons edge rest ih => simp [ih, or_assoc]
  rw [liveOut, hfold]
  simp

end ThumbHardening
