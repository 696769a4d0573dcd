import ThumbHardening.Proofs.Predication.Kept

/-!
# Where control leaves a group

Execution may leave a group only behind its last instruction. What ends a group is decided by opcodes, so branches,
calls, returns and tail calls are last in every group that agrees. A function is also left by taking the program
counter from the stack, which the opcode does not tell. Such an instruction is checked nowhere, and a repair
goes on with the group behind it.
-/

namespace ThumbHardening

/-- Whether execution may go on elsewhere than behind the instruction: by a branch, by a call, or by leaving the
function. -/
def Instr.transfersControl (i : Instr) : Bool :=
  i.opcode = .branch || i.opcode = .branchCond || i.opcode.isCall || i.isReturn

theorem Instr.endsGroup_or_popsPc {i : Instr} (h : i.transfersControl = true) :
    i.opcode.endsGroup = true ∨ i.popsPc = true := by
  simp only [transfersControl, isReturn, Bool.or_eq_true, decide_eq_true_eq] at h
  rcases h with ((hbranch | hcond) | hcall) | (hret | htail) | hpop
  · exact .inl (by rw [hbranch]; rfl)
  · exact .inl (by rw [hcond]; rfl)
  · exact .inl (by revert hcall; cases i.opcode <;> decide)
  · exact .inl (by rw [hret]; rfl)
  · exact .inl (by revert htail; cases i.opcode <;> decide)
  · exact .inr hpop

theorem Instr.transfersControl_of_popsPc {i : Instr} (h : i.popsPc = true) : i.transfersControl = true := by
  simp [transfersControl, isReturn, h]

theorem Instr.endsGroup_of_popsPc {i : Instr} (h : i.popsPc = true) : i.opcode.endsGroup = false := by
  simp only [popsPc, Bool.and_eq_true, decide_eq_true_eq] at h
  rw [h.1]
  rfl

namespace Code

/-- Whether each covered instruction of a kind is the last one that its `It` covers. -/
def LastInGroups (kind : Instr → Bool) (code : Code) : Prop :=
  ∀ it covered, coveredBy code it = some covered →
    ∀ k pos i, covered[k]? = some pos → code[pos]? = some i → kind i = true → k + 1 = covered.length

variable {code rest : Code} {conds : List Cond} {positions : List Nat} {i j : Instr}

/-! ### Opcodes that end a group -/

theorem last_of_matchConds (h : matchConds conds code = some positions) {k pos : Nat}
    (hpos : positions[k]? = some pos) (hi : code[pos]? = some i) (hends : i.opcode.endsGroup = true) :
    k + 1 = positions.length := by
  induction code generalizing conds positions k pos with
  | nil => simp at hi
  | cons first rest ih =>
    cases conds with
    | nil =>
      rw [matchConds_nil] at h
      cases h
      simp at hpos
    | cons c later =>
      cases hdebug : first.isDebug with
      | true =>
        rw [matchConds_debug hdebug] at h
        obtain ⟨ps, hrest, rfl⟩ := Option.map_eq_some_iff.mp h
        rw [List.getElem?_map] at hpos
        obtain ⟨p, hp, rfl⟩ := Option.map_eq_some_iff.mp hpos
        rw [List.length_map]
        exact ih hrest hp hi
      | false =>
        have hmeets := meets_of_matchConds hdebug h
        rw [matchConds_member hdebug hmeets] at h
        obtain ⟨ps, hrest, rfl⟩ := Option.map_eq_some_iff.mp h
        cases k with
        | zero =>
          cases hpos
          cases hi
          rw [hmeets.last hends, matchConds_nil] at hrest
          cases hrest
          rfl
        | succ k =>
          rw [List.getElem?_cons_succ, List.getElem?_map] at hpos
          obtain ⟨p, hp, rfl⟩ := Option.map_eq_some_iff.mp hpos
          rw [List.length_cons, List.length_map, ← ih hrest hp hi]

/-- The check of a group finds every opcode that ends it too early. -/
theorem lastInGroups_endsGroup (code : Code) : LastInGroups (fun i => i.opcode.endsGroup) code := by
  intro it covered hcovered k pos i hpos hi hends
  rw [coveredBy] at hcovered
  obtain ⟨first, -, hrest⟩ := Option.bind_eq_some_iff.mp hcovered
  obtain ⟨positions, hcoverage, hshift⟩ := Option.bind_eq_some_iff.mp hrest
  cases hshift
  rw [coverage_eq] at hcoverage
  obtain ⟨conds, -, hmatch⟩ := Option.bind_eq_some_iff.mp hcoverage
  rw [List.getElem?_map] at hpos
  obtain ⟨p, hp, rfl⟩ := Option.map_eq_some_iff.mp hpos
  rw [List.length_map]
  refine last_of_matchConds hmatch hp ?_ hends
  rw [List.getElem?_drop, Nat.add_comm]
  exact hi

/-- In all code, repaired and accepted code included, what transfers control stands last in its group unless it
takes the program counter from the stack. So control leaves groups only at their ends exactly if no instruction
takes the program counter from the stack in front of another one of its group. -/
theorem control_leaves_at_end_iff (code : Code) :
    LastInGroups (fun i => i.transfersControl && !i.popsPc) code ∧
      (LastInGroups Instr.transfersControl code ↔ LastInGroups Instr.popsPc code) := by
  have hopcodes := lastInGroups_endsGroup code
  refine ⟨?_, fun h => ?_, fun h => ?_⟩
  · intro it covered hcovered k pos i hpos hi hkind
    obtain ⟨htransfers, hstays⟩ := Bool.and_eq_true_iff.mp hkind
    refine hopcodes it covered hcovered k pos i hpos hi ?_
    exact (Instr.endsGroup_or_popsPc htransfers).resolve_right (by simpa using hstays)
  · intro it covered hcovered k pos i hpos hi hpops
    exact h it covered hcovered k pos i hpos hi (Instr.transfersControl_of_popsPc hpops)
  · intro it covered hcovered k pos i hpos hi htransfers
    rcases Instr.endsGroup_or_popsPc htransfers with hends | hpops
    · exact hopcodes it covered hcovered k pos i hpos hi hends
    · exact h it covered hcovered k pos i hpos hi hpops

/-! ### Groups that go on -/

/-- An instruction that needs a group is a member of one. -/
theorem Grouped.of_needsGroup (h : Grouped Instr.Bare conds (i :: rest)) (hi : i.needsGroup = true) :
    ∃ c later, conds = c :: later ∧ i.isDebug = false ∧ i.Meets c later ∧ Grouped Instr.Bare later rest := by
  cases h with
  | plain _ hbare =>
    rw [hbare] at hi
    cases hi
  | it hconds =>
    have hit := Instr.isIt_of_announced? hconds
    rw [isIt_of_needsGroup hi] at hit
    cases hit
  | debug _ hbare =>
    rw [hbare] at hi
    cases hi
  | member hdebug hmeets hrest => exact ⟨_, _, rfl, hdebug, hmeets, hrest⟩

/-- In consistent code, an `It` in front of two instructions that need a group covers both. -/
theorem coveredBy_of_isConsistent {first : Instr} (h : isConsistent (first :: i :: j :: rest) = true)
    (hfirst : first.isIt = true) (hi : i.needsGroup = true) (hj : j.needsGroup = true) :
    ∃ later, coveredBy (first :: i :: j :: rest) 0 = some (1 :: 2 :: later) := by
  cases isConsistent_iff_grouped.mp h with
  | plain hit =>
    rw [hfirst] at hit
    cases hit
  | it hconds hbehind =>
    obtain ⟨c, later, rfl, hdebug, hmeets, hbehind⟩ := hbehind.of_needsGroup hi
    obtain ⟨c', later', rfl, hdebug', hmeets', hbehind⟩ := hbehind.of_needsGroup hj
    obtain ⟨positions, hmatch, -⟩ := hbehind.settled
    rw [coveredBy_zero, coverage_eq, hconds, Option.bind_some, matchConds_member hdebug hmeets,
      matchConds_member hdebug' hmeets', hmatch]
    exact ⟨_, rfl⟩

/-- A repair puts an instruction into the group in front of it, unless the opcode ends that group. -/
theorem exists_repair_joined (hi : i.needsGroup = true) (hends : i.opcode.endsGroup = false)
    (hj : j.needsGroup = true) (hdebug : j.isDebug = false)
    (hpred : j.pred = i.pred ∨ j.pred = i.pred.inverse) (rest : Code) :
    ∃ first tail, repair (i :: j :: rest) = first :: i :: j :: tail ∧ first.isIt = true := by
  have hkept : dropStale (i :: j :: rest) = i :: j :: dropStale rest := by
    simp [dropStale, isIt_of_needsGroup hi, isIt_of_needsGroup hj]
  have hmarks : coveredMarks (i :: j :: dropStale rest) = false :: false :: coveredMarks (dropStale rest) := by
    rw [coveredMarks_cons, coveredMarks_cons, coverage_eq_none (isIt_of_needsGroup hi),
      coverage_eq_none (isIt_of_needsGroup hj)]
    rfl
  have hroom : groupRoom i = 3 := by rw [groupRoom, hends]; rfl
  obtain ⟨members, hmembers⟩ : ∃ members behind, takeMembers i.pred 3
      ((j, false) :: (dropStale rest).zip (coveredMarks (dropStale rest))) = (j :: members, behind) := by
    have hjoins : ¬(false || !j.needsGroup || !(j.pred = i.pred || j.pred = i.pred.inverse)) = true := by
      rcases hpred with h | h <;> simp [hj, h]
    rw [takeMembers, if_neg (by simp [hdebug]), if_neg hjoins]
    split
    · exact ⟨[], _, rfl⟩
    · exact ⟨_, _, rfl⟩
  obtain ⟨behind, hmembers⟩ := hmembers
  refine ⟨openGroup i (j :: members), members ++ regroup behind, ?_, rfl⟩
  rw [repair]
  simp only [hkept, hmarks, List.zip_cons_cons]
  rw [regroup, if_neg (by simp [hi]), hroom]
  simp only [hmembers, List.cons_append]

/-- A predicated instruction that takes the program counter from the stack gets company whenever the next
instruction needs a group under the same condition or the opposite one. -/
theorem not_lastInGroups_repair (hi : i.needsGroup = true) (hpops : i.popsPc = true) (hj : j.needsGroup = true)
    (hpred : j.pred = i.pred ∨ j.pred = i.pred.inverse)
    (hbare : ∀ k ∈ i :: j :: rest, k.isDebug = true → k.Bare) :
    ¬LastInGroups Instr.transfersControl (repair (i :: j :: rest)) := by
  have hdebug : j.isDebug = false := by
    by_contra hdebug
    rw [hbare j (by simp) (by simpa using hdebug)] at hj
    cases hj
  obtain ⟨first, tail, hrepair, hfirst⟩ :=
    exists_repair_joined hi (Instr.endsGroup_of_popsPc hpops) hj hdebug hpred rest
  have hconsistent : (repair (i :: j :: rest)).isConsistent = true := isConsistent_repair_iff.mpr hbare
  rw [hrepair] at hconsistent ⊢
  obtain ⟨later, hcovered⟩ := coveredBy_of_isConsistent hconsistent hfirst hi hj
  intro hlast
  have hlength := hlast 0 _ hcovered 0 1 i rfl rfl (Instr.transfersControl_of_popsPc hpops)
  simp at hlength

/-- A function that is left under a condition, in front of a move under the same condition. -/
def poppedGroup : Code :=
  [.it .eq 4, { Instr.pop [.pc] with pred := .eq }, { Instr.mov (.phys .r0) (.phys .r1) with pred := .eq }, .ret]

/-- Neither is control transferred only at the ends of groups in repaired code, nor in all consistent code. -/
theorem not_control_leaves_at_end :
    (¬∀ code : Code, (∀ i ∈ code, i.isDebug = true → i.isConditional = false) →
      LastInGroups Instr.transfersControl (repair code)) ∧
    ¬∀ code : Code, code.isConsistent = true → LastInGroups Instr.transfersControl code := by
  refine ⟨fun hclaim => ?_, fun hclaim => ?_⟩
  · refine not_lastInGroups_repair (by decide) (by decide) (by decide) (by decide) ?_
      (hclaim poppedGroup.tail (by decide))
    unfold Instr.Bare
    decide
  · have hlast := hclaim poppedGroup (by decide) 0 [1, 2] (by decide) 0 1 _ rfl rfl (by decide)
    cases hlast

end Code
end ThumbHardening
