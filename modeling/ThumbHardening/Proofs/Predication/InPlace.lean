import ThumbHardening.Proofs.Predication.Repair

/-!
# Repairing in place

A repair takes out the `It` instructions that do not agree one at a time and may stop before it opens any
group. Each one that goes is the last of them, and what it could have covered lies behind it, so the order makes
no difference: one pass from the end leaves the same code. There was nothing to repair exactly if the code
was consistent, and then it is left as it is.
-/

namespace ThumbHardening
namespace Code

variable {code : Code} {conds : List Cond} {i : Instr}

/-! ### One at a time -/

/-- The last `It` that does not agree is behind the first instruction, or it is the first instruction. -/
theorem lastStale?_cons (i : Instr) (rest : Code) :
    lastStale? (i :: rest)
      = ((lastStale? rest).map (· + 1)).or (if i.isIt && (coverage i rest).isNone then some 0 else none) := by
  have hshift : (fun it => (coveredBy (i :: rest) it).isNone) ∘ (· + 1)
      = fun it => (coveredBy rest it).isNone := by
    funext it
    simp [coveredBy_succ]
  rw [lastStale?, itPositions_cons, List.reverse_append, List.find?_append, ← List.map_reverse,
    List.find?_map, hshift]
  congr 1
  cases i.isIt <;> simp [coveredBy_zero]

/-- Code in which every `It` agrees loses none. -/
theorem dropStale_eq_self (h : lastStale? code = none) : dropStale code = code := by
  induction code with
  | nil => rfl
  | cons i rest ih =>
    rw [lastStale?_cons, Option.or_eq_none_iff, Option.map_eq_none_iff] at h
    obtain ⟨hrest, hfirst⟩ := h
    rw [dropStale, ih hrest]
    split at hfirst
    · cases hfirst
    · next hkept => rw [if_neg hkept]

/-- The last `It` that does not agree is dropped in one pass as well. -/
theorem dropStale_eraseIdx {it : Nat} (h : lastStale? code = some it) :
    dropStale (code.eraseIdx it) = dropStale code := by
  induction code generalizing it with
  | nil => cases h
  | cons i rest ih =>
    rw [lastStale?_cons] at h
    cases hrest : lastStale? rest with
    | some later =>
      rw [hrest] at h
      cases h
      rw [List.eraseIdx_cons_succ, dropStale, dropStale, ih hrest]
    | none =>
      rw [hrest, Option.map_none, Option.none_or] at h
      split at h
      · next hstale =>
        cases h
        rw [List.eraseIdx_cons_zero, dropStale, dropStale_eq_self hrest, if_pos hstale]
      · cases h

theorem dropOneByOne_of_none (h : lastStale? code = none) : dropOneByOne code = (code, false) := by
  rw [dropOneByOne]
  split
  · rfl
  · next it hit =>
    rw [h] at hit
    cases hit

theorem dropOneByOne_of_some {it : Nat} (h : lastStale? code = some it) :
    dropOneByOne code = ((dropOneByOne (code.eraseIdx it)).1, true) := by
  rw [dropOneByOne]
  split
  · next hnone =>
    rw [h] at hnone
    cases hnone
  · next other hother =>
    rw [h] at hother
    cases hother
    rfl

/-- Dropping one at a time leaves what one pass leaves. -/
theorem dropOneByOne_fst (code : Code) : (dropOneByOne code).1 = dropStale code := by
  induction hlength : code.length using Nat.strongRecOn generalizing code with
  | ind length ih =>
    cases hstale : lastStale? code with
    | none => rw [dropOneByOne_of_none hstale, dropStale_eq_self hstale]
    | some it =>
      have hlt := length_eraseIdx_lastStale? hstale
      rw [dropOneByOne_of_some hstale]
      exact (ih _ (hlength ▸ hlt) _ rfl).trans (dropStale_eraseIdx hstale)

theorem dropOneByOne_snd_eq_false_iff : (dropOneByOne code).2 = false ↔ lastStale? code = none := by
  cases hstale : lastStale? code with
  | none => simp [dropOneByOne_of_none hstale]
  | some it => simp [dropOneByOne_of_some hstale]

/-! ### Nothing to open -/

/-- Whether every instruction that needs a group has one. -/
def NoneOpen (marked : List (Instr × Bool)) : Prop :=
  ∀ entry ∈ marked, entry.2 = true ∨ entry.1.Bare

theorem noneOpen_iff {marked : List (Instr × Bool)} :
    (marked.all fun entry => entry.2 || !entry.1.needsGroup) = true ↔ NoneOpen marked := by
  simp only [List.all_eq_true, Bool.or_eq_true, Bool.not_eq_true', NoneOpen, Instr.Bare]

/-- Where nothing is open, no group is opened. -/
theorem regroup_append {marked rest : List (Instr × Bool)} (h : NoneOpen marked) :
    regroup (marked ++ rest) = marked.map Prod.fst ++ regroup rest := by
  induction marked with
  | nil => rfl
  | cons entry marked ih =>
    obtain ⟨i, covered⟩ := entry
    obtain ⟨hfirst, hothers⟩ := List.forall_mem_cons.mp h
    have hkept : (covered || !i.needsGroup) = true := by simpa [Instr.Bare] using hfirst
    rw [List.cons_append, regroup, if_pos hkept, ih hothers]
    rfl

theorem regroup_eq_self {marked : List (Instr × Bool)} (h : NoneOpen marked) :
    regroup marked = marked.map Prod.fst := by
  have hall : regroup (marked ++ []) = _ := regroup_append h
  rwa [List.append_nil, regroup, List.append_nil] at hall

/-- With the marks at its groups, code is consistent if nothing is open. -/
theorem Marked.grouped_iff {marked : List (Instr × Bool)} (h : Marked conds marked) :
    Grouped Instr.Bare conds (marked.map Prod.fst) ↔ NoneOpen marked := by
  induction h with
  | nil => exact iff_of_true .nil fun entry hentry => by cases hentry
  | @plain i rest hit _ ih =>
    rw [NoneOpen, List.forall_mem_cons, ← NoneOpen, ← ih]
    refine ⟨fun h => ?_, fun h => ?_⟩
    · obtain ⟨hbare, hrest⟩ := h.of_not_it hit
      exact ⟨.inr hbare, hrest⟩
    · exact .plain hit (h.1.resolve_left Bool.false_ne_true) h.2
  | @it i conds rest hconds _ ih =>
    have hbare : i.Bare := by simp [Instr.Bare, Instr.needsGroup, Instr.isIt_of_announced? hconds]
    rw [NoneOpen, List.forall_mem_cons, ← NoneOpen, ← ih]
    refine ⟨fun h => ⟨.inr hbare, ?_⟩, fun h => .it hconds h.2⟩
    cases h with
    | plain hit _ _ =>
      rw [Instr.isIt_of_announced? hconds] at hit
      cases hit
    | it hother hrest =>
      rw [hconds] at hother
      cases hother
      exact hrest
  | @debug i c later rest hdebug _ ih =>
    rw [NoneOpen, List.forall_mem_cons, ← NoneOpen, ← ih]
    refine ⟨fun h => ?_, fun h => .debug hdebug (h.1.resolve_left Bool.false_ne_true) h.2⟩
    cases h with
    | debug _ hbare hrest => exact ⟨.inr hbare, hrest⟩
    | member hother =>
      rw [hdebug] at hother
      cases hother
  | @member i c later rest hdebug hmeets _ ih =>
    rw [NoneOpen, List.forall_mem_cons, ← NoneOpen, ← ih]
    refine ⟨fun h => ⟨.inl rfl, ?_⟩, fun h => .member hdebug hmeets h.2⟩
    cases h with
    | debug hother =>
      rw [hother] at hdebug
      cases hdebug
    | member _ _ hrest => exact hrest

/-! ### In place -/

/-- A repair in place repairs the code. -/
theorem repairInPlace_fst (code : Code) : (repairInPlace code).1 = repair code := by
  rw [repairInPlace, repair]
  simp only [dropOneByOne_fst]
  split
  · next hnone =>
    rw [regroup_eq_self (noneOpen_iff.mp hnone), map_fst_zip_coveredMarks]
  · rfl

theorem lastStale?_eq_none (h : code.isConsistent = true) : lastStale? code = none := by
  have hsettled := isConsistent_iff_settled.mp h
  rw [lastStale?, List.find?_eq_none]
  intro it hit
  have hagrees := hsettled.agree it (List.mem_reverse.mp hit)
  simpa [Option.isSome_iff_ne_none] using hagrees

/-- A repair in place finds something to do exactly if the code is not consistent. -/
theorem repairInPlace_snd_iff : (repairInPlace code).2 = true ↔ code.isConsistent = false := by
  rw [← not_iff_not, Bool.not_eq_true, Bool.not_eq_false, repairInPlace]
  simp only [dropOneByOne_fst]
  have hmarked := marked_dropStale code
  have hgrouped := hmarked.grouped_iff
  rw [map_fst_zip_coveredMarks] at hgrouped
  split
  · next hnone =>
    rw [dropOneByOne_snd_eq_false_iff]
    refine ⟨fun hstale => ?_, lastStale?_eq_none⟩
    rw [isConsistent_iff_grouped, ← dropStale_eq_self hstale]
    exact hgrouped.mpr (noneOpen_iff.mp hnone)
  · next hopen =>
    refine iff_of_false (by simp) fun hconsistent => hopen (noneOpen_iff.mpr (hgrouped.mp ?_))
    rw [dropStale_eq_self (lastStale?_eq_none hconsistent)]
    exact isConsistent_iff_grouped.mp hconsistent

/-- Consistent code is left as it is. -/
theorem repair_eq_self (h : code.isConsistent = true) : repair code = code := by
  have hgrouped := (marked_dropStale code).grouped_iff
  rw [map_fst_zip_coveredMarks, dropStale_eq_self (lastStale?_eq_none h)] at hgrouped
  rw [repair]
  simp only [dropStale_eq_self (lastStale?_eq_none h)]
  rw [regroup_eq_self (hgrouped.mp (isConsistent_iff_grouped.mp h)), map_fst_zip_coveredMarks]

end Code
end ThumbHardening
