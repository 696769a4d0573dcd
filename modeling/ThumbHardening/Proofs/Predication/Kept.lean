import ThumbHardening.Proofs.Predication.InPlace
import ThumbHardening.Proofs.Predication.Insertion

/-!
# What a repair keeps

The instructions that an `It` covers stand directly behind it, with nothing but debug information between them.
Neither the `It` instructions that a repair drops nor those that it puts in stand in such a stretch of code, so a
group that agrees goes through a repair as it is. Together with the repair in place this is all that a repair
does: code without predicated debug information becomes consistent, changes only if it was not, and keeps its
instructions and the groups it had.
-/

namespace ThumbHardening
namespace Code

variable {code behind : Code} {conds : List Cond} {i : Instr} {positions : List Nat}

/-! ### Stretches of code -/

/-- The stretch of code from the first instruction that meets these conditions to the last one. -/
inductive Stretch : (conds : List Cond) → Code → Prop
  | nil : Stretch [] []
  | debug {i c later group} : i.isDebug = true → Stretch (c :: later) group →
      Stretch (c :: later) (i :: group)
  | member {i c later group} : i.isDebug = false → i.Meets c later → Stretch later group →
      Stretch (c :: later) (i :: group)

theorem Stretch.isIt_eq_false {group : Code} (h : Stretch conds group) : ∀ i ∈ group, i.isIt = false := by
  induction h with
  | nil => simp
  | debug hdebug _ ih => exact List.forall_mem_cons.mpr ⟨isIt_of_isDebug hdebug, ih⟩
  | member _ hmeets _ ih => exact List.forall_mem_cons.mpr ⟨isIt_of_needsGroup hmeets.needs, ih⟩

/-- What stands behind a stretch does not matter to it. -/
theorem Stretch.matchConds_append {group : Code} (h : Stretch conds group) :
    ∃ positions, ∀ behind, matchConds conds (group ++ behind) = some positions := by
  induction h with
  | nil => exact ⟨[], matchConds_nil⟩
  | debug hdebug _ ih =>
    obtain ⟨positions, hmatch⟩ := ih
    refine ⟨positions.map (· + 1), fun behind => ?_⟩
    rw [List.cons_append, matchConds_debug hdebug, hmatch, Option.map_some]
  | member hdebug hmeets _ ih =>
    obtain ⟨positions, hmatch⟩ := ih
    refine ⟨0 :: positions.map (· + 1), fun behind => ?_⟩
    rw [List.cons_append, matchConds_member hdebug hmeets, hmatch, Option.map_some]

/-- Where conditions are met, the code starts with a stretch for them, which holds all positions. -/
theorem exists_stretch_of_matchConds (h : matchConds conds code = some positions) :
    ∃ group behind, code = group ++ behind ∧ Stretch conds group ∧ ∀ pos ∈ positions, pos < group.length := by
  induction code generalizing conds positions with
  | nil =>
    cases conds with
    | nil => cases h; exact ⟨[], [], rfl, .nil, by simp⟩
    | cons => cases h
  | cons i rest ih =>
    cases conds with
    | nil => cases h; exact ⟨[], i :: rest, rfl, .nil, by simp⟩
    | cons c later =>
      cases hdebug : i.isDebug with
      | true =>
        rw [matchConds_debug hdebug] at h
        obtain ⟨ps, hrest, rfl⟩ := Option.map_eq_some_iff.mp h
        obtain ⟨group, behind, rfl, hgroup, hlt⟩ := ih hrest
        exact ⟨i :: group, behind, rfl, .debug hdebug hgroup, by simpa using hlt⟩
      | false =>
        have hmeets := meets_of_matchConds hdebug h
        rw [matchConds_member hdebug hmeets] at h
        obtain ⟨ps, hrest, rfl⟩ := Option.map_eq_some_iff.mp h
        obtain ⟨group, behind, rfl, hgroup, hlt⟩ := ih hrest
        exact ⟨i :: group, behind, rfl, .member hdebug hmeets hgroup, by simpa using hlt⟩

/-! ### Dropping and opening around a group -/

/-- What is dropped in front of code does not change what is left of the code. -/
theorem exists_dropStale_append (front code : Code) :
    ∃ front', dropStale (front ++ code) = front' ++ dropStale code ∧ ordinary front' = ordinary front := by
  induction front with
  | nil => exact ⟨[], rfl, rfl⟩
  | cons i rest ih =>
    obtain ⟨front', hkept, hordinary⟩ := ih
    rw [List.cons_append, dropStale, hkept]
    split
    · next hstale =>
      refine ⟨front', rfl, ?_⟩
      rw [hordinary, ordinary_cons_it (Bool.and_eq_true_iff.mp hstale).1]
    · refine ⟨i :: front', rfl, ?_⟩
      rw [ordinary, ordinary, List.filter_cons, List.filter_cons, ← ordinary, ← ordinary, hordinary]

theorem dropStale_append {group : Code} (h : ∀ i ∈ group, i.isIt = false) (behind : Code) :
    dropStale (group ++ behind) = group ++ dropStale behind := by
  induction group with
  | nil => rfl
  | cons i rest ih =>
    obtain ⟨hit, hrest⟩ := List.forall_mem_cons.mp h
    rw [List.cons_append, dropStale, ih hrest, if_neg (by simp [hit])]
    rfl

/-- A group that agrees is not dropped. -/
theorem exists_dropStale_group {group : Code} (hconds : i.announced? = some conds) (hgroup : Stretch conds group)
    (front behind : Code) :
    ∃ front', dropStale (front ++ i :: (group ++ behind)) = front' ++ i :: (group ++ dropStale behind) ∧
      ordinary front' = ordinary front := by
  obtain ⟨front', hkept, hordinary⟩ := exists_dropStale_append front (i :: (group ++ behind))
  obtain ⟨positions, hmatch⟩ := hgroup.matchConds_append
  refine ⟨front', ?_, hordinary⟩
  have hagrees : coverage i (group ++ dropStale behind) = some positions := by
    rw [coverage_eq, hconds]
    exact hmatch _
  rw [hkept, dropStale, dropStale_append hgroup.isIt_eq_false, if_neg (by simp [hagrees])]

/-- Members are split off in front of code at which every group stops as if that code were not there. -/
theorem takeMembers_append_of_stop {rest : List (Instr × Bool)}
    (hstop : ∀ first room, takeMembers first room rest = ([], rest)) (first : Cond) (room : Nat)
    (marked : List (Instr × Bool)) :
    takeMembers first room (marked ++ rest)
      = ((takeMembers first room marked).1, (takeMembers first room marked).2 ++ rest) := by
  fun_induction takeMembers first room marked with
  | case1 room => exact hstop first room
  | case2 marked hne =>
    cases marked with
    | nil => exact absurd rfl hne
    | cons => rfl
  | case3 room j covered marked hj behind heq ih =>
    rw [heq] at ih
    rw [List.cons_append, takeMembers, if_pos hj, ih]
  | case4 room j covered marked hj members behind hne heq ih =>
    rw [heq] at ih
    rw [List.cons_append, takeMembers, if_pos hj, ih]
    cases members with
    | nil => exact absurd rfl hne
    | cons => rfl
  | case5 room j covered marked hj hother =>
    rw [List.cons_append, takeMembers, if_neg hj, if_pos hother]
  | case6 room j covered marked hj hother hends =>
    rw [List.cons_append, takeMembers, if_neg hj, if_neg hother, if_pos hends]
  | case7 room j covered marked hj hother hends members behind heq ih =>
    rw [heq] at ih
    rw [List.cons_append, takeMembers, if_neg hj, if_neg hother, if_neg hends, ih]

/-- Groups are opened in front of code at which every group stops and in that code separately. -/
theorem regroup_append_of_stop {rest : List (Instr × Bool)}
    (hstop : ∀ first room, takeMembers first room rest = ([], rest)) (marked : List (Instr × Bool)) :
    regroup (marked ++ rest) = regroup marked ++ regroup rest := by
  induction marked using regroup.induct with
  | case1 =>
    rw [regroup]
    rfl
  | case2 j covered marked hkept ih =>
    rw [List.cons_append, regroup, if_pos hkept, ih, regroup, if_pos hkept, List.cons_append]
  | case3 j covered marked hopen split ih =>
    rw [List.cons_append, regroup, if_neg hopen, regroup, if_neg hopen, takeMembers_append_of_stop hstop]
    simp only
    rw [ih, List.cons_append, List.cons_append, List.append_assoc]

/-- No group takes members from behind an `It`. -/
theorem takeMembers_it (hit : i.isIt = true) (mark : Bool) (rest : List (Instr × Bool)) (first : Cond) (room : Nat) :
    takeMembers first room ((i, mark) :: rest) = ([], (i, mark) :: rest) := by
  have hneeds : i.needsGroup = false := by simp [Instr.needsGroup, hit]
  cases room with
  | zero => rfl
  | succ room => simp [takeMembers, isDebug_of_isIt hit, hneeds]

/-- Groups are opened in front of an `It` and behind it separately. -/
theorem regroup_append_it (hit : i.isIt = true) (marked : List (Instr × Bool)) (mark : Bool)
    (rest : List (Instr × Bool)) :
    regroup (marked ++ (i, mark) :: rest) = regroup marked ++ i :: regroup rest := by
  have hkept : (mark || !i.needsGroup) = true := by simp [Instr.needsGroup, hit]
  rw [regroup_append_of_stop (takeMembers_it hit mark rest), regroup.eq_def ((i, mark) :: rest)]
  simp only [if_pos hkept]

/-! ### Kept groups -/

/-- Behind an `It`, marked code goes on with the group of the conditions that it announces. -/
theorem Marked.of_append_it {front rest : List (Instr × Bool)} {mark : Bool} {pending : List Cond}
    (h : Marked pending (front ++ (i, mark) :: rest)) (hconds : i.announced? = some conds) : Marked conds rest := by
  have hit := Instr.isIt_of_announced? hconds
  induction front generalizing pending with
  | nil =>
    cases h with
    | plain hplain =>
      rw [hit] at hplain
      cases hplain
    | it hother hrest =>
      rw [hconds] at hother
      cases hother
      exact hrest
    | debug hdebug =>
      rw [isIt_of_isDebug hdebug] at hit
      cases hit
    | member _ hmeets =>
      rw [isIt_of_needsGroup hmeets.needs] at hit
      cases hit
  | cons entry front ih =>
    cases h with
    | plain _ hrest => exact ih hrest
    | it _ hrest => exact ih hrest
    | debug _ hrest => exact ih hrest
    | member _ _ hrest => exact ih hrest

/-- Nothing is open in a stretch whose debug information is not predicated. -/
theorem Stretch.noneOpen {group : Code} (h : Stretch conds group) {marked rest : List (Instr × Bool)}
    (hfst : marked.map Prod.fst = group) (hmarked : Marked conds (marked ++ rest))
    (hdebug : ∀ i ∈ group, i.isDebug = true → i.Bare) : NoneOpen marked := by
  induction h generalizing marked with
  | nil =>
    rw [List.map_eq_nil_iff.mp hfst]
    intro entry hentry
    cases hentry
  | @debug i c later group hi _ ih =>
    obtain ⟨⟨j, mark⟩, marked, rfl, rfl, hrestfst⟩ := List.map_eq_cons_iff.mp hfst
    obtain ⟨hbare, hothers⟩ := List.forall_mem_cons.mp hdebug
    cases hmarked with
    | debug _ hrest => exact List.forall_mem_cons.mpr ⟨.inr (hbare hi), ih hrestfst hrest hothers⟩
    | member hj =>
      rw [hi] at hj
      cases hj
  | @member i c later group hi _ _ ih =>
    obtain ⟨⟨j, mark⟩, marked, rfl, rfl, hrestfst⟩ := List.map_eq_cons_iff.mp hfst
    cases hmarked with
    | debug hj =>
      rw [hj] at hi
      cases hi
    | member _ _ hrest =>
      exact List.forall_mem_cons.mpr ⟨.inl rfl, ih hrestfst hrest (List.forall_mem_cons.mp hdebug).2⟩

/-- A group that agrees goes through a repair as it is. -/
theorem exists_repair_group {group : Code} (hconds : i.announced? = some conds) (hgroup : Stretch conds group)
    (hdebug : ∀ i ∈ group, i.isDebug = true → i.Bare) (front behind : Code) :
    ∃ front' behind', repair (front ++ i :: (group ++ behind)) = front' ++ i :: (group ++ behind') ∧
      ordinary front' = ordinary front := by
  have hmarked := marked_dropStale (front ++ i :: (group ++ behind))
  have hfst := map_fst_zip_coveredMarks (dropStale (front ++ i :: (group ++ behind)))
  obtain ⟨kept, hkept, hordinary⟩ := exists_dropStale_group hconds hgroup front behind
  rw [repair]
  change ∃ front' behind', regroup ((dropStale _).zip _) = _ ∧ _
  generalize (dropStale (front ++ i :: (group ++ behind))).zip _ = marked at hmarked hfst ⊢
  rw [hkept] at hfst
  obtain ⟨mfront, mrest, rfl, hmfront, hmrest⟩ := List.map_eq_append_iff.mp hfst
  obtain ⟨⟨j, mark⟩, minner, rfl, rfl, hminner⟩ := List.map_eq_cons_iff.mp hmrest
  obtain ⟨mgroup, mbehind, rfl, hmgroup, -⟩ := List.map_eq_append_iff.mp hminner
  have hnone := hgroup.noneOpen hmgroup (hmarked.of_append_it hconds) hdebug
  refine ⟨regroup mfront, regroup mbehind, ?_, ?_⟩
  · rw [regroup_append_it (Instr.isIt_of_announced? hconds), regroup_append hnone, hmgroup]
  · rw [ordinary_regroup, hmfront, hordinary]

/-- An `It` in the code that agrees with it, told by what does not depend on other `It` instructions: the rank
before which it stands and the ranks of the instructions that it covers. -/
def HasGroup (code : Code) (i : Instr) (rank : Nat) (ranks : List Nat) : Prop :=
  ∃ it covered, code[it]? = some i ∧ coveredBy code it = some covered ∧ rank = rankOf code it ∧
    ranks = covered.map (rankOf code)

theorem coveredBy_append (front : Code) (i : Instr) (rest : Code) :
    coveredBy (front ++ i :: rest) front.length = (coverage i rest).map (List.map (· + (front.length + 1))) := by
  have hdrop : (front ++ i :: rest).drop (front.length + 1) = rest := by
    rw [← List.drop_drop, List.drop_left, List.drop_succ_cons, List.drop_zero]
  rw [coveredBy, getElem?_between, hdrop]
  cases hcoverage : coverage i rest <;> simp [hcoverage]

/-- The rank of a position behind an `It`. -/
theorem rankOf_append_it (hit : i.isIt = true) (front rest : Code) (pos : Nat) :
    rankOf (front ++ i :: rest) (pos + (front.length + 1)) = (ordinary front).length + rankOf rest pos := by
  have hbehind : pos + (front.length + 1) - front.length = pos + 1 := by omega
  rw [rankOf, List.take_append, List.take_of_length_le (by omega), hbehind, List.take_succ_cons,
    List.countP_append, List.countP_cons_of_neg (by simp [hit]), List.countP_eq_length_filter]
  rfl

/-- Ranks in a stretch do not depend on what stands behind it. -/
theorem rankOf_append_of_lt {group : Code} {pos : Nat} (h : pos < group.length) (behind : Code) :
    rankOf (group ++ behind) pos = rankOf group pos := by
  rw [rankOf, rankOf, List.take_append_of_le_length (Nat.le_of_lt h)]

/-- What an `It` covers is in a stretch directly behind it. -/
theorem exists_stretch_of_coveredBy {it : Nat} {covered : List Nat} (h : coveredBy code it = some covered) :
    ∃ front i group behind conds positions, code = front ++ i :: (group ++ behind) ∧ it = front.length ∧
      i.announced? = some conds ∧ Stretch conds group ∧
      (∀ behind, matchConds conds (group ++ behind) = some positions) ∧ (∀ pos ∈ positions, pos < group.length) ∧
      covered = positions.map (· + (front.length + 1)) := by
  have hcovers := h
  rw [coveredBy] at h
  obtain ⟨i, hi, -⟩ := Option.bind_eq_some_iff.mp h
  obtain ⟨-, -, front, rest, rfl, rfl, -, -⟩ := exists_at hi
  rw [coveredBy_append, Option.map_eq_some_iff] at hcovers
  obtain ⟨positions, hcoverage, rfl⟩ := hcovers
  rw [coverage_eq] at hcoverage
  obtain ⟨conds, hconds, hmatch⟩ := Option.bind_eq_some_iff.mp hcoverage
  obtain ⟨group, behind, rfl, hgroup, hpositions⟩ := exists_stretch_of_matchConds hmatch
  obtain ⟨found, hfound⟩ := hgroup.matchConds_append
  obtain rfl : found = positions := Option.some.inj ((hfound behind).symm.trans hmatch)
  exact ⟨front, i, group, behind, conds, found, rfl, rfl, hconds, hgroup, hfound, hpositions, rfl⟩

theorem coveredBy_of_matchConds (hconds : i.announced? = some conds) {rest : Code}
    (hmatch : matchConds conds rest = some positions) (front : Code) :
    coveredBy (front ++ i :: rest) front.length = some (positions.map (· + (front.length + 1))) := by
  rw [coveredBy_append, coverage_eq, hconds, Option.bind_some, hmatch, Option.map_some]

/-- Each `It` that agrees with code without predicated debug information is kept, with the instructions that it
covers. -/
theorem HasGroup.repair {rank : Nat} {ranks : List Nat} (h : HasGroup code i rank ranks)
    (hdebug : ∀ i ∈ code, i.isDebug = true → i.Bare) : HasGroup (repair code) i rank ranks := by
  obtain ⟨it, covered, hi, hcovered, rfl, rfl⟩ := h
  obtain ⟨front, j, group, behind, conds, positions, rfl, rfl, hconds, hgroup, hfound, hpositions, rfl⟩ :=
    exists_stretch_of_coveredBy hcovered
  rw [getElem?_between] at hi
  obtain rfl : j = i := Option.some.inj hi
  have hit := Instr.isIt_of_announced? hconds
  obtain ⟨front', behind', hrepair, hordinary⟩ := exists_repair_group hconds hgroup
    (fun k hk => hdebug k (by simp [hk])) front behind
  rw [hrepair]
  refine ⟨front'.length, positions.map (· + (front'.length + 1)), ?_, ?_, ?_, ?_⟩
  · exact getElem?_between ..
  · exact coveredBy_of_matchConds hconds (hfound behind') front'
  · rw [rankOf_append, rankOf_append, hordinary]
  · rw [List.map_map, List.map_map]
    refine List.map_congr_left fun pos hpos => ?_
    have hinside := hpositions pos hpos
    simp only [Function.comp_apply]
    rw [rankOf_append_it hit, rankOf_append_it hit, rankOf_append_of_lt hinside, rankOf_append_of_lt hinside,
      hordinary]

/-! ### Repairs -/

/-- Code without predicated debug information is consistent after a repair and has the same instructions other
than `It`. Each `It` that agreed is still there and covers the same instructions. A repair in place tells whether
it changed the code, which it does exactly if the code was not consistent, so a second repair changes nothing. -/
theorem repair_restores (hdebug : ∀ i ∈ code, i.isDebug = true → i.isConditional = false) :
    (repair code).isConsistent = true ∧
      ordinary (repair code) = ordinary code ∧
      (∀ i rank ranks, HasGroup code i rank ranks → HasGroup (repair code) i rank ranks) ∧
      (repairInPlace code).1 = repair code ∧
      ((repairInPlace code).2 = true ↔ repair code ≠ code) ∧
      (repair code ≠ code ↔ code.isConsistent = false) ∧
      repairInPlace (repair code) = (repair code, false) := by
  have hbare : DebugBare code := fun i hi hdebugging =>
    (Instr.bare_iff_of_isDebug hdebugging).mpr (hdebug i hi hdebugging)
  have hconsistent : (repair code).isConsistent = true := isConsistent_repair_iff.mpr hbare
  have hchanges : repair code ≠ code ↔ code.isConsistent = false := by
    rw [← not_iff_not, not_not, Bool.not_eq_false]
    exact ⟨fun hsame => hsame ▸ hconsistent, repair_eq_self⟩
  have hagain : (repairInPlace (repair code)).2 = false := by
    rw [← Bool.not_eq_true, repairInPlace_snd_iff, hconsistent]
    exact Bool.false_ne_true ∘ Eq.symm
  refine ⟨hconsistent, ordinary_repair code, fun i rank ranks h => h.repair hbare, repairInPlace_fst code,
    repairInPlace_snd_iff.trans hchanges.symm, hchanges, Prod.ext ?_ hagain⟩
  rw [repairInPlace_fst, repair_eq_self hconsistent]

/-- A group that does not agree in front of one that does, with debug information in both. -/
def brokenGroups : Code :=
  [.it .ne 8, { Instr.movImm (.phys .r0) 1 with pred := .eq }, .debugMark,
    { Instr.movImm (.phys .r0) 2 with pred := .ne }, .it .lt 12, { Instr.movImm (.phys .r1) 1 with pred := .lt },
    .debugMark, { Instr.movImm (.phys .r1) 2 with pred := .ge }, .ret]

/-- The first two moves get one group, and the second group is kept. -/
theorem repair_restores_brokenGroups :
    (∀ i ∈ brokenGroups, i.isDebug = true → i.isConditional = false) ∧
      brokenGroups.isConsistent = false ∧ (repair brokenGroups).isConsistent = true ∧
      repair brokenGroups = .it .eq 12 :: brokenGroups.tail ∧
      HasGroup (repair brokenGroups) (.it .lt 12) 3 [3, 5] ∧ (repairInPlace brokenGroups).2 = true := by
  have hdebug : ∀ i ∈ brokenGroups, i.isDebug = true → i.isConditional = false := by decide
  have hbroken : brokenGroups.isConsistent = false := by decide
  have hgroup : HasGroup brokenGroups (.it .lt 12) 3 [3, 5] :=
    ⟨4, [5, 7], rfl, by decide, by decide, by decide⟩
  obtain ⟨hconsistent, -, hkept, -, hreports, hchanges, -⟩ := repair_restores hdebug
  exact ⟨hdebug, hbroken, hconsistent, by decide +kernel, hkept _ _ _ hgroup,
    hreports.mpr (hchanges.mpr hbroken)⟩

end Code
end ThumbHardening
