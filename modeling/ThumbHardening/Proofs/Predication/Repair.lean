import ThumbHardening.Proofs.Predication.Grouped

/-!
# Repairing groups

Dropping each `It` that does not agree with the code behind it leaves code in which every `It` covers a
group, and perhaps instructions that need one and have none. The marks say which these are, and opening
groups for them makes the code consistent. Only predicated debug information is beyond repair, as no `It`
ever covers it.
-/

namespace ThumbHardening
namespace Code

/-- Code with marks at what is covered, which starts inside a group with these conditions still to come. -/
inductive Marked : (pending : List Cond) → List (Instr × Bool) → Prop
  | nil : Marked [] []
  | plain {i rest} : i.isIt = false → Marked [] rest → Marked [] ((i, false) :: rest)
  | it {i conds rest} : i.announced? = some conds → Marked conds rest →
      Marked [] ((i, false) :: rest)
  | debug {i c later rest} : i.isDebug = true → Marked (c :: later) rest →
      Marked (c :: later) ((i, false) :: rest)
  | member {i c later rest} : i.isDebug = false → i.Meets c later → Marked later rest →
      Marked (c :: later) ((i, true) :: rest)

variable {outside : Instr → Prop} {i : Instr} {rest code : Code} {conds : List Cond}

/-! ### Dropping groups that do not agree -/

theorem Marked.of_not_it {mark : Bool} {rest : List (Instr × Bool)}
    (h : Marked [] ((i, mark) :: rest)) (hit : i.isIt = false) : mark = false ∧ Marked [] rest := by
  cases h with
  | plain _ hrest => exact ⟨rfl, hrest⟩
  | it hconds =>
    rw [Instr.isIt_of_announced? hconds] at hit
    cases hit

theorem Grouped.of_not_it (h : Grouped outside [] (i :: rest)) (hit : i.isIt = false) :
    outside i ∧ Grouped outside [] rest := by
  cases h with
  | plain _ hout hrest => exact ⟨hout, hrest⟩
  | it hconds =>
    rw [Instr.isIt_of_announced? hconds] at hit
    cases hit

/-- Where the conditions match, a group may start. -/
theorem Grouped.of_matchConds {positions : List Nat} (h : Grouped outside [] code)
    (hmatch : matchConds conds code = some positions) : Grouped outside conds code := by
  induction code generalizing conds positions with
  | nil =>
    cases conds with
    | nil => exact .nil
    | cons c later => cases hmatch
  | cons i rest ih =>
    cases conds with
    | nil => exact h
    | cons c later =>
      cases hdebug : i.isDebug with
      | true =>
        rw [matchConds_debug hdebug] at hmatch
        obtain ⟨ps, hrest, -⟩ := Option.map_eq_some_iff.mp hmatch
        obtain ⟨hout, h⟩ := h.of_not_it (isIt_of_isDebug hdebug)
        exact .debug hdebug hout (ih h hrest)
      | false =>
        have hmeets := meets_of_matchConds hdebug hmatch
        rw [matchConds_member hdebug hmeets] at hmatch
        obtain ⟨ps, hrest, -⟩ := Option.map_eq_some_iff.mp hmatch
        obtain ⟨-, h⟩ := h.of_not_it (isIt_of_needsGroup hmeets.needs)
        exact .member hdebug hmeets (ih h hrest)

/-- What is left once the groups that do not agree are dropped. -/
theorem grouped_dropStale (code : Code) : Grouped (fun _ => True) [] (dropStale code) := by
  induction code with
  | nil => exact .nil
  | cons i rest ih =>
    simp only [dropStale]
    split
    · exact ih
    · next hkept =>
      cases hit : i.isIt with
      | false => exact .plain hit trivial ih
      | true =>
        have hsome : coverage i (dropStale rest) ≠ none := by simpa [hit] using hkept
        obtain ⟨positions, hcoverage⟩ := Option.ne_none_iff_exists'.mp hsome
        rw [coverage_eq] at hcoverage
        obtain ⟨conds, hconds, hmatch⟩ := Option.bind_eq_some_iff.mp hcoverage
        exact .it hconds (ih.of_matchConds hmatch)

/-! ### Marks -/

/-- The marks with some positions marked in addition. -/
def markAll (positions : List Nat) (marks : List Bool) : List Bool :=
  positions.foldl (fun marks pos => marks.set pos true) marks

theorem markAll_shift (positions : List Nat) (mark : Bool) (marks : List Bool) :
    markAll (positions.map (· + 1)) (mark :: marks) = mark :: markAll positions marks := by
  induction positions generalizing marks with
  | nil => rfl
  | cons pos rest ih => exact ih (marks.set pos true)

theorem length_markAll (positions : List Nat) (marks : List Bool) :
    (markAll positions marks).length = marks.length := by
  induction positions generalizing marks with
  | nil => rfl
  | cons pos rest ih => exact (ih (marks.set pos true)).trans (List.length_set ..)

theorem length_coveredMarks (code : Code) : (coveredMarks code).length = code.length := by
  induction code with
  | nil => rfl
  | cons i rest ih =>
    rw [coveredMarks, List.length_cons, List.length_cons, ← ih]
    exact congrArg (· + 1) (length_markAll _ _)

theorem coveredMarks_cons (i : Instr) (rest : Code) :
    coveredMarks (i :: rest)
      = false :: markAll ((coverage i rest).getD []) (coveredMarks rest) := rfl

/-- In grouped code the conditions to come are met, and the marks are at the groups. -/
theorem Grouped.marked (h : Grouped outside conds code) :
    ∃ positions, matchConds conds code = some positions ∧
      Marked conds (code.zip (markAll positions (coveredMarks code))) := by
  induction h with
  | nil => exact ⟨[], rfl, .nil⟩
  | plain hit _ _ ih =>
    obtain ⟨positions, hmatch, hmarked⟩ := ih
    rw [matchConds_nil] at hmatch
    cases hmatch
    refine ⟨[], rfl, ?_⟩
    rw [coveredMarks_cons, coverage_eq_none hit]
    exact .plain hit hmarked
  | it hconds _ ih =>
    obtain ⟨positions, hmatch, hmarked⟩ := ih
    refine ⟨[], rfl, ?_⟩
    rw [coveredMarks_cons, coverage_eq, hconds]
    simp only [Option.bind_some, hmatch]
    exact .it hconds hmarked
  | debug hdebug _ _ ih =>
    obtain ⟨positions, hmatch, hmarked⟩ := ih
    refine ⟨positions.map (· + 1), ?_, ?_⟩
    · rw [matchConds_debug hdebug, hmatch]
      rfl
    · rw [coveredMarks_cons, coverage_eq_none (isIt_of_isDebug hdebug), markAll_shift]
      exact .debug hdebug hmarked
  | member hdebug hmeets _ ih =>
    obtain ⟨positions, hmatch, hmarked⟩ := ih
    refine ⟨0 :: positions.map (· + 1), ?_, ?_⟩
    · rw [matchConds_member hdebug hmeets, hmatch]
      rfl
    · rw [coveredMarks_cons, coverage_eq_none (isIt_of_needsGroup hmeets.needs)]
      change Marked _ (List.zip _ (markAll (positions.map (· + 1)) (true :: _)))
      rw [markAll_shift]
      exact .member hdebug hmeets hmarked

/-! ### Members of a new group -/

/-- The conditions of the members of a group, without the debug information between them. -/
def memberConds (members : Code) : List Cond :=
  (members.filter fun m => !m.isDebug).map Instr.pred

theorem memberConds_debug (hdebug : i.isDebug = true) (members : Code) :
    memberConds (i :: members) = memberConds members := by
  simp [memberConds, hdebug]

theorem memberConds_member (hdebug : i.isDebug = false) (members : Code) :
    memberConds (i :: members) = i.pred :: memberConds members := by
  simp [memberConds, hdebug]

/-- Instructions that can follow the first one of a group. -/
structure Members (first : Cond) (room : Nat) (members : Code) : Prop where
  conds : ∀ c ∈ memberConds members, c = first ∨ c = first.inverse
  length_le : (memberConds members).length ≤ room
  conds_ne_nil : members ≠ [] → memberConds members ≠ []
  grouped : ∀ tail, Grouped Instr.Bare [] tail →
    Grouped Instr.Bare (memberConds members) (members ++ tail)

theorem Members.nil (first : Cond) (room : Nat) : Members first room [] where
  conds _ h := by cases h
  length_le := Nat.zero_le _
  conds_ne_nil h := absurd rfl h
  grouped _ h := h

theorem Members.debug {first : Cond} {room : Nat} {members : Code} (hdebug : i.isDebug = true)
    (hbare : i.Bare) (hne : members ≠ []) (h : Members first room members) :
    Members first room (i :: members) := by
  have hconds := memberConds_debug hdebug members
  refine ⟨hconds ▸ h.conds, hconds ▸ h.length_le, fun _ => hconds ▸ h.conds_ne_nil hne, ?_⟩
  intro tail htail
  obtain ⟨c, later, hlater⟩ := List.exists_cons_of_ne_nil (h.conds_ne_nil hne)
  have hgrouped := h.grouped tail htail
  rw [hlater] at hgrouped
  rw [hconds, hlater]
  exact .debug hdebug hbare hgrouped

theorem Members.member {first : Cond} {room : Nat} {members : Code} (hdebug : i.isDebug = false)
    (hneeds : i.needsGroup = true) (hpred : i.pred = first ∨ i.pred = first.inverse)
    (hlast : i.opcode.endsGroup = true → members = []) (h : Members first room members) :
    Members first (room + 1) (i :: members) := by
  have hconds := memberConds_member hdebug members
  refine ⟨?_, ?_, fun _ => by simp [hconds], ?_⟩
  · intro c hc
    rw [hconds] at hc
    rcases List.mem_cons.mp hc with rfl | hc
    · exact hpred
    · exact h.conds c hc
  · rw [hconds]
    exact Nat.succ_le_succ h.length_le
  · intro tail htail
    rw [hconds]
    refine .member hdebug ⟨hneeds, rfl, fun hends => ?_⟩ (h.grouped tail htail)
    rw [hlast hends]
    rfl

theorem joins_of_not_stop {covered : Bool} {first : Cond}
    (h : ¬(covered || !i.needsGroup || !(i.pred = first || i.pred = first.inverse)) = true) :
    i.needsGroup = true ∧ (i.pred = first ∨ i.pred = first.inverse) := by
  rw [Bool.not_eq_true] at h
  simp only [Bool.or_eq_false_iff, Bool.not_eq_false', Bool.or_eq_true, decide_eq_true_eq] at h
  exact ⟨h.1.2, h.2⟩

/-- The instructions split off as members can follow the first one, if the debug information among them is
not predicated. -/
theorem members_takeMembers (first : Cond) (room : Nat) (marked : List (Instr × Bool))
    (hdebug : ∀ j ∈ marked.map Prod.fst, j.isDebug = true → j.Bare) :
    Members first room (takeMembers first room marked).1 := by
  fun_induction takeMembers first room marked with
  | case1 room => exact .nil first room
  | case2 => exact .nil first 0
  | case3 room => exact .nil first _
  | case4 room i covered rest hi members behind hne heq ih =>
    obtain ⟨hbare, hrest⟩ := List.forall_mem_cons.mp hdebug
    have hmembers := ih hrest
    rw [heq] at hmembers
    exact hmembers.debug hi (hbare hi) hne
  | case5 room => exact .nil first _
  | case6 room i covered rest hi hstop hends =>
    obtain ⟨hneeds, hpred⟩ := joins_of_not_stop hstop
    exact .member (by simpa using hi) hneeds hpred (fun _ => rfl) (.nil first room)
  | case7 room i covered rest hi hstop hends members behind heq ih =>
    obtain ⟨-, hrest⟩ := List.forall_mem_cons.mp hdebug
    have hmembers := ih hrest
    rw [heq] at hmembers
    obtain ⟨hneeds, hpred⟩ := joins_of_not_stop hstop
    exact .member (by simpa using hi) hneeds hpred (fun h => absurd h hends) hmembers

/-- Splitting off members loses no instruction. -/
theorem takeMembers_append (first : Cond) (room : Nat) (marked : List (Instr × Bool)) :
    (takeMembers first room marked).1 ++ (takeMembers first room marked).2.map Prod.fst
      = marked.map Prod.fst := by
  fun_induction takeMembers first room marked <;> simp_all

/-- Behind the members that are split off, code goes on outside of groups. -/
theorem marked_takeMembers (first : Cond) (room : Nat) {marked : List (Instr × Bool)}
    (h : Marked [] marked) : Marked [] (takeMembers first room marked).2 := by
  fun_induction takeMembers first room marked with
  | case1 room => exact h
  | case2 => exact h
  | case3 room => exact h
  | case4 room i covered rest hi members behind hne heq ih =>
    have hbehind := ih (h.of_not_it (isIt_of_isDebug hi)).2
    rwa [heq] at hbehind
  | case5 room => exact h
  | case6 room i covered rest hi hstop hends =>
    exact (h.of_not_it (isIt_of_needsGroup (joins_of_not_stop hstop).1)).2
  | case7 room i covered rest hi hstop hends members behind heq ih =>
    have hbehind := ih (h.of_not_it (isIt_of_needsGroup (joins_of_not_stop hstop).1)).2
    rwa [heq] at hbehind

/-! ### Opening groups -/

/-- A first instruction with the members split off for it is a group. -/
theorem grouped_openGroup {members tail : Code} (hneeds : i.needsGroup = true)
    (hdebug : i.isDebug = false) (hmembers : Members i.pred (groupRoom i) members)
    (htail : Grouped Instr.Bare [] tail) :
    Grouped Instr.Bare [] (openGroup i members :: i :: (members ++ tail)) := by
  have hpred := pred_ne_al_of_needsGroup hneeds
  have hroom : groupRoom i < maxGroupLength := by
    rw [groupRoom]
    split <;> decide
  have hlast : i.opcode.endsGroup = true → memberConds members = [] := by
    intro hends
    have hlength := hmembers.length_le
    rw [groupRoom, if_pos hends] at hlength
    exact List.eq_nil_of_length_eq_zero (Nat.le_zero.mp hlength)
  refine .it (announced?_it hpred (Nat.lt_of_le_of_lt hmembers.length_le hroom) hmembers.conds) ?_
  exact .member hdebug ⟨hneeds, rfl, hlast⟩ (hmembers.grouped tail htail)

/-- Opening groups for what has none makes code consistent. -/
theorem grouped_regroup {marked : List (Instr × Bool)} (h : Marked conds marked)
    (hdebug : ∀ j ∈ marked.map Prod.fst, j.isDebug = true → j.Bare) :
    Grouped Instr.Bare conds (regroup marked) := by
  induction marked using regroup.induct generalizing conds with
  | case1 =>
    rw [regroup]
    cases h
    exact .nil
  | case2 i covered rest hkept ih =>
    rw [regroup, if_pos hkept]
    obtain ⟨hbare, hrest⟩ := List.forall_mem_cons.mp hdebug
    cases h with
    | plain hit h => exact .plain hit (by simpa [Instr.Bare] using hkept) (ih h hrest)
    | it hconds h => exact .it hconds (ih h hrest)
    | debug hi h => exact .debug hi (hbare hi) (ih h hrest)
    | member hi hmeets h => exact .member hi hmeets (ih h hrest)
  | case3 i covered rest hopen split =>
    rename_i ih
    rw [regroup, if_neg hopen]
    obtain ⟨hbare, hrest⟩ := List.forall_mem_cons.mp hdebug
    rw [Bool.not_eq_true, Bool.or_eq_false_iff, Bool.not_eq_false'] at hopen
    obtain ⟨hcovered, hneeds⟩ := hopen
    have hi : i.isDebug = false := by
      by_contra hi
      rw [hbare (by simpa using hi)] at hneeds
      cases hneeds
    cases h with
    | plain hit h =>
      apply grouped_openGroup hneeds hi (members_takeMembers _ _ _ hrest)
      apply ih (marked_takeMembers _ _ h)
      intro j hj
      apply hrest j
      rw [← takeMembers_append i.pred (groupRoom i) rest]
      exact List.mem_append_right _ hj
    | it hconds h =>
      have hit := Instr.isIt_of_announced? hconds
      rw [isIt_of_needsGroup hneeds] at hit
      cases hit
    | debug hmark h =>
      rw [hmark] at hi
      cases hi
    | member hi hmeets h => cases hcovered

/-! ### Repaired code -/

/-- The instructions other than `It`. -/
def ordinary (code : Code) : Code :=
  code.filter fun i => !i.isIt

theorem ordinary_append (a b : Code) : ordinary (a ++ b) = ordinary a ++ ordinary b :=
  List.filter_append ..

theorem ordinary_cons_it (hit : i.isIt = true) (code : Code) : ordinary (i :: code) = ordinary code := by
  simp [ordinary, hit]

theorem ordinary_dropStale (code : Code) : ordinary (dropStale code) = ordinary code := by
  induction code with
  | nil => rfl
  | cons i rest ih =>
    simp only [dropStale]
    split
    · next hdrop =>
      rw [ordinary_cons_it (Bool.and_eq_true_iff.mp hdrop).1, ih]
    · simp only [ordinary, List.filter_cons] at ih ⊢
      rw [ih]

theorem ordinary_regroup (marked : List (Instr × Bool)) :
    ordinary (regroup marked) = ordinary (marked.map Prod.fst) := by
  induction marked using regroup.induct with
  | case1 =>
    rw [regroup]
    rfl
  | case2 i covered rest hkept ih =>
    rw [regroup, if_pos hkept]
    simp only [ordinary, List.map_cons, List.filter_cons] at ih ⊢
    rw [ih]
  | case3 i covered rest hopen split ih =>
    have hit : (openGroup i split.1).isIt = true := rfl
    rw [regroup, if_neg hopen, ordinary_cons_it hit, List.map_cons, ← takeMembers_append i.pred (groupRoom i) rest,
      ← List.singleton_append, ← List.singleton_append (l := split.1 ++ _), ordinary_append,
      ordinary_append, ordinary_append, ordinary_append, ih]

/-- The marks that a repair looks at. -/
theorem Grouped.marked_zip (h : Grouped outside [] code) : Marked [] (code.zip (coveredMarks code)) := by
  obtain ⟨positions, hmatch, hmarked⟩ := h.marked
  rw [matchConds_nil] at hmatch
  cases hmatch
  exact hmarked

theorem marked_dropStale (code : Code) :
    Marked [] ((dropStale code).zip (coveredMarks (dropStale code))) :=
  (grouped_dropStale code).marked_zip

theorem map_fst_zip_coveredMarks (code : Code) : (code.zip (coveredMarks code)).map Prod.fst = code :=
  List.map_fst_zip (Nat.le_of_eq (length_coveredMarks code).symm)

/-- A repair neither adds nor drops or moves instructions other than `It`. -/
theorem ordinary_repair (code : Code) : ordinary (repair code) = ordinary code := by
  rw [repair, ordinary_regroup, map_fst_zip_coveredMarks, ordinary_dropStale]

theorem mem_ordinary_iff_of_isDebug (hdebug : i.isDebug = true) : i ∈ ordinary code ↔ i ∈ code := by
  simp [ordinary, isIt_of_isDebug hdebug]

/-- Debug information in grouped code is not predicated. -/
theorem Grouped.bare_of_isDebug (h : Grouped Instr.Bare conds code) :
    ∀ i ∈ code, i.isDebug = true → i.Bare := by
  induction h with
  | nil => simp
  | plain _ hbare _ ih => exact List.forall_mem_cons.mpr ⟨fun _ => hbare, ih⟩
  | it hconds _ ih =>
    refine List.forall_mem_cons.mpr ⟨fun hdebug => ?_, ih⟩
    have hit := Instr.isIt_of_announced? hconds
    rw [isIt_of_isDebug hdebug] at hit
    cases hit
  | debug _ hbare _ ih => exact List.forall_mem_cons.mpr ⟨fun _ => hbare, ih⟩
  | member hi _ _ ih =>
    refine List.forall_mem_cons.mpr ⟨fun hdebug => ?_, ih⟩
    rw [hdebug] at hi
    cases hi

/-- A repair makes code consistent exactly if no debug information in it is predicated. -/
theorem isConsistent_repair_iff :
    (repair code).isConsistent = true ↔ ∀ i ∈ code, i.isDebug = true → i.Bare := by
  have hsame (i : Instr) (hi : i.isDebug = true) : i ∈ repair code ↔ i ∈ code := by
    rw [← mem_ordinary_iff_of_isDebug hi, ordinary_repair, mem_ordinary_iff_of_isDebug hi]
  rw [isConsistent_iff_grouped]
  constructor
  · intro h i hmem hi
    exact h.bare_of_isDebug i ((hsame i hi).mpr hmem) hi
  · intro h
    refine grouped_regroup (marked_dropStale code) fun i hmem hi => h i ?_ hi
    rw [map_fst_zip_coveredMarks] at hmem
    rw [← mem_ordinary_iff_of_isDebug hi, ← ordinary_dropStale, mem_ordinary_iff_of_isDebug hi]
    exact hmem

end Code
end ThumbHardening
