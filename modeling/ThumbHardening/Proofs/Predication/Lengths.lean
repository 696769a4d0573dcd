import ThumbHardening.Proofs.Predication.Local

/-!
# How long repaired code is

A repair changes the number of `It` instructions only. Where an instruction needs a group there is one afterwards,
so code cannot become as short as its instructions other than `It`. What is left of a group without its `It` gets
one new `It`, or none if no member is left: its members are few enough and agree on a condition or its opposite.
-/

namespace ThumbHardening

/-! ### Conditions of a group -/

/-- Conditions that instructions of one group can have. -/
def Alike (conds : List Cond) : Prop :=
  ∀ c ∈ conds, ∀ d ∈ conds, d = c ∨ d = c.inverse

theorem Alike.sublist {conds conds' : List Cond} (h : Alike conds) (hsub : conds'.Sublist conds) : Alike conds' :=
  fun c hc d hd => h c (hsub.subset hc) d (hsub.subset hd)

theorem expandMask_bounds {first : Cond} {k mask : Nat} {conds : List Cond} (hpos : 0 < mask) (hlt : mask < 2 ^ k)
    (h : expandMask first k mask = some conds) :
    conds.length < k ∧ ∀ c ∈ conds, c = first ∨ c = first.inverse := by
  induction k generalizing mask conds with
  | zero => omega
  | succ k ih =>
    rw [expandMask_succ] at h
    split at h
    · cases h
      exact ⟨Nat.succ_pos k, by simp⟩
    · next hne =>
      split at h
      · next hbelow =>
        obtain ⟨later, hlater, rfl⟩ := Option.map_eq_some_iff.mp h
        obtain ⟨hlength, hconds⟩ := ih hpos hbelow hlater
        exact ⟨Nat.succ_lt_succ hlength, List.forall_mem_cons.mpr ⟨.inl rfl, hconds⟩⟩
      · next habove =>
        split at h
        · cases h
        · obtain ⟨later, hlater, rfl⟩ := Option.map_eq_some_iff.mp h
          obtain ⟨hlength, hconds⟩ := ih (by omega) (by omega) hlater
          exact ⟨Nat.succ_lt_succ hlength, List.forall_mem_cons.mpr ⟨.inr rfl, hconds⟩⟩

/-- An `It` announces up to four conditions, which are alike. -/
theorem Instr.announced?_bounds {i : Instr} {conds : List Cond} (h : i.announced? = some conds) :
    conds.length ≤ maxGroupLength ∧ Alike conds := by
  obtain ⟨⟨first, mask⟩, -, hdecode⟩ := Option.bind_eq_some_iff.mp h
  rw [decodeMask?] at hdecode
  split at hdecode
  · cases hdecode
  · obtain ⟨later, hlater, rfl⟩ := Option.map_eq_some_iff.mp hdecode
    obtain ⟨hlength, hconds⟩ := expandMask_bounds (by omega) (by omega) hlater
    refine ⟨hlength, fun c hc d hd => ?_⟩
    have hside (c : Cond) (hc : c ∈ first :: later) : c = first ∨ c = first.inverse :=
      (List.mem_cons.mp hc).elim .inl (hconds c)
    rcases hside c hc with rfl | rfl
    · exact hside d hd
    · simpa [or_comm] using hside d hd

namespace Code

variable {code rest members : Code} {conds : List Cond} {i : Instr} {marked : List (Instr × Bool)}

/-! ### At least -/

theorem length_ordinary_le_repair (code : Code) : (ordinary code).length ≤ (repair code).length := by
  rw [← ordinary_repair]
  exact List.length_filter_le ..

/-- Where an instruction needs a group, there is an `It` or one is put in. -/
theorem exists_isIt_regroup (h : Marked [] marked) (hneeds : ∃ entry ∈ marked, entry.1.needsGroup = true) :
    ∃ j ∈ regroup marked, j.isIt = true := by
  induction marked with
  | nil => simp at hneeds
  | cons entry rest ih =>
    obtain ⟨i, covered⟩ := entry
    rw [regroup]
    cases hit : i.isIt with
    | true =>
      rw [if_pos (by simp [Instr.needsGroup, hit])]
      exact ⟨i, List.mem_cons_self, hit⟩
    | false =>
      obtain ⟨rfl, hrest⟩ := h.of_not_it hit
      cases hi : i.needsGroup with
      | true =>
        rw [if_neg (by simp)]
        exact ⟨_, List.mem_cons_self, rfl⟩
      | false =>
        obtain ⟨j, hj, hjit⟩ := ih hrest (by simpa [hi] using hneeds)
        rw [if_pos (by simp)]
        exact ⟨j, List.mem_cons_of_mem _ hj, hjit⟩

theorem length_ordinary_lt_repair (hneeds : ∃ i ∈ code, i.needsGroup = true) :
    (ordinary code).length < (repair code).length := by
  obtain ⟨i, hi, hineeds⟩ := hneeds
  have hkept : i ∈ ordinary (dropStale code) := by
    rw [ordinary_dropStale]
    exact mem_ordinary hi (isIt_of_needsGroup hineeds)
  rw [← map_fst_marks (dropStale code)] at hkept
  obtain ⟨entry, hentry, rfl⟩ := List.mem_map.mp (List.mem_filter.mp hkept).1
  obtain ⟨j, hj, hjit⟩ := exists_isIt_regroup (marked_dropStale code) ⟨entry, hentry, hineeds⟩
  rw [← ordinary_repair]
  exact List.length_filter_lt_length_iff_exists.mpr ⟨j, hj, by simp [hjit]⟩

/-! ### What is left of a group -/

/-- What is left of a stretch of code if instructions are taken out of it. -/
inductive Remnant : (conds : List Cond) → Code → Prop
  | nil : Remnant [] []
  | debug {i : Instr} {conds : List Cond} {rest : Code} : i.isDebug = true → i.Bare → Remnant conds rest →
      Remnant conds (i :: rest)
  | member {i : Instr} {c : Cond} {later : List Cond} {rest : Code} : i.isDebug = false → i.Meets c later →
      Remnant later rest → Remnant (c :: later) (i :: rest)

theorem Stretch.exists_remnant (h : Stretch conds members) (hdebug : ∀ i ∈ members, i.isDebug = true → i.Bare)
    (hsub : rest.Sublist members) : ∃ conds', conds'.Sublist conds ∧ Remnant conds' rest := by
  induction h generalizing rest with
  | nil =>
    rw [List.sublist_nil.mp hsub]
    exact ⟨[], .slnil, .nil⟩
  | @debug i c later group hi _ ih =>
    obtain ⟨hbare, hothers⟩ := List.forall_mem_cons.mp hdebug
    cases hsub with
    | cons _ hsub => exact ih hothers hsub
    | cons_cons _ hsub =>
      obtain ⟨conds', hconds, hremnant⟩ := ih hothers hsub
      exact ⟨conds', hconds, .debug hi (hbare hi) hremnant⟩
  | @member i c later group hi hmeets _ ih =>
    obtain ⟨-, hothers⟩ := List.forall_mem_cons.mp hdebug
    cases hsub with
    | cons _ hsub =>
      obtain ⟨conds', hconds, hremnant⟩ := ih hothers hsub
      exact ⟨conds', hconds.cons c, hremnant⟩
    | cons_cons _ hsub =>
      obtain ⟨conds', hconds, hremnant⟩ := ih hothers hsub
      refine ⟨c :: conds', hconds.cons_cons c, .member hi ⟨hmeets.needs, hmeets.pred_eq, fun hends => ?_⟩ hremnant⟩
      rw [hmeets.last hends] at hconds
      exact List.sublist_nil.mp hconds

namespace Remnant

theorem isIt_eq_false (h : Remnant conds members) : ∀ i ∈ members, i.isIt = false := by
  induction h with
  | nil => simp
  | debug hdebug _ _ ih => exact List.forall_mem_cons.mpr ⟨isIt_of_isDebug hdebug, ih⟩
  | member _ hmeets _ ih => exact List.forall_mem_cons.mpr ⟨isIt_of_needsGroup hmeets.needs, ih⟩

theorem conds_eq_nil_iff (h : Remnant conds members) : conds = [] ↔ ∀ i ∈ members, i.isDebug = true := by
  induction h with
  | nil => simp
  | debug hdebug _ _ ih =>
    rw [ih, List.forall_mem_cons]
    exact (and_iff_right hdebug).symm
  | member hdebug _ _ _ => simp [hdebug]

theorem bare (h : Remnant [] members) : ∀ i ∈ members, i.Bare := by
  generalize hconds : ([] : List Cond) = conds at h
  induction h with
  | nil => simp
  | debug _ hbare _ ih => exact List.forall_mem_cons.mpr ⟨hbare, ih hconds⟩
  | member => cases hconds

end Remnant

/-! ### New groups -/

/-- The instructions with a mark that none of them is covered. -/
def unmarked (code : Code) : List (Instr × Bool) :=
  code.map fun i => (i, false)

theorem marks_eq_unmarked (h : ∀ i ∈ code, i.isIt = false) : code.marks = unmarked code := by
  induction code with
  | nil => rfl
  | cons i rest ih =>
    obtain ⟨hit, hrest⟩ := List.forall_mem_cons.mp h
    rw [marks, coveredMarks_cons, coverage_eq_none hit, List.zip_cons_cons]
    exact congrArg ((i, false) :: ·) (ih hrest)

theorem noneOpen_unmarked (h : ∀ i ∈ code, i.Bare) : NoneOpen (unmarked code) := by
  intro entry hentry
  obtain ⟨i, hi, rfl⟩ := List.mem_map.mp hentry
  exact .inr (h i hi)

theorem takeMembers_fst_eq_nil {first : Cond} {room : Nat} (h : (takeMembers first room marked).1 = []) :
    (takeMembers first room marked).2 = marked := by
  fun_induction takeMembers first room marked <;> simp_all

/-- A group with enough room takes all members that are left. -/
theorem noneOpen_takeMembers {first : Cond} {room : Nat} (h : Remnant conds members)
    (hconds : ∀ c ∈ conds, c = first ∨ c = first.inverse) (hroom : conds.length ≤ room) :
    NoneOpen (takeMembers first room (unmarked members)).2 := by
  induction h generalizing room with
  | nil =>
    have hempty : NoneOpen (unmarked []) := fun _ hentry => by cases hentry
    cases room <;> exact hempty
  | @debug i conds rest hdebug hbare hrest ih =>
    cases room with
    | zero =>
      obtain rfl := List.eq_nil_of_length_eq_zero (Nat.le_zero.mp hroom)
      exact noneOpen_unmarked (List.forall_mem_cons.mpr ⟨hbare, hrest.bare⟩)
    | succ room =>
      have hlater := ih hconds hroom
      change NoneOpen (takeMembers first (room + 1) ((i, false) :: unmarked rest)).2
      rw [takeMembers, if_pos hdebug]
      split
      · next hnone =>
        -- no member follows, so the debug information is left where it is
        rw [takeMembers_fst_eq_nil (by rw [hnone])] at hlater
        exact List.forall_mem_cons.mpr ⟨.inr hbare, hlater⟩
      · next hsome =>
        rw [hsome] at hlater
        exact hlater
  | @member i c later rest hdebug hmeets hrest ih =>
    obtain ⟨hc, hlater⟩ := List.forall_mem_cons.mp hconds
    cases room with
    | zero => simp at hroom
    | succ room =>
      have hjoins : ¬(false || !i.needsGroup || !(i.pred = first || i.pred = first.inverse)) = true := by
        rw [← hmeets.pred_eq] at hc
        rcases hc with h | h <;> simp [hmeets.needs, h]
      change NoneOpen (takeMembers first (room + 1) ((i, false) :: unmarked rest)).2
      rw [takeMembers, if_neg (by simp [hdebug]), if_neg hjoins]
      split
      · next hends =>
        obtain rfl := hmeets.last hends
        exact noneOpen_unmarked hrest.bare
      · exact ih hlater (Nat.le_of_succ_le_succ hroom)

theorem length_regroup_unmarked (h : Remnant conds members) (halike : Alike conds)
    (hlength : conds.length ≤ maxGroupLength) :
    (regroup (unmarked members)).length = members.length + if conds = [] then 0 else 1 := by
  induction h with
  | nil =>
    rw [unmarked, List.map_nil, regroup]
    rfl
  | @debug i conds rest hdebug hbare hrest ih =>
    have hkept : (false || !i.needsGroup) = true := by simpa [Instr.Bare] using hbare
    change (regroup ((i, false) :: unmarked rest)).length = _
    rw [regroup, if_pos hkept, List.length_cons, ih halike hlength, List.length_cons]
    omega
  | @member i c later rest hdebug hmeets hrest ih =>
    have hroom : later.length ≤ groupRoom i := by
      rw [groupRoom]
      split
      · next hends =>
        rw [hmeets.last hends]
        exact Nat.le_refl 0
      · exact Nat.le_pred_of_lt hlength
    have hconds : ∀ d ∈ later, d = i.pred ∨ d = i.pred.inverse := by
      rw [hmeets.pred_eq]
      exact fun d hd => halike c List.mem_cons_self d (List.mem_cons_of_mem _ hd)
    have hsplit := congrArg List.length (takeMembers_append i.pred (groupRoom i) (unmarked rest))
    rw [List.length_append, List.length_map, List.length_map, unmarked, List.length_map, ← unmarked] at hsplit
    change (regroup ((i, false) :: unmarked rest)).length = _
    rw [regroup, if_neg (by simp [hmeets.needs])]
    simp only [List.length_cons, List.length_append]
    rw [regroup_eq_self (noneOpen_takeMembers hrest hconds hroom), List.length_map, if_neg (List.cons_ne_nil c later)]
    omega

/-- What is left of a group gets one new `It` if there is a member among it. -/
theorem Remnant.length_repair (h : Remnant conds members) (halike : Alike conds)
    (hlength : conds.length ≤ maxGroupLength) :
    (repair members).length = members.length + if conds = [] then 0 else 1 := by
  have hkept : dropStale members = members := by
    have hall := dropStale_append h.isIt_eq_false []
    rwa [List.append_nil, dropStale, List.append_nil] at hall
  rw [repair_eq, hkept, marks_eq_unmarked h.isIt_eq_false]
  exact length_regroup_unmarked h halike hlength

end Code
end ThumbHardening
