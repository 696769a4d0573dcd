import ThumbHardening.Proofs.Predication.Kept

/-!
# Groups on one side of a cut

An `It` and the instructions that it covers are one stretch of code. If a block is cut in front of the stretch or
behind it, one of the parts still holds all of it, and a repair of that part leaves it as it is.
-/

namespace ThumbHardening
namespace Code

variable {code group members : Code} {conds : List Cond} {i : Instr} {it index : Nat}

/-- The instructions from an `It` that agrees with the code to the last one that it covers. -/
def GroupAt (code : Code) (it : Nat) (group : Code) : Prop :=
  ∃ covered last, coveredBy code it = some covered ∧ covered.getLast? = some last ∧
    group = (code.take (last + 1)).drop it

/-- A stretch ends with the last instruction that meets a condition. -/
theorem Stretch.length_eq {positions : List Nat} {behind : Code} (h : Stretch conds members)
    (hmatch : matchConds conds (members ++ behind) = some positions) :
    members.length = (positions.getLast?.map (· + 1)).getD 0 := by
  induction h generalizing positions with
  | nil =>
    rw [matchConds_nil] at hmatch
    cases hmatch
    rfl
  | @debug i c later group hdebug hgroup ih =>
    rw [List.cons_append, matchConds_debug hdebug] at hmatch
    obtain ⟨ps, hrest, rfl⟩ := Option.map_eq_some_iff.mp hmatch
    have hlength := ih hrest
    rw [List.length_cons, hlength, List.getLast?_map]
    cases hlast : ps.getLast? with
    | some last => rfl
    | none =>
      -- a condition is left to be met, so the stretch goes on
      rw [hlast] at hlength
      rw [List.eq_nil_of_length_eq_zero hlength] at hgroup
      cases hgroup
  | @member i c later group hdebug hmeets hgroup ih =>
    rw [List.cons_append, matchConds_member hdebug hmeets] at hmatch
    obtain ⟨ps, hrest, rfl⟩ := Option.map_eq_some_iff.mp hmatch
    rw [List.length_cons, ih hrest, List.getLast?_cons, List.getLast?_map]
    cases ps.getLast? <;> rfl

theorem drop_take_append (front members behind : Code) (i : Instr) :
    ((front ++ i :: (members ++ behind)).take (front.length + (members.length + 1))).drop front.length
      = i :: members := by
  rw [List.take_length_add_append, List.drop_left, List.take_succ_cons, List.take_left]

/-- A group is an `It` and a stretch for the conditions that it announces. -/
theorem groupAt_iff :
    GroupAt code it group ↔ ∃ front i members behind conds, code = front ++ i :: (members ++ behind) ∧
      it = front.length ∧ group = i :: members ∧ i.announced? = some conds ∧ Stretch conds members := by
  constructor
  · rintro ⟨covered, last, hcovered, hlast, rfl⟩
    obtain ⟨front, i, members, behind, conds, positions, rfl, rfl, hconds, hmembers, hfound, -, rfl⟩ :=
      exists_stretch_of_coveredBy hcovered
    refine ⟨front, i, members, behind, conds, rfl, rfl, ?_, hconds, hmembers⟩
    have hlength := hmembers.length_eq (hfound behind)
    rw [List.getLast?_map] at hlast
    obtain ⟨pos, hpos, rfl⟩ := Option.map_eq_some_iff.mp hlast
    rw [hpos, Option.map_some, Option.getD_some] at hlength
    rw [← drop_take_append front members behind i, hlength]
    congr 2
    omega
  · rintro ⟨front, i, members, behind, conds, rfl, rfl, rfl, hconds, hmembers⟩
    obtain ⟨positions, hfound⟩ := hmembers.matchConds_append
    have hlength := hmembers.length_eq (hfound behind)
    obtain ⟨pos, hpos⟩ : ∃ pos, positions.getLast? = some pos := by
      rw [← Option.ne_none_iff_exists']
      intro hnone
      rw [hnone] at hlength
      rw [List.eq_nil_of_length_eq_zero hlength] at hmembers
      cases hmembers
      exact announced?_ne_nil hconds rfl
    rw [hpos, Option.map_some, Option.getD_some] at hlength
    refine ⟨_, pos + (front.length + 1), coveredBy_of_matchConds hconds (hfound behind) front, ?_, ?_⟩
    · rw [List.getLast?_map, hpos, Option.map_some]
    · rw [← drop_take_append front members behind i, hlength]
      congr 2
      omega

/-! ### Cuts and repairs -/

theorem GroupAt.take (h : GroupAt code it group) (hindex : it + group.length ≤ index) :
    GroupAt (code.take index) it group := by
  obtain ⟨front, i, members, behind, conds, rfl, rfl, rfl, hconds, hmembers⟩ := groupAt_iff.mp h
  rw [List.length_cons] at hindex
  refine groupAt_iff.mpr ⟨front, i, members, behind.take (index - (front.length + 1 + members.length)), conds, ?_,
    rfl, rfl, hconds, hmembers⟩
  -- the cut leaves so many more instructions behind the group
  obtain ⟨more, rfl⟩ : ∃ more, index = front.length + (members.length + more + 1) :=
    ⟨index - (front.length + members.length + 1), by omega⟩
  have hmore : front.length + (members.length + more + 1) - (front.length + 1 + members.length) = more := by omega
  rw [List.take_length_add_append, List.take_succ_cons, List.take_length_add_append, hmore]

theorem GroupAt.drop (h : GroupAt code it group) (hindex : index ≤ it) :
    GroupAt (code.drop index) (it - index) group := by
  obtain ⟨front, i, members, behind, conds, rfl, rfl, rfl, hconds, hmembers⟩ := groupAt_iff.mp h
  refine groupAt_iff.mpr ⟨front.drop index, i, members, behind, conds, ?_, List.length_drop.symm, rfl, hconds,
    hmembers⟩
  exact List.drop_append_of_le_length hindex

theorem GroupAt.repair (h : GroupAt code it group) (hdebug : DebugBare code) :
    ∃ it', GroupAt (repair code) it' group ∧ rankOf (repair code) it' = rankOf code it := by
  obtain ⟨front, i, members, behind, conds, rfl, rfl, rfl, hconds, hmembers⟩ := groupAt_iff.mp h
  obtain ⟨front', behind', hrepair, hordinary⟩ := exists_repair_group hconds hmembers
    (fun j hj => hdebug j (by simp [hj])) front behind
  refine ⟨front'.length, groupAt_iff.mpr ⟨front', i, members, behind', conds, hrepair, rfl, rfl, hconds, hmembers⟩,
    ?_⟩
  rw [hrepair, rankOf_append, rankOf_append, hordinary]

theorem rankOf_take (h : it ≤ index) : rankOf (code.take index) it = rankOf code it := by
  rw [rankOf, rankOf, List.take_take, Nat.min_eq_left h]

theorem rankOf_drop (h : index ≤ it) : rankOf code index + rankOf (code.drop index) (it - index) = rankOf code it := by
  obtain ⟨more, rfl⟩ := Nat.exists_eq_add_of_le h
  rw [rankOf, rankOf, rankOf, Nat.add_sub_cancel_left, ← List.countP_append, ← List.take_add]

/-- The part in front of a cut keeps the groups that end there. -/
theorem GroupAt.repair_take (h : GroupAt code it group) (hdebug : DebugBare code)
    (hindex : it + group.length ≤ index) :
    ∃ it', GroupAt (Code.repair (code.take index)) it' group ∧
      rankOf (Code.repair (code.take index)) it' = rankOf code it := by
  obtain ⟨it', hgroup, hrank⟩ := (h.take hindex).repair fun j hj => hdebug j (List.mem_of_mem_take hj)
  exact ⟨it', hgroup, hrank.trans (rankOf_take (by omega))⟩

/-- The part behind a cut keeps the groups that start there. -/
theorem GroupAt.repair_drop (h : GroupAt code it group) (hdebug : DebugBare code) (hindex : index ≤ it) :
    ∃ it', GroupAt (Code.repair (code.drop index)) it' group ∧
      rankOf code index + rankOf (Code.repair (code.drop index)) it' = rankOf code it := by
  obtain ⟨it', hgroup, hrank⟩ := (h.drop hindex).repair fun j hj => hdebug j (List.mem_of_mem_drop hj)
  exact ⟨it', hgroup, by rw [hrank, rankOf_drop hindex]⟩

end Code
end ThumbHardening
