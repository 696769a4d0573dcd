import ThumbHardening.Proofs.Predication.Mask
import Mathlib.Data.List.Nodup

/-!
# Grouped code

Whether code is consistent is asked in terms of positions. Reading the code from front to back gives the same
answer: an `It` announces conditions, and the instructions behind it have to meet them one after the other
until none is left. Only then may another `It` follow, so groups never overlap.
-/

namespace ThumbHardening

/-- Whether an instruction can be the next member of a group that has the conditions `later` still to come. -/
structure Instr.Meets (i : Instr) (c : Cond) (later : List Cond) : Prop where
  needs : i.needsGroup = true
  pred_eq : i.pred = c
  last : i.opcode.endsGroup = true → later = []

/-- An instruction that needs no group. -/
def Instr.Bare (i : Instr) : Prop :=
  i.needsGroup = false

namespace Code

/-- Code that starts inside a group whose conditions `pending` are still to be met. What stands outside of
groups, and the debug information inside of them, satisfies `outside`. -/
inductive Grouped (outside : Instr → Prop) : (pending : List Cond) → Code → Prop
  | nil : Grouped outside [] []
  | plain {i rest} : i.isIt = false → outside i → Grouped outside [] rest →
      Grouped outside [] (i :: rest)
  | it {i conds rest} : i.announced? = some conds → Grouped outside conds rest →
      Grouped outside [] (i :: rest)
  | debug {i c later rest} : i.isDebug = true → outside i → Grouped outside (c :: later) rest →
      Grouped outside (c :: later) (i :: rest)
  | member {i c later rest} : i.isDebug = false → i.Meets c later → Grouped outside later rest →
      Grouped outside (c :: later) (i :: rest)

variable {i : Instr} {rest : Code} {c : Cond} {conds : List Cond} {positions : List Nat}

/-! ### Matching conditions -/

theorem coverage_eq (i : Instr) (behind : Code) :
    coverage i behind = i.announced?.bind fun conds => matchConds conds behind := by
  rw [coverage, Instr.announced?]
  cases i.itFields? <;> rfl

theorem matchConds_nil (code : Code) : matchConds [] code = some [] := by
  cases code <;> rfl

theorem matchConds_debug (hdebug : i.isDebug = true) :
    matchConds (c :: conds) (i :: rest)
      = (matchConds (c :: conds) rest).map (List.map (· + 1)) := by
  rw [matchConds, if_pos hdebug]

theorem matchConds_member (hdebug : i.isDebug = false) (hmeets : i.Meets c conds) :
    matchConds (c :: conds) (i :: rest)
      = (matchConds conds rest).map fun positions => 0 :: positions.map (· + 1) := by
  have hlast : (!i.opcode.endsGroup || conds.isEmpty) = true := by
    cases hends : i.opcode.endsGroup with
    | false => rfl
    | true => simp [hmeets.last hends]
  rw [matchConds, if_neg (by simp [hdebug]), if_pos]
  simp [hmeets.needs, hmeets.pred_eq, hlast]

theorem meets_of_matchConds (hdebug : i.isDebug = false)
    (h : matchConds (c :: conds) (i :: rest) = some positions) : i.Meets c conds := by
  rw [matchConds, if_neg (by simp [hdebug])] at h
  split at h
  · next hmeets =>
    simp only [Bool.and_eq_true, decide_eq_true_eq, Bool.or_eq_true, Bool.not_eq_true',
      List.isEmpty_iff] at hmeets
    exact ⟨hmeets.1.1, hmeets.1.2, fun hends => hmeets.2.resolve_left (by simp [hends])⟩
  · cases h

/-! ### Positions -/

theorem coverage_eq_none (hit : i.isIt = false) (behind : Code) : coverage i behind = none := by
  rw [coverage_eq, Instr.announced?_eq_none hit]
  rfl

theorem itPositions_cons (i : Instr) (rest : Code) :
    itPositions (i :: rest)
      = (if i.isIt then [0] else []) ++ (itPositions rest).map (· + 1) := by
  rw [itPositions, List.length_cons, List.range_succ_eq_map, List.filter_cons, List.filter_map]
  cases hit : i.isIt <;> simp [itPositions, Function.comp_def, hit]

theorem coveredBy_zero (i : Instr) (rest : Code) :
    coveredBy (i :: rest) 0 = (coverage i rest).map (List.map (· + 1)) := by
  simp only [coveredBy, List.getElem?_cons_zero, List.drop_succ_cons, List.drop_zero]
  cases hcoverage : coverage i rest <;> simp [hcoverage]

theorem coveredBy_succ (i : Instr) (rest : Code) (it : Nat) :
    coveredBy (i :: rest) (it + 1) = (coveredBy rest it).map (List.map (· + 1)) := by
  simp only [coveredBy, List.getElem?_cons_succ, List.drop_succ_cons]
  cases rest[it]? with
  | none => rfl
  | some other =>
    cases hcoverage : coverage other (rest.drop (it + 1)) with
    | none => simp [hcoverage]
    | some positions => simp [hcoverage, Nat.add_assoc]

theorem coveredPositions_cons (i : Instr) (rest : Code) :
    coveredPositions (i :: rest)
      = (((coverage i rest).getD []) ++ coveredPositions rest).map (· + 1) := by
  have htail : ((itPositions rest).map (· + 1)).flatMap
      (fun it => (coveredBy (i :: rest) it).getD []) = (coveredPositions rest).map (· + 1) := by
    rw [List.flatMap_map, coveredPositions, List.map_flatMap]
    congr 1
    funext it
    rw [coveredBy_succ]
    cases coveredBy rest it <;> rfl
  rw [coveredPositions, itPositions_cons, List.flatMap_append, htail, List.map_append]
  congr 1
  cases hit : i.isIt with
  | false => simp [coverage_eq_none hit]
  | true =>
    simp only [if_true, List.flatMap_singleton, coveredBy_zero]
    cases coverage i rest <;> rfl

theorem needsOnlyAt_iff {code : Code} :
    code.needsOnlyAt positions = true
      ↔ ∀ pos i, code[pos]? = some i → i.needsGroup = true → pos ∈ positions := by
  simp only [needsOnlyAt, List.all_eq_true, List.mem_range, Bool.or_eq_true, List.contains_iff_mem]
  constructor
  · intro h pos i hi hneeds
    obtain ⟨hlt, -⟩ := List.getElem?_eq_some_iff.mp hi
    apply (h pos hlt).resolve_right
    simp [hi, hneeds]
  · intro h pos hlt
    cases hneeds : code[pos].needsGroup with
    | true => exact .inl (h pos _ (List.getElem?_eq_getElem hlt) hneeds)
    | false => exact .inr (by simp [List.getElem?_eq_getElem hlt, hneeds])

/-! ### Consistency from front to back -/

/-- Whether code is consistent if the positions `before` are covered from outside. -/
structure Settled (before : List Nat) (code : Code) : Prop where
  agree : ∀ it ∈ code.itPositions, (coveredBy code it).isSome = true
  nodup : (before ++ code.coveredPositions).Nodup
  needsOnlyAt : code.needsOnlyAt (before ++ code.coveredPositions) = true

theorem isConsistent_iff_settled {code : Code} : code.isConsistent = true ↔ Settled [] code := by
  simp only [isConsistent, Bool.and_eq_true, List.all_eq_true, decide_eq_true_eq]
  exact ⟨fun h => ⟨h.1.1, h.1.2, h.2⟩, fun h => ⟨⟨h.agree, h.nodup⟩, h.needsOnlyAt⟩⟩

theorem agree_cons_iff :
    (∀ it ∈ itPositions (i :: rest), (coveredBy (i :: rest) it).isSome = true)
      ↔ (i.isIt = true → (coverage i rest).isSome = true) ∧
        ∀ it ∈ itPositions rest, (coveredBy rest it).isSome = true := by
  rw [itPositions_cons, List.forall_mem_append]
  apply and_congr
  · cases i.isIt <;> simp [coveredBy_zero]
  · simp [coveredBy_succ]

theorem needsOnlyAt_shift :
    needsOnlyAt (i :: rest) (positions.map (· + 1)) = true
      ↔ i.Bare ∧ rest.needsOnlyAt positions = true := by
  simp only [needsOnlyAt_iff, List.mem_map, Instr.Bare]
  constructor
  · intro h
    refine ⟨?_, fun pos j hj hneeds => ?_⟩
    · cases hneeds : i.needsGroup with
      | false => rfl
      | true =>
        obtain ⟨_, _, hzero⟩ := h 0 i rfl hneeds
        cases hzero
    · obtain ⟨p, hp, heq⟩ := h (pos + 1) j hj hneeds
      rwa [← Nat.succ.inj heq]
  · intro hparts pos j hj hneeds
    obtain ⟨hbare, h⟩ := hparts
    cases pos with
    | zero =>
      cases hj
      rw [hbare] at hneeds
      cases hneeds
    | succ pos => exact ⟨pos, h pos j hj hneeds, rfl⟩

theorem needsOnlyAt_shift_zero :
    needsOnlyAt (i :: rest) (0 :: positions.map (· + 1)) = true
      ↔ rest.needsOnlyAt positions = true := by
  simp only [needsOnlyAt_iff, List.mem_cons, List.mem_map]
  constructor
  · intro h pos j hj hneeds
    obtain ⟨p, hp, heq⟩ := (h (pos + 1) j hj hneeds).resolve_left (Nat.succ_ne_zero pos)
    rwa [← Nat.succ.inj heq]
  · intro h pos j hj hneeds
    cases pos with
    | zero => exact .inl rfl
    | succ pos => exact .inr ⟨pos, h pos j hj hneeds, rfl⟩

theorem nodup_shift {ps : List Nat} : (ps.map (· + 1)).Nodup ↔ ps.Nodup :=
  List.nodup_map_iff fun _ _ => Nat.succ.inj

/-- In front of the positions that are covered from outside stands an instruction outside of groups. -/
theorem settled_plain_iff (hit : i.isIt = false) :
    Settled (positions.map (· + 1)) (i :: rest) ↔ i.Bare ∧ Settled positions rest := by
  have hcovered : positions.map (· + 1) ++ coveredPositions (i :: rest)
      = (positions ++ coveredPositions rest).map (· + 1) := by
    rw [coveredPositions_cons, coverage_eq_none hit, List.map_append]
    simp
  constructor
  · intro hparts
    obtain ⟨hagree, hnodup, hneeds⟩ := hparts
    rw [hcovered] at hnodup hneeds
    obtain ⟨hbare, hneeds⟩ := needsOnlyAt_shift.mp hneeds
    exact ⟨hbare, (agree_cons_iff.mp hagree).2, nodup_shift.mp hnodup, hneeds⟩
  · intro hparts
    obtain ⟨hbare, hagree, hnodup, hneeds⟩ := hparts
    refine ⟨agree_cons_iff.mpr ⟨by simp [hit], hagree⟩, ?_, ?_⟩
    · rw [hcovered]
      exact nodup_shift.mpr hnodup
    · rw [hcovered]
      exact needsOnlyAt_shift.mpr ⟨hbare, hneeds⟩

/-- The first instruction is covered from outside. -/
theorem settled_member_iff (hit : i.isIt = false) :
    Settled (0 :: positions.map (· + 1)) (i :: rest) ↔ Settled positions rest := by
  have hcovered : 0 :: positions.map (· + 1) ++ coveredPositions (i :: rest)
      = 0 :: (positions ++ coveredPositions rest).map (· + 1) := by
    rw [coveredPositions_cons, coverage_eq_none hit, List.map_append]
    simp
  have hnotin : 0 ∉ (positions ++ coveredPositions rest).map (· + 1) := by simp
  constructor
  · intro hparts
    obtain ⟨hagree, hnodup, hneeds⟩ := hparts
    rw [hcovered] at hnodup hneeds
    exact ⟨(agree_cons_iff.mp hagree).2, nodup_shift.mp (List.nodup_cons.mp hnodup).2,
      needsOnlyAt_shift_zero.mp hneeds⟩
  · intro hparts
    obtain ⟨hagree, hnodup, hneeds⟩ := hparts
    refine ⟨agree_cons_iff.mpr ⟨by simp [hit], hagree⟩, ?_, ?_⟩
    · rw [hcovered]
      exact List.nodup_cons.mpr ⟨hnotin, nodup_shift.mpr hnodup⟩
    · rw [hcovered]
      exact needsOnlyAt_shift_zero.mpr hneeds

/-- What the first instruction covers is covered from outside for the code behind it. -/
theorem settled_it_iff (hit : i.isIt = true) :
    Settled [] (i :: rest) ↔ ∃ ps, coverage i rest = some ps ∧ Settled ps rest := by
  have hbare : i.Bare := by simp [Instr.Bare, Instr.needsGroup, hit]
  constructor
  · intro hparts
    obtain ⟨hagree, hnodup, hneeds⟩ := hparts
    obtain ⟨hfirst, hagree⟩ := agree_cons_iff.mp hagree
    obtain ⟨ps, hps⟩ := Option.isSome_iff_exists.mp (hfirst hit)
    rw [List.nil_append, coveredPositions_cons, hps] at hnodup hneeds
    exact ⟨ps, hps, hagree, nodup_shift.mp hnodup, (needsOnlyAt_shift.mp hneeds).2⟩
  · intro hparts
    obtain ⟨ps, hps, hagree, hnodup, hneeds⟩ := hparts
    refine ⟨agree_cons_iff.mpr ⟨fun _ => by rw [hps]; rfl, hagree⟩, ?_, ?_⟩
    · rw [List.nil_append, coveredPositions_cons, hps]
      exact nodup_shift.mpr hnodup
    · rw [List.nil_append, coveredPositions_cons, hps]
      exact needsOnlyAt_shift.mpr ⟨hbare, hneeds⟩

theorem isIt_of_isDebug (hdebug : i.isDebug = true) : i.isIt = false := by
  simp only [Instr.isDebug, decide_eq_true_eq] at hdebug
  simp [Instr.isIt, hdebug]

theorem isDebug_of_isIt (hit : i.isIt = true) : i.isDebug = false := by
  cases hdebug : i.isDebug with
  | false => rfl
  | true =>
    rw [isIt_of_isDebug hdebug] at hit
    cases hit

theorem isIt_of_needsGroup (hneeds : i.needsGroup = true) : i.isIt = false := by
  simp only [Instr.needsGroup, Bool.and_eq_true, Bool.not_eq_true'] at hneeds
  exact hneeds.2

theorem pred_ne_al_of_needsGroup (hneeds : i.needsGroup = true) : i.pred ≠ .al := by
  simp only [Instr.needsGroup, Instr.isConditional, Bool.and_eq_true, decide_eq_true_eq] at hneeds
  exact hneeds.1.1

/-- Grouped code meets the conditions to come, and is settled with what they cover. -/
theorem Grouped.settled {code : Code} (h : Grouped Instr.Bare conds code) :
    ∃ positions, matchConds conds code = some positions ∧ Settled positions code := by
  induction h with
  | nil => exact ⟨[], rfl, isConsistent_iff_settled.mp (by decide)⟩
  | plain hit hbare _ ih =>
    obtain ⟨positions, hmatch, hsettled⟩ := ih
    rw [matchConds_nil] at hmatch
    cases hmatch
    exact ⟨[], rfl, (settled_plain_iff hit).mpr ⟨hbare, hsettled⟩⟩
  | it hconds _ ih =>
    obtain ⟨positions, hmatch, hsettled⟩ := ih
    refine ⟨[], rfl, (settled_it_iff (Instr.isIt_of_announced? hconds)).mpr
      ⟨positions, ?_, hsettled⟩⟩
    rw [coverage_eq, hconds]
    exact hmatch
  | debug hdebug hbare _ ih =>
    obtain ⟨positions, hmatch, hsettled⟩ := ih
    refine ⟨positions.map (· + 1), ?_,
      (settled_plain_iff (isIt_of_isDebug hdebug)).mpr ⟨hbare, hsettled⟩⟩
    rw [matchConds_debug hdebug, hmatch]
    rfl
  | member hdebug hmeets _ ih =>
    obtain ⟨positions, hmatch, hsettled⟩ := ih
    refine ⟨0 :: positions.map (· + 1), ?_,
      (settled_member_iff (isIt_of_needsGroup hmeets.needs)).mpr hsettled⟩
    rw [matchConds_member hdebug hmeets, hmatch]
    rfl

theorem grouped_of_settled {code : Code} (hmatch : matchConds conds code = some positions)
    (hsettled : Settled positions code) : Grouped Instr.Bare conds code := by
  induction code generalizing conds positions with
  | nil =>
    cases conds with
    | nil => exact .nil
    | cons c later => cases hmatch
  | cons i rest ih =>
    cases conds with
    | nil =>
      cases hmatch
      cases hit : i.isIt with
      | false =>
        have hplain : Settled (List.map (· + 1) []) (i :: rest) := hsettled
        obtain ⟨hbare, hrest⟩ := (settled_plain_iff hit).mp hplain
        exact .plain hit hbare (ih (matchConds_nil rest) hrest)
      | true =>
        obtain ⟨ps, hcoverage, hrest⟩ := (settled_it_iff hit).mp hsettled
        rw [coverage_eq] at hcoverage
        obtain ⟨conds, hconds, hmatch⟩ := Option.bind_eq_some_iff.mp hcoverage
        exact .it hconds (ih hmatch hrest)
    | cons c later =>
      cases hdebug : i.isDebug with
      | true =>
        rw [matchConds_debug hdebug] at hmatch
        obtain ⟨ps, hrest, rfl⟩ := Option.map_eq_some_iff.mp hmatch
        obtain ⟨hbare, hsettled⟩ := (settled_plain_iff (isIt_of_isDebug hdebug)).mp hsettled
        exact .debug hdebug hbare (ih hrest hsettled)
      | false =>
        have hmeets := meets_of_matchConds hdebug hmatch
        rw [matchConds_member hdebug hmeets] at hmatch
        obtain ⟨ps, hrest, rfl⟩ := Option.map_eq_some_iff.mp hmatch
        have hsettled := (settled_member_iff (isIt_of_needsGroup hmeets.needs)).mp hsettled
        exact .member hdebug hmeets (ih hrest hsettled)

/-- Code is consistent if it can be read from front to back as groups and instructions that need none. -/
theorem isConsistent_iff_grouped {code : Code} :
    code.isConsistent = true ↔ Grouped Instr.Bare [] code := by
  rw [isConsistent_iff_settled]
  constructor
  · intro hsettled
    exact grouped_of_settled (matchConds_nil code) hsettled
  · intro hgrouped
    obtain ⟨positions, hmatch, hsettled⟩ := hgrouped.settled
    rw [matchConds_nil] at hmatch
    cases hmatch
    exact hsettled

end Code
end ThumbHardening
