import ThumbHardening.Proofs.Predication.Lengths
import Mathlib.Data.List.Nodup

/-!
# Finding the group of an instruction

The search for the `It` of an instruction looks at a few instructions in front of it only, debug information not
counted. Nothing is missed by that, in code of any kind: between an `It` and what it covers stand members of its
group and debug information, so there is no other `It` in between, and no more instructions than a group has.
-/

namespace ThumbHardening
namespace Code

/-- The instruction at position `it` is an `It` that agrees with the code and covers the instruction at position
`index`. -/
def Covers (code : Code) (it index : Nat) : Prop :=
  ∃ i covered, code[it]? = some i ∧ i.isIt = true ∧ coveredBy code it = some covered ∧ index ∈ covered

variable {code members : Code} {conds : List Cond} {covered : List Nat} {i j : Instr} {index it it' k : Nat}

/-! ### What a group covers -/

/-- The positions of the members in a stretch of code. -/
def memberPositions (members : Code) : List Nat :=
  (List.range members.length).filter fun pos => (members[pos]?).any fun i => !i.isDebug

theorem mem_memberPositions : k ∈ memberPositions members ↔ ∃ i, members[k]? = some i ∧ i.isDebug = false := by
  rw [memberPositions, List.mem_filter, List.mem_range, Option.any_eq_true]
  constructor
  · rintro ⟨-, i, hi, hdebug⟩
    exact ⟨i, hi, by simpa using hdebug⟩
  · rintro ⟨i, hi, hdebug⟩
    exact ⟨(List.getElem?_eq_some_iff.mp hi).1, i, hi, by simpa using hdebug⟩

theorem nodup_memberPositions (members : Code) : (memberPositions members).Nodup :=
  List.nodup_range.filter _

theorem memberPositions_cons (i : Instr) (rest : Code) :
    memberPositions (i :: rest) = (if i.isDebug then [] else [0]) ++ (memberPositions rest).map (· + 1) := by
  rw [memberPositions, List.length_cons, List.range_succ_eq_map, List.filter_cons, List.filter_map]
  cases hdebug : i.isDebug <;> simp [memberPositions, Function.comp_def, hdebug]

theorem Stretch.matchConds_eq (h : Stretch conds members) (behind : Code) :
    matchConds conds (members ++ behind) = some (memberPositions members) := by
  induction h with
  | nil => exact matchConds_nil behind
  | @debug i c later group hdebug _ ih =>
    rw [List.cons_append, matchConds_debug hdebug, ih, memberPositions_cons, if_pos hdebug]
    rfl
  | @member i c later group hdebug hmeets _ ih =>
    rw [List.cons_append, matchConds_member hdebug hmeets, ih, memberPositions_cons, if_neg (by simp [hdebug])]
    rfl

theorem Stretch.length_memberPositions (h : Stretch conds members) :
    (memberPositions members).length = conds.length := by
  induction h with
  | nil => rfl
  | debug hdebug _ ih =>
    rw [memberPositions_cons, if_pos hdebug, List.nil_append, List.length_map, ih]
  | member hdebug _ _ ih =>
    rw [memberPositions_cons, if_neg (by simp [hdebug]), List.singleton_append, List.length_cons, List.length_map, ih,
      List.length_cons]

theorem coveredBy_group (hconds : i.announced? = some conds) (hmembers : Stretch conds members) (front back : Code) :
    coveredBy (front ++ (i :: members ++ back)) front.length
      = some ((memberPositions members).map (· + (front.length + 1))) :=
  coveredBy_of_matchConds hconds (hmembers.matchConds_eq back) front

theorem covers_of_coveredBy (h : coveredBy code it = some covered) (hindex : index ∈ covered) :
    Covers code it index := by
  obtain ⟨front, i, group, behind, conds, positions, rfl, rfl, hconds, -⟩ := exists_stretch_of_coveredBy h
  exact ⟨i, covered, getElem?_between .., Instr.isIt_of_announced? hconds, h, hindex⟩

theorem covers_iff : (coveredBy code it).any (·.contains index) = true ↔ Covers code it index := by
  rw [Option.any_eq_true]
  constructor
  · rintro ⟨covered, hcovered, hindex⟩
    exact covers_of_coveredBy hcovered (List.contains_iff_mem.mp hindex)
  · rintro ⟨i, covered, -, -, hcovered, hindex⟩
    exact ⟨covered, hcovered, List.contains_iff_mem.mpr hindex⟩

/-- An `It` and its group around one of the members. -/
theorem Covers.exists_group (h : Covers code it index) :
    ∃ front i members back conds m, code = front ++ (i :: members ++ back) ∧ it = front.length ∧
      index = front.length + 1 + m ∧ i.announced? = some conds ∧ Stretch conds members ∧
      m ∈ memberPositions members := by
  obtain ⟨-, covered, -, -, hcovered, hindex⟩ := h
  obtain ⟨front, i, members, back, conds, positions, rfl, rfl, hconds, hmembers, hfound, -, rfl⟩ :=
    exists_stretch_of_coveredBy hcovered
  obtain rfl := Option.some.inj ((hfound back).symm.trans (hmembers.matchConds_eq back))
  obtain ⟨m, hm, rfl⟩ := List.mem_map.mp hindex
  exact ⟨front, i, members, back, conds, m, rfl, rfl, Nat.add_comm .., hconds, hmembers, hm⟩

theorem getElem?_group {front back : Code} (hk : k < members.length) :
    (front ++ (i :: members ++ back))[front.length + 1 + k]? = members[k]? := by
  have hpos : front.length + 1 + k - front.length = k + 1 := by omega
  rw [List.getElem?_append_right (by omega), hpos, List.cons_append, List.getElem?_cons_succ,
    List.getElem?_append_left hk]

theorem lt_length_of_mem_memberPositions (h : k ∈ memberPositions members) : k < members.length :=
  List.mem_range.mp (List.mem_filter.mp h).1

/-! ### One group at most -/

theorem Covers.bounds (h : Covers code it index) : it < index ∧ index < code.length := by
  obtain ⟨front, i, members, back, conds, m, rfl, rfl, rfl, -, -, hm⟩ := h.exists_group
  have hlt := lt_length_of_mem_memberPositions hm
  simp only [List.length_append, List.length_cons]
  omega

/-- Between an `It` and an instruction that it covers there is no other one. -/
theorem Covers.isIt_eq_false (h : Covers code it index) (hlt : it < k) (hle : k ≤ index) (hj : code[k]? = some j) :
    j.isIt = false := by
  obtain ⟨front, i, members, back, conds, m, rfl, rfl, rfl, -, hmembers, hm⟩ := h.exists_group
  have hmlt := lt_length_of_mem_memberPositions hm
  obtain ⟨pos, rfl⟩ := Nat.exists_eq_add_of_le (Nat.succ_le_of_lt hlt)
  rw [getElem?_group (by omega)] at hj
  exact hmembers.isIt_eq_false j (List.mem_of_getElem? hj)

theorem Covers.not_lt (h : Covers code it index) (h' : Covers code it' index) : ¬ it < it' := by
  intro hlt
  have hle := Nat.le_of_lt h'.bounds.1
  obtain ⟨j, -, hj, hit, -⟩ := h'
  simp [h.isIt_eq_false hlt hle hj] at hit

theorem Covers.unique (h : Covers code it index) (h' : Covers code it' index) : it = it' :=
  Nat.le_antisymm (Nat.not_lt.mp (h'.not_lt h)) (Nat.not_lt.mp (h.not_lt h'))

/-! ### The search -/

/-- Among any candidates, the one `It` that covers the instruction is found if it is there. -/
theorem find?_eq_some_iff_covers {candidates : List Nat} (hreach : ∀ it, Covers code it index → it ∈ candidates) :
    candidates.find? (fun it => (coveredBy code it).any (·.contains index)) = some it ↔ Covers code it index := by
  constructor
  · intro h
    exact covers_iff.mp (List.find?_some (p := fun it => (coveredBy code it).any (·.contains index)) h)
  · intro h
    have hsome : (candidates.find? fun it => (coveredBy code it).any (·.contains index)).isSome = true :=
      List.find?_isSome.mpr ⟨it, hreach it h, covers_iff.mpr h⟩
    obtain ⟨found, hfound⟩ := Option.isSome_iff_exists.mp hsome
    have hcovers := List.find?_some (p := fun it => (coveredBy code it).any (·.contains index)) hfound
    rw [hfound, (covers_iff.mp hcovers).unique h]

/-- Going back from a position, a search that looks at so many candidates gets to the one behind fewer of them. -/
theorem mem_take_filter_reverse_range {p : Nat → Bool} {m w : Nat} (hit : p it = true)
    (hcount : ((List.range m).filter fun pos => p (it + 1 + pos)).length < w) :
    it ∈ (((List.range (it + 1 + m)).reverse.filter p).take w) := by
  have hlist : (List.range (it + 1 + m)).reverse.filter p
      = (((List.range m).map (it + 1 + ·)).filter p).reverse ++ it :: ((List.range it).filter p).reverse := by
    rw [List.range_add, List.range_succ, List.reverse_append, List.reverse_append, List.reverse_singleton,
      List.filter_append, List.filter_append, List.filter_reverse, List.filter_reverse, List.filter_cons, if_pos hit]
    rfl
  have hlength : (((List.range m).map (it + 1 + ·)).filter p).reverse.length < w := by
    rw [List.length_reverse, List.filter_map, List.length_map]
    exact hcount
  rw [hlist, List.take_append, List.take_of_length_le (Nat.le_of_lt hlength)]
  obtain ⟨more, hmore⟩ := Nat.exists_eq_succ_of_ne_zero (Nat.sub_ne_zero_of_lt hlength)
  rw [hmore, List.take_succ_cons]
  exact List.mem_append_right _ List.mem_cons_self

/-- Between an `It` and an instruction that it covers stand fewer instructions than a group has, debug information
not counted. -/
theorem length_filter_le_maxGroupLength {m : Nat} (hconds : i.announced? = some conds)
    (hmembers : Stretch conds members) (hm : m ≤ members.length) (front back : Code) :
    ((List.range m).filter fun pos =>
      ((front ++ (i :: members ++ back))[front.length + 1 + pos]?).any fun j => !j.isDebug).length
      ≤ maxGroupLength := by
  have hsame : ((List.range m).filter fun pos =>
      ((front ++ (i :: members ++ back))[front.length + 1 + pos]?).any fun j => !j.isDebug)
      = (List.range m).filter fun pos => (members[pos]?).any fun j => !j.isDebug := by
    refine List.filter_congr fun pos hpos => ?_
    rw [getElem?_group (Nat.lt_of_lt_of_le (List.mem_range.mp hpos) hm)]
  have hsub : ((List.range m).filter fun pos => (members[pos]?).any fun j => !j.isDebug).Sublist
      (memberPositions members) := (List.range_sublist.mpr hm).filter _
  rw [hsame]
  refine Nat.le_trans hsub.length_le ?_
  rw [hmembers.length_memberPositions]
  exact (Instr.announced?_bounds hconds).1

/-- The search finds the `It` that covers an instruction, wherever that is. -/
theorem findGroup_eq_some_iff : code.findGroup index = some it ↔ Covers code it index := by
  refine find?_eq_some_iff_covers fun it h => ?_
  rw [Nat.min_eq_left (Nat.le_of_lt h.bounds.2)]
  obtain ⟨front, i, members, back, conds, m, rfl, rfl, rfl, hconds, hmembers, hm⟩ := h.exists_group
  have hfirst : ((front ++ (i :: members ++ back))[front.length]?).any (fun j => !j.isDebug) = true := by
    rw [List.cons_append, getElem?_between]
    simp [isDebug_of_isIt (Instr.isIt_of_announced? hconds)]
  have hcount := length_filter_le_maxGroupLength hconds hmembers
    (Nat.le_of_lt (lt_length_of_mem_memberPositions hm)) front back
  exact mem_take_filter_reverse_range hfirst (Nat.lt_of_le_of_lt hcount (by decide))

theorem mem_itPositions_of_covers (h : Covers code it index) : it ∈ code.itPositions := by
  obtain ⟨i, covered, hi, hit, -⟩ := h
  refine List.mem_filter.mpr ⟨List.mem_range.mpr (List.getElem?_eq_some_iff.mp hi).1, ?_⟩
  rw [hi, Option.any_some, hit]

/-- In all code, consistent or not, the search finds an `It` exactly if it covers the instruction, and so finds what
a search of the whole code finds. At most one `It` covers an instruction, as no two of them cover the same one. -/
theorem findGroup_complete (code : Code) (index : Nat) :
    (∀ it, code.findGroup index = some it ↔ Covers code it index) ∧
    code.findGroup index = code.itPositions.find? (fun it => (coveredBy code it).any (·.contains index)) ∧
    (∀ it it', Covers code it index → Covers code it' index → it = it') ∧
    ∀ it it' covered covered', coveredBy code it = some covered → coveredBy code it' = some covered' → it ≠ it' →
      covered.Disjoint covered' := by
  refine ⟨fun _ => findGroup_eq_some_iff, Option.ext fun it => ?_, fun _ _ => Covers.unique, ?_⟩
  · rw [findGroup_eq_some_iff, find?_eq_some_iff_covers fun _ => mem_itPositions_of_covers]
  · intro it it' covered covered' hcovered hcovered' hne index hindex hindex'
    exact hne ((covers_of_coveredBy hcovered hindex).unique (covers_of_coveredBy hcovered' hindex'))

/-- A move on its own, and two moves with debug information between them. -/
def twoGroups : Code :=
  let move : Instr := { Instr.mov (.phys .r0) (.phys .r1) with pred := .eq }
  [.it .eq 8, move, .debugMark, .it .eq 4, move, .debugMark, move]

theorem findGroup_complete_twoGroups :
    coveredBy twoGroups 0 = some [1] ∧ coveredBy twoGroups 3 = some [4, 6] ∧
      twoGroups.findGroup 6 = some 3 ∧ [1].Disjoint [4, 6] := by
  have hsingle : coveredBy twoGroups 0 = some [1] := by decide
  have hpair : coveredBy twoGroups 3 = some [4, 6] := by decide
  obtain ⟨hfound, -, -, hdisjoint⟩ := findGroup_complete twoGroups 6
  exact ⟨hsingle, hpair, (hfound 3).mpr (covers_of_coveredBy hpair (by decide)),
    hdisjoint 0 3 _ _ hsingle hpair (by decide)⟩

/-- A group of four moves with debug information between them. -/
def spreadGroup : Code :=
  let move : Instr := { Instr.mov (.phys .r0) (.phys .r1) with pred := .eq }
  let spread := move :: List.replicate 4 .debugMark
  .it .eq 1 :: (spread ++ spread ++ spread ++ [move])

example : spreadGroup.findGroup 16 = some 0 ∧ spreadGroup.findGroup 5 = none := by decide

end Code
end ThumbHardening
