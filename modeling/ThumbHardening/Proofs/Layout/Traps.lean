import ThumbHardening.Proofs.Layout.Budget
import ThumbHardening.Proofs.Layout.Draws

/-!
# Trap blocks in a plan

The pool starts with the trap blocks of the program. So a plan etches no block but one whose trap was free, and
all addresses of blocks that its decoys hold are addresses of trap blocks.
-/

namespace ThumbHardening

/-- The blocks of a program that satisfy a condition, in layout order. -/
def Program.blockPointers (p : Program) (keep : Block → Bool) : List BlockPointer :=
  p.functions.elems.flatMap fun f => (f.blocks.filter keep).map fun b => ⟨f.id, b.id⟩

theorem Program.mem_blockPointers_iff {p : Program} {keep : Block → Bool} {t : BlockPointer} :
    t ∈ p.blockPointers keep ↔ ∃ f ∈ p.functions.elems, ∃ b ∈ f.blocks, keep b = true ∧
      f.id = t.function ∧ b.id = t.block := by
  simp only [blockPointers, List.mem_flatMap, List.mem_map, List.mem_filter, and_assoc]
  apply exists_congr
  intro f
  apply and_congr_right
  intro _
  apply exists_congr
  intro b
  apply and_congr_right
  intro _
  apply and_congr_right
  intro _
  cases t
  simp

theorem Program.nodup_blockPointers {p : Program} (hfunctions : p.functions.ids.Nodup)
    (hblocks : ∀ f ∈ p.functions.elems, (f.blocks.map Block.id).Nodup) (keep : Block → Bool) :
    (p.blockPointers keep).Nodup := by
  refine List.nodup_flatMap.mpr ⟨fun f hf => ?_, ?_⟩
  · have hids : ((f.blocks.filter keep).map Block.id).Nodup :=
      (hblocks f hf).sublist (List.filter_sublist.map _)
    refine List.Nodup.of_map BlockPointer.block ?_
    rwa [List.map_map]
  · refine (List.pairwise_map.mp hfunctions).imp fun hne t ht ht' => ?_
    obtain ⟨_, -, rfl⟩ := List.mem_map.mp ht
    obtain ⟨_, -, heq⟩ := List.mem_map.mp ht'
    exact hne (congrArg BlockPointer.function heq).symm

namespace TrapPool

variable {p : Program} {f : Function} {pool pool' : TrapPool} {blocks : List Block} {t : BlockPointer}

/-! ### The blocks of a program -/

/-- Whether the trap at the start of a block can still be etched. -/
def isFree (b : Block) : Bool :=
  isUnetched? b = some true

/-- A trap that can be etched holds a number. -/
theorem exists_imm_of_isFree {b : Block} (h : isFree b = true) :
    ∃ i rest n operands, b.instrs = i :: rest ∧ i.operands = .imm n :: operands := by
  have hunetched := of_decide_eq_true h
  rw [isUnetched?] at hunetched
  split at hunetched
  · next n hfirst =>
    obtain ⟨i, hi, hoperand⟩ := Option.bind_eq_some_iff.mp hfirst
    obtain ⟨rest, hcode⟩ := List.head?_eq_some_iff.mp hi
    obtain ⟨operands, hoperands⟩ := List.head?_eq_some_iff.mp hoperand
    exact ⟨i, rest, n, operands, hcode, hoperands⟩
  · cases hunetched
  · cases hunetched

theorem foldlM_addBlock (h : blocks.foldlM (addBlock f) pool = .ok pool') :
    pool'.all = pool.all ++ blocks.map (fun b => ⟨f.id, b.id⟩) ∧
      pool'.unetched = pool.unetched ++ (blocks.filter isFree).map fun b => ⟨f.id, b.id⟩ := by
  induction blocks generalizing pool with
  | nil =>
    cases h
    simp
  | cons b rest ih =>
    rw [List.foldlM_cons] at h
    obtain ⟨next, hnext, hrest⟩ := Outcome.bind_eq_ok_iff.mp h
    rw [addBlock] at hnext
    split at hnext
    · cases hnext
    · next free hfree =>
      cases hnext
      obtain ⟨hall, hunetched⟩ := ih hrest
      rw [hall, hunetched]
      cases free <;> simp [isFree, hfree]

theorem foldlM_addFunction {functions : List Function}
    (h : functions.foldlM addFunction pool = .ok pool') :
    pool'.all = pool.all ++ functions.flatMap (fun f =>
        (f.blocks.filter Block.trap).map fun b => ⟨f.id, b.id⟩) ∧
      pool'.unetched = pool.unetched ++ functions.flatMap fun f =>
        (f.blocks.filter fun b => b.trap && isFree b).map fun b => ⟨f.id, b.id⟩ := by
  induction functions generalizing pool with
  | nil =>
    cases h
    simp
  | cons f rest ih =>
    rw [List.foldlM_cons] at h
    obtain ⟨next, hnext, hrest⟩ := Outcome.bind_eq_ok_iff.mp h
    obtain ⟨hall, hunetched⟩ := foldlM_addBlock hnext
    obtain ⟨hall', hunetched'⟩ := ih hrest
    rw [hall', hunetched', hall, hunetched, List.filter_filter]
    simp [Bool.and_comm]

theorem collect_eq_ok (h : collect p = .ok pool) :
    pool.all = p.blockPointers Block.trap ∧
      pool.unetched = p.blockPointers fun b => b.trap && isFree b := by
  simpa [Program.blockPointers] using foldlM_addFunction h

/-- The pool of a program holds its trap blocks, and has given none away. -/
theorem sound_of_collect (h : collect p = .ok pool) : pool.Sound := by
  obtain ⟨hall, hunetched⟩ := collect_eq_ok h
  intro t ht
  rw [hunetched, Program.mem_blockPointers_iff] at ht
  obtain ⟨f, hf, b, hb, hkeep, hids⟩ := ht
  rw [Bool.and_eq_true] at hkeep
  rw [hall]
  exact Program.mem_blockPointers_iff.mpr ⟨f, hf, b, hb, hkeep.1, hids⟩

end TrapPool

namespace Layout

open TrapPool

variable {o : Options} {p : Program} {m : Members} {s : RandomStream} {plan : Plan} {warnings : Nat}

/-- The decoys of a plan are drawn with the trap blocks of the program, apart from one that only the guard
needs. -/
theorem exists_draws_of_plan (h : Layout.plan o p m s = (warnings, .ok plan)) :
    ∃ (start after : DecoyState) (drawn : List DecoyPlan), collect p = .ok start.pool ∧
      Draws p.pointerSize o.trapDecoys start drawn after ∧
      (plan.decoys = drawn ∨ ∃ s, plan.decoys = drawn ++ [(fallbackDecoy p.pointerSize s).1]) := by
  obtain ⟨pool, -, -, hpool, hplan⟩ := plan_eq_ok h
  obtain ⟨-, -, -, hdecoys⟩ := planWith_eq_ok hplan
  refine ⟨_, _, _, ?_, draws_planClasses _ _ _ _ _, hdecoys.imp_right fun hparts => ?_⟩
  · exact Outcome.mapError_eq_ok_iff.mp hpool
  · obtain ⟨-, s', hmore, -⟩ := hparts
    exact ⟨s', hmore⟩

/-- A plan etches no block twice, and one for each decoy in front of an object as long as there are free ones. -/
theorem etched_of_plan (h : Layout.plan o p m s = (warnings, .ok plan)) :
    (plan.decoys.filterMap DecoyPlan.etch).length = min (plan.decoys.countP fun d => d.anchor.isSome)
        (p.blockPointers fun b => b.trap && isFree b).length ∧
      ((p.blockPointers fun b => b.trap && isFree b).Nodup → (plan.decoys.filterMap DecoyPlan.etch).Nodup) := by
  obtain ⟨start, after, drawn, hpool, hdraws, hdecoys⟩ := exists_draws_of_plan h
  have hsame : plan.decoys.filterMap DecoyPlan.etch = drawn.filterMap DecoyPlan.etch ∧
      plan.decoys.countP (fun d => d.anchor.isSome) = drawn.length := by
    have hcount := List.countP_eq_length.mpr fun d hd => (hdraws.anchored d hd).1
    rcases hdecoys with hplan | ⟨s', hplan⟩
    · exact ⟨by rw [hplan], by rw [hplan, hcount]⟩
    · rw [hplan, List.filterMap_append, List.countP_append, hcount]
      exact ⟨List.append_nil _, rfl⟩
  rw [hsame.1, hsame.2, ← (collect_eq_ok hpool).2]
  exact ⟨hdraws.length_etched, fun hnodup => (List.nodup_append.mp (hdraws.perm.nodup_iff.mpr hnodup)).1⟩

/-- What a plan etches are trap blocks of the program that were free, for decoys in front of objects. -/
theorem etch_mem_blockPointers (h : Layout.plan o p m s = (warnings, .ok plan)) {d : DecoyPlan}
    (hd : d ∈ plan.decoys) {t : BlockPointer} (ht : d.etch = some t) :
    (t ∈ p.blockPointers fun b => b.trap && isFree b) ∧ d.anchor.isSome = true := by
  obtain ⟨start, after, drawn, hpool, hdraws, hdecoys⟩ := exists_draws_of_plan h
  rw [← (collect_eq_ok hpool).2]
  have hdrawn : d ∈ drawn → t ∈ start.pool.unetched ∧ d.anchor.isSome = true :=
    fun hd => ⟨hdraws.mem_unetched hd ht, (hdraws.anchored d hd).1⟩
  rcases hdecoys with rfl | ⟨s', hmore⟩
  · exact hdrawn hd
  · rw [hmore] at hd
    rcases List.mem_append.mp hd with hd | hd
    · exact hdrawn hd
    · rw [List.mem_singleton.mp hd] at ht
      cases ht

theorem align_eq_of_plan (h : Layout.plan o p m s = (warnings, .ok plan)) {d : DecoyPlan}
    (hd : d ∈ plan.decoys) : d.align = decoyAlign p.pointerSize d.size := by
  obtain ⟨start, after, drawn, -, hdraws, hdecoys⟩ := exists_draws_of_plan h
  rcases hdecoys with rfl | ⟨s', hmore⟩
  · exact (hdraws.anchored d hd).2
  · rw [hmore] at hd
    rcases List.mem_append.mp hd with hd | hd
    · exact (hdraws.anchored d hd).2
    · rw [List.mem_singleton.mp hd]
      rfl

theorem entries_le_of_plan (h : Layout.plan o p m s = (warnings, .ok plan)) {d : DecoyPlan}
    (hd : d ∈ plan.decoys) : d.content.initializer.entries.length ≤ d.size / p.pointerSize := by
  obtain ⟨start, after, drawn, -, hdraws, hdecoys⟩ := exists_draws_of_plan h
  rcases hdecoys with hplan | ⟨s', hmore⟩
  · exact hdraws.entries_le d (hplan ▸ hd)
  · rw [hmore] at hd
    rcases List.mem_append.mp hd with hd | hd
    · exact hdraws.entries_le d hd
    · rw [List.mem_singleton.mp hd]
      simp [fallbackDecoy, DecoyContent.initializer, Initializer.entries]

/-- The trap blocks whose addresses the decoys of a plan hold are those of the program. -/
theorem traps_mem_blockPointers (h : Layout.plan o p m s = (warnings, .ok plan)) {d : DecoyPlan}
    (hd : d ∈ plan.decoys) {blocks : List BlockPointer} (hcontent : d.content = .traps blocks) :
    ∀ t ∈ blocks, t ∈ p.blockPointers Block.trap := by
  obtain ⟨start, after, drawn, hpool, hdraws, hdecoys⟩ := exists_draws_of_plan h
  have hdrawn := hdraws.traps_mem (sound_of_collect hpool)
  rw [← (collect_eq_ok hpool).1]
  rcases hdecoys with rfl | ⟨s', hmore⟩
  · exact hdrawn d hd blocks hcontent
  · rw [hmore] at hd
    rcases List.mem_append.mp hd with hd | hd
    · exact hdrawn d hd blocks hcontent
    · rw [List.mem_singleton.mp hd] at hcontent
      cases hcontent

end Layout
end ThumbHardening
