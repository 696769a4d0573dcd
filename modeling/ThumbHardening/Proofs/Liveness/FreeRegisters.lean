import ThumbHardening.CallLimit
import ThumbHardening.Proofs.Address
import ThumbHardening.Proofs.Liveness.Paths

/-!
# Free registers

The registers that are not live at a position are given out as free, and the call limiter overwrites one of
them. All free registers of a graph are dead exactly if no late overwriting hides a register from the
analysis.
-/

namespace ThumbHardening
namespace FlowGraph

/-- Whether all registers that count as free in front of and behind instructions are dead there. -/
structure FreeRegistersDead (g : FlowGraph) : Prop where
  before : ∀ id index compact free, g.freeRegistersBefore id index compact = .ok free →
    ∀ r ∈ free, g.Dead r id index
  after : ∀ id index compact free, (g.instr? id index).isSome = true →
    g.freeRegistersAfter id index compact = .ok free → ∀ r ∈ free, g.Dead r id (index + 1)

variable {g : FlowGraph} {live : LiveMap} {id index reported : Nat} {compact : Bool}
  {free : List PhysReg} {r : PhysReg}

/-! ### Queries -/

theorem mem_freeOf_iff {regs : RegSet} :
    r ∈ freeOf regs compact ↔
      ((if compact then RegClass.lowGpr else .gpr).contains r = true) ∧ regs.contains r = false := by
  rw [freeOf, RegSet.mem_toList_iff, RegSet.contains_diff, Bool.and_eq_true, Bool.not_eq_true']
  rfl

theorem gpr_of_mem_freeOf {regs : RegSet} (h : r ∈ freeOf regs compact) :
    RegClass.gpr.contains r = true := by
  have hclass := (mem_freeOf_iff.mp h).1
  cases compact with
  | false => exact hclass
  | true =>
    have hall : ∀ r ∈ PhysReg.all, RegClass.lowGpr.contains r = true → RegClass.gpr.contains r = true := by
      decide
    exact hall r (PhysReg.mem_all r) hclass

/-- A query answers at every position of a block. -/
theorem exists_freeRegistersAt (hids : g.blocks.ids.Nodup) (huses : g.hasUses = true) {b : Block}
    (hb : g.block? id = some b) (hle : index ≤ b.instrs.length) :
    ∃ live, g.Settled live ∧ ∀ reported compact, g.freeRegistersAt id index reported compact
      = .ok (freeOf (Code.liveBefore (b.instrs.drop index) (b.liveOut live)) compact) := by
  obtain ⟨live, hlive, hsettled⟩ := exists_liveness hids
  refine ⟨live, hsettled, fun reported compact => ?_⟩
  simp [freeRegistersAt, huses, hlive, liveAt?_of_le hb hle]

/-- What a query gives out is free in the settled map. -/
theorem freeRegistersAt_eq_ok (hids : g.blocks.ids.Nodup)
    (hok : g.freeRegistersAt id index reported compact = .ok free) :
    ∃ live regs, g.Settled live ∧ g.liveAt? live id index = some regs ∧ free = freeOf regs compact := by
  obtain ⟨live, hlive, hsettled⟩ := exists_liveness hids
  rw [freeRegistersAt, hlive] at hok
  split at hok
  · cases hok
  · simp only at hok
    cases hregs : g.liveAt? live id index with
    | none =>
      rw [hregs] at hok
      cases hok
    | some regs =>
      rw [hregs] at hok
      cases hok
      exact ⟨live, regs, hsettled, hregs, rfl⟩

/-! ### Deadness -/

theorem dead_of_mem_free (hids : g.blocks.ids.Nodup) (htargets : g.BranchesAlongEdges)
    (hlate : g.NoLateOverwrite) (hok : g.freeRegistersAt id index reported compact = .ok free)
    (hr : r ∈ free) : g.Dead r id index := by
  obtain ⟨live, regs, hsettled, hregs, rfl⟩ := freeRegistersAt_eq_ok hids hok
  intro path hpath hread
  obtain ⟨regs', hregs', hlive⟩ :=
    liveAt_of_readsFirst hsettled htargets hlate (gpr_of_mem_freeOf hr) hpath hread
  rw [hregs, Option.some.injEq] at hregs'
  rw [← hregs', (mem_freeOf_iff.mp hr).2] at hlive
  cases hlive

/-- The position behind an instruction does not wrap in a block of representable length. -/
theorem freeRegistersAfter_eq (hlength : ∀ b ∈ g.blocks.elems, b.instrs.length < 2 ^ 64)
    (hinstr : (g.instr? id index).isSome = true) :
    g.freeRegistersAfter id index compact = g.freeRegistersAt id (index + 1) index compact := by
  obtain ⟨i, hi⟩ := Option.isSome_iff_exists.mp hinstr
  obtain ⟨b, hb, hget⟩ := instr?_eq_some_iff.mp hi
  obtain ⟨hlt, -⟩ := List.getElem?_eq_some_iff.mp hget
  have hsmall := hlength b (Roster.mem_of_get? hb)
  rw [freeRegistersAfter, Address.wrap_of_lt (by omega)]

theorem freeRegistersDead_of_noLateOverwrite (hids : g.blocks.ids.Nodup)
    (htargets : g.BranchesAlongEdges) (hlength : ∀ b ∈ g.blocks.elems, b.instrs.length < 2 ^ 64)
    (hlate : g.NoLateOverwrite) : g.FreeRegistersDead where
  before id index compact free hok r hr := dead_of_mem_free hids htargets hlate hok hr
  after id index compact free hinstr hok r hr := by
    rw [freeRegistersAfter_eq hlength hinstr] at hok
    exact dead_of_mem_free hids htargets hlate hok hr

/-- A register that is overwritten too late is free at the branch, although it is read behind it. -/
theorem noLateOverwrite_of_freeRegistersDead (hids : g.blocks.ids.Nodup) (huses : g.hasUses = true)
    (hdead : g.FreeRegistersDead) : g.NoLateOverwrite := by
  intro b hb index i hget target htarget r hgpr hlive hover
  obtain ⟨hlt, -⟩ := List.getElem?_eq_some_iff.mp hget
  have hblock := block?_id hids hb
  obtain ⟨live, -, hfree⟩ := exists_freeRegistersAt hids huses hblock (Nat.le_of_lt hlt)
  have hmem : r ∈ freeOf (Code.liveBefore (b.instrs.drop index) (b.liveOut live)) false :=
    mem_freeOf_iff.mpr ⟨hgpr, Code.not_contains_liveBefore hover _⟩
  have hbranch := hdead.before b.id index false _ (hfree index false) r hmem
  refine hlive fun path hpath hread => hbranch (i :: path) ?_ ?_
  · exact .branch (instr?_eq_some_iff.mpr ⟨b, hblock, hget⟩) htarget hpath
  · exact .later (i.not_overwrites_of_branchTargets htarget r) hread

end FlowGraph

namespace CallLimit
open FlowGraph

/-- In an allocated function, the call limiter chooses a register that is free in front of the call. -/
theorem mem_free_of_chooseRegister {f f' : Function} {g : FlowGraph} {id index : Nat} {r : PhysReg}
    (hallocated : f.registers.allocated = true)
    (hok : chooseRegister f g id index = .ok (f', .phys r)) :
    ∃ free, g.freeRegistersBefore id index false = .ok free ∧ r ∈ free := by
  rw [chooseRegister, if_pos hallocated] at hok
  split at hok
  · cases hok
  · next free hfree =>
    split at hok
    · cases hok
    · next chosen hfind =>
      cases hok
      exact ⟨free, hfree, List.mem_of_find?_eq_some hfind⟩

end CallLimit

namespace FlowGraph

/-- In a graph with distinct block IDs whose branches go along edges, the free registers can be asked for
around every instruction. They are dead there exactly if no late overwriting hides a register that is read
behind a branch, and then so is the register that the call limiter overwrites. -/
theorem freeRegistersDead_iff {g : FlowGraph} (hids : g.blocks.ids.Nodup)
    (htargets : g.BranchesAlongEdges) (huses : g.hasUses = true)
    (hlength : ∀ b ∈ g.blocks.elems, b.instrs.length < 2 ^ 64) :
    (∀ id index compact, (g.instr? id index).isSome = true →
      (∃ free, g.freeRegistersBefore id index compact = .ok free) ∧
        ∃ free, g.freeRegistersAfter id index compact = .ok free) ∧
      (g.FreeRegistersDead ↔ g.NoLateOverwrite) ∧
      (g.NoLateOverwrite → ∀ (f f' : Function) (id index : Nat) (r : PhysReg),
        f.registers.allocated = true → CallLimit.chooseRegister f g id index = .ok (f', .phys r) →
        g.Dead r id index) := by
  have hsound := freeRegistersDead_of_noLateOverwrite hids htargets hlength
  refine ⟨fun id index compact hinstr => ?_,
    ⟨noLateOverwrite_of_freeRegistersDead hids huses, hsound⟩, ?_⟩
  · obtain ⟨i, hi⟩ := Option.isSome_iff_exists.mp hinstr
    obtain ⟨b, hb, hget⟩ := instr?_eq_some_iff.mp hi
    obtain ⟨hlt, -⟩ := List.getElem?_eq_some_iff.mp hget
    rw [freeRegistersAfter_eq hlength hinstr]
    obtain ⟨_, -, hbefore⟩ := exists_freeRegistersAt hids huses hb (Nat.le_of_lt hlt)
    obtain ⟨_, -, hafter⟩ := exists_freeRegistersAt hids huses hb hlt
    exact ⟨⟨_, hbefore index compact⟩, _, hafter index compact⟩
  · intro hlate f f' id index r hallocated hok
    obtain ⟨free, hfree, hr⟩ := CallLimit.mem_free_of_chooseRegister hallocated hok
    exact (hsound hlate).before id index false free hfree r hr

/-- A block that branches in front of `behind` to another block, which reads `r3`. -/
def branchThen (behind : Code) : FlowGraph :=
  { blocks := (({} : Roster Block).insert
        { instrs := { opcode := .branchCond, operands := [.block 2], pred := .eq } :: behind
          edges := [.jump 2] }).insert
      { instrs := [.mov (.phys .r0) (.phys .r3), .ret] }
    entry := 1 }

/-- With only the end of the function behind the branch, `r2` is free at the branch and dead. -/
theorem dead_branchThen_ret :
    (branchThen [.ret]).freeRegistersBefore 1 0 false = .ok [.r2, .r12] ∧
      (branchThen [.ret]).Dead .r2 1 0 := by
  have htargets : (branchThen [.ret]).BranchesAlongEdges := by
    unfold BranchesAlongEdges
    decide
  have hlate : (branchThen [.ret]).NoLateOverwrite := by
    intro b hb index i hget target htarget r hgpr _ hover
    obtain ⟨j, hj, hwrites⟩ := hover.exists_overwrites
    have hnone : ∀ b ∈ (branchThen [.ret]).blocks.elems, ∀ i ∈ b.instrs, i.branchTargets ≠ [] →
        ∀ j ∈ b.instrs, ∀ r ∈ PhysReg.all, RegClass.gpr.contains r = true →
          ¬(j.isConditional = false ∧ j.physDefs.contains r = true) := by decide
    exact hnone b hb i (List.mem_of_getElem? hget) (List.ne_nil_of_mem htarget) j
      (List.mem_of_mem_drop hj) r (PhysReg.mem_all r) hgpr hwrites
  have hfree : (branchThen [.ret]).freeRegistersBefore 1 0 false = .ok [.r2, .r12] := by
    decide +kernel
  have hdead := (freeRegistersDead_iff (by decide) htargets (by decide) (by decide)).2.1.mpr hlate
  exact ⟨hfree, hdead.before 1 0 false _ hfree .r2 (by decide)⟩

/-- Not all free registers are dead: if `r3` is set behind the branch, it counts as free at the branch, and the
block that the branch goes to reads it. -/
theorem not_freeRegistersDead_branchThen :
    ¬∀ g : FlowGraph, g.blocks.ids.Nodup → g.BranchesAlongEdges → g.hasUses = true →
      (∀ b ∈ g.blocks.elems, b.instrs.length < 2 ^ 64) → g.FreeRegistersDead := by
  intro hclaim
  have htargets : (branchThen [.movImm (.phys .r3) 0, .ret]).BranchesAlongEdges := by
    unfold BranchesAlongEdges
    decide
  have hdead := hclaim _ (by decide) htargets (by decide) (by decide)
  have hfree : (branchThen [.movImm (.phys .r3) 0, .ret]).freeRegistersBefore 1 0 false
      = .ok [.r2, .r3, .r12] := by decide +kernel
  have htaken : (branchThen [.movImm (.phys .r3) 0, .ret]).Trace 2 0
      [.mov (.phys .r0) (.phys .r3)] := .next rfl (.stop 2 1)
  have hkept : ¬Instr.Overwrites { opcode := .branchCond, operands := [.block 2], pred := .eq } .r3 := by
    unfold Instr.Overwrites
    decide
  exact hdead.before 1 0 false _ hfree .r3 (by decide) _ (.branch rfl (by decide) htaken)
    (.later hkept (.here (by decide)))

end FlowGraph
end ThumbHardening
