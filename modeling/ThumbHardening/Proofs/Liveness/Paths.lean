import ThumbHardening.Proofs.FlowGraph
import ThumbHardening.Proofs.Liveness.Settle

/-!
# Paths

Execution goes from an instruction to the next one, from a branch to the block that it names, and from the end
of a block along its edges. The analysis only knows the edges at the ends of blocks. A branch in the middle of
a block leaves the block earlier, and what the rest of the block would have overwritten by then has not been
overwritten. Unless such a late overwriting hides a register that is read behind a branch, whatever is read
first on a path is live at its start.
-/

namespace ThumbHardening

/-! ### Paths -/

/-- The blocks that a branch may go to. -/
def Instr.branchTargets (i : Instr) : List Nat :=
  if i.opcode = .branch ∨ i.opcode = .branchCond then
    i.operands.filterMap fun operand =>
      match operand with
      | .block id => some id
      | _ => none
  else []

theorem Instr.not_overwrites_of_branchTargets {i : Instr} {target : Nat}
    (h : target ∈ i.branchTargets) (r : PhysReg) : ¬i.Overwrites r := by
  rw [branchTargets] at h
  split at h
  · next hopcode =>
    intro hparts
    obtain ⟨-, hdefs⟩ := hparts
    rcases hopcode with hopcode | hopcode <;>
      simp [physDefs, writtenOperands, implicitDefs, hopcode, Opcode.numDefs, physRegs,
        RegSet.contains_ofList] at hdefs
  · cases h

/-- Whether code looks at a register before it replaces the value in any case. -/
inductive Code.ReadsFirst (r : PhysReg) : Code → Prop
  | here {i rest} : i.physUses.contains r = true → ReadsFirst r (i :: rest)
  | later {i rest} : ¬i.Overwrites r → ReadsFirst r rest → ReadsFirst r (i :: rest)

namespace FlowGraph

/-- The instructions that execution may go through from a position of a block on. -/
inductive Trace (g : FlowGraph) : (id index : Nat) → Code → Prop
  | stop (id index) : Trace g id index []
  | next {id index i rest} : g.instr? id index = some i → Trace g id (index + 1) rest →
      Trace g id index (i :: rest)
  | branch {id index i target rest} : g.instr? id index = some i → target ∈ i.branchTargets →
      Trace g target 0 rest → Trace g id index (i :: rest)
  | edge {id b edge rest} : g.block? id = some b → edge ∈ b.edges → Trace g edge.target 0 rest →
      Trace g id b.instrs.length rest

/-- A register whose value at a position is not read on any path. -/
def Dead (g : FlowGraph) (r : PhysReg) (id index : Nat) : Prop :=
  ∀ path, Trace g id index path → ¬Code.ReadsFirst r path

/-- Whether every branch goes along an edge of its block. -/
def BranchesAlongEdges (g : FlowGraph) : Prop :=
  ∀ b ∈ g.blocks.elems, ∀ i ∈ b.instrs, ∀ target ∈ i.branchTargets,
    ∃ edge ∈ b.edges, edge.target = target

/-- From a branch to the end of its block, no instruction overwrites a general register first that is read at
the block that the branch goes to. -/
def NoLateOverwrite (g : FlowGraph) : Prop :=
  ∀ b ∈ g.blocks.elems, ∀ index i, b.instrs[index]? = some i → ∀ target ∈ i.branchTargets,
    ∀ r, RegClass.gpr.contains r = true → ¬g.Dead r target 0 →
      ¬Code.OverwritesFirst r (b.instrs.drop index)

variable {g : FlowGraph} {live : LiveMap} {id index : Nat} {b : Block} {i : Instr} {r : PhysReg}

/-! ### The registers live at a position -/

/-- Whether a map of live registers makes a register live at a position. -/
def LiveAt (g : FlowGraph) (live : LiveMap) (r : PhysReg) (id index : Nat) : Prop :=
  ∃ regs, g.liveAt? live id index = some regs ∧ regs.contains r = true

theorem liveAt?_of_le (hb : g.block? id = some b) (hle : index ≤ b.instrs.length) :
    g.liveAt? live id index = some (Code.liveBefore (b.instrs.drop index) (b.liveOut live)) := by
  rw [liveAt?, hb]
  exact if_pos hle

/-- In front of an instruction, what it leaves of the registers live behind it is live. -/
theorem liveAt?_of_instr? (live : LiveMap) (hi : g.instr? id index = some i) :
    ∃ after, g.liveAt? live id (index + 1) = some after ∧
      g.liveAt? live id index = some (i.liveBefore after) := by
  obtain ⟨b, hb, hget⟩ := instr?_eq_some_iff.mp hi
  obtain ⟨hlt, hget⟩ := List.getElem?_eq_some_iff.mp hget
  refine ⟨_, liveAt?_of_le hb hlt, ?_⟩
  rw [liveAt?_of_le hb (Nat.le_of_lt hlt), List.drop_eq_getElem_cons hlt, hget]
  rfl

/-- A register is live in front of an instruction that reads it, or if it is live behind the instruction and
the instruction does not overwrite it. -/
theorem liveAt_iff_of_instr? (hi : g.instr? id index = some i) :
    g.LiveAt live r id index
      ↔ i.physUses.contains r = true ∨ ¬i.Overwrites r ∧ g.LiveAt live r id (index + 1) := by
  obtain ⟨after, hafter, hbefore⟩ := liveAt?_of_instr? live hi
  simp only [LiveAt, hafter, hbefore, Option.some.injEq, exists_eq_left', Instr.contains_liveBefore_iff]

/-- A register is live at the end of a block if it is live behind one of its edges. -/
theorem liveAt_length_iff (hb : g.block? id = some b) :
    g.LiveAt live r id b.instrs.length
      ↔ ∃ edge ∈ b.edges, (live.get edge.target).contains r = true := by
  rw [LiveAt, liveAt?_of_le hb (Nat.le_refl _), List.drop_length, ← Block.contains_liveOut_iff]
  simp only [Option.some.injEq, exists_eq_left']
  exact Iff.rfl

/-- What is live at the start of a block is in its entry of the settled map. -/
theorem LiveAt.contains_get (hsettled : g.Settled live) (h : g.LiveAt live r id 0) :
    (live.get id).contains r = true := by
  obtain ⟨regs, hregs, hlive⟩ := h
  obtain ⟨b, hb, -⟩ := Option.bind_eq_some_iff.mp hregs
  rw [liveAt?_of_le hb (Nat.zero_le _), List.drop_zero, Option.some.injEq] at hregs
  have hentry := hsettled b (Roster.mem_of_get? hb)
  have hid : b.id = id := Roster.id_of_get? hb
  rw [LiveMap.get, ← hid, hentry, Option.getD_some, Block.liveIn, hregs]
  exact hlive

/-! ### Soundness -/

/-- A general register that is read first on a path is live at its start. -/
theorem liveAt_of_readsFirst (hsettled : g.Settled live)
    (htargets : g.BranchesAlongEdges) (hlate : g.NoLateOverwrite) (hgpr : RegClass.gpr.contains r = true) {path : Code}
    (hpath : Trace g id index path) (hread : Code.ReadsFirst r path) : g.LiveAt live r id index := by
  induction hpath with
  | stop => cases hread
  | next hi _ ih =>
    rw [liveAt_iff_of_instr? hi]
    cases hread with
    | here huses => exact .inl huses
    | later hkept hread => exact .inr ⟨hkept, ih hread⟩
  | branch hi htarget hrest ih =>
    cases hread with
    | here huses => exact (liveAt_iff_of_instr? hi).mpr (.inl huses)
    | later _ hread =>
      obtain ⟨b, hb, hget⟩ := instr?_eq_some_iff.mp hi
      obtain ⟨hlt, -⟩ := List.getElem?_eq_some_iff.mp hget
      have hmem := Roster.mem_of_get? hb
      obtain ⟨edge, hedge, heq⟩ := htargets b hmem _ (List.mem_of_getElem? hget) _ htarget
      -- What is live behind the branch is live at the end of its block, and nothing overwrites it until there.
      refine ⟨_, liveAt?_of_le hb (Nat.le_of_lt hlt), Code.contains_liveBefore ?_ ?_⟩
      · exact hlate b hmem _ _ hget _ htarget r hgpr fun hdead => hdead _ hrest hread
      · rw [Block.contains_liveOut_iff]
        exact ⟨edge, hedge, heq ▸ (ih hread).contains_get hsettled⟩
  | edge hb hedge _ ih =>
    exact (liveAt_length_iff hb).mpr ⟨_, hedge, (ih hread).contains_get hsettled⟩

end FlowGraph
end ThumbHardening
