import ThumbHardening.Proofs.Guard.Accessor
import ThumbHardening.Proofs.Verify

/-!
# What the accessor refers to

Apart from physical registers and numbers, the code of the accessor refers to its own blocks and to the candidates.
So all of its operands refer to something that exists as soon as the candidates do, whatever function it is the body
of.
-/

namespace ThumbHardening
namespace Guard

variable {p : Program} {f : Function} {g : FlowGraph} {candidates : List Nat} {code others : Code}

/-- What the operands of some code refer to exists. -/
def Resolved (p : Program) (f : Function) (g : FlowGraph) (code : Code) : Prop :=
  ∀ i ∈ code, ∀ operand ∈ i.operands, p.Resolves f g operand

theorem resolved_append : Resolved p f g (code ++ others) ↔ Resolved p f g code ∧ Resolved p f g others :=
  List.forall_mem_append

theorem resolved_loadConstant (dst : PhysReg) (value : BitVec 32) : Resolved p f g (loadConstant dst value) := by
  rw [loadConstant]
  split <;> simp [Resolved, Instr.movImm, Instr.movw, Instr.movt, Program.Resolves]

theorem resolved_loadAddress (dst : PhysReg) {global : Nat} (pred : Cond)
    (h : p.hasSymbol (.global global) = true) : Resolved p f g (loadAddress dst global pred) := by
  simpa [Resolved, loadAddress, addressOf, Instr.movw, Instr.movt, Program.Resolves] using h

theorem resolved_storeGuard : Resolved p f g storeGuard := by
  simp [Resolved, storeGuard, Instr.store, Instr.add, Instr.ret, Operand.ofPhys, Program.Resolves]

theorem resolved_pollCode (h : g.blocks.contains pollBlock = true) : Resolved p f g pollCode := by
  simpa [Resolved, pollCode, Instr.load, Instr.cmp, Instr.branchCond, Operand.ofPhys, Program.Resolves] using h

theorem resolved_tryCandidate {global : Nat} (hglobal : p.hasSymbol (.global global) = true)
    (hstore : g.blocks.contains storeBlock = true) : Resolved p f g (tryCandidate global) := by
  rw [tryCandidate, resolved_append, resolved_append]
  refine ⟨⟨?_, resolved_loadAddress .r12 .eq hglobal⟩, ?_⟩
  · simp [Resolved, Instr.sub, Instr.cmp, Instr.it, Operand.ofPhys, Program.Resolves]
  · simpa [Resolved, Instr.branch, Program.Resolves] using hstore

theorem resolved_tryCandidates (hcandidates : ∀ global ∈ candidates, p.hasSymbol (.global global) = true)
    (hstore : g.blocks.contains storeBlock = true) : Resolved p f g (tryCandidates candidates) := by
  fun_induction tryCandidates candidates with
  | case1 => exact List.forall_mem_nil _
  | case2 last =>
    refine resolved_append.mpr ⟨resolved_loadAddress .r12 .al (hcandidates last List.mem_cons_self), ?_⟩
    simpa [Resolved, Instr.branch, Program.Resolves] using hstore
  | case3 candidate rest _ ih =>
    obtain ⟨hfirst, hrest⟩ := List.forall_mem_cons.mp hcandidates
    exact resolved_append.mpr ⟨resolved_tryCandidate hfirst hstore, ih hrest⟩

theorem resolved_selectCode (hcandidates : ∀ global ∈ candidates, p.hasSymbol (.global global) = true)
    (hstore : g.blocks.contains storeBlock = true) : Resolved p f g (selectCode candidates) := by
  rw [selectCode, resolved_append, resolved_append]
  refine ⟨⟨resolved_loadConstant _ _, ?_⟩, resolved_tryCandidates hcandidates hstore⟩
  simp [Resolved, Instr.udiv, Instr.mls, Program.Resolves]

theorem resolved_runtimeGraph (hcandidates : ∀ global ∈ candidates, p.hasSymbol (.global global) = true)
    (address : BitVec 32) :
    ∀ b ∈ (runtimeGraph candidates address).blocks.elems,
      Resolved p f (runtimeGraph candidates address) b.instrs := by
  rw [elems_runtimeGraph]
  simp only [List.forall_mem_cons, List.not_mem_nil, false_imp_iff, implies_true, and_true]
  exact ⟨resolved_loadConstant _ _, resolved_pollCode rfl, resolved_selectCode hcandidates rfl, resolved_storeGuard⟩

theorem resolved_staticGraph {candidate : Nat} (hcandidate : p.hasSymbol (.global candidate) = true) :
    ∀ b ∈ (staticGraph candidate).blocks.elems, Resolved p f (staticGraph candidate) b.instrs := by
  rw [elems_staticGraph, List.forall_mem_singleton]
  exact resolved_append.mpr ⟨resolved_loadAddress .r12 .al hcandidate, resolved_storeGuard⟩

/-- The accessor can be the body of any function once the candidates exist. -/
theorem soundCode_graph (hcandidates : ∀ global ∈ candidates, p.hasSymbol (.global global) = true)
    (rngAddress : Option Nat) {staticPick : Nat} (hpick : staticPick < candidates.length) :
    ∀ b ∈ (graph candidates rngAddress staticPick).blocks.elems,
      p.SoundCode f (graph candidates rngAddress staticPick) b.instrs := by
  have hpicked : p.hasSymbol (.global (candidates.getD staticPick 0)) = true := by
    rw [List.getD_eq_getElem?_getD, List.getElem?_eq_getElem hpick, Option.getD_some]
    exact hcandidates _ (List.getElem_mem hpick)
  have hresolved : ∀ b ∈ (graph candidates rngAddress staticPick).blocks.elems,
      Resolved p f (graph candidates rngAddress staticPick) b.instrs := by
    cases rngAddress with
    | none => exact resolved_staticGraph hpicked
    | some address =>
      rw [graph]
      split
      · exact resolved_runtimeGraph hcandidates _
      · exact resolved_staticGraph hpicked
  exact fun b hb => ⟨consistent_graph candidates rngAddress staticPick b hb, hresolved b hb⟩

end Guard
end ThumbHardening
