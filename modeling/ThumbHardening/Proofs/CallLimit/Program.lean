import ThumbHardening.Proofs.CallLimit.Trace

/-!
# Limiting a program

A run that succeeds limits every function on its own. The verification accepts the result: operands are the
old ones or registers that fit, flow graphs keep their shape, and groups are repaired by every edit. A second
run finds nothing to do.
-/

namespace ThumbHardening
namespace CallLimit
open Code

variable {p p' : Program} {f f' : Function} {g g' : FlowGraph} {b b' : Block} {i : Instr}
  {registers : Registers} {limited total : Nat}

/-! ### Verification -/

theorem Resolves.mono {p' : Program} {operand : Operand} (h : p.Resolves f g operand)
    (hp : p.Extends p') (hids : g'.blocks.ids = g.blocks.ids) (hframe : f'.frame = f.frame)
    (hnarrows : Narrows f.registers f'.registers) : p'.Resolves f' g' operand := by
  refine hp.resolves h hids (fun id _ hid => hframe ▸ hid) hnarrows.allocated fun number hclass => ?_
  obtain ⟨c, hc⟩ := Option.isSome_iff_exists.mp hclass
  obtain ⟨c', hc', -⟩ := hnarrows.classes number c hc
  rw [hc']
  rfl

theorem Fits.resolves {r : Reg} (h : Fits f.registers r) : p.Resolves f g (.reg r) := by
  cases r with
  | phys => trivial
  | virt number =>
    obtain ⟨hallocated, c, hc, -⟩ := h
    exact ⟨hallocated, by rw [hc]; rfl⟩

/-- A trap at the start of a block stays there: it needs no group, so no `It` can come to stand before it. -/
theorem LimitingBlock.sound (h : LimitingBlock registers b b') (hb : b.Sound)
    (hconsistent : b.instrs.isConsistent = true)
    (hdone : ∀ i ∈ b'.instrs, isUnlimited i = false) : b'.Sound := by
  have hlimited := h.code.finish fun i hi => hdone i (List.mem_of_mem_filter hi)
  refine ⟨?_, ?_, fun htrap => ?_⟩
  · rw [h.same]
    exact hb.id_ne_zero
  · rw [h.same]
    exact hb.one_next
  · rw [h.same] at htrap
    obtain ⟨i, hhead, hi⟩ := Option.map_eq_some_iff.mp (hb.trap_first htrap)
    have hit : i.isIt = false := by simp [Instr.isIt, hi]
    obtain ⟨rest, hcode⟩ := List.head?_eq_some_iff.mp hhead
    have hgrouped := isConsistent_iff_grouped.mp hconsistent
    rw [hcode] at hgrouped
    have hordinary : (ordinary b.instrs).head? = some i := by rw [hcode, ordinary_cons hit]; rfl
    have hstays := hlimited.head? hordinary (by simp [isUnlimited, hi])
    have hfirst := head?_of_grouped (isConsistent_iff_grouped.mp (h.consistent hconsistent)) hstays
      (by simp [Instr.isDebug, hi]) (hgrouped.of_not_it hit).1
    rw [hfirst, Option.map_some, hi]

/-- The verification accepts a function with limited calls if it accepted the function before. -/
theorem Limiting.verifyFunction {p' : Program} (h : Limiting f f')
    (hdone : ∀ b ∈ f'.blocks, ∀ i ∈ b.instrs, isUnlimited i = false) (hp : p.Extends p')
    (hverify : p.verifyFunction f = .ok ()) : p'.verifyFunction f' = .ok () := by
  rw [verifyFunction_eq_ok_iff] at hverify ⊢
  intro g' hg'
  obtain ⟨g, hg, hgraph⟩ := h.body_eq hg'
  obtain ⟨hsound, hcode⟩ := hverify g hg
  have hids := hgraph.ids
  have hframe : f'.frame = f.frame := by rw [h.same]
  have hentry : g'.entry = g.entry := by rw [hgraph.same]
  have hdone' : ∀ b ∈ g'.blocks.elems, ∀ i ∈ b.instrs, isUnlimited i = false := by
    rw [Function.blocks, hg'] at hdone
    exact hdone
  refine ⟨⟨?_, ?_, fun b' hb' => ?_, fun b' hb' edge hedge => ?_⟩,
    fun b' hb' => ⟨?_, fun i hi operand hoperand => ?_⟩⟩
  · rw [hentry]
    exact hsound.entry_ne_zero
  · rw [Roster.contains_eq, hids, hentry, ← Roster.contains_eq]
    exact hsound.contains_entry
  · obtain ⟨b, hb, hblock⟩ := Pairs.exists_of_mem_right hgraph.blocks hb'
    exact hblock.sound (hsound.blocks b hb) (hcode b hb).consistent (hdone' b' hb')
  · obtain ⟨b, hb, hblock⟩ := Pairs.exists_of_mem_right hgraph.blocks hb'
    rw [hblock.same] at hedge
    rw [Roster.contains_eq, hids, ← Roster.contains_eq]
    exact hsound.targets b hb edge hedge
  · obtain ⟨b, hb, hblock⟩ := Pairs.exists_of_mem_right hgraph.blocks hb'
    exact hblock.consistent (hcode b hb).consistent
  · obtain ⟨b, hb, hblock⟩ := Pairs.exists_of_mem_right hgraph.blocks hb'
    have hold : ∀ j ∈ b.instrs, operand ∈ j.operands → p'.Resolves f' g' operand := fun j hj hmem =>
      Resolves.mono ((hcode b hb).resolves j hj operand hmem) hp hids hframe h.narrows
    -- An `It` is old or names numbers only; the operands of the others are old or registers that fit.
    cases hit : i.isIt with
    | true =>
      rcases hblock.its i hi hit with hi | ⟨first, mask, rfl⟩
      · exact hold i hi hoperand
      · have himm : operand = .imm first.code ∨ operand = .imm mask := by
          simpa [Instr.it] using hoperand
        rcases himm with rfl | rfl <;> trivial
    | false =>
      have hlimited := hblock.code.finish fun i hi => hdone' b' hb' i (List.mem_of_mem_filter hi)
      rcases hlimited.operand (mem_ordinary hi hit) hoperand with ⟨j, hj, hmem⟩ | ⟨r, rfl, hfits⟩
      · exact hold j (List.mem_of_mem_filter hj) hmem
      · exact hfits.resolves

/-! ### Runs -/

/-- A run that reports no change has left the program as it was. -/
theorem program_of_unchanged (hok : (run limited p).outcome = .ok false) :
    (run limited p).program = p := by
  rw [run] at hok ⊢
  cases hmap : Steps.mapAll visitFunction p.functions.elems limited with
  | mk functions after =>
    obtain ⟨total, failure⟩ := after
    simp only [hmap] at hok ⊢
    cases failure with
    | some e => cases hok
    | none =>
      obtain ⟨hle, hsame, -⟩ := mapAll_visitFunction_counts hmap
      have hcount : ¬ limited < total := by simpa using hok
      rw [hsame (Nat.le_antisymm (Nat.le_of_not_lt hcount) hle)]

theorem Limiting.outline (h : Limiting f f') : f'.outline = f.outline := by
  have hgraph := h.body
  rw [Function.outline, Function.outline, h.same]
  generalize f.body = body at hgraph
  generalize f'.body = body' at hgraph
  cases hgraph with
  | none => rfl
  | some hgraph => exact congrArg (fun ids => (f.id, f.name, some ids)) hgraph.ids

theorem run_eq_ok {changed : Bool} (hok : (run limited p).outcome = .ok changed) :
    ∃ functions, (run limited p).program
        = { p with functions := { p.functions with elems := functions } } ∧
      List.Forall₂ (fun f f' => ∃ t t', visitFunction f t = (f', t', none)) p.functions.elems
        functions := by
  rw [run] at hok ⊢
  cases hmap : Steps.mapAll visitFunction p.functions.elems limited with
  | mk functions after =>
    obtain ⟨total, failure⟩ := after
    simp only [hmap] at hok
    cases failure with
    | some e => cases hok
    | none => exact ⟨functions, rfl, Steps.mapAll_eq_none hmap⟩

theorem visitFunction_of_limited (limited : Nat)
    (hdone : ∀ b ∈ f.blocks, ∀ i ∈ b.instrs, isUnlimited i = false) :
    visitFunction f limited = (f, limited, none) := by
  have hcalls : unlimitedCalls f = 0 := by
    rw [unlimitedCalls_eq_sum]
    refine List.sum_eq_zero fun count hcount => ?_
    obtain ⟨b, hb, rfl⟩ := List.mem_map.mp hcount
    exact List.countP_eq_zero.mpr fun i hi => by simp [hdone b hb i hi]
  have hblock : ∀ id, visitBlock id (f, limited) = ((f, limited), none) := by
    intro id
    rw [visitBlock, hcalls]
    rfl
  have hblocks : ∀ ids, Steps.runAll visitBlock ids (f, limited) = ((f, limited), none) := by
    intro ids
    induction ids with
    | nil => rfl
    | cons id rest ih => exact Steps.runAll_cons_eq_none_iff.mpr ⟨_, hblock id, ih⟩
  rw [visitFunction, hblocks]

/-- Without unlimited calls a run does nothing. -/
theorem run_of_limited (limited : Nat)
    (hdone : ∀ f ∈ p.functions.elems, ∀ b ∈ f.blocks, ∀ i ∈ b.instrs, isUnlimited i = false) :
    run limited p = { pass := limited, program := p, outcome := .ok false } := by
  have hmap : ∀ fs : List Function,
      (∀ f ∈ fs, ∀ b ∈ f.blocks, ∀ i ∈ b.instrs, isUnlimited i = false) →
      Steps.mapAll visitFunction fs limited = (fs, limited, none) := by
    intro fs hfs
    induction fs with
    | nil => rfl
    | cons f rest ih =>
      obtain ⟨hf, hrest⟩ := List.forall_mem_cons.mp hfs
      rw [Steps.mapAll, visitFunction_of_limited limited hf]
      simp only [ih hrest]
  rw [run, hmap _ hdone]
  simp

/-- A successful run limits each function on its own, and the verification accepts what it leaves. -/
theorem run_eq_limiting {changed : Bool} (hverify : p.verify = .ok ())
    (hids : ∀ f ∈ p.functions.elems, (f.blocks.map Block.id).Nodup)
    (hok : (run limited p).outcome = .ok changed) :
    ∃ functions,
      (run limited p).program = { p with functions := { p.functions with elems := functions } } ∧
      List.Forall₂ (fun f f' => LimitedFunction f f' ∧
        ∀ b ∈ f'.blocks, ∀ i ∈ b.instrs, isUnlimited i = false) p.functions.elems functions ∧
      (run limited p).program.verify = .ok () := by
  obtain ⟨functions, hprogram, hvisits⟩ := run_eq_ok hok
  have hfunctions := Outcome.forM_eq_ok_iff.mp (Outcome.seq_eq_ok_iff.mp hverify).1
  have hlimiting : List.Forall₂ (fun f f' => p.verifyFunction f = .ok () ∧ Limiting f f' ∧
      ∀ b ∈ f'.blocks, ∀ i ∈ b.instrs, isUnlimited i = false) p.functions.elems functions :=
    Pairs.imp hvisits fun f hf f' _ hvisit => by
      obtain ⟨t, t', hvisit⟩ := hvisit
      exact ⟨hfunctions f hf, visitFunction_eq_none (hfunctions f hf) (hids f hf) hvisit⟩
  have hextends : p.Extends (run limited p).program := by
    rw [hprogram]
    exact ⟨Pairs.map_eq hlimiting fun f f' h => h.2.1.outline, List.prefix_rfl, rfl, rfl, rfl⟩
  refine ⟨functions, hprogram, hlimiting.imp fun f f' h => ⟨h.2.1.finish h.2.2, h.2.2⟩, ?_⟩
  have hglobals : (run limited p).program.globals = p.globals := by rw [hprogram]
  refine hextends.verify hverify (fun f' hf' => ?_) fun o ho hnew => absurd (hglobals ▸ ho) hnew
  rw [hprogram] at hf'
  obtain ⟨f, -, hf, hlimits, hdone⟩ := Pairs.exists_of_mem_right hlimiting hf'
  exact hlimits.verifyFunction hdone hextends hf

/-- A successful run on an accepted program limits every call, changes nothing else, leaves a program that is
accepted, and need not be repeated. -/
theorem run_limits (limited : Nat) (p : Program) {changed : Bool} (hverify : p.verify = .ok ())
    (hids : ∀ f ∈ p.functions.elems, (f.blocks.map Block.id).Nodup)
    (hok : (run limited p).outcome = .ok changed) :
    (∃ functions,
      (run limited p).program = { p with functions := { p.functions with elems := functions } } ∧
        List.Forall₂ LimitedFunction p.functions.elems functions) ∧
    (∀ f ∈ (run limited p).program.functions.elems, ∀ b ∈ f.blocks, ∀ i ∈ b.instrs,
      i.opcode ≠ .callIndirect) ∧
    (run limited p).program.verify = .ok () ∧
    ∀ n, run n (run limited p).program
      = { pass := n, program := (run limited p).program, outcome := .ok false } := by
  obtain ⟨functions, hprogram, hlimited, haccepted⟩ := run_eq_limiting hverify hids hok
  have hdone : ∀ f ∈ (run limited p).program.functions.elems, ∀ b ∈ f.blocks, ∀ i ∈ b.instrs,
      isUnlimited i = false := by
    rw [hprogram]
    intro f' hf'
    obtain ⟨f, -, -, hdone⟩ := Pairs.exists_of_mem_right hlimited hf'
    exact hdone
  refine ⟨⟨functions, hprogram, hlimited.imp fun f f' h => h.1⟩, fun f hf b hb i hi => ?_, haccepted,
    fun n => run_of_limited n hdone⟩
  simpa [isUnlimited] using hdone f hf b hb i hi

/-- A call under a condition through a saved register, and one through a virtual register. -/
def savedTargets : Program :=
  let code : Code := [.it .eq 8, { Instr.callIndirect (.phys .r4) with pred := .eq },
    .callIndirect (.virt 0), .ret]
  let graph : FlowGraph :=
    { blocks := { elems := [{ Block.ofCode code with id := 1 }], next := 2 }, entry := 1 }
  let caller : Function :=
    { id := 1, name := "caller", body := some graph, registers := { classes := [.gpr] } }
  { functions := { elems := [caller], next := 2 }, pointerSize := 4 }

theorem run_limits_savedTargets :
    savedTargets.verify = .ok () ∧
      (∀ f ∈ savedTargets.functions.elems, (f.blocks.map Block.id).Nodup) ∧
      (run 0 savedTargets).outcome = .ok true ∧
      (∃ functions,
        (run 0 savedTargets).program
          = { savedTargets with functions := { savedTargets.functions with elems := functions } } ∧
        List.Forall₂ LimitedFunction savedTargets.functions.elems functions) ∧
      (run 0 savedTargets).program.verify = .ok () := by
  have hverify : savedTargets.verify = .ok () := by decide +kernel
  have hids : ∀ f ∈ savedTargets.functions.elems, (f.blocks.map Block.id).Nodup := by decide
  have hok : (run 0 savedTargets).outcome = .ok true := by decide +kernel
  obtain ⟨hfunctions, -, haccepted, -⟩ := run_limits 0 savedTargets hverify hids hok
  exact ⟨hverify, hids, hok, hfunctions, haccepted⟩

end CallLimit
end ThumbHardening
