import ThumbHardening.Proofs.Layout.CarryOut

/-!
# All or nothing

A run of the randomizer that gives up leaves the program as it was, since it gives up while it is planning. A
plan can be carried out, if only the blocks that it etches are those that a lookup finds.
-/

namespace ThumbHardening
namespace LayoutRandomizer
open Layout

variable {r : LayoutRandomizer} {stream : RandomStream} {p : Program} {plan : Plan}

/-- Planning succeeds. -/
def Plans (r : LayoutRandomizer) (stream : RandomStream) (p : Program) (plan : Plan) : Prop :=
  r.options.randomization = true ∧ checkRngAddress r.options = .ok () ∧
    ∃ warnings, Layout.plan r.options p (Members.ofProgram p) stream = (warnings, .ok plan)

/-- A run either gets to a plan and carries it out, or does not touch the program. -/
theorem runWith_cases (r : LayoutRandomizer) (stream : RandomStream) (p : Program) :
    (∃ plan s failure, r.Plans stream p plan ∧
        carryOut r.options plan { program := p, statistics := (Members.ofProgram p).statistics } = (s, failure) ∧
        (r.runWith stream p).program = s.program ∧ (r.runWith stream p).pass.statistics = s.statistics ∧
        (r.runWith stream p).outcome = failure.elim (.ok true) .error) ∨
      (∀ plan, ¬ r.Plans stream p plan) ∧ (r.runWith stream p).program = p ∧
        (r.options.randomization = true → ∃ e, (r.runWith stream p).outcome = .error e) := by
  rw [runWith]
  cases hon : r.options.randomization with
  | false =>
    refine .inr ⟨fun plan hplan => ?_, rfl, by simp⟩
    exact Bool.false_ne_true (hon.symm.trans hplan.1)
  | true =>
    cases hrng : checkRngAddress r.options with
    | error e =>
      refine .inr ⟨fun plan hplan => ?_, rfl, fun _ => ⟨e, rfl⟩⟩
      cases hrng.symm.trans hplan.2.1
    | ok _ =>
      cases hresult : Layout.plan r.options p (Members.ofProgram p) stream with
      | mk warnings result =>
        cases result with
        | error e =>
          refine .inr ⟨fun plan hplan => ?_, rfl, fun _ => ⟨e, rfl⟩⟩
          obtain ⟨_, hok⟩ := hplan.2.2
          rw [hresult] at hok
          cases hok
        | ok plan =>
          cases hcarry : carryOut r.options plan
              { program := p, statistics := (Members.ofProgram p).statistics } with
          | mk s failure =>
            refine .inl ⟨plan, s, failure, ⟨hon, hrng, warnings, hresult⟩, hcarry, ?_⟩
            simp only [Bool.not_true, Bool.false_eq_true, if_false, hcarry, true_and]
            cases failure <;> rfl

theorem exists_plans (hon : r.options.randomization = true) (hrng : checkRngAddress r.options = .ok ())
    (hplan : (Layout.plan r.options p (Members.ofProgram p) stream).2.toOption.isSome = true) :
    ∃ plan, r.Plans stream p plan := by
  obtain ⟨plan, hok⟩ := Outcome.exists_eq_ok_of_isSome hplan
  exact ⟨plan, hon, hrng, _, Prod.ext rfl hok⟩

/-- A successful run has carried out its plan. -/
theorem exists_plans_of_ok {changed : Bool} (hon : r.options.randomization = true)
    (hok : (r.runWith stream p).outcome = .ok changed) :
    ∃ plan s, r.Plans stream p plan ∧
      carryOut r.options plan { program := p, statistics := (Members.ofProgram p).statistics } = (s, none) := by
  rcases runWith_cases r stream p with ⟨plan, s, failure, hplan, hcarry, -, -, houtcome⟩ | ⟨-, -, herror⟩
  · rw [hok] at houtcome
    cases failure with
    | none => exact ⟨plan, s, hplan, hcarry⟩
    | some e => cases houtcome
  · obtain ⟨e, herror⟩ := herror hon
    rw [hok] at herror
    cases herror

theorem Plans.unique {plan' : Plan} (h : r.Plans stream p plan) (h' : r.Plans stream p plan') : plan = plan' := by
  obtain ⟨_, hok⟩ := h.2.2
  obtain ⟨_, hok'⟩ := h'.2.2
  rw [hok] at hok'
  cases hok'
  rfl

/-- What is given for the object of a decoy. -/
def decoyDraft (name : String) (d : DecoyPlan) : GlobalDraft :=
  { name := some name, size := some d.size, align := d.align, constant := d.storage = .rodata
    initializer := some d.content.initializer, linkage := .internal }

/-- What is given for the accessor of the guard. -/
def guardDraft (body : FlowGraph) : FunctionDraft :=
  { name := some Guard.functionName, body := some body, calleeSaved := some [], naked := true
    linkage := .linkOnce, allocated := true }

/-- Nothing is wrong with the objects that decoys are made into. -/
theorem Plans.build_decoyDraft (h : r.Plans stream p plan) (hbuilt : p.Built) (name : String) {d : DecoyPlan}
    (hd : d ∈ plan.decoys) : (decoyDraft name d).build = .ok { decoyObject name d with decoy := false } := by
  obtain ⟨_, hok⟩ := h.2.2
  have halign : Address.isPowerOfTwo d.align = true := by
    rw [align_eq_of_plan hok hd, decoyAlign]
    rcases hbuilt.pointerSize with hsize | hsize <;> rw [hsize] <;> split <;> decide
  simp [GlobalDraft.build, decoyDraft, halign, decoyObject]

theorem build_guardDraft (candidates : List Nat) (rngAddress : Option Nat) (staticPick : Nat) :
    (guardDraft (Guard.graph candidates rngAddress staticPick)).build
      = .ok (guardFunction (Guard.graph candidates rngAddress staticPick)) := by
  have hblocks : (Guard.graph candidates rngAddress staticPick).blocks.elems.isEmpty = false := by
    cases rngAddress with
    | none => rfl
    | some address =>
      rw [Guard.graph]
      split <;> rfl
  simp [FunctionDraft.build, guardDraft, hblocks, guardFunction]

/-- Trap blocks that are found by their IDs can be etched. -/
theorem Plans.etchable (h : r.Plans stream p plan) (hfunctions : p.functions.ids.Nodup)
    (hblocks : ∀ f ∈ p.functions.elems, (f.blocks.map Block.id).Nodup) : Etchable p plan.decoys := by
  intro d hd t ht
  obtain ⟨_, hok⟩ := h.2.2
  obtain ⟨f, hf, b, hb, hfree, hfid, hbid⟩ :=
    Program.mem_blockPointers_iff.mp (etch_mem_blockPointers hok hd ht).1
  have hget := Program.block?_id hfunctions hf (hblocks f hf) hb
  rw [hfid, hbid] at hget
  obtain ⟨i, rest, n, operands, hcode, hoperands⟩ :=
    TrapPool.exists_imm_of_isFree ((Bool.and_eq_true ..).mp hfree).2
  simp [Program.firstOperands?, hget, hcode, hoperands]

/-- A plan can be carried out, unless a block is to be etched whose first instruction has no operand. -/
theorem Plans.cases (h : r.Plans stream p plan) (hbuilt : p.Built) (hglobals : p.globals.ids.Nodup)
    (hfunctions : p.functions.ids.Nodup) :
    (Etchable p plan.decoys ∧ (r.runWith stream p).outcome = .ok true ∧
        ∃ objects t s, Finished p plan objects t s ∧ (r.runWith stream p).program = s.program ∧
          (r.runWith stream p).pass.statistics = s.statistics) ∨
      (¬ Etchable p plan.decoys ∧ (r.runWith stream p).outcome = .error (.fault .operandRange)) := by
  rcases runWith_cases r stream p with ⟨plan', s, failure, hplan, hcarry, hprogram, hstatistics, houtcome⟩ | hnone
  · obtain rfl := h.unique hplan
    obtain ⟨_, hok⟩ := h.2.2
    rcases carryOut_cases r.options (.of_plan hbuilt hglobals hok) hbuilt hglobals hfunctions with
      ⟨hall, objects, t, s', hs', hfinished⟩ | ⟨hnot, s', hs'⟩
    · cases hcarry.symm.trans hs'
      exact .inl ⟨hall, houtcome, objects, t, s, hfinished, hprogram, hstatistics⟩
    · cases hcarry.symm.trans hs'
      exact .inr ⟨hnot, houtcome⟩
  · exact absurd h (hnone.1 plan)

/-- A run that gives up leaves the program as it was. Once there is a plan, nothing is wrong with its decoys and
its guard, and the run succeeds, unless a block is to be etched whose first instruction has no operand. If no
block shares its ID with another one of its function, that cannot be. -/
theorem runWith_atomic (r : LayoutRandomizer) (stream : RandomStream) (hbuilt : p.Built)
    (hglobals : p.globals.ids.Nodup) (hfunctions : p.functions.ids.Nodup) :
    (∀ e, (r.runWith stream p).outcome = .error e → e.fault? = none → (r.runWith stream p).program = p) ∧
    (∀ plan, r.Plans stream p plan →
      (∀ d ∈ plan.decoys, ∀ name, (decoyDraft name d).build = .ok { decoyObject name d with decoy := false }) ∧
      (∀ guard, plan.guard = some guard → ∀ candidates,
        let body := Guard.graph candidates r.options.rngAddress guard.staticPick
        (guardDraft body).build = .ok (guardFunction body)) ∧
      ((Etchable p plan.decoys ∧ (r.runWith stream p).outcome = .ok true) ∨
        (¬ Etchable p plan.decoys ∧ (r.runWith stream p).outcome = .error (.fault .operandRange)))) ∧
    ((∀ f ∈ p.functions.elems, (f.blocks.map Block.id).Nodup) →
      (∀ e, (r.runWith stream p).outcome = .error e → (r.runWith stream p).program = p) ∧
      ∀ plan, r.Plans stream p plan → (r.runWith stream p).outcome = .ok true) := by
  have hunplanned : (∀ plan, ¬ r.Plans stream p plan) → (r.runWith stream p).program = p := by
    intro hnone
    rcases runWith_cases r stream p with ⟨plan, _, _, hplan, -⟩ | hrun
    · exact absurd hplan (hnone plan)
    · exact hrun.2.1
  have hdistinct : (∀ f ∈ p.functions.elems, (f.blocks.map Block.id).Nodup) → ∀ plan, r.Plans stream p plan →
      (r.runWith stream p).outcome = .ok true := by
    intro hblocks plan hplan
    rcases hplan.cases hbuilt hglobals hfunctions with ⟨-, hok, -⟩ | ⟨hnot, -⟩
    · exact hok
    · exact absurd (hplan.etchable hfunctions hblocks) hnot
  refine ⟨fun e he hfault => hunplanned fun plan hplan => ?_, fun plan hplan =>
      ⟨fun d hd name => ?_, fun guard _ candidates => build_guardDraft candidates _ guard.staticPick, ?_⟩,
    fun hblocks => ⟨fun e he => hunplanned fun plan hplan => ?_, hdistinct hblocks⟩⟩
  -- A run with a plan ends well or with a fault, so what gave up had none.
  · rcases hplan.cases hbuilt hglobals hfunctions with ⟨-, hok, -⟩ | ⟨-, herror⟩
    · rw [hok] at he
      cases he
    · rw [herror] at he
      cases he
      cases hfault
  · exact hplan.build_decoyDraft hbuilt name hd
  · exact (hplan.cases hbuilt hglobals hfunctions).imp_left fun h => ⟨h.1, h.2.1⟩
  · rw [hdistinct hblocks plan hplan] at he
    cases he

/-! ### Trap blocks that share an ID -/

/-- A function with nothing but a trap block. -/
def trapped : Function :=
  { name := "source", calleeSaved := some [], registers := { allocated := true }
    body := some { blocks := ({} : Roster Block).insert .trapBlock, entry := 1 } }

/-- A function that returns, with a copy of a trap block under a given ID behind the return. -/
def copied (id : Nat) : Function :=
  { name := "target", calleeSaved := some [], registers := { allocated := true }
    body := some
      { blocks := (({} : Roster Block).insert (.ofCode [.ret])).insert { Block.trapBlock with id }, entry := 1 } }

def trapProgram : Program :=
  let empty : Program := (Program.new 4).toOption.getD { pointerSize := 4 }
  ((empty.addFunction trapped).toOption.map Prod.fst).getD empty

def codeProgram (id : Nat) : Program :=
  ((trapProgram.addFunction (copied id)).toOption.map Prod.fst).getD trapProgram

/-- A program with both functions and a table. -/
def copyProgram (id : Nat) : Program :=
  ((codeProgram id).addGlobal { name := "table", size := 32, initializer := some (.bytes [1]) }).1

/-- A randomizer that leaves so many bytes to the objects and decoys of the data class. -/
def decoyRandomizer (maxData : Nat) : LayoutRandomizer :=
  { options := { randomization := true, maxRodata := 0, maxData, maxBss := 0 } }

theorem built_copyProgram (id : Nat) (hadd : trapProgram.addFunction (copied id) = .ok (codeProgram id, 2)) :
    (copyProgram id).Built := by
  have hnew : Program.new 4 = .ok ((Program.new 4).toOption.getD { pointerSize := 4 }) := rfl
  have hfirst : ((Program.new 4).toOption.getD { pointerSize := 4 }).addFunction trapped
      = .ok (trapProgram, 1) := rfl
  exact .addGlobal _ (.addFunction (.addFunction (.new hnew) hfirst) hadd)

/-- With room for two decoys both trap blocks are etched. With too little room for the table nothing happens. -/
theorem runWith_atomic_copyProgram :
    ((decoyRandomizer 96).runWith constantStream (copyProgram 2)).outcome = .ok true ∧
      ((decoyRandomizer 96).runWith constantStream (copyProgram 2)).pass.statistics.trapsEtched = 2 ∧
      ((decoyRandomizer 16).runWith constantStream (copyProgram 2)).program = copyProgram 2 := by
  have hbuilt := built_copyProgram 2 rfl
  have hglobals : (copyProgram 2).globals.ids.Nodup := by decide +kernel
  have hfunctions : (copyProgram 2).functions.ids.Nodup := by decide +kernel
  have hblocks : ∀ f ∈ (copyProgram 2).functions.elems, (f.blocks.map Block.id).Nodup := by decide +kernel
  obtain ⟨plan, hplan⟩ : ∃ plan, (decoyRandomizer 96).Plans constantStream (copyProgram 2) plan :=
    exists_plans rfl rfl (by decide +kernel)
  have hgoes := (runWith_atomic (decoyRandomizer 96) constantStream hbuilt hglobals hfunctions).2.2 hblocks
  have hstops := (runWith_atomic (decoyRandomizer 16) constantStream hbuilt hglobals hfunctions).1
  refine ⟨hgoes.2 plan hplan, by decide +kernel, ?_⟩
  exact hstops (.capacityExceeded .data 32 16) (by decide +kernel) rfl

/-- If the copy has the ID of the block in front of it, a plan fails half way. -/
theorem not_atomic_copyProgram :
    (copyProgram 1).Built ∧ (copyProgram 1).globals.ids.Nodup ∧ (copyProgram 1).functions.ids.Nodup ∧
      (copyProgram 1).verify = .ok () ∧
      (∃ plan, (decoyRandomizer 96).Plans constantStream (copyProgram 1) plan) ∧
      ((decoyRandomizer 96).runWith constantStream (copyProgram 1)).outcome = .error (.fault .operandRange) ∧
      ((decoyRandomizer 96).runWith constantStream (copyProgram 1)).program.globals.size ≠
        (copyProgram 1).globals.size :=
  ⟨built_copyProgram 1 rfl, by decide +kernel, by decide +kernel, by decide +kernel,
    exists_plans rfl rfl (by decide +kernel), by decide +kernel, by decide +kernel⟩

end LayoutRandomizer
end ThumbHardening
