import ThumbHardening.Proofs.CallLimit.Function
import ThumbHardening.Proofs.Leakage.Profile
import ThumbHardening.Proofs.Predication.Stripped

/-!
# Leakage without debug information

The analysis compares positions of instructions, and debug information shifts them. It does so only to tell
whether there is something behind a call that produces code. Asked that way, every answer about a block is read
off what is left of it without debug information, so a program leaks the same with or without.
-/

namespace ThumbHardening

/-- Code that is the same but for debug information. -/
def Code.SameProduct (code code' : Code) : Prop :=
  code'.withoutDebug = code.withoutDebug

/-- The same block with other code. -/
structure Block.Recoded (R : Code → Code → Prop) (b b' : Block) : Prop where
  same : b' = { b with instrs := b'.instrs, cursor := b'.cursor }
  code : R b.instrs b'.instrs

structure Function.Recoded (R : Code → Code → Prop) (f f' : Function) : Prop where
  same : f' = { f with body := f'.body }
  body : Option.Rel (CallLimit.RewrittenGraph (Block.Recoded R)) f.body f'.body

/-- The same program with other code, block by block. -/
structure Program.Recoded (R : Code → Code → Prop) (p p' : Program) : Prop where
  same : p' = { p with functions := { p.functions with elems := p'.functions.elems } }
  functions : List.Forall₂ (Function.Recoded R) p.functions.elems p'.functions.elems

/-- Whether one of the instructions leaks that have another one behind them that produces code. -/
def LeakageSweep.leaksEarly (p : Program) (spills : LinkSpill) (name : String) : Code → Except LeakageError Bool
  | [] => .ok false
  | i :: rest =>
    match p.callLeaks spills name i with
    | .error e => .error e
    | .ok leaks =>
      if leaks && !(Code.withoutDebug rest).isEmpty then .ok true else leaksEarly p spills name rest

variable {R R' : Code → Code → Prop} {p p' : Program} {f f' : Function} {g g' : FlowGraph} {b b' : Block}
  {spills : LinkSpill} {name : String} {code code' : Code} {i : Instr}

theorem Block.Recoded.imp (h : Block.Recoded R b b') (hR : ∀ code code', R code code' → R' code code') :
    Block.Recoded R' b b' :=
  ⟨h.same, hR _ _ h.code⟩

theorem Function.Recoded.body_cases (h : Function.Recoded R f f') : (f.body = none ∧ f'.body = none) ∨
    ∃ g g', f.body = some g ∧ f'.body = some g' ∧ CallLimit.RewrittenGraph (Block.Recoded R) g g' := by
  have hbody := h.body
  generalize f.body = body at hbody
  generalize f'.body = body' at hbody
  cases hbody with
  | none => exact .inl ⟨rfl, rfl⟩
  | some hgraph => exact .inr ⟨_, _, rfl, rfl, hgraph⟩

theorem Function.Recoded.imp (h : Function.Recoded R f f') (hR : ∀ code code', R code code' → R' code code') :
    Function.Recoded R' f f' := by
  refine ⟨h.same, ?_⟩
  obtain ⟨hbody, hbody'⟩ | ⟨g, g', hbody, hbody', hgraph⟩ := h.body_cases <;> rw [hbody, hbody']
  · exact .none
  · exact .some ⟨hgraph.same, hgraph.blocks.imp fun _ _ hb => hb.imp hR⟩

theorem Program.Recoded.imp (h : Program.Recoded R p p') (hR : ∀ code code', R code code' → R' code code') :
    Program.Recoded R' p p' :=
  ⟨h.same, h.functions.imp fun _ _ hf => hf.imp hR⟩

/-! ### One block -/

namespace Code

theorem lastNonDebug?_eq (b : Block) : b.lastNonDebug?.map Prod.snd = b.instrs.withoutDebug.getLast? := by
  cases hlast : b.lastNonDebug? with
  | none =>
    rw [withoutDebug_of_isDebug (lastNonDebug?_eq_none hlast)]
    rfl
  | some entry =>
    obtain ⟨index, last⟩ := entry
    obtain ⟨front, back, hcode, -, hdebug, hback⟩ := lastNonDebug?_eq_some hlast
    rw [hcode, withoutDebug_append, withoutDebug_cons, hdebug, withoutDebug_of_isDebug hback]
    simp

theorem size_withoutDebug (code : Code) :
    code.withoutDebug.foldr (fun i n => i.size + n) 0 = code.foldr (fun i n => i.size + n) 0 := by
  induction code with
  | nil => rfl
  | cons i rest ih =>
    rw [withoutDebug_cons, List.foldr_cons, ← ih]
    cases hdebug : i.isDebug with
    | false => rfl
    | true =>
      have hopcode : i.opcode = .debug := of_decide_eq_true hdebug
      simp [Instr.size, hopcode, Opcode.size]

end Code

namespace Block.Recoded

theorem id_eq (h : Block.Recoded R b b') : b'.id = b.id := by
  rw [h.same]

theorem trap_eq (h : Block.Recoded R b b') : b'.trap = b.trap := by
  rw [h.same]

theorem size_eq (h : Block.Recoded Code.SameProduct b b') : b'.size = b.size := by
  rw [Block.size, Block.size, ← Code.size_withoutDebug, h.code, Code.size_withoutDebug]

theorem last_eq (h : Block.Recoded Code.SameProduct b b') :
    b'.lastNonDebug?.map Prod.snd = b.lastNonDebug?.map Prod.snd := by
  rw [Code.lastNonDebug?_eq, Code.lastNonDebug?_eq, h.code]

end Block.Recoded

namespace LeakageSweep

theorem callLeaks_debug (hdebug : i.isDebug = true) : p.callLeaks spills name i = .ok false := by
  have hopcode : i.opcode = .debug := of_decide_eq_true hdebug
  simp [Program.callLeaks, hopcode]

theorem anyLeaks_debug (hdebug : ∀ i ∈ code, i.isDebug = true) (last : Option Nat) (index : Nat) :
    anyLeaks p spills name last code index = .ok false := by
  induction code generalizing index with
  | nil => rfl
  | cons i rest ih =>
    obtain ⟨hfirst, hrest⟩ := List.forall_mem_cons.mp hdebug
    rw [anyLeaks, callLeaks_debug hfirst]
    exact ih hrest (index + 1)

/-- Debug information does not count: neither where it stands nor whether something is in front of it. -/
theorem leaksEarly_withoutDebug (code : Code) :
    leaksEarly p spills name code.withoutDebug = leaksEarly p spills name code := by
  induction code with
  | nil => rfl
  | cons i rest ih =>
    rw [Code.withoutDebug_cons, leaksEarly]
    cases hdebug : i.isDebug with
    | false =>
      simp only [Bool.false_eq_true, if_false, leaksEarly, ih, Code.withoutDebug_withoutDebug]
    | true =>
      rw [callLeaks_debug hdebug]
      exact ih

/-- A call in front of the last instruction that produces code has something behind it, and nothing else has. -/
theorem anyLeaks_last {front back : Code} (hdebug : i.isDebug = false) (hback : ∀ j ∈ back, j.isDebug = true)
    (index : Nat) :
    anyLeaks p spills name (some (index + front.length)) (front ++ i :: back) index
      = leaksEarly p spills name (front ++ i :: back) := by
  induction front generalizing index with
  | nil =>
    rw [List.nil_append, leaksEarly, anyLeaks, anyLeaks_debug hback, ← leaksEarly_withoutDebug back,
      Code.withoutDebug_of_isDebug hback]
    cases p.callLeaks spills name i <;> simp [leaksEarly]
  | cons j front ih =>
    have hbehind : (Code.withoutDebug (front ++ i :: back)).isEmpty = false := by
      rw [List.isEmpty_eq_false_iff_exists_mem]
      exact ⟨i, List.mem_filter.mpr ⟨by simp, by simp [hdebug]⟩⟩
    have hlast : index + (j :: front).length = index + 1 + front.length := by
      rw [List.length_cons]
      omega
    have hindex : index ≠ index + 1 + front.length := by omega
    rw [List.cons_append, leaksEarly, anyLeaks, hbehind, hlast, ih (index + 1)]
    cases p.callLeaks spills name j <;> simp [hindex]

theorem leaksInside_eq (b : Block) : leaksInside p spills f b = leaksEarly p spills f.name b.instrs := by
  rw [leaksInside]
  cases hlast : b.lastNonDebug? with
  | none =>
    have hdebug := Code.lastNonDebug?_eq_none hlast
    rw [anyLeaks_debug hdebug, ← leaksEarly_withoutDebug, Code.withoutDebug_of_isDebug hdebug]
    rfl
  | some entry =>
    obtain ⟨index, last⟩ := entry
    obtain ⟨front, back, hcode, rfl, hdebug, hback⟩ := Code.lastNonDebug?_eq_some hlast
    rw [hcode, ← anyLeaks_last hdebug hback 0, Nat.zero_add]
    rfl

end LeakageSweep

/-! ### One function -/

namespace TailCalls

theorem extend_debug (hdebug : i.isDebug = true) (t : TailCalls) : extend p name t i = .ok t := by
  have hopcode : i.opcode = .debug := of_decide_eq_true hdebug
  simp [extend, hopcode]

theorem foldlM_extend_withoutDebug (code : Code) (t : TailCalls) :
    code.withoutDebug.foldlM (extend p name) t = code.foldlM (extend p name) t := by
  induction code generalizing t with
  | nil => rfl
  | cons i rest ih =>
    rw [Code.withoutDebug_cons, List.foldlM_cons]
    cases hdebug : i.isDebug with
    | false => simp only [Bool.false_eq_true, if_false, List.foldlM_cons, ih]
    | true =>
      rw [extend_debug hdebug]
      exact ih t

end TailCalls

namespace Function.Recoded

theorem blocks (h : Function.Recoded R f f') : List.Forall₂ (Block.Recoded R) f.blocks f'.blocks := by
  rw [Function.blocks, Function.blocks]
  obtain ⟨hbody, hbody'⟩ | ⟨g, g', hbody, hbody', hgraph⟩ := h.body_cases <;> rw [hbody, hbody']
  · exact .nil
  · exact hgraph.blocks

theorem instrs_eq (h : Function.Recoded Code.SameProduct f f') :
    Code.withoutDebug f'.instrs = Code.withoutDebug f.instrs := by
  have hblocks := h.blocks
  rw [Function.instrs, Function.instrs]
  generalize f.blocks = blocks at hblocks
  generalize f'.blocks = blocks' at hblocks
  induction hblocks with
  | nil => rfl
  | cons hb _ ih =>
    rw [List.flatMap_cons, List.flatMap_cons, Code.withoutDebug_append, Code.withoutDebug_append, hb.code, ih]

end Function.Recoded

/-! ### One program -/

namespace Program.Recoded

theorem ids_eq (h : Program.Recoded R p p') : p'.functions.ids = p.functions.ids :=
  Pairs.map_eq h.functions fun f f' hf => by rw [hf.same]; rfl

theorem callTarget_eq (h : Program.Recoded R p p') : p'.callTarget = p.callTarget :=
  callTarget_congr h.ids_eq (by rw [h.same]) (by rw [h.same])

theorem callLeaks_eq (h : Program.Recoded R p p') : p'.callLeaks = p.callLeaks := by
  funext spills name i
  simp only [callLeaks, h.callTarget_eq]

theorem escapeWalk_eq (h : Program.Recoded R p p') (hf : Function.Recoded R f f') :
    p'.escapeWalk f' = p.escapeWalk f := by
  rw [h.same, hf.same]
  rfl

/-- Tail calls are read off what produces code. -/
theorem ofFunction_eq (h : Program.Recoded Code.SameProduct p p') (hf : Function.Recoded Code.SameProduct f f') :
    TailCalls.ofFunction p' f' = TailCalls.ofFunction p f := by
  have hextend : TailCalls.extend p' = TailCalls.extend p := by
    funext name t i
    simp only [TailCalls.extend, h.callTarget_eq]
  have hbody : f'.body.isNone = f.body.isNone := by
    obtain ⟨hbody, hbody'⟩ | ⟨g, g', hbody, hbody', -⟩ := hf.body_cases
    · rw [hbody, hbody']
    · rw [hbody, hbody', Option.isNone_some, Option.isNone_some]
  have hid : f'.id = f.id := by rw [hf.same]
  have hname : f'.name = f.name := by rw [hf.same]
  have hsaved : f'.calleeSaved = f.calleeSaved := by rw [hf.same]
  rw [TailCalls.ofFunction, TailCalls.ofFunction, hextend, ← TailCalls.foldlM_extend_withoutDebug,
    ← TailCalls.foldlM_extend_withoutDebug f.instrs, hf.instrs_eq, hbody, hid, hname, hsaved,
    Function.savesLink, Function.savesLink, hsaved]

theorem compute_eq (h : Program.Recoded Code.SameProduct p p') : LinkSpill.compute p' = LinkSpill.compute p := by
  have hcalls := Pairs.mapM_eq h.functions fun f f' => h.ofFunction_eq
  rw [LinkSpill.compute, LinkSpill.compute, hcalls]

end Program.Recoded

namespace LeakageSweep

/-- The last instruction of a block that produces code, found by the ID of the block. -/
theorem last_of_block?_eq (hgraph : CallLimit.RewrittenGraph (Block.Recoded Code.SameProduct) g g') (id : Nat) :
    ((g'.block? id).bind Block.lastNonDebug?).map Prod.snd
      = ((g.block? id).bind Block.lastNonDebug?).map Prod.snd := by
  have hfound : Option.Rel (Block.Recoded Code.SameProduct) (g.block? id) (g'.block? id) :=
    Pairs.find? hgraph.blocks fun b b' hb => by
      change decide (b'.id = id) = decide (b.id = id)
      rw [hb.id_eq]
  generalize g.block? id = found at hfound
  generalize g'.block? id = found' at hfound
  cases hfound with
  | none => rfl
  | some hb => exact hb.last_eq

theorem leaksFromFront_eq (h : Program.Recoded Code.SameProduct p p')
    (hf : Function.Recoded Code.SameProduct f f')
    (hgraph : CallLimit.RewrittenGraph (Block.Recoded Code.SameProduct) g g')
    (hb : Block.Recoded Code.SameProduct b b') (s : LeakageSweep) :
    leaksFromFront p' spills f' g' b' s = leaksFromFront p spills f g b s := by
  have hid : f'.id = f.id := by rw [hf.same]
  have hname : f'.name = f.name := by rw [hf.same]
  have hids : g'.blocks.ids = g.blocks.ids := Pairs.map_eq hgraph.blocks fun b b' hb => hb.id_eq
  have hfront : Option.Rel (Block.Recoded Code.SameProduct) (g.layoutPredecessor? b.id)
      (g'.layoutPredecessor? b.id) := by
    rw [FlowGraph.layoutPredecessor?, FlowGraph.layoutPredecessor?, Roster.position?_eq, Roster.position?_eq, hids]
    split
    · exact Pairs.getElem? hgraph.blocks _
    · exact .none
  rw [leaksFromFront, leaksFromFront, hb.id_eq, hid, hname, h.callLeaks_eq]
  generalize g.layoutPredecessor? b.id = front at hfront
  generalize g'.layoutPredecessor? b.id = front' at hfront
  cases hfront with
  | none => rfl
  | @some front front' hfront =>
    have hlast := last_of_block?_eq hgraph front.id
    simp only [hfront.id_eq]
    generalize (g.block? front.id).bind Block.lastNonDebug? = last at hlast
    generalize (g'.block? front.id).bind Block.lastNonDebug? = last' at hlast
    rcases last with _ | ⟨k, last⟩ <;> rcases last' with _ | ⟨k', last'⟩ <;> simp_all

theorem visitBlock_eq (h : Program.Recoded Code.SameProduct p p') (hf : Function.Recoded Code.SameProduct f f')
    (hgraph : CallLimit.RewrittenGraph (Block.Recoded Code.SameProduct) g g')
    (hb : Block.Recoded Code.SameProduct b b') : visitBlock p' spills f' g' b' = visitBlock p spills f g b := by
  have hid : f'.id = f.id := by rw [hf.same]
  have hname : f'.name = f.name := by rw [hf.same]
  have hearly : leaksEarly p' spills = leaksEarly p spills := by
    funext name code
    induction code with
    | nil => rfl
    | cons i rest ih => rw [leaksEarly, leaksEarly, h.callLeaks_eq, ih]
  have hinside : leaksInside p' spills f' b' = leaksInside p spills f b := by
    rw [leaksInside_eq, leaksInside_eq, ← leaksEarly_withoutDebug, hb.code, leaksEarly_withoutDebug, hearly, hname]
  funext s
  rw [visitBlock, visitBlock, isGivenAway, isGivenAway, leaksFromFront_eq h hf hgraph hb, hinside, hid]
  simp only [markReturned, mark, hb.id_eq, hb.size_eq]

theorem countBlock_eq (hb : Block.Recoded Code.SameProduct b b') (s : LeakageSweep) :
    s.countBlock b' = s.countBlock b := by
  rw [countBlock, countBlock, hb.size_eq]

theorem markEscaped_eq (hb : Block.Recoded Code.SameProduct b b') (function : Nat) (s : LeakageSweep) :
    markEscaped function s b' = markEscaped function s b := by
  rw [markEscaped, markEscaped, mark, mark, hb.id_eq, hb.size_eq]

theorem visitFunction_eq (h : Program.Recoded Code.SameProduct p p')
    (hf : Function.Recoded Code.SameProduct f f') : visitFunction p' spills f' = visitFunction p spills f := by
  have hid : f'.id = f.id := by rw [hf.same]
  have hescapes : p'.addressEscapes f' = p.addressEscapes f := congrArg Prod.snd (h.escapeWalk_eq hf)
  have hwarnings : p'.escapeWarnings f' = p.escapeWarnings f :=
    congrArg (fun walk => walk.1.warnings) (h.escapeWalk_eq hf)
  funext s
  rw [visitFunction, visitFunction, hescapes, hwarnings]
  obtain ⟨hbody, hbody'⟩ | ⟨g, g', hbody, hbody', hgraph⟩ := hf.body_cases <;> rw [hbody, hbody']
  have hblocks := Pairs.filter hgraph.blocks fun b b' hb => congrArg not hb.trap_eq
  have hcount := Pairs.foldl_eq hblocks fun b b' => countBlock_eq
  have hmark := Pairs.foldl_eq hblocks fun b b' hb => markEscaped_eq hb f.id
  have hvisit := Pairs.runAll_eq hblocks fun b b' hb =>
    show visitBlock p' spills f' g' b' = visitBlock p spills f g b from visitBlock_eq h hf hgraph hb
  simp only [hcount, markFunction, hmark, hvisit, hid]

end LeakageSweep

namespace LeakageAnalysis

theorem run_recoded (h : Program.Recoded Code.SameProduct p p') (a : LeakageAnalysis) :
    a.run p' = { a.run p with program := p' } := by
  have hvisit (spills : LinkSpill) : LeakageSweep.visitProgram p' spills = LeakageSweep.visitProgram p spills := by
    rw [LeakageSweep.visitProgram, LeakageSweep.visitProgram,
      Pairs.runAll_eq h.functions fun f f' => LeakageSweep.visitFunction_eq h]
  rw [run, run, h.compute_eq]
  cases LinkSpill.compute p with
  | error e => rfl
  | ok spills =>
    simp only [hvisit]
    rcases LeakageSweep.visitProgram p spills with ⟨s, _ | e⟩ <;> rfl

/-- Deleting debug information without a predicate from a program, wherever it stands, changes neither which of
its code is consistent nor anything that the analysis answers: whether it succeeds, with which error it fails
otherwise, what it finds leakable and what it counts. -/
theorem run_stripped (h : Program.Recoded Code.Stripped p p') (a : LeakageAnalysis) :
    List.Forall₂ (fun f f' => List.Forall₂ (fun b b' => b'.instrs.isConsistent = b.instrs.isConsistent)
      f.blocks f'.blocks) p.functions.elems p'.functions.elems ∧
    a.run p' = { a.run p with program := p' } := by
  refine ⟨h.functions.imp fun f f' hf => ?_, run_recoded (h.imp fun _ _ => Code.Stripped.withoutDebug_eq) a⟩
  exact hf.blocks.imp fun b b' hb => hb.code.isConsistent_eq

/-- A function whose first block ends with a call, with debug information in a group and behind the call or
without. -/
def notedProgram (noted : Bool) : Program :=
  let note : Code := if noted then [.debugMark] else []
  let move : Instr := { Instr.mov (.phys .r0) (.phys .r1) with pred := .eq }
  let first : Block :=
    { id := 1, instrs := [.it .eq 8] ++ note ++ [move, .callExternal "puts"] ++ note, edges := [.next 2] }
  let caller : Function :=
    { id := 1, name := "caller", body := some { blocks := { elems := [first, { id := 2, instrs := [.ret] }] } } }
  { functions := { elems := [caller], next := 2 }, pointerSize := 4 }

theorem run_stripped_notedProgram :
    Program.Recoded Code.Stripped (notedProgram true) (notedProgram false) ∧
    (run { postHardening := false } (notedProgram false)).outcome = .ok false ∧
    (run { postHardening := false } (notedProgram false)).pass.isLeakableBlock 1 2 = true := by
  have h : Program.Recoded Code.Stripped (notedProgram true) (notedProgram false) := by
    refine ⟨rfl, .cons ⟨rfl, .some ⟨rfl, .cons ⟨rfl, ?_⟩ (.cons ⟨rfl, .keep _ .nil⟩ .nil)⟩⟩ .nil⟩
    exact .keep _ (.drop rfl rfl (.keep _ (.keep _ (.drop rfl rfl .nil))))
  obtain ⟨-, hrun⟩ := run_stripped h { postHardening := false }
  rw [hrun]
  exact ⟨h, rfl, by decide +kernel⟩

end LeakageAnalysis
end ThumbHardening
