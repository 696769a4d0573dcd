import ThumbHardening.Proofs.Leakage.Sweep

/-!
# The leakable blocks of a program

If the address of a function escapes, all its blocks but the traps are leakable, and looking at the return
addresses marks nothing else. Otherwise the blocks that return addresses give away are. A function only
touches marks of its own, so with distinct IDs the whole program comes to the same as each function alone.
-/

namespace ThumbHardening

/-- The blocks that count, all but the traps. -/
def Function.codeBlocks (f : Function) : List Block :=
  f.blocks.filter fun b => !b.trap

theorem Function.codeBlocks_eq {f : Function} {g : FlowGraph} (hbody : f.body = some g) :
    f.codeBlocks = g.blocks.elems.filter fun b => !b.trap := by
  simp [codeBlocks, blocks, hbody]

namespace LeakageSweep

variable {p : Program} {spills : LinkSpill} {f : Function} {g : FlowGraph} {b : Block}
  {s s' : LeakageSweep} {x : Nat × Nat} {id : Nat}

/-- The state in which the blocks of a function are looked at: they are counted, and marked if the address
escapes. -/
def opened (p : Program) (f : Function) (s : LeakageSweep) : LeakageSweep :=
  let s := f.codeBlocks.foldl countBlock
    { s with
      statistics := { s.statistics with functions := s.statistics.functions + 1 }
      warnings := s.warnings + p.escapeWarnings f }
  if p.addressEscapes f then s.markFunction f.id f.codeBlocks else s

theorem visitFunction_eq_runAll (hbody : f.body = some g) :
    visitFunction p spills f s = Steps.runAll (visitBlock p spills f g) f.codeBlocks (opened p f s) := by
  simp only [visitFunction, hbody, opened, Function.codeBlocks_eq hbody]

theorem visitFunction_cases (h : visitFunction p spills f s = (s', none)) :
    (f.body = none ∧ s' = s) ∨ ∃ g, f.body = some g ∧
      Steps.runAll (visitBlock p spills f g) f.codeBlocks (opened p f s) = (s', none) := by
  cases hbody : f.body with
  | none =>
    simp only [visitFunction, hbody] at h
    cases h
    exact .inl ⟨rfl, rfl⟩
  | some g => exact .inr ⟨g, rfl, (visitFunction_eq_runAll hbody).symm.trans h⟩

/-! ### A function whose address escapes -/

/-- What no step changes is the same after all of them. -/
theorem foldl_keeps {α : Type} {step : LeakageSweep → Block → LeakageSweep} (part : LeakageSweep → α)
    (hstep : ∀ s b, part (step s b) = part s) (blocks : List Block) (s : LeakageSweep) :
    part (blocks.foldl step s) = part s := by
  induction blocks generalizing s with
  | nil => rfl
  | cons b rest ih => exact (ih (step s b)).trans (hstep s b)

theorem blocks_foldl_countBlock (blocks : List Block) (s : LeakageSweep) :
    (blocks.foldl countBlock s).blocks = s.blocks := by
  apply foldl_keeps
  exact fun _ _ => rfl

theorem mem_markFunction_iff {function : Nat} {blocks : List Block} :
    x ∈ (s.markFunction function blocks).blocks
      ↔ x ∈ s.blocks ∨ ∃ b ∈ blocks, x = (function, b.id) := by
  have hfold (t : LeakageSweep) : x ∈ (blocks.foldl (markEscaped function) t).blocks
      ↔ x ∈ t.blocks ∨ ∃ b ∈ blocks, x = (function, b.id) := by
    induction blocks generalizing t with
    | nil => simp
    | cons b rest ih => simp [ih, markEscaped, mem_mark_iff, or_assoc]
  exact hfold _

/-! ### One function -/

/-- Whether a block of a function is leakable, by its ID. -/
def Leakable (p : Program) (spills : LinkSpill) (f : Function) (g : FlowGraph) (id : Nat) : Prop :=
  ∃ k b, g.blocks.elems[k]? = some b ∧ b.id = id ∧
    if p.addressEscapes f = true then b.trap = false else spills.GivenAway p g.blocks.elems k

/-- Where the address of a function escapes, its blocks that are no traps are marked. -/
def MarkedWhole (f : Function) (g : FlowGraph) (s : LeakageSweep) : Prop :=
  ∀ id, (f.id, id) ∈ s.blocks ↔ ∃ b ∈ g.blocks.elems, b.trap = false ∧ b.id = id

/-- The return addresses give away nothing that is not marked already. -/
theorem MarkedWhole.visitBlock (h : MarkedWhole f g s) (hids : g.blocks.ids.Nodup)
    (hb : b ∈ g.blocks.elems.filter fun b => !b.trap)
    (hvisit : visitBlock p spills f g b s = (s', none)) : MarkedWhole f g s' := by
  intro id
  rw [visitBlock_eq_none hids hvisit, h id]
  refine ⟨?_, .inl⟩
  intro hcase
  rcases hcase with hmarked | ⟨heq, -⟩
  · exact hmarked
  · cases heq
    obtain ⟨hmem, htrap⟩ := List.mem_filter.mp hb
    exact ⟨b, hmem, by simpa using htrap, rfl⟩

/-- Before its blocks are looked at, all of them are marked if the address escapes, and none otherwise. -/
theorem mem_opened_iff : x ∈ (opened p f s).blocks ↔
    x ∈ s.blocks ∨ p.addressEscapes f = true ∧ ∃ b ∈ f.codeBlocks, x = (f.id, b.id) := by
  rw [opened]
  cases hescapes : p.addressEscapes f with
  | false => simp [blocks_foldl_countBlock]
  | true =>
    rw [if_pos rfl, mem_markFunction_iff, blocks_foldl_countBlock]
    simp

theorem visitFunction_eq_none (hbody : f.body = some g)
    (h : visitFunction p spills f s = (s', none)) :
    ∃ t : LeakageSweep,
      Steps.runAll (visitBlock p spills f g) (g.blocks.elems.filter fun b => !b.trap) t = (s', none) ∧
        ∀ x, x ∈ t.blocks ↔ x ∈ s.blocks ∨ p.addressEscapes f = true ∧
          ∃ b ∈ g.blocks.elems, b.trap = false ∧ x = (f.id, b.id) := by
  rcases visitFunction_cases h with ⟨hnone, -⟩ | ⟨g', hsome, hrun⟩
  · rw [hbody] at hnone
    cases hnone
  · rw [hbody, Option.some.injEq] at hsome
    subst hsome
    rw [Function.codeBlocks_eq hbody] at hrun
    refine ⟨_, hrun, fun x => ?_⟩
    rw [mem_opened_iff, Function.codeBlocks_eq hbody]
    simp [and_assoc]

/-- A function leaves the marks of all other functions alone. -/
theorem mem_visitFunction_of_ne (h : visitFunction p spills f s = (s', none)) (hne : x.1 ≠ f.id) :
    x ∈ s'.blocks ↔ x ∈ s.blocks := by
  have hother (b : Block) : x ≠ (f.id, b.id) := fun heq => hne (congrArg Prod.fst heq)
  cases hbody : f.body with
  | none =>
    simp only [visitFunction, hbody] at h
    cases h
    exact Iff.rfl
  | some g =>
    obtain ⟨t, hrun, hstart⟩ := visitFunction_eq_none hbody h
    refine Steps.runAll_induction hrun (P := fun t => x ∈ t.blocks ↔ x ∈ s.blocks) ?_ ?_
    · simp [hstart x, hother]
    · intro b _ t t' hvisit hsame
      obtain ⟨_, -, hmarks⟩ := visitBlock_marks hvisit
      rw [hmarks, ← hsame]
      simp [hother]

/-- The marks of a function whose address escapes are at the blocks that are leakable. -/
theorem MarkedWhole.mem_iff (h : MarkedWhole f g s) (hescapes : p.addressEscapes f = true) :
    (f.id, id) ∈ s.blocks ↔ Leakable p spills f g id := by
  rw [h id, Leakable]
  simp only [hescapes, if_true]
  constructor
  · intro hparts
    obtain ⟨b, hmem, htrap, hid⟩ := hparts
    obtain ⟨k, hk⟩ := List.mem_iff_getElem?.mp hmem
    exact ⟨k, b, hk, hid, htrap⟩
  · intro hparts
    obtain ⟨k, b, hk, hid, htrap⟩ := hparts
    exact ⟨b, List.mem_of_getElem? hk, htrap, hid⟩

theorem markedWhole_opened (hbody : f.body = some g) (hclean : ∀ id, (f.id, id) ∉ s.blocks)
    (hescapes : p.addressEscapes f = true) : MarkedWhole f g (opened p f s) := by
  intro id
  rw [mem_opened_iff, or_iff_right (hclean id), and_iff_right hescapes, Function.codeBlocks_eq hbody]
  refine exists_congr fun b => ?_
  simp only [List.mem_filter, Bool.not_eq_true', Prod.mk.injEq, true_and, and_assoc, @eq_comm _ id]

theorem sweptTo_opened (hclean : ∀ id, (f.id, id) ∉ s.blocks) (hescapes : p.addressEscapes f = false) :
    SweptTo p spills f g.blocks.elems 0 (opened p f s) := by
  intro id
  simp [mem_opened_iff, hclean, hescapes]

/-- After a function has been looked at, its marks are at the blocks that are leakable. -/
theorem mem_visitFunction_iff (hbody : f.body = some g) (hids : g.blocks.ids.Nodup)
    (hclean : ∀ id, (f.id, id) ∉ s.blocks) (h : visitFunction p spills f s = (s', none)) :
    (f.id, id) ∈ s'.blocks ↔ Leakable p spills f g id := by
  rw [visitFunction_eq_runAll hbody, Function.codeBlocks_eq hbody] at h
  cases hescapes : p.addressEscapes f with
  | true =>
    have hend : MarkedWhole f g s' :=
      Steps.runAll_induction h (P := MarkedWhole f g) (markedWhole_opened hbody hclean hescapes)
        fun b hb t t' hvisit hmarked => hmarked.visitBlock hids hb hvisit
    exact hend.mem_iff hescapes
  | false =>
    have hlayout : g.blocks.elems = [] ++ g.blocks.elems ++ [] := (List.append_nil _).symm
    have hend : SweptTo p spills f g.blocks.elems g.blocks.elems.length s' :=
      SweptTo.runAll hids hlayout (sweptTo_opened hclean hescapes) h
    rw [hend id, Leakable]
    simp only [hescapes, Bool.false_eq_true, if_false]
    refine exists_congr fun k => exists_congr fun b => ?_
    apply and_iff_right_of_imp
    intro hparts
    obtain ⟨hk, -⟩ := hparts
    exact (List.getElem?_eq_some_iff.mp hk).1

/-! ### All functions -/

/-- Marks of functions that are not looked at stay as they are. -/
theorem mem_runAll_visitFunction_of_notMem {functions : List Function}
    (hrun : Steps.runAll (visitFunction p spills) functions s = (s', none))
    (hx : x.1 ∉ functions.map Function.id) : x ∈ s'.blocks ↔ x ∈ s.blocks := by
  refine Steps.runAll_induction hrun (P := fun t => x ∈ t.blocks ↔ x ∈ s.blocks) Iff.rfl ?_
  intro f hf t t' hvisit hsame
  refine (mem_visitFunction_of_ne hvisit fun heq => ?_).trans hsame
  exact hx (heq ▸ List.mem_map_of_mem hf)

/-- After all functions have been looked at, the marks are at the blocks that are leakable. -/
theorem runAll_visitFunction {functions : List Function}
    (hfunctions : (functions.map Function.id).Nodup)
    (hblocks : ∀ f ∈ functions, ∀ g, f.body = some g → g.blocks.ids.Nodup)
    (hclean : ∀ f ∈ functions, ∀ id, (f.id, id) ∉ s.blocks)
    (hrun : Steps.runAll (visitFunction p spills) functions s = (s', none)) :
    (∀ x, x.1 ∉ functions.map Function.id → (x ∈ s'.blocks ↔ x ∈ s.blocks)) ∧
      ∀ f ∈ functions, ∀ g, f.body = some g → ∀ id,
        (f.id, id) ∈ s'.blocks ↔ Leakable p spills f g id := by
  refine ⟨fun x hx => mem_runAll_visitFunction_of_notMem hrun hx, ?_⟩
  induction functions generalizing s with
  | nil => simp
  | cons f rest ih =>
    obtain ⟨t, hvisit, hrest⟩ := Steps.runAll_cons_eq_none_iff.mp hrun
    rw [List.map_cons, List.nodup_cons] at hfunctions
    obtain ⟨hfirst, hothers⟩ := List.forall_mem_cons.mp hblocks
    obtain ⟨hcleanFirst, hcleanRest⟩ := List.forall_mem_cons.mp hclean
    have hstill : ∀ other ∈ rest, ∀ id, (other.id, id) ∉ t.blocks := by
      intro other hother id
      rw [mem_visitFunction_of_ne hvisit]
      · exact hcleanRest other hother id
      · intro heq
        exact hfunctions.1 (heq ▸ List.mem_map_of_mem hother)
    have hspec := ih hfunctions.2 hothers hstill hrest
    refine List.forall_mem_cons.mpr ⟨fun g hbody id => ?_, hspec⟩
    rw [mem_runAll_visitFunction_of_notMem hrest hfunctions.1]
    exact mem_visitFunction_iff hbody (hfirst g hbody) hcleanFirst hvisit

/-! ### The number of functions -/

theorem functions_mark (s : LeakageSweep) (function : Nat) (b : Block) :
    (s.mark function b).statistics.functions = s.statistics.functions := by
  rw [mark]
  split <;> rfl

theorem functions_countBlocks (blocks : List Block) (s : LeakageSweep) :
    (blocks.foldl countBlock s).statistics.functions = s.statistics.functions := by
  apply foldl_keeps fun s => s.statistics.functions
  exact fun _ _ => rfl

theorem functions_markFunction (s : LeakageSweep) (function : Nat) (blocks : List Block) :
    (s.markFunction function blocks).statistics.functions = s.statistics.functions := by
  rw [markFunction, foldl_keeps fun s => s.statistics.functions]
  exact fun _ _ => functions_mark ..

theorem functions_opened (p : Program) (f : Function) (s : LeakageSweep) :
    (opened p f s).statistics.functions = s.statistics.functions + 1 := by
  rw [opened]
  split
  · rw [functions_markFunction, functions_countBlocks]
  · rw [functions_countBlocks]

theorem functions_visitFunction (hvisit : visitFunction p spills f s = (s', none)) :
    s'.statistics.functions = s.statistics.functions + if f.body.isSome then 1 else 0 := by
  rcases visitFunction_cases hvisit with ⟨hbody, rfl⟩ | ⟨g, hbody, hrun⟩
  · rw [hbody]
    rfl
  · rw [hbody]
    refine Steps.runAll_induction hrun (P := fun t => t.statistics.functions
      = s.statistics.functions + 1) (functions_opened p f s) fun b _ t t' hstep ht => ?_
    rw [visitBlock] at hstep
    split at hstep
    · cases hstep
    · cases hstep
      exact ht
    · cases hstep
      exact (functions_mark ..).trans ht

/-- All functions with a body are counted. -/
theorem functions_runAll {functions : List Function}
    (hrun : Steps.runAll (visitFunction p spills) functions s = (s', none)) :
    s'.statistics.functions
      = s.statistics.functions + functions.countP fun f => f.body.isSome := by
  induction functions generalizing s with
  | nil =>
    cases hrun
    rfl
  | cons f rest ih =>
    obtain ⟨t, hvisit, hrest⟩ := Steps.runAll_cons_eq_none_iff.mp hrun
    rw [ih hrest, functions_visitFunction hvisit, List.countP_cons]
    omega

end LeakageSweep

namespace LeakageAnalysis

theorem run_eq {a : LeakageAnalysis} {p : Program} {spills : LinkSpill} {s : LeakageSweep}
    (hspills : LinkSpill.compute p = .ok spills)
    (hvisit : LeakageSweep.visitProgram p spills = (s, none)) :
    a.run p = {
      pass := { a with
        leakableBlocks := s.blocks, leakableFunctions := s.functions
        statistics := a.place s.statistics }
      program := p, warnings := s.warnings, outcome := .ok false } := by
  rw [run, hspills]
  simp only [hvisit]
  rfl

theorem isLeakableBlock_run_iff {a : LeakageAnalysis} {p : Program} {spills : LinkSpill} {s : LeakageSweep}
    {function id : Nat} (hspills : LinkSpill.compute p = .ok spills)
    (hvisit : LeakageSweep.visitProgram p spills = (s, none)) :
    (a.run p).pass.isLeakableBlock function id = true ↔ (function, id) ∈ s.blocks := by
  rw [run_eq hspills hvisit, isLeakableBlock, List.contains_iff_mem]

/-- A run succeeds if the sweep over the program does. -/
theorem visitProgram_of_run {a : LeakageAnalysis} {p : Program} {changed : Bool}
    (hok : (a.run p).outcome = .ok changed) :
    ∃ spills s, LinkSpill.compute p = .ok spills ∧
      LeakageSweep.visitProgram p spills = (s, none) := by
  rw [run] at hok
  split at hok
  · cases hok
  · next spills hspills =>
    cases hvisit : LeakageSweep.visitProgram p spills with
    | mk s failure =>
      cases failure with
      | some e =>
        rw [hvisit] at hok
        cases hok
      | none => exact ⟨spills, s, hspills, hvisit⟩

/-- A run that succeeds has looked at all functions, and nothing of earlier runs is left. -/
theorem run_eq_ok {a : LeakageAnalysis} {p : Program} {changed : Bool}
    (hok : (a.run p).outcome = .ok changed) :
    ∃ spills s, LinkSpill.compute p = .ok spills ∧
      LeakageSweep.visitProgram p spills = (s, none) ∧ (a.run p).pass.leakableBlocks = s.blocks := by
  obtain ⟨spills, s, hspills, hvisit⟩ := visitProgram_of_run hok
  exact ⟨spills, s, hspills, hvisit, by rw [run_eq hspills hvisit]⟩

/-- A successful run finds exactly the leakable blocks of every function with a body. If the address of the
function escapes these are all blocks but the traps. Otherwise a block is leakable if a call that leaks stands
in the middle of a block at or in front of it, or at the end of the block before that one, with no trap block
from that one on. -/
theorem isLeakableBlock_iff {a : LeakageAnalysis} {p : Program} {changed : Bool}
    (hfunctions : p.functions.ids.Nodup)
    (hblocks : ∀ f ∈ p.functions.elems, ∀ g, f.body = some g → g.blocks.ids.Nodup)
    (hok : (a.run p).outcome = .ok changed) :
    ∃ spills, LinkSpill.compute p = .ok spills ∧
      ∀ f ∈ p.functions.elems, ∀ g, f.body = some g → ∀ id,
        (a.run p).pass.isLeakableBlock f.id id = true ↔
          ∃ k b, g.blocks.elems[k]? = some b ∧ b.id = id ∧
            if p.addressEscapes f = true then b.trap = false
            else spills.GivenAway p g.blocks.elems k := by
  obtain ⟨spills, s, hspills, hvisit, hmarks⟩ := run_eq_ok hok
  have hclean : ∀ f ∈ p.functions.elems, ∀ id, (f.id, id) ∉ ({} : LeakageSweep).blocks := by simp
  obtain ⟨-, hspec⟩ := LeakageSweep.runAll_visitFunction hfunctions hblocks hclean hvisit
  refine ⟨spills, hspills, fun f hf g hbody id => ?_⟩
  rw [isLeakableBlock, hmarks, List.contains_iff_mem]
  exact hspec f hf g hbody id

/-- A function that calls out of the program at the end of its first block. A trap block stands in front of its
last block. -/
def outwardCaller : Function :=
  { id := 1, name := "caller", calleeSaved := some []
    body := some
      { blocks := (((({} : Roster Block).insert
            (.ofCode [⟨.call, [.external "puts"], .al⟩])).insert
            (.ofCode [.nop, .nop])).insert .trapBlock).insert (.ofCode [.ret])
        entry := 1 } }

/-- A program with that function alone. -/
def outwardProgram : Program :=
  let empty : Program := (Program.new 4).toOption.getD { pointerSize := 4 }
  ((empty.addFunction outwardCaller).toOption.map Prod.fst).getD empty

/-- The call gives away the block behind it, whatever an earlier run has found. -/
theorem isLeakableBlock_outwardProgram :
    (run { postHardening := true, leakableBlocks := [(1, 4)] } outwardProgram).pass.isLeakableBlock 1 2
      = true := by
  have hfunctions : outwardProgram.functions.elems = [outwardCaller] := rfl
  have hblocks : ∀ f ∈ outwardProgram.functions.elems, ∀ g, f.body = some g → g.blocks.ids.Nodup := by
    intro f hf g hg
    rw [hfunctions, List.mem_singleton] at hf
    subst hf
    cases hg
    decide
  have hok : (run { postHardening := true, leakableBlocks := [(1, 4)] } outwardProgram).outcome
      = .ok false := rfl
  obtain ⟨spills, -, hiff⟩ := isLeakableBlock_iff (by decide +kernel) hblocks hok
  have hcaller : outwardCaller ∈ outwardProgram.functions.elems := by
    rw [hfunctions]
    exact List.mem_singleton_self _
  refine (hiff outwardCaller hcaller _ rfl 2).mpr ⟨1, _, rfl, rfl, ?_⟩
  have hescapes : outwardProgram.addressEscapes outwardCaller = false := by decide +kernel
  rw [hescapes, if_neg (by simp)]
  refine ⟨1, Nat.le_refl 1, fun m hm hm' => ?_, .inr ⟨Nat.one_pos, _, rfl, 0, _, rfl, ?_⟩⟩
  · rw [Nat.le_antisymm hm' hm]
    exact ⟨_, rfl, rfl⟩
  · exact .external rfl rfl

end LeakageAnalysis
end ThumbHardening
