import ThumbHardening.Proofs.Leakage.Leakable

/-!
# Analyses in lockstep

Two runs of the analysis on functions whose blocks leak alike make the same marks in the same order. What they
have counted so far agrees as well, save for functions that nothing can be learnt about, which only add to the
number of functions.
-/

namespace ThumbHardening
namespace LeakageSweep

variable {p q : Program} {spills spills' : LinkSpill} {f f' : Function} {g g' : FlowGraph} {b b' : Block}
  {s s' t t' : LeakageSweep} {more : Nat}

/-- Two sweeps that have found the same. The second has met so many more functions. -/
structure Agree (more : Nat) (s t : LeakageSweep) : Prop where
  blocks : t.blocks = s.blocks
  functions : t.functions = s.functions
  functionCount : t.statistics.functions = s.statistics.functions + more
  functionsLeakable : t.statistics.functionsLeakable = s.statistics.functionsLeakable
  blocksLeakable : t.statistics.blocksLeakable = s.statistics.blocksLeakable

/-- Two blocks that leak alike, each in its program. -/
structure SameBlock (p q : Program) (spills spills' : LinkSpill) (b b' : Block) : Prop where
  id : b'.id = b.id
  trap : b'.trap = b.trap
  inside : spills'.LeaksInside q b' ↔ spills.LeaksInside p b
  ends : spills'.EndsLeaking q b' ↔ spills.EndsLeaking p b

/-- Two flow graphs whose blocks leak alike. -/
structure SameGraph (p q : Program) (spills spills' : LinkSpill) (g g' : FlowGraph) : Prop where
  ids : g.blocks.ids.Nodup
  blocks : List.Forall₂ (SameBlock p q spills spills') g.blocks.elems g'.blocks.elems

structure SameFunction (p q : Program) (spills spills' : LinkSpill) (f f' : Function) : Prop where
  id : f'.id = f.id
  escapes : q.addressEscapes f' = p.addressEscapes f
  body : Option.Rel (SameGraph p q spills spills') f.body f'.body

theorem SameGraph.ids_eq (h : SameGraph p q spills spills' g g') : g'.blocks.ids = g.blocks.ids :=
  Pairs.map_eq h.blocks fun _ _ hb => hb.id

theorem SameGraph.layoutPredecessor? (h : SameGraph p q spills spills' g g') (id : Nat) :
    Option.Rel (SameBlock p q spills spills') (g.layoutPredecessor? id) (g'.layoutPredecessor? id) := by
  rw [FlowGraph.layoutPredecessor?, FlowGraph.layoutPredecessor?, Roster.position?_eq,
    Roster.position?_eq, h.ids_eq]
  split
  · exact Pairs.getElem? h.blocks _
  · exact .none

/-! ### Marks -/

theorem Agree.mark (h : Agree more s t) (function : Nat) (hid : b'.id = b.id) :
    Agree more (s.mark function b) (t.mark function b') := by
  rw [LeakageSweep.mark, LeakageSweep.mark, h.blocks, hid]
  split
  · exact h
  · exact ⟨rfl, h.functions, h.functionCount, h.functionsLeakable, h.blocksLeakable⟩

theorem Agree.markReturned (h : Agree more s t) (function : Nat) (hid : b'.id = b.id) :
    Agree more (s.markReturned function b) (t.markReturned function b') := by
  apply Agree.mark _ function hid
  exact ⟨h.blocks, h.functions, h.functionCount, h.functionsLeakable, congrArg (· + 1) h.blocksLeakable⟩

theorem Agree.markFunction {blocks blocks' : List Block} (h : Agree more s t) (function : Nat)
    (hblocks : List.Forall₂ (SameBlock p q spills spills') blocks blocks') :
    Agree more (s.markFunction function blocks) (t.markFunction function blocks') := by
  refine Pairs.foldl hblocks ?_ fun b b' hb s t hst => ?_
  · exact ⟨h.blocks, congrArg (function :: ·) h.functions, h.functionCount,
      congrArg (· + 1) h.functionsLeakable, h.blocksLeakable⟩
  · apply Agree.mark _ function hb.id
    exact ⟨hst.blocks, hst.functions, hst.functionCount, hst.functionsLeakable, hst.blocksLeakable⟩

/-! ### Blocks -/

theorem visitBlock_eq_ite (h : visitBlock p spills f g b s = (s', none)) :
    ∃ answer, isGivenAway p spills f g b s = .ok answer ∧
      s' = if answer = true then s.markReturned f.id b else s := by
  rw [visitBlock] at h
  split at h
  · cases h
  · next hanswer =>
    cases h
    exact ⟨false, hanswer, rfl⟩
  · next hanswer =>
    cases h
    exact ⟨true, hanswer, rfl⟩

theorem Agree.visitBlock (h : Agree more s t) (hid : f'.id = f.id)
    (hgraph : SameGraph p q spills spills' g g') (hb : SameBlock p q spills spills' b b')
    (hvisit : visitBlock p spills f g b s = (s', none))
    (hvisit' : visitBlock q spills' f' g' b' t = (t', none)) : Agree more s' t' := by
  obtain ⟨answer, hanswer, rfl⟩ := visitBlock_eq_ite hvisit
  obtain ⟨answer', hanswer', rfl⟩ := visitBlock_eq_ite hvisit'
  have hsame : answer' = true ↔ answer = true := by
    rw [isGivenAway_eq_ok hgraph.ids hanswer, hb.inside.symm,
      isGivenAway_eq_ok (hgraph.ids_eq ▸ hgraph.ids) hanswer']
    apply or_congr_right
    rw [hid, hb.id, h.blocks]
    have hfront := hgraph.layoutPredecessor? b.id
    generalize g.layoutPredecessor? b.id = front at hfront
    generalize g'.layoutPredecessor? b.id = front' at hfront
    cases hfront with
    | none => simp
    | some hfront =>
      simp only [Option.some.injEq, exists_eq_left', hfront.id, hfront.ends]
  rw [hid, Bool.eq_iff_iff.mpr hsame]
  split
  · exact h.markReturned f.id hb.id
  · exact h

/-! ### Functions -/

theorem Agree.foldl_countBlock (h : Agree more s t) (blocks blocks' : List Block) :
    Agree more (blocks.foldl countBlock s) (blocks'.foldl countBlock t) := by
  have hcount : ∀ (blocks : List Block) (s : LeakageSweep), Agree 0 s (blocks.foldl countBlock s) := by
    intro blocks
    induction blocks with
    | nil => exact fun s => ⟨rfl, rfl, rfl, rfl, rfl⟩
    | cons b rest ih =>
      intro s
      have hrest := ih (s.countBlock b)
      exact ⟨hrest.blocks, hrest.functions, hrest.functionCount, hrest.functionsLeakable,
        hrest.blocksLeakable⟩
  have hs := hcount blocks s
  have ht := hcount blocks' t
  refine ⟨?_, ?_, ?_, ?_, ?_⟩
  · rw [ht.blocks, hs.blocks, h.blocks]
  · rw [ht.functions, hs.functions, h.functions]
  · rw [ht.functionCount, hs.functionCount, h.functionCount]
    rfl
  · rw [ht.functionsLeakable, hs.functionsLeakable, h.functionsLeakable]
  · rw [ht.blocksLeakable, hs.blocksLeakable, h.blocksLeakable]

theorem Agree.visitFunction (h : Agree more s t) (hf : SameFunction p q spills spills' f f')
    (hvisit : visitFunction p spills f s = (s', none))
    (hvisit' : visitFunction q spills' f' t = (t', none)) : Agree more s' t' := by
  have hbody := hf.body
  rw [LeakageSweep.visitFunction] at hvisit hvisit'
  generalize f.body = body at hbody hvisit
  generalize f'.body = body' at hbody hvisit'
  cases hbody with
  | none =>
    cases hvisit
    cases hvisit'
    exact h
  | @some g g' hgraph =>
    dsimp only at hvisit hvisit'
    have hblocks : List.Forall₂ (SameBlock p q spills spills') (g.blocks.elems.filter fun b => !b.trap)
        (g'.blocks.elems.filter fun b => !b.trap) :=
      Pairs.filter hgraph.blocks fun b b' hb => congrArg not hb.trap
    refine Pairs.runAll hblocks hvisit hvisit' ?_ fun b b' hb s s' t t' hs ht hst =>
      hst.visitBlock hf.id hgraph hb hs ht
    rw [hf.escapes]
    have hcounted : ∀ blocks blocks' : List Block, Agree more
        (blocks.foldl countBlock { s with
          statistics := { s.statistics with functions := s.statistics.functions + 1 }
          warnings := s.warnings + p.escapeWarnings f })
        (blocks'.foldl countBlock { t with
          statistics := { t.statistics with functions := t.statistics.functions + 1 }
          warnings := t.warnings + q.escapeWarnings f' }) := by
      intro blocks blocks'
      apply Agree.foldl_countBlock
      refine ⟨h.blocks, h.functions, ?_, h.functionsLeakable, h.blocksLeakable⟩
      have hcount := h.functionCount
      dsimp only
      omega
    split
    · rw [hf.id]
      exact (hcounted _ _).markFunction f.id hblocks
    · exact hcounted _ _

end LeakageSweep
end ThumbHardening
