import ThumbHardening.Editor
import ThumbHardening.Proofs.FlowGraph
import ThumbHardening.Proofs.Predication.Repair
import ThumbHardening.Proofs.Steps

/-!
# Edits and groups

Every edit repairs the code that it touches, so it leaves a consistent graph consistent as long as no debug
information gets a predicate. Removing and splitting give none. Inserting does: new instructions take over
the predicate of the instruction next to which they stand, debug information like all others. This is the
only way in which an edit breaks a group.
-/

namespace ThumbHardening

theorem Instr.bare_iff_of_isDebug {i : Instr} (hdebug : i.isDebug = true) :
    i.Bare ↔ i.isConditional = false := by
  simp only [isDebug, decide_eq_true_eq] at hdebug
  simp [Bare, needsGroup, isIt, hdebug, Opcode.hasInlinePredicate]

/-! ### Code -/

namespace Code

/-- Code whose debug information is not predicated. -/
def DebugBare (code : Code) : Prop :=
  ∀ i ∈ code, i.isDebug = true → i.Bare

variable {code : Code} {anchor : Instr} {index : Nat} {behind : Bool} {new : List Instr}

theorem debugBare_of_isConsistent (h : code.isConsistent = true) : DebugBare code :=
  (isConsistent_iff_grouped.mp h).bare_of_isDebug

theorem mem_of_mem_ungroup {i : Instr} (h : i ∈ (code.ungroup index).1) : i ∈ code := by
  rw [Code.ungroup] at h
  split at h
  · exact List.mem_of_mem_eraseIdx h
  · exact h

theorem DebugBare.ungroup (h : DebugBare code) (index : Nat) : DebugBare (code.ungroup index).1 :=
  fun i hmem => h i (mem_of_mem_ungroup hmem)

theorem isDebug_adopt (pred : Cond) (i : Instr) : (adopt pred i).isDebug = i.isDebug := by
  rw [adopt]
  split <;> rfl

/-- Debug information stays without a predicate if its neighbour passes none on. -/
theorem bare_adopt_iff {i : Instr} (hdebug : i.isDebug = true) (hbare : i.Bare) :
    (adopt (neighbourPred anchor) i).Bare ↔ anchor.needsGroup = false := by
  have hfree := (Instr.bare_iff_of_isDebug hdebug).mp hbare
  rw [Instr.bare_iff_of_isDebug ((isDebug_adopt _ i).trans hdebug)]
  cases hneeds : anchor.needsGroup with
  | false => simp [adopt, neighbourPred, hneeds, hfree]
  | true =>
    have hpred := pred_ne_al_of_needsGroup hneeds
    have hadopted : adopt (neighbourPred anchor) i = { i with pred := anchor.pred } := by
      rw [adopt, neighbourPred, if_pos hneeds, if_pos]
      simp [hpred, hfree, isIt_of_isDebug hdebug]
    rw [hadopted]
    simp [Instr.isConditional, hpred]

/-- An insertion leaves code consistent unless it puts debug information next to an instruction that needs a
group. -/
theorem isConsistent_insertAround_iff (hcode : DebugBare code) (hnew : DebugBare new) :
    (code.insertAround anchor index behind new).1.isConsistent = true
      ↔ ¬(anchor.needsGroup = true ∧ ∃ i ∈ new, i.isDebug = true) := by
  have hungrouped := hcode.ungroup index
  rw [insertAround]
  simp only [isConsistent_repair_iff, List.mem_append]
  constructor
  · intro h hparts
    obtain ⟨hneeds, i, hmem, hdebug⟩ := hparts
    have hadopted := h (adopt (neighbourPred anchor) i) (.inr (.inl (List.mem_map_of_mem hmem)))
      ((isDebug_adopt _ i).trans hdebug)
    rw [bare_adopt_iff hdebug (hnew i hmem hdebug), hneeds] at hadopted
    cases hadopted
  · intro h i hcase hdebug
    rcases hcase with hfront | hnewer | hback
    · exact hungrouped i (List.mem_of_mem_take hfront) hdebug
    · obtain ⟨j, hj, rfl⟩ := List.mem_map.mp hnewer
      rw [isDebug_adopt] at hdebug
      apply (bare_adopt_iff hdebug (hnew j hj hdebug)).mpr
      by_contra hneeds
      exact h ⟨by simpa using hneeds, j, hj, hdebug⟩
    · exact hungrouped i (List.mem_of_mem_drop hback) hdebug

theorem isConsistent_removeAt (hcode : DebugBare code) (index : Nat) :
    (code.removeAt index).isConsistent = true :=
  isConsistent_repair_iff.mpr fun i hmem =>
    hcode.ungroup index i (List.mem_of_mem_eraseIdx hmem)

theorem isConsistent_repair_take (hcode : DebugBare code) (index : Nat) :
    (repair (code.take index)).isConsistent = true :=
  isConsistent_repair_iff.mpr fun i hmem => hcode i (List.mem_of_mem_take hmem)

theorem isConsistent_repair_drop (hcode : DebugBare code) (index : Nat) :
    (repair (code.drop index)).isConsistent = true :=
  isConsistent_repair_iff.mpr fun i hmem => hcode i (List.mem_of_mem_drop hmem)

end Code

/-! ### Graphs -/

theorem Block.instrs_addEdge (b : Block) (edge : Edge) : (b.addEdge edge).instrs = b.instrs := by
  rw [addEdge]
  split <;> rfl

namespace FlowGraph

/-- Whether the groups of every block are consistent. -/
def Consistent (g : FlowGraph) : Prop :=
  ∀ b ∈ g.blocks.elems, b.instrs.isConsistent = true

variable {g g' : FlowGraph} {id index : Nat}

theorem Consistent.debugBare (hg : g.Consistent) {b : Block} (hb : g.block? id = some b) :
    Code.DebugBare b.instrs :=
  Code.debugBare_of_isConsistent (hg b (Roster.mem_of_get? hb))

theorem consistent_insertAround_iff {behind : Bool} {new : List Instr} {anchor' : Nat}
    (hg : g.Consistent) (hnew : Code.DebugBare new)
    (hok : g.insertAround id index behind new = .ok (g', anchor')) :
    g'.Consistent ↔ ¬∃ anchor, g.instr? id index = some anchor ∧ anchor.needsGroup = true ∧
      ∃ i ∈ new, i.isDebug = true := by
  rw [insertAround] at hok
  split at hok
  · cases hok
  · next b hb =>
    split at hok
    · cases hok
    · next anchor hanchor =>
      have hinstr : g.instr? id index = some anchor := instr?_eq_some_iff.mpr ⟨b, hb, hanchor⟩
      have hcode : (b.instrs.insertAround anchor index behind new).1.isConsistent = true ↔ _ :=
        Code.isConsistent_insertAround_iff (hg.debugBare hb) hnew
      obtain ⟨rfl, -⟩ := Prod.mk.inj (Except.ok.inj hok)
      rw [hinstr]
      refine (Roster.forall_mem_update_iff hb hg).trans (hcode.trans ?_)
      simp

theorem consistent_removeInstr {i : Instr} (hg : g.Consistent)
    (hok : g.removeInstr id index = .ok (g', i)) : g'.Consistent := by
  rw [removeInstr] at hok
  split at hok
  · cases hok
  · next b hb =>
    split at hok
    · cases hok
    · split at hok
      · cases hok
      · cases hok
        exact (Roster.forall_mem_update_iff hb hg).mpr
          (Code.isConsistent_removeAt (hg.debugBare hb) index)

theorem consistent_splitBlock {new : Nat} (hg : g.Consistent)
    (hok : g.splitBlock id index = .ok (g', new)) : g'.Consistent := by
  rw [splitBlock] at hok
  split at hok
  · cases hok
  · next b hb =>
    split at hok
    · cases hok
    · simp only at hok
      split at hok
      · cases hok
      · next grown hgrown =>
        cases hok
        obtain ⟨blocks, hblocks, rfl⟩ := Option.map_eq_some_iff.mp hgrown
        have hbare := hg.debugBare hb
        intro other hmem
        rcases Roster.mem_insertAfter? hblocks hmem with hmem | rfl
        · refine (Roster.forall_mem_update_iff hb hg).mpr ?_ other hmem
          rw [Block.instrs_addEdge]
          exact Code.isConsistent_repair_take hbare index
        · exact Code.isConsistent_repair_drop hbare index

end FlowGraph

/-! ### Runs of edits -/

/-- An edit at a position of a block. -/
inductive Edit where
  | insertBefore (id index : Nat) (new : List Instr)
  | insertAfter (id index : Nat) (new : List Instr)
  | remove (id index : Nat)
  | splitBefore (id index : Nat)
  | splitAfter (id index : Nat)

namespace Edit

def apply (e : Editor) (g : FlowGraph) : Edit → Except EditError (Editor × FlowGraph)
  | insertBefore id index new =>
    (e.insertBefore g id index new).map fun done => (done.1, done.2.1)
  | insertAfter id index new =>
    (e.insertAfter g id index new).map fun done => (done.1, done.2.1)
  | remove id index => (e.remove g id index).map fun done => (done.1, done.2.1)
  | splitBefore id index => (e.splitBefore g id index).map fun done => (done.1, done.2.1)
  | splitAfter id index => (e.splitAfter g id index).map fun done => (done.1, done.2.1)

/-- Makes one edit after the other. The result are the graphs after each of them. -/
def applyAll (e : Editor) (g : FlowGraph) : List Edit → Except EditError (List FlowGraph)
  | [] => .ok []
  | edit :: rest => do
    let (e, g) ← edit.apply e g
    let later ← applyAll e g rest
    return g :: later

def inserted : Edit → List Instr
  | insertBefore _ _ new | insertAfter _ _ new => new
  | _ => []

/-- The instruction at which an edit happens. -/
def anchor? (g : FlowGraph) : Edit → Option Instr
  | insertBefore id index _ | insertAfter id index _ | remove id index | splitBefore id index
  | splitAfter id index => g.instr? id index

/-- Whether an edit puts debug information next to an instruction that needs a group. -/
def PredicatesDebug (g : FlowGraph) (edit : Edit) : Prop :=
  ∃ anchor, edit.anchor? g = some anchor ∧ anchor.needsGroup = true ∧
    ∃ i ∈ edit.inserted, i.isDebug = true

variable {e e' : Editor} {g g' : FlowGraph} {edit : Edit}

/-- Counting an edit does not change what it does to the graph. -/
private theorem exists_of_counted {α : Type} {x : Except EditError (FlowGraph × α)} {counted : Editor}
    (h : ((x.map fun done => (counted, done)).map fun done => (done.1, done.2.1)) = .ok (e', g')) :
    ∃ a, x = .ok (g', a) := by
  obtain ⟨done, hdone, heq⟩ := Outcome.map_eq_ok_iff.mp h
  obtain ⟨⟨_, a⟩, hx, rfl⟩ := Outcome.map_eq_ok_iff.mp hdone
  cases heq
  exact ⟨a, hx⟩

/-- An edit that succeeds leaves all groups consistent unless it predicates debug information. -/
theorem consistent_apply_iff (hg : g.Consistent)
    (hdebug : ∀ i ∈ edit.inserted, i.isDebug = true → i.isConditional = false)
    (hok : edit.apply e g = .ok (e', g')) : g'.Consistent ↔ ¬edit.PredicatesDebug g := by
  have hbare : Code.DebugBare edit.inserted := fun i hmem hi =>
    (Instr.bare_iff_of_isDebug hi).mpr (hdebug i hmem hi)
  have hnone (h : edit.inserted = []) : ¬edit.PredicatesDebug g := by
    intro hparts
    obtain ⟨_, _, _, i, hmem, _⟩ := hparts
    rw [h] at hmem
    cases hmem
  cases edit with
  | insertBefore id index new =>
    obtain ⟨_, hinsert⟩ := exists_of_counted hok
    exact FlowGraph.consistent_insertAround_iff hg hbare hinsert
  | insertAfter id index new =>
    obtain ⟨_, hinsert⟩ := exists_of_counted hok
    exact FlowGraph.consistent_insertAround_iff hg hbare hinsert
  | remove id index =>
    obtain ⟨_, hremove⟩ := exists_of_counted hok
    exact iff_of_true (FlowGraph.consistent_removeInstr hg hremove) (hnone rfl)
  | splitBefore id index =>
    obtain ⟨_, hsplit⟩ := exists_of_counted hok
    exact iff_of_true (FlowGraph.consistent_splitBlock hg hsplit) (hnone rfl)
  | splitAfter id index =>
    obtain ⟨_, hsplit⟩ := exists_of_counted hok
    exact iff_of_true (FlowGraph.consistent_splitBlock hg hsplit) (hnone rfl)

/-- All graphs of a run of edits have consistent groups exactly if no edit of the run predicates debug
information. In particular this holds of a single edit. -/
theorem consistent_applyAll_iff {edits : List Edit} {graphs : List FlowGraph} (hg : g.Consistent)
    (hdebug : ∀ edit ∈ edits, ∀ i ∈ edit.inserted, i.isDebug = true → i.isConditional = false)
    (hok : applyAll e g edits = .ok graphs) :
    (∀ g' ∈ graphs, g'.Consistent)
      ↔ ∀ step ∈ (g :: graphs).zip edits, ¬step.2.PredicatesDebug step.1 := by
  induction edits generalizing e g graphs with
  | nil => cases hok; simp
  | cons edit rest ih =>
    obtain ⟨⟨e', g'⟩, happly, hrest⟩ := Outcome.bind_eq_ok_iff.mp hok
    obtain ⟨later, hlater, hgraphs⟩ := Outcome.bind_eq_ok_iff.mp hrest
    cases hgraphs
    obtain ⟨hfirst, hothers⟩ := List.forall_mem_cons.mp hdebug
    have hstep := consistent_apply_iff hg hfirst happly
    rw [List.zip_cons_cons, List.forall_mem_cons, List.forall_mem_cons, hstep]
    apply and_congr_right
    intro hsafe
    exact ih (hstep.mpr hsafe) hothers hlater

/-- A block with one predicated move and the end of its function. -/
def predicatedMove : FlowGraph :=
  { blocks := ({} : Roster Block).insert
      (.ofCode [.it .eq 8, { opcode := .mov, operands := [.ofPhys .r0, .ofPhys .r1], pred := .eq },
        .ret])
    entry := 1 }

theorem consistent_predicatedMove : predicatedMove.Consistent := by
  unfold FlowGraph.Consistent
  decide

/-- The move gets a neighbour in its group, the block is split in the group, and the neighbour goes. -/
theorem consistent_applyAll_predicatedMove :
    ∃ graphs, applyAll {} predicatedMove
        [.insertBefore 1 1 [.nop], .splitAfter 1 1, .remove 1 1] = .ok graphs ∧
      ∀ g' ∈ graphs, g'.Consistent := by
  obtain ⟨graphs, hok⟩ := Outcome.exists_eq_ok_of_isSome
    (x := applyAll {} predicatedMove [.insertBefore 1 1 [.nop], .splitAfter 1 1, .remove 1 1])
    (by decide +kernel)
  refine ⟨graphs, hok, (consistent_applyAll_iff consistent_predicatedMove (by decide) hok).mpr ?_⟩
  intro hstart hstep hparts
  obtain ⟨g, edit⟩ := hstart
  obtain ⟨anchor, -, -, i, hmem, hdebug⟩ := hparts
  have hedit := (List.of_mem_zip hstep).2
  have hnone : ∀ edit ∈ [insertBefore 1 1 [.nop], .splitAfter 1 1, .remove 1 1],
      ∀ i ∈ edit.inserted, i.isDebug = false := by decide
  rw [hnone edit hedit i hmem] at hdebug
  cases hdebug

/-- Not every edit keeps groups consistent: debug information in front of the predicated move takes over its
predicate, and no `It` covers it. -/
theorem insertBefore_debug_not_consistent :
    ¬∀ (e : Editor) (g : FlowGraph) (edit : Edit) (e' : Editor) (g' : FlowGraph), g.Consistent →
      (∀ i ∈ edit.inserted, i.isDebug = true → i.isConditional = false) →
      edit.apply e g = .ok (e', g') → g'.Consistent := by
  intro hclaim
  have hbroken : ((apply {} predicatedMove (.insertBefore 1 1 [.debugMark])).toOption.any fun done =>
      done.2.blocks.elems.any fun b => !b.instrs.isConsistent) = true := by decide +kernel
  obtain ⟨⟨e', g'⟩, hok⟩ := Outcome.exists_eq_ok_of_isSome
    (x := apply {} predicatedMove (.insertBefore 1 1 [.debugMark])) (by decide +kernel)
  have hconsistent := hclaim _ _ _ _ _ consistent_predicatedMove (by decide) hok
  rw [hok] at hbroken
  obtain ⟨b, hb, hinconsistent⟩ := List.any_eq_true.mp hbroken
  rw [hconsistent b hb] at hinconsistent
  cases hinconsistent

end Edit
end ThumbHardening
