import ThumbHardening.Proofs.Predication.InPlace
import ThumbHardening.Proofs.Predication.Insertion
import ThumbHardening.Proofs.Roster.Found
import ThumbHardening.Workbench

/-!
# Edits in place

An edit in place changes its graph step by step and may be refused on the way. It comes to the same as computing
the edited graph first and taking it only if the edit succeeds: once the block and the position are found,
nothing is refused any more. So a refused edit leaves the graph and the counts as they were.
-/

namespace ThumbHardening
namespace Code

variable {code front back : Code} {index place : Nat} {i : Instr}

/-- Inserting one after the other puts all new instructions in at once. -/
theorem insertEach_append (pred : Cond) (front : Code) (new : List Instr) (back : Code) :
    insertEach pred front.length new (front ++ back) = front ++ (new.map (adopt pred) ++ back) := by
  induction new generalizing front with
  | nil => rfl
  | cons i rest ih =>
    have hrest := ih (front ++ [adopt pred i])
    rw [List.length_append, List.length_singleton, ← List.append_cons, ← List.append_cons] at hrest
    rw [insertEach, Roster.insertIdx_append, hrest, List.map_cons, List.cons_append]

theorem insertEach_eq (pred : Cond) (new : List Instr) (h : place ≤ code.length) :
    insertEach pred place new code = code.take place ++ (new.map (adopt pred) ++ code.drop place) := by
  have hinsert := insertEach_append pred (code.take place) new (code.drop place)
  rwa [List.length_take_of_le h, List.take_append_drop] at hinsert

theorem At.lt_length (h : At code index front i back) : index < code.length :=
  (List.getElem?_eq_some_iff.mp h.get).1

end Code

namespace Workbench

variable {α : Type} {w : Workbench} {id index : Nat}

/-- The workbench after an edit whose result is known, and the answer. -/
def settle (w : Workbench) : Except EditError (Editor × FlowGraph × α) → Workbench × Except EditError α
  | .error e => (w, .error e)
  | .ok (editor, graph, a) => ({ graph, editor }, .ok a)

theorem fst_settle_of_error {x : Except EditError (Editor × FlowGraph × α)} {e : EditError}
    (h : (w.settle x).2 = .error e) : (w.settle x).1 = w := by
  cases x with
  | error => rfl
  | ok => cases h

/-! ### Inserting and removing -/

theorem insertAround_eq (w : Workbench) (id index : Nat) (behind : Bool) (new : List Instr) :
    w.insertAround id index behind new
      = w.settle ((w.graph.insertAround id index behind new).map fun done =>
          ({ w.editor with inserted := w.editor.inserted + new.length }, done)) := by
  rw [insertAround, FlowGraph.insertAround]
  cases w.graph.block? id with
  | none => rfl
  | some b =>
    simp only
    cases hanchor : b.instrs[index]? with
    | none => rfl
    | some anchor =>
      obtain ⟨front, back, hat⟩ := Code.exists_at hanchor
      have hlt := hat.ungroup.lt_length
      simp only
      rw [Code.insertEach_eq _ _ (by split <;> omega)]
      simp only [Code.repairInPlace_fst]
      rfl

theorem insertBefore_eq (w : Workbench) (id index : Nat) (new : List Instr) :
    w.insertBefore id index new = w.settle (w.editor.insertBefore w.graph id index new) :=
  w.insertAround_eq id index false new

theorem insertAfter_eq (w : Workbench) (id index : Nat) (new : List Instr) :
    w.insertAfter id index new = w.settle (w.editor.insertAfter w.graph id index new) :=
  w.insertAround_eq id index true new

/-- Once its group is taken apart, the instruction to remove is found again. -/
theorem remove_eq (w : Workbench) (id index : Nat) :
    w.remove id index = w.settle (w.editor.remove w.graph id index) := by
  rw [remove, Editor.remove, FlowGraph.removeInstr]
  cases hb : w.graph.block? id with
  | none => rfl
  | some b =>
    simp only
    cases hinstr : b.instrs[index]? with
    | none => rfl
    | some i =>
      simp only
      split
      · rfl
      · obtain ⟨front, back, hat⟩ := Code.exists_at hinstr
        have hblocks : (w.graph.updateBlock id fun b => { b with instrs := b.instrs.removeAt index })
            = w.graph.updateBlock id fun other => { other with instrs := b.instrs.removeAt index } := by
          refine congrArg (fun blocks => { w.graph with blocks }) (Roster.update_congr fun other hother => ?_)
          rw [Option.some.inj (hother.symm.trans hb)]
        rw [hat.ungroup.get, hblocks]
        simp only [Code.repairInPlace_fst]
        rfl

end Workbench

/-! ### Splitting -/

namespace Block

variable {b : Block} {index new : Nat}

/-- The front part of a block that is split, as long as no edge leads out of it. -/
def alone (b : Block) (index : Nat) : Block :=
  let front := b.instrs.take index
  { b with instrs := Code.repair front, cursor := min b.cursor front.length, edges := [] }

/-- The front part of a block that is split, with its edge to the new block. -/
def head (b : Block) (index new : Nat) : Block :=
  { b.alone index with edges := [.next new] }

/-- The new block, which takes the rest of the instructions and the edges. -/
def tail (b : Block) (index new : Nat) : Block :=
  { id := new, instrs := Code.repair (b.instrs.drop index), edges := b.edges }

theorem repair_split_fst :
    ({ (b.split index).1 with instrs := Code.repair (b.split index).1.instrs } : Block) = b.alone index := rfl

theorem repair_split_snd :
    ({ (b.split index).2 with instrs := Code.repair (b.split index).2.instrs } : Block) = b.tail index 0 := rfl

theorem addEdge_alone : (b.alone index).addEdge (.next new) = b.head index new := rfl

end Block

namespace FlowGraph

variable {g : FlowGraph} {id index : Nat} {front back : List Block} {b : Block}

/-- The graph in which a block between others is cut in two. -/
def cut (g : FlowGraph) (front : List Block) (b : Block) (back : List Block) (index : Nat) : FlowGraph :=
  let new := g.blocks.next
  { g with blocks := { elems := front ++ b.head index new :: b.tail index new :: back, next := new + 1 } }

/-- The new block joins directly behind whatever the old one has become. -/
theorem insertAfter?_tail (hfound : g.blocks.FoundBetween id front b back) {c : Block} (hid : c.id = id)
    (index : Nat) :
    (g.updateBlock id fun _ => c).insertAfter? id (b.tail index 0)
      = some { g with blocks :=
          { elems := front ++ c :: b.tail index g.blocks.next :: back, next := g.blocks.next + 1 } } := by
  rw [insertAfter?]
  simp only [updateBlock, (hfound.update (fun _ => c) hid).insertAfter?_eq, Option.map_some]
  simp only [Roster.admitted, Roster.nextAfter, Roster.next_update]
  rfl

theorem insertAfter?_head (hfound : g.blocks.FoundBetween id front b back) (index : Nat) :
    (g.updateBlock id fun _ => b.head index g.blocks.next).insertAfter? id (b.tail index 0)
      = some (g.cut front b back index) :=
  insertAfter?_tail hfound (show (b.head index g.blocks.next).id = id from hfound.id_eq) index

theorem splitBlock_eq (hfound : g.blocks.FoundBetween id front b back) (hindex : index ≤ b.instrs.length) :
    g.splitBlock id index = .ok (g.cut front b back index, g.blocks.next) := by
  have hb : g.block? id = some b := hfound.get?_eq
  rw [splitBlock, hb]
  simp only [if_neg (Nat.not_lt.mpr hindex), Block.repair_split_fst, Block.repair_split_snd, Block.addEdge_alone,
    insertAfter?_head hfound]

end FlowGraph

namespace Workbench

variable {w : Workbench} {id index : Nat} {front back : List Block} {b : Block}

/-- The block that is split is still there when it gets its edge to the new one. -/
theorem splitBefore_eq_cut (hfound : w.graph.blocks.FoundBetween id front b back)
    (hindex : index ≤ b.instrs.length) :
    w.splitBefore id index
      = ({ graph := w.graph.cut front b back index
           editor := { w.editor with splits := w.editor.splits + 1 } }, .ok w.graph.blocks.next) := by
  have hb : w.graph.block? id = some b := hfound.get?_eq
  let new := w.graph.blocks.next
  let joined : FlowGraph := { w.graph with blocks :=
    { elems := front ++ b.alone index :: b.tail index new :: back, next := new + 1 } }
  have hinsert : (w.graph.updateBlock id fun _ => b.alone index).insertAfter? id (b.tail index 0) = some joined :=
    FlowGraph.insertAfter?_tail hfound (show (b.alone index).id = id from hfound.id_eq) index
  have hidFor : (w.graph.updateBlock id fun _ => b.alone index).blocks.idFor (b.tail index 0) = new :=
    (Roster.idFor_of_id_eq_zero rfl).trans (Roster.next_update ..)
  have hjoined : joined.blocks.FoundBetween id front (b.alone index) (b.tail index new :: back) :=
    ⟨rfl, hfound.id_eq, hfound.front_ne⟩
  have hthere : joined.block? id = some (b.alone index) := hjoined.get?_eq
  have hedge : joined.updateBlock id (fun b => b.addEdge (.next new)) = w.graph.cut front b back index := by
    rw [FlowGraph.updateBlock, hjoined.update_eq]
    rfl
  rw [splitBefore, hb]
  simp only [if_neg (Nat.not_lt.mpr hindex), Code.repairInPlace_fst, Block.repair_split_fst, Block.repair_split_snd,
    hinsert, hthere, hidFor, hedge]
  rfl

theorem splitBefore_eq (w : Workbench) (id index : Nat) :
    w.splitBefore id index = w.settle (w.editor.splitBefore w.graph id index) := by
  cases hb : w.graph.block? id with
  | none => simp [splitBefore, Editor.splitBefore, FlowGraph.splitBlock, hb, settle, Except.map]
  | some b =>
    rcases Nat.lt_or_ge b.instrs.length index with hlt | hle
    · simp [splitBefore, Editor.splitBefore, FlowGraph.splitBlock, hb, hlt, settle, Except.map]
    · obtain ⟨front, back, hfound⟩ := Roster.exists_foundBetween hb
      rw [splitBefore_eq_cut hfound hle, Editor.splitBefore, FlowGraph.splitBlock_eq hfound hle]
      rfl

theorem splitAfter_eq (w : Workbench) (id index : Nat) :
    w.splitAfter id index = w.settle (w.editor.splitAfter w.graph id index) :=
  w.splitBefore_eq id _

end Workbench
end ThumbHardening
