import ThumbHardening.FlowGraph
import ThumbHardening.Proofs.Roster

/-!
# Blocks and instructions of a flow graph

The instruction at a position of a block, as one lookup in the graph, and what the lookups find if the blocks
have distinct IDs.
-/

namespace ThumbHardening
namespace FlowGraph

/-- The instruction at a position of a block. -/
def instr? (g : FlowGraph) (id index : Nat) : Option Instr :=
  (g.block? id).bind fun b => b.instrs[index]?

variable {g : FlowGraph} {id index : Nat}

theorem instr?_eq_some_iff {i : Instr} :
    g.instr? id index = some i ↔ ∃ b, g.block? id = some b ∧ b.instrs[index]? = some i :=
  Option.bind_eq_some_iff

/-- With distinct IDs, a block of the graph is the one with its ID. -/
theorem block?_id (hids : g.blocks.ids.Nodup) {b : Block} (hb : b ∈ g.blocks.elems) :
    g.block? b.id = some b :=
  Roster.get?_id hids hb

theorem updateBlock_updateBlock (g : FlowGraph) (id : Nat) (change change' : Block → Block)
    (hid : ∀ b, (change b).id = b.id) :
    (g.updateBlock id change).updateBlock id change' = g.updateBlock id (change' ∘ change) :=
  congrArg (fun blocks => { g with blocks }) (Roster.update_update hid)

theorem mem_of_layoutPredecessor? {b : Block} (h : g.layoutPredecessor? id = some b) :
    b ∈ g.blocks.elems := by
  rw [layoutPredecessor?] at h
  split at h
  · exact List.mem_of_getElem? h
  · cases h

theorem layoutPredecessor?_zero (hids : g.blocks.ids.Nodup) {b : Block}
    (hb : g.blocks.elems[0]? = some b) : g.layoutPredecessor? b.id = none := by
  have hposition : g.blocks.position? b.id = some 0 := Roster.position?_id hids hb
  rw [layoutPredecessor?, hposition]

theorem layoutPredecessor?_succ (hids : g.blocks.ids.Nodup) {b : Block} {k : Nat}
    (hb : g.blocks.elems[k + 1]? = some b) :
    g.layoutPredecessor? b.id = g.blocks.elems[k]? := by
  have hposition : g.blocks.position? b.id = some (k + 1) := Roster.position?_id hids hb
  rw [layoutPredecessor?, hposition]

end FlowGraph
end ThumbHardening
