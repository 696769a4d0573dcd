import ThumbHardening.FlowGraph
import ThumbHardening.Instruction.Effect

/-!
# Register liveness

A register is live at a point of a flow graph when its value there may still be read. The sets at the block
starts are the result of rounds that go through the blocks from the last to the first and end with a
round that changes nothing. Everything else is one backward pass over the rest of a block.
-/

namespace ThumbHardening

/-- The registers live before an instruction when `after` are live behind it. A predicated instruction may be
skipped, so what it writes stays live. -/
def Instr.liveBefore (i : Instr) (after : RegSet) : RegSet :=
  if i.isConditional then after.union i.physUses
  else (after.diff i.physDefs).union i.physUses

/-- The registers live before a list of instructions. -/
def Code.liveBefore (code : Code) (after : RegSet) : RegSet :=
  code.foldr Instr.liveBefore after

/-- The registers live at the start of the blocks looked at so far, by block ID. -/
abbrev LiveMap := List (Nat × RegSet)

namespace LiveMap

/-- The registers live at the start of a block; none, if it has not been looked at. -/
def get (live : LiveMap) (id : Nat) : RegSet :=
  (live.lookup id).getD .empty

def put (live : LiveMap) (id : Nat) (regs : RegSet) : LiveMap :=
  (id, regs) :: live.filter fun entry => entry.1 ≠ id

end LiveMap

/-- The registers live at the end of a block. -/
def Block.liveOut (b : Block) (live : LiveMap) : RegSet :=
  b.edges.foldl (fun regs edge => regs.union (live.get edge.target)) .empty

/-- The registers live at the start of a block. -/
def Block.liveIn (b : Block) (live : LiveMap) : RegSet :=
  b.instrs.liveBefore (b.liveOut live)

namespace FlowGraph

/-- Looks at one block, and tells whether that changed anything so far. -/
def liveStep (b : Block) (state : LiveMap × Bool) : LiveMap × Bool :=
  let regs := b.liveIn state.1
  if state.1.lookup b.id = some regs then state else (state.1.put b.id regs, true)

/-- One round through all blocks, the last one first. -/
def liveRound (g : FlowGraph) (live : LiveMap) : LiveMap × Bool :=
  g.blocks.elems.foldr liveStep (live, false)

/-- Repeats the round until it changes nothing. -/
def liveSettle (g : FlowGraph) : (limit : Nat) → LiveMap → Option LiveMap
  | 0, _ => none
  | limit + 1, live =>
    match g.liveRound live with
    | (live, false) => some live
    | (live, true) => g.liveSettle limit live

/-- More rounds than can end with a larger set than they began with, each block starting without an entry and
then gaining registers. -/
def liveLimit (g : FlowGraph) : Nat :=
  18 * g.blocks.size + 2

/-- The registers live at the block starts. There are none only if the rounds never end, for which two blocks
have to share an ID. -/
def liveness? (g : FlowGraph) : Option LiveMap :=
  g.liveSettle g.liveLimit []

/-- The registers live before position `index` of a block, or at its end. -/
def liveAt? (g : FlowGraph) (live : LiveMap) (id index : Nat) : Option RegSet :=
  (g.block? id).bind fun b =>
    if index ≤ b.instrs.length then
      some (Code.liveBefore (b.instrs.drop index) (b.liveOut live))
    else none

/-- Whether every instruction of the graph has a defined set of registers that it reads. -/
def hasUses (g : FlowGraph) : Bool :=
  g.blocks.elems.all fun b => b.instrs.all Instr.hasUses

end FlowGraph
end ThumbHardening
