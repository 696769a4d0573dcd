import ThumbHardening.Block

/-!
# Control flow graphs

The blocks of a function in layout order, and the block at which execution enters.
-/

namespace ThumbHardening

/-- The control flow graph of a function. -/
structure FlowGraph where
  blocks : Roster Block := {}
  entry : Nat := 0
  deriving Repr

namespace FlowGraph

/-- The first block with the given ID. -/
def block? (g : FlowGraph) (id : Nat) : Option Block :=
  g.blocks.get? id

/-- Appends a block to the layout. -/
def addBlock (g : FlowGraph) (b : Block) : FlowGraph :=
  { g with blocks := g.blocks.insert b }

/-- Puts a block directly behind the block `after`. -/
def insertAfter? (g : FlowGraph) (after : Nat) (b : Block) : Option FlowGraph :=
  (g.blocks.insertAfter? after b).map fun blocks => { g with blocks }

/-- Changes the first block with the given ID. -/
def updateBlock (g : FlowGraph) (id : Nat) (change : Block → Block) : FlowGraph :=
  { g with blocks := g.blocks.update id change }

/-- The block in front of the first block with the given ID. -/
def layoutPredecessor? (g : FlowGraph) (id : Nat) : Option Block :=
  match g.blocks.position? id with
  | some (index + 1) => g.blocks.elems[index]?
  | _ => none

/-- The encoded size of all blocks in bytes. -/
def size (g : FlowGraph) : Nat :=
  g.blocks.elems.foldr (fun b n => b.size + n) 0

def verifyEdges (g : FlowGraph) (b : Block) : Except FlowError Unit :=
  b.edges.forM fun edge =>
    if g.blocks.contains edge.target then .ok () else .error (.invalidTarget b.id edge.target)

/-- Checks that the entry and all edges lead to blocks of the graph and that every block is sound. -/
def verify (g : FlowGraph) : Except FlowError Unit := do
  if g.entry = 0 then
    throw (.invalidEntry g.entry)
  if g.blocks.elems.isEmpty then
    throw .emptyGraph
  if !g.blocks.contains g.entry then
    throw (.invalidEntry g.entry)
  g.blocks.elems.forM Block.verify
  g.blocks.elems.forM g.verifyEdges

end FlowGraph
end ThumbHardening
