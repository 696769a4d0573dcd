import ThumbHardening.Predication
import ThumbHardening.Roster

/-!
# Basic blocks

A block is a list of instructions with a cursor, at which new ones are inserted, and its outgoing edges. A
trap block consists of instructions that are never executed; its first one is a trap whose operand can hold
an address.
-/

namespace ThumbHardening

/-- An edge of the control flow. -/
inductive Edge where
  /-- To the block that follows in the layout. -/
  | next (target : Nat)
  /-- To a block that a branch names. -/
  | jump (target : Nat)
  deriving DecidableEq, Repr

def Edge.target : Edge → Nat
  | .next target | .jump target => target

def Edge.isNext : Edge → Bool
  | .next _ => true
  | .jump _ => false

structure Block where
  id : Nat := 0
  instrs : Code := []
  cursor : Nat := 0
  edges : List Edge := []
  trap : Bool := false
  deriving DecidableEq, Repr

instance : Identified Block where
  id := Block.id
  setId b id := { b with id }

/-- What is wrong with a block or a control flow graph. -/
inductive FlowError where
  | invalidEntry (id : Nat)
  | blockWithoutId
  | emptyGraph
  | invalidTarget (block target : Nat)
  | severalNext (block : Nat)
  | invalidTrapBlock (block : Nat)
  deriving DecidableEq, Repr

def FlowError.label : FlowError → String
  | .invalidEntry _ => "InvalidEntry"
  | .blockWithoutId => "NoId"
  | .emptyGraph => "CfgEmpty"
  | .invalidTarget _ _ => "InvalidTarget"
  | .severalNext _ => "MultipleNextBasicBlocks"
  | .invalidTrapBlock _ => "InvalidTrapBlock"

def FlowError.message : FlowError → String
  | .invalidEntry id => s!"Invalid entry: {id}"
  | .blockWithoutId => "Basic block has no id"
  | .emptyGraph => "CFG is empty"
  | .invalidTarget block target => s!"Basic block {block} has invalid edge target: {target}"
  | .severalNext block => s!"Multiple next basic blocks found in basic block {block}"
  | .invalidTrapBlock block => s!"Trap block {block} does not start with a trap instruction"

namespace Block

/-- A trap block whose operand has not been used yet. -/
def trapBlock : Block :=
  { instrs := [.trap 0], cursor := 1, trap := true }

/-- Adds an edge unless the block has it. -/
def addEdge (b : Block) (edge : Edge) : Block :=
  if b.edges.contains edge then b else { b with edges := b.edges ++ [edge] }

/-- The first edge to `target`. -/
def edgeTo? (b : Block) (target : Nat) : Option Edge :=
  b.edges.find? fun edge => edge.target = target

/-- Removes the first edge to `target`. -/
def deleteEdge (b : Block) (target : Nat) : Block :=
  { b with edges := b.edges.eraseP fun edge => edge.target = target }

/-- The target of the first `next` edge. -/
def next? (b : Block) : Option Nat :=
  (b.edges.find? Edge.isNext).map Edge.target

/-- The target of the first `jump` edge. -/
def jump? (b : Block) : Option Nat :=
  (b.edges.find? fun edge => !edge.isNext).map Edge.target

/-- The last instruction that produces code, with its position. -/
def lastNonDebug? (b : Block) : Option (Nat × Instr) :=
  (b.instrs.zipIdx.reverse.find? fun entry => !entry.1.isDebug).map fun entry => (entry.2, entry.1)

/-- The encoded size in bytes. -/
def size (b : Block) : Nat :=
  b.instrs.foldr (fun i n => i.size + n) 0

/-- Moves the cursor to a position up to the end. -/
def setCursor? (b : Block) (index : Nat) : Option Block :=
  if index ≤ b.instrs.length then some { b with cursor := index } else none

/-- Moves the cursor behind the last instruction. -/
def moveCursorToEnd (b : Block) : Block :=
  { b with cursor := b.instrs.length }

def cursorInstr? (b : Block) : Option Instr :=
  b.instrs[b.cursor]?

/-- Takes out the instruction at the cursor, if there is one. -/
def delete? (b : Block) : Option (Instr × Block) :=
  (b.cursorInstr?).map fun i =>
    let instrs := b.instrs.eraseIdx b.cursor
    (i, { b with instrs, cursor := min b.cursor instrs.length })

/-- Inserts an instruction at the cursor, which moves behind it. The cursor has to be in range. -/
def insert? (b : Block) (i : Instr) : Option Block :=
  if b.cursor ≤ b.instrs.length then
    some { b with instrs := b.instrs.insertIdx b.cursor i, cursor := b.cursor + 1 }
  else none

/-- Inserts instructions one after the other. -/
def insertAll? (b : Block) : List Instr → Option Block
  | [] => some b
  | i :: rest => (b.insert? i).bind fun b => insertAll? b rest

/-- A block of the given instructions, with the cursor behind them. -/
def ofCode (instrs : Code) : Block :=
  { instrs, cursor := instrs.length }

/-- Splits a block in two. The second part takes all edges along and has no ID yet. -/
def split (b : Block) (index : Nat) : Block × Block :=
  let front := b.instrs.take index
  ({ b with instrs := front, cursor := min b.cursor front.length, edges := [] },
    { instrs := b.instrs.drop index, edges := b.edges })

/-- Checks that the block has an ID, at most one `next` edge, and starts with a trap if it is a trap block. -/
def verify (b : Block) : Except FlowError Unit :=
  if b.id = 0 then .error .blockWithoutId
  else if 1 < b.edges.countP Edge.isNext then .error (.severalNext b.id)
  else if b.trap && (b.instrs.head?.map Instr.opcode) ≠ some .trap then
    .error (.invalidTrapBlock b.id)
  else .ok ()

end Block
end ThumbHardening
