import ThumbHardening.Address
import ThumbHardening.Fault
import ThumbHardening.Liveness

/-!
# Editing code

Inserting and removing instructions and splitting blocks, without breaking predicated groups. The group of
the instruction at which an edit happens is taken apart first, and the code is repaired afterwards, so the
instructions other than `It` change exactly as asked. The editor also tells which registers are free at a
point, and counts its edits.
-/

namespace ThumbHardening

/-- Why an edit is refused. -/
inductive EditError where
  | unknownBlock (id : Nat)
  | invalidPosition (block index : Nat)
  | removeIt (block index : Nat)
  | fault (cause : Fault)
  deriving DecidableEq, Repr

def EditError.label : EditError → String
  | .unknownBlock _ => "UnknownBasicBlock"
  | .invalidPosition _ _ => "InvalidPosition"
  | .removeIt _ _ => "RemoveIt"
  | .fault _ => "Fault"

def EditError.fault? : EditError → Option Fault
  | .fault cause => some cause
  | _ => none

def EditError.message : EditError → String
  | .unknownBlock id => s!"Unknown basic block: {id}"
  | .invalidPosition block index => s!"Basic block {block} has no instruction at position {index}"
  | .removeIt block index =>
    s!"Cannot remove the IT instruction at position {index} of basic block {block}"
  | .fault cause => cause.message

namespace Code

/-- How many instructions other than `It` stand before a position. -/
def rankOf (code : Code) (index : Nat) : Nat :=
  (code.take index).countP fun i => !i.isIt

/-- The position of the instruction with the given rank among those other than `It`, or the end. -/
def locate : Code → (rank : Nat) → Nat
  | [], _ => 0
  | i :: rest, rank =>
    if i.isIt then locate rest rank + 1
    else
      match rank with
      | 0 => 0
      | rank + 1 => locate rest rank + 1

/-- Takes apart the group of the instruction at a position, and tells where that instruction is then. -/
def ungroup (code : Code) (index : Nat) : Code × Nat :=
  match code.findGroup index with
  | some it => (code.eraseIdx it, index - 1)
  | none => (code, index)

/-- The condition that an instruction passes on to its new neighbours. -/
def neighbourPred (anchor : Instr) : Cond :=
  if anchor.needsGroup then anchor.pred else .al

/-- Puts an unpredicated instruction under a condition. -/
def adopt (pred : Cond) (i : Instr) : Instr :=
  if pred ≠ .al && !i.isConditional && !i.isIt then { i with pred } else i

/-- Inserts instructions directly before or behind the anchor, the instruction at a position. They execute
under its condition, unless they have their own. The second part of the result is where the anchor is
then. -/
def insertAround (code : Code) (anchor : Instr) (index : Nat) (behind : Bool) (new : List Instr) :
    Code × Nat :=
  let (code, index) := code.ungroup index
  let place := if behind then index + 1 else index
  let code := code.take place ++ (new.map (adopt (neighbourPred anchor)) ++ code.drop place)
  let rank := Code.rankOf code (if behind then index else index + new.length)
  let code := Code.repair code
  (code, Code.locate code rank)

/-- Removes the instruction at a position. -/
def removeAt (code : Code) (index : Nat) : Code :=
  let (code, index) := code.ungroup index
  Code.repair (code.eraseIdx index)

end Code

namespace FlowGraph

/-- Inserts instructions directly before or behind the one at a position of a block. -/
def insertAround (g : FlowGraph) (id index : Nat) (behind : Bool) (new : List Instr) :
    Except EditError (FlowGraph × Nat) :=
  match g.block? id with
  | none => .error (.unknownBlock id)
  | some b =>
    match b.instrs[index]? with
    | none => .error (.invalidPosition id index)
    | some anchor =>
      let (instrs, index) := b.instrs.insertAround anchor index behind new
      .ok (g.updateBlock id fun b => { b with instrs }, index)

/-- Removes the instruction at a position of a block. An `It` goes with the last instruction that it covers
and cannot be removed itself. -/
def removeInstr (g : FlowGraph) (id index : Nat) : Except EditError (FlowGraph × Instr) :=
  match g.block? id with
  | none => .error (.unknownBlock id)
  | some b =>
    match b.instrs[index]? with
    | none => .error (.invalidPosition id index)
    | some i =>
      if i.isIt then .error (.removeIt id index)
      else .ok (g.updateBlock id fun b => { b with instrs := b.instrs.removeAt index }, i)

/-- Splits a block in front of a position. The new block follows it in the layout, takes its edges, and is its
only successor. -/
def splitBlock (g : FlowGraph) (id index : Nat) : Except EditError (FlowGraph × Nat) :=
  match g.block? id with
  | none => .error (.unknownBlock id)
  | some b =>
    if b.instrs.length < index then .error (.invalidPosition id index)
    else
      let (front, back) := b.split index
      let new := g.blocks.next
      let front := { front with instrs := front.instrs.repair }.addEdge (.next new)
      match (g.updateBlock id fun _ => front).insertAfter? id
          { back with instrs := back.instrs.repair } with
      | none => .error (.unknownBlock id)
      | some g => .ok (g, new)

/-- The registers of the class that are not among the live ones, in encoding order. -/
def freeOf (live : RegSet) (compact : Bool) : List PhysReg :=
  let candidates : RegClass := if compact then .lowGpr else .gpr
  (candidates.registers.diff live).toList

/-- The registers that are not live at a position, which the error calls `reported`. With `compact` only those
that fit 16-bit instructions. -/
def freeRegistersAt (g : FlowGraph) (id index reported : Nat) (compact : Bool) :
    Except EditError (List PhysReg) :=
  if !g.hasUses then .error (.fault .missingOperand)
  else
    match g.liveness? with
    | none => .error (.fault .endlessLiveness)
    | some live =>
      match g.liveAt? live id index with
      | none => .error (.invalidPosition id reported)
      | some regs => .ok (freeOf regs compact)

/-- The registers that are not live right before an instruction. -/
def freeRegistersBefore (g : FlowGraph) (id index : Nat) (compact : Bool) :
    Except EditError (List PhysReg) :=
  g.freeRegistersAt id index index compact

/-- The registers that are not live right behind an instruction. -/
def freeRegistersAfter (g : FlowGraph) (id index : Nat) (compact : Bool) :
    Except EditError (List PhysReg) :=
  g.freeRegistersAt id (Address.wrap (index + 1)) index compact

end FlowGraph

/-- How many edits have been made. -/
structure Editor where
  inserted : Nat := 0
  removed : Nat := 0
  splits : Nat := 0
  deriving DecidableEq, Repr

namespace Editor

/-- Inserts instructions directly before an instruction, and tells where that one is then. -/
def insertBefore (e : Editor) (g : FlowGraph) (id index : Nat) (new : List Instr) :
    Except EditError (Editor × FlowGraph × Nat) :=
  (g.insertAround id index false new).map fun done =>
    ({ e with inserted := e.inserted + new.length }, done)

/-- Inserts instructions directly behind an instruction, and tells where that one is then. -/
def insertAfter (e : Editor) (g : FlowGraph) (id index : Nat) (new : List Instr) :
    Except EditError (Editor × FlowGraph × Nat) :=
  (g.insertAround id index true new).map fun done =>
    ({ e with inserted := e.inserted + new.length }, done)

def remove (e : Editor) (g : FlowGraph) (id index : Nat) :
    Except EditError (Editor × FlowGraph × Instr) :=
  (g.removeInstr id index).map fun done => ({ e with removed := e.removed + 1 }, done)

/-- Splits a block in front of an instruction, and returns the ID of the new block. -/
def splitBefore (e : Editor) (g : FlowGraph) (id index : Nat) :
    Except EditError (Editor × FlowGraph × Nat) :=
  (g.splitBlock id index).map fun done => ({ e with splits := e.splits + 1 }, done)

/-- Splits a block behind an instruction, and returns the ID of the new block. -/
def splitAfter (e : Editor) (g : FlowGraph) (id index : Nat) :
    Except EditError (Editor × FlowGraph × Nat) :=
  e.splitBefore g id (Address.wrap (index + 1))

end Editor
end ThumbHardening
