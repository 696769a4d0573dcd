import ThumbHardening.Editor

/-!
# Editing in place

The edits as they are carried out: on one graph that changes step by step, with the counts of the edits beside it.
An edit that is refused leaves behind whatever it has done until then.
-/

namespace ThumbHardening

namespace Code

/-- Inserts instructions one after the other, the first one at `place`. They execute under the condition, unless
they have their own. -/
def insertEach (pred : Cond) : (place : Nat) → List Instr → Code → Code
  | _, [], code => code
  | place, i :: rest, code => insertEach pred (place + 1) rest (code.insertIdx place (adopt pred i))

end Code

/-- A graph that is being edited, and how many edits have been made. -/
structure Workbench where
  graph : FlowGraph
  editor : Editor := {}
  deriving Repr

namespace Workbench

/-- Replaces the instructions of a block. -/
def putCode (w : Workbench) (id : Nat) (instrs : Code) : Workbench :=
  { w with graph := w.graph.updateBlock id fun b => { b with instrs } }

/-- Inserts instructions directly before or behind the one at a position of a block, and tells where that one is
then. -/
def insertAround (w : Workbench) (id index : Nat) (behind : Bool) (new : List Instr) :
    Workbench × Except EditError Nat :=
  match w.graph.block? id with
  | none => (w, .error (.unknownBlock id))
  | some b =>
    match b.instrs[index]? with
    | none => (w, .error (.invalidPosition id index))
    | some anchor =>
      let (code, index) := b.instrs.ungroup index
      let place := if behind then index + 1 else index
      let code := Code.insertEach (Code.neighbourPred anchor) place new code
      let rank := Code.rankOf code (if behind then index else index + new.length)
      let code := (Code.repairInPlace code).1
      let w := w.putCode id code
      ({ w with editor := { w.editor with inserted := w.editor.inserted + new.length } },
        .ok (Code.locate code rank))

def insertBefore (w : Workbench) (id index : Nat) (new : List Instr) : Workbench × Except EditError Nat :=
  w.insertAround id index false new

def insertAfter (w : Workbench) (id index : Nat) (new : List Instr) : Workbench × Except EditError Nat :=
  w.insertAround id index true new

/-- Removes the instruction at a position of a block, and returns it. The group is taken apart first, and the
instruction is looked up again where it is then. -/
def remove (w : Workbench) (id index : Nat) : Workbench × Except EditError Instr :=
  match w.graph.block? id with
  | none => (w, .error (.unknownBlock id))
  | some b =>
    match b.instrs[index]? with
    | none => (w, .error (.invalidPosition id index))
    | some i =>
      if i.isIt then (w, .error (.removeIt id index))
      else
        let (code, index) := b.instrs.ungroup index
        match code[index]? with
        | none => (w.putCode id code, .error (.invalidPosition id index))
        | some removed =>
          let w := w.putCode id (Code.repairInPlace (code.eraseIdx index)).1
          ({ w with editor := { w.editor with removed := w.editor.removed + 1 } }, .ok removed)

/-- Splits a block in front of a position, and returns the ID of the new block. The block is cut and loses its
edges before the new one joins the layout, and gets its only edge after that. -/
def splitBefore (w : Workbench) (id index : Nat) : Workbench × Except EditError Nat :=
  match w.graph.block? id with
  | none => (w, .error (.unknownBlock id))
  | some b =>
    if b.instrs.length < index then (w, .error (.invalidPosition id index))
    else
      let (front, back) := b.split index
      let front := { front with instrs := (Code.repairInPlace front.instrs).1 }
      let back := { back with instrs := (Code.repairInPlace back.instrs).1 }
      let w := { w with graph := w.graph.updateBlock id fun _ => front }
      let new := w.graph.blocks.idFor back
      match w.graph.insertAfter? id back with
      | none => (w, .error (.unknownBlock id))
      | some graph =>
        match graph.block? id with
        | none => ({ w with graph }, .error (.unknownBlock id))
        | some _ =>
          ({ graph := graph.updateBlock id fun b => b.addEdge (.next new)
             editor := { w.editor with splits := w.editor.splits + 1 } }, .ok new)

def splitAfter (w : Workbench) (id index : Nat) : Workbench × Except EditError Nat :=
  w.splitBefore id (Address.wrap (index + 1))

end Workbench
end ThumbHardening
