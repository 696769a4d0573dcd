import ThumbHardening.DataObject
import ThumbHardening.FlowGraph

/-!
# Functions

A function is its body, its stack frame, its virtual registers, and what the calling convention and the
linker have to know about it. A function without a body is a declaration.
-/

namespace ThumbHardening

structure Registers where
  /-- The class of each virtual register, by number. -/
  classes : List RegClass := []
  /-- Whether physical registers have been assigned, so that no virtual one may appear. -/
  allocated : Bool := false
  deriving DecidableEq, Repr

namespace Registers

/-- The number of the next virtual register. -/
def fresh (r : Registers) : Nat :=
  r.classes.length

/-- Adds a virtual register, which gets the number `fresh`. -/
def create (r : Registers) (c : RegClass) : Registers :=
  { r with classes := r.classes ++ [c] }

def class? (r : Registers) (number : Nat) : Option RegClass :=
  r.classes[number]?

/-- The class that a virtual register has once it is limited to another class as well. -/
def limit? (r : Registers) (number : Nat) (c : RegClass) : Option RegClass :=
  (r.class? number).bind fun current => current.common? c

/-- Limits a virtual register to another class, if the classes agree with each other. -/
def constrain (r : Registers) (number : Nat) (c : RegClass) : Registers :=
  match r.limit? number c with
  | some common => { r with classes := r.classes.set number common }
  | none => r

end Registers

structure Function where
  id : Nat := 0
  name : String
  body : Option FlowGraph := none
  /-- Whether the address is used elsewhere than in direct calls. -/
  addressTaken : Bool := false
  /-- The callee-saved registers that the prologue spills, once they are known. -/
  calleeSaved : Option (List PhysReg) := none
  frame : Frame := {}
  registers : Registers := {}
  /-- Whether the function has no prologue and no epilogue. -/
  naked : Bool := false
  linkage : Linkage := .external
  deriving Repr

instance : Identified Function where
  id := Function.id
  setId f id := { f with id }

/-- What is known about a function that is still to be built. -/
structure FunctionDraft where
  name : Option String := none
  body : Option FlowGraph := none
  addressTaken : Bool := false
  calleeSaved : Option (List PhysReg) := none
  frame : Frame := {}
  naked : Bool := false
  linkage : Linkage := .external
  allocated : Bool := false

/-- Builds the function if it has a name and its body, if any, has blocks. -/
def FunctionDraft.build (d : FunctionDraft) : Except BuildError Function :=
  match d.name with
  | none => .error .unnamedFunction
  | some name =>
    if d.body.any fun g => g.blocks.elems.isEmpty then .error .emptyBody
    else
      .ok {
        name, body := d.body, addressTaken := d.addressTaken, calleeSaved := d.calleeSaved
        frame := d.frame, registers := { allocated := d.allocated }, naked := d.naked
        linkage := d.linkage }

namespace Function

/-- The encoded size of the body in bytes. -/
def size (f : Function) : Nat :=
  (f.body.map FlowGraph.size).getD 0

/-- Whether the prologue is known to spill the link register. -/
def savesLink (f : Function) : Bool :=
  f.calleeSaved.any (·.contains .link)

/-- The blocks of the body in layout order. -/
def blocks (f : Function) : List Block :=
  (f.body.map fun g => g.blocks.elems).getD []

def updateBody (f : Function) (change : FlowGraph → FlowGraph) : Function :=
  { f with body := f.body.map change }

end Function
end ThumbHardening
