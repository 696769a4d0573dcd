/-!
# Value graphs

Values that use each other: each one lists its operands in order and, once each, the values that use it. A
value is known by its number in the graph.
-/

namespace ThumbHardening

/-- What a value stands for. -/
inductive ValueKind where
  /-- The address of a function. -/
  | function (id : Nat)
  /-- A global object, or a list kept by the program that has no object. -/
  | global (id : Option Nat) (name : String)
  | aliased (id : Nat)
  | phi
  | blockAddress
  /-- A constant expression; comparisons do not hand addresses on. -/
  | constantExpr (compare : Bool)
  | constant
  /-- Stores its first operand. -/
  | store
  | cast
  | select
  | compare
  /-- Calls its first operand with the others. -/
  | call
  | other (text : String)
  deriving DecidableEq, Repr

/-- A value with what it uses and what uses it. -/
structure ValueNode where
  kind : ValueKind
  operands : List Nat := []
  users : List Nat := []
  deriving DecidableEq, Repr

/-- Adds a user that is not among them. -/
def ValueNode.addUser (n : ValueNode) (user : Nat) : ValueNode :=
  if n.users.contains user then n else { n with users := n.users ++ [user] }

structure ValueGraph where
  nodes : Array ValueNode := #[]
  deriving DecidableEq, Repr

namespace ValueGraph

def size (g : ValueGraph) : Nat :=
  g.nodes.size

/-- The value with the given number. -/
def node? (g : ValueGraph) (value : Nat) : Option ValueNode :=
  g.nodes[value]?

def addOperand (g : ValueGraph) (user operand : Nat) : ValueGraph :=
  let nodes := g.nodes.modify user fun n => { n with operands := n.operands ++ [operand] }
  ⟨nodes.modify operand (·.addUser user)⟩

def addOperands (g : ValueGraph) (user : Nat) (operands : List Nat) : ValueGraph :=
  operands.foldl (fun g operand => g.addOperand user operand) g

/-- Adds a value, whose number is the size of the graph so far. -/
def add (g : ValueGraph) (kind : ValueKind) (operands : List Nat) : ValueGraph :=
  let value := g.size
  addOperands ⟨g.nodes.push { kind }⟩ value operands

def clearOperands (g : ValueGraph) (user : Nat) : ValueGraph :=
  let old := ((g.node? user).map ValueNode.operands).getD []
  let nodes := g.nodes.modify user fun n => { n with operands := [] }
  ⟨old.foldl
    (fun nodes operand =>
      nodes.modify operand fun n => { n with users := n.users.filter (· ≠ user) })
    nodes⟩

def setOperands (g : ValueGraph) (user : Nat) (operands : List Nat) : ValueGraph :=
  (g.clearOperands user).addOperands user operands

/-- Whether a value has been added under this number. -/
def has (g : ValueGraph) (value : Nat) : Bool :=
  value < g.size

/-- Adds a value whose operands exist. It may use itself. -/
def add? (g : ValueGraph) (kind : ValueKind) (operands : List Nat) : Option ValueGraph :=
  if operands.all (· ≤ g.size) then some (g.add kind operands) else none

/-- Adds an operand to a value, both of which have to exist. -/
def addOperand? (g : ValueGraph) (user operand : Nat) : Option ValueGraph :=
  if g.has user && g.has operand then some (g.addOperand user operand) else none

/-- Replaces the operands of a value, all of which have to exist. -/
def setOperands? (g : ValueGraph) (user : Nat) (operands : List Nat) : Option ValueGraph :=
  if g.has user && operands.all g.has then some (g.setOperands user operands) else none

end ValueGraph
end ThumbHardening
