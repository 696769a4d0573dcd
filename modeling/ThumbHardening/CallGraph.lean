import ThumbHardening.Program

/-!
# Call graphs

The direct calls and tail calls between the functions of a program, with aliases resolved, and the strongly
connected components of that graph: the largest sets of functions that all reach each other. They come out
callees first, by one depth-first search that keeps the functions of unfinished components on a stack.
-/

namespace ThumbHardening

def Instr.directCallee? (i : Instr) : Option Symbol :=
  match i.opcode, i.operands with
  | .call, .symbol symbol _ _ :: _ | .tailCall, .symbol symbol _ _ :: _ => some symbol
  | _, _ => none

/-- All instructions of a function in layout order. -/
def Function.instrs (f : Function) : List Instr :=
  f.blocks.flatMap Block.instrs

/-- The direct calls of a program. -/
structure CallGraph where
  /-- The functions, in the order of the program. -/
  nodes : List Nat := []
  /-- The callees of the functions that have a body, each callee once. -/
  callees : List (Nat × List Nat) := []
  deriving DecidableEq, Repr

/-- A strongly connected component. -/
structure Component where
  functions : List Nat
  /-- Whether its functions can call themselves. -/
  cyclic : Bool
  deriving DecidableEq, Repr

/-- Appends what is not in the list yet. -/
def appendNew (list : List Nat) (n : Nat) : List Nat :=
  if list.contains n then list else list ++ [n]

def Program.calleesOf (p : Program) (f : Function) : Except ProgramError (List Nat) :=
  (f.instrs.filterMap Instr.directCallee?).foldlM
    (fun found symbol => (p.resolveFunction symbol).map (appendNew found)) []

namespace CallGraph

def extend (p : Program) (g : CallGraph) (f : Function) : Except ProgramError CallGraph :=
  if f.body.isNone then .ok { g with nodes := g.nodes ++ [f.id] }
  else
    (p.calleesOf f).map fun found =>
      { nodes := g.nodes ++ [f.id], callees := (f.id, found) :: g.callees }

/-- The direct calls between the functions of a program. -/
def build (p : Program) : Except ProgramError CallGraph :=
  p.functions.elems.foldlM (extend p) {}

/-- The functions that the function with this ID calls. -/
def calleesOf (g : CallGraph) (id : Nat) : List Nat :=
  (g.callees.lookup id).getD []

/-- How far the search has come. -/
structure Search where
  /-- The functions found so far with their order of discovery. -/
  found : List (Nat × Nat) := []
  /-- The functions whose component is not complete, the latest one first. -/
  stack : List Nat := []
  /-- The components found so far. -/
  components : List (List Nat) := []

namespace Search

/-- Notes a new function. -/
def enter (s : Search) (node : Nat) : Search :=
  { s with found := (node, s.found.length) :: s.found, stack := node :: s.stack }

/-- Completes the component that ends with `node` on the stack. -/
def complete (s : Search) (node : Nat) : Search :=
  let above := s.stack.takeWhile (· ≠ node)
  { s with
    stack := s.stack.drop (above.length + 1)
    components := s.components ++ [above ++ [node]] }

end Search

/-- Goes through the callees of a function. `low` is the earliest function on the stack that is known to be
reached. -/
def visitCallees (visit : Nat → Search → Search × Nat) : List Nat → Search × Nat → Search × Nat
  | [], state => state
  | callee :: rest, (s, low) =>
    match s.found.lookup callee with
    | none =>
      let (s, reached) := visit callee s
      visitCallees visit rest (s, min low reached)
    | some index =>
      visitCallees visit rest (s, if s.stack.contains callee then min low index else low)

/-- Visits a new function and all that it reaches, and returns the earliest function on the stack that it
reaches. No chain of visits is longer than `limit`, the number of functions not found before. -/
def visit (g : CallGraph) : (limit : Nat) → (node : Nat) → Search → Search × Nat
  | 0, _, s => (s, 0)
  | limit + 1, node, s =>
    let index := s.found.length
    let (s, low) := visitCallees (g.visit limit) (g.calleesOf node) (s.enter node, index)
    if low = index then (s.complete node, low) else (s, low)

def search (g : CallGraph) : Search :=
  g.nodes.foldl
    (fun s node =>
      if (s.found.lookup node).isSome then s else (g.visit (g.nodes.length + 1) node s).1)
    {}

/-- Whether the functions of a component can call themselves. -/
def isCyclic (g : CallGraph) (functions : List Nat) : Bool :=
  1 < functions.length || functions.any fun id => (g.calleesOf id).contains id

/-- The strongly connected components, callees before callers. -/
def components (g : CallGraph) : List Component :=
  g.search.components.map fun functions => { functions, cyclic := g.isCyclic functions }

end CallGraph
end ThumbHardening
