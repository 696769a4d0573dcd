import ThumbHardening.Program
import ThumbHardening.Random.Stream

/-!
# Trap blocks

The trap blocks of a program, whose addresses decoys may hold. The operand of the trap at the start of such a
block can be etched once with the address of a decoy.
-/

namespace ThumbHardening

/-- A block of a function. -/
structure BlockPointer where
  function : Nat
  block : Nat
  deriving DecidableEq, Repr

/-- The trap blocks that are left during planning. -/
structure TrapPool where
  /-- All trap blocks of the program. -/
  all : List BlockPointer := []
  /-- The trap blocks that have not been etched or promised. -/
  unetched : List BlockPointer := []
  /-- Whether it has been reported that none is left. -/
  exhaustionReported : Bool := false
  deriving DecidableEq, Repr

/-- A trap block that cannot be etched, and the name of its function. -/
structure BadTrapBlock where
  function : String
  block : Nat
  deriving DecidableEq, Repr

namespace TrapPool

/-- Whether the operand of the trap at the start of a block is free. There is no answer if it is neither
free nor an address. -/
def isUnetched? (b : Block) : Option Bool :=
  match b.instrs.head?.bind fun i => i.operands.head? with
  | some (.imm _) => some true
  | some (.symbol _ _ _) => some false
  | _ => none

def addBlock (f : Function) (pool : TrapPool) (b : Block) : Except BadTrapBlock TrapPool :=
  match isUnetched? b with
  | none => .error { function := f.name, block := b.id }
  | some free =>
    let pointer : BlockPointer := { function := f.id, block := b.id }
    .ok { pool with
      all := pool.all ++ [pointer]
      unetched := if free then pool.unetched ++ [pointer] else pool.unetched }

def addFunction (pool : TrapPool) (f : Function) : Except BadTrapBlock TrapPool :=
  (f.blocks.filter Block.trap).foldlM (addBlock f) pool

/-- The trap blocks of a program. Those that hold an address count as etched. -/
def collect (p : Program) : Except BadTrapBlock TrapPool :=
  p.functions.elems.foldlM addFunction {}

/-- A random trap block. There has to be one. -/
def randomTrap (pool : TrapPool) (s : RandomStream) : BlockPointer × RandomStream :=
  let (k, s) := s.index pool.all.length
  (pool.all.getD k ⟨0, 0⟩, s)

/-- Removes the element at a position and puts the last one into its place. -/
def swapRemove {α : Type} (xs : List α) (k : Nat) : List α :=
  match xs.getLast? with
  | none => []
  | some last => (xs.set k last).dropLast

/-- Takes a random trap block that has not been etched. The first time that none is left of some, a warning is
due, which the last part of the result counts. -/
def take (pool : TrapPool) (s : RandomStream) : Option BlockPointer × TrapPool × RandomStream × Nat :=
  if pool.unetched.isEmpty then
    if !pool.all.isEmpty && !pool.exhaustionReported then
      (none, { pool with exhaustionReported := true }, s, 1)
    else (none, pool, s, 0)
  else
    let (k, s) := s.index pool.unetched.length
    (pool.unetched[k]?, { pool with unetched := swapRemove pool.unetched k }, s, 0)

end TrapPool
end ThumbHardening
