import ThumbHardening.Leakage.Escape
import ThumbHardening.Leakage.LinkSpill
import ThumbHardening.Leakage.Statistics
import ThumbHardening.Pass
import ThumbHardening.Steps

/-!
# Leakage analysis

How much code an attacker could locate by reading control data. A function whose address escapes is leakable
as a whole. A return address that may be spilled gives away the code behind the call, so a block is leakable
if such a call stands in its middle or at the end of the block before it; and what follows a leakable block
in the layout is leakable too. Trap blocks are never executed and do not count.
-/

namespace ThumbHardening

/-- The analysis, with what its last run found. -/
structure LeakageAnalysis where
  /-- Whether the results count as those of the hardened code. -/
  postHardening : Bool
  leakableBlocks : List (Nat × Nat) := []
  leakableFunctions : List Nat := []
  statistics : Statistics := {}
  deriving DecidableEq, Repr

/-- Whether the return address of a call may get into memory. Other instructions leave none. -/
def Program.callLeaks (p : Program) (spills : LinkSpill) (function : String) (i : Instr) :
    Except LeakageError Bool :=
  match i.opcode with
  | .call =>
    (p.callTarget function i).map fun
      | .internal id => spills.canSpill id
      | .external => true
  | .callIndirect | .callIndirectLimited => .ok true
  | _ => .ok false

/-- What the analysis has found so far. -/
structure LeakageSweep where
  blocks : List (Nat × Nat) := []
  functions : List Nat := []
  statistics : LeakageStatistics := {}
  warnings : Nat := 0
  deriving DecidableEq, Repr

namespace LeakageSweep

/-- Marks a block as leakable, and counts its size unless it was marked before. -/
def mark (s : LeakageSweep) (function : Nat) (b : Block) : LeakageSweep :=
  if s.blocks.contains (function, b.id) then s
  else
    { s with
      blocks := (function, b.id) :: s.blocks
      statistics := { s.statistics with
        codeSizeLeakable := s.statistics.codeSizeLeakable + b.size } }

/-- Counts a block of a function whose address escapes. -/
def markEscaped (function : Nat) (s : LeakageSweep) (b : Block) : LeakageSweep :=
  { s with
    statistics := { s.statistics with
      codeSizeViaPointer := s.statistics.codeSizeViaPointer + b.size } }.mark function b

/-- Counts a block that a return address gives away. -/
def markReturned (function : Nat) (s : LeakageSweep) (b : Block) : LeakageSweep :=
  { s with
    statistics := { s.statistics with
      blocksLeakable := s.statistics.blocksLeakable + 1
      codeSizeViaReturn := s.statistics.codeSizeViaReturn + b.size } }.mark function b

def countBlock (s : LeakageSweep) (b : Block) : LeakageSweep :=
  { s with
    statistics := { s.statistics with
      blocks := s.statistics.blocks + 1
      codeSize := s.statistics.codeSize + b.size } }

/-- Counts a function whose address escapes, with all its blocks. -/
def markFunction (s : LeakageSweep) (function : Nat) (blocks : List Block) : LeakageSweep :=
  blocks.foldl (markEscaped function)
    { s with
      functions := function :: s.functions
      statistics := { s.statistics with
        functionsLeakable := s.statistics.functionsLeakable + 1 } }

/-- Whether the block in front of a block gives it away: it is leakable itself, or ends with a call that
leaks. -/
def leaksFromFront (p : Program) (spills : LinkSpill) (f : Function) (g : FlowGraph) (b : Block)
    (s : LeakageSweep) : Except LeakageError Bool :=
  match g.layoutPredecessor? b.id with
  | none => .ok false
  | some front =>
    if s.blocks.contains (f.id, front.id) then .ok true
    else
      match (g.block? front.id).bind Block.lastNonDebug? with
      | none => .ok false
      | some (_, last) => p.callLeaks spills f.name last

/-- Whether one of the instructions, counted from position `index`, leaks and is not the one at position
`last`. -/
def anyLeaks (p : Program) (spills : LinkSpill) (name : String) (last : Option Nat) :
    List Instr → (index : Nat) → Except LeakageError Bool
  | [], _ => .ok false
  | i :: rest, index =>
    match p.callLeaks spills name i with
    | .error e => .error e
    | .ok leaks =>
      if leaks && some index ≠ last then .ok true
      else anyLeaks p spills name last rest (index + 1)

/-- Whether a block has a call in its middle whose return address may get into memory. -/
def leaksInside (p : Program) (spills : LinkSpill) (f : Function) (b : Block) :
    Except LeakageError Bool :=
  anyLeaks p spills f.name (b.lastNonDebug?.map Prod.fst) b.instrs 0

/-- Whether return addresses give a block away. -/
def isGivenAway (p : Program) (spills : LinkSpill) (f : Function) (g : FlowGraph) (b : Block)
    (s : LeakageSweep) : Except LeakageError Bool :=
  match leaksFromFront p spills f g b s with
  | .ok false => leaksInside p spills f b
  | answer => answer

def visitBlock (p : Program) (spills : LinkSpill) (f : Function) (g : FlowGraph) (b : Block)
    (s : LeakageSweep) : LeakageSweep × Option LeakageError :=
  match isGivenAway p spills f g b s with
  | .error e => (s, some e)
  | .ok false => (s, none)
  | .ok true => (s.markReturned f.id b, none)

def visitFunction (p : Program) (spills : LinkSpill) (f : Function) (s : LeakageSweep) :
    LeakageSweep × Option LeakageError :=
  match f.body with
  | none => (s, none)
  | some g =>
    let blocks := g.blocks.elems.filter fun b => !b.trap
    let s := blocks.foldl countBlock
      { s with
        statistics := { s.statistics with functions := s.statistics.functions + 1 }
        warnings := s.warnings + p.escapeWarnings f }
    let s := if p.addressEscapes f then s.markFunction f.id blocks else s
    Steps.runAll (visitBlock p spills f g) blocks s

/-- Looks at all functions. -/
def visitProgram (p : Program) (spills : LinkSpill) : LeakageSweep × Option LeakageError :=
  Steps.runAll (visitFunction p spills) p.functions.elems {}

end LeakageSweep

namespace LeakageAnalysis

/-- Whether the last run found a block leakable. -/
def isLeakableBlock (a : LeakageAnalysis) (function id : Nat) : Bool :=
  a.leakableBlocks.contains (function, id)

/-- Whether the last run found that the address of a function escapes. -/
def isLeakableFunction (a : LeakageAnalysis) (function : Nat) : Bool :=
  a.leakableFunctions.contains function

/-- The numbers of a run, as those of the code before or after hardening. -/
def place (a : LeakageAnalysis) (numbers : LeakageStatistics) : Statistics :=
  if a.postHardening then { after := numbers } else { before := numbers }

/-- Runs the analysis. When it fails, the statistics of the run before stay. -/
def run (a : LeakageAnalysis) (p : Program) : PassRun LeakageAnalysis LeakageError :=
  match LinkSpill.compute p with
  | .error e =>
    { pass := { a with leakableBlocks := [], leakableFunctions := [] }, program := p
      outcome := .error e }
  | .ok spills =>
    let (s, failure) := LeakageSweep.visitProgram p spills
    let a := { a with leakableBlocks := s.blocks, leakableFunctions := s.functions }
    match failure with
    | some e => { pass := a, program := p, warnings := s.warnings, outcome := .error e }
    | none =>
      { pass := { a with statistics := a.place s.statistics }, program := p
        warnings := s.warnings, outcome := .ok false }

end LeakageAnalysis
end ThumbHardening
