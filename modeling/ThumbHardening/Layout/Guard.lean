import ThumbHardening.FlowGraph
import ThumbHardening.Immediate

/-!
# The global guard

The code of the function that gives out the address of a decoy and the address 32 bytes behind it. With a
hardware random number generator and several candidates it chooses one of them whenever it is called:

* `setup` loads the address of the generator;
* `poll` reads it until the word is not zero;
* `select` reduces the word modulo the number of candidates and compares the remainder with each position;
* `store` writes the two addresses.

Otherwise the address of one candidate is part of the code.
-/

namespace ThumbHardening
namespace Guard

def functionName : String := "__obscura_globalguard_getaddr"

/-- Loads a 32-bit constant in as few instructions as possible. -/
def loadConstant (dst : PhysReg) (value : BitVec 32) : Code :=
  if isModifiedImmediate value then [.movImm (.phys dst) value.toNat]
  else
    [.movw (.phys dst) (.imm (value &&& 0xffff#32).toNat),
      .movt (.phys dst) (.imm ((value >>> 16) &&& 0xffff#32).toNat)]

/-- Half of the address of a global object. -/
def addressOf (global : Nat) (part : AddrPart) : Operand :=
  .symbol (.global global) 0 part

/-- Loads the address of a global object under a condition. -/
def loadAddress (dst : PhysReg) (global : Nat) (pred : Cond) : Code :=
  [{ Instr.movw (.phys dst) (addressOf global .lo16) with pred },
    { Instr.movt (.phys dst) (addressOf global .hi16) with pred }]

/-- Writes the address in `r12` and the one 32 bytes behind it to where `r0` and `r1` point. -/
def storeGuard : Code :=
  [.store (.phys .r12) (.ofPhys .r0) 0, .add (.phys .r12) (.phys .r12) (.imm 32),
    .store (.phys .r12) (.ofPhys .r1) 0, .ret]

def setupBlock : Nat := 1
def pollBlock : Nat := 2
def selectBlock : Nat := 3
def storeBlock : Nat := 4

/-- Reads the generator until the word is not zero. -/
def pollCode : Code :=
  [.load (.phys .r3) (.ofPhys .r2) 0, .cmp (.phys .r3) (.imm 0), .branchCond .eq pollBlock]

/-- Takes the candidate if the remainder is the next lower position. -/
def tryCandidate (global : Nat) : Code :=
  [.sub (.phys .r2) (.phys .r2) (.imm 1), .cmp (.phys .r3) (.ofPhys .r2), .it .eq 2]
    ++ loadAddress .r12 global .eq ++ [{ Instr.branch storeBlock with pred := .eq }]

/-- Tries the candidates in turn and takes the last one without a test. -/
def tryCandidates : List Nat → Code
  | [] => []
  | [last] => loadAddress .r12 last .al ++ [.branch storeBlock]
  | candidate :: rest => tryCandidate candidate ++ tryCandidates rest

/-- Reduces the random word modulo the number of candidates and tries them. -/
def selectCode (candidates : List Nat) : Code :=
  loadConstant .r2 (BitVec.ofNat 32 candidates.length)
    ++ [.udiv (.phys .r12) (.phys .r3) (.phys .r2),
      .mls (.phys .r3) (.phys .r2) (.phys .r12) (.phys .r3)]
    ++ tryCandidates candidates

/-- The code that chooses a candidate at run time. -/
def runtimeGraph (candidates : List Nat) (rngAddress : BitVec 32) : FlowGraph :=
  let setup := (Block.ofCode (loadConstant .r2 rngAddress)).addEdge (.next pollBlock)
  let poll := ((Block.ofCode pollCode).addEdge (.jump pollBlock)).addEdge (.next selectBlock)
  let select := (Block.ofCode (selectCode candidates)).addEdge (.jump storeBlock)
  let graph : FlowGraph := { entry := setupBlock }
  (((graph.addBlock setup).addBlock poll).addBlock select).addBlock (Block.ofCode storeGuard)

/-- The code that always gives out the same candidate. -/
def staticGraph (candidate : Nat) : FlowGraph :=
  FlowGraph.addBlock { entry := setupBlock }
    (Block.ofCode (loadAddress .r12 candidate .al ++ storeGuard))

/-- The body of the function. -/
def graph (candidates : List Nat) (rngAddress : Option Nat) (staticPick : Nat) : FlowGraph :=
  match rngAddress with
  | some address =>
    if 1 < candidates.length then runtimeGraph candidates (BitVec.ofNat 32 address)
    else staticGraph (candidates.getD staticPick 0)
  | none => staticGraph (candidates.getD staticPick 0)

end Guard
end ThumbHardening
