import ThumbHardening.Editor
import ThumbHardening.Pass
import ThumbHardening.Steps

/-!
# Limits on indirect calls

Makes every indirect call go through a register that no function saves for its caller, so that the function
pointer in it is never spilled. A virtual register is limited to the class of such registers where its own
class allows; otherwise the target is copied in front of the call.
-/

namespace ThumbHardening

/-- Why an indirect call cannot be limited. -/
inductive CallLimitError where
  | unexpectedOperand (function : String)
  | noFreeRegister (function : String) (block : Nat)
  | edit (error : EditError)
  deriving DecidableEq, Repr

def CallLimitError.label : CallLimitError → String
  | .unexpectedOperand _ => "UnexpectedOperand"
  | .noFreeRegister _ _ => "NoFreeRegister"
  | .edit error => "Instrument." ++ error.label

def CallLimitError.fault? : CallLimitError → Option Fault
  | .edit error => error.fault?
  | _ => none

def CallLimitError.message : CallLimitError → String
  | .unexpectedOperand function =>
    s!"Indirect call in function {function} has no register operand"
  | .noFreeRegister function block =>
    s!"No free register for the indirect call in basic block {block} of function {function}"
  | .edit error => error.message

namespace CallLimit

/-- Whether an instruction is an indirect call that has not been limited. -/
def isUnlimited (i : Instr) : Bool :=
  i.opcode = .callIndirect

/-- An indirect call as a limited one, with a new target. -/
def retarget (target : Reg) (i : Instr) : Instr :=
  { i with opcode := .callIndirectLimited, operands := i.operands.set 0 (.reg target) }

/-- Changes the instruction at a position of a block. -/
def updateInstr (f : Function) (id index : Nat) (change : Instr → Instr) : Function :=
  f.updateBody fun g =>
    g.updateBlock id fun b => { b with instrs := b.instrs.modify index change }

/-- The copy of a call's target into another register, under the condition of the call. A copy before
register allocation cannot be predicated. -/
def copyFor (f : Function) (pred : Cond) (new target : Reg) : Instr :=
  if f.registers.allocated || pred ≠ .al then { Instr.mov new target with pred }
  else .copy new target

/-- Chooses the register that a call's target is copied to. Before register allocation it is a new one. -/
def chooseRegister (f : Function) (g : FlowGraph) (id index : Nat) :
    Except CallLimitError (Function × Reg) :=
  if f.registers.allocated then
    match g.freeRegistersBefore id index false with
    | .error e => .error (.edit e)
    | .ok free =>
      match free.find? RegClass.tailCall.contains with
      | none => .error (.noFreeRegister f.name id)
      | some r => .ok (f, .phys r)
  else
    .ok ({ f with registers := f.registers.create .tailCall }, .virt f.registers.fresh)

/-- Copies the target of the call at a position and makes the call use the copy. -/
def limitByCopy (f : Function) (g : FlowGraph) (id index : Nat) (call : Instr) (target : Reg) :
    Except CallLimitError Function :=
  match chooseRegister f g id index with
  | .error e => .error e
  | .ok (f, new) =>
    match g.insertAround id index false [copyFor f call.pred new target] with
    | .error e => .error (.edit e)
    | .ok (g, index) => .ok (updateInstr { f with body := some g } id index (retarget new))

/-- Limits the call at a position. -/
def limitCall (f : Function) (g : FlowGraph) (id index : Nat) (call : Instr) :
    Except CallLimitError Function :=
  match call.operands.head?.bind Operand.reg? with
  | none => .error (.unexpectedOperand f.name)
  | some (.virt number) =>
    if (f.registers.limit? number .tailCall).isSome then
      .ok (updateInstr { f with registers := f.registers.constrain number .tailCall } id index
        (retarget (.virt number)))
    else limitByCopy f g id index call (.virt number)
  | some (.phys r) =>
    if RegClass.tailCall.contains r then .ok (updateInstr f id index (retarget (.phys r)))
    else limitByCopy f g id index call (.phys r)

/-- The first unlimited call of a block, with its position. -/
def firstUnlimited? (b : Block) : Option (Nat × Instr) :=
  (b.instrs.zipIdx.find? fun entry => isUnlimited entry.1).map fun entry => (entry.2, entry.1)

/-- Limits the calls of a block, one after the other, and counts them. `limit` is their number. -/
def limitBlock (id : Nat) : (limit : Nat) → Function → Nat → Function × Nat × Option CallLimitError
  | 0, f, limited => (f, limited, none)
  | limit + 1, f, limited =>
    match f.body with
    | none => (f, limited, none)
    | some g =>
      match (g.block? id).bind firstUnlimited? with
      | none => (f, limited, none)
      | some (index, call) =>
        match limitCall f g id index call with
        | .error e => (f, limited, some e)
        | .ok f => limitBlock id limit f (limited + 1)

def unlimitedCalls (f : Function) : Nat :=
  f.blocks.foldr (fun b n => b.instrs.countP isUnlimited + n) 0

def visitBlock (id : Nat) (state : Function × Nat) : (Function × Nat) × Option CallLimitError :=
  let (f, limited, failure) := limitBlock id (unlimitedCalls state.1) state.1 state.2
  ((f, limited), failure)

def visitFunction (f : Function) (limited : Nat) : Function × Nat × Option CallLimitError :=
  let ((f, limited), failure) := Steps.runAll visitBlock (f.blocks.map Block.id) (f, limited)
  (f, limited, failure)

/-- Runs the limiter. `limited` is the number of calls limited in all runs. -/
def run (limited : Nat) (p : Program) : PassRun Nat CallLimitError :=
  let (functions, total, failure) := Steps.mapAll visitFunction p.functions.elems limited
  { pass := total
    program := { p with functions := { p.functions with elems := functions } }
    outcome := match failure with
      | some e => .error e
      | none => .ok (limited < total) }

end CallLimit
end ThumbHardening
