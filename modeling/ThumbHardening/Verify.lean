import ThumbHardening.Pass

/-!
# Verification

What every program has to satisfy between two passes: its flow graphs are sound, its predicated groups are
consistent, and every operand, pointer and listed symbol refers to something that exists.
-/

namespace ThumbHardening

/-- What an operand can refer to. -/
inductive Referent where
  | symbol | block | stackObject | virtualRegister
  deriving DecidableEq, Repr

def Referent.describe : Referent → String
  | .symbol => "symbol"
  | .block => "basic block"
  | .stackObject => "stack object"
  | .virtualRegister => "virtual register"

/-- Why a program is not accepted. -/
inductive VerifyError where
  | invalidFlow (function : String) (error : FlowError)
  | inconsistentGroup (function : String) (block : Nat)
  | unknownReferent (function : String) (block : Nat) (referent : Referent)
  | virtualAfterAllocation (function : String)
  | oversizedInitializer (global : String)
  | danglingPointer (global : String)
  | unknownUsedSymbol (symbol : Symbol)
  deriving DecidableEq, Repr

def VerifyError.label : VerifyError → String
  | .invalidFlow _ error => "InvalidCfg.Cfg." ++ error.label
  | .inconsistentGroup _ _ => "InconsistentItGroup"
  | .unknownReferent _ _ _ => "InvalidOperand"
  | .virtualAfterAllocation _ => "VirtualRegisterAfterAllocation"
  | .oversizedInitializer _ => "InvalidInitializer"
  | .danglingPointer _ => "DanglingPointer"
  | .unknownUsedSymbol _ => "InvalidUsedSymbol"

def VerifyError.message : VerifyError → String
  | .invalidFlow function error => s!"Function {function} has an invalid CFG: " ++ error.message
  | .inconsistentGroup function block =>
    s!"Basic block {block} of function {function} has an inconsistent IT group"
  | .unknownReferent function block referent =>
    s!"Basic block {block} of function {function} references an unknown " ++ referent.describe
  | .virtualAfterAllocation function =>
    s!"Function {function} uses virtual registers after register allocation"
  | .oversizedInitializer global => s!"Global {global} is bigger than its initializer allows"
  | .danglingPointer global => s!"Global {global} contains a dangling pointer"
  | .unknownUsedSymbol symbol =>
    "Symbol " ++ symbol.describe ++ " in the used list does not exist"

/-- Fails unless a condition holds. -/
def require {ε : Type} (condition : Bool) (error : ε) : Except ε Unit :=
  if condition then .ok () else .error error

namespace Program

def hasSymbol (p : Program) (symbol : Symbol) : Bool :=
  (p.symbolName? symbol).isSome

/-- Checks what one operand refers to. -/
def verifyOperand (p : Program) (f : Function) (g : FlowGraph) (b : Block) (operand : Operand) :
    Except VerifyError Unit :=
  match operand with
  | .symbol symbol _ _ => require (p.hasSymbol symbol) (.unknownReferent f.name b.id .symbol)
  | .block id => require (g.blocks.contains id) (.unknownReferent f.name b.id .block)
  | .frame id => require (f.frame.contains id) (.unknownReferent f.name b.id .stackObject)
  | .reg (.virt number) =>
    if f.registers.allocated then .error (.virtualAfterAllocation f.name)
    else
      require (f.registers.class? number).isSome (.unknownReferent f.name b.id .virtualRegister)
  | .reg (.phys _) | .imm _ | .external _ => .ok ()

/-- Checks the operands of an instruction, and that an `It` names a condition and a mask. -/
def verifyInstr (p : Program) (f : Function) (g : FlowGraph) (b : Block) (i : Instr) :
    Except VerifyError Unit := do
  i.operands.forM (p.verifyOperand f g b)
  require (!i.isIt || i.itFields?.isSome) (.inconsistentGroup f.name b.id)

/-- Checks the predicated groups and the instructions of a block. -/
def verifyBlock (p : Program) (f : Function) (g : FlowGraph) (b : Block) :
    Except VerifyError Unit := do
  require b.instrs.isConsistent (.inconsistentGroup f.name b.id)
  b.instrs.forM (p.verifyInstr f g b)

/-- Checks the body of a function. -/
def verifyFunction (p : Program) (f : Function) : Except VerifyError Unit :=
  match f.body with
  | none => .ok ()
  | some g => do
    g.verify.mapError (.invalidFlow f.name)
    g.blocks.elems.forM (p.verifyBlock f g)

/-- Whether an entry of an initializer refers to something that exists. A pointer to a global object may not
leave it, and points to the start of an empty one. -/
def pointerResolves (p : Program) : Pointer → Bool
  | .null | .raw _ => true
  | .global id offset => (p.global? id).any fun g => offset < max g.size 1
  | .function id => p.functions.contains id
  | .block function id => (p.block? function id).isSome

/-- Checks the initializer of a global object. -/
def verifyGlobal (p : Program) (g : GlobalObject) : Except VerifyError Unit :=
  match g.initializer with
  | none => .ok ()
  | some init => do
    require (init.entries.length * p.pointerSize ≤ g.size) (.oversizedInitializer g.name)
    require (init.entries.all p.pointerResolves) (.danglingPointer g.name)

/-- Checks a whole program. -/
def verify (p : Program) : Except VerifyError Unit := do
  p.functions.elems.forM p.verifyFunction
  p.globals.elems.forM p.verifyGlobal
  p.used.forM fun symbol => require (p.hasSymbol symbol) (.unknownUsedSymbol symbol)

end Program

/-- The verification as a pass, which never changes anything. -/
def verifyPass (p : Program) : PassRun Unit VerifyError :=
  { pass := (), program := p, outcome := p.verify.map fun _ => false }

end ThumbHardening
