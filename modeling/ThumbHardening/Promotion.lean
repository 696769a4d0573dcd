import ThumbHardening.CallGraph
import ThumbHardening.Fault
import ThumbHardening.Pass
import ThumbHardening.Steps

/-!
# Promotion of stack objects

Moves stack objects that hold function pointers into global objects of their own, away from the return
addresses on the stack. A global object has room for one instance, so functions that can call themselves
keep their objects, and so do objects whose size is only known at run time.
-/

namespace ThumbHardening

/-- Why promotion gives up. -/
inductive PromotionError where
  | program (error : ProgramError)
  | invalidGlobal (name : String) (error : BuildError)
  | fault (cause : Fault)
  deriving DecidableEq, Repr

def PromotionError.label : PromotionError → String
  | .program error => "Ir." ++ error.label
  | .invalidGlobal _ _ => "InvalidGlobal"
  | .fault _ => "Fault"

def PromotionError.fault? : PromotionError → Option Fault
  | .fault cause => some cause
  | _ => none

def PromotionError.message : PromotionError → String
  | .program error => "Could not build the call graph: " ++ error.message
  | .invalidGlobal name error => s!"Could not create a global for {name}: " ++ error.message
  | .fault cause => cause.message

/-- How many stack objects with function pointers were moved or left. -/
structure PromotionStatistics where
  promoted : Nat := 0
  /-- Left because their function may be active more than once. -/
  skippedRecursive : Nat := 0
  /-- Left because their size is only known at run time. -/
  notEligible : Nat := 0
  deriving DecidableEq, Repr

namespace Promotion

/-- Every byte of a function pointer in a promoted object starts with this value. -/
def sentinelByte : Nat := 0xff

/-- Whether byte `i` belongs to one of the pointers at the offsets. -/
def inSlot (offsets : List Nat) (ptr i : Nat) : Bool :=
  offsets.any fun o => o ≤ i && i < Address.wrap (o + ptr)

/-- The initial content of a promoted object: zero except for its function pointers. -/
def sentinelInitializer (type : DataType) (size ptr : Nat) : Initializer :=
  let offsets := type.functionPointerOffsets ptr
  if offsets.isEmpty then .zero
  else .bytes ((List.range size).map fun i => if inSlot offsets ptr i then sentinelByte else 0)

/-- Whether memory has room for the initial content of a promoted object. -/
def fitsMemory (type : DataType) (size ptr : Nat) : Bool :=
  size < Nat.pow 2 63 || (type.functionPointerOffsets ptr).isEmpty

/-- A stack object that is going to be moved. -/
structure Candidate where
  object : Nat
  /-- The name of its global object. -/
  name : String
  size : Nat
  align : Nat
  type : DataType

/-- The names tried for the global object of a stack object, in order. -/
def nameAt (base : String) : Nat → String
  | 0 => base
  | k + 1 => base ++ "." ++ toString (k + 1)

/-- The first of the names that is not taken. One more name than there are taken ones suffices. -/
def uniqueName (p : Program) (base : String) : String :=
  let taken := p.names.length
  nameAt base (((List.range taken).find? fun k => (p.symbolNamed? (nameAt base k)).isNone).getD taken)

/-- What becomes of a stack object. -/
inductive Fate where
  /-- It holds no function pointer. -/
  | untouched
  | notEligible
  | skippedRecursive
  | promoted (candidate : Candidate)

/-- What becomes of a stack object of a function that can call itself or cannot. -/
def fate (p : Program) (f : Function) (recursive : Bool) (o : StackObject) : Fate :=
  match o.type with
  | none => .untouched
  | some type =>
    if !type.containsFunctionPointer then .untouched
    else if o.variableSized then .notEligible
    else if recursive then .skippedRecursive
    else
      .promoted {
        object := o.id, name := uniqueName p (f.name ++ "." ++ o.name), size := o.size
        align := o.align, type }

/-- Counts an object that stays. -/
def count (s : PromotionStatistics) : Fate → PromotionStatistics
  | .notEligible => { s with notEligible := s.notEligible + 1 }
  | .skippedRecursive => { s with skippedRecursive := s.skippedRecursive + 1 }
  | .untouched | .promoted _ => s

/-- The fates of the stack objects of a function that has a body. -/
def fates (p : Program) (function : Nat) (recursive : Bool) : List Fate :=
  match p.function? function with
  | none => []
  | some f => if f.body.isNone then [] else f.frame.elems.map (fate p f recursive)

/-- The candidate, if the object is going to be moved. -/
def Fate.candidate? : Fate → Option Candidate
  | .promoted c => some c
  | _ => none

def replaceOperand (old new : Operand) (g : FlowGraph) : FlowGraph :=
  let ofInstr (i : Instr) : Instr :=
    { i with operands := i.operands.map fun o => if o = old then new else o }
  { g with blocks := { g.blocks with
      elems := g.blocks.elems.map fun b => { b with instrs := b.instrs.map ofInstr } } }

/-- Takes an object out of the frame of a function, whose code then uses a global object instead. -/
def moveOut (object global : Nat) (f : Function) : Function :=
  { f.updateBody (replaceOperand (.frame object) (.address (.global global))) with
    frame := f.frame.erase object }

def globalFor (p : Program) (c : Candidate) : Except BuildError GlobalObject :=
  GlobalDraft.build {
    name := some c.name, size := some c.size, align := max c.align 1
    initializer := some (sentinelInitializer c.type c.size p.pointerSize)
    linkage := .hidden, type := some c.type }

structure State where
  program : Program
  statistics : PromotionStatistics

/-- Moves one object of a function. -/
def promote (function : Nat) (c : Candidate) (s : State) : State × Option PromotionError :=
  if !fitsMemory c.type c.size s.program.pointerSize then (s, some (.fault .outOfMemory))
  else
    match globalFor s.program c with
    | .error e => (s, some (.invalidGlobal c.name e))
    | .ok g =>
      match s.program.addGlobal g with
      | (p, .error e) => ({ s with program := p }, some (.program e))
      | (p, .ok id) =>
        ({ program := p.updateFunction function (moveOut c.object id)
           statistics := { s.statistics with promoted := s.statistics.promoted + 1 } }, none)

/-- Moves the objects of a function, whose names are chosen before the first one moves. -/
def promoteFunction (recursive : Bool) (function : Nat) (s : State) :
    State × Option PromotionError :=
  let found := fates s.program function recursive
  Steps.runAll (promote function) (found.filterMap Fate.candidate?)
    { s with statistics := found.foldl count s.statistics }

/-- Moves the objects of a component of the call graph. -/
def promoteComponent (c : Component) (s : State) : State × Option PromotionError :=
  Steps.runAll (promoteFunction c.cyclic) c.functions s

/-- Runs the promotion. The numbers add up over all runs. -/
def run (statistics : PromotionStatistics) (p : Program) :
    PassRun PromotionStatistics PromotionError :=
  match CallGraph.build p with
  | .error e => { pass := statistics, program := p, outcome := .error (.program e) }
  | .ok g =>
    let (s, failure) := Steps.runAll promoteComponent g.components { program := p, statistics }
    { pass := s.statistics, program := s.program
      outcome := match failure with
        | some e => .error e
        | none => .ok (statistics.promoted < s.statistics.promoted) }

end Promotion
end ThumbHardening
