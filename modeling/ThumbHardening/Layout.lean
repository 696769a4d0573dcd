import ThumbHardening.Layout.Plan
import ThumbHardening.Pass
import ThumbHardening.Random.ChaCha
import ThumbHardening.Steps

/-!
# Layout randomization

Shuffles the global objects within their storage classes and fills the space that is left with decoys, each
in front of the object that it was planned for. All decoys are kept as used symbols, and trap blocks are
etched with their addresses. If asked for, a function is made that gives out the address of a decoy.
-/

namespace ThumbHardening
namespace Layout

/-- How the names of all decoys begin. -/
def decoyNameStart : String := "__obscura_decoy"

/-- The state of carrying out a plan. -/
structure State where
  program : Program
  statistics : LayoutStatistics
  /-- The number that the next decoy name is tried with. -/
  counter : Nat := 0
  /-- The decoys with their IDs, the latest one first. -/
  placed : List (DecoyPlan × Nat) := []

def decoyName (number : Nat) : String :=
  decoyNameStart ++ "." ++ toString number

/-- The first number from `number` on whose name is not taken. Of more names than there are taken ones, one is
free. -/
def freeNumber (p : Program) : (limit : Nat) → (number : Nat) → Nat
  | 0, number => number
  | limit + 1, number =>
    if (p.symbolNamed? (decoyName number)).isNone then number else freeNumber p limit (number + 1)

def decoyObject (name : String) (d : DecoyPlan) : GlobalObject :=
  { name, size := d.size, align := d.align, constant := d.storage = .rodata
    initializer := some d.content.initializer, linkage := .internal, decoy := true }

/-- The operand of a trap that is etched with the address of a decoy. -/
def etching (decoy : Nat) : Operand :=
  .symbol (.global decoy) 0 .lo16

/-- Etches the first instruction of a block with the address of a decoy. A block without instructions stays
as it is. -/
def etch (decoy : Nat) (target : BlockPointer) (s : State) : State × Option LayoutError :=
  match (s.program.block? target.function target.block).bind fun b => b.instrs[0]? with
  | none => (s, none)
  | some i =>
    match i.setOperand? 0 (etching decoy) with
    | none => (s, some (.fault .operandRange))
    | some i =>
      ({ s with
        program := s.program.updateFunction target.function fun f => f.updateBody fun g =>
          g.updateBlock target.block fun b => { b with instrs := b.instrs.set 0 i }
        statistics := { s.statistics with trapsEtched := s.statistics.trapsEtched + 1 } }, none)

def countWords (ptr : Nat) (d : DecoyPlan) (s : LayoutStatistics) : LayoutStatistics :=
  { s with decoyWords := s.decoyWords.update d.storage (· + d.size / ptr) }

def addDecoy (d : DecoyPlan) (s : State) : State × Option LayoutError :=
  let number := freeNumber s.program s.program.names.length s.counter
  match s.program.addGlobal (decoyObject (decoyName number) d) with
  | (program, .error e) => ({ s with program }, some (.program e))
  | (program, .ok id) =>
    let s : State :=
      { program, statistics := countWords program.pointerSize d s.statistics
        counter := number + 1, placed := (d, id) :: s.placed }
    match d.etch with
    | none => (s, none)
    | some target => etch id target s

/-- The IDs of the decoys that were planned for an anchor, in order. -/
def anchoredAt (placed : List (DecoyPlan × Nat)) (anchor : Option Nat) : List Nat :=
  (placed.filter fun entry => entry.1.anchor = anchor).map Prod.snd

/-- The new order of a class: each object behind its decoys. -/
def orderOf (placed : List (DecoyPlan × Nat)) (ids : List Nat) : List Nat :=
  ids.flatMap fun id => anchoredAt placed (some id) ++ [id]

/-- The new order of all objects. -/
def order (plan : Plan) (placed : List (DecoyPlan × Nat)) : List Nat :=
  plan.excluded ++ orderOf placed plan.shuffled.rodata ++ orderOf placed plan.shuffled.data
    ++ anchoredAt placed none ++ orderOf placed plan.shuffled.bss

/-- Brings the objects into their new order. -/
def reorder (plan : Plan) (s : State) : State × Option LayoutError :=
  match s.program.reorderGlobals (order plan s.placed.reverse) with
  | .error e => (s, some (.program (.order e)))
  | .ok program => ({ s with program }, none)

/-- Marks a symbol as used. -/
def keep (symbol : Symbol) (s : State) : State × Option LayoutError :=
  match s.program.valueOf symbol with
  | .error e => (s, some (.program e))
  | .ok value => ({ s with program := s.program.use symbol value }, none)

def guardFunction (body : FlowGraph) : Function :=
  { name := Guard.functionName, body := some body, calleeSaved := some []
    registers := { allocated := true }, naked := true, linkage := .linkOnce }

def becomeGuard (body : FlowGraph) (f : Function) : Function :=
  { f with body := some body, naked := true, linkage := .linkOnce, calleeSaved := some [] }

/-- Makes the function of the guard, or replaces the body of the function with its name. -/
def insertGuard (p : Program) (body : FlowGraph) : Except ProgramError (Program × Nat) :=
  match p.symbolNamed? Guard.functionName with
  | some (.function id) => .ok (p.updateFunction id (becomeGuard body), id)
  | _ => p.addFunction (guardFunction body)

def addGuard (o : Options) (guard : GuardPlan) (s : State) : State × Option LayoutError :=
  let ids := s.placed.reverse.map Prod.snd
  let candidates := guard.candidates.map fun k => ids.getD k 0
  match insertGuard s.program (Guard.graph candidates o.rngAddress guard.staticPick) with
  | .error e => (s, some (.program e))
  | .ok (program, id) => keep (.function id) { s with program }

/-- Carries out one step after another until one fails. -/
def andThen (first : State × Option LayoutError) (next : State → State × Option LayoutError) :
    State × Option LayoutError :=
  match first with
  | (s, some e) => (s, some e)
  | (s, none) => next s

def carryOut (o : Options) (plan : Plan) (s : State) : State × Option LayoutError :=
  let added := Steps.runAll addDecoy plan.decoys s
  let ordered := andThen added (reorder plan)
  let kept := andThen ordered fun s =>
    Steps.runAll (fun entry => keep (.global entry.2)) s.placed.reverse s
  match plan.guard with
  | none => kept
  | some guard => andThen kept (addGuard o guard)

end Layout

/-- The randomizer, with what its last run did. -/
structure LayoutRandomizer where
  options : Options
  statistics : LayoutStatistics := {}
  deriving DecidableEq, Repr

namespace LayoutRandomizer
open Layout

/-- Checks that the address of the random number generator has 32 bits. -/
def checkRngAddress (o : Options) : Except LayoutError Unit :=
  match o.rngAddress with
  | none => .ok ()
  | some address => if address < Nat.pow 2 32 then .ok () else .error (.invalidRngAddress address)

/-- Runs the randomizer with a random stream. Without randomization it only measures the objects. -/
def runWith (r : LayoutRandomizer) (stream : RandomStream) (p : Program) :
    PassRun LayoutRandomizer LayoutError :=
  let members := Members.ofProgram p
  let measured := { r with statistics := members.statistics }
  if !r.options.randomization then
    { pass := measured, program := p, warnings := members.warnings, outcome := .ok false }
  else
    match checkRngAddress r.options with
    | .error e =>
      { pass := measured, program := p, warnings := members.warnings, outcome := .error e }
    | .ok () =>
      match plan r.options p members stream with
      | (warnings, .error e) =>
        { pass := measured, program := p, warnings := members.warnings + warnings
          outcome := .error e }
      | (warnings, .ok plan) =>
        let (s, failure) :=
          carryOut r.options plan { program := p, statistics := members.statistics }
        { pass := { r with statistics := s.statistics }, program := s.program
          warnings := members.warnings + warnings
          outcome := match failure with
            | some e => .error e
            | none => .ok true }

/-- Runs the randomizer with the random stream of its seed. -/
def run (r : LayoutRandomizer) (p : Program) : PassRun LayoutRandomizer LayoutError :=
  r.runWith (ChaCha.stream r.options.seed) p

end LayoutRandomizer
end ThumbHardening
