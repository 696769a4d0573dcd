import ThumbHardening.CallGraph

/-!
# Spills of the link register

A function may spill its return address to memory if its code is not known, if its prologue saves the link
register, or if it hands control by a tail call to code that may do so. Among functions that only tail-call
each other nothing is assumed, so the answer is the least set closed under these rules.

There is one answer for each ID. Functions that share an ID enter their answers one over the other, so of what
they do themselves only the last one's counts there. What tail calls add is kept, and those that tail-call the
ID are counted for each of its functions.
-/

namespace ThumbHardening

/-- Why the leakage of a program cannot be told. -/
inductive LeakageError where
  | program (error : ProgramError)
  | unexpectedOperand (function : String) (opcode : Opcode)
  deriving DecidableEq, Repr

def LeakageError.label : LeakageError → String
  | .program error => "Ir." ++ error.label
  | .unexpectedOperand _ _ => "UnexpectedOperand"

def LeakageError.message : LeakageError → String
  | .program error => "Could not resolve a call target: " ++ error.message
  | .unexpectedOperand function opcode =>
    "Unrecognized operand of " ++ opcode.name ++ s!" in function {function}"

/-- The target of a direct call or tail call. -/
inductive CallTarget where
  | internal (function : Nat)
  | external
  deriving DecidableEq, Repr

/-- The target of a direct call or tail call, which has to be a symbol or an external name. -/
def Program.callTarget (p : Program) (function : String) (i : Instr) :
    Except LeakageError CallTarget :=
  match i.operands with
  | .symbol symbol _ _ :: _ =>
    match p.resolveFunction symbol with
    | .ok id => .ok (.internal id)
    | .error e => .error (.program e)
  | .external _ :: _ => .ok .external
  | _ => .error (.unexpectedOperand function i.opcode)

/-- Where a function may hand control by tail calls. -/
structure TailCalls where
  function : Nat
  /-- Whether the function may spill the link register whatever its known tail callees do. -/
  spills : Bool
  /-- The functions that it tail-calls. -/
  callees : List Nat := []
  deriving DecidableEq, Repr

namespace TailCalls

/-- Takes one instruction into account. -/
def extend (p : Program) (name : String) (t : TailCalls) (i : Instr) :
    Except LeakageError TailCalls :=
  match i.opcode with
  | .tailCall =>
    (p.callTarget name i).map fun
      | .internal id => { t with callees := t.callees ++ [id] }
      | .external => { t with spills := true }
  | .tailCallIndirect => .ok { t with spills := true }
  | _ => .ok t

def ofFunction (p : Program) (f : Function) : Except LeakageError TailCalls :=
  let unknown := f.body.isNone || f.calleeSaved.isNone
  f.instrs.foldlM (extend p f.name) { function := f.id, spills := unknown || f.savesLink }

end TailCalls

/-- Which functions may spill the link register. -/
structure LinkSpill where
  /-- The functions of the program. -/
  known : List Nat
  spilling : List Nat
  deriving DecidableEq, Repr

namespace LinkSpill

/-- Adds the functions that tail-call one of `spilling`. -/
def spread (calls : List TailCalls) (spilling : List Nat) : List Nat :=
  (calls.filter fun t =>
    t.spills || spilling.contains t.function || t.callees.any spilling.contains).map
      TailCalls.function

/-- Repeats `spread` until nothing is added, or `rounds` times. -/
def spreadAll (calls : List TailCalls) : (rounds : Nat) → List Nat → List Nat
  | 0, spilling => spilling
  | rounds + 1, spilling =>
    let larger := spread calls spilling
    if larger.length = spilling.length then spilling else spreadAll calls rounds larger

/-- The answer for a function before tail calls are followed, which is the one that was entered last. -/
def lastEntry (calls : List TailCalls) (function : Nat) : Bool :=
  (calls.reverse.find? fun t => t.function = function).any TailCalls.spills

/-- The functions with the answer yes in the end: it was entered last, or the function tail-calls one of `reaching`. -/
def settle (calls : List TailCalls) (reaching : List Nat) : List Nat :=
  (calls.filter fun t => lastEntry calls t.function || t.callees.any reaching.contains).map TailCalls.function

/-- The functions of a program that may spill the link register. Every round but the last adds a function. -/
def compute (p : Program) : Except LeakageError LinkSpill :=
  (p.functions.elems.mapM (TailCalls.ofFunction p)).map fun calls =>
    { known := calls.map TailCalls.function
      spilling := settle calls (spreadAll calls (calls.length + 1) []) }

/-- Whether a function may spill the link register. Functions that are not known may do anything. -/
def canSpill (s : LinkSpill) (function : Nat) : Bool :=
  !s.known.contains function || s.spilling.contains function

end LinkSpill
end ThumbHardening
