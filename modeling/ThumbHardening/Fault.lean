/-!
# Faults

Conditions under which an operation has no answer, not even an error of its own: its caller broke a rule
that every caller has to keep.
-/

namespace ThumbHardening

/-- What makes an operation impossible. -/
inductive Fault where
  /-- An instruction that replaces the upper half of a register names no register. -/
  | missingOperand
  /-- Liveness never settles because blocks share an ID. -/
  | endlessLiveness
  /-- An operand is to be replaced that the instruction does not have. -/
  | operandRange
  /-- A value number that the graph has not given out. -/
  | unknownValue
  /-- An object that does not fit the memory. -/
  | outOfMemory
  /-- Sizes that do not add up to a 64-bit number. -/
  | sizeOverflow
  deriving DecidableEq, Repr

def Fault.message : Fault → String
  | .missingOperand => "An instruction lacks its first operand"
  | .endlessLiveness => "Liveness does not settle"
  | .operandRange => "An instruction has no operand at this position"
  | .unknownValue => "The graph has no value with this number"
  | .outOfMemory => "An object does not fit the memory"
  | .sizeOverflow => "The sizes of the objects do not add up to 64 bits"

end ThumbHardening
