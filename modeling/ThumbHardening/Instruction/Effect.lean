import ThumbHardening.Instruction

/-!
# Registers read and written

The physical registers that an instruction reads and writes, both through its operands and by the
calling convention. Leaving a function reads everything that the caller relies on.
-/

namespace ThumbHardening

/-- The registers whose values matter once control has left the function. -/
def exitRegisters : RegSet :=
  .ofList (PhysReg.calleeSaved ++ [.r0, .r1, .sp])

namespace Instr

/-- The physical registers among operands. -/
def physRegs (operands : List Operand) : RegSet :=
  .ofList (operands.filterMap Operand.phys?)

def readOperands (i : Instr) : List Operand :=
  match i.opcode with
  | .pop => []
  | .movHi16 => i.operands.drop 1
  | opcode => i.operands.drop opcode.numDefs

def writtenOperands (i : Instr) : List Operand :=
  match i.opcode with
  | .pop => i.operands
  | opcode => i.operands.take opcode.numDefs

/-- The registers read because of the opcode alone. -/
def implicitUses : Opcode → RegSet
  | .push | .pop | .load | .store => .ofList [.sp]
  | .call | .callIndirect | .callIndirectLimited => .ofList (PhysReg.arguments ++ [.sp])
  | .tailCall | .tailCallIndirect =>
    exitRegisters.union (.ofList (PhysReg.lr :: PhysReg.arguments))
  | .ret => exitRegisters.union (.ofList [.lr])
  | _ => .empty

/-- The registers written because of the opcode alone. -/
def implicitDefs : Opcode → RegSet
  | .cmp => .ofList [.cpsr]
  | .push | .pop => .ofList [.sp]
  | .call | .callIndirect | .callIndirectLimited => .ofList PhysReg.callClobbered
  | _ => .empty

/-- The physical registers written by the instruction. -/
def physDefs (i : Instr) : RegSet :=
  (physRegs i.writtenOperands).union (implicitDefs i.opcode)

/-- The status register, if the instruction looks at it. -/
def flagUses (i : Instr) : RegSet :=
  if i.isConditional || i.isIt then .ofList [.cpsr] else .empty

/-- The physical registers read by the instruction. -/
def physUses (i : Instr) : RegSet :=
  let base := ((physRegs i.readOperands).union i.flagUses).union (implicitUses i.opcode)
  if i.popsPc then base.union (exitRegisters.diff i.physDefs) else base

/-- Whether the registers read are defined at all: replacing the upper half of a register needs one. -/
def hasUses (i : Instr) : Bool :=
  !(i.opcode = .movHi16 && i.operands.isEmpty)

end Instr
end ThumbHardening
