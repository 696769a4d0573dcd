import ThumbHardening.Condition
import ThumbHardening.Register

/-!
# Instructions

An instruction is an opcode, its operands and the condition under which it executes. Operands before
register allocation may be virtual registers; addresses are symbols with an offset, of which a 16-bit half
can be taken.
-/

namespace ThumbHardening

/-- Something with an address and a name in a program. -/
inductive Symbol where
  | function (id : Nat)
  | global (id : Nat)
  | aliased (id : Nat)
  deriving DecidableEq, Repr

/-- The written form of a symbol in messages. -/
def Symbol.describe : Symbol → String
  | .function id => s!"Function({id})"
  | .global id => s!"Global({id})"
  | .aliased id => s!"Alias({id})"

/-- The part of a symbol's address that an operand stands for. -/
inductive AddrPart where
  | full | lo16 | hi16
  deriving DecidableEq, Repr

def AddrPart.name : AddrPart → String
  | full => "Full"
  | lo16 => "Lo16"
  | hi16 => "Hi16"

def AddrPart.ofName? (text : String) : Option AddrPart :=
  [full, lo16, hi16].find? (·.name == text)

inductive Operand where
  | reg (reg : Reg)
  | imm (value : Int)
  | symbol (symbol : Symbol) (offset : Int) (part : AddrPart)
  /-- A name that the linker resolves and the program does not know. -/
  | external (name : String)
  /-- A basic block of the same function. -/
  | block (id : Nat)
  /-- A stack object of the same function. -/
  | frame (id : Nat)
  deriving DecidableEq, Repr

namespace Operand

/-- A physical register as an operand. -/
def ofPhys (r : PhysReg) : Operand :=
  .reg (.phys r)

/-- The whole address of a symbol. -/
def address (s : Symbol) : Operand :=
  .symbol s 0 .full

/-- The register, if the operand is one. -/
def reg? : Operand → Option Reg
  | .reg r => some r
  | _ => none

/-- The physical register, if the operand is one. -/
def phys? : Operand → Option PhysReg
  | .reg (.phys r) => some r
  | _ => none

end Operand

/-- The opcodes, with the meaning of their operands. -/
inductive Opcode where
  /-- Opens a predicated group: first condition, mask. -/
  | it
  /-- A register copy before register allocation: destination, source. -/
  | copy
  | mov
  /-- Loads a modified immediate: destination, immediate. -/
  | movImm
  /-- Loads a 16-bit value and clears the upper half: destination, value. -/
  | movLo16
  /-- Replaces the upper half: destination, destination, value. -/
  | movHi16
  | add
  | sub
  | udiv
  /-- Multiply and subtract: destination, `a`, `b`, `c` gives `c - a * b`. -/
  | mls
  | cmp
  /-- Loads a word: destination, base, offset. -/
  | load
  /-- Stores a word: source, base, offset. -/
  | store
  | push
  | pop
  /-- A branch, conditional only inside a predicated group. -/
  | branch
  /-- A branch that carries its condition itself. -/
  | branchCond
  /-- A call of a symbol or an external name. -/
  | call
  /-- A call through a register. -/
  | callIndirect
  /-- A call through a register that the call limiter has chosen. -/
  | callIndirectLimited
  | tailCall
  | tailCallIndirect
  | ret
  /-- A permanently undefined instruction whose operand can hold an address. -/
  | trap
  | nop
  /-- Debug information, which produces no code. -/
  | debug
  deriving DecidableEq, Repr

namespace Opcode

def all : List Opcode :=
  [it, copy, mov, movImm, movLo16, movHi16, add, sub, udiv, mls, cmp, load, store, push, pop, branch,
    branchCond, call, callIndirect, callIndirectLimited, tailCall, tailCallIndirect, ret, trap, nop,
    debug]

def name : Opcode → String
  | it => "It" | copy => "Copy" | mov => "Mov" | movImm => "MovImm" | movLo16 => "MovLo16"
  | movHi16 => "MovHi16" | add => "Add" | sub => "Sub" | udiv => "Udiv" | mls => "Mls" | cmp => "Cmp"
  | load => "Load" | store => "Store" | push => "Push" | pop => "Pop" | branch => "Branch"
  | branchCond => "BranchCond" | call => "Call" | callIndirect => "CallIndirect"
  | callIndirectLimited => "CallIndirectLimited" | tailCall => "TailCall"
  | tailCallIndirect => "TailCallIndirect" | ret => "Return" | trap => "Trap" | nop => "Nop"
  | debug => "Debug"

def ofName? (text : String) : Option Opcode :=
  all.find? (·.name == text)

/-- The encoded size in bytes. -/
def size : Opcode → Nat
  | debug => 0
  | it | copy | mov | cmp | push | pop | branch | callIndirect | callIndirectLimited
  | tailCallIndirect | ret | nop => 2
  | movImm | movLo16 | movHi16 | add | sub | udiv | mls | load | store | branchCond | call
  | tailCall | trap => 4

/-- How many leading operands the instruction writes. -/
def numDefs : Opcode → Nat
  | copy | mov | movImm | movLo16 | movHi16 | add | sub | udiv | mls | load => 1
  | _ => 0

/-- Whether the encoding holds the condition, so that no group is needed. -/
def hasInlinePredicate : Opcode → Bool
  | branchCond => true
  | _ => false

def isCall : Opcode → Bool
  | call | callIndirect | callIndirectLimited => true
  | _ => false

def isTailCall : Opcode → Bool
  | tailCall | tailCallIndirect => true
  | _ => false

/-- Whether the instruction must be the last one of a predicated group. -/
def endsGroup : Opcode → Bool
  | branch | branchCond | call | callIndirect | callIndirectLimited | tailCall | tailCallIndirect
  | ret | it => true
  | _ => false

end Opcode

structure Instr where
  opcode : Opcode
  operands : List Operand := []
  pred : Cond := .al
  deriving DecidableEq, Repr

namespace Instr

def size (i : Instr) : Nat :=
  i.opcode.size

def isDebug (i : Instr) : Bool :=
  i.opcode = .debug

def isIt (i : Instr) : Bool :=
  i.opcode = .it

/-- Whether the instruction may be skipped at run time. -/
def isConditional (i : Instr) : Bool :=
  i.pred ≠ .al

/-- Whether an `It` instruction has to cover this one. -/
def needsGroup (i : Instr) : Bool :=
  i.isConditional && !i.opcode.hasInlinePredicate && !i.isIt

/-- The condition and the mask of an `It` instruction. Both are bytes. -/
def itFields? (i : Instr) : Option (Cond × Nat) :=
  match i.opcode, i.operands with
  | .it, .imm first :: .imm mask :: _ =>
    (Cond.ofCode? (first % 256).toNat).map fun c => (c, (mask % 256).toNat)
  | _, _ => none

/-- Whether the instruction takes the program counter from the stack. -/
def popsPc (i : Instr) : Bool :=
  i.opcode = .pop && i.operands.contains (.ofPhys .pc)

/-- Whether the instruction leaves its function. -/
def isReturn (i : Instr) : Bool :=
  i.opcode = .ret || i.opcode.isTailCall || i.popsPc

/-- Replaces the operand at position `k`, which has to exist. -/
def setOperand? (i : Instr) (k : Nat) (operand : Operand) : Option Instr :=
  if k < i.operands.length then some { i with operands := i.operands.set k operand } else none

end Instr
end ThumbHardening
