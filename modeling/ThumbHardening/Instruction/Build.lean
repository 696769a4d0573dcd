import ThumbHardening.Instruction

/-!
# Building instructions

One function per form of instruction that code is made of.
-/

namespace ThumbHardening
namespace Instr

def nop : Instr := ⟨.nop, [], .al⟩

def debugMark : Instr := ⟨.debug, [], .al⟩

def trap (value : Int) : Instr := ⟨.trap, [.imm value], .al⟩

/-- Opens a predicated group. -/
def it (first : Cond) (mask : Nat) : Instr :=
  ⟨.it, [.imm first.code, .imm mask], .al⟩

def copy (dst src : Reg) : Instr := ⟨.copy, [.reg dst, .reg src], .al⟩

def mov (dst src : Reg) : Instr := ⟨.mov, [.reg dst, .reg src], .al⟩

def movImm (dst : Reg) (value : Int) : Instr := ⟨.movImm, [.reg dst, .imm value], .al⟩

def movw (dst : Reg) (low : Operand) : Instr := ⟨.movLo16, [.reg dst, low], .al⟩

def movt (dst : Reg) (high : Operand) : Instr := ⟨.movHi16, [.reg dst, .reg dst, high], .al⟩

def add (dst src : Reg) (operand : Operand) : Instr := ⟨.add, [.reg dst, .reg src, operand], .al⟩

def sub (dst src : Reg) (operand : Operand) : Instr := ⟨.sub, [.reg dst, .reg src, operand], .al⟩

def udiv (dst lhs rhs : Reg) : Instr := ⟨.udiv, [.reg dst, .reg lhs, .reg rhs], .al⟩

def mls (dst a b c : Reg) : Instr := ⟨.mls, [.reg dst, .reg a, .reg b, .reg c], .al⟩

def cmp (lhs : Reg) (rhs : Operand) : Instr := ⟨.cmp, [.reg lhs, rhs], .al⟩

def load (dst : Reg) (base : Operand) (offset : Int) : Instr :=
  ⟨.load, [.reg dst, base, .imm offset], .al⟩

def store (src : Reg) (base : Operand) (offset : Int) : Instr :=
  ⟨.store, [.reg src, base, .imm offset], .al⟩

def push (regs : List PhysReg) : Instr := ⟨.push, regs.map .ofPhys, .al⟩

def pop (regs : List PhysReg) : Instr := ⟨.pop, regs.map .ofPhys, .al⟩

def branch (target : Nat) : Instr := ⟨.branch, [.block target], .al⟩

def branchCond (cond : Cond) (target : Nat) : Instr := ⟨.branchCond, [.block target], cond⟩

def call (target : Symbol) : Instr := ⟨.call, [.address target], .al⟩

def callExternal (name : String) : Instr := ⟨.call, [.external name], .al⟩

def callIndirect (target : Reg) : Instr := ⟨.callIndirect, [.reg target], .al⟩

def tailCall (target : Symbol) : Instr := ⟨.tailCall, [.address target], .al⟩

def tailCallExternal (name : String) : Instr := ⟨.tailCall, [.external name], .al⟩

def tailCallIndirect (target : Reg) : Instr := ⟨.tailCallIndirect, [.reg target], .al⟩

def ret : Instr := ⟨.ret, [], .al⟩

end Instr
end ThumbHardening
