/-!
# Registers

The physical registers of the Thumb-2 instruction set with the status register, sets of them, and the
register classes that limit which physical registers a virtual register may later become.

A register set is a word with one bit per register. Its only view is membership, and it lists its
members in encoding order.
-/

namespace ThumbHardening

inductive PhysReg where
  | r0 | r1 | r2 | r3 | r4 | r5 | r6 | r7 | r8 | r9 | r10 | r11 | r12
  | sp | lr | pc | cpsr
  deriving DecidableEq, Repr

namespace PhysReg

/-- All physical registers in encoding order. -/
def all : List PhysReg :=
  [r0, r1, r2, r3, r4, r5, r6, r7, r8, r9, r10, r11, r12, sp, lr, pc, cpsr]

/-- The position of a register in encoding order. -/
def number : PhysReg → Nat
  | r0 => 0 | r1 => 1 | r2 => 2 | r3 => 3 | r4 => 4 | r5 => 5 | r6 => 6 | r7 => 7 | r8 => 8
  | r9 => 9 | r10 => 10 | r11 => 11 | r12 => 12 | sp => 13 | lr => 14 | pc => 15 | cpsr => 16

def name : PhysReg → String
  | r0 => "r0" | r1 => "r1" | r2 => "r2" | r3 => "r3" | r4 => "r4" | r5 => "r5" | r6 => "r6"
  | r7 => "r7" | r8 => "r8" | r9 => "r9" | r10 => "r10" | r11 => "r11" | r12 => "r12"
  | sp => "sp" | lr => "lr" | pc => "pc" | cpsr => "cpsr"

/-- The register with the given assembler name. -/
def ofName? (text : String) : Option PhysReg :=
  all.find? (·.name == text)

/-- Registers `r0` to `r7` fit the register fields of 16-bit instructions. -/
def isLow (r : PhysReg) : Bool :=
  r.number ≤ 7

theorem number_lt (r : PhysReg) : r.number < 17 := by
  cases r <;> decide

theorem number_injective {a b : PhysReg} (h : a.number = b.number) : a = b := by
  cases a <;> cases b <;> first | rfl | simp [number] at h

theorem mem_all (r : PhysReg) : r ∈ all := by
  cases r <;> decide

/-- The register that holds the return address of a call. -/
def link : PhysReg := lr

/-- The registers that carry the first arguments of a call. -/
def arguments : List PhysReg := [r0, r1, r2, r3]

/-- The registers whose values a callee gives back unchanged. -/
def calleeSaved : List PhysReg := [r4, r5, r6, r7, r8, r9, r10, r11]

/-- The registers that a call may overwrite. -/
def callClobbered : List PhysReg := [r0, r1, r2, r3, r12, lr, cpsr]

end PhysReg

/-- A register operand: a physical register, or a virtual one before register allocation. -/
inductive Reg where
  | phys (reg : PhysReg)
  | virt (number : Nat)
  deriving DecidableEq, Repr

structure RegSet where
  bits : BitVec 17
  deriving DecidableEq, Repr

namespace RegSet

/-- The set without members. -/
def empty : RegSet := ⟨0#17⟩

/-- The word in which only the bit of `r` is set. -/
def single (r : PhysReg) : BitVec 17 :=
  BitVec.twoPow 17 r.number

def contains (s : RegSet) (r : PhysReg) : Bool :=
  s.bits.getLsbD r.number

def insert (s : RegSet) (r : PhysReg) : RegSet :=
  ⟨s.bits ||| single r⟩

def erase (s : RegSet) (r : PhysReg) : RegSet :=
  ⟨s.bits &&& ~~~ single r⟩

def union (s t : RegSet) : RegSet :=
  ⟨s.bits ||| t.bits⟩

def inter (s t : RegSet) : RegSet :=
  ⟨s.bits &&& t.bits⟩

def diff (s t : RegSet) : RegSet :=
  ⟨s.bits &&& ~~~ t.bits⟩

def isEmpty (s : RegSet) : Bool :=
  s.bits == 0#17

/-- The members in encoding order. -/
def toList (s : RegSet) : List PhysReg :=
  PhysReg.all.filter s.contains

def size (s : RegSet) : Nat :=
  s.toList.length

def ofList (regs : List PhysReg) : RegSet :=
  regs.foldl insert empty

@[simp] theorem contains_empty (r : PhysReg) : empty.contains r = false := by
  simp [contains, empty]

@[simp] theorem contains_union (s t : RegSet) (r : PhysReg) :
    (s.union t).contains r = (s.contains r || t.contains r) := by
  simp [contains, union]

@[simp] theorem contains_inter (s t : RegSet) (r : PhysReg) :
    (s.inter t).contains r = (s.contains r && t.contains r) := by
  simp [contains, inter]

@[simp] theorem contains_diff (s t : RegSet) (r : PhysReg) :
    (s.diff t).contains r = (s.contains r && !t.contains r) := by
  simp [contains, diff, r.number_lt]

private theorem getLsbD_single (a r : PhysReg) : (single a).getLsbD r.number = decide (r = a) := by
  cases a <;> cases r <;> decide

@[simp] theorem contains_insert (s : RegSet) (a r : PhysReg) :
    (s.insert a).contains r = (s.contains r || decide (r = a)) := by
  simp [contains, insert, getLsbD_single]

@[simp] theorem contains_erase (s : RegSet) (a r : PhysReg) :
    (s.erase a).contains r = (s.contains r && !decide (r = a)) := by
  rw [contains, erase, BitVec.getLsbD_and, BitVec.getLsbD_not, getLsbD_single, contains,
    decide_eq_true r.number_lt, Bool.true_and]

/-- Two sets with the same members are equal. -/
theorem ext_contains {s t : RegSet} (h : ∀ r, s.contains r = t.contains r) : s = t := by
  cases s with
  | mk a =>
    cases t with
    | mk b =>
      congr 1
      apply BitVec.eq_of_getLsbD_eq
      intro i hi
      have hreg : ∃ r : PhysReg, r.number = i := by
        have listed : ∀ j : Fin 17, (PhysReg.all.getD j.val .r0).number = j.val := by decide
        exact ⟨_, listed ⟨i, hi⟩⟩
      obtain ⟨r, rfl⟩ := hreg
      exact h r

theorem contains_ofList (regs : List PhysReg) (r : PhysReg) :
    (ofList regs).contains r = decide (r ∈ regs) := by
  have step : ∀ s : RegSet, (regs.foldl insert s).contains r = (s.contains r || decide (r ∈ regs)) := by
    induction regs with
    | nil => simp
    | cons a rest ih =>
      intro s
      simp only [List.foldl_cons, ih, contains_insert, List.mem_cons, Bool.decide_or, Bool.or_assoc]
  simpa [ofList] using step empty

end RegSet

/-- A class of physical registers that a virtual register may be assigned to. -/
inductive RegClass where
  /-- All general-purpose registers and the link register. -/
  | gpr
  /-- The registers that fit 16-bit instructions. -/
  | lowGpr
  /-- Caller-saved registers, which no function spills as callee-saved ones. -/
  | tailCall
  /-- The caller-saved registers that fit 16-bit instructions. -/
  | lowTailCall
  deriving DecidableEq, Repr

namespace RegClass
open PhysReg

/-- The classes, larger ones first. -/
def all : List RegClass := [gpr, lowGpr, tailCall, lowTailCall]

def name : RegClass → String
  | gpr => "Gpr"
  | lowGpr => "LowGpr"
  | tailCall => "TailCall"
  | lowTailCall => "LowTailCall"

def ofName? (text : String) : Option RegClass :=
  all.find? (·.name == text)

def registers : RegClass → RegSet
  | gpr => .ofList [r0, r1, r2, r3, r4, r5, r6, r7, r8, r9, r10, r11, r12, lr]
  | lowGpr => .ofList [r0, r1, r2, r3, r4, r5, r6, r7]
  | tailCall => .ofList [r0, r1, r2, r3, r12]
  | lowTailCall => .ofList PhysReg.arguments

def contains (c : RegClass) (r : PhysReg) : Bool :=
  c.registers.contains r

/-- The class whose registers are those that both classes share. -/
def common? (a b : RegClass) : Option RegClass :=
  all.find? fun c => c.registers = a.registers.inter b.registers

end RegClass
end ThumbHardening
