import ThumbHardening.Proofs.FlowGraph
import ThumbHardening.Proofs.Immediate
import ThumbHardening.Proofs.Predication.Grouped
import Mathlib.Algebra.Group.Int.Defs

/-!
# Execution

What code does when it runs. Registers hold words of 32 bits, the flags are the upper four bits of the status
register. A word can only be loaded from the address of the random number generator, which gives out one
word of a sequence after the other; what is stored is written down and never loaded again.

Execution reads the code of a block from front to back, like `Code.Grouped` does: an `It` announces
conditions, and each instruction behind it takes effect if its condition holds. An instruction that needs a
group and has none, or whose group announces another condition for it, does not run at all, and neither does
one that has no meaning here. `Returns` therefore says that none of this happens and that the code comes to an
end.
-/

namespace ThumbHardening

/-- Where the global objects lie, and the random number generator. -/
structure Platform where
  addressOf : Nat → BitVec 32
  generator : BitVec 32
  reads : Nat → BitVec 32

/-- The registers, the number of words taken from the generator, and the stores with their addresses. -/
structure Machine where
  regs : PhysReg → BitVec 32
  drawn : Nat := 0
  stores : List (BitVec 32 × BitVec 32) := []

namespace Machine

def set (m : Machine) (r : PhysReg) (value : BitVec 32) : Machine :=
  { m with regs := fun other => if other = r then value else m.regs other }

def store (m : Machine) (address value : BitVec 32) : Machine :=
  { m with stores := m.stores ++ [(address, value)] }

/-- Takes the next word of the generator into a register. -/
def draw (m : Machine) (pl : Platform) (r : PhysReg) : Machine :=
  { m.set r (pl.reads m.drawn) with drawn := m.drawn + 1 }

def negative (m : Machine) : Bool := (m.regs .cpsr).getLsbD 31
def zero (m : Machine) : Bool := (m.regs .cpsr).getLsbD 30
def carry (m : Machine) : Bool := (m.regs .cpsr).getLsbD 29
def overflow (m : Machine) : Bool := (m.regs .cpsr).getLsbD 28

/-- Sets the flags as the subtraction `a - b` does. -/
def compare (m : Machine) (a b : BitVec 32) : Machine :=
  m.set .cpsr (BitVec.ofBool (a - b).msb ++ BitVec.ofBool (a == b) ++ BitVec.ofBool (decide (b ≤ a))
    ++ BitVec.ofBool (a.ssubOverflow b) ++ (m.regs .cpsr).setWidth 28)

variable (m : Machine) (r : PhysReg) (value address a b : BitVec 32) (pl : Platform)

theorem set_set (w : BitVec 32) : (m.set r value).set r w = m.set r w := by
  simp only [set, mk.injEq, and_true]
  funext other
  split <;> rfl

theorem regs_set (q : PhysReg) : (m.set r value).regs q = if q = r then value else m.regs q := rfl

@[simp] theorem drawn_set : (m.set r value).drawn = m.drawn := rfl
@[simp] theorem stores_set : (m.set r value).stores = m.stores := rfl
@[simp] theorem regs_store : (m.store address value).regs = m.regs := rfl
@[simp] theorem drawn_store : (m.store address value).drawn = m.drawn := rfl
@[simp] theorem regs_draw : (m.draw pl r).regs = (m.set r (pl.reads m.drawn)).regs := rfl
@[simp] theorem drawn_draw : (m.draw pl r).drawn = m.drawn + 1 := rfl
@[simp] theorem stores_draw : (m.draw pl r).stores = m.stores := rfl
@[simp] theorem drawn_compare : (m.compare a b).drawn = m.drawn := rfl
@[simp] theorem stores_compare : (m.compare a b).stores = m.stores := rfl

theorem regs_compare {q : PhysReg} (hq : q ≠ .cpsr) : (m.compare a b).regs q = m.regs q := by
  rw [compare, regs_set, if_neg hq]

theorem zero_compare : (m.compare a b).zero = (a == b) := by
  rw [zero, compare, regs_set, if_pos rfl]
  simp only [BitVec.getLsbD_append, Nat.reduceLT, Nat.reduceSub, if_false, if_true]
  cases a == b <;> rfl

/-- At most the given registers differ, and nothing else does. -/
structure Keeps (written : List PhysReg) (m t : Machine) : Prop where
  regs : ∀ r, r ∉ written → t.regs r = m.regs r
  stores : t.stores = m.stores

theorem Keeps.trans {written : List PhysReg} {m n t : Machine} (hmn : Keeps written m n)
    (hnt : Keeps written n t) : Keeps written m t :=
  ⟨fun r hr => (hnt.regs r hr).trans (hmn.regs r hr), hnt.stores.trans hmn.stores⟩

end Machine

namespace Cond

/-- Whether a condition holds for the flags. -/
def holds (c : Cond) (m : Machine) : Bool :=
  match c with
  | eq => m.zero
  | ne => !m.zero
  | hs => m.carry
  | lo => !m.carry
  | mi => m.negative
  | pl => !m.negative
  | vs => m.overflow
  | vc => !m.overflow
  | hi => m.carry && !m.zero
  | ls => !m.carry || m.zero
  | ge => m.negative == m.overflow
  | lt => m.negative != m.overflow
  | gt => !m.zero && (m.negative == m.overflow)
  | le => m.zero || (m.negative != m.overflow)
  | al => true

theorem holds_set {r : PhysReg} (hr : r ≠ .cpsr) (c : Cond) (m : Machine) (value : BitVec 32) :
    c.holds (m.set r value) = c.holds m := by
  have hflags : (m.set r value).regs .cpsr = m.regs .cpsr := by
    rw [Machine.regs_set, if_neg hr.symm]
  simp only [holds, Machine.zero, Machine.carry, Machine.negative, Machine.overflow, hflags]

end Cond

/-! ### Single instructions -/

namespace Platform
variable (pl : Platform)

/-- The value of an operand that stands for a word. -/
def word? (m : Machine) : Operand → Option (BitVec 32)
  | .reg (.phys r) => some (m.regs r)
  | .imm v => if 0 ≤ v ∧ v < 2 ^ 32 then some (BitVec.ofInt 32 v) else none
  | .symbol (.global id) offset .full => some (pl.addressOf id + BitVec.ofInt 32 offset)
  | _ => none

/-- The value of an operand that stands for half a word. -/
def half? : Operand → Option (BitVec 32)
  | .imm v => if 0 ≤ v ∧ v < 2 ^ 16 then some (BitVec.ofInt 32 v) else none
  | .symbol (.global id) offset .lo16 =>
    some ((pl.addressOf id + BitVec.ofInt 32 offset) &&& 0xffff#32)
  | .symbol (.global id) offset .hi16 => some ((pl.addressOf id + BitVec.ofInt 32 offset) >>> 16)
  | _ => none

/-- What an instruction leads to when it takes effect. -/
inductive Effect where
  | next (m : Machine)
  | jump (target : Nat)
  | leave

/-- What an instruction does when it takes effect, if it has a meaning here. -/
def perform (i : Instr) (m : Machine) : Option Effect :=
  match i.opcode, i.operands with
  | .nop, [] => some (.next m)
  | .copy, [.reg (.phys d), .reg (.phys a)] | .mov, [.reg (.phys d), .reg (.phys a)] =>
    some (.next (m.set d (m.regs a)))
  | .movImm, [.reg (.phys d), .imm v] => do
    let x ← pl.word? m (.imm v)
    if ExpandedImmediate x then some (.next (m.set d x)) else none
  | .movLo16, [.reg (.phys d), low] => do
    let x ← pl.half? low
    some (.next (m.set d x))
  | .movHi16, [.reg (.phys d), .reg (.phys e), high] => do
    let x ← pl.half? high
    if d = e then some (.next (m.set d (x <<< 16 ||| m.regs d &&& 0xffff#32))) else none
  | .add, [.reg (.phys d), a, b] => do
    let x ← pl.word? m a
    let y ← pl.word? m b
    some (.next (m.set d (x + y)))
  | .sub, [.reg (.phys d), a, b] => do
    let x ← pl.word? m a
    let y ← pl.word? m b
    some (.next (m.set d (x - y)))
  | .udiv, [.reg (.phys d), .reg (.phys a), .reg (.phys b)] =>
    some (.next (m.set d (m.regs a / m.regs b)))
  | .mls, [.reg (.phys d), .reg (.phys a), .reg (.phys b), .reg (.phys c)] =>
    some (.next (m.set d (m.regs c - m.regs a * m.regs b)))
  | .cmp, [a, b] => do
    let x ← pl.word? m a
    let y ← pl.word? m b
    some (.next (m.compare x y))
  | .load, [.reg (.phys d), base, .imm offset] => do
    let x ← pl.word? m base
    if x + BitVec.ofInt 32 offset = pl.generator then some (.next (m.draw pl d)) else none
  | .store, [.reg (.phys s), base, .imm offset] => do
    let x ← pl.word? m base
    some (.next (m.store (x + BitVec.ofInt 32 offset) (m.regs s)))
  | .branch, [.block target] | .branchCond, [.block target] => some (.jump target)
  | .ret, [] => some .leave
  | _, _ => none

theorem word?_imm (m : Machine) (x : BitVec 32) : pl.word? m (.imm x.toNat) = some x := by
  have hrange : (0 : Int) ≤ x.toNat ∧ (x.toNat : Int) < 2 ^ 32 := by
    have := x.isLt
    omega
  rw [word?, if_pos hrange, BitVec.ofInt_natCast, BitVec.ofNat_toNat, BitVec.setWidth_eq]

theorem half?_imm (x : BitVec 32) : pl.half? (.imm (x &&& 0xffff#32).toNat) = some (x &&& 0xffff#32) := by
  have hle : (x &&& 0xffff#32).toNat ≤ 0xffff := by
    rw [BitVec.toNat_and]
    exact Nat.and_le_right
  have hrange : (0 : Int) ≤ (x &&& 0xffff#32).toNat ∧ ((x &&& 0xffff#32).toNat : Int) < 2 ^ 16 := by
    omega
  rw [half?, if_pos hrange, BitVec.ofInt_natCast, BitVec.ofNat_toNat, BitVec.setWidth_eq]

end Platform

/-! ### Code -/

/-- The condition under which an instruction takes effect, and the conditions of its group that come after
it. -/
inductive Instr.Governed (i : Instr) : List Cond → Cond → List Cond → Prop
  | alone : i.isDebug = false → i.isIt = false → i.Bare → Governed i [] i.pred []
  | member {c later} : i.isDebug = false → i.Meets c later → Governed i (c :: later) c later

/-- Execution of the rest of a block, behind which its edges lead on, returns. The conditions `pending` of
the group in which it starts are still to be met. -/
inductive Returns (pl : Platform) (g : FlowGraph) :
    Block → Code → (pending : List Cond) → Machine → Machine → Prop
  | fall {b target id m t} : b.next? = some id → g.block? id = some target →
      Returns pl g target target.instrs [] m t → Returns pl g b [] [] m t
  | debug {b i rest pending m t} : i.isDebug = true → Returns pl g b rest pending m t →
      Returns pl g b (i :: rest) pending m t
  | it {b i rest conds m t} : i.announced? = some conds → Returns pl g b rest conds m t →
      Returns pl g b (i :: rest) [] m t
  | skip {b i rest pending c later m t} : i.Governed pending c later → c.holds m = false →
      Returns pl g b rest later m t → Returns pl g b (i :: rest) pending m t
  | next {b i rest pending c later m n t} : i.Governed pending c later → c.holds m = true →
      pl.perform i m = some (.next n) → Returns pl g b rest later n t →
      Returns pl g b (i :: rest) pending m t
  | jump {b target i rest pending c id m t} : i.Governed pending c [] → c.holds m = true →
      pl.perform i m = some (.jump id) → g.block? id = some target →
      Returns pl g target target.instrs [] m t → Returns pl g b (i :: rest) pending m t
  | leave {b i rest pending c m} : i.Governed pending c [] → c.holds m = true →
      pl.perform i m = some .leave → Returns pl g b (i :: rest) pending m m

/-- Execution of a function with this body returns. -/
def FlowGraph.Returns (g : FlowGraph) (pl : Platform) (m t : Machine) : Prop :=
  ∃ b, g.block? g.entry = some b ∧ ThumbHardening.Returns pl g b b.instrs [] m t

variable {pl : Platform} {g : FlowGraph} {b : Block} {i : Instr} {rest : Code}
  {pending : List Cond} {m n t u : Machine}

theorem Instr.Governed.unique {c d : Cond} {later others : List Cond}
    (h : i.Governed pending c later) (h' : i.Governed pending d others) : c = d ∧ later = others := by
  cases h <;> cases h' <;> exact ⟨rfl, rfl⟩

theorem Instr.Governed.isDebug {c : Cond} {later : List Cond} (h : i.Governed pending c later) :
    i.isDebug = false := by
  cases h <;> assumption

theorem Instr.Governed.announced? {c : Cond} {later : List Cond} (h : i.Governed pending c later) :
    i.announced? = none := by
  apply announced?_eq_none
  cases h with
  | alone _ hit _ => exact hit
  | member _ hmeets => exact Code.isIt_of_needsGroup hmeets.needs

theorem announced?_of_isDebug (hdebug : i.isDebug = true) : i.announced? = none :=
  Instr.announced?_eq_none (Code.isIt_of_isDebug hdebug)

/-- Execution returns with one result at most. -/
theorem Returns.unique (ht : Returns pl g b rest pending m t) (hu : Returns pl g b rest pending m u) :
    t = u := by
  induction ht with
  | fall | debug | it | skip | next | jump | leave =>
    cases hu <;> grind [Instr.Governed.unique, Instr.Governed.isDebug, Instr.Governed.announced?,
      announced?_of_isDebug]

theorem Instr.Governed.of_pred_al (hdebug : i.isDebug = false) (hit : i.isIt = false)
    (hpred : i.pred = .al) : i.Governed [] .al [] := by
  have hbare : i.Bare := by simp [Instr.Bare, needsGroup, isConditional, hpred]
  have hgoverned := Instr.Governed.alone hdebug hit hbare
  rwa [hpred] at hgoverned

/-- An unconditional instruction outside of groups takes effect. -/
theorem Returns.plain (hdebug : i.isDebug = false) (hit : i.isIt = false) (hpred : i.pred = .al)
    (hperform : pl.perform i m = some (.next n)) (hrest : Returns pl g b rest [] n t) :
    Returns pl g b (i :: rest) [] m t :=
  .next (.of_pred_al hdebug hit hpred) rfl hperform hrest

/-! ### Straight code -/

/-- An instruction outside of groups that takes effect whatever the flags are. -/
structure Instr.Plain (i : Instr) : Prop where
  isDebug : i.isDebug = false
  isIt : i.isIt = false
  pred : i.pred = .al

/-- What code leaves behind if each instruction of it takes effect and goes on to the next one. -/
def Platform.run? (pl : Platform) : Code → Machine → Option Machine
  | [], m => some m
  | i :: rest, m =>
    match pl.perform i m with
    | some (.next n) => pl.run? rest n
    | _ => none

theorem Platform.run?_cons (hperform : pl.perform i m = some (.next n)) : pl.run? (i :: rest) m = pl.run? rest n := by
  rw [run?, hperform]

/-- Straight code is executed in front of other code. -/
theorem Returns.of_run? {code : Code} (hplain : ∀ i ∈ code, i.Plain) (hrun : pl.run? code m = some n)
    (hrest : Returns pl g b rest [] n t) : Returns pl g b (code ++ rest) [] m t := by
  induction code generalizing m with
  | nil =>
    cases hrun
    exact hrest
  | cons i code ih =>
    obtain ⟨hi, hcode⟩ := List.forall_mem_cons.mp hplain
    rw [Platform.run?] at hrun
    split at hrun
    · next hperform => exact .plain hi.isDebug hi.isIt hi.pred hperform (ih hcode hrun)
    · cases hrun

end ThumbHardening
