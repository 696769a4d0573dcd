import ThumbHardening.CallLimit
import ThumbHardening.Proofs.Predication.Insertion

/-!
# Limited code

What limiting its indirect calls does to code. Apart from `It` instructions, the code stays as it is, but each
call goes through a register that no function saves, and where that is a new one a copy stands in front of it.
One call is limited after the other, and the registers that calls before it go through fit ever after, since
classes only get narrower.
-/

namespace ThumbHardening
namespace CallLimit
open Code

/-- The registers that no function saves for its caller. -/
def unsaved : List PhysReg := [.r0, .r1, .r2, .r3, .r12]

/-- A register that is one of the unsaved ones, or can only become one. -/
def Fits (registers : Registers) : Reg → Prop
  | .phys r => r ∈ unsaved
  | .virt number => registers.allocated = false ∧
    ∃ c, registers.class? number = some c ∧ ∀ r, c.contains r = true → r ∈ unsaved

/-- The copy in front of a call. It takes over the condition of the call. -/
inductive Copies (call : Instr) (new target : Reg) : Instr → Prop
  | mov : Copies call new target ⟨.mov, [.reg new, .reg target], call.pred⟩
  | copy : call.pred = .al → Copies call new target ⟨.copy, [.reg new, .reg target], call.pred⟩

/-- Code without `It` instructions, before and after its calls are limited. -/
inductive Limited (registers : Registers) : Code → Code → Prop
  | nil : Limited registers [] []
  | other {i code code'} : isUnlimited i = false → Limited registers code code' →
      Limited registers (i :: code) (i :: code')
  | inPlace {call target code code'} : isUnlimited call = true →
      call.operands.head? = some (.reg target) → Fits registers target →
      Limited registers code code' → Limited registers (call :: code) (retarget target call :: code')
  | copied {call target new copy code code'} : isUnlimited call = true →
      call.operands.head? = some (.reg target) → Fits registers new → Copies call new target copy →
      Limited registers code code' →
      Limited registers (call :: code) (copy :: retarget new call :: code')

/-! ### Registers -/

/-- Registers of which none is lost and each can become less. -/
structure Narrows (registers later : Registers) : Prop where
  allocated : later.allocated = registers.allocated
  classes : ∀ number c, registers.class? number = some c →
    ∃ c', later.class? number = some c' ∧ ∀ r, c'.contains r = true → c.contains r = true

variable {registers later : Registers} {number : Nat}

theorem contains_tailCall {r : PhysReg} : RegClass.tailCall.contains r = true ↔ r ∈ unsaved := by
  rw [RegClass.contains, RegClass.registers, RegSet.contains_ofList, decide_eq_true_eq]
  rfl

theorem Narrows.refl (registers : Registers) : Narrows registers registers :=
  ⟨rfl, fun _ c h => ⟨c, h, fun _ => id⟩⟩

theorem Narrows.trans {last : Registers} (h : Narrows registers later) (h' : Narrows later last) :
    Narrows registers last := by
  refine ⟨h'.allocated.trans h.allocated, fun number c hc => ?_⟩
  obtain ⟨c', hc', hsub⟩ := h.classes number c hc
  obtain ⟨c'', hc'', hsub'⟩ := h'.classes number c' hc'
  exact ⟨c'', hc'', fun r hr => hsub r (hsub' r hr)⟩

theorem Fits.mono {r : Reg} (hfits : Fits registers r) (h : Narrows registers later) :
    Fits later r := by
  cases r with
  | phys r => exact hfits
  | virt number =>
    obtain ⟨hallocated, c, hc, hunsaved⟩ := hfits
    obtain ⟨c', hc', hsub⟩ := h.classes number c hc
    exact ⟨h.allocated.trans hallocated, c', hc', fun r hr => hunsaved r (hsub r hr)⟩

theorem class?_create {c : RegClass} (h : registers.class? number = some c) (new : RegClass) :
    (registers.create new).class? number = some c := by
  have hlt := (List.getElem?_eq_some_iff.mp h).1
  rw [Registers.class?, Registers.create, List.getElem?_append_left hlt]
  exact h

theorem narrows_create (registers : Registers) (c : RegClass) :
    Narrows registers (registers.create c) :=
  ⟨rfl, fun _ c' hc' => ⟨c', class?_create hc' c, fun _ => id⟩⟩

theorem fits_fresh (hallocated : registers.allocated = false) :
    Fits (registers.create .tailCall) (.virt registers.fresh) := by
  refine ⟨hallocated, .tailCall, ?_, fun r => contains_tailCall.mp⟩
  simp [Registers.create, Registers.fresh, Registers.class?]

/-- Every class has a class in common with that of the unsaved registers. -/
theorem common?_tailCall (c : RegClass) :
    ∃ common, c.common? .tailCall = some common ∧
      ∀ r, common.contains r = true → c.contains r = true ∧ r ∈ unsaved := by
  cases c with
  | gpr => exact ⟨.tailCall, by decide, fun r => by cases r <;> decide⟩
  | lowGpr => exact ⟨.lowTailCall, by decide, fun r => by cases r <;> decide⟩
  | tailCall => exact ⟨.tailCall, by decide, fun r => by cases r <;> decide⟩
  | lowTailCall => exact ⟨.lowTailCall, by decide, fun r => by cases r <;> decide⟩

/-- A register that has a class can be limited to the unsaved ones. -/
theorem limit?_eq_some {c : RegClass} (hc : registers.class? number = some c) :
    ∃ common, registers.limit? number .tailCall = some common ∧
      ∀ r, common.contains r = true → c.contains r = true ∧ r ∈ unsaved := by
  rw [Registers.limit?, hc]
  exact common?_tailCall c

theorem constrain_eq {common : RegClass} (h : registers.limit? number .tailCall = some common) :
    registers.constrain number .tailCall
      = { registers with classes := registers.classes.set number common } := by
  rw [Registers.constrain, h]

theorem narrows_constrain {c : RegClass} (hallocated : registers.allocated = false)
    (hc : registers.class? number = some c) :
    Narrows registers (registers.constrain number .tailCall) ∧
      Fits (registers.constrain number .tailCall) (.virt number) := by
  obtain ⟨common, hlimit, hsub⟩ := limit?_eq_some hc
  have hlt := (List.getElem?_eq_some_iff.mp hc).1
  have hself : (registers.classes.set number common)[number]? = some common := by
    rw [List.getElem?_set_self hlt]
  rw [constrain_eq hlimit]
  refine ⟨⟨rfl, fun other c' hc' => ?_⟩, hallocated, common, hself, fun r hr => (hsub r hr).2⟩
  by_cases hother : number = other
  · subst hother
    rw [hc] at hc'
    cases hc'
    exact ⟨common, hself, fun r hr => (hsub r hr).1⟩
  · refine ⟨c', ?_, fun _ => id⟩
    rw [Registers.class?, List.getElem?_set_ne hother]
    exact hc'

/-! ### Limited code -/

variable {code code' front back : Code} {i call : Instr}

theorem Limited.mono (h : Limited registers code code') (hnarrows : Narrows registers later) :
    Limited later code code' := by
  induction h with
  | nil => exact .nil
  | other hi _ ih => exact .other hi ih
  | inPlace hcall htarget hfits _ ih => exact .inPlace hcall htarget (hfits.mono hnarrows) ih
  | copied hcall htarget hfits hcopy _ ih =>
    exact .copied hcall htarget (hfits.mono hnarrows) hcopy ih

theorem Limited.append (h : Limited registers code code') {more more' : Code}
    (hmore : Limited registers more more') : Limited registers (code ++ more) (code' ++ more') := by
  induction h with
  | nil => exact hmore
  | other hi _ ih => exact .other hi ih
  | inPlace hcall htarget hfits _ ih => exact .inPlace hcall htarget hfits ih
  | copied hcall htarget hfits hcopy _ ih => exact .copied hcall htarget hfits hcopy ih

theorem limited_self (h : ∀ i ∈ code, isUnlimited i = false) : Limited registers code code := by
  induction code with
  | nil => exact .nil
  | cons i rest ih =>
    obtain ⟨hi, hrest⟩ := List.forall_mem_cons.mp h
    exact .other hi (ih hrest)

theorem Copies.isUnlimited {new target : Reg} (h : Copies call new target i) :
    isUnlimited i = false := by
  cases h <;> rfl

/-- No call is left to be limited. -/
theorem Limited.isUnlimited (h : Limited registers code code') :
    ∀ i ∈ code', isUnlimited i = false := by
  induction h with
  | nil => simp
  | other hi _ ih => exact List.forall_mem_cons.mpr ⟨hi, ih⟩
  | inPlace _ _ _ _ ih => exact List.forall_mem_cons.mpr ⟨rfl, ih⟩
  | copied _ _ _ hcopy _ ih =>
    exact List.forall_mem_cons.mpr ⟨hcopy.isUnlimited, List.forall_mem_cons.mpr ⟨rfl, ih⟩⟩

theorem Limited.head? (h : Limited registers code code') (hhead : code.head? = some i)
    (hi : CallLimit.isUnlimited i = false) : code'.head? = some i := by
  cases h with
  | nil => cases hhead
  | other => exact hhead
  | inPlace hcall =>
    cases hhead
    rw [hi] at hcall
    cases hcall
  | copied hcall =>
    cases hhead
    rw [hi] at hcall
    cases hcall

theorem mem_retarget {target : Reg} {operand : Operand}
    (h : operand ∈ (retarget target call).operands) :
    operand ∈ call.operands ∨ operand = .reg target :=
  List.mem_or_eq_of_mem_set h

/-- Limited code refers to nothing new but registers that fit. -/
theorem Limited.operand (h : Limited registers code code') {operand : Operand} (hi : i ∈ code')
    (hoperand : operand ∈ i.operands) :
    (∃ j ∈ code, operand ∈ j.operands) ∨ ∃ r, operand = .reg r ∧ Fits registers r := by
  induction h with
  | nil => cases hi
  | other _ _ ih =>
    rcases List.mem_cons.mp hi with rfl | hi
    · exact .inl ⟨i, List.mem_cons_self, hoperand⟩
    · exact (ih hi).imp_left fun ⟨j, hj, hmem⟩ => ⟨j, List.mem_cons_of_mem _ hj, hmem⟩
  | @inPlace call target _ _ hcall htarget hfits _ ih =>
    rcases List.mem_cons.mp hi with rfl | hi
    · rcases mem_retarget hoperand with hmem | rfl
      · exact .inl ⟨call, List.mem_cons_self, hmem⟩
      · exact .inr ⟨target, rfl, hfits⟩
    · exact (ih hi).imp_left fun ⟨j, hj, hmem⟩ => ⟨j, List.mem_cons_of_mem _ hj, hmem⟩
  | @copied call target new copy _ _ hcall htarget hfits hcopy _ ih =>
    rcases List.mem_cons.mp hi with rfl | hi
    · have hoperands : i.operands = [.reg new, .reg target] := by cases hcopy <;> rfl
      rw [hoperands] at hoperand
      rcases List.mem_cons.mp hoperand with rfl | hsource
      · exact .inr ⟨new, rfl, hfits⟩
      · rw [List.mem_singleton.mp hsource]
        exact .inl ⟨call, List.mem_cons_self, List.mem_of_mem_head? htarget⟩
    · rcases List.mem_cons.mp hi with rfl | hi
      · rcases mem_retarget hoperand with hmem | rfl
        · exact .inl ⟨call, List.mem_cons_self, hmem⟩
        · exact .inr ⟨new, rfl, hfits⟩
      · exact (ih hi).imp_left fun ⟨j, hj, hmem⟩ => ⟨j, List.mem_cons_of_mem _ hj, hmem⟩

end CallLimit
end ThumbHardening
