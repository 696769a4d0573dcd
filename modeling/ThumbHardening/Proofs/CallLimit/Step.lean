import ThumbHardening.Proofs.CallLimit.Code
import ThumbHardening.Proofs.FlowGraph

/-!
# Limiting one call

The call that is limited next is the first of its block. It is changed in place if its target fits or can be
made to fit; otherwise a copy is inserted in front of it, and it is found again behind the copy.
-/

namespace ThumbHardening
namespace CallLimit
open Code

variable {f f' : Function} {g : FlowGraph} {b : Block} {id index : Nat} {call i : Instr}
  {registers later : Registers} {code code' front back : Code} {new target : Reg}

/-! ### The next call -/

theorem isIt_of_isUnlimited (h : isUnlimited i = true) : i.isIt = false := by
  simp only [isUnlimited, decide_eq_true_eq] at h
  simp [Instr.isIt, h]

theorem firstUnlimited?_eq_none (h : firstUnlimited? b = none) :
    ∀ i ∈ b.instrs, isUnlimited i = false := by
  intro i hi
  obtain ⟨k, hk⟩ := List.mem_iff_getElem?.mp hi
  have hfind := List.find?_eq_none.mp (Option.map_eq_none_iff.mp h) (i, k)
    (List.mk_mem_zipIdx_iff_getElem?.mpr hk)
  simpa using hfind

theorem firstUnlimited?_eq_some (h : firstUnlimited? b = some (index, call)) :
    isUnlimited call = true ∧
      ∃ front back, At b.instrs index front call back ∧ ∀ i ∈ front, isUnlimited i = false := by
  obtain ⟨entry, hfind, hentry⟩ := Option.map_eq_some_iff.mp h
  cases hentry
  obtain ⟨hcall, before, behind, hsplit, hbefore⟩ := List.find?_eq_some_iff_append.mp hfind
  refine ⟨hcall, ordinary (before.map Prod.fst), ordinary (behind.map Prod.fst),
    ⟨before.map Prod.fst, behind.map Prod.fst, ?_, ?_, rfl, rfl⟩, ?_⟩
  · have hcode := congrArg (List.map Prod.fst) hsplit
    rwa [List.zipIdx_map_fst, List.map_append, List.map_cons] at hcode
  · have hget := congrArg (·[before.length]?) hsplit
    simp only [List.getElem?_zipIdx, List.getElem?_append_right (Nat.le_refl _), Nat.sub_self,
      List.getElem?_cons_zero, Nat.zero_add] at hget
    obtain ⟨i, -, hentry⟩ := Option.map_eq_some_iff.mp hget
    rw [← hentry, List.length_map]
  · intro i hi
    obtain ⟨entry, hentry, rfl⟩ := List.mem_map.mp (List.mem_of_mem_filter hi)
    simpa using hbefore entry hentry

/-! ### The copy -/

theorem Copies.isIt (h : Copies call new target i) : i.isIt = false := by
  cases h <;> rfl

theorem Copies.isDebug (h : Copies call new target i) : i.isDebug = false := by
  cases h <;> rfl

/-- The copy already has the condition of the call. -/
theorem Copies.adopt (h : Copies call new target i) : adopt (neighbourPred call) i = i := by
  have hpred : i.pred = call.pred := by cases h <;> rfl
  rw [Code.adopt, neighbourPred, if_neg]
  split
  · simp [Instr.isConditional, hpred]
  · simp

/-! ### Changing the call -/

/-- What limiting a call does to the registers and to the code around it. -/
structure CallStep (registers later : Registers) (code code' : Code) : Prop where
  narrows : Narrows registers later
  fresh : later.classes.length ≤ registers.classes.length + 1
  allocated : registers.allocated = true → later = registers
  replaces : ∃ front call back middle, ordinary code = front ++ call :: back ∧
    (∀ i ∈ front, isUnlimited i = false) ∧ isUnlimited call = true ∧
    ordinary code' = front ++ (middle ++ back) ∧ Limited later [call] middle
  consistent : code.isConsistent = true → code'.isConsistent = true
  its : ∀ i ∈ code', i.isIt = true → i ∈ code ∨ ∃ first mask, i = .it first mask

theorem sameRole_retarget (hcall : isUnlimited call = true) (target : Reg) :
    SameRole call (retarget target call) := by
  have hopcode : call.opcode = .callIndirect := by simpa [isUnlimited] using hcall
  have hneeds : (retarget target call).needsGroup = call.needsGroup := by
    simp only [Instr.needsGroup, Instr.isIt, hopcode]
    rfl
  refine ⟨isIt_of_isUnlimited hcall, rfl, ?_, hneeds, rfl, ?_⟩
  · simp [Instr.isDebug, hopcode, retarget]
  · rw [hopcode]
    rfl

theorem callStep_inPlace (hcall : isUnlimited call = true) (hat : At code index front call back)
    (hfront : ∀ i ∈ front, isUnlimited i = false)
    (htarget : call.operands.head? = some (.reg target)) (hnarrows : Narrows registers later)
    (hlength : later.classes.length = registers.classes.length)
    (hallocated : registers.allocated = true → later = registers) (hfits : Fits later target) :
    CallStep registers later code (code.modify index (retarget target)) := by
  have hit := isIt_of_isUnlimited hcall
  refine ⟨hnarrows, by omega, hallocated, ?_, ?_, ?_⟩
  · exact ⟨front, call, back, [retarget target call], hat.ordinary_eq hit, hfront, hcall,
      (hat.modify (retarget target)).ordinary_eq rfl, .inPlace hcall htarget hfits .nil⟩
  · exact fun h => isConsistent_modify h hat.get (sameRole_retarget hcall target)
  · intro i hi hi'
    rcases hat.mem_modify hi with hi | rfl
    · exact .inl hi
    · cases hi'

theorem callStep_copied (hcall : isUnlimited call = true) (hat : At code index front call back)
    (hfront : ∀ i ∈ front, isUnlimited i = false)
    (htarget : call.operands.head? = some (.reg target)) (hnarrows : Narrows registers later)
    (hfresh : later.classes.length ≤ registers.classes.length + 1)
    (hallocated : registers.allocated = true → later = registers) (hfits : Fits later new)
    {copy : Instr} (hcopy : Copies call new target copy) :
    CallStep registers later code
      ((code.insertAround call index false [copy]).1.modify
        (code.insertAround call index false [copy]).2 (retarget new)) := by
  have hit := isIt_of_isUnlimited hcall
  have hinserted := insertAround_before hat hit [copy]
  rw [List.map_singleton, hcopy.adopt] at hinserted
  have hordinary := (hinserted.modify (retarget new)).ordinary_eq rfl
  rw [ordinary_cons hcopy.isIt, List.append_assoc] at hordinary
  refine ⟨hnarrows, hfresh, hallocated, ?_, fun h => ?_, fun i hi hi' => ?_⟩
  · exact ⟨front, call, back, [copy, retarget new call], hat.ordinary_eq hit, hfront, hcall,
      hordinary, .copied hcall htarget hfits hcopy .nil⟩
  · have hbare : DebugBare [copy] := by
      intro j hj hdebug
      rw [List.mem_singleton.mp hj, hcopy.isDebug] at hdebug
      cases hdebug
    have hconsistent : (code.insertAround call index false [copy]).1.isConsistent = true :=
      (isConsistent_insertAround_iff (debugBare_of_isConsistent h) hbare).mpr
        (by simp [hcopy.isDebug])
    exact isConsistent_modify hconsistent hinserted.get (sameRole_retarget hcall new)
  · rcases hinserted.mem_modify hi with hi | rfl
    · rcases mem_insertAround hi with hi | hi | hi
      · exact .inl hi
      · rw [List.map_singleton, hcopy.adopt, List.mem_singleton] at hi
        rw [hi, hcopy.isIt] at hi'
        cases hi'
      · exact .inr hi
    · cases hi'

theorem copies_copyFor (call : Instr) (new target : Reg) :
    Copies call new target (copyFor f call.pred new target) := by
  rw [copyFor]
  split
  · exact .mov
  · next h =>
    have hpred : call.pred = .al := by
      rw [Bool.not_eq_true, Bool.or_eq_false_iff] at h
      simpa using h.2
    have hcopy : Copies call new target ⟨.copy, [.reg new, .reg target], call.pred⟩ := .copy hpred
    rwa [hpred] at hcopy

theorem chooseRegister_eq_ok {f₁ : Function} (h : chooseRegister f g id index = .ok (f₁, new)) :
    ∃ later, f₁ = { f with registers := later } ∧ Narrows f.registers later ∧
      later.classes.length ≤ f.registers.classes.length + 1 ∧
      (f.registers.allocated = true → later = f.registers) ∧ Fits later new := by
  rw [chooseRegister] at h
  split at h
  · split at h
    · cases h
    · split at h
      · cases h
      · next r hr =>
        cases h
        exact ⟨f.registers, rfl, .refl _, by omega, fun _ => rfl,
          contains_tailCall.mp (List.find?_some hr)⟩
  · next hallocated =>
    cases h
    refine ⟨_, rfl, narrows_create _ _, ?_, fun h => absurd h hallocated,
      fits_fresh (Bool.eq_false_iff.mpr hallocated)⟩
    simp [Registers.create]

/-- What limiting a call makes of its function. -/
def StepsTo (f : Function) (g : FlowGraph) (b : Block) (f' : Function) : Prop :=
  ∃ change, f' = { f with body := some (g.updateBlock b.id change), registers := f'.registers } ∧
    (∀ other, change other = { other with instrs := (change other).instrs }) ∧
    CallStep f.registers f'.registers b.instrs (change b).instrs

theorem stepsTo_updateInstr (hbody : f.body = some g) (hid : b.id = id) {change : Instr → Instr}
    (hstep : CallStep f.registers later b.instrs (b.instrs.modify index change)) :
    StepsTo f g b (updateInstr { f with registers := later } id index change) := by
  refine ⟨fun b => { b with instrs := b.instrs.modify index change }, ?_, fun _ => rfl, hstep⟩
  rw [updateInstr, Function.updateBody, hid]
  simp [hbody]

theorem limitByCopy_eq_ok (hblock : g.block? id = some b)
    (hcall : isUnlimited call = true) (hat : At b.instrs index front call back)
    (hfront : ∀ i ∈ front, isUnlimited i = false)
    (htarget : call.operands.head? = some (.reg target))
    (h : limitByCopy f g id index call target = .ok f') : StepsTo f g b f' := by
  have hid : b.id = id := Roster.id_of_get? hblock
  rw [limitByCopy] at h
  split at h
  · cases h
  · next f₁ new hchoose =>
    obtain ⟨later, rfl, hnarrows, hfresh, hallocated, hfits⟩ := chooseRegister_eq_ok hchoose
    rw [FlowGraph.insertAround, hblock] at h
    simp only [hat.get] at h
    cases h
    have hcopy := copies_copyFor (f := { f with registers := later }) call new target
    let inserted := b.instrs.insertAround call index false
      [copyFor { f with registers := later } call.pred new target]
    have hupdate := g.updateBlock_updateBlock id (fun b => { b with instrs := inserted.1 })
      (fun b => { b with instrs := b.instrs.modify inserted.2 (retarget new) }) fun _ => rfl
    refine ⟨fun b => { b with instrs := inserted.1.modify inserted.2 (retarget new) }, ?_,
      fun _ => rfl, callStep_copied hcall hat hfront htarget hnarrows hfresh hallocated hfits hcopy⟩
    rw [hid]
    exact congrArg (fun body => { f with registers := later, body := some body }) hupdate

theorem head?_of_reg? {r : Reg} (h : call.operands.head?.bind Operand.reg? = some r) :
    call.operands.head? = some (.reg r) := by
  obtain ⟨operand, hhead, hreg⟩ := Option.bind_eq_some_iff.mp h
  cases operand <;> simp_all [Operand.reg?]

theorem limitCall_eq_ok (hbody : f.body = some g) (hblock : g.block? id = some b)
    (hfirst : firstUnlimited? b = some (index, call))
    (hvirtual : ∀ number, call.operands.head? = some (.reg (.virt number)) →
      f.registers.allocated = false ∧ ∃ c, f.registers.class? number = some c)
    (h : limitCall f g id index call = .ok f') : StepsTo f g b f' := by
  obtain ⟨hcall, front, back, hat, hfront⟩ := firstUnlimited?_eq_some hfirst
  have hid : b.id = id := Roster.id_of_get? hblock
  rw [limitCall] at h
  split at h
  · cases h
  · next number hnumber =>
    have htarget := head?_of_reg? hnumber
    obtain ⟨hallocated, c, hc⟩ := hvirtual number htarget
    obtain ⟨hnarrows, hfits⟩ := narrows_constrain hallocated hc
    obtain ⟨common, hlimit, -⟩ := limit?_eq_some hc
    rw [hlimit, Option.isSome_some, if_pos rfl] at h
    cases h
    refine stepsTo_updateInstr hbody hid ?_
    refine callStep_inPlace hcall hat hfront htarget hnarrows ?_ (fun h => ?_) hfits
    · rw [constrain_eq hlimit]
      exact List.length_set
    · rw [hallocated] at h
      cases h
  · next r hr =>
    have htarget := head?_of_reg? hr
    split at h
    · next hunsaved =>
      cases h
      exact stepsTo_updateInstr hbody hid (callStep_inPlace hcall hat hfront htarget (.refl _) rfl
        (fun _ => rfl) (contains_tailCall.mp hunsaved))
    · exact limitByCopy_eq_ok hblock hcall hat hfront htarget h

end CallLimit
end ThumbHardening
