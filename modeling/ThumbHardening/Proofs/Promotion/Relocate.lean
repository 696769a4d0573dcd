import ThumbHardening.Promotion
import ThumbHardening.Proofs.Roster

/-!
# Relocated functions

A function some of whose stack objects have become global objects: their operands are addresses now, and the
frame holds only the other objects. Moving one more object out of such a function gives another one, so the
moves out of a function can be looked at together.
-/

namespace ThumbHardening

/-! ### Changes of operands -/

def Instr.mapOperands (change : Operand → Operand) (i : Instr) : Instr :=
  { i with operands := i.operands.map change }

/-- A graph whose instructions have changed operands. -/
def FlowGraph.mapOperands (change : Operand → Operand) (g : FlowGraph) : FlowGraph :=
  { g with blocks := { g.blocks with
      elems := g.blocks.elems.map fun b => { b with instrs := b.instrs.map (Instr.mapOperands change) } } }

variable {change : Operand → Operand}

theorem Instr.mapOperands_mapOperands (change change' : Operand → Operand) (i : Instr) :
    (i.mapOperands change).mapOperands change' = i.mapOperands (change' ∘ change) := by
  simp only [mapOperands, List.map_map]

theorem Instr.mapOperands_eq_self (h : ∀ operand, change operand = operand) (i : Instr) :
    i.mapOperands change = i := by
  rw [mapOperands, List.map_id'' h]

theorem FlowGraph.mapOperands_mapOperands (change change' : Operand → Operand) (g : FlowGraph) :
    (g.mapOperands change).mapOperands change' = g.mapOperands (change' ∘ change) := by
  simp only [mapOperands, List.map_map, Function.comp_def, Instr.mapOperands_mapOperands]

theorem FlowGraph.mapOperands_eq_self (h : ∀ operand, change operand = operand) (g : FlowGraph) :
    g.mapOperands change = g := by
  have hcode : ∀ code : Code, code.map (Instr.mapOperands change) = code :=
    fun code => List.map_id'' (Instr.mapOperands_eq_self h) code
  simp only [mapOperands, hcode, List.map_id']

/-! ### Relocations -/

/-- The address of the global object that a stack object has moved to, in place of the stack object. -/
def Operand.relocate (target : Nat → Option Nat) : Operand → Operand
  | .frame object =>
    match target object with
    | some global => .address (.global global)
    | none => .frame object
  | operand => operand

/-- A function whose stack objects have moved to the global objects that `target` names, if it names any. -/
def Function.relocate (target : Nat → Option Nat) (f : Function) : Function :=
  { f.updateBody (FlowGraph.mapOperands (Operand.relocate target)) with
    frame := { f.frame with elems := f.frame.elems.filter fun o => (target o.id).isNone } }

variable {target target' : Nat → Option Nat} {f : Function} {object global : Nat}

theorem Operand.relocate_none (operand : Operand) : operand.relocate (fun _ => none) = operand := by
  cases operand <;> rfl

/-- Without targets nothing moves. -/
theorem Function.relocate_none (f : Function) : f.relocate (fun _ => none) = f := by
  have hbody : f.body.map (FlowGraph.mapOperands (Operand.relocate fun _ => none)) = f.body := by
    cases f.body with
    | none => rfl
    | some g => exact congrArg some (g.mapOperands_eq_self Operand.relocate_none)
  simp only [relocate, updateBody, hbody, Option.isNone_none, List.filter_true]

/-- An operand becomes an address if it is an object that has moved, and else stays as it is. -/
theorem Operand.relocate_cases (target : Nat → Option Nat) (operand : Operand) :
    (∃ object global, operand = .frame object ∧ target object = some global ∧
        operand.relocate target = .address (.global global)) ∨
      operand.relocate target = operand ∧ ∀ object, operand = .frame object → target object = none := by
  cases operand with
  | frame object =>
    cases hobject : target object with
    | some global => exact .inl ⟨object, global, rfl, hobject, by rw [relocate, hobject]⟩
    | none => exact .inr ⟨by rw [relocate, hobject], fun other hother => by cases hother; exact hobject⟩
  | _ => exact .inr ⟨rfl, nofun⟩

/-- An address is no stack object, so a later move leaves the operands of earlier ones alone. -/
theorem Operand.replace_relocate
    (htarget : ∀ o, target' o = (target o).or (if o = object then some global else none))
    (operand : Operand) :
    (if operand.relocate target = .frame object then Operand.address (.global global)
      else operand.relocate target) = operand.relocate target' := by
  rcases operand.relocate_cases target with ⟨o, moved, rfl, ho, heq⟩ | ⟨heq, hstays⟩
  · rw [heq, if_neg nofun, relocate, htarget, ho]
    rfl
  · rw [heq]
    cases operand with
    | frame o =>
      rw [relocate, htarget, hstays o rfl, Option.none_or]
      by_cases ho : o = object
      · simp [ho]
      · simp [ho]
    | _ => exact if_neg nofun

/-- Moving one more object out of a relocated function. -/
theorem Promotion.moveOut_relocate (hframe : f.frame.ids.Nodup)
    (htarget : ∀ o, target' o = (target o).or (if o = object then some global else none)) :
    Promotion.moveOut object global (f.relocate target) = f.relocate target' := by
  have hbody : (f.body.map (FlowGraph.mapOperands (Operand.relocate target))).map
      (Promotion.replaceOperand (.frame object) (.address (.global global)))
        = f.body.map (FlowGraph.mapOperands (Operand.relocate target')) := by
    rw [Option.map_map]
    apply congrArg (fun change => f.body.map change)
    funext g
    exact (FlowGraph.mapOperands_mapOperands ..).trans
      (congrArg (fun change => g.mapOperands change) (funext (Operand.replace_relocate htarget)))
  have hkept : (f.relocate target).frame.ids.Nodup :=
    (List.filter_sublist.map _).nodup hframe
  have hframe : (f.relocate target).frame.erase object = (f.relocate target').frame := by
    rw [Roster.erase_eq_filter hkept]
    simp only [Function.relocate, List.filter_filter]
    congr 2
    funext o
    rw [htarget]
    cases target o.id <;> by_cases ho : o.id = object <;> simp [Identified.id, ho]
  change { f with body := Option.map _ (Option.map _ f.body), frame := _ } = f.relocate target'
  rw [hbody, hframe]
  rfl

end ThumbHardening
