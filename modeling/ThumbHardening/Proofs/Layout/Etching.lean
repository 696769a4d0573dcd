import ThumbHardening.Layout
import ThumbHardening.Proofs.FlowGraph
import ThumbHardening.Proofs.Program

/-!
# Etching

Etching replaces the first operand of the first instruction of one block, and touches nothing else. It fails only
on an instruction that has no operand.
-/

namespace ThumbHardening

namespace Program

variable {p : Program}

/-- Changing a block shows in the block that is found by its IDs. -/
theorem block?_updateBlock (p : Program) {change : Block → Block} (hid : ∀ b, (change b).id = b.id)
    (function block function' block' : Nat) :
    (p.updateFunction function fun f => f.updateBody fun g => g.updateBlock block change).block?
        function' block'
      = if function' = function ∧ block' = block then (p.block? function' block').map change
        else p.block? function' block' := by
  have hgraph (g : FlowGraph) : (g.updateBlock block change).block? block'
      = if block' = block then (g.block? block').map change else g.block? block' :=
    Roster.get?_update hid block block'
  have hkept : ∀ f : Function, Identified.id (f.updateBody fun g => g.updateBlock block change)
      = Identified.id f := fun _ => rfl
  have hfunction := Roster.get?_update (r := p.functions) hkept function function'
  rw [block?, function?, updateFunction, hfunction, block?, function?]
  by_cases hsame : function' = function
  · rw [if_pos hsame]
    cases p.functions.get? function' with
    | none => simp
    | some f =>
      cases hbody : f.body with
      | none => simp [Function.updateBody, hbody]
      | some g =>
        simp only [Option.map_some, Option.bind_eq_bind, Option.bind_some, Function.updateBody, hbody, hgraph,
          hsame, true_and]
  · rw [if_neg hsame, if_neg fun h => hsame h.1]

theorem ids_updateFunction (id : Nat) {change : Function → Function} (hid : ∀ f, (change f).id = f.id) :
    (p.updateFunction id change).functions.ids = p.functions.ids :=
  Roster.ids_update hid

theorem Built.updateFunction (h : p.Built) (id : Nat) {change : Function → Function}
    (hid : ∀ f, (change f).id = f.id) : (p.updateFunction id change).Built := by
  have hsame : p.functions.update id change = ⟨(p.functions.update id change).elems, p.functions.next⟩ := by
    rw [← Roster.next_update p.functions id change]
  rw [Program.updateFunction, hsame]
  exact .changeFunctions h (ids_updateFunction id hid)

theorem block?_eq_some {function id : Nat} {b : Block} (h : p.block? function id = some b) :
    ∃ f g, p.function? function = some f ∧ f.body = some g ∧ g.block? id = some b := by
  obtain ⟨f, hf, hbody⟩ := Option.bind_eq_some_iff.mp h
  obtain ⟨g, hg, hb⟩ := Option.bind_eq_some_iff.mp hbody
  exact ⟨f, g, hf, hg, hb⟩

/-- With distinct IDs, a block of a function is the one that is found by its IDs. -/
theorem block?_id (hfunctions : p.functions.ids.Nodup) {f : Function} (hf : f ∈ p.functions.elems)
    (hblocks : (f.blocks.map Block.id).Nodup) {b : Block} (hb : b ∈ f.blocks) :
    p.block? f.id b.id = some b := by
  have hget : p.function? f.id = some f := Roster.get?_id hfunctions hf
  rw [Function.blocks] at hblocks hb
  cases hbody : f.body with
  | none =>
    rw [hbody] at hb
    cases hb
  | some g =>
    rw [hbody] at hblocks hb
    simp only [block?, hget, Option.bind_eq_bind, Option.bind_some, hbody]
    exact g.block?_id hblocks hb

/-- The number of operands of the first instruction of a block. -/
def firstOperands? (p : Program) (t : BlockPointer) : Option Nat :=
  ((p.block? t.function t.block).bind fun b => b.instrs[0]?).map fun i => i.operands.length

end Program

namespace Layout

variable {s s' : State} {decoy : Nat} {target t : BlockPointer}

/-- A block whose first operand is the address of a decoy. -/
def etchBlock (decoy : Nat) (b : Block) : Block :=
  { b with instrs := b.instrs.modify 0 fun i => { i with operands := i.operands.set 0 (etching decoy) } }

/-- The latest etching of a block replaces those before. -/
theorem etchBlock_etchBlock (decoy old : Nat) (b : Block) :
    etchBlock decoy (etchBlock old b) = etchBlock decoy b := by
  cases hcode : b.instrs <;> simp [etchBlock, hcode]

theorem firstOperands?_etchBlock (decoy : Nat) (b : Block) :
    ((etchBlock decoy b).instrs[0]?).map (fun i => i.operands.length)
      = (b.instrs[0]?).map fun i => i.operands.length := by
  cases hcode : b.instrs <;> simp [etchBlock, hcode]

/-- What etching does to a program, if it does something: the first operand of an instruction is replaced. -/
theorem etch_eq_none (h : etch decoy target s = (s', none)) :
    (s' = s ∧ ((s.program.block? target.function target.block).bind fun b => b.instrs[0]?) = none) ∨
      ∃ b i, s.program.block? target.function target.block = some b ∧ b.instrs[0]? = some i ∧
        i.operands ≠ [] ∧ s' = { s with
          program := s.program.updateFunction target.function fun f => f.updateBody fun g =>
            g.updateBlock target.block fun b =>
              { b with instrs := b.instrs.set 0 { i with operands := i.operands.set 0 (etching decoy) } }
          statistics := { s.statistics with trapsEtched := s.statistics.trapsEtched + 1 } } := by
  rw [etch] at h
  split at h
  · next hnone =>
    cases h
    exact .inl ⟨rfl, hnone⟩
  · next i hi =>
    obtain ⟨b, hb, hfirst⟩ := Option.bind_eq_some_iff.mp hi
    split at h
    · cases h
    · next j hj =>
      rw [Instr.setOperand?] at hj
      split at hj
      · next hpos =>
        cases hj
        cases h
        exact .inr ⟨b, i, hb, hfirst, List.ne_nil_of_length_pos hpos, rfl⟩
      · cases hj

/-- Etching fails exactly on an instruction without operands, and then changes nothing. -/
theorem etch_cases (decoy : Nat) (target : BlockPointer) (s : State) :
    (s.program.firstOperands? target ≠ some 0 ∧ ∃ s', etch decoy target s = (s', none)) ∨
      (s.program.firstOperands? target = some 0 ∧
        etch decoy target s = (s, some (.fault .operandRange))) := by
  rw [etch, Program.firstOperands?]
  cases (s.program.block? target.function target.block).bind fun b => b.instrs[0]? with
  | none => exact .inl ⟨by simp, s, rfl⟩
  | some i =>
    by_cases hpos : 0 < i.operands.length
    · refine .inl ⟨by simp [Nat.ne_of_gt hpos], ?_⟩
      simp [Instr.setOperand?, hpos]
    · have hzero : i.operands.length = 0 := by omega
      exact .inr ⟨by simp [hzero], by simp [Instr.setOperand?, hzero]⟩

/-- Etching shows in the block alone that it is meant for. -/
theorem block?_etch (h : etch decoy target s = (s', none)) (function block : Nat) :
    s'.program.block? function block
      = if function = target.function ∧ block = target.block
        then (s.program.block? function block).map (etchBlock decoy)
        else s.program.block? function block := by
  rcases etch_eq_none h with ⟨rfl, hnone⟩ | ⟨b, i, hb, hfirst, -, rfl⟩
  · split
    · next hsame =>
      rw [hsame.1, hsame.2]
      cases hb : s'.program.block? target.function target.block with
      | none => rfl
      | some b =>
        rw [hb, Option.bind_some, List.getElem?_eq_none_iff, Nat.le_zero, List.length_eq_zero_iff] at hnone
        rw [Option.map_some, etchBlock, hnone, List.modify_nil, ← hnone]
    · rfl
  · have hid : ∀ b : Block, { b with instrs := b.instrs.set 0 { i with
        operands := i.operands.set 0 (etching decoy) } }.id = b.id := fun _ => rfl
    refine (Program.block?_updateBlock s.program hid target.function target.block function block).trans ?_
    split
    · next hsame =>
      obtain ⟨rest, hcode⟩ := List.head?_eq_some_iff.mp (List.head?_eq_getElem?.trans hfirst)
      rw [hsame.1, hsame.2, hb]
      simp [etchBlock, hcode]
    · rfl

end Layout
end ThumbHardening
