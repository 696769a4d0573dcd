import ThumbHardening.Proofs.FlowGraph
import ThumbHardening.Proofs.Predication.Grouped
import ThumbHardening.Proofs.Steps
import ThumbHardening.Verify

/-!
# Accepted programs

What the verification asks of flow graphs, operands, functions and programs. An operand refers to symbols only
by their IDs and to blocks of other functions not at all, so a pass that gives functions new code has to show
that the new code is sound and that the program keeps its outline: which functions there are, under which
names, and with which blocks. New global objects may join, since they take nothing away.
-/

namespace ThumbHardening

theorem require_eq_ok_iff {ε : Type} {condition : Bool} {error : ε} :
    require condition error = .ok () ↔ condition = true := by
  cases condition <;> simp [require]

/-! ### Flow graphs -/

/-- A block that the verification accepts. -/
structure Block.Sound (b : Block) : Prop where
  id_ne_zero : b.id ≠ 0
  one_next : b.edges.countP Edge.isNext ≤ 1
  trap_first : b.trap = true → b.instrs.head?.map Instr.opcode = some .trap

theorem Block.verify_eq_ok_iff {b : Block} : b.verify = .ok () ↔ b.Sound := by
  rw [verify]
  constructor
  · intro h
    split at h
    · cases h
    split at h
    · cases h
    split at h
    · cases h
    · next hid hnext htrap =>
      refine ⟨hid, by omega, fun hb => ?_⟩
      simpa [hb] using htrap
  · intro h
    rw [if_neg h.id_ne_zero, if_neg (Nat.not_lt.mpr h.one_next), if_neg]
    intro htrap
    simp only [Bool.and_eq_true, decide_eq_true_eq] at htrap
    exact htrap.2 (h.trap_first htrap.1)

/-- A flow graph that the verification accepts. -/
structure FlowGraph.Sound (g : FlowGraph) : Prop where
  entry_ne_zero : g.entry ≠ 0
  contains_entry : g.blocks.contains g.entry = true
  blocks : ∀ b ∈ g.blocks.elems, b.Sound
  targets : ∀ b ∈ g.blocks.elems, ∀ edge ∈ b.edges, g.blocks.contains edge.target = true

theorem FlowGraph.verify_eq (g : FlowGraph) :
    g.verify = if g.entry = 0 then .error (.invalidEntry g.entry)
      else if g.blocks.elems.isEmpty then .error .emptyGraph
      else if !g.blocks.contains g.entry then .error (.invalidEntry g.entry)
      else g.blocks.elems.forM Block.verify >>= fun _ => g.blocks.elems.forM g.verifyEdges := by
  rw [verify]
  split
  · rfl
  · simp only
    split
    · rfl
    · split <;> rfl

theorem FlowGraph.verifyEdges_eq_ok_iff {g : FlowGraph} {b : Block} :
    g.verifyEdges b = .ok () ↔ ∀ edge ∈ b.edges, g.blocks.contains edge.target = true := by
  rw [verifyEdges, Outcome.forM_eq_ok_iff]
  apply forall_congr'
  intro edge
  apply imp_congr_right
  intro _
  split <;> simp [*]

theorem FlowGraph.verify_eq_ok_iff {g : FlowGraph} : g.verify = .ok () ↔ g.Sound := by
  rw [verify_eq]
  constructor
  · intro h
    split at h
    · cases h
    split at h
    · cases h
    split at h
    · cases h
    · next hentry _ hcontains =>
      obtain ⟨hblocks, hedges⟩ := Outcome.seq_eq_ok_iff.mp h
      refine ⟨hentry, by simpa using hcontains, fun b hb => ?_, fun b hb => ?_⟩
      · exact Block.verify_eq_ok_iff.mp (Outcome.forM_eq_ok_iff.mp hblocks b hb)
      · exact verifyEdges_eq_ok_iff.mp (Outcome.forM_eq_ok_iff.mp hedges b hb)
  · intro h
    have hne : g.blocks.elems.isEmpty = false := by
      cases hempty : g.blocks.elems.isEmpty with
      | false => rfl
      | true =>
        have hcontains := h.contains_entry
        rw [Roster.contains, List.isEmpty_iff.mp hempty] at hcontains
        cases hcontains
    rw [if_neg h.entry_ne_zero, if_neg (by simp [hne]), if_neg (by simp [h.contains_entry])]
    refine Outcome.seq_eq_ok_iff.mpr ⟨?_, ?_⟩
    · exact Outcome.forM_eq_ok_iff.mpr fun b hb => Block.verify_eq_ok_iff.mpr (h.blocks b hb)
    · exact Outcome.forM_eq_ok_iff.mpr fun b hb => verifyEdges_eq_ok_iff.mpr (h.targets b hb)

/-! ### Functions -/

/-- In consistent code every `It` announces conditions. -/
theorem Code.Grouped.announced?_isSome {outside : Instr → Prop} {conds : List Cond} {code : Code}
    (h : Grouped outside conds code) {i : Instr} (hi : i ∈ code) (hit : i.isIt = true) :
    i.announced?.isSome = true := by
  induction h with
  | nil => cases hi
  | plain hplain _ _ ih =>
    rcases List.mem_cons.mp hi with rfl | hi
    · rw [hplain] at hit
      cases hit
    · exact ih hi
  | it hconds _ ih =>
    rcases List.mem_cons.mp hi with rfl | hi
    · rw [hconds]
      rfl
    · exact ih hi
  | debug hdebug _ _ ih =>
    rcases List.mem_cons.mp hi with rfl | hi
    · rw [isIt_of_isDebug hdebug] at hit
      cases hit
    · exact ih hi
  | member _ hmeets _ ih =>
    rcases List.mem_cons.mp hi with rfl | hi
    · rw [isIt_of_needsGroup hmeets.needs] at hit
      cases hit
    · exact ih hi

theorem Instr.itFields?_isSome {code : Code} (h : code.isConsistent = true) {i : Instr} (hi : i ∈ code)
    (hit : i.isIt = true) : i.itFields?.isSome = true := by
  have hannounced := (Code.isConsistent_iff_grouped.mp h).announced?_isSome hi hit
  rw [announced?] at hannounced
  cases hfields : i.itFields? with
  | some _ => rfl
  | none =>
    rw [hfields] at hannounced
    cases hannounced

/-- What an operand refers to exists. -/
def Program.Resolves (p : Program) (f : Function) (g : FlowGraph) : Operand → Prop
  | .symbol symbol _ _ => p.hasSymbol symbol = true
  | .block id => g.blocks.contains id = true
  | .frame id => f.frame.contains id = true
  | .reg (.virt number) => f.registers.allocated = false ∧ (f.registers.class? number).isSome = true
  | .reg (.phys _) | .imm _ | .external _ => True

/-- Code that the verification accepts. -/
structure Program.SoundCode (p : Program) (f : Function) (g : FlowGraph) (code : Code) : Prop where
  consistent : code.isConsistent = true
  resolves : ∀ i ∈ code, ∀ operand ∈ i.operands, p.Resolves f g operand

variable {p : Program} {f : Function} {g : FlowGraph} {b : Block}

theorem verifyOperand_eq_ok_iff {operand : Operand} :
    p.verifyOperand f g b operand = .ok () ↔ p.Resolves f g operand := by
  cases operand with
  | reg r =>
    cases r with
    | phys => simp [Program.verifyOperand, Program.Resolves]
    | virt number =>
      cases hallocated : f.registers.allocated <;>
        simp [Program.verifyOperand, Program.Resolves, require_eq_ok_iff, hallocated]
  | symbol | block | frame => exact require_eq_ok_iff
  | imm | external => simp [Program.verifyOperand, Program.Resolves]

theorem verifyInstr_eq_ok_iff {i : Instr} :
    p.verifyInstr f g b i = .ok () ↔
      (∀ operand ∈ i.operands, p.Resolves f g operand) ∧
        (i.isIt = true → i.itFields?.isSome = true) := by
  rw [Program.verifyInstr, Outcome.seq_eq_ok_iff, Outcome.forM_eq_ok_iff, require_eq_ok_iff]
  apply and_congr
  · simp only [verifyOperand_eq_ok_iff]
  · cases i.isIt <;> simp

theorem verifyBlock_eq_ok_iff : p.verifyBlock f g b = .ok () ↔ p.SoundCode f g b.instrs := by
  rw [Program.verifyBlock, Outcome.seq_eq_ok_iff, Outcome.forM_eq_ok_iff, require_eq_ok_iff]
  simp only [verifyInstr_eq_ok_iff]
  constructor
  · intro h
    exact ⟨h.1, fun i hi => (h.2 i hi).1⟩
  · intro h
    exact ⟨h.consistent, fun i hi => ⟨h.resolves i hi, fun hit => Instr.itFields?_isSome h.consistent hi hit⟩⟩

theorem verifyFunction_eq_ok_iff :
    p.verifyFunction f = .ok () ↔
      ∀ g, f.body = some g → g.Sound ∧ ∀ b ∈ g.blocks.elems, p.SoundCode f g b.instrs := by
  rw [Program.verifyFunction]
  cases hbody : f.body with
  | none => simp
  | some g =>
    simp only [Outcome.seq_eq_ok_iff, Outcome.mapError_eq_ok_iff, FlowGraph.verify_eq_ok_iff,
      Outcome.forM_eq_ok_iff, verifyBlock_eq_ok_iff, Option.some.injEq, forall_eq']

/-! ### Programs -/

theorem Program.verify_eq_ok_iff :
    p.verify = .ok () ↔ (∀ f ∈ p.functions.elems, p.verifyFunction f = .ok ()) ∧
      (∀ o ∈ p.globals.elems, p.verifyGlobal o = .ok ()) ∧ ∀ symbol ∈ p.used, p.hasSymbol symbol = true := by
  rw [verify, Outcome.seq_eq_ok_iff, Outcome.seq_eq_ok_iff]
  simp only [Outcome.forM_eq_ok_iff, require_eq_ok_iff]

theorem Program.verifyFunction_of_verify (h : p.verify = .ok ()) (hf : f ∈ p.functions.elems) :
    p.verifyFunction f = .ok () :=
  (verify_eq_ok_iff.mp h).1 f hf

theorem Program.verifyGlobal_eq_ok_iff {o : GlobalObject} :
    p.verifyGlobal o = .ok () ↔ ∀ init, o.initializer = some init →
      init.entries.length * p.pointerSize ≤ o.size ∧ ∀ entry ∈ init.entries, p.pointerResolves entry = true := by
  rw [verifyGlobal]
  cases o.initializer with
  | none => simp
  | some init => simp [Outcome.seq_eq_ok_iff, require_eq_ok_iff]

/-- What an operand refers to is left if no symbol goes and the function keeps its blocks, frame and registers. -/
theorem Program.Resolves.mono {q : Program} {f' : Function} {g' : FlowGraph} {operand : Operand}
    (h : p.Resolves f g operand)
    (hsymbols : ∀ symbol, p.hasSymbol symbol = true → q.hasSymbol symbol = true)
    (hblocks : ∀ id, g.blocks.contains id = true → g'.blocks.contains id = true)
    (hframe : ∀ id, operand = .frame id → f.frame.contains id = true → f'.frame.contains id = true)
    (hallocated : f'.registers.allocated = f.registers.allocated)
    (hclasses : ∀ number, (f.registers.class? number).isSome = true →
      (f'.registers.class? number).isSome = true) : q.Resolves f' g' operand := by
  cases operand with
  | symbol symbol => exact hsymbols symbol h
  | block id => exact hblocks id h
  | frame id => exact hframe id rfl h
  | reg r =>
    cases r with
    | phys => trivial
    | virt number => exact ⟨hallocated.trans h.1, hclasses number h.2⟩
  | imm | external => trivial

/-- What the rest of a program can refer to in a function. -/
def Function.outline (f : Function) : Nat × String × Option (List Nat) :=
  (f.id, f.name, f.body.map fun g => g.blocks.ids)

/-- A program in which functions may have other code and further global objects may have joined. -/
structure Program.Extends (p p' : Program) : Prop where
  functions : p'.functions.elems.map Function.outline = p.functions.elems.map Function.outline
  globals : List.IsPrefix p.globals.elems p'.globals.elems
  aliases : p'.aliases = p.aliases
  used : p'.used = p.used
  pointerSize : p'.pointerSize = p.pointerSize

namespace Program.Extends
variable {p' : Program}

theorem function? (h : p.Extends p') (id : Nat) :
    (p'.function? id).map Function.outline = (p.function? id).map Function.outline := by
  have hfind : ∀ q : Program, (q.function? id).map Function.outline
      = (q.functions.elems.map Function.outline).find? fun entry => entry.1 = id := by
    intro q
    rw [List.find?_map]
    rfl
  rw [hfind, hfind, h.functions]

theorem contains (h : p.Extends p') (id : Nat) :
    p'.functions.contains id = p.functions.contains id := by
  have hany : ∀ q : Program, q.functions.contains id
      = (q.functions.elems.map Function.outline).any fun entry => entry.1 = id := by
    intro q
    rw [List.any_map]
    rfl
  rw [hany, hany, h.functions]

theorem global? (h : p.Extends p') {id : Nat} {o : GlobalObject} (ho : p.global? id = some o) :
    p'.global? id = some o :=
  h.globals.find?_eq_some ho

theorem block? (h : p.Extends p') (function id : Nat) :
    (p'.block? function id).isSome = (p.block? function id).isSome := by
  have hlookup : ∀ q : Program, (q.block? function id).isSome
      = (((q.function? function).map Function.outline).bind fun entry => entry.2.2).any
        (·.contains id) := by
    intro q
    rw [Program.block?]
    cases q.function? function with
    | none => rfl
    | some f =>
      change (f.body.bind fun g => g.block? id).isSome = (f.body.map fun g => g.blocks.ids).any _
      cases f.body with
      | none => rfl
      | some g => exact Roster.isSome_get? g.blocks id
  rw [hlookup, hlookup, h.function?]

theorem hasSymbol (h : p.Extends p') {symbol : Symbol} (hsymbol : p.hasSymbol symbol = true) :
    p'.hasSymbol symbol = true := by
  cases symbol with
  | function id =>
    have hsome := congrArg Option.isSome (h.function? id)
    rw [Option.isSome_map, Option.isSome_map] at hsome
    simpa [Program.hasSymbol, symbolName?, hsome] using hsymbol
  | global id =>
    rw [Program.hasSymbol, symbolName?, Option.isSome_map] at hsymbol ⊢
    obtain ⟨o, ho⟩ := Option.isSome_iff_exists.mp hsymbol
    rw [h.global? ho]
    rfl
  | aliased id => simpa [Program.hasSymbol, symbolName?, Program.alias?, h.aliases] using hsymbol

theorem pointerResolves (h : p.Extends p') {entry : Pointer} (hentry : p.pointerResolves entry = true) :
    p'.pointerResolves entry = true := by
  cases entry with
  | null | raw _ => rfl
  | global id offset =>
    obtain ⟨o, ho, hoffset⟩ := (Option.any_eq_true ..).mp hentry
    rw [Program.pointerResolves, h.global? ho]
    exact hoffset
  | function id => exact (h.contains id).trans hentry
  | block function id => exact (h.block? function id).trans hentry

theorem verifyGlobal (h : p.Extends p') {o : GlobalObject} (ho : p.verifyGlobal o = .ok ()) :
    p'.verifyGlobal o = .ok () := by
  rw [Program.verifyGlobal_eq_ok_iff, h.pointerSize]
  intro init hinit
  obtain ⟨hsize, hresolves⟩ := Program.verifyGlobal_eq_ok_iff.mp ho init hinit
  exact ⟨hsize, fun entry hentry => h.pointerResolves (hresolves entry hentry)⟩

/-- A program with new code and new objects is accepted if the code and the objects are. -/
theorem verify (h : p.Extends p') (hok : p.verify = .ok ())
    (hfunctions : ∀ f ∈ p'.functions.elems, p'.verifyFunction f = .ok ())
    (hglobals : ∀ o ∈ p'.globals.elems, o ∉ p.globals.elems → p'.verifyGlobal o = .ok ()) :
    p'.verify = .ok () := by
  obtain ⟨-, hbefore, hused⟩ := Program.verify_eq_ok_iff.mp hok
  refine Program.verify_eq_ok_iff.mpr ⟨hfunctions, fun o ho => ?_, fun symbol hsymbol => ?_⟩
  · by_cases hold : o ∈ p.globals.elems
    · exact h.verifyGlobal (hbefore o hold)
    · exact hglobals o ho hold
  · exact h.hasSymbol (hused symbol (h.used ▸ hsymbol))

/-- What an operand refers to is left if the function keeps it. -/
theorem resolves (h : p.Extends p') {f' : Function} {g' : FlowGraph} {operand : Operand}
    (hoperand : p.Resolves f g operand) (hblocks : g'.blocks.ids = g.blocks.ids)
    (hframe : ∀ id, operand = .frame id → f.frame.contains id = true → f'.frame.contains id = true)
    (hallocated : f'.registers.allocated = f.registers.allocated)
    (hclasses : ∀ number, (f.registers.class? number).isSome = true →
      (f'.registers.class? number).isSome = true) : p'.Resolves f' g' operand := by
  refine hoperand.mono (fun _ => h.hasSymbol) (fun id hid => ?_) hframe hallocated hclasses
  rw [Roster.contains_eq, hblocks, ← Roster.contains_eq]
  exact hid

end Program.Extends
end ThumbHardening
