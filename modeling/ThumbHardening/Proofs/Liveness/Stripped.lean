import ThumbHardening.Proofs.Liveness.Exact
import ThumbHardening.Proofs.Predication.Stripped

/-!
# Free registers without debug information

A register that debug information names counts as read there. So a graph and the same graph without debug
information agree on the free registers around what is left exactly if debug information names nothing but
registers that are read anyway: whatever the pieces name that execution meets behind an instruction, before it
comes to another one, is read later on.
-/

namespace ThumbHardening

/-! ### Debug information in code -/

theorem Instr.not_overwrites_of_isDebug {i : Instr} (hdebug : i.isDebug = true) (r : PhysReg) : ¬i.Overwrites r := by
  have hopcode : i.opcode = .debug := of_decide_eq_true hdebug
  intro hparts
  obtain ⟨-, hdefs⟩ := hparts
  simp [physDefs, writtenOperands, implicitDefs, hopcode, Opcode.numDefs, physRegs, RegSet.contains_ofList] at hdefs

theorem Operand.phys?_eq_some_iff {operand : Operand} {r : PhysReg} :
    operand.phys? = some r ↔ operand = .ofPhys r := by
  rcases operand with (_ | _) | _ | _ | _ | _ | _ <;> simp [phys?, ofPhys]

/-- Debug information counts as reading the registers that it names. -/
theorem Instr.contains_physUses_of_isDebug {i : Instr} (hdebug : i.isDebug = true) {r : PhysReg}
    (hgpr : RegClass.gpr.contains r = true) : i.physUses.contains r = true ↔ .ofPhys r ∈ i.operands := by
  have hopcode : i.opcode = .debug := of_decide_eq_true hdebug
  have hstatus : r ≠ .cpsr := by
    rintro rfl
    revert hgpr
    decide
  have hflags : i.flagUses.contains r = false := by
    rw [flagUses]
    split <;> simp [RegSet.contains_ofList, hstatus]
  have hread : i.readOperands = i.operands := by simp [readOperands, hopcode, Opcode.numDefs]
  simp [physUses, popsPc, hopcode, implicitUses, hflags, hread, physRegs, RegSet.contains_ofList,
    Operand.phys?_eq_some_iff]

namespace Code

variable {code : Code} {index : Nat} {i : Instr}

/-- Where an instruction stands once the debug information in front of it is gone. -/
def rankWithoutDebug (code : Code) (index : Nat) : Nat :=
  (withoutDebug (code.take index)).length

theorem rankWithoutDebug_succ (hi : code[index]? = some i) :
    code.rankWithoutDebug (index + 1) = code.rankWithoutDebug index + if i.isDebug then 0 else 1 := by
  rw [rankWithoutDebug, List.take_add_one, hi, withoutDebug_append, List.length_append, rankWithoutDebug]
  congr 1
  rw [Option.toList_some, withoutDebug_cons]
  split <;> rfl

theorem rankWithoutDebug_length (code : Code) : code.rankWithoutDebug code.length = code.withoutDebug.length := by
  rw [rankWithoutDebug, List.take_length]

theorem getElem?_withoutDebug (hi : code[index]? = some i) (hdebug : i.isDebug = false) :
    code.withoutDebug[code.rankWithoutDebug index]? = some i := by
  obtain ⟨hlt, rfl⟩ := List.getElem?_eq_some_iff.mp hi
  have hsplit : code.withoutDebug
      = withoutDebug (code.take index) ++ code[index] :: withoutDebug (code.drop (index + 1)) := by
    conv_lhs => rw [← List.take_append_drop index code, List.drop_eq_getElem_cons hlt]
    rw [withoutDebug_append, withoutDebug_cons, hdebug]
    rfl
  rw [hsplit, rankWithoutDebug, List.getElem?_append_right (Nat.le_refl _), Nat.sub_self, List.getElem?_cons_zero]

end Code

/-- The block without debug information. The cursor stays in front of the same instruction. -/
def Block.withoutDebug (b : Block) : Block :=
  { b with instrs := b.instrs.withoutDebug, cursor := b.instrs.rankWithoutDebug b.cursor }

namespace FlowGraph

def withoutDebug (g : FlowGraph) : FlowGraph :=
  { g with blocks := { g.blocks with elems := g.blocks.elems.map Block.withoutDebug } }

/-- Debug information names a register that execution meets at a position before anything else. -/
inductive Named (g : FlowGraph) (r : PhysReg) : (id index : Nat) → Prop
  | here {id index i} : g.instr? id index = some i → i.isDebug = true → .ofPhys r ∈ i.operands →
      Named g r id index
  | next {id index i} : g.instr? id index = some i → i.isDebug = true → Named g r id (index + 1) →
      Named g r id index
  | edge {id b edge} : g.block? id = some b → edge ∈ b.edges → Named g r edge.target 0 →
      Named g r id b.instrs.length

/-- Whether a register is read before it is overwritten, not counting debug information. -/
inductive ReadPast (g : FlowGraph) (r : PhysReg) : (id index : Nat) → Prop
  | here {id index i} : g.instr? id index = some i → i.isDebug = false → i.physUses.contains r = true →
      ReadPast g r id index
  | later {id index i} : g.instr? id index = some i → ¬i.Overwrites r → ReadPast g r id (index + 1) →
      ReadPast g r id index
  | edge {id b edge} : g.block? id = some b → edge ∈ b.edges → ReadPast g r edge.target 0 →
      ReadPast g r id b.instrs.length

variable {g : FlowGraph} {b : Block} {i : Instr} {r : PhysReg} {id index : Nat}

/-! ### The graph without debug information -/

theorem block?_withoutDebug (g : FlowGraph) (id : Nat) :
    g.withoutDebug.block? id = (g.block? id).map Block.withoutDebug := by
  rw [block?, Roster.get?, withoutDebug, List.find?_map]
  rfl

theorem ids_withoutDebug (g : FlowGraph) : g.withoutDebug.blocks.ids = g.blocks.ids := by
  rw [Roster.ids, withoutDebug, List.map_map]
  rfl

theorem instr?_withoutDebug (hb : g.block? id = some b) (hi : b.instrs[index]? = some i)
    (hdebug : i.isDebug = false) :
    g.withoutDebug.instr? id (b.instrs.rankWithoutDebug index) = some i := by
  rw [instr?, block?_withoutDebug, hb]
  exact Code.getElem?_withoutDebug hi hdebug

/-- In the rest of a block, what comes first that is no debug information is read past all in front of it. -/
theorem exists_past (hb : g.block? id = some b) (hle : index ≤ b.instrs.length) :
    ∃ next ≤ b.instrs.length, b.instrs.rankWithoutDebug next = b.instrs.rankWithoutDebug index ∧
      (∀ i, b.instrs[next]? = some i → i.isDebug = false) ∧ ∀ r, g.ReadPast r id next → g.ReadPast r id index := by
  induction hle using Nat.decreasingInduction with
  | self => exact ⟨_, Nat.le_refl _, rfl, by simp, fun _ hread => hread⟩
  | of_succ index hlt ih =>
    have hi : b.instrs[index]? = some b.instrs[index] := List.getElem?_eq_getElem hlt
    cases hdebug : b.instrs[index].isDebug with
    | false =>
      refine ⟨index, Nat.le_of_lt hlt, rfl, fun i hi' => ?_, fun _ hread => hread⟩
      rw [hi, Option.some.injEq] at hi'
      rwa [← hi']
    | true =>
      obtain ⟨next, hnext, hrank, hfirst, hpast⟩ := ih
      refine ⟨next, hnext, ?_, hfirst, fun r hread => ?_⟩
      · rw [hrank, Code.rankWithoutDebug_succ hi, hdebug]
        rfl
      · exact .later (instr?_eq_some_iff.mpr ⟨b, hb, hi⟩) (Instr.not_overwrites_of_isDebug hdebug r) (hpast r hread)

/-! ### Reads with and without debug information -/

theorem ReadPast.readFrom (h : g.ReadPast r id index) : g.ReadFrom r id index := by
  induction h with
  | here hi _ huses => exact ⟨_, .next hi (.stop _ _), .here huses⟩
  | later hi hkept _ ih =>
    obtain ⟨path, hpath, hread⟩ := ih
    exact ⟨_, .next hi hpath, .later hkept hread⟩
  | edge hb hedge _ ih =>
    obtain ⟨path, hpath, hread⟩ := ih
    exact ⟨path, .edge hb hedge hpath, hread⟩

theorem ReadPast.exists_block (h : g.ReadPast r id index) : ∃ b, g.block? id = some b := by
  cases h with
  | here hi | later hi =>
    obtain ⟨b, hb, -⟩ := instr?_eq_some_iff.mp hi
    exact ⟨b, hb⟩
  | edge hb => exact ⟨_, hb⟩

theorem ReadFrom.exists_block (h : g.ReadFrom r id index) : ∃ b, g.block? id = some b := by
  obtain ⟨path, hpath, hread⟩ := h
  cases hpath with
  | stop => cases hread
  | next hi =>
    obtain ⟨b, hb, -⟩ := instr?_eq_some_iff.mp hi
    exact ⟨b, hb⟩
  | edge hb => exact ⟨_, hb⟩

/-- What is read past debug information is read without it. -/
theorem ReadPast.readFrom_withoutDebug (h : g.ReadPast r id index) (hb : g.block? id = some b) :
    g.withoutDebug.ReadFrom r id (b.instrs.rankWithoutDebug index) := by
  induction h generalizing b with
  | here hi hdebug huses =>
    obtain ⟨b', hb', hget⟩ := instr?_eq_some_iff.mp hi
    obtain rfl : b' = b := Option.some.inj (hb'.symm.trans hb)
    exact ⟨_, .next (instr?_withoutDebug hb hget hdebug) (.stop _ _), .here huses⟩
  | @later id index i hi hkept _ ih =>
    obtain ⟨b', hb', hget⟩ := instr?_eq_some_iff.mp hi
    obtain rfl : b' = b := Option.some.inj (hb'.symm.trans hb)
    obtain ⟨path, hpath, hread⟩ := ih hb
    rw [Code.rankWithoutDebug_succ hget] at hpath
    cases hdebug : i.isDebug with
    | true =>
      rw [hdebug] at hpath
      exact ⟨path, hpath, hread⟩
    | false =>
      rw [hdebug] at hpath
      exact ⟨_, .next (instr?_withoutDebug hb hget hdebug) hpath, .later hkept hread⟩
  | @edge id b' edge hb' hedge hbehind ih =>
    obtain rfl : b' = b := Option.some.inj (hb'.symm.trans hb)
    obtain ⟨target, htarget⟩ := hbehind.exists_block
    obtain ⟨path, hpath, hread⟩ := ih htarget
    have hlast : g.withoutDebug.block? id = some b'.withoutDebug := by rw [block?_withoutDebug, hb]; rfl
    rw [Code.rankWithoutDebug_length]
    exact ⟨path, .edge hlast hedge hpath, hread⟩

/-- What is read without debug information is read past it, from any position that has the same rank. -/
theorem readPast_of_withoutDebug (hb : g.block? id = some b) (hle : index ≤ b.instrs.length)
    (h : g.withoutDebug.ReadFrom r id (b.instrs.rankWithoutDebug index)) : g.ReadPast r id index := by
  obtain ⟨path, hpath, hread⟩ := h
  generalize hrank : b.instrs.rankWithoutDebug index = rank at hpath
  generalize hstripped : g.withoutDebug = stripped at hpath
  induction hpath generalizing b index with
  | stop => cases hread
  | @next id rank i rest hi hrest ih =>
    subst hstripped hrank
    obtain ⟨next, hnext, hrank, hfirst, hpast⟩ := exists_past hb hle
    apply hpast r
    rcases Nat.lt_or_eq_of_le hnext with hlt | rfl
    · have hget : b.instrs[next]? = some b.instrs[next] := List.getElem?_eq_getElem hlt
      have hdebug := hfirst _ hget
      have hsame := instr?_withoutDebug hb hget hdebug
      rw [hrank, hi, Option.some.injEq] at hsame
      subst hsame
      have hnow : g.instr? id next = some b.instrs[next] := instr?_eq_some_iff.mpr ⟨b, hb, hget⟩
      cases hread with
      | here huses => exact .here hnow hdebug huses
      | later hkept hread =>
        refine .later hnow hkept (ih hb hlt hread ?_)
        rw [Code.rankWithoutDebug_succ hget, hdebug, hrank]
        rfl
    · rw [instr?, block?_withoutDebug, hb, ← hrank, Code.rankWithoutDebug_length] at hi
      simp [Block.withoutDebug] at hi
  | @edge id b' edge rest hb' hedge hrest ih =>
    subst hstripped
    rw [block?_withoutDebug, hb, Option.map_some, Option.some.injEq] at hb'
    subst hb'
    obtain ⟨next, hnext, hsame, hfirst, hpast⟩ := exists_past hb hle
    apply hpast r
    rcases Nat.lt_or_eq_of_le hnext with hlt | rfl
    · -- an instruction that is left would stand in front of the end
      have hget : b.instrs[next]? = some b.instrs[next] := List.getElem?_eq_getElem hlt
      have hleft := instr?_withoutDebug hb hget (hfirst _ hget)
      rw [instr?, block?_withoutDebug, hb, hsame, hrank] at hleft
      simp at hleft
    · obtain ⟨stripped, hstripped⟩ := ReadFrom.exists_block ⟨rest, hrest, hread⟩
      rw [block?_withoutDebug, Option.map_eq_some_iff] at hstripped
      obtain ⟨target, htarget, -⟩ := hstripped
      exact .edge hb hedge (ih htarget (Nat.zero_le _) hread rfl)

/-- Whatever debug information names that execution meets behind an instruction, before it comes to another one,
is read without it as well. -/
def NamesRead (g : FlowGraph) : Prop :=
  ∀ b ∈ g.blocks.elems, ∀ index i, b.instrs[index]? = some i → i.isDebug = false →
    ∀ r, RegClass.gpr.contains r = true → g.Named r b.id (index + 1) →
      g.withoutDebug.ReadFrom r b.id (b.instrs.rankWithoutDebug (index + 1))

theorem Named.of_instr? (h : g.Named r id index) (hi : g.instr? id index = some i) :
    i.isDebug = true ∧ (.ofPhys r ∈ i.operands ∨ g.Named r id (index + 1)) := by
  cases h with
  | here hi' hdebug hname =>
    obtain rfl := Option.some.inj (hi.symm.trans hi')
    exact ⟨hdebug, .inl hname⟩
  | next hi' hdebug hbehind =>
    obtain rfl := Option.some.inj (hi.symm.trans hi')
    exact ⟨hdebug, .inr hbehind⟩
  | edge hb =>
    obtain ⟨b, hb', hget⟩ := instr?_eq_some_iff.mp hi
    obtain rfl := Option.some.inj (hb.symm.trans hb')
    simp at hget

theorem Named.of_length (h : g.Named r id index) (hb : g.block? id = some b) (hlast : b.instrs.length = index) :
    ∃ edge ∈ b.edges, g.Named r edge.target 0 := by
  cases h with
  | here hi | next hi =>
    obtain ⟨b', hb', hget⟩ := instr?_eq_some_iff.mp hi
    obtain rfl := Option.some.inj (hb.symm.trans hb')
    simp [← hlast] at hget
  | edge hb' hedge hbehind =>
    obtain rfl := Option.some.inj (hb.symm.trans hb')
    exact ⟨_, hedge, hbehind⟩

theorem Named.readFrom (h : g.Named r id index) (hgpr : RegClass.gpr.contains r = true) : g.ReadFrom r id index := by
  induction h with
  | here hi hdebug hname =>
    exact ⟨_, .next hi (.stop _ _), .here ((Instr.contains_physUses_of_isDebug hdebug hgpr).mpr hname)⟩
  | next hi hdebug _ ih =>
    obtain ⟨path, hpath, hread⟩ := ih
    exact ⟨_, .next hi hpath, .later (Instr.not_overwrites_of_isDebug hdebug r) hread⟩
  | edge hb hedge _ ih =>
    obtain ⟨path, hpath, hread⟩ := ih
    exact ⟨path, .edge hb hedge hpath, hread⟩

/-- What is read first is read past debug information, unless debug information that names it comes first. -/
theorem NamesRead.readPast_or_named (h : g.NamesRead) (hgpr : RegClass.gpr.contains r = true)
    (hread : g.ReadFrom r id index) : g.ReadPast r id index ∨ g.Named r id index := by
  obtain ⟨path, hpath, hread⟩ := hread
  induction hpath with
  | stop => cases hread
  | @next id index i rest hi _ ih =>
    cases hdebug : i.isDebug with
    | true =>
      cases hread with
      | here huses => exact .inr (.here hi hdebug ((Instr.contains_physUses_of_isDebug hdebug hgpr).mp huses))
      | later hkept hread => exact (ih hread).imp (.later hi hkept) (.next hi hdebug)
    | false =>
      refine .inl ?_
      cases hread with
      | here huses => exact .here hi hdebug huses
      | later hkept hread =>
        refine .later hi hkept ((ih hread).elim (fun hpast => hpast) fun hnamed => ?_)
        obtain ⟨b, hb, hget⟩ := instr?_eq_some_iff.mp hi
        obtain ⟨hlt, -⟩ := List.getElem?_eq_some_iff.mp hget
        obtain rfl : b.id = id := Roster.id_of_get? hb
        exact readPast_of_withoutDebug hb hlt (h b (Roster.mem_of_get? hb) index i hget hdebug r hgpr hnamed)
  | edge hb hedge _ ih => exact (ih hread).imp (.edge hb hedge) (.edge hb hedge)

/-- Behind an instruction that is left, the same registers are read with debug information and without. -/
theorem NamesRead.readFrom_after_iff (h : g.NamesRead) (hids : g.blocks.ids.Nodup) (hb : b ∈ g.blocks.elems)
    (hi : b.instrs[index]? = some i) (hdebug : i.isDebug = false) (hgpr : RegClass.gpr.contains r = true) :
    g.withoutDebug.ReadFrom r b.id (b.instrs.rankWithoutDebug (index + 1)) ↔ g.ReadFrom r b.id (index + 1) := by
  have hblock := block?_id hids hb
  obtain ⟨hlt, -⟩ := List.getElem?_eq_some_iff.mp hi
  refine ⟨fun hread => (readPast_of_withoutDebug hblock hlt hread).readFrom, fun hread => ?_⟩
  rcases h.readPast_or_named hgpr hread with hpast | hnamed
  · exact hpast.readFrom_withoutDebug hblock
  · exact h b hb index i hi hdebug r hgpr hnamed

theorem NamesRead.readFrom_before_iff (h : g.NamesRead) (hids : g.blocks.ids.Nodup) (hb : b ∈ g.blocks.elems)
    (hi : b.instrs[index]? = some i) (hdebug : i.isDebug = false) (hgpr : RegClass.gpr.contains r = true) :
    g.withoutDebug.ReadFrom r b.id (b.instrs.rankWithoutDebug index) ↔ g.ReadFrom r b.id index := by
  have hblock := block?_id hids hb
  obtain ⟨hlt, -⟩ := List.getElem?_eq_some_iff.mp hi
  refine ⟨fun hread => (readPast_of_withoutDebug hblock (Nat.le_of_lt hlt) hread).readFrom, fun hread => ?_⟩
  rcases h.readPast_or_named hgpr hread with hpast | hnamed
  · exact hpast.readFrom_withoutDebug hblock
  · -- no debug information stands at the instruction itself
    obtain ⟨hdebug', -⟩ := hnamed.of_instr? (instr?_eq_some_iff.mpr ⟨b, hblock, hi⟩)
    rw [hdebug] at hdebug'
    cases hdebug'

/-! ### Free registers -/

theorem freeOf_eq_iff {regs regs' : RegSet} {compact : Bool} :
    freeOf regs' compact = freeOf regs compact ↔
      ∀ r, (if compact then RegClass.lowGpr else .gpr).contains r = true → regs'.contains r = regs.contains r := by
  constructor
  · intro h r hclass
    have hmem : r ∈ freeOf regs' compact ↔ r ∈ freeOf regs compact := by rw [h]
    rw [mem_freeOf_iff, mem_freeOf_iff, and_iff_right hclass, and_iff_right hclass] at hmem
    rw [← Bool.not_inj_iff, Bool.eq_iff_iff, Bool.not_eq_true', Bool.not_eq_true', hmem]
  · intro h
    refine List.filter_congr fun r _ => ?_
    rw [Bool.eq_iff_iff, ← RegSet.mem_toList_iff, ← RegSet.mem_toList_iff]
    change r ∈ freeOf regs' compact ↔ r ∈ freeOf regs compact
    rw [mem_freeOf_iff, mem_freeOf_iff]
    exact and_congr_right fun hclass => by rw [h r hclass]

theorem hasUses_withoutDebug (huses : g.hasUses = true) : g.withoutDebug.hasUses = true := by
  simp only [hasUses, withoutDebug, List.all_eq_true, List.mem_map] at huses ⊢
  rintro _ ⟨b, hb, rfl⟩ i hi
  exact huses b hb i (List.mem_of_mem_filter hi)

/-- The same registers are free at a position with debug information and without if the same are read there. -/
theorem exists_free_iff (hids : g.blocks.ids.Nodup) (huses : g.hasUses = true) (hb : b ∈ g.blocks.elems)
    (hle : index ≤ b.instrs.length) (reported reported' : Nat) (compact : Bool) :
    (∃ free, g.freeRegistersAt b.id index reported compact = .ok free ∧
      g.withoutDebug.freeRegistersAt b.id (b.instrs.rankWithoutDebug index) reported' compact = .ok free) ↔
    ∀ r, (if compact then RegClass.lowGpr else .gpr).contains r = true →
      (g.withoutDebug.ReadFrom r b.id (b.instrs.rankWithoutDebug index) ↔ g.ReadFrom r b.id index) := by
  have hids' : g.withoutDebug.blocks.ids.Nodup := (ids_withoutDebug g).symm ▸ hids
  have hb' : b.withoutDebug ∈ g.withoutDebug.blocks.elems := List.mem_map_of_mem hb
  have hle' : b.instrs.rankWithoutDebug index ≤ b.withoutDebug.instrs.length :=
    ((List.take_sublist index b.instrs).filter _).length_le
  obtain ⟨live, hlive, -⟩ := exists_liveness hids
  obtain ⟨live', hlive', -⟩ := exists_liveness hids'
  obtain ⟨regs, -, hexact, hfree⟩ := exists_liveAt?_exact hids huses hlive hb hle
  obtain ⟨regs', -, hexact', hfree'⟩ := exists_liveAt?_exact hids' (hasUses_withoutDebug huses) hlive' hb' hle'
  have hquery : g.withoutDebug.freeRegistersAt b.id (b.instrs.rankWithoutDebug index) reported' compact
      = .ok (freeOf regs' compact) := hfree' reported' compact
  rw [hfree reported compact, hquery]
  simp only [Except.ok.injEq, exists_eq_left', freeOf_eq_iff]
  refine forall_congr' fun r => forall_congr' fun _ => ?_
  rw [Bool.eq_iff_iff, hexact r, hexact' r]
  rfl

/-- Whether around every instruction that is left the free registers are the same with debug information and
without. -/
def SameFree (g : FlowGraph) : Prop :=
  ∀ b ∈ g.blocks.elems, ∀ index i, b.instrs[index]? = some i → i.isDebug = false → ∀ compact,
    (∃ free, g.freeRegistersBefore b.id index compact = .ok free ∧
      g.withoutDebug.freeRegistersBefore b.id (b.instrs.rankWithoutDebug index) compact = .ok free) ∧
    ∃ free, g.freeRegistersAfter b.id index compact = .ok free ∧
      g.withoutDebug.freeRegistersAfter b.id (b.instrs.rankWithoutDebug index) compact = .ok free

/-- The positions behind an instruction, with debug information and without. -/
theorem freeRegistersAfter_withoutDebug (hids : g.blocks.ids.Nodup)
    (hlength : ∀ b ∈ g.blocks.elems, b.instrs.length < 2 ^ 64) (hb : b ∈ g.blocks.elems)
    (hi : b.instrs[index]? = some i) (hdebug : i.isDebug = false) (compact : Bool) :
    g.freeRegistersAfter b.id index compact = g.freeRegistersAt b.id (index + 1) index compact ∧
    g.withoutDebug.freeRegistersAfter b.id (b.instrs.rankWithoutDebug index) compact
      = g.withoutDebug.freeRegistersAt b.id (b.instrs.rankWithoutDebug (index + 1))
          (b.instrs.rankWithoutDebug index) compact := by
  have hblock := block?_id hids hb
  have hlength' : ∀ b ∈ g.withoutDebug.blocks.elems, b.instrs.length < 2 ^ 64 := by
    intro b' hb'
    obtain ⟨b, hb, rfl⟩ := List.mem_map.mp hb'
    exact Nat.lt_of_le_of_lt (List.length_filter_le _ _) (hlength b hb)
  have hnow : g.instr? b.id index = some i := instr?_eq_some_iff.mpr ⟨b, hblock, hi⟩
  refine ⟨freeRegistersAfter_eq hlength (by rw [hnow]; rfl), ?_⟩
  rw [freeRegistersAfter_eq hlength' (by rw [instr?_withoutDebug hblock hi hdebug]; rfl),
    Code.rankWithoutDebug_succ hi, hdebug]
  rfl

theorem NamesRead.sameFree (h : g.NamesRead) (hids : g.blocks.ids.Nodup) (huses : g.hasUses = true)
    (hlength : ∀ b ∈ g.blocks.elems, b.instrs.length < 2 ^ 64) : g.SameFree := by
  intro b hb index i hi hdebug compact
  obtain ⟨hlt, -⟩ := List.getElem?_eq_some_iff.mp hi
  have hgpr (r : PhysReg) (hclass : (if compact then RegClass.lowGpr else .gpr).contains r = true) :
      RegClass.gpr.contains r = true :=
    gpr_of_mem_freeOf (mem_freeOf_iff.mpr ⟨hclass, RegSet.contains_empty r⟩)
  obtain ⟨hafter, hafter'⟩ := freeRegistersAfter_withoutDebug hids hlength hb hi hdebug compact
  rw [hafter, hafter']
  constructor
  · exact (exists_free_iff hids huses hb (Nat.le_of_lt hlt) _ _ compact).mpr fun r hclass =>
      h.readFrom_before_iff hids hb hi hdebug (hgpr r hclass)
  · exact (exists_free_iff hids huses hb hlt _ _ compact).mpr fun r hclass =>
      h.readFrom_after_iff hids hb hi hdebug (hgpr r hclass)

theorem SameFree.namesRead (h : g.SameFree) (hids : g.blocks.ids.Nodup) (huses : g.hasUses = true)
    (hlength : ∀ b ∈ g.blocks.elems, b.instrs.length < 2 ^ 64) : g.NamesRead := by
  intro b hb index i hi hdebug r hgpr hnamed
  obtain ⟨hlt, -⟩ := List.getElem?_eq_some_iff.mp hi
  obtain ⟨-, hfree⟩ := h b hb index i hi hdebug false
  obtain ⟨hafter, hafter'⟩ := freeRegistersAfter_withoutDebug hids hlength hb hi hdebug false
  rw [hafter, hafter', exists_free_iff hids huses hb hlt] at hfree
  exact (hfree r hgpr).mpr (hnamed.readFrom hgpr)

/-- In a graph with distinct block IDs in which the registers read are defined, deleting debug information
changes no free registers around the instructions that are left exactly if debug information names only what is
read anyway. Then the call limiter chooses the same register for each call. -/
theorem sameFree_iff_namesRead (hids : g.blocks.ids.Nodup) (huses : g.hasUses = true)
    (hlength : ∀ b ∈ g.blocks.elems, b.instrs.length < 2 ^ 64) :
    (g.SameFree ↔ g.NamesRead) ∧
    (g.NamesRead → ∀ b ∈ g.blocks.elems, ∀ index i, b.instrs[index]? = some i → i.isDebug = false → ∀ f,
      CallLimit.chooseRegister f g.withoutDebug b.id (b.instrs.rankWithoutDebug index)
        = CallLimit.chooseRegister f g b.id index) := by
  refine ⟨⟨fun h => h.namesRead hids huses hlength, fun h => h.sameFree hids huses hlength⟩, ?_⟩
  intro h b hb index i hi hdebug f
  obtain ⟨⟨free, hfree, hfree'⟩, -⟩ := h.sameFree hids huses hlength b hb index i hi hdebug false
  rw [CallLimit.chooseRegister, CallLimit.chooseRegister, hfree, hfree']

/-- A conditional call through `r4` and the end of the function, with debug information in between that names a
register. -/
def callThenNote (named : PhysReg) : FlowGraph :=
  { blocks := ({} : Roster Block).insert
      { instrs := [.it .eq 8, { Instr.callIndirect (.phys .r4) with pred := .eq },
          { Instr.debugMark with operands := [.ofPhys named] }, .ret] }
    entry := 1 }

/-- A function whose registers have been assigned. -/
def assignedFunction : Function :=
  { name := "f", registers := { allocated := true } }

theorem namesRead_callThenNote : (callThenNote .r0).NamesRead := by
  intro b hb index i hi hdebug r hgpr hnamed
  obtain rfl := List.mem_singleton.mp hb
  rcases index with _ | _ | _ | _ | index
  · cases (hnamed.of_instr? rfl).1
  · rcases (hnamed.of_instr? rfl).2 with hname | hnamed
    · obtain rfl : r = .r0 := by simpa [Operand.ofPhys] using hname
      exact ⟨[.ret], .next rfl (.stop 1 3), .here (by decide)⟩
    · cases (hnamed.of_instr? rfl).1
  · cases hi
    cases hdebug
  · obtain ⟨edge, hedge, -⟩ := hnamed.of_length rfl rfl
    cases hedge
  · cases hi

/-- The end of the function reads `r0` anyway, so it may be named: the call goes through `r12` in both graphs. -/
theorem sameFree_callThenNote :
    (callThenNote .r0).SameFree ∧
    CallLimit.chooseRegister assignedFunction (callThenNote .r0).withoutDebug 1 1
      = CallLimit.chooseRegister assignedFunction (callThenNote .r0) 1 1 ∧
    (CallLimit.chooseRegister assignedFunction (callThenNote .r0) 1 1).toOption.map Prod.snd = some (.phys .r12) := by
  obtain ⟨hiff, hchosen⟩ := sameFree_iff_namesRead (g := callThenNote .r0) (by decide) (by decide) (by decide)
  refine ⟨hiff.mpr namesRead_callThenNote, ?_, by decide +kernel⟩
  exact hchosen namesRead_callThenNote _ List.mem_cons_self 1 _ rfl rfl assignedFunction

/-- Debug information does change free registers: if it names `r12`, no register is left for the call. -/
theorem not_sameFree_callThenNote :
    ¬∀ g : FlowGraph, g.blocks.ids.Nodup → g.hasUses = true →
      (∀ b ∈ g.blocks.elems, b.instrs.length < 2 ^ 64) → g.SameFree := by
  intro hclaim
  have hsame := hclaim (callThenNote .r12) (by decide) (by decide) (by decide)
  obtain ⟨⟨free, hfree, hfree'⟩, -⟩ := hsame _ List.mem_cons_self 1 _ rfl rfl false
  have hnone : (callThenNote .r12).freeRegistersBefore 1 1 false = .ok [] := by decide +kernel
  have hsome : (callThenNote .r12).withoutDebug.freeRegistersBefore 1 1 false = .ok [.r12] := by decide +kernel
  cases hnone.symm.trans hfree
  cases hsome.symm.trans hfree'

end FlowGraph
end ThumbHardening
