import ThumbHardening.Proofs.FlowGraph.Grown
import ThumbHardening.Proofs.Verify

/-!
# References to blocks

The verification asks of each reference to a block that some block has the ID. It does not ask that only one has
it, nor where that block stands: it accepts a program exactly if it accepts the same program with the blocks of
all functions in another order, or with some of them more than once. So a reference of an accepted program
denotes exactly one block if no other has joined under its ID, and whether fallthroughs are real is up to
whoever puts the blocks into their order.
-/

namespace ThumbHardening

/-- The same graph with its blocks in another layout. -/
def FlowGraph.relaid (g : FlowGraph) (order : List Block → List Block) : FlowGraph :=
  { g with blocks := { g.blocks with elems := order g.blocks.elems } }

/-- The same function with its blocks in another layout. -/
def Function.relaid (f : Function) (order : List Block → List Block) : Function :=
  { f with body := f.body.map fun g => g.relaid order }

/-- The same program with the blocks of every function in another layout. -/
def Program.relaid (p : Program) (order : List Block → List Block) : Program :=
  { p with functions := { p.functions with elems := p.functions.elems.map fun f => f.relaid order } }

variable {p : Program} {f : Function} {g : FlowGraph} {order : List Block → List Block} {id : Nat}

/-! ### Other layouts -/

theorem Program.function?_relaid (p : Program) (order : List Block → List Block) (id : Nat) :
    (p.relaid order).function? id = (p.function? id).map fun f => f.relaid order :=
  List.find?_map ..

theorem Program.hasSymbol_relaid (p : Program) (order : List Block → List Block) (symbol : Symbol) :
    (p.relaid order).hasSymbol symbol = p.hasSymbol symbol := by
  cases symbol with
  | function id =>
    rw [Program.hasSymbol, Program.hasSymbol, symbolName?, symbolName?, function?_relaid, Option.isSome_map,
      Option.isSome_map, Option.isSome_map]
  | global | aliased => rfl

section Relaid
variable (horder : ∀ blocks b, b ∈ order blocks ↔ b ∈ blocks)
include horder

theorem FlowGraph.contains_relaid (g : FlowGraph) (id : Nat) :
    (g.relaid order).blocks.contains id = g.blocks.contains id := by
  rw [Bool.eq_iff_iff, Roster.contains, Roster.contains, List.any_eq_true, List.any_eq_true]
  exact exists_congr fun b => and_congr_left fun _ => horder g.blocks.elems b

theorem FlowGraph.sound_relaid_iff : (g.relaid order).Sound ↔ g.Sound := by
  have hblocks : ∀ {P : Block → Prop}, (∀ b ∈ (g.relaid order).blocks.elems, P b) ↔ ∀ b ∈ g.blocks.elems, P b :=
    fun {_} => forall_congr' fun b => imp_congr_left (horder g.blocks.elems b)
  constructor
  · intro h
    refine ⟨h.entry_ne_zero, (g.contains_relaid horder _).symm.trans h.contains_entry, hblocks.mp h.blocks, ?_⟩
    simpa only [g.contains_relaid horder] using hblocks.mp h.targets
  · intro h
    refine ⟨h.entry_ne_zero, (g.contains_relaid horder _).trans h.contains_entry, hblocks.mpr h.blocks, ?_⟩
    simpa only [g.contains_relaid horder] using hblocks.mpr h.targets

theorem Program.block?_relaid_isSome (p : Program) (function id : Nat) :
    ((p.relaid order).block? function id).isSome = (p.block? function id).isSome := by
  rw [Program.block?, Program.block?, function?_relaid]
  cases p.function? function with
  | none => rfl
  | some f =>
    change ((f.body.map fun g => g.relaid order).bind fun g => g.block? id).isSome
      = (f.body.bind fun g => g.block? id).isSome
    cases f.body with
    | none => rfl
    | some g =>
      change ((g.relaid order).blocks.get? id).isSome = (g.blocks.get? id).isSome
      rw [Roster.isSome_get?, Roster.isSome_get?, ← Roster.contains_eq, ← Roster.contains_eq,
        g.contains_relaid horder]

theorem Program.pointerResolves_relaid (p : Program) :
    (p.relaid order).pointerResolves = p.pointerResolves := by
  funext entry
  cases entry with
  | null | raw | global => rfl
  | function id =>
    have hids : (p.relaid order).functions.ids = p.functions.ids := List.map_map ..
    rw [Program.pointerResolves, Program.pointerResolves, Roster.contains_eq, hids, ← Roster.contains_eq]
  | block function id => exact p.block?_relaid_isSome horder function id

theorem Program.resolves_relaid_iff {operand : Operand} :
    (p.relaid order).Resolves (f.relaid order) (g.relaid order) operand ↔ p.Resolves f g operand := by
  cases operand with
  | symbol symbol => exact iff_of_eq (congrArg (· = true) (p.hasSymbol_relaid order symbol))
  | block id => exact iff_of_eq (congrArg (· = true) (g.contains_relaid horder id))
  | frame id => rfl
  | reg r => cases r <;> rfl
  | imm | external => rfl

theorem Program.soundCode_relaid_iff {code : Code} :
    (p.relaid order).SoundCode (f.relaid order) (g.relaid order) code ↔ p.SoundCode f g code := by
  constructor
  · intro h
    exact ⟨h.consistent, fun i hi operand hop => (resolves_relaid_iff horder).mp (h.resolves i hi operand hop)⟩
  · intro h
    exact ⟨h.consistent, fun i hi operand hop => (resolves_relaid_iff horder).mpr (h.resolves i hi operand hop)⟩

theorem Program.verifyFunction_relaid_iff :
    (p.relaid order).verifyFunction (f.relaid order) = .ok () ↔ p.verifyFunction f = .ok () := by
  rw [verifyFunction_eq_ok_iff, verifyFunction_eq_ok_iff]
  cases hbody : f.body with
  | none => simp [Function.relaid, hbody]
  | some g =>
    have hrelaid : (f.relaid order).body = some (g.relaid order) := congrArg (Option.map _) hbody
    simp only [hrelaid, Option.some.injEq, forall_eq']
    refine and_congr (FlowGraph.sound_relaid_iff horder) (forall_congr' fun b => ?_)
    exact imp_congr (horder g.blocks.elems b) (soundCode_relaid_iff horder)

/-- The verification sees neither in which order blocks stand nor how often. -/
theorem Program.verify_relaid_iff : (p.relaid order).verify = .ok () ↔ p.verify = .ok () := by
  rw [verify_eq_ok_iff, verify_eq_ok_iff]
  refine and_congr ?_ (and_congr ?_ ?_)
  · exact List.forall_mem_map.trans (forall_congr' fun f => imp_congr_right fun _ => verifyFunction_relaid_iff horder)
  · simp only [verifyGlobal_eq_ok_iff, p.pointerResolves_relaid horder]
    rfl
  · simp only [p.hasSymbol_relaid order]
    rfl

end Relaid

/-! ### References -/

/-- A reference to a block of a body: its entry, an edge, an operand, or a pointer in a global object, which looks
for the function by its ID. -/
inductive Program.RefersTo (p : Program) (f : Function) (g : FlowGraph) : Nat → Prop
  | entry : RefersTo p f g g.entry
  | edge {b : Block} {edge : Edge} : b ∈ g.blocks.elems → edge ∈ b.edges → RefersTo p f g edge.target
  | operand {b : Block} {i : Instr} {id : Nat} : b ∈ g.blocks.elems → i ∈ b.instrs → .block id ∈ i.operands →
      RefersTo p f g id
  | pointer {o : GlobalObject} {init : Initializer} {id : Nat} : p.function? f.id = some f →
      o ∈ p.globals.elems → o.initializer = some init → .block f.id id ∈ init.entries → RefersTo p f g id

/-- In an accepted program, some block has the ID of a reference. -/
theorem mem_ids_of_refersTo (hok : p.verify = .ok ()) (hf : f ∈ p.functions.elems) (hbody : f.body = some g)
    (h : p.RefersTo f g id) : id ∈ g.blocks.ids := by
  obtain ⟨hsound, hcode⟩ := verifyFunction_eq_ok_iff.mp (Program.verifyFunction_of_verify hok hf) g hbody
  rw [← List.contains_iff_mem, ← Roster.contains_eq]
  cases h with
  | entry => exact hsound.contains_entry
  | edge hb hedge => exact hsound.targets _ hb _ hedge
  | operand hb hi hoperand => exact (hcode _ hb).resolves _ hi _ hoperand
  | pointer hfound ho hinit hentry =>
    have hglobal := (Program.verify_eq_ok_iff.mp hok).2.1 _ ho
    have hresolves := (Program.verifyGlobal_eq_ok_iff.mp hglobal _ hinit).2 _ hentry
    rw [Program.pointerResolves, Program.block?, hfound] at hresolves
    change (f.body.bind fun g => g.block? id).isSome = true at hresolves
    rw [hbody] at hresolves
    rw [Roster.contains_eq, ← Roster.isSome_get?]
    exact hresolves

/-- What the verification guarantees of references, and what it leaves open. Block IDs are not zero and each
reference to a block denotes one. It denotes no other one exactly if no block has joined under its ID while
that was in use, and the IDs are distinct exactly if that has never happened. Then the `next` edges lead to the
blocks directly behind their sources if the layout predecessors say so. None of this is checked: the program
with the blocks of its functions in any other order, or repeated, is accepted as well. -/
theorem verified_references (hok : p.verify = .ok ()) (hf : f ∈ p.functions.elems) (hbody : f.body = some g) :
    (∀ b ∈ g.blocks.elems, b.id ≠ 0) ∧
      (∀ id, p.RefersTo f g id → ∃ k, g.StandsAt id k) ∧
      (∀ reused, g.Grown reused →
        (∀ id, p.RefersTo f g id → ((∃! k, g.StandsAt id k) ↔ id ∉ reused)) ∧
          (g.blocks.ids.Nodup ↔ reused = [])) ∧
      (g.blocks.ids.Nodup →
        (∀ id, p.RefersTo f g id → ∃! k, g.StandsAt id k) ∧
          (g.FallsThrough ↔ ∀ b ∈ g.blocks.elems, ∀ target, .next target ∈ b.edges →
            g.layoutPredecessor? target = some b)) ∧
      ∀ order : List Block → List Block, (∀ blocks b, b ∈ order blocks ↔ b ∈ blocks) →
        (p.relaid order).verify = .ok () := by
  have hsound := (verifyFunction_eq_ok_iff.mp (Program.verifyFunction_of_verify hok hf) g hbody).1
  have hmem : ∀ id, p.RefersTo f g id → id ∈ g.blocks.ids := fun id => mem_ids_of_refersTo hok hf hbody
  refine ⟨fun b hb => (hsound.blocks b hb).id_ne_zero, fun id hid => ?_, fun reused hgrown => ?_,
    fun hids => ⟨fun id hid => ?_, FlowGraph.fallsThrough_iff hids⟩, fun order horder => ?_⟩
  · exact FlowGraph.exists_standsAt_iff.mpr (hmem id hid)
  · exact ⟨fun id hid => hgrown.existsUnique_standsAt_iff (hmem id hid), hgrown.nodup_iff⟩
  · exact FlowGraph.existsUnique_standsAt_iff.mpr (List.count_eq_one_of_mem hids (hmem id hid))
  · exact (Program.verify_relaid_iff horder).mpr hok

/-- Three blocks, the first of which is to fall through to the last. -/
def skippingGraph : FlowGraph :=
  { ((({} : FlowGraph).addBlock { instrs := [.nop], edges := [.next 3] }).addBlock
        { instrs := [.ret] }).addBlock { instrs := [.ret] } with
    entry := 1 }

def skippingProgram : Program :=
  { pointerSize := 4
    functions := ({} : Roster Function).insert { name := "f", body := some skippingGraph, calleeSaved := some [] } }

/-- The program is accepted, and so it is with all blocks twice. Its entry denotes one block, since none has joined
under an ID in use, but the fallthrough is not real. -/
theorem verified_references_skippingProgram :
    (∃! k, skippingGraph.StandsAt 1 k) ∧ ¬skippingGraph.FallsThrough ∧
      (skippingProgram.relaid fun blocks => blocks ++ blocks).verify = .ok () := by
  have hgrown : skippingGraph.Grown [] :=
    .kept (.appended { instrs := [.ret] } (.appended { instrs := [.ret] }
      (.appended { instrs := [.nop], edges := [.next 3] } .new))) rfl rfl
  obtain ⟨-, -, hhistory, hdistinct, hrelaid⟩ := verified_references (p := skippingProgram) (by decide +kernel)
    (List.mem_singleton_self _) rfl
  obtain ⟨hunique, hids⟩ := hhistory [] hgrown
  have hfalls := (hdistinct (hids.mpr rfl)).2
  refine ⟨(hunique 1 .entry).mpr List.not_mem_nil, fun hreal => ?_, hrelaid _ fun blocks b => by simp⟩
  exact absurd (hfalls.mp hreal _ List.mem_cons_self 3 List.mem_cons_self) (by decide)

/-- An accepted program may have references to several blocks, and fallthroughs to blocks that stand elsewhere. -/
theorem not_verified_references :
    (¬∀ p : Program, p.verify = .ok () → ∀ f ∈ p.functions.elems, ∀ g, f.body = some g →
        g.blocks.ids.Nodup ∧ ∀ id, p.RefersTo f g id → ∃! k, g.StandsAt id k) ∧
      ¬∀ p : Program, p.verify = .ok () → ∀ f ∈ p.functions.elems, ∀ g, f.body = some g → g.FallsThrough := by
  constructor
  · intro hclaim
    have htwice := hclaim (skippingProgram.relaid fun blocks => blocks ++ blocks) (by decide +kernel) _
      (List.mem_singleton_self _) _ rfl
    exact absurd htwice.1 (by decide)
  · intro hclaim
    have hreal := hclaim skippingProgram (by decide +kernel) _ (List.mem_singleton_self _) _ rfl
    exact absurd (hreal 0 _ rfl 3 List.mem_cons_self) (by decide)

end ThumbHardening
