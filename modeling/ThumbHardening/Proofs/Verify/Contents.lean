import ThumbHardening.CallGraph
import ThumbHardening.Proofs.Program.Bindings
import ThumbHardening.Proofs.Verify

/-!
# The contents of accepted programs

What the verification guarantees of the operands of instructions and of the initial contents of global objects:
whatever they refer to exists. It also compares the length of an initializer with the size of its object, but
counts pointer entries only. Bytes have none, so a program is accepted exactly if it is accepted with any other
bytes in place of those it has, and bytes that do not fit their object go unnoticed.
-/

namespace ThumbHardening

namespace Program

/-- A symbol of the program. -/
inductive Has (p : Program) : Symbol → Prop
  | function {f : Function} : f ∈ p.functions.elems → Has p (.function f.id)
  | global {o : GlobalObject} : o ∈ p.globals.elems → Has p (.global o.id)
  | aliased {a : Alias} : a ∈ p.aliases.elems → Has p (.aliased a.id)

/-- An operand of an instruction of a function that does not lead to anything missing. Once registers are assigned
there are no virtual ones. -/
inductive Denotes (p : Program) (f : Function) : Operand → Prop
  | symbol {symbol : Symbol} {offset : Int} {part : AddrPart} : p.Has symbol →
      Denotes p f (.symbol symbol offset part)
  | block {g : FlowGraph} {b : Block} : f.body = some g → b ∈ g.blocks.elems → Denotes p f (.block b.id)
  | frame {o : StackObject} : o ∈ f.frame.elems → Denotes p f (.frame o.id)
  | virt {number : Nat} : f.registers.allocated = false → number < f.registers.classes.length →
      Denotes p f (.reg (.virt number))
  | phys {reg : PhysReg} : Denotes p f (.reg (.phys reg))
  | imm {value : Int} : Denotes p f (.imm value)
  | external {name : String} : Denotes p f (.external name)

/-- An entry of an initializer that does not lead to anything missing. A pointer to an object leads to one of its
bytes, or to the start of an empty one. -/
inductive PointsInside (p : Program) : Pointer → Prop
  | null : PointsInside p .null
  | raw {value : Nat} : PointsInside p (.raw value)
  | global {id offset : Nat} {o : GlobalObject} : p.global? id = some o →
      offset < o.size ∨ o.size = 0 ∧ offset = 0 → PointsInside p (.global id offset)
  | function {f : Function} : f ∈ p.functions.elems → PointsInside p (.function f.id)
  | block {id : Nat} {f : Function} {g : FlowGraph} {b : Block} : p.function? id = some f → f.body = some g →
      b ∈ g.blocks.elems → PointsInside p (.block id b.id)

end Program

variable {p : Program} {f : Function} {g : FlowGraph}

/-! ### What references lead to -/

theorem Program.Has.of_hasSymbol {symbol : Symbol} (h : p.hasSymbol symbol = true) : p.Has symbol := by
  cases symbol with
  | function id =>
    rw [hasSymbol_function, ← Roster.contains_eq] at h
    obtain ⟨f, hf, rfl⟩ := Roster.exists_of_contains h
    exact .function hf
  | global id =>
    rw [hasSymbol_global, ← Roster.contains_eq] at h
    obtain ⟨o, ho, rfl⟩ := Roster.exists_of_contains h
    exact .global ho
  | aliased id =>
    rw [hasSymbol_aliased, ← Roster.contains_eq] at h
    obtain ⟨a, ha, rfl⟩ := Roster.exists_of_contains h
    exact .aliased ha

theorem Program.Resolves.denotes {operand : Operand} (hbody : f.body = some g) (h : p.Resolves f g operand) :
    p.Denotes f operand := by
  cases operand with
  | symbol symbol => exact .symbol (.of_hasSymbol h)
  | block id =>
    obtain ⟨b, hb, rfl⟩ := Roster.exists_of_contains h
    exact .block hbody hb
  | frame id =>
    obtain ⟨o, ho, rfl⟩ := Roster.exists_of_contains h
    exact .frame ho
  | reg r =>
    cases r with
    | phys => exact .phys
    | virt number => exact .virt h.1 (by simpa [Registers.class?] using h.2)
  | imm => exact .imm
  | external => exact .external

theorem Program.pointsInside {entry : Pointer} (h : p.pointerResolves entry = true) : p.PointsInside entry := by
  cases entry with
  | null => exact .null
  | raw => exact .raw
  | global id offset =>
    obtain ⟨o, ho, hoffset⟩ := (Option.any_eq_true ..).mp h
    have hlt : offset < max o.size 1 := of_decide_eq_true hoffset
    exact .global ho (by omega)
  | function id =>
    obtain ⟨f, hf, rfl⟩ := Roster.exists_of_contains h
    exact .function hf
  | block function id =>
    obtain ⟨b, hb⟩ := Option.isSome_iff_exists.mp h
    obtain ⟨f, hf, hb⟩ := Option.bind_eq_some_iff.mp hb
    obtain ⟨g, hg, hb⟩ := Option.bind_eq_some_iff.mp hb
    exact Roster.id_of_get? hb ▸ .block hf hg (Roster.mem_of_get? hb)

/-! ### Other bytes -/

/-- The same initial content, with other bytes if it consists of bytes. -/
def Initializer.refill (bytes : List Nat) : Initializer → Initializer
  | .bytes _ => .bytes bytes
  | .zero => .zero
  | .pointers entries => .pointers entries

/-- The same object, with other bytes if it holds bytes. -/
def GlobalObject.refill (o : GlobalObject) (bytes : List Nat) : GlobalObject :=
  { o with initializer := o.initializer.map (.refill bytes) }

/-- The same program, with other bytes in the objects that hold bytes. -/
def Program.refill (p : Program) (bytes : GlobalObject → List Nat) : Program :=
  { p with globals := { p.globals with elems := p.globals.elems.map fun o => o.refill (bytes o) } }

section Refill
variable (p : Program) (bytes : GlobalObject → List Nat)

theorem Initializer.entries_refill (content : List Nat) (init : Initializer) :
    (init.refill content).entries = init.entries := by
  cases init <;> rfl

theorem Program.global?_refill (id : Nat) :
    (p.refill bytes).global? id = (p.global? id).map fun o => o.refill (bytes o) :=
  List.find?_map ..

theorem Program.hasSymbol_refill (symbol : Symbol) : (p.refill bytes).hasSymbol symbol = p.hasSymbol symbol := by
  have hglobals : (p.refill bytes).globals.ids = p.globals.ids := List.map_map
  exact hasSymbol_congr (p := p) (q := p.refill bytes) rfl hglobals rfl symbol

theorem Program.pointerResolves_refill : (p.refill bytes).pointerResolves = p.pointerResolves := by
  funext entry
  cases entry with
  | global id offset =>
    rw [pointerResolves, pointerResolves, global?_refill, Option.any_map]
    rfl
  | null | raw | function | block => rfl

variable {p bytes}

theorem Program.resolves_refill_iff {operand : Operand} :
    (p.refill bytes).Resolves f g operand ↔ p.Resolves f g operand := by
  cases operand with
  | symbol symbol => exact iff_of_eq (congrArg (· = true) (p.hasSymbol_refill bytes symbol))
  | reg r => cases r <;> rfl
  | block | frame | imm | external => rfl

theorem Program.verifyFunction_refill_iff :
    (p.refill bytes).verifyFunction f = .ok () ↔ p.verifyFunction f = .ok () := by
  have hcode : ∀ g code, (p.refill bytes).SoundCode f g code ↔ p.SoundCode f g code := fun g code =>
    ⟨fun h => ⟨h.consistent, fun i hi operand hop => resolves_refill_iff.mp (h.resolves i hi operand hop)⟩,
      fun h => ⟨h.consistent, fun i hi operand hop => resolves_refill_iff.mpr (h.resolves i hi operand hop)⟩⟩
  simp only [verifyFunction_eq_ok_iff, hcode]

theorem Program.verifyGlobal_refill_iff {o : GlobalObject} {content : List Nat} :
    (p.refill bytes).verifyGlobal (o.refill content) = .ok () ↔ p.verifyGlobal o = .ok () := by
  rw [verifyGlobal_eq_ok_iff, verifyGlobal_eq_ok_iff, pointerResolves_refill]
  cases hinit : o.initializer with
  | none => simp [GlobalObject.refill, hinit]
  | some init =>
    have hrefilled : (o.refill content).initializer = some (init.refill content) :=
      congrArg (Option.map _) hinit
    simp only [hrefilled, Option.some.injEq, forall_eq', Initializer.entries_refill]
    rfl

/-- The verification does not look at bytes. -/
theorem Program.verify_refill_iff : (p.refill bytes).verify = .ok () ↔ p.verify = .ok () := by
  rw [verify_eq_ok_iff, verify_eq_ok_iff]
  refine and_congr ?_ (and_congr ?_ ?_)
  · exact forall_congr' fun f => imp_congr_right fun _ => verifyFunction_refill_iff
  · exact List.forall_mem_map.trans (forall_congr' fun o => imp_congr_right fun _ => verifyGlobal_refill_iff)
  · simp only [p.hasSymbol_refill bytes]
    rfl

end Refill

/-! ### Accepted programs -/

/-- In an accepted program the initial content of an object fits the object, unless it consists of too many bytes.
All that contents and operands refer to exists, pointers to objects stay inside of them, and a function whose
registers are assigned uses no virtual ones. Bytes are not looked at: with any others, however many, the program
is accepted as well. -/
theorem verified_contents (hok : p.verify = .ok ()) :
    (∀ o ∈ p.globals.elems, ∀ init, o.initializer = some init →
      (init.encodedSize p.pointerSize ≤ o.size ↔ ∀ bytes, init = .bytes bytes → bytes.length ≤ o.size) ∧
        ∀ entry ∈ init.entries, p.PointsInside entry) ∧
      (∀ f ∈ p.functions.elems, ∀ i ∈ f.instrs, ∀ operand ∈ i.operands, p.Denotes f operand) ∧
      ∀ bytes, (p.refill bytes).verify = .ok () := by
  obtain ⟨hfunctions, hglobals, -⟩ := Program.verify_eq_ok_iff.mp hok
  refine ⟨fun o ho init hinit => ?_, fun f hf i hi operand hoperand => ?_, fun bytes =>
    Program.verify_refill_iff.mpr hok⟩
  · obtain ⟨hsize, hresolves⟩ := Program.verifyGlobal_eq_ok_iff.mp (hglobals o ho) init hinit
    refine ⟨?_, fun entry hentry => Program.pointsInside (hresolves entry hentry)⟩
    cases init with
    | zero => simp [Initializer.encodedSize]
    | bytes content => simp [Initializer.encodedSize]
    | pointers entries => exact iff_of_true hsize (by simp)
  · rw [Function.instrs, List.mem_flatMap] at hi
    obtain ⟨b, hb, hi⟩ := hi
    cases hbody : f.body with
    | none =>
      rw [Function.blocks, hbody] at hb
      cases hb
    | some g =>
      rw [Function.blocks, hbody] at hb
      have hcode := (verifyFunction_eq_ok_iff.mp (hfunctions f hf) g hbody).2 b hb
      exact (hcode.resolves i hi operand hoperand).denotes hbody

/-- A function that reads a stack object into a virtual register. -/
def spiller : Function :=
  { id := 1, name := "spiller", calleeSaved := some [], registers := { classes := [.gpr] }
    frame := ({} : Frame).insert { name := "slot", type := some .functionPointer, size := 4, align := 4 }
    body := some { ({} : FlowGraph).addBlock
        { instrs := [{ opcode := .load, operands := [.reg (.virt 0), .frame 1, .imm 0] }, .ret] } with
      entry := 1 } }

/-- A program with that function, its address and that of its block in a table, and the given bytes in an object of
four bytes. -/
def spillerProgram (bytes : List Nat) : Program :=
  { pointerSize := 4
    functions := ({} : Roster Function).insert spiller
    globals := (({} : Roster GlobalObject).insert
        { name := "table", size := 8, initializer := some (.pointers [.function 1, .block 1 1]) }).insert
      { name := "word", size := 4, initializer := some (.bytes bytes) } }

/-- The table fits, its last entry and the stack object exist, and a hundred bytes are accepted for four. -/
theorem verified_contents_spillerProgram :
    (Initializer.pointers [.function 1, .block 1 1]).encodedSize 4 ≤ 8 ∧
      (spillerProgram [0, 0, 0, 0]).PointsInside (.block 1 1) ∧
      (spillerProgram [0, 0, 0, 0]).Denotes spiller (.frame 1) ∧
      ((spillerProgram [0, 0, 0, 0]).refill fun _ => List.replicate 100 0).verify = .ok () := by
  obtain ⟨hcontents, hoperands, hrefill⟩ :=
    verified_contents (p := spillerProgram [0, 0, 0, 0]) (by decide +kernel)
  obtain ⟨hfits, hentries⟩ := hcontents _ List.mem_cons_self _ rfl
  refine ⟨hfits.mpr (by simp), hentries _ (by simp [Initializer.entries]), ?_, hrefill _⟩
  exact hoperands spiller List.mem_cons_self _ List.mem_cons_self _ (by simp)

/-- Bytes in an accepted program may be more than the size of their object. -/
theorem not_verified_contents_fit :
    ¬∀ p : Program, p.verify = .ok () → ∀ o ∈ p.globals.elems, ∀ init, o.initializer = some init →
      init.encodedSize p.pointerSize ≤ o.size := by
  intro hclaim
  have hfits := hclaim (spillerProgram [1, 2, 3, 4, 5, 6, 7, 8]) (by decide +kernel) _
    (List.mem_cons_of_mem _ List.mem_cons_self) _ rfl
  exact absurd hfits (by decide)

end ThumbHardening
