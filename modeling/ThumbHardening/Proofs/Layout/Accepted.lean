import ThumbHardening.Proofs.Guard.Operands
import ThumbHardening.Proofs.Layout.EtchedCode
import ThumbHardening.Proofs.Layout.Lookup
import ThumbHardening.Proofs.Layout.Untouched

/-!
# Whether the result is accepted

A run may take blocks away that something refers to, for the accessor of the guard replaces the body of a function.
If the blocks that are referred to are still found, and no `It` is etched, a program that was accepted is accepted
afterwards. Nothing else can go wrong, and each of the two does.
-/

namespace ThumbHardening
namespace Layout

/-! ### The functions afterwards -/

variable {p q : Program} {f : Function} {b : Block} {o : Options} {plan : Plan} {objects : List GlobalObject}
  {guard : GuardPlan}

theorem Carried.hasSymbol (h : Carried o p plan objects q) (symbol : Symbol) (hsymbol : p.hasSymbol symbol = true) :
    q.hasSymbol symbol = true := by
  obtain ⟨name, hname⟩ := Option.isSome_iff_exists.mp hsymbol
  rw [Program.hasSymbol, h.symbolName? hname]
  rfl

theorem Carried.hasSymbol_object (h : Carried o p plan objects q) {id : Nat}
    (hid : id ∈ objects.map GlobalObject.id) : q.hasSymbol (.global id) = true := by
  obtain ⟨g, hg, rfl⟩ := List.mem_map.mp hid
  rw [Program.hasSymbol_global, List.contains_iff_mem]
  exact List.mem_map_of_mem (h.globals.mem_iff.mpr (List.mem_append_right _ hg))

theorem Carried.verifyFunction_of_kept (h : Carried o p plan objects q) (hf : p.verifyFunction f = .ok ()) :
    q.verifyFunction f = .ok () := by
  rw [verifyFunction_eq_ok_iff] at hf ⊢
  intro g hg
  obtain ⟨hsound, hcode⟩ := hf g hg
  exact ⟨hsound, fun b hb => ⟨(hcode b hb).consistent, fun i hi operand hoperand =>
    ((hcode b hb).resolves i hi operand hoperand).mono h.hasSymbol (fun _ => id) (fun _ _ => id) rfl fun _ => id⟩⟩

/-- The accessor is accepted, for the decoys that it gives out have become objects. -/
theorem Carried.verifyFunction_accessor (h : Carried o p plan objects q) (hguard : guard.Sound plan.decoys)
    (hbody : f.body = some (accessorBody o guard objects)) : q.verifyFunction f = .ok () := by
  rw [verifyFunction_eq_ok_iff]
  intro g hg
  obtain rfl := Option.some.inj (hbody.symm.trans hg)
  refine ⟨FlowGraph.verify_eq_ok_iff.mp (Guard.verify_graph ..), Guard.soundCode_graph ?_ _ ?_⟩
  · intro global hglobal
    obtain ⟨k, hk, rfl⟩ := List.mem_map.mp hglobal
    have hlt : k < (objects.map GlobalObject.id).length := by
      rw [List.length_map, ← h.made.length_eq]
      exact hguard.candidates k hk
    rw [List.getD_eq_getElem?_getD, List.getElem?_eq_getElem hlt, Option.getD_some]
    exact h.hasSymbol_object (List.getElem_mem hlt)
  · rw [List.length_map]
    exact hguard.staticPick

/-! ### Nothing that is needed gets lost -/

/-- What has to hold of a plan for its result to be accepted. The blocks that old objects and decoys refer to are
still found, and no `It` is etched, unless the function of it is replaced anyway. -/
structure Plan.Intact (o : Options) (p : Program) (plan : Plan) : Prop where
  entries : ∀ g ∈ p.globals.elems, ∀ init, g.initializer = some init → ∀ function block,
    .block function block ∈ init.entries → plan.Reaches o p ⟨function, block⟩
  decoys : ∀ d ∈ plan.decoys, ∀ blocks, d.content = .traps blocks → ∀ t ∈ blocks, plan.Reaches o p t
  etched : ∀ d ∈ plan.decoys, ∀ t, d.etch = some t → replaced? p plan ≠ some t.function →
    ∀ b, p.block? t.function t.block = some b → b.startsWithIt = false

/-- What planning provides for. -/
structure Plan.Prepared (p : Program) (plan : Plan) : Prop where
  etched : ∀ d ∈ plan.decoys, ∀ t, d.etch = some t → t.function ∈ p.functions.ids
  traps : ∀ d ∈ plan.decoys, ∀ blocks, d.content = .traps blocks → ∀ t ∈ blocks, t.function ∈ p.functions.ids
  entries : ∀ d ∈ plan.decoys, d.content.initializer.entries.length ≤ d.size / p.pointerSize
  guard : ∀ guard, plan.guard = some guard → guard.Sound plan.decoys

theorem Made.exists_decoy (h : Made p.globals.next plan.decoys objects) {g : GlobalObject} (hg : g ∈ objects) :
    ∃ d ∈ plan.decoys, ∃ name id, g = { decoyObject name d with id } := by
  have hzip : g ∈ (plan.decoys.zip objects).map Prod.snd := by
    rwa [List.map_snd_zip (Nat.le_of_eq h.length_eq.symm)]
  obtain ⟨pair, hpair, rfl⟩ := List.mem_map.mp hzip
  obtain ⟨name, id, heq⟩ := h.eq_decoyObject pair hpair
  exact ⟨pair.1, (List.of_mem_zip hpair).1, name, id, heq⟩

theorem Made.exists_object (h : Made p.globals.next plan.decoys objects) {d : DecoyPlan} (hd : d ∈ plan.decoys) :
    ∃ g ∈ objects, ∃ name id, g = { decoyObject name d with id } := by
  have hzip : d ∈ (plan.decoys.zip objects).map Prod.fst := by
    rwa [List.map_fst_zip (Nat.le_of_eq h.length_eq)]
  obtain ⟨pair, hpair, rfl⟩ := List.mem_map.mp hzip
  exact ⟨pair.2, (List.of_mem_zip hpair).2, h.eq_decoyObject pair hpair⟩

theorem mem_etchedBy_iff (hmade : Made p.globals.next plan.decoys objects) {t : BlockPointer} :
    t ∈ (etchedBy plan objects).map Prod.fst ↔ ∃ d ∈ plan.decoys, d.etch = some t := by
  have hfst : (placedAs plan.decoys objects).map Prod.fst = plan.decoys := by
    rw [placedAs, List.map_map]
    exact List.map_fst_zip (Nat.le_of_eq hmade.length_eq)
  rw [etchedBy, map_fst_etchings, List.map_reverse, hfst, List.mem_filterMap]
  simp only [List.mem_reverse]

theorem mem_ids_of_block? {function block : Nat} (h : (p.block? function block).isSome = true) :
    function ∈ p.functions.ids := by
  obtain ⟨b, hb⟩ := Option.isSome_iff_exists.mp h
  obtain ⟨f, -, hf, -⟩ := Program.block?_eq_some hb
  exact List.mem_map.mpr ⟨f, Roster.mem_of_get? hf, Roster.id_of_get? hf⟩

theorem soundCode_of_block? (hall : ∀ f ∈ p.functions.elems, p.verifyFunction f = .ok ()) {function block : Nat}
    (hb : p.block? function block = some b) : ∃ f g, p.SoundCode f g b.instrs := by
  obtain ⟨f, g, hf, hg, hblock⟩ := Program.block?_eq_some hb
  exact ⟨f, g, (verifyFunction_eq_ok_iff.mp (hall f (Roster.mem_of_get? hf)) g hg).2 b (Roster.mem_of_get? hblock)⟩

/-- The functions afterwards are accepted if and only if no `It` is etched that stays. -/
theorem Carried.verifyFunctions_iff (h : Carried o p plan objects q) (hplan : plan.Prepared p)
    (hverify : ∀ f ∈ p.functions.elems, p.verifyFunction f = .ok ()) :
    (∀ f ∈ q.functions.elems, q.verifyFunction f = .ok ()) ↔
      ∀ d ∈ plan.decoys, ∀ t, d.etch = some t → replaced? p plan ≠ some t.function →
        ∀ b, p.block? t.function t.block = some b → b.startsWithIt = false := by
  constructor
  · intro hall d hd t ht hkept b hb
    have hafter := h.block?_of_kept (hplan.etched d hd t ht) hkept
    obtain ⟨decoy, hetched⟩ := exists_etchedAs_of_mem ((mem_etchedBy_iff h.made).mpr ⟨d, hd, ht⟩) b
    rw [hb, Option.map_some, hetched] at hafter
    obtain ⟨_, _, hbefore⟩ := soundCode_of_block? hverify hb
    obtain ⟨_, _, hafter⟩ := soundCode_of_block? hall hafter
    by_contra hit
    exact not_soundCode_etchBlock hbefore (by simpa using hit) decoy hafter
  · intro hits f hf
    rcases h.mem_functions hf with hold | ⟨old, hold, hkept, rfl⟩ | ⟨guard, hguard, hbody⟩
    · exact h.verifyFunction_of_kept (hverify f hold)
    · refine verifyFunction_etchFunction (h.verifyFunction_of_kept (hverify old (Roster.mem_of_get? hold)))
        (fun entry hentry => h.hasSymbol_object (h.made.mem_of_mem_etchedBy hentry)) fun g hg b _ hget hmem => ?_
      obtain ⟨d, hd, ht⟩ := (mem_etchedBy_iff h.made).mp hmem
      refine hits d hd _ ht hkept b ?_
      rw [Program.block?_eq, hold, Option.bind_some, hg]
      exact hget
    · exact h.verifyFunction_accessor (hplan.guard guard hguard) hbody

/-- An entry of an old object still refers to something, if its block is still found. -/
theorem Carried.pointerResolves (h : Carried o p plan objects q) {entry : Pointer}
    (hentry : p.pointerResolves entry = true)
    (hblock : ∀ function block, entry = .block function block → plan.Reaches o p ⟨function, block⟩) :
    q.pointerResolves entry = true := by
  cases entry with
  | null | raw _ => rfl
  | global id offset =>
    obtain ⟨g, hg, hoffset⟩ := (Option.any_eq_true ..).mp hentry
    rw [Program.pointerResolves, h.global? hg]
    exact hoffset
  | function id =>
    have hsymbol := h.hasSymbol (.function id)
    rw [Program.hasSymbol_function, Program.hasSymbol_function, ← Roster.contains_eq, ← Roster.contains_eq] at hsymbol
    exact hsymbol hentry
  | block function block =>
    exact (h.block?_isSome_iff (t := ⟨function, block⟩) (mem_ids_of_block? hentry)).mpr (hblock function block rfl)

/-- The objects afterwards are accepted if and only if the blocks that they refer to are still found. -/
theorem Carried.verifyGlobals_iff (h : Carried o p plan objects q) (hplan : plan.Prepared p)
    (hverify : ∀ g ∈ p.globals.elems, p.verifyGlobal g = .ok ()) :
    (∀ g ∈ q.globals.elems, q.verifyGlobal g = .ok ()) ↔
      (∀ g ∈ p.globals.elems, ∀ init, g.initializer = some init → ∀ function block,
        .block function block ∈ init.entries → plan.Reaches o p ⟨function, block⟩) ∧
      ∀ d ∈ plan.decoys, ∀ blocks, d.content = .traps blocks → ∀ t ∈ blocks, plan.Reaches o p t := by
  constructor
  · refine fun hall => ⟨fun g hg init hinit function block hentry => ?_, fun d hd blocks hcontent t ht => ?_⟩
    · have hbefore := (Program.verifyGlobal_eq_ok_iff.mp (hverify g hg) init hinit).2 _ hentry
      have hmem : g ∈ q.globals.elems := h.globals.mem_iff.mpr (List.mem_append_left _ hg)
      have hafter := (Program.verifyGlobal_eq_ok_iff.mp (hall g hmem) init hinit).2 _ hentry
      exact (h.block?_isSome_iff (t := ⟨function, block⟩) (mem_ids_of_block? hbefore)).mp hafter
    · obtain ⟨g, hg, name, id, rfl⟩ := h.made.exists_object hd
      have hmem := h.globals.mem_iff.mpr (List.mem_append_right _ hg)
      have hentry : Pointer.block t.function t.block ∈ d.content.initializer.entries := by
        rw [hcontent]
        exact List.mem_map_of_mem ht
      have hafter := (Program.verifyGlobal_eq_ok_iff.mp (hall _ hmem) _ rfl).2 _ hentry
      exact (h.block?_isSome_iff (hplan.traps d hd blocks hcontent t ht)).mp hafter
  · rintro ⟨hentries, hdecoys⟩ g hg
    rw [Program.verifyGlobal_eq_ok_iff, h.keeps.pointerSize]
    rcases List.mem_append.mp (h.globals.mem_iff.mp hg) with hold | hnew
    · intro init hinit
      obtain ⟨hsize, hresolves⟩ := Program.verifyGlobal_eq_ok_iff.mp (hverify g hold) init hinit
      refine ⟨hsize, fun entry hentry => h.pointerResolves (hresolves entry hentry) fun function block heq => ?_⟩
      exact hentries g hold init hinit function block (heq ▸ hentry)
    · obtain ⟨d, hd, name, id, rfl⟩ := h.made.exists_decoy hnew
      intro init hinit
      obtain rfl : d.content.initializer = init := Option.some.inj hinit
      refine ⟨(Nat.mul_le_mul_right _ (hplan.entries d hd)).trans (Nat.div_mul_le_self ..), fun entry hentry => ?_⟩
      cases hcontent : d.content with
      | zero =>
        rw [hcontent] at hentry
        cases hentry
      | words words =>
        rw [hcontent] at hentry
        obtain ⟨word, -, rfl⟩ := List.mem_map.mp hentry
        rfl
      | traps blocks =>
        rw [hcontent] at hentry
        obtain ⟨t, ht, rfl⟩ := List.mem_map.mp hentry
        exact (h.block?_isSome_iff (hplan.traps d hd blocks hcontent t ht)).mpr (hdecoys d hd blocks hcontent t ht)

theorem Carried.verify_iff (h : Carried o p plan objects q) (hplan : plan.Prepared p) (hverify : p.verify = .ok ()) :
    q.verify = .ok () ↔ plan.Intact o p := by
  obtain ⟨hfunctions, hglobals, -⟩ := Program.verify_eq_ok_iff.mp hverify
  rw [Program.verify_eq_ok_iff, h.verifyFunctions_iff hplan hfunctions, h.verifyGlobals_iff hplan hglobals]
  constructor
  · rintro ⟨hetched, ⟨hentries, hdecoys⟩, -⟩
    exact ⟨hentries, hdecoys, hetched⟩
  · exact fun hintact => ⟨hintact.etched, ⟨hintact.entries, hintact.decoys⟩, fun _ => h.built.hasSymbol_of_used⟩

end Layout

namespace LayoutRandomizer
open Layout

variable {r : LayoutRandomizer} {stream : RandomStream} {plan : Plan} {changed : Bool}

theorem Plans.prepared (h : r.Plans stream p plan) : plan.Prepared p := by
  obtain ⟨_, hok⟩ := h.2.2
  have hfunction : ∀ keep, ∀ t ∈ p.blockPointers keep, t.function ∈ p.functions.ids := by
    intro keep t ht
    obtain ⟨f, hf, -, -, -, hid, -⟩ := Program.mem_blockPointers_iff.mp ht
    exact hid ▸ List.mem_map_of_mem hf
  exact ⟨fun d hd t ht => hfunction _ t (etch_mem_blockPointers hok hd ht).1,
    fun d hd blocks hcontent t ht => hfunction _ t (traps_mem_blockPointers hok hd hcontent t ht),
    fun d hd => entries_le_of_plan hok hd, fun guard hguard => guard_of_plan hok hguard⟩

/-- The accessor replaces nothing that is referred to if it finds no function with a body. -/
theorem reaches_of_block?
    (haccessor : plan.guard.isSome = true → ∀ f ∈ p.functions.elems, p.IsAccessor f → f.body = none)
    {t : BlockPointer} (hblock : (p.block? t.function t.block).isSome = true) : plan.Reaches r.options p t := by
  refine ⟨fun _ => hblock, fun guard hguard hreplaced => ?_⟩
  rw [replaced?, hguard, Option.bind_some] at hreplaced
  obtain ⟨b, hb⟩ := Option.isSome_iff_exists.mp hblock
  obtain ⟨f, g, hf, hbody, -⟩ := Program.block?_eq_some hb
  have hid : f.id = t.function := Roster.id_of_get? hf
  have hnamed : p.IsAccessor f := Program.symbolNamed?_eq_function_iff.mpr (hid ▸ hreplaced)
  rw [haccessor (by rw [hguard]; rfl) f (Roster.mem_of_get? hf) hnamed] at hbody
  cases hbody

theorem Plans.intact (h : r.Plans stream p plan) (hverify : p.verify = .ok ()) (hfunctions : p.functions.ids.Nodup)
    (hblocks : ∀ f ∈ p.functions.elems, (f.blocks.map Block.id).Nodup)
    (haccessor : r.options.guard = true → ∀ f ∈ p.functions.elems, p.IsAccessor f → f.body = none) :
    plan.Intact r.options p := by
  obtain ⟨_, hok⟩ := h.2.2
  rw [← h.guard_isSome] at haccessor
  have hfound : ∀ keep, ∀ t ∈ p.blockPointers keep, ∃ f ∈ p.functions.elems, ∃ b ∈ f.blocks, keep b = true ∧
      p.block? t.function t.block = some b := by
    intro keep t ht
    obtain ⟨f, hf, b, hb, hkeep, hfid, hbid⟩ := Program.mem_blockPointers_iff.mp ht
    have hget := Program.block?_id hfunctions hf (hblocks f hf) hb
    rw [hfid, hbid] at hget
    exact ⟨f, hf, b, hb, hkeep, hget⟩
  refine ⟨fun g hg init hinit function block hentry => ?_, fun d hd blocks hcontent t ht => ?_,
    fun d hd t ht _ b hb => ?_⟩
  · have hglobals := (Program.verify_eq_ok_iff.mp hverify).2.1
    exact reaches_of_block? haccessor
      ((Program.verifyGlobal_eq_ok_iff.mp (hglobals g hg) init hinit).2 _ hentry)
  · obtain ⟨f, -, b, -, -, hget⟩ := hfound _ t (traps_mem_blockPointers hok hd hcontent t ht)
    exact reaches_of_block? haccessor (by rw [hget]; rfl)
  · obtain ⟨f, hf, b', hb', hkeep, hget⟩ := hfound _ t (etch_mem_blockPointers hok hd ht).1
    obtain rfl := Option.some.inj (hb.symm.trans hget)
    have htrap := Program.trapsFirst_of_verify hverify f hf b hb' ((Bool.and_eq_true ..).mp hkeep).1
    rw [Block.startsWithIt]
    cases hfirst : b.instrs.head? with
    | none => rfl
    | some i =>
      rw [hfirst] at htrap
      simp [Instr.isIt, Option.some.inj htrap]

/-- A run that succeeds leaves a program that is accepted if and only if its plan takes away nothing that is needed.
If the functions and the blocks of each can be told apart, that is so whenever the accessor of the guard finds no
function with a body under its name. -/
theorem verify_runWith (hbuilt : p.Built) (hverify : p.verify = .ok ())
    (hok : (r.runWith stream p).outcome = .ok changed) :
    ((r.runWith stream p).program.verify = .ok () ↔
      ∀ plan, r.Plans stream p plan → plan.Intact r.options p) ∧
    (p.functions.ids.Nodup → (∀ f ∈ p.functions.elems, (f.blocks.map Block.id).Nodup) →
      (r.options.guard = true → ∀ f ∈ p.functions.elems, p.IsAccessor f → f.body = none) →
      (r.runWith stream p).program.verify = .ok ()) := by
  have hiff : (r.runWith stream p).program.verify = .ok () ↔
      ∀ plan, r.Plans stream p plan → plan.Intact r.options p := by
    cases hon : r.options.randomization with
    | false =>
      have hsame : (r.runWith stream p).program = p := by simp [runWith, hon]
      rw [hsame]
      exact ⟨fun _ plan hplan => absurd (hon.symm.trans hplan.1) Bool.false_ne_true, fun _ => hverify⟩
    | true =>
      obtain ⟨plan, objects, hplan, hcarried⟩ := exists_carried hbuilt hon hok
      rw [hcarried.verify_iff hplan.prepared hverify]
      exact ⟨fun hintact plan' hplan' => hplan.unique hplan' ▸ hintact, fun hall => hall plan hplan⟩
  exact ⟨hiff, fun hfunctions hblocks haccessor =>
    hiff.mpr fun plan hplan => hplan.intact hverify hfunctions hblocks haccessor⟩

/-! ### An accessor with trap blocks -/

/-- A randomizer that makes a guard and lets decoys hold addresses of trap blocks. -/
def trapRandomizer : LayoutRandomizer :=
  { options := { (guardRandomizer 96).options with trapDecoys := true } }

/-- Without a function under the name of the accessor both decoys point to trap blocks that stay. -/
theorem verify_runWith_copyProgram :
    (trapRandomizer.runWith constantStream (copyProgram 2)).program.verify = .ok () := by
  have hok : (trapRandomizer.runWith constantStream (copyProgram 2)).outcome = .ok true := by decide +kernel
  exact (verify_runWith (built_copyProgram 2 rfl) (by decide +kernel) hok).2 (by decide +kernel) (by decide +kernel)
    (by decide +kernel)

/-- A function under the name of the accessor, with a trap block behind its return. -/
def trapAccessor : Function :=
  { copied 0 with name := Guard.functionName }

def accessorCode : Program :=
  let empty : Program := (Program.new 4).toOption.getD { pointerSize := 4 }
  ((empty.addFunction trapAccessor).toOption.map Prod.fst).getD empty

/-- A program with that function and a table. -/
def accessorProgram : Program :=
  (accessorCode.addGlobal { name := "table", size := 32, initializer := some (.bytes [1]) }).1

theorem built_accessorProgram : accessorProgram.Built := by
  have hnew : Program.new 4 = .ok ((Program.new 4).toOption.getD { pointerSize := 4 }) := rfl
  have hadd : ((Program.new 4).toOption.getD { pointerSize := 4 }).addFunction trapAccessor
      = .ok (accessorCode, 1) := rfl
  exact .addGlobal _ (.addFunction (.new hnew) hadd)

/-- The decoys point to a trap block that goes away when the accessor takes its place. -/
theorem not_verify_accessorProgram :
    ¬ ∀ (r : LayoutRandomizer) (stream : RandomStream) (p : Program) (changed : Bool), p.Built →
      p.verify = .ok () → (r.runWith stream p).outcome = .ok changed →
        (r.runWith stream p).program.verify = .ok () := by
  intro hclaim
  have hverify := hclaim trapRandomizer constantStream accessorProgram true built_accessorProgram (by decide +kernel)
    (by decide +kernel)
  have hdangling : (trapRandomizer.runWith constantStream accessorProgram).program.verify
      = .error (.danglingPointer "__obscura_decoy.0") := by decide +kernel
  rw [hdangling] at hverify
  cases hverify

end LayoutRandomizer
end ThumbHardening
