import ThumbHardening.Proofs.Layout.Atomic
import ThumbHardening.Proofs.Leakage.Randomized

/-!
# Trap blocks are etched once

A run etches as many free trap blocks as it makes decoys, or all of them, each with the address of a decoy of its
own. From then on they hold an address, so no later run takes them for free, and no run touches another block
but those of the accessor of the guard, which has no trap blocks.
-/

namespace ThumbHardening

open Layout TrapPool

/-! ### Programs whose blocks can be told apart -/

/-- A program whose blocks are found by their IDs, and whose accessor of the guard has no trap blocks. -/
structure Program.Separated (p : Program) : Prop where
  built : p.Built
  functions : p.functions.ids.Nodup
  blocks : ∀ f ∈ p.functions.elems, (f.blocks.map Block.id).Nodup
  accessor : ∀ f ∈ p.functions.elems, p.IsAccessor f → ∀ b ∈ f.blocks, b.trap = false

/-- A function with a trap block is not the accessor. -/
theorem Program.Separated.not_isAccessor {p : Program} (hp : p.Separated) {f : Function}
    (hf : f ∈ p.functions.elems) {b : Block} (hb : b ∈ f.blocks) (htrap : b.trap = true) : ¬ p.IsAccessor f := by
  intro haccessor
  rw [hp.accessor f hf haccessor b hb] at htrap
  cases htrap

namespace Layout

variable {p q : Program} {t : BlockPointer} {b : Block}

/-- Etching does not mix blocks up. -/
theorem State.Underway.separated {s : State} {etched : List (BlockPointer × Nat)} (h : s.Underway p etched)
    (hp : p.Separated) : s.program.Separated := by
  refine ⟨h.built, h.function_ids ▸ hp.functions, fun f hf => ?_, fun f hf haccessor b hb => ?_⟩
  · obtain ⟨f', hf', hsame⟩ := h.exists_skeleton hf
    have hids := congrArg (fun s => s.2.2.map Prod.fst) hsame
    simp only [Function.skeleton, List.map_map] at hids
    exact hids ▸ hp.blocks f' hf'
  · obtain ⟨f', hf', hsame⟩ := h.exists_skeleton hf
    have hid : f.id = f'.id := (congrArg Prod.fst hsame).symm
    have hblocks : f'.blocks.map (fun b => (b.id, b.trap)) = f.blocks.map fun b => (b.id, b.trap) :=
      congrArg (fun s => s.2.2) hsame
    have hmem := List.mem_map_of_mem (f := fun b : Block => (b.id, b.trap)) hb
    rw [← hblocks] at hmem
    obtain ⟨b', hb', heq⟩ := List.mem_map.mp hmem
    rw [← hp.accessor f' hf' ((h.isAccessor_iff hid).mp haccessor) b' hb']
    exact (congrArg Prod.snd heq).symm

theorem Guarded.separated (h : Guarded p q) (hp : p.Separated) : q.Separated := by
  refine ⟨h.built, h.ids, fun f hf => ?_, fun f hf haccessor => ?_⟩
  · rcases h.functions f hf with hold | ⟨-, candidates, rngAddress, staticPick, hbody⟩
    · exact hp.blocks f hold
    · rw [Function.blocks, hbody]
      exact Guard.nodup_graph candidates rngAddress staticPick
  · rcases h.functions f hf with hold | ⟨-, candidates, rngAddress, staticPick, hbody⟩
    · exact hp.accessor f hold (h.accessor f hold haccessor)
    · rw [Function.blocks, hbody]
      exact Guard.trap_graph candidates rngAddress staticPick

/-- The guard leaves the blocks of all other functions alone. -/
theorem Guarded.block? (h : Guarded p q) {function id : Nat} (hb : p.block? function id = some b)
    (hother : ∀ f ∈ p.functions.elems, f.id = function → ¬ p.IsAccessor f) :
    q.block? function id = some b := by
  obtain ⟨f, g, hf, hbody, hblock⟩ := Program.block?_eq_some hb
  have hmem := Roster.mem_of_get? hf
  have hid : f.id = function := Roster.id_of_get? hf
  have hkept := h.kept f hmem (hother f hmem hid)
  have hget : q.function? function = some f := hid ▸ Roster.get?_id h.ids hkept
  simp only [Program.block?, hget, Option.bind_eq_bind, Option.bind_some, hbody, hblock]

/-- After a plan has been carried out, the blocks outside the accessor of the guard are as they were, apart from
what was etched. -/
theorem Finished.block? {plan : Plan} {objects : List GlobalObject} {t s : State}
    (h : Finished p plan objects t s) {f : Function} (hp : p.Separated) (hf : f ∈ p.functions.elems)
    (hother : ¬ p.IsAccessor f) (hb : b ∈ f.blocks) :
    s.program.block? f.id b.id = some (etchedAs (etchings t.placed) ⟨f.id, b.id⟩ b) := by
  have hblock := h.underway.blocks ⟨f.id, b.id⟩
  rw [Program.block?_id hp.functions hf (hp.blocks f hf) hb, Option.map_some] at hblock
  exact h.guarded.block? hblock fun f' _ hid => (h.underway.isAccessor_iff hid).not.mpr hother

theorem Finished.nodup {plan : Plan} {objects : List GlobalObject} {t s : State}
    (h : Finished p plan objects t s) : s.program.globals.ids.Nodup :=
  h.guarded.globals ▸ h.underway.nodup

/-! ### What is etched -/

theorem map_fst_etchings (placed : List (DecoyPlan × Nat)) :
    (etchings placed).map Prod.fst = (placed.map Prod.fst).filterMap DecoyPlan.etch := by
  rw [etchings, List.map_filterMap, List.filterMap_map]
  refine List.filterMap_congr fun d _ => ?_
  cases hetch : d.1.etch <;> simp [hetch]

theorem Finished.perm_etchings {plan : Plan} {objects : List GlobalObject} {t s : State}
    (h : Finished p plan objects t s) :
    ((etchings t.placed).map Prod.fst).Perm (plan.decoys.filterMap DecoyPlan.etch) := by
  have hplaced : t.placed.reverse.map Prod.fst = plan.decoys := by
    rw [h.placed, placedAs, List.map_map]
    exact List.map_fst_zip (Nat.le_of_eq h.made.length_eq)
  rw [map_fst_etchings, ← hplaced]
  exact (t.placed.reverse_perm.symm.map Prod.fst).filterMap _

theorem exists_of_mem_etchings {placed : List (DecoyPlan × Nat)} {entry : BlockPointer × Nat}
    (h : entry ∈ etchings placed) : ∃ d ∈ placed, d.1.etch = some entry.1 ∧ d.2 = entry.2 := by
  obtain ⟨d, hd, heq⟩ := List.mem_filterMap.mp h
  obtain ⟨t, ht, rfl⟩ := Option.map_eq_some_iff.mp heq
  exact ⟨d, hd, ht, rfl⟩

theorem map_snd_etchings_sublist (placed : List (DecoyPlan × Nat)) :
    ((etchings placed).map Prod.snd).Sublist (placed.map Prod.snd) := by
  induction placed with
  | nil => exact .slnil
  | cons d rest ih =>
    rw [etchings, List.filterMap_cons]
    cases d.1.etch with
    | none => exact ih.cons _
    | some t => exact ih.cons_cons _

/-- No two decoys have one ID. -/
theorem Finished.nodup_etchings {plan : Plan} {objects : List GlobalObject} {t s : State}
    (h : Finished p plan objects t s) : ((etchings t.placed).map Prod.snd).Nodup := by
  have hids := (List.nodup_append.mp (h.underway.objects.nodup_iff.mp h.underway.nodup)).2.1
  rw [List.map_reverse, List.nodup_reverse] at hids
  exact hids.sublist (map_snd_etchings_sublist t.placed)

theorem Finished.exists_object {plan : Plan} {objects : List GlobalObject} {t s : State}
    (h : Finished p plan objects t s) {d : DecoyPlan × Nat} (hd : d ∈ t.placed) :
    ∃ g, (d.1, g) ∈ plan.decoys.zip objects ∧ g.id = d.2 := by
  have hmem := List.mem_reverse.mpr hd
  rw [h.placed, placedAs] at hmem
  obtain ⟨pair, hpair, rfl⟩ := List.mem_map.mp hmem
  exact ⟨pair.2, hpair, rfl⟩

theorem etchedAs_of_notMem {etched : List (BlockPointer × Nat)} (h : t ∉ etched.map Prod.fst) (b : Block) :
    etchedAs etched t b = b := by
  have hnone : etched.lookup t = none := by
    refine List.lookup_eq_none_iff.mpr fun entry hentry => ?_
    have hne : t ≠ entry.1 := by
      rintro rfl
      exact h (List.mem_map_of_mem hentry)
    simpa using hne
  rw [etchedAs, hnone]
  rfl

theorem etchedAs_of_mem {etched : List (BlockPointer × Nat)} (hnodup : (etched.map Prod.fst).Nodup) {decoy : Nat}
    (h : (t, decoy) ∈ etched) (b : Block) : etchedAs etched t b = etchBlock decoy b := by
  induction etched with
  | nil => cases h
  | cons entry rest ih =>
    obtain ⟨target, other⟩ := entry
    obtain ⟨hnew, hrest⟩ := List.nodup_cons.mp hnodup
    rw [etchedAs_cons]
    rcases List.mem_cons.mp h with heq | hmem
    · cases heq
      rw [if_pos rfl, Function.comp_apply, etchedAs_of_notMem hnew]
    · have hne : t ≠ target := by
        rintro rfl
        exact hnew (List.mem_map.mpr ⟨_, hmem, rfl⟩)
      rw [if_neg hne]
      exact ih hrest hmem

end Layout

namespace LayoutRandomizer

variable {r : LayoutRandomizer} {stream : RandomStream} {p : Program} {plan : Plan} {t : BlockPointer} {b : Block}

/-- A plan etches only blocks that hold a number. -/
theorem Plans.isFree_of_etch (h : r.Plans stream p plan) (hp : p.Separated) {d : DecoyPlan}
    (hd : d ∈ plan.decoys) (ht : d.etch = some t) :
    ∃ f ∈ p.functions.elems, ∃ b ∈ f.blocks, f.id = t.function ∧ b.id = t.block ∧ b.trap = true ∧
      isFree b = true ∧ p.block? t.function t.block = some b := by
  obtain ⟨_, hok⟩ := h.2.2
  obtain ⟨f, hf, b, hb, hfree, hfid, hbid⟩ :=
    Program.mem_blockPointers_iff.mp (etch_mem_blockPointers hok hd ht).1
  obtain ⟨htrap, hfree⟩ := (Bool.and_eq_true ..).mp hfree
  have hget := Program.block?_id hp.functions hf (hp.blocks f hf) hb
  rw [hfid, hbid] at hget
  exact ⟨f, hf, b, hb, hfid, hbid, htrap, hfree, hget⟩

/-- In a program whose blocks can be told apart every plan is carried out to the end. -/
theorem Plans.finished (h : r.Plans stream p plan) (hp : p.Separated) (hglobals : p.globals.ids.Nodup) :
    ∃ objects t s, Finished p plan objects t s ∧ (r.runWith stream p).program = s.program ∧
      (r.runWith stream p).pass.statistics = s.statistics := by
  rcases h.cases hp.built hglobals hp.functions with ⟨-, -, hfinished⟩ | ⟨hnot, -⟩
  · exact hfinished
  · exact absurd (h.etchable hp.functions hp.blocks) hnot

/-- A block that does not hold a number is not etched. -/
theorem Plans.notMem_etchings (h : r.Plans stream p plan) {objects : List GlobalObject} {u s : State}
    (hfinished : Finished p plan objects u s) (hp : p.Separated)
    (hget : p.block? t.function t.block = some b) (hheld : isFree b = false) :
    t ∉ (etchings u.placed).map Prod.fst := by
  intro htarget
  obtain ⟨d, hd, ht⟩ := List.mem_filterMap.mp (hfinished.perm_etchings.mem_iff.mp htarget)
  obtain ⟨_, -, b', -, -, -, -, hfree, hget'⟩ := h.isFree_of_etch hp hd ht
  rw [hget] at hget'
  rw [← Option.some.inj hget', hheld] at hfree
  cases hfree

/-! ### Later runs -/

/-- Runs of randomizers, one after the other, whether they succeed or not. -/
def runAll (runs : List (LayoutRandomizer × RandomStream)) (p : Program) : Program :=
  runs.foldl (fun p run => (run.1.runWith run.2 p).program) p

/-- A program with a block that can be found. -/
structure Holds (t : BlockPointer) (b : Block) (p : Program) : Prop where
  separated : p.Separated
  globals : p.globals.ids.Nodup
  block : p.block? t.function t.block = some b

/-- A run leaves a trap block that is not free as it is. -/
theorem Holds.runWith (h : Holds t b p) (htrap : b.trap = true) (hheld : isFree b = false)
    (r : LayoutRandomizer) (stream : RandomStream) : Holds t b (r.runWith stream p).program := by
  rcases runWith_cases r stream p with ⟨plan, _, _, hplan, -⟩ | ⟨-, hsame, -⟩
  · obtain ⟨objects, u, s, hfinished, hprogram, -⟩ := hplan.finished h.separated h.globals
    rw [hprogram]
    obtain ⟨f, g, hf, hbody, hblock⟩ := Program.block?_eq_some h.block
    have hmem := Roster.mem_of_get? hf
    have hfid : f.id = t.function := Roster.id_of_get? hf
    have hbid : b.id = t.block := Roster.id_of_get? hblock
    have hb : b ∈ f.blocks := by
      rw [Function.blocks, hbody]
      exact Roster.mem_of_get? hblock
    have hother := h.separated.not_isAccessor hmem hb htrap
    have hleft := hplan.notMem_etchings hfinished h.separated h.block hheld
    refine ⟨hfinished.guarded.separated (hfinished.underway.separated h.separated), hfinished.nodup, ?_⟩
    have hafter := hfinished.block? h.separated hmem hother hb
    rw [hfid, hbid] at hafter
    rwa [etchedAs_of_notMem hleft] at hafter
  · rw [hsame]
    exact h

theorem Holds.runAll (h : Holds t b p) (htrap : b.trap = true) (hheld : isFree b = false)
    (runs : List (LayoutRandomizer × RandomStream)) : Holds t b (runAll runs p) := by
  induction runs generalizing p with
  | nil => exact h
  | cons run rest ih => exact ih (h.runWith htrap hheld run.1 run.2)

/-! ### One run -/

/-- What a run has etched: which trap blocks, each with the ID of a decoy. -/
structure Etches (r : LayoutRandomizer) (stream : RandomStream) (p : Program) (decoys : Decoys)
    (etched : List (BlockPointer × Nat)) : Prop where
  /-- There is one for each decoy in front of an object, as long as there are trap blocks that are free. -/
  length : etched.length = min (decoys.countP fun d => d.1.anchor.isSome)
    (p.blockPointers fun b => b.trap && isFree b).length
  statistics : (r.runWith stream p).pass.statistics.trapsEtched = etched.length
  blocks_nodup : (etched.map Prod.fst).Nodup
  decoys_nodup : (etched.map Prod.snd).Nodup
  decoy : ∀ entry ∈ etched, ∃ d ∈ decoys, d.1.anchor.isSome = true ∧ d.2.id = entry.2
  /-- The number that a trap held is replaced by the address of the decoy. -/
  replaced : ∀ entry ∈ etched, ∃ b i n operands rest,
    p.block? entry.1.function entry.1.block = some b ∧ b.trap = true ∧ b.instrs = i :: rest ∧
      i.opcode = .trap ∧ i.operands = .imm n :: operands ∧
      (r.runWith stream p).program.block? entry.1.function entry.1.block
        = some { b with instrs := { i with operands := etching entry.2 :: operands } :: rest }
  kept : ∀ f ∈ p.functions.elems, ∀ b ∈ f.blocks, ⟨f.id, b.id⟩ ∉ etched.map Prod.fst →
    (r.runWith stream p).program.block? f.id b.id = some b
  /-- A trap that holds an address keeps it. -/
  held : ∀ f ∈ p.functions.elems, ∀ b ∈ f.blocks, b.trap = true → isFree b = false →
    ⟨f.id, b.id⟩ ∉ etched.map Prod.fst

/-- What a trap block that is etched looks like before and after. -/
theorem Plans.replaced (h : r.Plans stream p plan) (hp : p.Separated) (hverify : p.verify = .ok ())
    {objects : List GlobalObject} {u s : State} (hfinished : Finished p plan objects u s)
    (hnodup : ((etchings u.placed).map Prod.fst).Nodup) {entry : BlockPointer × Nat}
    (hentry : entry ∈ etchings u.placed) :
    ∃ b i n operands rest, p.block? entry.1.function entry.1.block = some b ∧ b.trap = true ∧
      b.instrs = i :: rest ∧ i.opcode = .trap ∧ i.operands = .imm n :: operands ∧
      s.program.block? entry.1.function entry.1.block
        = some { b with instrs := { i with operands := etching entry.2 :: operands } :: rest } := by
  have htarget := hfinished.perm_etchings.mem_iff.mp (List.mem_map_of_mem hentry)
  obtain ⟨d, hd, ht⟩ := List.mem_filterMap.mp htarget
  obtain ⟨f, hf, b, hb, hfid, hbid, htrap, hfree, hget⟩ := h.isFree_of_etch hp hd ht
  obtain ⟨i, rest, n, operands, hcode, hoperands⟩ := exists_imm_of_isFree hfree
  have hopcode : i.opcode = .trap := by
    have hfirst := Program.trapsFirst_of_verify hverify f hf b hb htrap
    rw [hcode] at hfirst
    exact Option.some.inj hfirst
  have hafter := hfinished.block? hp hf (hp.not_isAccessor hf hb htrap) hb
  rw [hfid, hbid, etchedAs_of_mem hnodup hentry] at hafter
  refine ⟨b, i, n, operands, rest, hget, htrap, hcode, hopcode, hoperands, hafter.trans ?_⟩
  simp [etchBlock, hcode, hoperands]

theorem Plans.etches (h : r.Plans stream p plan) (hp : p.Separated)
    (haccessor : ∀ f ∈ p.functions.elems, p.IsAccessor f → f.blocks = [])
    (hverify : p.verify = .ok ()) {objects : List GlobalObject} {u s : State}
    (hfinished : Finished p plan objects u s) (hprogram : (r.runWith stream p).program = s.program)
    (hstatistics : (r.runWith stream p).pass.statistics = s.statistics) :
    r.Etches stream p (plan.decoys.zip objects) (etchings u.placed) := by
  obtain ⟨warnings, hok⟩ := h.2.2
  obtain ⟨hlength, hnodup⟩ := etched_of_plan hok
  have hperm := hfinished.perm_etchings
  have hother : ∀ f ∈ p.functions.elems, ∀ b ∈ f.blocks, ¬ p.IsAccessor f := by
    intro f hf b hb hnamed
    rw [haccessor f hf hnamed] at hb
    cases hb
  have hblocks_nodup : ((etchings u.placed).map Prod.fst).Nodup :=
    hperm.nodup_iff.mpr (hnodup (Program.nodup_blockPointers hp.functions hp.blocks _))
  -- What has been etched is listed with the latest first, so it is what was planned up to a permutation.
  refine ⟨?_, ?_, hblocks_nodup, hfinished.nodup_etchings, fun entry hentry => ?_, fun entry hentry => ?_,
    fun f hf b hb hleft => ?_, fun f hf b hb _ hheld => ?_⟩
  · have hzip := List.map_fst_zip (Nat.le_of_eq hfinished.made.length_eq)
    rw [← List.length_map, hperm.length_eq, hlength]
    conv_lhs => rw [← hzip, List.countP_map]
    rfl
  · rw [hstatistics, hfinished.statistics, hfinished.underway.count, List.countP_eq_length]
    intro entry hentry
    obtain ⟨b, i, n, operands, rest, hget, -, hcode, -⟩ := h.replaced hp hverify hfinished hblocks_nodup hentry
    simp [Program.firstOperands?, hget, hcode]
  · obtain ⟨d, hd, ht, hid⟩ := exists_of_mem_etchings hentry
    obtain ⟨g, hg, hgid⟩ := hfinished.exists_object hd
    exact ⟨_, hg, (etch_mem_blockPointers hok (List.of_mem_zip hg).1 ht).2, hgid.trans hid⟩
  · rw [hprogram]
    exact h.replaced hp hverify hfinished hblocks_nodup hentry
  · have hafter := hfinished.block? hp hf (hother f hf b hb) hb
    rwa [etchedAs_of_notMem hleft, ← hprogram] at hafter
  · exact h.notMem_etchings hfinished hp (Program.block?_id hp.functions hf (hp.blocks f hf) hb) hheld

theorem Plans.added (h : r.Plans stream p plan) {objects : List GlobalObject} {u s : State}
    (hfinished : Finished p plan objects u s) (hprogram : (r.runWith stream p).program = s.program) :
    Added r stream p (plan.decoys.zip objects) := by
  obtain ⟨warnings, hok⟩ := h.2.2
  have hlength := hfinished.made.length_eq
  refine ⟨⟨warnings, plan, hok, List.map_fst_zip (Nat.le_of_eq hlength)⟩, hfinished.made.eq_decoyObject, ?_⟩
  rw [List.map_snd_zip (Nat.le_of_eq hlength.symm), hprogram]
  exact hfinished.globals

/-- A run etches each trap block at most once, each with the address of another decoy that it has made, and no
later run changes an etched block. -/
theorem etches_once {changed : Bool} (hbuilt : p.Built) (hverify : p.verify = .ok ())
    (hfunctions : p.functions.ids.Nodup)
    (hblocks : ∀ f ∈ p.functions.elems, (f.blocks.map Block.id).Nodup)
    (haccessor : ∀ f ∈ p.functions.elems, p.IsAccessor f → f.body = none)
    (hon : r.options.randomization = true) (hok : (r.runWith stream p).outcome = .ok changed) :
    ∃ decoys etched, Added r stream p decoys ∧ r.Etches stream p decoys etched ∧
      ∀ runs, ∀ entry ∈ etched,
        (runAll runs (r.runWith stream p).program).block? entry.1.function entry.1.block
          = (r.runWith stream p).program.block? entry.1.function entry.1.block := by
  have hempty : ∀ f ∈ p.functions.elems, p.IsAccessor f → f.blocks = [] := by
    intro f hf hnamed
    rw [Function.blocks, haccessor f hf hnamed]
    rfl
  have hp : p.Separated := by
    refine ⟨hbuilt, hfunctions, hblocks, fun f hf hnamed b hb => ?_⟩
    rw [hempty f hf hnamed] at hb
    cases hb
  obtain ⟨plan, s, hplan, hcarry⟩ := exists_plans_of_ok hon hok
  obtain ⟨objects, -, hobjects, -, hnodup, -⟩ := carryOut_eq_none hcarry
  have hglobals : p.globals.ids.Nodup :=
    ((hobjects.map GlobalObject.id).nodup_iff.mp hnodup).sublist ((List.sublist_append_left ..).map _)
  obtain ⟨objects, u, s, hfinished, hprogram, hstatistics⟩ := hplan.finished hp hglobals
  have hetches := hplan.etches hp hempty hverify hfinished hprogram hstatistics
  refine ⟨plan.decoys.zip objects, etchings u.placed, hplan.added hfinished hprogram, hetches,
    fun runs entry hentry => ?_⟩
  -- An etched block holds an address, so it is not free for those that come later.
  obtain ⟨b, i, n, operands, rest, -, htrap, -, -, -, hafter⟩ := hetches.replaced entry hentry
  have hholds : Holds entry.1 _ (r.runWith stream p).program :=
    ⟨hprogram ▸ hfinished.guarded.separated (hfinished.underway.separated hp), hprogram ▸ hfinished.nodup, hafter⟩
  rw [(hholds.runAll htrap rfl runs).block, hafter]

/-- With room for three decoys both trap blocks are etched, and the third decoy gets none. -/
theorem etches_once_copyProgram :
    ∃ decoys etched, Added (decoyRandomizer 128) constantStream (copyProgram 2) decoys ∧
      (decoyRandomizer 128).Etches constantStream (copyProgram 2) decoys etched ∧
      decoys.length = 3 ∧ etched.length = 2 := by
  have hok : ((decoyRandomizer 128).runWith constantStream (copyProgram 2)).outcome = .ok true := by
    decide +kernel
  obtain ⟨decoys, etched, hadded, hetches, -⟩ := etches_once (built_copyProgram 2 rfl) (by decide +kernel)
    (by decide +kernel) (by decide +kernel) (by decide +kernel) rfl hok
  refine ⟨decoys, etched, hadded, hetches, ?_, ?_⟩
  · have hobjects : ((decoyRandomizer 128).runWith constantStream (copyProgram 2)).program.globals.elems.length
        = (copyProgram 2).globals.elems.length + 3 := by decide +kernel
    rw [hadded.objects.length_eq, List.length_append, List.length_map] at hobjects
    exact Nat.add_left_cancel hobjects
  · rw [← hetches.statistics]
    decide +kernel

end LayoutRandomizer
end ThumbHardening
