import ThumbHardening.Proofs.Promotion.Moves
import ThumbHardening.Proofs.Verify

/-!
# Promoted programs

A successful run moves exactly the objects that can be moved, each to a global object of its own that every
operand of the function then names. The verification accepts the result: what an operand named before is still
there or has an address now, and predicated groups do not depend on operands other than those of an `It`.
-/

namespace ThumbHardening

variable {p p' : Program} {f : Function} {g : FlowGraph} {b : Block} {i : Instr}
  {target : Nat → Option Nat}

/-! ### Relocated code -/

theorem Instr.itFields?_relocate {fields : Cond × Nat} (h : i.itFields? = some fields) :
    (i.mapOperands (Operand.relocate target)).itFields? = some fields := by
  obtain ⟨opcode, operands, pred⟩ := i
  rw [itFields?] at h
  split at h
  · next hopcode hoperands =>
    cases hopcode
    cases hoperands
    exact h
  · cases h

theorem Instr.announced?_relocate {conds : List Cond} (h : i.announced? = some conds) :
    (i.mapOperands (Operand.relocate target)).announced? = some conds := by
  obtain ⟨fields, hfields, hconds⟩ := Option.bind_eq_some_iff.mp h
  exact Option.bind_eq_some_iff.mpr ⟨fields, itFields?_relocate hfields, hconds⟩

/-- Whether an instruction needs a group depends on its opcode and its condition only. -/
theorem Code.Grouped.relocate {conds : List Cond} {code : Code} (h : Grouped Instr.Bare conds code) :
    Grouped Instr.Bare conds (code.map (Instr.mapOperands (Operand.relocate target))) := by
  induction h with
  | nil => exact .nil
  | plain hit hbare _ ih => exact .plain hit hbare ih
  | it hconds _ ih => exact .it (Instr.announced?_relocate hconds) ih
  | debug hdebug hbare _ ih => exact .debug hdebug hbare ih
  | member hdebug hmeets _ ih =>
    exact .member hdebug ⟨hmeets.needs, hmeets.pred_eq, hmeets.last⟩ ih

theorem FlowGraph.ids_mapOperands (change : Operand → Operand) (g : FlowGraph) :
    (g.mapOperands change).blocks.ids = g.blocks.ids := by
  rw [mapOperands, Roster.ids, List.map_map]
  rfl

/-- Operands do not matter for the shape of a graph. -/
theorem FlowGraph.Sound.mapOperands (h : g.Sound) (change : Operand → Operand) :
    (g.mapOperands change).Sound := by
  have hcontains : ∀ id, g.blocks.contains id = true →
      (g.mapOperands change).blocks.contains id = true := by
    intro id hid
    rw [Roster.contains_eq, ids_mapOperands, ← Roster.contains_eq]
    exact hid
  refine ⟨h.entry_ne_zero, hcontains _ h.contains_entry, fun b' hb' => ?_, fun b' hb' edge hedge => ?_⟩
  · obtain ⟨b, hb, rfl⟩ := List.mem_map.mp hb'
    have hsound := h.blocks b hb
    refine ⟨hsound.id_ne_zero, hsound.one_next, fun htrap => ?_⟩
    rw [← hsound.trap_first htrap, List.head?_map, Option.map_map]
    rfl
  · obtain ⟨b, hb, rfl⟩ := List.mem_map.mp hb'
    exact hcontains _ (h.targets b hb edge hedge)

theorem Function.outline_relocate (target : Nat → Option Nat) (f : Function) :
    (f.relocate target).outline = f.outline := by
  change (f.id, f.name, _) = (f.id, f.name, _)
  rw [relocate, updateBody, Option.map_map]
  cases f.body with
  | none => rfl
  | some g => exact congrArg (fun ids => (f.id, f.name, some ids)) (g.ids_mapOperands _)

/-- What a relocated operand refers to exists, if the objects have moved to somewhere that exists. -/
theorem Program.Extends.resolves_relocate (hp : p.Extends p') {operand : Operand}
    (htarget : ∀ o global, target o = some global → p'.hasSymbol (.global global) = true)
    (h : p.Resolves f g operand) :
    p'.Resolves (f.relocate target) (g.mapOperands (Operand.relocate target))
      (operand.relocate target) := by
  rcases operand.relocate_cases target with ⟨object, global, rfl, hobject, heq⟩ | ⟨heq, hstays⟩
  · rw [heq]
    exact htarget object global hobject
  · rw [heq]
    refine hp.resolves h (g.ids_mapOperands _) (fun id hframe hcontains => ?_) rfl fun _ => id
    obtain ⟨o, ho, hid⟩ := List.any_eq_true.mp hcontains
    refine List.any_eq_true.mpr ⟨o, List.mem_filter.mpr ⟨ho, ?_⟩, hid⟩
    have hobject : o.id = id := of_decide_eq_true hid
    rw [hobject, hstays id hframe]
    rfl

/-- The verification accepts a relocated function if it accepted the function before. -/
theorem Program.Extends.verifyFunction_relocate (hp : p.Extends p')
    (htarget : ∀ o global, target o = some global → p'.hasSymbol (.global global) = true)
    (h : p.verifyFunction f = .ok ()) : p'.verifyFunction (f.relocate target) = .ok () := by
  rw [verifyFunction_eq_ok_iff] at h ⊢
  intro g' hg'
  obtain ⟨g, hg, rfl⟩ := Option.map_eq_some_iff.mp hg'
  obtain ⟨hsound, hcode⟩ := h g hg
  refine ⟨hsound.mapOperands _, fun b' hb' => ?_⟩
  obtain ⟨b, hb, rfl⟩ := List.mem_map.mp hb'
  refine ⟨?_, fun i' hi' operand' hoperand' => ?_⟩
  · rw [Code.isConsistent_iff_grouped]
    exact (Code.isConsistent_iff_grouped.mp (hcode b hb).consistent).relocate
  · obtain ⟨i, hi, rfl⟩ := List.mem_map.mp hi'
    obtain ⟨operand, hoperand, rfl⟩ := List.mem_map.mp hoperand'
    exact hp.resolves_relocate htarget ((hcode b hb).resolves i hi operand hoperand)

namespace Promotion

variable {moves : List Move} {m : Move} {statistics : PromotionStatistics} {changed : Bool}

/-! ### Accepted programs -/

theorem Made.extends (h : Made p moves p') : p.Extends p' where
  functions := by
    rw [h.functions, List.map_map]
    exact List.map_congr_left fun f _ => f.outline_relocate _
  globals := by
    rw [h.globals]
    exact List.prefix_append ..
  aliases := h.aliases
  used := h.used
  pointerSize := h.pointerSize

theorem Made.hasSymbol (h : Made p moves p') {function object global : Nat}
    (hmoved : movedTo moves function object = some global) : p'.hasSymbol (.global global) = true := by
  obtain ⟨m, hm, rfl⟩ := Option.map_eq_some_iff.mp hmoved
  have hmem : m.global ∈ p'.globals.elems := by
    rw [h.globals]
    exact List.mem_append_right _ (List.mem_map_of_mem (List.mem_of_find?_eq_some hm))
  rw [Program.hasSymbol, Program.symbolName?, Option.isSome_map, Program.global?, Roster.isSome_get?,
    List.contains_iff_mem]
  exact List.mem_map_of_mem hmem

/-- The moves leave an accepted program. -/
theorem Made.verify (h : Made p moves p') (hverify : p.verify = .ok ()) : p'.verify = .ok () := by
  refine h.extends.verify hverify (fun f' hf' => ?_) fun o ho hnew => ?_
  · rw [h.functions] at hf'
    obtain ⟨f, hf, rfl⟩ := List.mem_map.mp hf'
    exact h.extends.verifyFunction_relocate (fun o global => h.hasSymbol)
      (Program.verifyFunction_of_verify hverify hf)
  · rw [h.globals] at ho
    obtain ⟨m, hm, rfl⟩ := List.mem_map.mp ((List.mem_append.mp ho).resolve_left hnew)
    obtain ⟨type, -, hglobal⟩ := h.replaces m hm
    rw [Program.verifyGlobal, hglobal]
    simp only [entries_sentinelInitializer, Outcome.seq_eq_ok_iff, require_eq_ok_iff]
    simp

/-! ### Promoted programs -/

/-- A program whose promotable objects have moved. -/
structure Promoted (p : Program) (moves : List Move) (q : Program) : Prop extends Made p moves q where
  moved : (moves.map Move.key).Perm
    (p.functions.elems.flatMap fun f => (promotable (p.recursive f) f).map (f.id, ·))
  target : ∀ m ∈ moves, movedTo moves m.function m.object.id = some m.global.id
  kept : ∀ f ∈ p.functions.elems, ∀ o ∈ f.frame.elems, o ∉ promotable (p.recursive f) f →
    movedTo moves f.id o.id = none
  untouched : ∀ f ∈ p.functions.elems, f.body = none ∨ Relation.TransGen p.Calls f.id f.id →
    f.relocate (movedTo moves f.id) = f
  own : p.Built → ∀ m ∈ moves, q.global? m.global.id = some m.global

theorem mem_frame_of_mem_promotable {recursive : Bool} {o : StackObject}
    (h : o ∈ promotable recursive f) : o ∈ f.frame.elems := by
  rw [promotable] at h
  split at h
  · cases h
  · exact List.mem_of_mem_filter h

theorem promotable_eq_nil (h : f.body = none ∨ Relation.TransGen p.Calls f.id f.id) :
    promotable (p.recursive f) f = [] := by
  rcases h with hbody | hcycle
  · rw [promotable, hbody]
    rfl
  · rw [promotable, Program.recursive_iff.mpr hcycle]
    simp

theorem nodup_promotable (hids : p.functions.ids.Nodup)
    (hframes : ∀ f ∈ p.functions.elems, f.frame.ids.Nodup) :
    (p.functions.elems.flatMap fun f => (promotable (p.recursive f) f).map (f.id, ·)).Nodup := by
  refine List.nodup_flatMap.mpr ⟨fun f hf => ?_, ?_⟩
  · refine List.Nodup.map (fun _ _ heq => congrArg Prod.snd heq) ?_
    rw [promotable]
    split
    · exact List.nodup_nil
    · exact (List.Nodup.of_map _ (hframes f hf)).filter _
  · have hdistinct : p.functions.elems.Pairwise fun f f' => f.id ≠ f'.id := List.pairwise_map.mp hids
    refine hdistinct.imp fun hne => List.disjoint_left.mpr fun key hkey hkey' => hne ?_
    obtain ⟨o, -, rfl⟩ := List.mem_map.mp hkey
    obtain ⟨o', -, heq⟩ := List.mem_map.mp hkey'
    exact (congrArg Prod.fst heq).symm

/-- If no object moves twice, each is found at the global object it has moved to. -/
theorem movedTo_eq_some (hunique : ∀ m' ∈ moves, m'.function = m.function → m'.object.id = m.object.id → m' = m)
    (hm : m ∈ moves) : movedTo moves m.function m.object.id = some m.global.id := by
  have hsome : (moves.find? fun m' => m'.function = m.function ∧ m'.object.id = m.object.id).isSome := by
    rw [List.find?_isSome]
    exact ⟨m, hm, by simp⟩
  obtain ⟨found, hfound⟩ := Option.isSome_iff_exists.mp hsome
  obtain ⟨hfunction, hobject⟩ : found.function = m.function ∧ found.object.id = m.object.id := by
    simpa using List.find?_some hfound
  rw [movedTo, hfound, hunique found (List.mem_of_find?_eq_some hfound) hfunction hobject]
  rfl

/-- In a program that has been built, the IDs of the new global objects are new. -/
theorem Made.global? (h : Made p moves p') (hbuilt : p.Built) (hm : m ∈ moves) :
    p'.global? m.global.id = some m.global := by
  have hids : ((⟨moves.map Move.global, 0⟩ : Roster GlobalObject).ids).Nodup := by
    change ((moves.map Move.global).map GlobalObject.id).Nodup
    rw [List.map_map]
    exact (h.ids : moves.map (GlobalObject.id ∘ Move.global) = _) ▸ List.nodup_range'
  have hfresh : p.globals.next ≤ m.global.id := by
    have hid : m.global.id ∈ List.range' p.globals.next moves.length := h.ids ▸ List.mem_map_of_mem hm
    exact (List.mem_range'_1.mp hid).1
  have hnone : p.globals.elems.find? (fun o => Identified.id o = m.global.id) = none := by
    refine List.find?_eq_none.mpr fun o ho heq => ?_
    have hlt := hbuilt.global_lt o ho
    have heq : o.id = m.global.id := of_decide_eq_true heq
    omega
  rw [Program.global?, h.globals, Roster.get?, List.find?_append, hnone, Option.none_or]
  exact Roster.get?_id hids (List.mem_map_of_mem hm)

/-- Moves that take exactly the promotable objects leave a promoted program. -/
theorem Made.promoted (h : Made p moves p') (hids : p.functions.ids.Nodup)
    (hframes : ∀ f ∈ p.functions.elems, f.frame.ids.Nodup)
    (hmoved : (moves.map Move.key).Perm
      (p.functions.elems.flatMap fun f => (promotable (p.recursive f) f).map (f.id, ·))) :
    Promoted p moves p' := by
  have hobject : ∀ m ∈ moves, ∀ f ∈ p.functions.elems, m.function = f.id →
      m.object ∈ promotable (p.recursive f) f := by
    intro m hm f hf hfunction
    obtain ⟨f', hf', hobjects⟩ := List.mem_flatMap.mp (hmoved.mem_iff.mp (List.mem_map_of_mem hm))
    obtain ⟨o, ho, heq⟩ := List.mem_map.mp hobjects
    have hsame : f' = f := Roster.eq_of_id_eq hids hf' hf ((congrArg Prod.fst heq).trans hfunction)
    have ho' : o = m.object := congrArg Prod.snd heq
    rwa [← hsame, ← ho']
  have hfunction : ∀ m ∈ moves, ∃ f ∈ p.functions.elems, m.function = f.id := by
    intro m hm
    obtain ⟨f, hf, hobjects⟩ := List.mem_flatMap.mp (hmoved.mem_iff.mp (List.mem_map_of_mem hm))
    obtain ⟨o, -, heq⟩ := List.mem_map.mp hobjects
    exact ⟨f, hf, (congrArg Prod.fst heq).symm⟩
  have hsame : ∀ f ∈ p.functions.elems, ∀ m ∈ moves, m.function = f.id → ∀ o ∈ f.frame.elems,
      m.object.id = o.id → m.object = o := fun f hf m hm heq o ho =>
    Roster.eq_of_id_eq (hframes f hf) (mem_frame_of_mem_promotable (hobject m hm f hf heq)) ho
  have hkeys : (moves.map Move.key).Nodup := hmoved.nodup_iff.mpr (nodup_promotable hids hframes)
  refine ⟨h, hmoved, fun m hm => ?_, fun f hf o ho hkept => ?_, fun f hf hstays => ?_,
    fun hbuilt m hm => h.global? hbuilt hm⟩
  · obtain ⟨f, hf, heq⟩ := hfunction m hm
    refine movedTo_eq_some (fun m' hm' heq' hid => ?_) hm
    have hobjects := hsame f hf m' hm' (heq'.trans heq) m.object
      (mem_frame_of_mem_promotable (hobject m hm f hf heq)) hid
    exact List.inj_on_of_nodup_map hkeys hm' hm (congrArg₂ Prod.mk heq' hobjects)
  · rw [movedTo, Option.map_eq_none_iff, List.find?_eq_none]
    intro m hm hmatch
    obtain ⟨heq, hid⟩ := of_decide_eq_true hmatch
    exact hkept (hsame f hf m hm heq o ho hid ▸ hobject m hm f hf heq)
  · rw [movedTo_eq_none, Function.relocate_none]
    intro m hm heq
    have hmem := hobject m hm f hf heq
    rw [promotable_eq_nil hstays] at hmem
    cases hmem

/-- A successful run on an accepted program with distinct IDs moves each fixed-size stack object with a function
pointer to a global object of its own, if its function has a body and cannot call itself. All else stays, the
numbers grow by what was moved and left, and the verification accepts the result. -/
theorem run_promotes (statistics : PromotionStatistics) (p : Program) {changed : Bool}
    (hverify : p.verify = .ok ()) (hids : p.functions.ids.Nodup)
    (hframes : ∀ f ∈ p.functions.elems, f.frame.ids.Nodup)
    (hok : (run statistics p).outcome = .ok changed) :
    (∃ moves, Promoted p moves (run statistics p).program) ∧
      (run statistics p).pass = statistics + tally p p.functions.elems ∧
      (run statistics p).program.verify = .ok () := by
  obtain ⟨functions, s, hperm, hrun, hprogram, hpass⟩ := run_eq_ok hids hok
  have hnodup : (functions.map Function.id).Nodup := (hperm.map Function.id).nodup_iff.mpr hids
  obtain ⟨moves, hmade, hkeys, hcount⟩ := (made_nil p).runAll_promoteFunction (s := ⟨p, statistics⟩) hids
    hframes (fun f hf => hperm.mem_iff.mp hf) hnodup (by simp) hrun
  rw [List.nil_append] at hmade
  rw [hprogram, hpass]
  refine ⟨⟨moves, hmade.promoted hids hframes ?_⟩, ?_, hmade.verify hverify⟩
  · rw [hkeys]
    exact hperm.flatMap_right _
  · rw [hcount, tally_perm p hperm]

/-- A function with a body of one block. -/
def handlingFunction (name : String) (objects : List StackObject) (code : Code) : Function :=
  { name, frame := objects.foldl Roster.insert {}
    body := some { blocks := ({} : Roster Block).insert (.ofCode code), entry := 1 } }

/-- A program with another function, if its name is free. -/
def withFunction (p : Program) (f : Function) : Program :=
  ((p.addFunction f).toOption.map Prod.fst).getD p

theorem built_withFunction (h : p.Built) (f : Function) : (withFunction p f).Built := by
  rw [withFunction]
  cases hadd : p.addFunction f with
  | error e => exact h
  | ok added => exact .addFunction h hadd

/-- A function that stores a handler and calls another function, which keeps a handler of its own and calls
itself. -/
def handlerProgram : Program :=
  let handler : StackObject :=
    { name := "handler", type := some (.record [.int 8, .functionPointer]), size := 8, align := 0 }
  let spare := StackObject.ofVariableSize "spare" (some .functionPointer) 4
  let call : Instr := { opcode := .call, operands := [.address (.function 2)] }
  let main := handlingFunction "main" [handler, spare]
    [.store (.phys .r0) (.frame 1) 4, .load (.phys .r1) (.frame 2) 0, call, .ret]
  let retry := handlingFunction "retry" [handler] [.store (.phys .r0) (.frame 1) 4, call, .ret]
  withFunction (withFunction ((Program.new 4).toOption.getD { pointerSize := 4 }) main) retry

theorem built_handlerProgram : handlerProgram.Built := by
  have hnew : Program.new 4 = .ok ((Program.new 4).toOption.getD { pointerSize := 4 }) := rfl
  exact built_withFunction (built_withFunction (.new hnew) _) _

/-- One of the objects moves, one stays as its function calls itself, and one for its unknown size. -/
theorem run_promotes_handlerProgram :
    handlerProgram.verify = .ok () ∧ handlerProgram.functions.ids.Nodup ∧
      (∀ f ∈ handlerProgram.functions.elems, f.frame.ids.Nodup) ∧
      (run {} handlerProgram).outcome = .ok true ∧
      (∃ moves, Promoted handlerProgram moves (run {} handlerProgram).program ∧
        ∀ m ∈ moves, (run {} handlerProgram).program.global? m.global.id = some m.global) ∧
      {} + tally handlerProgram handlerProgram.functions.elems
        = { promoted := 1, skippedRecursive := 1, notEligible := 1 } ∧
      (run {} handlerProgram).program.verify = .ok () := by
  have hverify : handlerProgram.verify = .ok () := by decide +kernel
  have hids : handlerProgram.functions.ids.Nodup := by decide +kernel
  have hframes : ∀ f ∈ handlerProgram.functions.elems, f.frame.ids.Nodup := by decide +kernel
  have hok : (run {} handlerProgram).outcome = .ok true := by decide +kernel
  have hcount : (run {} handlerProgram).pass
      = { promoted := 1, skippedRecursive := 1, notEligible := 1 } := by decide +kernel
  obtain ⟨⟨moves, hmoves⟩, hpass, haccepted⟩ := run_promotes {} handlerProgram hverify hids hframes hok
  exact ⟨hverify, hids, hframes, hok, ⟨moves, hmoves, hmoves.own built_handlerProgram⟩,
    hpass.symm.trans hcount, haccepted⟩

end Promotion
end ThumbHardening
