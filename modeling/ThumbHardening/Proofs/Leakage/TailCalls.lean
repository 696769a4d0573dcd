import ThumbHardening.Proofs.Leakage.LinkSpill
import ThumbHardening.Proofs.Program
import Mathlib.Logic.Relation

/-!
# Spills at the end of tail calls

A function may spill the link register exactly if a chain of tail calls leads from it to one that does so
itself. Nothing in that depends on the order of the functions, of their blocks or of their instructions, and
neither does whether the analysis has an answer: it needs to know the target of every tail call.
-/

namespace ThumbHardening

/-- That a function tail-calls another one, perhaps by another name. -/
def Program.TailCallsTo (p : Program) (f callee : Function) : Prop :=
  ∃ symbol id, .symbol symbol ∈ f.tailCallees ∧ p.resolveFunction symbol = .ok id ∧
    p.function? id = some callee

/-- The same function with its instructions in another order, perhaps in other blocks. -/
structure Function.Rearranged (f f' : Function) : Prop where
  id : f'.id = f.id
  calleeSaved : f'.calleeSaved = f.calleeSaved
  body : f'.body.isNone = f.body.isNone
  instrs : f'.instrs.Perm f.instrs

/-- The same program with its functions, and the code inside them, in another order. -/
structure Program.Rearranged (p p' : Program) : Prop where
  functions : ∃ functions, List.Forall₂ Function.Rearranged p.functions.elems functions ∧
    p'.functions.elems.Perm functions
  aliases : p'.aliases = p.aliases

variable {p p' : Program} {f f' : Function}

/-! ### Chains of tail calls -/

theorem Program.spillsLink_iff_exists (hids : p.functions.ids.Nodup) (hf : f ∈ p.functions.elems) :
    p.SpillsLink f.id ↔ ∃ f', Relation.ReflTransGen p.TailCallsTo f f' ∧ f'.SpillsItself := by
  constructor
  · intro hspills
    generalize hid : f.id = id at hspills
    induction hspills generalizing f with
    | self hself hspills =>
      rw [Roster.eq_of_id_eq hids hf hself hid]
      exact ⟨_, .refl, hspills⟩
    | tail hcaller hsymbol hresolve _ ih =>
      obtain ⟨callee, hcallee, heq⟩ := List.mem_map.mp (mem_ids_of_resolveFunction hresolve)
      obtain ⟨f', hchain, hspills⟩ := ih hcallee heq
      refine ⟨f', hchain.head ⟨_, _, ?_, hresolve, ?_⟩, hspills⟩
      · rw [Roster.eq_of_id_eq hids hf hcaller hid]
        exact hsymbol
      · rw [← heq]
        exact Roster.get?_id hids hcallee
  · rintro ⟨f', hchain, hspills⟩
    induction hchain using Relation.ReflTransGen.head_induction_on with
    | refl => exact .self hf hspills
    | head hcall _ ih =>
      obtain ⟨symbol, id, hsymbol, hresolve, hcallee⟩ := hcall
      have hspills := ih (Roster.mem_of_get? hcallee)
      have hid : Function.id _ = id := Roster.id_of_get? hcallee
      exact .tail hf hsymbol hresolve (hid ▸ hspills)

/-! ### Programs in another order -/

namespace Function.Rearranged

theorem symm (h : f.Rearranged f') : f'.Rearranged f :=
  ⟨h.id.symm, h.calleeSaved.symm, h.body.symm, h.instrs.symm⟩

theorem mem_tailCallees_iff (h : f.Rearranged f') {callee : Callee} :
    callee ∈ f'.tailCallees ↔ callee ∈ f.tailCallees :=
  (h.instrs.filterMap _).mem_iff

theorem spillsItself (h : f.Rearranged f') (hspills : f.SpillsItself) : f'.SpillsItself := by
  rw [SpillsItself, savesLink, h.calleeSaved, h.mem_tailCallees_iff] at *
  refine hspills.imp_left fun hbody => ?_
  have hnone := h.body
  rw [hbody] at hnone
  exact Option.isNone_iff_eq_none.mp hnone

end Function.Rearranged

theorem Program.SpillsLink.rearrange (haliases : p'.aliases = p.aliases)
    (hfunctions : ∀ f ∈ p.functions.elems, ∃ f' ∈ p'.functions.elems, f.Rearranged f') {id : Nat}
    (h : p.SpillsLink id) : p'.SpillsLink id := by
  induction h with
  | self hf hspills =>
    obtain ⟨f', hf', hsame⟩ := hfunctions _ hf
    exact hsame.id ▸ .self hf' (hsame.spillsItself hspills)
  | tail hf hsymbol hresolve _ ih =>
    obtain ⟨f', hf', hsame⟩ := hfunctions _ hf
    exact hsame.id ▸ .tail hf' (hsame.mem_tailCallees_iff.mpr hsymbol)
      (resolveFunction_of_aliases haliases hresolve ih.mem_ids) ih

namespace Program.Rearranged

theorem exists_right (h : p.Rearranged p') (hf : f ∈ p.functions.elems) :
    ∃ f' ∈ p'.functions.elems, f.Rearranged f' := by
  obtain ⟨functions, hpairs, hperm⟩ := h.functions
  obtain ⟨f', hf', hsame⟩ := Pairs.exists_of_mem_left hpairs hf
  exact ⟨f', hperm.mem_iff.mpr hf', hsame⟩

theorem exists_left (h : p.Rearranged p') (hf' : f' ∈ p'.functions.elems) :
    ∃ f ∈ p.functions.elems, f.Rearranged f' := by
  obtain ⟨functions, hpairs, hperm⟩ := h.functions
  exact Pairs.exists_of_mem_right hpairs (hperm.mem_iff.mp hf')

theorem mem_ids_iff (h : p.Rearranged p') {id : Nat} :
    id ∈ p'.functions.ids ↔ id ∈ p.functions.ids := by
  simp only [Roster.ids, List.mem_map]
  constructor
  · rintro ⟨f', hf', rfl⟩
    obtain ⟨f, hf, hsame⟩ := h.exists_left hf'
    exact ⟨f, hf, hsame.id.symm⟩
  · rintro ⟨f, hf, rfl⟩
    obtain ⟨f', hf', hsame⟩ := h.exists_right hf
    exact ⟨f', hf', hsame.id⟩

/-- The functions of a program in another order still have different IDs. -/
theorem nodup_ids (h : p.Rearranged p') (hids : p.functions.ids.Nodup) : p'.functions.ids.Nodup := by
  obtain ⟨functions, hpairs, hperm⟩ := h.functions
  have hsame : functions.map Function.id = p.functions.ids := Pairs.map_eq hpairs fun _ _ hf => hf.id
  rw [Roster.ids, (hperm.map _).nodup_iff]
  exact hsame ▸ hids

theorem spillsLink_iff (h : p.Rearranged p') {id : Nat} : p'.SpillsLink id ↔ p.SpillsLink id := by
  constructor
  · refine .rearrange h.aliases.symm fun f' hf' => ?_
    obtain ⟨f, hf, hsame⟩ := h.exists_left hf'
    exact ⟨f, hf, hsame.symm⟩
  · exact .rearrange h.aliases fun f hf => h.exists_right hf

end Program.Rearranged

/-! ### Whether there is an answer -/

/-- That a tail call goes to a function of the program or out of the program. -/
def Program.KnowsTarget (p : Program) (i : Instr) : Prop :=
  i.opcode = .tailCall → i.tailCallee? = some .unknown ∨
    ∃ symbol id, i.tailCallee? = some (.symbol symbol) ∧ p.resolveFunction symbol = .ok id

theorem Program.Rearranged.knowsTarget (h : p.Rearranged p') {i : Instr} (hknown : p.KnowsTarget i) :
    p'.KnowsTarget i := by
  refine fun hopcode => (hknown hopcode).imp_right ?_
  rintro ⟨symbol, id, hsymbol, hresolve⟩
  refine ⟨symbol, id, hsymbol, Program.resolveFunction_of_aliases h.aliases hresolve ?_⟩
  exact h.mem_ids_iff.mpr (mem_ids_of_resolveFunction hresolve)

namespace TailCalls

variable {i : Instr} {name : String}

theorem exists_callTarget_iff (name : String) :
    (∃ target, p.callTarget name i = .ok target) ↔
      i.operands.head?.bind Operand.callee? = some .unknown ∨
        ∃ symbol id, i.operands.head?.bind Operand.callee? = some (.symbol symbol) ∧
          p.resolveFunction symbol = .ok id := by
  constructor
  · rintro ⟨target, htarget⟩
    rcases callTarget_eq_ok htarget with ⟨hunknown, -⟩ | ⟨symbol, id, hsymbol, hresolve, -⟩
    · exact .inl hunknown
    · exact .inr ⟨symbol, id, hsymbol, hresolve⟩
  · intro hcallee
    rw [Program.callTarget]
    rcases hoperands : i.operands with _ | ⟨operand, rest⟩
    · simp [hoperands] at hcallee
    · rw [hoperands] at hcallee
      cases operand with
      | symbol symbol =>
        cases symbol with
        | global => simp [Operand.callee?] at hcallee
        | function | aliased =>
          obtain ⟨id, hid⟩ := by simpa [Operand.callee?] using hcallee
          exact ⟨.internal id, by simp [hid]⟩
      | external => exact ⟨.external, rfl⟩
      | reg | imm | block | frame => simp [Operand.callee?] at hcallee

/-- An instruction can be taken into account exactly if its target is known. -/
theorem exists_extend_iff {t : TailCalls} :
    (∃ t', extend p name t i = .ok t') ↔ p.KnowsTarget i := by
  rw [extend]
  split
  · next hopcode =>
    have hcallee : i.tailCallee? = i.operands.head?.bind Operand.callee? := by
      simp [Instr.tailCallee?, hopcode]
    rw [Program.KnowsTarget, hcallee, ← exists_callTarget_iff name]
    simp [Outcome.map_eq_ok_iff, hopcode]
  · next hopcode => simp [Program.KnowsTarget, hopcode]
  · next hdirect _ => exact ⟨fun _ hopcode => absurd hopcode hdirect, fun _ => ⟨t, rfl⟩⟩

/-- The tail calls of a function can be read off its code exactly if all their targets are known. -/
theorem exists_ofFunction_iff :
    (∃ t, ofFunction p f = .ok t) ↔ ∀ i ∈ f.instrs, p.KnowsTarget i := by
  have hfold : ∀ (code : List Instr) (t : TailCalls),
      (∃ t', code.foldlM (extend p f.name) t = .ok t') ↔ ∀ i ∈ code, p.KnowsTarget i := by
    intro code
    induction code with
    | nil => exact fun t => ⟨fun _ => by simp, fun _ => ⟨t, rfl⟩⟩
    | cons i rest ih =>
      intro t
      rw [List.forall_mem_cons, List.foldlM_cons]
      simp only [Outcome.bind_eq_ok_iff]
      constructor
      · rintro ⟨t', t₁, hfirst, hrest⟩
        exact ⟨exists_extend_iff.mp ⟨t₁, hfirst⟩, (ih t₁).mp ⟨t', hrest⟩⟩
      · rintro ⟨hi, hrest⟩
        obtain ⟨t₁, hfirst⟩ := exists_extend_iff.mpr hi
        obtain ⟨t', hrest⟩ := (ih t₁).mpr hrest
        exact ⟨t', t₁, hfirst, hrest⟩
  exact hfold _ _

end TailCalls

namespace LinkSpill

variable {spills : LinkSpill}

/-- The analysis has an answer exactly if the targets of all tail calls are known. -/
theorem exists_compute_iff :
    (∃ spills, compute p = .ok spills) ↔ ∀ f ∈ p.functions.elems, ∀ i ∈ f.instrs, p.KnowsTarget i := by
  simp only [← TailCalls.exists_ofFunction_iff]
  constructor
  · rintro ⟨spills, hspills⟩ f hf
    obtain ⟨calls, hcalls, -⟩ := Outcome.map_eq_ok_iff.mp hspills
    obtain ⟨t, -, ht⟩ := Pairs.exists_of_mem_left (Outcome.mapM_eq_ok hcalls) hf
    exact ⟨t, ht⟩
  · intro hall
    obtain ⟨calls, hcalls⟩ := Outcome.exists_mapM_eq_ok hall
    exact ⟨_, Outcome.map_eq_ok_iff.mpr ⟨calls, hcalls, rfl⟩⟩

/-- For a program in another order the analysis has the same answer. -/
theorem canSpill_rearranged (hids : p.functions.ids.Nodup) (hok : compute p = .ok spills)
    (h : p.Rearranged p') :
    ∃ spills', compute p' = .ok spills' ∧ ∀ id, spills'.canSpill id = spills.canSpill id := by
  obtain ⟨spills', hok'⟩ := exists_compute_iff.mpr fun f' hf' i hi => by
    obtain ⟨f, hf, hsame⟩ := h.exists_left hf'
    exact h.knowsTarget (exists_compute_iff.mp ⟨spills, hok⟩ f hf i (hsame.instrs.mem_iff.mp hi))
  obtain ⟨hknown, hspilling⟩ := compute_eq_ok hok
  obtain ⟨hknown', hspilling'⟩ := compute_eq_ok hok'
  refine ⟨spills', hok', fun id => ?_⟩
  rw [Bool.eq_iff_iff, canSpill, canSpill, hknown, hknown']
  simp [hspilling, hspilling', Program.saidToSpill_iff hids, Program.saidToSpill_iff (h.nodup_ids hids),
    h.spillsLink_iff, h.mem_ids_iff]

/-- The analysis says of the functions of a program that they may spill the link register exactly if tail
calls lead from them to one that does so itself. The order of the program does not matter. -/
theorem canSpill_iff_reaches (hids : p.functions.ids.Nodup) (hok : compute p = .ok spills) :
    (∀ f ∈ p.functions.elems, spills.canSpill f.id = true ↔
      ∃ f', Relation.ReflTransGen p.TailCallsTo f f' ∧ f'.SpillsItself) ∧
    ∀ p' : Program, p.Rearranged p' →
      ∃ spills', compute p' = .ok spills' ∧ ∀ id, spills'.canSpill id = spills.canSpill id := by
  refine ⟨fun f hf => ?_, fun p' h => canSpill_rearranged hids hok h⟩
  have hid : f.id ∈ p.functions.ids := List.mem_map_of_mem hf
  exact ((canSpill_iff hok hid).trans (Program.saidToSpill_iff hids)).trans
    (Program.spillsLink_iff_exists hids hf)

/-- Two functions that only tail-call each other, one that tail-calls a declaration by an alias, and the
declaration. -/
def tailFunctions : List Function :=
  let leaf (id : Nat) (name : String) (target : Symbol) : Function :=
    let code : Code := [{ opcode := .tailCall, operands := [.address target] }]
    let graph : FlowGraph :=
      { blocks := { elems := [{ Block.ofCode code with id := 1 }], next := 2 }, entry := 1 }
    { id, name, body := some graph, calleeSaved := some [.r4] }
  [leaf 1 "ping" (.function 2), leaf 2 "pong" (.function 1), leaf 3 "quit" (.aliased 1),
    { id := 4, name := "abort" }]

/-- These functions in a given order. -/
def tailProgram (order : List Nat) : Program :=
  { functions := { elems := order.filterMap fun k => tailFunctions[k]?, next := 5 }
    aliases := { elems := [{ id := 1, name := "stop", target := .function 4 }], next := 2 }
    pointerSize := 4 }

theorem canSpill_iff_reaches_tailProgram :
    ∃ spills, (tailProgram [0, 1, 2, 3]).functions.ids.Nodup ∧
      compute (tailProgram [0, 1, 2, 3]) = .ok spills ∧
      (∀ f ∈ (tailProgram [0, 1, 2, 3]).functions.elems, f.id = 1 →
        ¬∃ f', Relation.ReflTransGen (tailProgram [0, 1, 2, 3]).TailCallsTo f f' ∧ f'.SpillsItself) ∧
      (∀ f ∈ (tailProgram [0, 1, 2, 3]).functions.elems, f.id = 3 →
        ∃ f', Relation.ReflTransGen (tailProgram [0, 1, 2, 3]).TailCallsTo f f' ∧ f'.SpillsItself) ∧
      ∃ spills', compute (tailProgram [3, 0, 2, 1]) = .ok spills' ∧ spills'.canSpill 3 = true := by
  have hids : (tailProgram [0, 1, 2, 3]).functions.ids.Nodup := by decide
  have hok : compute (tailProgram [0, 1, 2, 3]) = .ok { known := [1, 2, 3, 4], spilling := [3, 4] } := by
    decide +kernel
  obtain ⟨hspills, horder⟩ := canSpill_iff_reaches hids hok
  have horders : [3, 0, 2, 1].Perm [0, 1, 2, 3] := by decide
  have hperm : ∀ order order' : List Nat, order.Perm order' →
      (tailProgram order).functions.elems.Perm (tailProgram order').functions.elems :=
    fun _ _ horder => horder.filterMap _
  have hrearranged : (tailProgram [0, 1, 2, 3]).Rearranged (tailProgram [3, 0, 2, 1]) :=
    ⟨⟨_, List.forall₂_same.mpr fun f _ => ⟨rfl, rfl, rfl, .refl _⟩, hperm _ _ horders⟩, rfl⟩
  obtain ⟨spills', hok', hsame⟩ := horder _ hrearranged
  refine ⟨_, hids, hok, fun f hf hid => ?_, fun f hf hid => ?_, spills', hok', hsame 3⟩
  · rw [← hspills f hf, hid]
    decide
  · rw [← hspills f hf, hid]
    decide

end LinkSpill
end ThumbHardening
