import ThumbHardening.Proofs.Layout.Capacity
import ThumbHardening.Proofs.Layout.CarryOut
import ThumbHardening.Proofs.Program.Used
import ThumbHardening.Proofs.Roster.Found

/-!
# What a plan leaves alone

Carrying out a plan etches blocks, adds objects, and makes or replaces the accessor of the guard. Everything else
stays: the other functions and blocks, the names and values of all symbols, and what all values use but the list of
used symbols, which only gets longer. Nothing is asked of the IDs of functions and blocks here. With repeated IDs a
change reaches the function or block that is found first.
-/

namespace ThumbHardening

namespace Program

variable {p q : Program} {name : String} {function block : Nat} {change change' : Block → Block}

/-- What a change makes of other blocks than the one that is found does not matter. -/
theorem updateBlock_congr (h : ∀ b, p.block? function block = some b → change b = change' b) :
    (p.updateFunction function fun f => f.updateBody fun g => g.updateBlock block change)
      = p.updateFunction function fun f => f.updateBody fun g => g.updateBlock block change' := by
  refine congrArg (fun functions => { p with functions }) (Roster.update_congr fun f hf => ?_)
  refine congrArg (fun body => { f with body }) (Option.map_congr fun g hg => ?_)
  refine congrArg (fun blocks => { g with blocks }) (Roster.update_congr fun b hb => h b ?_)
  have hf : p.function? function = some f := hf
  have hb : g.block? block = some b := hb
  simp only [block?, hf, Option.bind_eq_bind, Option.bind_some, hg, hb]

theorem updateBlock_eq_self (h : ∀ b, p.block? function block = some b → change b = b) :
    (p.updateFunction function fun f => f.updateBody fun g => g.updateBlock block change) = p := by
  refine congrArg (fun functions => { p with functions }) (Roster.update_eq_self fun f hf => ?_)
  have hbody : f.body.map (fun g => g.updateBlock block change) = f.body := by
    refine (Option.map_congr fun g hg => ?_).trans Option.map_id_apply
    refine congrArg (fun blocks => { g with blocks }) (Roster.update_eq_self fun b hb => h b ?_)
    have hf : p.function? function = some f := hf
    have hb : g.block? block = some b := hb
    simp only [block?, hf, Option.bind_eq_bind, Option.bind_some, hg, hb]
  exact congrArg (fun body => { f with body }) hbody

/-- The ID of the function that a name belongs to. -/
def functionNamed? (p : Program) (name : String) : Option Nat :=
  match p.symbolNamed? name with
  | some (.function id) => some id
  | _ => none

theorem symbolNamed?_eq_function_iff {id : Nat} :
    p.symbolNamed? name = some (.function id) ↔ p.functionNamed? name = some id := by
  rw [functionNamed?]
  split <;> simp_all

/-- An object that joins brings no function along. -/
theorem functionNamed?_addGlobal {g : GlobalObject} {id : Nat} (h : p.addGlobal g = (q, .ok id)) (name : String) :
    q.functionNamed? name = p.functionNamed? name := by
  obtain ⟨-, hfree, -⟩ := addGlobal_eq h
  rw [functionNamed?, functionNamed?, symbolNamed?_addGlobal h]
  by_cases hname : name = g.name
  · rw [isFreeName, Bool.and_eq_true, Option.isNone_iff_eq_none] at hfree
    rw [if_pos hname, hname, hfree.1]
  · rw [if_neg hname]

end Program

namespace Layout

variable {p q : Program} {o : Options} {plan : Plan} {s s' : State} {etched : List (BlockPointer × Nat)}
  {used : List Symbol}

/-! ### Etched functions -/

/-- A function with its etched blocks. -/
def etchFunction (etched : List (BlockPointer × Nat)) (f : Function) : Function :=
  f.updateBody fun g => { g with blocks := g.blocks.mapFound fun b => etchedAs etched ⟨f.id, b.id⟩ b }

theorem id_etchedAs (etched : List (BlockPointer × Nat)) (t : BlockPointer) (b : Block) :
    (etchedAs etched t b).id = b.id := by
  rw [etchedAs]
  cases etched.lookup t <;> rfl

theorem id_etchFunction (etched : List (BlockPointer × Nat)) (f : Function) :
    Identified.id (etchFunction etched f) = Identified.id f := rfl

theorem etchFunction_nil (f : Function) : etchFunction [] f = f := by
  have hbody : f.body.map (fun g => { g with blocks := g.blocks.mapFound fun b => b }) = f.body := by
    refine (Option.map_congr fun g _ => ?_).trans Option.map_id_apply
    rw [Roster.mapFound_id]
    rfl
  exact congrArg (fun body => { f with body }) hbody

/-- The latest etching changes what those before it have made of the function. -/
theorem etchFunction_cons (decoy : Nat) (target : BlockPointer) (etched : List (BlockPointer × Nat)) (f : Function) :
    etchFunction ((target, decoy) :: etched) f
      = if f.id = target.function
        then (etchFunction etched f).updateBody fun g => g.updateBlock target.block (etchBlock decoy)
        else etchFunction etched f := by
  split
  · next hid =>
    have hblocks (g : FlowGraph) : g.blocks.mapFound (fun b => etchedAs ((target, decoy) :: etched) ⟨f.id, b.id⟩ b)
        = (g.blocks.mapFound fun b => etchedAs etched ⟨f.id, b.id⟩ b).update target.block (etchBlock decoy) := by
      rw [Roster.update_mapFound fun b => id_etchedAs etched _ b]
      refine congrArg g.blocks.mapFound (funext fun b => ?_)
      have hsplit : (⟨f.id, b.id⟩ : BlockPointer) = target ↔ b.id = target.block := by
        cases target
        simpa using fun _ => hid
      rw [etchedAs_cons]
      simp only [hsplit, ite_apply]
      rfl
    rw [etchFunction, etchFunction, Function.updateBody, Function.updateBody, Function.updateBody, Option.map_map]
    refine congrArg (fun body => { f with body }) (Option.map_congr fun g _ => ?_)
    exact congrArg (fun blocks => { g with blocks }) (hblocks g)
  · next hid =>
    rw [etchFunction, etchFunction]
    refine congrArg f.updateBody (funext fun g => ?_)
    refine congrArg (fun blocks => { g with blocks }) (congrArg g.blocks.mapFound (funext fun b => ?_))
    rw [etchedAs_cons, if_neg]
    rintro rfl
    exact hid rfl

/-- Etching in one step, whether it finds an instruction or not. -/
theorem etch_program {decoy : Nat} {target : BlockPointer} (h : etch decoy target s = (s', none)) :
    s'.program = s.program.updateFunction target.function fun f =>
      f.updateBody fun g => g.updateBlock target.block (etchBlock decoy) := by
  rcases etch_eq_none h with ⟨rfl, hnone⟩ | ⟨b, i, hb, hfirst, -, rfl⟩
  · refine (Program.updateBlock_eq_self fun b hb => ?_).symm
    rw [hb, Option.bind_some, List.getElem?_eq_none_iff, Nat.le_zero, List.length_eq_zero_iff] at hnone
    rw [etchBlock, hnone, List.modify_nil, ← hnone]
  · refine Program.updateBlock_congr fun b' hb' => ?_
    obtain rfl : b = b' := Option.some.inj (hb.symm.trans hb')
    obtain ⟨rest, hcode⟩ := List.head?_eq_some_iff.mp (List.head?_eq_getElem?.trans hfirst)
    simp [etchBlock, hcode]

/-! ### States on the way -/

/-- What a state on the way has in common with the program. -/
structure State.Framed (p : Program) (etched : List (BlockPointer × Nat)) (used : List Symbol) (s : State) :
    Prop where
  built : s.program.Built
  keeps : p.Keeps s.program
  functions : s.program.functions = p.functions.mapFound (etchFunction etched)
  /-- Only objects have joined. -/
  functionNamed? : ∀ name, s.program.functionNamed? name = p.functionNamed? name
  used : s.program.used = used

namespace State.Framed

theorem start (hbuilt : p.Built) (statistics : LayoutStatistics) :
    State.Framed p [] p.used { program := p, statistics } := by
  have hfunctions : p.functions.mapFound (etchFunction []) = p.functions := by
    rw [funext etchFunction_nil, Roster.mapFound_id]
  exact ⟨hbuilt, .of_same rfl rfl rfl rfl rfl, hfunctions.symm, fun _ => rfl, rfl⟩

theorem etch (h : s.Framed p etched used) {decoy : Nat} {target : BlockPointer}
    (hetch : Layout.etch decoy target s = (s', none)) : s'.Framed p ((target, decoy) :: etched) used := by
  have hprogram := etch_program hetch
  have hsame := etch_frame hetch
  have hfunctions : s'.program.functions = p.functions.mapFound (etchFunction ((target, decoy) :: etched)) := by
    rw [hprogram, funext (etchFunction_cons decoy target etched)]
    change s.program.functions.update target.function _ = _
    rw [h.functions, Roster.update_mapFound (id_etchFunction etched)]
    rfl
  refine ⟨hsame.built h.built, ?_, hfunctions, fun name => ?_, ?_⟩
  · rw [hprogram]
    exact h.keeps.trans (.of_same rfl rfl rfl rfl rfl)
  · rw [hprogram]
    exact h.functionNamed? name
  · rw [hprogram]
    exact h.used

theorem addDecoy (h : s.Framed p (etchings s.placed) used) {d : DecoyPlan}
    (hadd : Layout.addDecoy d s = (s', none)) : s'.Framed p (etchings s'.placed) used := by
  rw [Layout.addDecoy] at hadd
  dsimp only at hadd
  split at hadd
  · cases hadd
  · next q id hglobal =>
    have hbuilt := h.built.addGlobal
      (decoyObject (decoyName (freeNumber s.program s.program.names.length s.counter)) d)
    have hkeeps := h.keeps.trans (.addGlobal h.built rfl hglobal)
    have hnamed := Program.functionNamed?_addGlobal hglobal
    rw [hglobal] at hbuilt
    obtain ⟨-, -, values, bindings, hq⟩ := Program.addGlobal_eq hglobal
    -- The state as it is before the decoy is etched into a trap.
    have hmade : ∀ statistics counter placed, State.Framed p (etchings s.placed) used
        ⟨q, statistics, counter, placed⟩ := by
      intro statistics counter placed
      have hused : q.used = s.program.used := by rw [hq]
      have hfunctions : q.functions = s.program.functions := by rw [hq]
      exact ⟨hbuilt, hkeeps, hfunctions.trans h.functions, fun name => (hnamed name).trans (h.functionNamed? name),
        hused.trans h.used⟩
    split at hadd
    · next hetch =>
      cases hadd
      have hsame : etchings ((d, id) :: s.placed) = etchings s.placed := by simp [etchings, hetch]
      rw [hsame]
      exact hmade ..
    · next target hetch =>
      have hplaced : s'.placed = (d, id) :: s.placed := (etch_sameData hadd).placed
      have hmore : etchings ((d, id) :: s.placed) = (target, id) :: etchings s.placed := by simp [etchings, hetch]
      rw [hplaced, hmore]
      exact (hmade _ _ _).etch hadd

theorem reorder (h : s.Framed p etched used) (hreorder : Layout.reorder plan s = (s', none)) :
    s'.Framed p etched used ∧ s'.placed = s.placed := by
  rw [Layout.reorder] at hreorder
  split at hreorder
  · cases hreorder
  · next q hq =>
    cases hreorder
    have hbuilt := Program.Built.reorderGlobals h.built hq
    obtain ⟨globals, hglobals, rfl⟩ := Outcome.map_eq_ok_iff.mp hq
    have hkeeps := h.keeps.trans (.of_same (q := { s.program with globals }) rfl rfl rfl rfl rfl)
    exact ⟨⟨hbuilt, hkeeps, h.functions, h.functionNamed?, h.used⟩, rfl⟩

/-- A symbol that is not on the list goes to its end. -/
theorem keep (h : s.Framed p etched used) {symbol : Symbol} (hsymbol : symbol ∉ used)
    (hkeep : Layout.keep symbol s = (s', none)) :
    s'.Framed p etched (used ++ [symbol]) ∧ s'.placed = s.placed := by
  rw [Layout.keep] at hkeep
  split at hkeep
  · cases hkeep
  · next value hvalue =>
    cases hkeep
    have hbuilt := Program.Built.appendToUsed h.built (Outcome.map_eq_ok_iff.mpr ⟨value, hvalue, rfl⟩)
    have hkeeps := h.keeps.trans (.use h.built symbol value)
    have hnew : ¬ s.program.isUsed symbol = true := by rwa [h.built.isUsed_iff, h.used]
    rw [Program.use, if_neg hnew] at hbuilt hkeeps ⊢
    exact ⟨⟨hbuilt, hkeeps, h.functions, h.functionNamed?, congrArg (· ++ [symbol]) h.used⟩, rfl⟩

theorem runAll_keep {entries : List (DecoyPlan × Nat)} (h : s.Framed p etched used)
    (hnodup : (entries.map Prod.snd).Nodup) (hnew : ∀ d ∈ entries, Symbol.global d.2 ∉ used)
    (hrun : Steps.runAll (fun entry => Layout.keep (.global entry.2)) entries s = (s', none)) :
    s'.Framed p etched (used ++ entries.map fun d => .global d.2) ∧ s'.placed = s.placed := by
  -- On the symbols that are left. None of them is among those that have been put on the list.
  induction entries generalizing s used with
  | nil =>
    cases hrun
    simpa using h
  | cons d rest ih =>
    obtain ⟨t, ht, hrest⟩ := Steps.runAll_cons_eq_none_iff.mp hrun
    obtain ⟨hfirst, hothers⟩ := List.nodup_cons.mp hnodup
    obtain ⟨hnow, hlater⟩ := List.forall_mem_cons.mp hnew
    obtain ⟨hkept, hplaced⟩ := h.keep hnow ht
    have hleft : ∀ d' ∈ rest, Symbol.global d'.2 ∉ used ++ [.global d.2] := by
      intro d' hd'
      rw [List.mem_append, List.mem_singleton, not_or]
      refine ⟨hlater d' hd', fun heq => hfirst ?_⟩
      rw [← Symbol.global.inj heq]
      exact List.mem_map_of_mem hd'
    obtain ⟨hrun', hplaced'⟩ := ih hkept hothers hleft hrest
    rw [List.append_assoc] at hrun'
    exact ⟨hrun', hplaced'.trans hplaced⟩

end State.Framed

/-! ### The accessor of the guard -/

/-- The ID of the accessor: that of the function with its name, if there is one. -/
def accessorId (p : Program) : Nat :=
  (p.functionNamed? Guard.functionName).getD p.functions.next

/-- The functions with the accessor of the guard, in place of the function with its name or as a new one. -/
def withAccessor (p : Program) (body : FlowGraph) (functions : Roster Function) : Roster Function :=
  match p.functionNamed? Guard.functionName with
  | some id => functions.update id (becomeGuard body)
  | none => functions.insert (guardFunction body)

/-- The accessor on the list of used symbols, unless it is there already. -/
def accessorSymbols (p : Program) : List Symbol :=
  if p.used.contains (.function (accessorId p)) then [] else [.function (accessorId p)]

/-- The body of the accessor, once the decoys have become objects. -/
def accessorBody (o : Options) (guard : GuardPlan) (objects : List GlobalObject) : FlowGraph :=
  Guard.graph (guard.candidates.map fun k => (objects.map GlobalObject.id).getD k 0) o.rngAddress guard.staticPick

theorem insertGuard_eq_ok (hbuilt : p.Built) {body : FlowGraph} {id : Nat} (h : insertGuard p body = .ok (q, id)) :
    q.Built ∧ p.Keeps q ∧ q.functions = withAccessor p body p.functions ∧ id = accessorId p ∧
      q.symbolNamed? Guard.functionName = some (.function id) ∧ q.used = p.used := by
  rw [insertGuard] at h
  rw [withAccessor, accessorId]
  cases hnamed : p.functionNamed? Guard.functionName with
  | some id' =>
    have hsymbol := Program.symbolNamed?_eq_function_iff.mpr hnamed
    rw [hsymbol] at h
    cases h
    exact ⟨hbuilt.updateFunction _ fun _ => rfl, .of_same rfl rfl rfl rfl rfl, rfl, rfl, hsymbol, rfl⟩
  | none =>
    have hadd : p.addFunction (guardFunction body) = .ok (q, id) := by
      split at h
      · next id' hsymbol =>
        rw [Program.symbolNamed?_eq_function_iff, hnamed] at hsymbol
        cases hsymbol
      · exact h
    have hkeeps := Program.Keeps.addFunction hbuilt rfl hadd
    have hq := hbuilt.addFunction hadd
    obtain ⟨rfl, -, rfl⟩ := Program.addFunction_eq_ok hadd
    exact ⟨hq, hkeeps, rfl, Roster.idFor_of_id_eq_zero rfl, (Program.symbolNamed?_bind ..).trans (if_pos rfl), rfl⟩

theorem addGuard_eq_none {guard : GuardPlan} (h : addGuard o guard s = (s', none)) :
    ∃ q id value, insertGuard s.program (Guard.graph (guard.candidates.map fun k =>
        (s.placed.reverse.map Prod.snd).getD k 0) o.rngAddress guard.staticPick) = .ok (q, id) ∧
      q.valueOf? (.function id) = some value ∧ s'.program = q.use (.function id) value := by
  rw [addGuard] at h
  split at h
  · cases h
  · next q id hinsert =>
    rw [keep] at h
    split at h
    · cases h
    · next value hvalue =>
      cases h
      exact ⟨q, id, value, hinsert, Program.valueOf_eq_ok_iff.mp hvalue, rfl⟩

/-! ### The whole plan -/

theorem Made.map_id {next : Nat} {decoys : List DecoyPlan} {objects : List GlobalObject}
    (h : Made next decoys objects) : objects.map GlobalObject.id = List.range' next objects.length := by
  induction h with
  | nil => rfl
  | cons name rest ih => rw [List.map_cons, ih, List.length_cons, List.range'_succ]

theorem Made.map_snd_placedAs {next : Nat} {decoys : List DecoyPlan} {objects : List GlobalObject}
    (h : Made next decoys objects) : (placedAs decoys objects).map Prod.snd = objects.map GlobalObject.id := by
  have hsnd : (decoys.zip objects).map Prod.snd = objects := List.map_snd_zip (Nat.le_of_eq h.length_eq.symm)
  rw [placedAs, List.map_map]
  conv_rhs => rw [← hsnd, List.map_map]
  rfl

/-- The blocks that a plan etches, with the IDs of the objects that the decoys have become. -/
def etchedBy (plan : Plan) (objects : List GlobalObject) : List (BlockPointer × Nat) :=
  etchings (placedAs plan.decoys objects).reverse

/-- What has become of a program when a plan has been carried out. -/
structure Carried (o : Options) (p : Program) (plan : Plan) (objects : List GlobalObject) (q : Program) : Prop where
  built : q.Built
  keeps : p.Keeps q
  made : Made p.globals.next plan.decoys objects
  globals : q.globals.elems.Perm (p.globals.elems ++ objects)
  nodup : q.globals.ids.Nodup
  functions : q.functions =
    plan.guard.elim (p.functions.mapFound (etchFunction (etchedBy plan objects))) fun guard =>
      withAccessor p (accessorBody o guard objects) (p.functions.mapFound (etchFunction (etchedBy plan objects)))
  used : q.used = p.used ++ objects.map (fun g => .global g.id) ++ plan.guard.elim [] fun _ => accessorSymbols p
  accessor : plan.guard.isSome = true → q.symbolNamed? Guard.functionName = some (.function (accessorId p))

/-- The decoys are all made, in order, and kept. -/
theorem exists_kept_of_runAll (hbuilt : p.Built) {statistics : LayoutStatistics} {added ordered kept : State}
    (hadded : Steps.runAll addDecoy plan.decoys { program := p, statistics } = (added, none))
    (hreorder : reorder plan added = (ordered, none))
    (hkeep : Steps.runAll (fun entry => keep (.global entry.2)) ordered.placed.reverse ordered = (kept, none)) :
    ∃ objects, Made p.globals.next plan.decoys objects ∧
      kept.program.globals.elems.Perm (p.globals.elems ++ objects) ∧ kept.program.globals.ids.Nodup ∧
      kept.placed.reverse = placedAs plan.decoys objects ∧
      kept.Framed p (etchedBy plan objects) (p.used ++ objects.map fun g => .global g.id) := by
  obtain ⟨objects, hmade, helems, -, hplaced, -⟩ := runAll_addDecoy hadded
  obtain ⟨hperm, -, hnodup, -⟩ := reorder_eq_none hreorder
  have hframed : added.Framed p (etchings added.placed) p.used :=
    Steps.runAll_induction hadded (P := fun s => s.Framed p (etchings s.placed) p.used) (.start hbuilt statistics)
      fun _ _ _ _ hstep h => h.addDecoy hstep
  obtain ⟨hordered, hsame⟩ := hframed.reorder hreorder
  have hplaced : added.placed.reverse = placedAs plan.decoys objects := hplaced
  have hids : (ordered.placed.reverse.map Prod.snd) = List.range' p.globals.next objects.length := by
    rw [hsame, hplaced, hmade.map_snd_placedAs, hmade.map_id]
  -- The decoys have been given IDs that no symbol on the list has.
  have hnew : ∀ d ∈ ordered.placed.reverse, Symbol.global d.2 ∉ p.used := by
    intro d hd hused
    obtain ⟨value, hvalue⟩ := hbuilt.recorded.bound _ hused
    have hmem := List.mem_map_of_mem (f := Prod.snd) hd
    rw [hids, List.mem_range'_1] at hmem
    exact Nat.not_lt.mpr hmem.1 (hbuilt.lt_next_of_valueOf? hvalue)
  obtain ⟨hkept, hsame'⟩ := hordered.runAll_keep (hids ▸ List.nodup_range') hnew hkeep
  have hdata : ordered.SameData kept :=
    Steps.runAll_induction hkeep (P := ordered.SameData) (.refl ordered)
      fun _ _ _ _ hstep hsame => hsame.trans (keep_sameData hstep)
  have hsymbols : ordered.placed.reverse.map (fun d => Symbol.global d.2)
      = objects.map fun g => Symbol.global g.id := by
    rw [hsame, hplaced]
    have hmap := congrArg (List.map Symbol.global) hmade.map_snd_placedAs
    rwa [List.map_map, List.map_map] at hmap
  refine ⟨objects, hmade, ?_, ?_, by rw [hsame', hsame, hplaced], ?_⟩
  · rw [hdata.globals]
    exact helems ▸ hperm
  · rw [hdata.globals]
    exact hnodup
  · rw [etchedBy, ← hplaced, List.reverse_reverse, ← hsymbols]
    exact hkept

theorem carried_of_carryOut (hbuilt : p.Built) {statistics : LayoutStatistics}
    (h : carryOut o plan { program := p, statistics } = (s', none)) :
    ∃ objects, Carried o p plan objects s'.program := by
  obtain ⟨added, ordered, kept, hadded, hreorder, hkeep, hlast⟩ := carryOut_steps h
  obtain ⟨objects, hmade, hperm, hnodup, hplaced, hkept⟩ := exists_kept_of_runAll hbuilt hadded hreorder hkeep
  refine ⟨objects, ?_⟩
  rcases hlast with ⟨hnone, rfl⟩ | ⟨guard, hsome, hguard⟩
  · refine ⟨hkept.built, hkept.keeps, hmade, hperm, hnodup, ?_, ?_, by simp [hnone]⟩
    · rw [hnone]
      exact hkept.functions
    · rw [hnone, hkept.used]
      exact (List.append_nil _).symm
  · have hdata := addGuard_sameData hguard
    obtain ⟨q, id, value, hinsert, hvalue, hprogram⟩ := addGuard_eq_none hguard
    obtain ⟨hq, hkeeps, hfunctions, hid, hnamed, hused⟩ := insertGuard_eq_ok hkept.built hinsert
    have hnext : kept.program.functions.next = p.functions.next := by
      rw [hkept.functions]
      rfl
    have hid : id = accessorId p := by rw [hid, accessorId, accessorId, hkept.functionNamed?, hnext]
    subst hid
    rw [hplaced, hmade.map_snd_placedAs, withAccessor, hkept.functionNamed?, hkept.functions] at hfunctions
    obtain ⟨values, used, usedSet, huse⟩ := q.use_frame (.function (accessorId p)) value
    refine ⟨hprogram ▸ hq.appendToUsed (Outcome.map_eq_ok_iff.mpr ⟨value, Program.valueOf_eq_ok_iff.mpr hvalue, rfl⟩),
      hprogram ▸ hkept.keeps.trans (hkeeps.trans (.use hq _ value)), hmade, ?_, ?_, ?_, ?_, fun _ => ?_⟩
    · rw [hdata.globals]
      exact hperm
    · rw [hdata.globals]
      exact hnodup
    · rw [hprogram, huse, hsome]
      exact hfunctions
    · have hmem : q.isUsed (.function (accessorId p)) = p.used.contains (.function (accessorId p)) := by
        rw [Bool.eq_iff_iff, hq.isUsed_iff, hused, hkept.used]
        simp
      rw [hprogram, hsome, Program.use, hmem, accessorSymbols, Option.elim_some]
      split
      · rw [hused, hkept.used, List.append_nil]
      · rw [hused, hkept.used]
    · rw [hprogram, huse]
      exact hnamed

end Layout
end ThumbHardening
