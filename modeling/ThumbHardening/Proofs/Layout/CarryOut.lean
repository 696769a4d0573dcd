import ThumbHardening.Proofs.Layout.Etching
import ThumbHardening.Proofs.Layout.Names
import ThumbHardening.Proofs.Layout.Order
import ThumbHardening.Proofs.Layout.Traps
import ThumbHardening.Proofs.Program.Used

/-!
# Carrying out a plan

Planning leaves nothing to chance that could go wrong later. The names of decoys are free, and what their entries
refer to exists. The order names each object once. The name of the guard is free or that of a function. So carrying
out a plan goes through, with one exception: an instruction without operands cannot be etched.
-/

namespace ThumbHardening

/-- What stays of a function when its blocks are etched: its ID, its name, and which blocks are trap blocks. -/
def Function.skeleton (f : Function) : Nat × String × List (Nat × Bool) :=
  (f.id, f.name, f.blocks.map fun b => (b.id, b.trap))

namespace Layout

variable {p : Program} {o : Options} {plan : Plan} {s s' : State} {t : BlockPointer} {b : Block}

/-! ### What has been etched -/

/-- The blocks that hold addresses of decoys, with the IDs of the decoys. -/
def etchings (placed : List (DecoyPlan × Nat)) : List (BlockPointer × Nat) :=
  placed.filterMap fun d => d.1.etch.map fun t => (t, d.2)

/-- What etching makes of a block. The latest etching comes first. -/
def etchedAs (etched : List (BlockPointer × Nat)) (t : BlockPointer) (b : Block) : Block :=
  ((etched.lookup t).map fun decoy => etchBlock decoy b).getD b

theorem etchedAs_cons (decoy : Nat) (target : BlockPointer) (etched : List (BlockPointer × Nat)) :
    etchedAs ((target, decoy) :: etched) t
      = if t = target then etchBlock decoy ∘ etchedAs etched t else etchedAs etched t := by
  funext b
  rw [etchedAs, List.lookup_cons]
  split
  · next heq =>
    rw [if_pos (beq_iff_eq.mp heq), Function.comp_apply, etchedAs]
    cases etched.lookup t with
    | none => rfl
    | some old => exact (etchBlock_etchBlock decoy old b).symm
  · next hne => rw [if_neg (by simpa using hne), etchedAs]

theorem firstOperands?_etchedAs (etched : List (BlockPointer × Nat)) :
    ((etchedAs etched t b).instrs[0]?).map (fun i => i.operands.length)
      = (b.instrs[0]?).map fun i => i.operands.length := by
  rw [etchedAs]
  cases etched.lookup t with
  | none => rfl
  | some decoy => exact firstOperands?_etchBlock decoy b

/-- What etching leaves as it is, and what it counts. -/
structure State.Etched (target : BlockPointer) (s s' : State) : Prop where
  built : s.program.Built → s'.program.Built
  functions : s'.program.functions.elems.map Function.skeleton = s.program.functions.elems.map Function.skeleton
  names : s'.program.names = s.program.names
  trapsEtched : s'.statistics.trapsEtched
    = s.statistics.trapsEtched + if (s.program.firstOperands? target).isSome then 1 else 0

theorem etch_frame {decoy : Nat} {target : BlockPointer} (h : etch decoy target s = (s', none)) :
    s.Etched target s' := by
  rcases etch_eq_none h with ⟨rfl, hnone⟩ | ⟨b, i, hb, hfirst, -, rfl⟩
  · exact ⟨id, rfl, rfl, by simp [Program.firstOperands?, hnone]⟩
  · refine ⟨fun hbuilt => hbuilt.updateFunction _ fun _ => rfl, ?_, ?_, ?_⟩
    · refine Roster.map_update fun f _ => ?_
      rw [Function.skeleton, Function.skeleton, Function.updateBody, Function.blocks, Function.blocks]
      cases f.body with
      | none => rfl
      | some g => exact congrArg (fun blocks => (f.id, f.name, blocks)) (Roster.map_update fun _ _ => rfl)
    · rfl
    · simp [Program.firstOperands?, hb, hfirst]

/-- A symbol that exists can be kept, which changes the list of used symbols and the values alone. -/
theorem exists_keep_eq_none (hbuilt : s.program.Built) {symbol : Symbol}
    (hsymbol : s.program.hasSymbol symbol = true) :
    ∃ values used usedSet, keep symbol s = ({ s with program := { s.program with values, used, usedSet } }, none) ∧
      Program.Built { s.program with values, used, usedSet } := by
  obtain ⟨value, hvalue⟩ := hbuilt.tied.bound symbol hsymbol
  have hvalue := Program.valueOf_eq_ok_iff.mpr hvalue
  have hused : (s.program.use symbol value).Built :=
    hbuilt.appendToUsed (Outcome.map_eq_ok_iff.mpr ⟨value, hvalue, rfl⟩)
  obtain ⟨values, used, usedSet, huse⟩ := s.program.use_frame symbol value
  rw [huse] at hused
  exact ⟨values, used, usedSet, by rw [keep, hvalue, ← huse], hused⟩

/-- Whether no decoy is to be etched into an instruction without operands. -/
def Etchable (p : Program) (decoys : List DecoyPlan) : Prop :=
  ∀ d ∈ decoys, ∀ t, d.etch = some t → p.firstOperands? t ≠ some 0

/-! ### States on the way -/

/-- A state that carrying out a plan leads to. The program has its functions, the objects it had and the decoys
placed so far. Its blocks are as they were, apart from what has been etched. -/
structure State.Underway (p : Program) (etched : List (BlockPointer × Nat)) (s : State) : Prop where
  built : s.program.Built
  functions : s.program.functions.elems.map Function.skeleton = p.functions.elems.map Function.skeleton
  /-- Only names of decoys are new. -/
  named : ∀ name, (∀ number, name ≠ decoyName number) → s.program.symbolNamed? name = p.symbolNamed? name
  objects : s.program.globals.ids.Perm (p.globals.ids ++ s.placed.reverse.map Prod.snd)
  nodup : s.program.globals.ids.Nodup
  blocks : ∀ t : BlockPointer, s.program.block? t.function t.block
    = (p.block? t.function t.block).map (etchedAs etched t)
  /-- Only etching an empty block leaves no trace. -/
  count : s.statistics.trapsEtched = etched.countP fun entry => (p.firstOperands? entry.1).isSome

namespace State.Underway

variable {etched : List (BlockPointer × Nat)}

theorem start (hbuilt : p.Built) (hids : p.globals.ids.Nodup) :
    State.Underway p [] { program := p, statistics := (Members.ofProgram p).statistics } where
  built := hbuilt
  functions := rfl
  named _ _ := rfl
  objects := by simp
  nodup := hids
  blocks _ := (congrFun Option.map_id _).symm
  count := (Members.counts_ofProgram p).2

theorem function_ids (h : s.Underway p etched) : s.program.functions.ids = p.functions.ids := by
  have hids := congrArg (List.map Prod.fst) h.functions
  rwa [List.map_map, List.map_map] at hids

/-- The accessor of the guard stays the same function, for its name is not that of a decoy. -/
theorem isAccessor_iff (h : s.Underway p etched) {f old : Function} (hid : f.id = old.id) :
    s.program.IsAccessor f ↔ p.IsAccessor old := by
  rw [Program.IsAccessor, h.named _ functionName_ne_decoyName, hid, Program.IsAccessor]

theorem hasRoomForAccessor (h : s.Underway p etched) (hroom : p.HasRoomForAccessor) :
    s.program.HasRoomForAccessor := by
  rcases hroom with ⟨old, hold, haccessor⟩ | hfree
  · have hmem : old.id ∈ s.program.functions.ids := h.function_ids ▸ List.mem_map_of_mem hold
    obtain ⟨f, hf, hid⟩ := List.mem_map.mp hmem
    exact .inl ⟨f, hf, (h.isAccessor_iff hid).mpr haccessor⟩
  · exact .inr ((h.named _ functionName_ne_decoyName).trans hfree)

/-- Every function is one of the program, with other code at most. -/
theorem exists_skeleton (h : s.Underway p etched) {f : Function} (hf : f ∈ s.program.functions.elems) :
    ∃ old ∈ p.functions.elems, old.skeleton = f.skeleton := by
  have hmem := List.mem_map_of_mem (f := Function.skeleton) hf
  rw [h.functions] at hmem
  exact List.mem_map.mp hmem

theorem firstOperands? (h : s.Underway p etched) (t : BlockPointer) :
    s.program.firstOperands? t = p.firstOperands? t := by
  rw [Program.firstOperands?, h.blocks, Program.firstOperands?]
  cases p.block? t.function t.block with
  | none => rfl
  | some b => exact firstOperands?_etchedAs _

theorem hasSymbol_function (h : s.Underway p etched) {id : Nat} (hid : id ∈ p.functions.ids) :
    s.program.hasSymbol (.function id) = true := by
  rw [Program.hasSymbol_function, h.function_ids]
  exact List.contains_iff_mem.mpr hid

theorem hasSymbol_placed (h : s.Underway p etched) {d : DecoyPlan × Nat} (hd : d ∈ s.placed.reverse) :
    s.program.hasSymbol (.global d.2) = true := by
  rw [Program.hasSymbol_global, List.contains_iff_mem, h.objects.mem_iff]
  exact List.mem_append_right _ (List.mem_map_of_mem hd)

/-! ### Decoys -/

/-- What a decoy refers to are functions. -/
theorem resolvable (h : s.Underway p etched) {d : DecoyPlan}
    (htraps : ∀ blocks, d.content = .traps blocks → ∀ t ∈ blocks, t.function ∈ p.functions.ids) :
    ∀ entry ∈ d.content.initializer.entries, ∀ symbol ∈ entry.symbol?, s.program.hasSymbol symbol = true := by
  intro entry hentry symbol hsymbol
  cases hcontent : d.content with
  | zero =>
    rw [hcontent] at hentry
    cases hentry
  | traps blocks =>
    rw [hcontent] at hentry
    obtain ⟨t, ht, rfl⟩ := List.mem_map.mp hentry
    cases hsymbol
    exact h.hasSymbol_function (htraps blocks hcontent t ht)
  | words words =>
    rw [hcontent] at hentry
    obtain ⟨word, -, rfl⟩ := List.mem_map.mp hentry
    cases hsymbol

/-- A decoy becomes an object, if its name is free. -/
theorem addObject (h : s.Underway p etched) {d : DecoyPlan} {number : Nat}
    (hfree : s.program.isFreeName (decoyName number) = true)
    (htraps : ∀ blocks, d.content = .traps blocks → ∀ t ∈ blocks, t.function ∈ p.functions.ids)
    (counter : Nat) :
    ∃ q id, s.program.addGlobal (decoyObject (decoyName number) d) = (q, .ok id) ∧
      State.Underway p etched { program := q, statistics := countWords q.pointerSize d s.statistics, counter
                                placed := (d, id) :: s.placed } := by
  obtain ⟨q, id, hadd⟩ := h.built.tied.exists_addGlobal_eq_ok (g := decoyObject (decoyName number) d) hfree
    (h.resolvable htraps)
  refine ⟨q, id, hadd, ?_⟩
  have hbuilt := h.built.addGlobal (decoyObject (decoyName number) d)
  rw [hadd] at hbuilt
  have hnamed := Program.symbolNamed?_addGlobal hadd
  obtain ⟨rfl, -, values, bindings, rfl⟩ := Program.addGlobal_eq hadd
  have hids := Roster.ids_insert (fun _ _ => rfl) s.program.globals (decoyObject (decoyName number) d)
  rw [Roster.idFor_of_id_eq_zero rfl] at hids ⊢
  refine ⟨hbuilt, h.functions, fun name hname => ?_, ?_, ?_, h.blocks, h.count⟩
  · exact (hnamed name).trans ((if_neg (hname number)).trans (h.named name hname))
  · rw [hids, List.reverse_cons, List.map_append, ← List.append_assoc]
    exact h.objects.append_right _
  · exact Roster.nodup_insert (fun _ _ => rfl) h.nodup h.built.global_lt rfl

/-- Etching leaves no function and no block out. -/
theorem etch (h : s.Underway p etched) (decoy : Nat) (target : BlockPointer) :
    (p.firstOperands? target ≠ some 0 ∧ ∃ s', Layout.etch decoy target s = (s', none) ∧
        s'.placed = s.placed ∧ s'.Underway p ((target, decoy) :: etched)) ∨
      (p.firstOperands? target = some 0 ∧
        Layout.etch decoy target s = (s, some (.fault .operandRange))) := by
  rw [← h.firstOperands?]
  refine (etch_cases decoy target s).imp_left fun hgoes => ⟨hgoes.1, ?_⟩
  obtain ⟨s', hetch⟩ := hgoes.2
  have hblock := block?_etch hetch
  have hglobals := etch_sameData hetch
  have hsame := etch_frame hetch
  refine ⟨s', hetch, hglobals.placed, hsame.built h.built, hsame.functions.trans h.functions, ?_, ?_, ?_,
    fun t => ?_, ?_⟩
  · intro name hname
    rw [Program.symbolNamed?_congr hsame.names]
    exact h.named name hname
  · rw [hglobals.globals, hglobals.placed]
    exact h.objects
  · rw [hglobals.globals]
    exact h.nodup
  · have hsplit : t = target ↔ t.function = target.function ∧ t.block = target.block := by
      cases t
      cases target
      simp
    rw [hblock, h.blocks, etchedAs_cons]
    simp only [hsplit]
    split
    · exact Option.map_map ..
    · rfl
  · rw [hsame.trapsEtched, h.count, List.countP_cons, h.firstOperands?]

/-- Adding a decoy fails only if an instruction without operands is to be etched. -/
theorem addDecoy (h : s.Underway p (etchings s.placed)) {d : DecoyPlan}
    (htraps : ∀ blocks, d.content = .traps blocks → ∀ t ∈ blocks, t.function ∈ p.functions.ids) :
    ((∀ t, d.etch = some t → p.firstOperands? t ≠ some 0) ∧ ∃ s' id, Layout.addDecoy d s = (s', none) ∧
        s'.placed = (d, id) :: s.placed ∧ s'.Underway p (etchings s'.placed)) ∨
      ((∃ t, d.etch = some t ∧ p.firstOperands? t = some 0) ∧
        ∃ s', Layout.addDecoy d s = (s', some (.fault .operandRange))) := by
  obtain ⟨q, id, hadd, hmade⟩ := h.addObject (isFreeName_freeNumber s.program s.counter) htraps
    (freeNumber s.program s.program.names.length s.counter + 1)
  rw [Layout.addDecoy]
  simp only [hadd]
  cases hetch : d.etch with
  | none =>
    refine .inl ⟨by simp, _, id, rfl, rfl, ?_⟩
    simpa [etchings, hetch] using hmade
  | some target =>
    rcases hmade.etch id target with ⟨hgoes, s', hs', hplaced, hs⟩ | ⟨hstops, hs'⟩
    · refine .inl ⟨fun t ht => Option.some.inj ht ▸ hgoes, s', id, hs', hplaced, ?_⟩
      rw [hplaced]
      simpa [etchings, hetch] using hs
    · exact .inr ⟨⟨target, rfl, hstops⟩, _, hs'⟩

theorem runAll_addDecoy {decoys : List DecoyPlan} (h : s.Underway p (etchings s.placed))
    (htraps : ∀ d ∈ decoys, ∀ blocks, d.content = .traps blocks → ∀ t ∈ blocks, t.function ∈ p.functions.ids) :
    (Etchable p decoys ∧ ∃ s', Steps.runAll Layout.addDecoy decoys s = (s', none) ∧
        s'.placed.reverse.map Prod.fst = s.placed.reverse.map Prod.fst ++ decoys ∧
        s'.Underway p (etchings s'.placed)) ∨
      (¬ Etchable p decoys ∧ ∃ s', Steps.runAll Layout.addDecoy decoys s = (s', some (.fault .operandRange))) := by
  -- On the decoys that are left. What has been etched grows along with what has been placed.
  induction decoys generalizing s with
  | nil => exact .inl ⟨fun _ hd => (nomatch hd), s, rfl, by simp, h⟩
  | cons d rest ih =>
    obtain ⟨hfirst, hrest⟩ := List.forall_mem_cons.mp htraps
    rw [Etchable, List.forall_mem_cons, Steps.runAll]
    rcases h.addDecoy hfirst with ⟨hgoes, t, id, ht, hplaced, hunderway⟩ | ⟨⟨target, htarget, hstops⟩, t, ht⟩
    · rcases ih hunderway hrest with ⟨hall, s', hs', hnames, hs⟩ | ⟨hnot, s', hs'⟩
      · refine .inl ⟨⟨hgoes, hall⟩, s', by rw [ht]; exact hs', ?_, hs⟩
        rw [hnames, hplaced]
        simp
      · exact .inr ⟨fun hall => hnot hall.2, s', by rw [ht]; exact hs'⟩
    · exact .inr ⟨fun hall => hall.1 target htarget hstops, t, by rw [ht]⟩

/-! ### The order and the list of used symbols -/

theorem reorder (h : s.Underway p etched)
    (horder : (order plan s.placed.reverse).Perm (p.globals.ids ++ s.placed.reverse.map Prod.snd)) :
    ∃ s', Layout.reorder plan s = (s', none) ∧ s'.placed = s.placed ∧ s'.Underway p etched := by
  obtain ⟨globals, hglobals⟩ := Roster.exists_reorder_eq_ok h.nodup (horder.trans h.objects.symm)
  have hreorder : s.program.reorderGlobals (order plan s.placed.reverse) = .ok { s.program with globals } := by
    rw [Program.reorderGlobals, hglobals]
    rfl
  have hperm := Roster.perm_of_reorder hglobals
  have hids : globals.ids.Perm s.program.globals.ids := hperm.map _
  rw [Layout.reorder, hreorder]
  exact ⟨_, rfl, rfl, .reorderGlobals h.built hreorder, h.functions, h.named, hids.trans h.objects,
    hids.nodup_iff.mpr h.nodup, h.blocks, h.count⟩

theorem keep (h : s.Underway p etched) {symbol : Symbol} (hsymbol : s.program.hasSymbol symbol = true) :
    ∃ s', Layout.keep symbol s = (s', none) ∧ s'.placed = s.placed ∧ s'.Underway p etched := by
  obtain ⟨values, used, usedSet, hkeep, hbuilt⟩ := exists_keep_eq_none h.built hsymbol
  exact ⟨_, hkeep, rfl, hbuilt, h.functions, h.named, h.objects, h.nodup, h.blocks, h.count⟩

theorem runAll_keep {entries : List (DecoyPlan × Nat)} (h : s.Underway p etched)
    (hentries : entries ⊆ s.placed.reverse) :
    ∃ s', Steps.runAll (fun entry => Layout.keep (.global entry.2)) entries s = (s', none) ∧
      s'.placed = s.placed ∧ s'.Underway p etched := by
  induction entries generalizing s with
  | nil => exact ⟨s, rfl, rfl, h⟩
  | cons d rest ih =>
    obtain ⟨hd, hrest⟩ := List.cons_subset.mp hentries
    obtain ⟨t, ht, hplaced, hunderway⟩ := h.keep (h.hasSymbol_placed hd)
    rw [← hplaced] at hrest
    obtain ⟨s', hs', hplaced', hs⟩ := ih hunderway hrest
    rw [Steps.runAll, ht]
    exact ⟨s', hs', hplaced'.trans hplaced, hs⟩

end State.Underway

/-! ### The guard -/

/-- A program with the accessor of the guard, in place of the function of its name or as a new one. -/
structure Guarded (p q : Program) : Prop where
  built : q.Built
  ids : q.functions.ids.Nodup
  functions : ∀ f ∈ q.functions.elems, f ∈ p.functions.elems ∨ q.IsAccessor f ∧
    ∃ candidates rngAddress staticPick, f.body = some (Guard.graph candidates rngAddress staticPick)
  kept : ∀ f ∈ p.functions.elems, ¬ p.IsAccessor f → f ∈ q.functions.elems
  /-- No other function that was there gets the name. -/
  accessor : ∀ f ∈ p.functions.elems, q.IsAccessor f → p.IsAccessor f
  globals : q.globals = p.globals

theorem Guarded.refl (hbuilt : p.Built) (hids : p.functions.ids.Nodup) : Guarded p p where
  built := hbuilt
  ids := hids
  functions _ := .inl
  kept _ hf _ := hf
  accessor _ _ := id
  globals := rfl

variable (candidates : List Nat) (rngAddress : Option Nat) (staticPick : Nat)

theorem ids_becomeGuard (p : Program) (id : Nat) (body : FlowGraph) :
    (p.updateFunction id (becomeGuard body)).functions.ids = p.functions.ids :=
  Program.ids_updateFunction id fun _ => rfl

/-- The accessor replaces the function of its name. -/
theorem Guarded.replace (hbuilt : p.Built) (hids : p.functions.ids.Nodup) {f : Function}
    (hf : f ∈ p.functions.elems) (haccessor : p.IsAccessor f) :
    Guarded p (p.updateFunction f.id (becomeGuard (Guard.graph candidates rngAddress staticPick))) := by
  refine ⟨hbuilt.updateFunction _ fun _ => rfl, ?_, fun f' hf' => ?_, fun f' hf' hne => ?_, fun _ _ => id, rfl⟩
  · rw [ids_becomeGuard]
    exact hids
  · rw [Program.updateFunction, Roster.update_eq_map hids] at hf'
    obtain ⟨old, hold, rfl⟩ := List.mem_map.mp hf'
    split
    · next hid =>
      obtain rfl := Roster.eq_of_id_eq hids hold hf hid
      exact .inr ⟨haccessor, _, _, _, rfl⟩
    · exact .inl hold
  · rw [Program.updateFunction, Roster.update_eq_map hids]
    refine List.mem_map.mpr ⟨f', hf', if_neg fun hid => hne ?_⟩
    exact Roster.eq_of_id_eq hids hf' hf hid ▸ haccessor

/-- The accessor becomes a new function. -/
theorem Guarded.insert (hbuilt : p.Built) (hids : p.functions.ids.Nodup)
    (hfree : p.symbolNamed? Guard.functionName = none) :
    ∃ q id, p.addFunction (guardFunction (Guard.graph candidates rngAddress staticPick)) = .ok (q, id) ∧
      Guarded p q ∧ q.hasSymbol (.function id) = true := by
  have hadd : p.addFunction (guardFunction (Guard.graph candidates rngAddress staticPick)) = .ok _ :=
    if_pos (Program.isFreeName_iff.mpr ⟨Program.symbolNamed?_eq_none_iff.mp hfree, by decide⟩)
  have hinsert : (p.functions.insert (guardFunction (Guard.graph candidates rngAddress staticPick))).ids
      = p.functions.ids ++ [p.functions.next] := Roster.ids_insert (fun _ _ => rfl) p.functions _
  refine ⟨_, _, hadd, ⟨hbuilt.addFunction hadd, ?_, fun f hf => ?_, fun f hf _ => ?_, fun f hf hold => ?_, rfl⟩, ?_⟩
  · exact Roster.nodup_insert (fun _ _ => rfl) hids hbuilt.wellFormed.functions rfl
  · rcases List.mem_append.mp hf with hold | hnew
    · exact .inl hold
    · rw [List.mem_singleton.mp hnew]
      exact .inr ⟨(Program.symbolNamed?_bind ..).trans (if_pos rfl), _, _, _, rfl⟩
  · exact List.mem_append_left _ hf
  -- The new function has an ID that no function had.
  · have hnamed := (Program.symbolNamed?_bind ..).symm.trans hold
    have hid : p.functions.next = f.id := Symbol.function.inj (Option.some.inj ((if_pos rfl).symm.trans hnamed))
    exact absurd (hbuilt.wellFormed.functions f hf) (Nat.not_lt.mpr hid.le)
  · rw [Program.hasSymbol_function, List.contains_iff_mem]
    change _ ∈ (p.functions.insert _).ids
    rw [hinsert]
    exact List.mem_append_right _ List.mem_cons_self

theorem exists_insertGuard (hbuilt : p.Built) (hids : p.functions.ids.Nodup) (hroom : p.HasRoomForAccessor) :
    ∃ q id, insertGuard p (Guard.graph candidates rngAddress staticPick) = .ok (q, id) ∧
      Guarded p q ∧ q.hasSymbol (.function id) = true := by
  rw [insertGuard]
  rcases hroom with ⟨f, hf, haccessor⟩ | hfree
  · rw [haccessor]
    refine ⟨_, _, rfl, .replace candidates rngAddress staticPick hbuilt hids hf haccessor, ?_⟩
    rw [Program.hasSymbol_function, List.contains_iff_mem, ids_becomeGuard]
    exact List.mem_map_of_mem hf
  · rw [hfree]
    exact Guarded.insert candidates rngAddress staticPick hbuilt hids hfree

theorem State.Underway.addGuard {etched : List (BlockPointer × Nat)} (h : s.Underway p etched)
    (hids : p.functions.ids.Nodup) (hroom : p.HasRoomForAccessor) (guard : GuardPlan) :
    ∃ s', Layout.addGuard o guard s = (s', none) ∧ Guarded s.program s'.program ∧
      s'.statistics = s.statistics := by
  obtain ⟨q, id, hinsert, hguarded, hsymbol⟩ := exists_insertGuard
    (guard.candidates.map fun k => (s.placed.reverse.map Prod.snd).getD k 0) o.rngAddress guard.staticPick
    h.built (h.function_ids ▸ hids) (h.hasRoomForAccessor hroom)
  obtain ⟨values, used, usedSet, hkeep, hbuilt⟩ :=
    exists_keep_eq_none (s := { s with program := q }) hguarded.built hsymbol
  rw [Layout.addGuard]
  simp only [hinsert]
  exact ⟨_, hkeep, { hguarded with built := hbuilt }, rfl⟩

/-! ### Plans that can be carried out -/

/-- What planning guarantees to those who carry the plan out. -/
structure Plan.Feasible (p : Program) (plan : Plan) : Prop where
  excluded : plan.excluded = (leftOut p).map GlobalObject.id
  shuffled : ∀ c, (plan.shuffled.get c).Perm ((originals p c).map GlobalObject.id)
  anchors : ∀ d ∈ plan.decoys, ∀ id, d.anchor = some id → ∃ c, ∃ g ∈ originals p c, g.id = id
  traps : ∀ d ∈ plan.decoys, ∀ blocks, d.content = .traps blocks → ∀ t ∈ blocks, t.function ∈ p.functions.ids
  guard : plan.guard.isSome = true → p.HasRoomForAccessor

theorem checkGuard_eq_ok (hbuilt : p.Built) (h : checkGuard o p = .ok ()) (hguard : o.guard = true) :
    p.HasRoomForAccessor := by
  rw [checkGuard, hguard] at h
  simp only [Bool.not_true, Bool.false_eq_true, if_false] at h
  split at h
  · cases h
  · split at h
    · next hnone => exact .inr hnone
    · next hsome =>
      have hsymbol := hbuilt.hasSymbol_of_symbolNamed? hsome
      rw [Program.hasSymbol_function, List.contains_iff_mem] at hsymbol
      obtain ⟨f, hf, rfl⟩ := List.mem_map.mp hsymbol
      exact .inl ⟨f, hf, hsome⟩
    · cases h

theorem Plan.Feasible.of_plan {stream : RandomStream} {warnings : Nat} (hbuilt : p.Built)
    (hids : p.globals.ids.Nodup)
    (h : Layout.plan o p (Members.ofProgram p) stream = (warnings, .ok plan)) : plan.Feasible p := by
  obtain ⟨pool, -, hchecked, -, hwith⟩ := plan_eq_ok h
  obtain ⟨hexcluded, hshuffled, hguard, -⟩ := planWith_eq_ok hwith
  refine ⟨hexcluded.trans (Members.excluded_ofProgram p), fun c => ?_, (Anchored.of_plan hids h).anchor_mem,
    fun d hd blocks hcontent t ht => ?_, fun hsome => ?_⟩
  · rw [hshuffled, ← Members.get_ofClass_ofProgram]
    exact shuffleClasses_perm ..
  · obtain ⟨f, hf, -, -, -, hid, -⟩ :=
      Program.mem_blockPointers_iff.mp (traps_mem_blockPointers h hd hcontent t ht)
    exact hid ▸ List.mem_map_of_mem hf
  · exact checkGuard_eq_ok hbuilt hchecked (hguard ▸ hsome)

/-- The last state of carrying out a plan and the state before the accessor of the guard was made, with the
objects that the decoys have become. -/
structure Finished (p : Program) (plan : Plan) (objects : List GlobalObject) (t s : State) : Prop where
  underway : t.Underway p (etchings t.placed)
  guarded : Guarded t.program s.program
  statistics : s.statistics = t.statistics
  made : Made p.globals.next plan.decoys objects
  placed : t.placed.reverse = placedAs plan.decoys objects
  globals : s.program.globals.elems.Perm (p.globals.elems ++ objects)

/-- Once all decoys are objects, they can be put in order and kept. -/
theorem Plan.Feasible.exists_kept (hplan : plan.Feasible p) (hglobals : p.globals.ids.Nodup) {added : State}
    (h : added.Underway p (etchings added.placed)) (hplaced : added.placed.reverse.map Prod.fst = plan.decoys) :
    ∃ ordered kept, reorder plan added = (ordered, none) ∧
      Steps.runAll (fun entry => keep (.global entry.2)) ordered.placed.reverse ordered = (kept, none) ∧
      kept.placed = added.placed ∧ kept.Underway p (etchings kept.placed) := by
  have horder : (order plan added.placed.reverse).Perm (p.globals.ids ++ added.placed.reverse.map Prod.snd) := by
    refine order_perm hglobals hplan.excluded hplan.shuffled fun d hd id hid => ?_
    have hmem : d.1 ∈ plan.decoys := hplaced ▸ List.mem_map_of_mem hd
    exact hplan.anchors d.1 hmem id hid
  obtain ⟨ordered, hordered, hplaced₁, h₁⟩ := h.reorder horder
  obtain ⟨kept, hkept, hplaced₂, h₂⟩ := h₁.runAll_keep (List.Subset.refl _)
  have hplaced' : kept.placed = added.placed := hplaced₂.trans hplaced₁
  exact ⟨ordered, kept, hordered, hkept, hplaced', hplaced'.symm ▸ h₂⟩

/-- The guard comes last and finds its name free or that of a function. -/
theorem Plan.Feasible.exists_guarded (hplan : plan.Feasible p) (hfunctions : p.functions.ids.Nodup)
    {start added ordered kept : State} {etched : List (BlockPointer × Nat)} (h : kept.Underway p etched)
    (hadded : Steps.runAll addDecoy plan.decoys start = (added, none))
    (hordered : reorder plan added = (ordered, none))
    (hkept : Steps.runAll (fun entry => keep (.global entry.2)) ordered.placed.reverse ordered = (kept, none)) :
    ∃ s, carryOut o plan start = (s, none) ∧ Guarded kept.program s.program ∧ s.statistics = kept.statistics := by
  have hsteps : andThen (andThen (Steps.runAll addDecoy plan.decoys start) (reorder plan))
      (fun s => Steps.runAll (fun entry => keep (.global entry.2)) s.placed.reverse s) = (kept, none) :=
    andThen_eq_none_iff.mpr ⟨ordered, andThen_eq_none_iff.mpr ⟨added, hadded, hordered⟩, hkept⟩
  rw [carryOut]
  cases hguard : plan.guard with
  | none => exact ⟨kept, hsteps, .refl h.built (h.function_ids ▸ hfunctions), rfl⟩
  | some guard =>
    obtain ⟨s, hs, hguarded, hstatistics⟩ := h.addGuard hfunctions (hplan.guard (by rw [hguard]; rfl)) guard
    exact ⟨s, andThen_eq_none_iff.mpr ⟨kept, hsteps, hs⟩, hguarded, hstatistics⟩

/-- Carrying out a plan goes through unless an instruction without operands is to be etched. -/
theorem carryOut_cases (o : Options) (hplan : plan.Feasible p) (hbuilt : p.Built)
    (hglobals : p.globals.ids.Nodup) (hfunctions : p.functions.ids.Nodup) :
    let start : State := { program := p, statistics := (Members.ofProgram p).statistics }
    (Etchable p plan.decoys ∧ ∃ objects t s, carryOut o plan start = (s, none) ∧ Finished p plan objects t s) ∨
      (¬ Etchable p plan.decoys ∧ ∃ s, carryOut o plan start = (s, some (.fault .operandRange))) := by
  intro start
  have hstart : start.Underway p (etchings start.placed) := .start hbuilt hglobals
  rcases hstart.runAll_addDecoy hplan.traps with ⟨hall, added, hadded, hplaced, h⟩ | ⟨hnot, added, hadded⟩
  · obtain ⟨ordered, kept, hordered, hkept, hsame, hunderway⟩ := hplan.exists_kept hglobals h hplaced
    obtain ⟨s, hs, hguarded, hstatistics⟩ :=
      hplan.exists_guarded (o := o) hfunctions hunderway hadded hordered hkept
    obtain ⟨objects, hmade, hobjects, -⟩ := carryOut_eq_none hs
    -- The objects at the end are those that the decoys became at first.
    obtain ⟨objects', hmade', -, -, hplacedAs, -⟩ := Layout.runAll_addDecoy hadded
    refine .inl ⟨hall, objects, kept, s, hs, hunderway, hguarded, hstatistics, hmade, ?_, hobjects⟩
    rw [hsame, hplacedAs, hmade.placedAs_eq hmade']
    rfl
  -- What follows on a decoy that cannot be etched does not run.
  · refine .inr ⟨hnot, added, ?_⟩
    rw [carryOut, hadded]
    cases plan.guard <;> rfl

end Layout
end ThumbHardening
