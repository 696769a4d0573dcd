import ThumbHardening.Proofs.CallGraph.Components
import ThumbHardening.Proofs.Promotion
import ThumbHardening.Proofs.Promotion.Relocate

/-!
# Moves

What a run of the promotion has done once some stack objects have moved: which function each of them came from,
and which global object has taken its place. Components are visited one after the other, but no function
twice, so each function is still as it was in the beginning when its turn comes.
-/

namespace ThumbHardening

open Classical in
/-- Whether a function can call itself, perhaps through other functions. -/
noncomputable def Program.recursive (p : Program) (f : Function) : Bool :=
  decide (Relation.TransGen p.Calls f.id f.id)

theorem Program.recursive_iff {p : Program} {f : Function} :
    p.recursive f = true ↔ Relation.TransGen p.Calls f.id f.id := by
  classical exact decide_eq_true_iff

namespace Promotion

/-! ### Stack objects with function pointers -/

/-- Whether a stack object has room for a function pointer. -/
def holdsPointer (o : StackObject) : Bool :=
  o.type.any DataType.containsFunctionPointer

/-- The stack objects that are moved out of a function. -/
def promotable (recursive : Bool) (f : Function) : List StackObject :=
  if f.body.isNone then []
  else f.frame.elems.filter fun o => holdsPointer o && !o.variableSized && !recursive

/-- The stack objects that stay since their function may be active more than once. -/
def heldBack (recursive : Bool) (f : Function) : List StackObject :=
  if f.body.isNone then []
  else f.frame.elems.filter fun o => holdsPointer o && !o.variableSized && recursive

/-- The stack objects that stay since their size is not known. -/
def unsized (f : Function) : List StackObject :=
  if f.body.isNone then [] else f.frame.elems.filter fun o => holdsPointer o && o.variableSized

instance : Add PromotionStatistics where
  add s t :=
    { promoted := s.promoted + t.promoted
      skippedRecursive := s.skippedRecursive + t.skippedRecursive
      notEligible := s.notEligible + t.notEligible }

/-- How many objects of some functions are moved and left. -/
noncomputable def tally (p : Program) (functions : List Function) : PromotionStatistics where
  promoted := (functions.flatMap fun f => promotable (p.recursive f) f).length
  skippedRecursive := (functions.flatMap fun f => heldBack (p.recursive f) f).length
  notEligible := (functions.flatMap unsized).length

theorem statistics_add_assoc (s t u : PromotionStatistics) : s + t + u = s + (t + u) := by
  simp only [HAdd.hAdd, Add.add, PromotionStatistics.mk.injEq]
  exact ⟨Nat.add_assoc .., Nat.add_assoc .., Nat.add_assoc ..⟩

theorem tally_cons (p : Program) (f : Function) (rest : List Function) :
    tally p (f :: rest) = {
      promoted := (promotable (p.recursive f) f).length
      skippedRecursive := (heldBack (p.recursive f) f).length
      notEligible := (unsized f).length } + tally p rest := by
  simp only [tally, List.flatMap_cons, List.length_append]
  rfl

theorem tally_perm (p : Program) {functions functions' : List Function} (h : functions.Perm functions') :
    tally p functions = tally p functions' := by
  simp only [tally, (h.flatMap_right _).length_eq]

/-! ### Moves -/

/-- A stack object of a function and the global object that has taken its place. -/
structure Move where
  function : Nat
  object : StackObject
  global : GlobalObject

namespace Move

/-- Which object has moved. -/
def key (m : Move) : Nat × StackObject :=
  (m.function, m.object)

/-- That the global object is a private one like the stack object. -/
def Replaces (m : Move) (ptr : Nat) : Prop :=
  ∃ type, m.object.type = some type ∧
    m.global = {
      id := m.global.id, name := m.global.name, size := m.object.size, align := max m.object.align 1
      initializer := some (sentinelInitializer type m.object.size ptr), linkage := .hidden
      type := some type }

end Move

/-- The ID of the global object that a stack object of a function has moved to. -/
def movedTo (moves : List Move) (function object : Nat) : Option Nat :=
  (moves.find? fun m => m.function = function ∧ m.object.id = object).map fun m => m.global.id

/-- A program after some moves. -/
structure Made (p : Program) (moves : List Move) (q : Program) : Prop where
  functions : q.functions
    = { p.functions with elems := p.functions.elems.map fun f => f.relocate (movedTo moves f.id) }
  globals : q.globals
    = { elems := p.globals.elems ++ moves.map Move.global, next := p.globals.next + moves.length }
  ids : moves.map (fun m => m.global.id) = List.range' p.globals.next moves.length
  replaces : ∀ m ∈ moves, m.Replaces p.pointerSize
  aliases : q.aliases = p.aliases
  used : q.used = p.used
  pointerSize : q.pointerSize = p.pointerSize

variable {p : Program} {moves : List Move} {m : Move} {f : Function} {s s' : State} {c : Candidate}
  {o : StackObject}

theorem movedTo_nil (function : Nat) : movedTo [] function = fun _ => none :=
  rfl

theorem movedTo_append (moves : List Move) (m : Move) (function object : Nat) :
    movedTo (moves ++ [m]) function object = (movedTo moves function object).or
      (if m.function = function ∧ m.object.id = object then some m.global.id else none) := by
  rw [movedTo, List.find?_append, Option.map_or, movedTo]
  congr 1
  rw [List.find?_singleton]
  by_cases hm : m.function = function ∧ m.object.id = object <;> simp [hm]

theorem movedTo_eq_none (h : ∀ m ∈ moves, m.function ≠ f.id) : movedTo moves f.id = fun _ => none := by
  funext object
  rw [movedTo, Option.map_eq_none_iff, List.find?_eq_none]
  intro m hm
  simp [h m hm]

theorem made_nil (p : Program) : Made p [] p where
  functions := by simp only [movedTo_nil, Function.relocate_none, List.map_id']
  globals := by simp
  ids := rfl
  replaces := by simp
  aliases := rfl
  used := rfl
  pointerSize := rfl

theorem Made.function_ids {q : Program} (h : Made p moves q) : q.functions.ids = p.functions.ids := by
  rw [h.functions, Roster.ids, List.map_map]
  rfl

/-- A function of which nothing has moved is still there. -/
theorem Made.function? {q : Program} (h : Made p moves q) (hids : p.functions.ids.Nodup)
    (hf : f ∈ p.functions.elems) (hnew : ∀ m ∈ moves, m.function ≠ f.id) :
    q.function? f.id = some f := by
  have hmem : f ∈ q.functions.elems := by
    rw [h.functions]
    refine List.mem_map.mpr ⟨f, hf, ?_⟩
    rw [movedTo_eq_none hnew, Function.relocate_none]
  exact Roster.get?_id (h.function_ids ▸ hids) hmem

/-! ### One move -/

/-- That a candidate stands for a stack object. -/
structure Candidate.Describes (c : Candidate) (o : StackObject) : Prop where
  object : c.object = o.id
  size : c.size = o.size
  align : c.align = o.align
  type : o.type = some c.type

/-- Moving an object out of a function leaves the other functions alone. -/
theorem Made.update_functions {q : Program} (h : Made p moves q) (hids : p.functions.ids.Nodup)
    (hf : f ∈ p.functions.elems) (hframe : f.frame.ids.Nodup) (hm : m.function = f.id) :
    q.functions.update f.id (moveOut m.object.id m.global.id)
      = { p.functions with
          elems := p.functions.elems.map fun f' => f'.relocate (movedTo (moves ++ [m]) f'.id) } := by
  have hnodup : q.functions.ids.Nodup := h.function_ids ▸ hids
  rw [Roster.update_eq_map hnodup, h.functions, List.map_map]
  refine congrArg (fun elems => { p.functions with elems }) (List.map_congr_left fun f' hf' => ?_)
  change (if f'.id = f.id then moveOut m.object.id m.global.id (f'.relocate _) else f'.relocate _) = _
  split
  · next heq =>
    rw [Roster.eq_of_id_eq hids hf' hf heq]
    apply moveOut_relocate hframe
    intro object
    rw [movedTo_append]
    simp only [hm, true_and, eq_comm]
  · next hne =>
    have hsame : movedTo (moves ++ [m]) f'.id = movedTo moves f'.id := by
      funext object
      rw [movedTo_append, if_neg fun hobject => hne (hobject.1.symm.trans hm), Option.or_none]
    rw [hsame]

/-- A move out of a function takes the object and puts a new global object in its place. -/
theorem Made.promote (h : Made p moves s.program) (hids : p.functions.ids.Nodup)
    (hf : f ∈ p.functions.elems) (hframe : f.frame.ids.Nodup) (hc : c.Describes o)
    (hstep : promote f.id c s = (s', none)) :
    ∃ g, Made p (moves ++ [⟨f.id, o, g⟩]) s'.program ∧
      s'.statistics = { s.statistics with promoted := s.statistics.promoted + 1 } := by
  obtain ⟨g, q, id, hg, hadd, rfl⟩ := promote_eq_none hstep
  obtain ⟨hid, -, values, bindings, rfl⟩ := Program.addGlobal_eq hadd
  have hzero : g.id = 0 := by rw [globalFor_eq hg]
  have hfresh : id = p.globals.next + moves.length := by
    rw [hid, Roster.idFor_of_id_eq_zero hzero, h.globals]
  have hinsert : s.program.globals.insert g
      = { elems := s.program.globals.elems ++ [{ g with id }], next := id + 1 } := by
    rw [hid, Roster.idFor_of_id_eq_zero hzero]
    exact Roster.insert_of_id_eq_zero hzero
  refine ⟨{ g with id }, ⟨?_, ?_, ?_, ?_, h.aliases, h.used, h.pointerSize⟩, rfl⟩
  · have hfunctions := h.update_functions (m := ⟨f.id, o, { g with id }⟩) hids hf hframe rfl
    rw [← hc.object] at hfunctions
    exact hfunctions
  · refine hinsert.trans ?_
    rw [hfresh, h.globals, List.map_append, List.length_append, List.append_assoc]
    rfl
  · rw [List.map_append, h.ids, List.length_append, List.map_singleton, List.length_singleton,
      List.range'_1_concat, hfresh]
  · intro m hm
    rcases List.mem_append.mp hm with hm | hm
    · exact h.replaces m hm
    · rw [List.mem_singleton.mp hm]
      refine ⟨c.type, hc.type, ?_⟩
      rw [globalFor_eq hg, h.pointerSize, hc.size, hc.align]

/-! ### One function -/

/-- The candidates of a function stand for the objects that are to be moved. -/
theorem describes_candidates (q : Program) (f : Function) (recursive : Bool) (objects : List StackObject) :
    List.Forall₂ (fun o c => Candidate.Describes c o ∧ c.name = uniqueName q (f.name ++ "." ++ o.name))
      (objects.filter fun o => holdsPointer o && !o.variableSized && !recursive)
      ((objects.map (fate q f recursive)).filterMap Fate.candidate?) := by
  induction objects with
  | nil => exact .nil
  | cons o rest ih =>
    rw [List.map_cons, List.filterMap_cons, List.filter_cons, holdsPointer, fate]
    cases htype : o.type with
    | none => exact ih
    | some type =>
      cases hpointer : type.containsFunctionPointer with
      | false => simpa [hpointer, Fate.candidate?] using ih
      | true =>
        cases hsized : o.variableSized with
        | true => simpa [hpointer, Fate.candidate?] using ih
        | false =>
          cases recursive with
          | true => simpa [hpointer, Fate.candidate?] using ih
          | false =>
            simp only [Option.any_some, hpointer, Fate.candidate?]
            exact .cons ⟨⟨rfl, rfl, rfl, htype⟩, rfl⟩ ih

/-- Counting the objects that stay. -/
theorem foldl_count (q : Program) (f : Function) (recursive : Bool) (objects : List StackObject)
    (statistics : PromotionStatistics) :
    (objects.map (fate q f recursive)).foldl count statistics
      = { statistics with
          skippedRecursive := statistics.skippedRecursive
            + (objects.filter fun o => holdsPointer o && !o.variableSized && recursive).length
          notEligible := statistics.notEligible
            + (objects.filter fun o => holdsPointer o && o.variableSized).length } := by
  induction objects generalizing statistics with
  | nil => rfl
  | cons o rest ih =>
    rw [List.map_cons, List.foldl_cons, ih, List.filter_cons, List.filter_cons, holdsPointer, fate]
    cases htype : o.type with
    | none => rfl
    | some type =>
      cases hpointer : type.containsFunctionPointer with
      | false => simp [hpointer, count]
      | true =>
        cases hsized : o.variableSized with
        | true => simp [hpointer, count, Nat.add_assoc, Nat.add_comm 1]
        | false => cases recursive <;> simp [hpointer, count, Nat.add_assoc, Nat.add_comm 1]

/-- The moves out of a function, one for each of the objects. -/
theorem made_runAll_promote {objects : List StackObject} {candidates : List Candidate}
    (hrun : Steps.runAll (promote f.id) candidates s = (s', none))
    (hcandidates : List.Forall₂ (fun o c => Candidate.Describes c o) objects candidates)
    (h : Made p moves s.program) (hids : p.functions.ids.Nodup) (hf : f ∈ p.functions.elems)
    (hframe : f.frame.ids.Nodup) :
    ∃ more, Made p (moves ++ more) s'.program ∧ more.map Move.key = objects.map (f.id, ·) ∧
      s'.statistics
        = { s.statistics with promoted := s.statistics.promoted + objects.length } := by
  induction hcandidates generalizing moves s with
  | nil =>
    cases hrun
    exact ⟨[], by rwa [List.append_nil], rfl, rfl⟩
  | @cons o c objects candidates hc _ ih =>
    obtain ⟨t, hfirst, hrest⟩ := Steps.runAll_cons_eq_none_iff.mp hrun
    obtain ⟨g, hmade, hcount⟩ := h.promote hids hf hframe hc hfirst
    obtain ⟨more, hmade', hkeys, hcount'⟩ := ih hrest hmade
    refine ⟨⟨f.id, o, g⟩ :: more, ?_, ?_, ?_⟩
    · rwa [List.append_cons]
    · rw [List.map_cons, List.map_cons, hkeys]
      rfl
    · rw [hcount', hcount, List.length_cons]
      simp only [Nat.add_assoc, Nat.add_comm 1]

/-- What a visit does to a function and to the numbers. -/
theorem Made.promoteFunction {recursive : Bool} (h : Made p moves s.program)
    (hids : p.functions.ids.Nodup) (hf : f ∈ p.functions.elems) (hframe : f.frame.ids.Nodup)
    (hnew : ∀ m ∈ moves, m.function ≠ f.id)
    (hvisit : promoteFunction recursive f.id s = (s', none)) :
    ∃ more, Made p (moves ++ more) s'.program ∧
      more.map Move.key = (promotable recursive f).map (f.id, ·) ∧
      s'.statistics = s.statistics + {
        promoted := (promotable recursive f).length, skippedRecursive := (heldBack recursive f).length
        notEligible := (unsized f).length } := by
  simp only [Promotion.promoteFunction, fates, h.function? hids hf hnew] at hvisit
  rw [promotable, heldBack, unsized]
  cases hbody : f.body.isNone with
  | true =>
    rw [hbody] at hvisit
    cases hvisit
    exact ⟨[], by rwa [List.append_nil], rfl, rfl⟩
  | false =>
    simp only [hbody, Bool.false_eq_true, if_false, foldl_count] at hvisit ⊢
    obtain ⟨more, hmade, hkeys, hcount⟩ := made_runAll_promote hvisit
      ((describes_candidates s.program f recursive _).imp fun _ _ => And.left) h hids hf hframe
    exact ⟨more, hmade, hkeys, hcount⟩

/-! ### A whole run -/

/-- Visiting functions one after the other moves the objects of all of them. -/
theorem Made.runAll_promoteFunction {functions : List Function} (h : Made p moves s.program)
    (hids : p.functions.ids.Nodup) (hframes : ∀ f ∈ p.functions.elems, f.frame.ids.Nodup)
    (hsub : ∀ f ∈ functions, f ∈ p.functions.elems) (hnodup : (functions.map Function.id).Nodup)
    (hnew : ∀ m ∈ moves, m.function ∉ functions.map Function.id)
    (hrun : Steps.runAll (fun f => Promotion.promoteFunction (p.recursive f) f.id) functions s
      = (s', none)) :
    ∃ more, Made p (moves ++ more) s'.program ∧
      more.map Move.key
        = (functions.flatMap fun f => (promotable (p.recursive f) f).map (f.id, ·)) ∧
      s'.statistics = s.statistics + tally p functions := by
  induction functions generalizing moves s with
  | nil =>
    cases hrun
    exact ⟨[], by rwa [List.append_nil], rfl, rfl⟩
  | cons f rest ih =>
    obtain ⟨t, hvisit, hrest⟩ := Steps.runAll_cons_eq_none_iff.mp hrun
    obtain ⟨hf, hothers⟩ := List.forall_mem_cons.mp hsub
    rw [List.map_cons, List.nodup_cons] at hnodup
    have hfirst : ∀ m ∈ moves, m.function ≠ f.id := fun m hm heq =>
      hnew m hm (heq ▸ List.mem_cons_self)
    obtain ⟨more, hmade, hkeys, hcount⟩ := h.promoteFunction hids hf (hframes f hf) hfirst hvisit
    have hlater : ∀ m ∈ moves ++ more, m.function ∉ rest.map Function.id := by
      intro m hm
      rcases List.mem_append.mp hm with hm | hm
      · exact fun hmem => hnew m hm (List.mem_cons_of_mem _ hmem)
      · have hkey : m.key ∈ (promotable (p.recursive f) f).map (f.id, ·) :=
          hkeys ▸ List.mem_map_of_mem hm
        obtain ⟨o, -, ho⟩ := List.mem_map.mp hkey
        have hfunction : f.id = m.function := congrArg Prod.fst ho
        exact hfunction ▸ hnodup.1
    obtain ⟨others, hmade', hkeys', hcount'⟩ := ih hmade hothers hnodup.2 hlater hrest
    refine ⟨more ++ others, ?_, ?_, ?_⟩
    · rwa [← List.append_assoc]
    · rw [List.map_append, hkeys, hkeys', List.flatMap_cons]
    · rw [hcount', hcount]
      rw [statistics_add_assoc, ← tally_cons]

/-- Inside a component, the functions are visited as what they are on their own. -/
theorem runAll_promoteFunction_ids {g : CallGraph} {component : Component} {ids : List Nat}
    (hids : p.functions.ids.Nodup) (hbuild : CallGraph.build p = .ok g)
    (hcomponent : component ∈ g.components) (hsub : ∀ id ∈ ids, id ∈ component.functions)
    (hrun : Steps.runAll (promoteFunction component.cyclic) ids s = (s', none)) :
    Steps.runAll (fun f => promoteFunction (p.recursive f) f.id) (ids.filterMap p.function?) s
      = (s', none) := by
  induction ids generalizing s with
  | nil => exact hrun
  | cons id rest ih =>
    obtain ⟨t, hfirst, hrest⟩ := Steps.runAll_cons_eq_none_iff.mp hrun
    obtain ⟨hid, hothers⟩ := List.forall_mem_cons.mp hsub
    have hmem : id ∈ p.functions.ids := by
      obtain ⟨-, -, hperm, -⟩ := CallGraph.components_spec hids hbuild
      rw [← hperm.mem_iff, ← CallGraph.flatMap_components]
      exact List.mem_flatMap.mpr ⟨component, hcomponent, hid⟩
    obtain ⟨f, hf, rfl⟩ := List.mem_map.mp hmem
    have hcyclic : component.cyclic = p.recursive f := by
      rw [Bool.eq_iff_iff, Program.recursive_iff]
      exact CallGraph.cyclic_iff hids hbuild hcomponent hid
    have hfound : p.function? f.id = some f := Roster.get?_id hids hf
    have hfunctions : (f.id :: rest).filterMap p.function? = f :: rest.filterMap p.function? :=
      List.filterMap_cons_some hfound
    change Steps.runAll _ ((f.id :: rest).filterMap p.function?) s = _
    rw [hfunctions, Steps.runAll_cons_eq_none_iff]
    exact ⟨t, hcyclic ▸ hfirst, ih hothers hrest⟩

/-- Visiting components is visiting their functions. -/
theorem runAll_promoteComponent {g : CallGraph} {components : List Component}
    (hids : p.functions.ids.Nodup) (hbuild : CallGraph.build p = .ok g)
    (hsub : ∀ c ∈ components, c ∈ g.components)
    (hrun : Steps.runAll promoteComponent components s = (s', none)) :
    Steps.runAll (fun f => promoteFunction (p.recursive f) f.id)
      (components.flatMap fun c => c.functions.filterMap p.function?) s = (s', none) := by
  induction components generalizing s with
  | nil => exact hrun
  | cons c rest ih =>
    obtain ⟨t, hfirst, hrest⟩ := Steps.runAll_cons_eq_none_iff.mp hrun
    obtain ⟨hc, hothers⟩ := List.forall_mem_cons.mp hsub
    rw [List.flatMap_cons, Steps.runAll_append_eq_none_iff]
    exact ⟨t, runAll_promoteFunction_ids hids hbuild hc (fun _ => id) hfirst, ih hothers hrest⟩

/-- A successful run visits each function once. -/
theorem run_eq_ok {statistics : PromotionStatistics} {changed : Bool} (hids : p.functions.ids.Nodup)
    (hok : (run statistics p).outcome = .ok changed) :
    ∃ functions s, functions.Perm p.functions.elems ∧
      Steps.runAll (fun f => promoteFunction (p.recursive f) f.id) functions
        { program := p, statistics } = (s, none) ∧
      (run statistics p).program = s.program ∧ (run statistics p).pass = s.statistics := by
  rw [run] at hok ⊢
  split at hok
  · cases hok
  · next g hbuild =>
    obtain ⟨-, -, hperm, -⟩ := CallGraph.components_spec hids hbuild
    cases hrun : Steps.runAll promoteComponent g.components { program := p, statistics } with
    | mk s failure =>
      simp only [hrun] at hok ⊢
      cases failure with
      | some e => cases hok
      | none =>
        refine ⟨g.components.flatMap fun c => c.functions.filterMap p.function?, s, ?_, ?_, rfl, rfl⟩
        · rw [← List.filterMap_flatMap, CallGraph.flatMap_components]
          exact (hperm.filterMap _).trans (.of_eq (Roster.filterMap_get?_ids hids))
        · exact runAll_promoteComponent hids hbuild (fun c hc => hc) hrun

end Promotion
end ThumbHardening
