import ThumbHardening.Proofs.CallGraph.Search
import ThumbHardening.Proofs.Program

/-!
# The components of a call graph

The graph holds exactly the direct calls between the functions of the program. As calls lead to no later
component, functions that reach each other lie in the same one, so the components are the largest sets of
functions that reach each other.
-/

namespace ThumbHardening

/-- That a function calls or tail-calls the function with this ID, perhaps by another name. -/
def Program.CallsFrom (p : Program) (f : Function) (id : Nat) : Prop :=
  ∃ i ∈ f.instrs, ∃ symbol, i.directCallee? = some symbol ∧ p.resolveFunction symbol = .ok id

/-- The direct calls between the functions of a program. -/
def Program.Calls (p : Program) (a b : Nat) : Prop :=
  ∃ f ∈ p.functions.elems, f.id = a ∧ p.CallsFrom f b

theorem Program.Calls.mem_ids {p : Program} {a b : Nat} (h : p.Calls a b) : b ∈ p.functions.ids := by
  obtain ⟨f, -, -, i, -, symbol, -, hresolve⟩ := h
  exact mem_ids_of_resolveFunction hresolve

namespace CallGraph

variable {p : Program} {g g' : CallGraph} {f : Function}

/-! ### The calls of a program -/

theorem mem_appendNew_iff {list : List Nat} {n m : Nat} : m ∈ appendNew list n ↔ m ∈ list ∨ m = n := by
  rw [appendNew]
  split
  · next h =>
    rw [List.contains_iff_mem] at h
    exact ⟨.inl, fun hcase => hcase.elim id fun heq => heq ▸ h⟩
  · rw [List.mem_append, List.mem_singleton]

theorem mem_of_calleesOf {found : List Nat} (h : p.calleesOf f = .ok found) {id : Nat} :
    id ∈ found ↔ p.CallsFrom f id := by
  have hfold : ∀ (symbols : List Symbol) (before after : List Nat),
      symbols.foldlM (fun found symbol => (p.resolveFunction symbol).map (appendNew found)) before
        = .ok after →
      (id ∈ after ↔ id ∈ before ∨ ∃ symbol ∈ symbols, p.resolveFunction symbol = .ok id) := by
    intro symbols
    induction symbols with
    | nil =>
      intro before after h
      cases h
      simp
    | cons symbol rest ih =>
      intro before after h
      rw [List.foldlM_cons, Outcome.bind_eq_ok_iff] at h
      obtain ⟨found, hfirst, hrest⟩ := h
      obtain ⟨callee, hcallee, rfl⟩ := Outcome.map_eq_ok_iff.mp hfirst
      rw [ih _ _ hrest, mem_appendNew_iff, List.exists_mem_cons_iff, hcallee, Except.ok.injEq, or_assoc,
        eq_comm (a := id)]
  rw [Program.calleesOf] at h
  simp only [hfold _ _ _ h, List.not_mem_nil, false_or, List.mem_filterMap, Program.CallsFrom]
  constructor
  · rintro ⟨symbol, ⟨i, hi, hcallee⟩, hresolve⟩
    exact ⟨i, hi, symbol, hcallee, hresolve⟩
  · rintro ⟨i, hi, symbol, hcallee, hresolve⟩
    exact ⟨symbol, ⟨i, hi, hcallee⟩, hresolve⟩

/-- A new function comes with its calls. -/
theorem extend_eq_ok (h : extend p g f = .ok g') (hnew : g.callees.lookup f.id = none) :
    g'.nodes = g.nodes ++ [f.id] ∧
      ∀ a b, g'.Calls a b ↔ g.Calls a b ∨ (f.id = a ∧ p.CallsFrom f b) := by
  rw [extend] at h
  split at h
  · next hbody =>
    cases h
    refine ⟨rfl, fun a b => (or_iff_left ?_).symm⟩
    rintro ⟨-, i, hi, -⟩
    rw [Option.isNone_iff_eq_none] at hbody
    simp [Function.instrs, Function.blocks, hbody] at hi
  · obtain ⟨found, hfound, rfl⟩ := Outcome.map_eq_ok_iff.mp h
    refine ⟨rfl, fun a b => ?_⟩
    simp only [Calls, calleesOf, List.lookup_cons]
    by_cases ha : a = f.id
    · subst ha
      simp [hnew, mem_of_calleesOf hfound]
    · simp [beq_false_of_ne ha, Ne.symm ha]

theorem keys_extend (h : extend p g f = .ok g') {id : Nat} (hid : f.id ≠ id)
    (hnew : g.callees.lookup id = none) : g'.callees.lookup id = none := by
  rw [extend] at h
  split at h
  · cases h
    exact hnew
  · obtain ⟨found, -, rfl⟩ := Outcome.map_eq_ok_iff.mp h
    rw [List.lookup_cons, beq_false_of_ne hid.symm]
    exact hnew

/-- The graph of a program whose functions have distinct IDs holds exactly its calls. -/
theorem build_eq_ok (hids : p.functions.ids.Nodup) (h : build p = .ok g) :
    g.nodes = p.functions.ids ∧ ∀ a b, g.Calls a b ↔ p.Calls a b := by
  have hfold : ∀ (functions : List Function) (g g' : CallGraph), functions.foldlM (extend p) g = .ok g' →
      (functions.map Function.id).Nodup → (∀ f ∈ functions, g.callees.lookup f.id = none) →
      g'.nodes = g.nodes ++ functions.map Function.id ∧
        ∀ a b, g'.Calls a b ↔ g.Calls a b ∨ ∃ f ∈ functions, f.id = a ∧ p.CallsFrom f b := by
    intro functions
    induction functions with
    | nil =>
      intro g g' h _ _
      cases h
      simp
    | cons f rest ih =>
      intro g g' h hnodup hnew
      rw [List.foldlM_cons, Outcome.bind_eq_ok_iff] at h
      obtain ⟨g₁, hfirst, hrest⟩ := h
      rw [List.map_cons, List.nodup_cons] at hnodup
      obtain ⟨hf, hothers⟩ := List.forall_mem_cons.mp hnew
      obtain ⟨hnodes, hcalls⟩ := extend_eq_ok hfirst hf
      obtain ⟨hnodes', hcalls'⟩ := ih g₁ g' hrest hnodup.2 fun other hother =>
        keys_extend hfirst (fun heq => hnodup.1 (heq ▸ List.mem_map_of_mem hother))
          (hothers other hother)
      refine ⟨by rw [hnodes', hnodes, List.append_assoc]; rfl, fun a b => ?_⟩
      rw [hcalls', hcalls, List.exists_mem_cons_iff, or_assoc]
  obtain ⟨hnodes, hcalls⟩ := hfold _ _ _ h hids fun _ _ => rfl
  refine ⟨hnodes, fun a b => (hcalls a b).trans (or_iff_right ?_)⟩
  intro hnone
  cases hnone

/-- A graph lists the functions of the program, and holds calls between them only. -/
theorem nodes_of_build (h : build p = .ok g) :
    g.nodes = p.functions.ids ∧ ∀ a b, g.Calls a b → b ∈ p.functions.ids := by
  have hfold : ∀ (functions : List Function) (g g' : CallGraph), functions.foldlM (extend p) g = .ok g' →
      (∀ a b, g.Calls a b → b ∈ p.functions.ids) →
      g'.nodes = g.nodes ++ functions.map Function.id ∧ ∀ a b, g'.Calls a b → b ∈ p.functions.ids := by
    intro functions
    induction functions with
    | nil =>
      intro g g' h hcalls
      cases h
      exact ⟨(List.append_nil _).symm, hcalls⟩
    | cons f rest ih =>
      intro g g' h hcalls
      rw [List.foldlM_cons, Outcome.bind_eq_ok_iff] at h
      obtain ⟨g₁, hfirst, hrest⟩ := h
      obtain ⟨hnodes, hcalls₁⟩ : g₁.nodes = g.nodes ++ [f.id] ∧ ∀ a b, g₁.Calls a b → b ∈ p.functions.ids := by
        rw [extend] at hfirst
        split at hfirst
        · cases hfirst
          exact ⟨rfl, hcalls⟩
        · obtain ⟨found, hfound, rfl⟩ := Outcome.map_eq_ok_iff.mp hfirst
          refine ⟨rfl, fun a b hcall => ?_⟩
          rw [Calls, calleesOf, List.lookup_cons] at hcall
          split at hcall
          · obtain ⟨i, -, symbol, -, hresolve⟩ := (mem_of_calleesOf hfound).mp hcall
            exact Program.mem_ids_of_resolveFunction hresolve
          · exact hcalls a b hcall
      obtain ⟨hnodes', hcalls'⟩ := ih g₁ g' hrest hcalls₁
      exact ⟨by rw [hnodes', hnodes, List.append_assoc]; rfl, hcalls'⟩
  exact hfold _ _ _ h fun a b hcall => nomatch hcall

/-- There is a graph if all direct calls lead to functions. -/
theorem exists_build_eq_ok
    (hcalls : ∀ f ∈ p.functions.elems, ∀ i ∈ f.instrs, ∀ symbol ∈ i.directCallee?,
      ∃ id, p.resolveFunction symbol = .ok id) : ∃ g, build p = .ok g := by
  have hcallees : ∀ (symbols : List Symbol) (found : List Nat),
      (∀ symbol ∈ symbols, ∃ id, p.resolveFunction symbol = .ok id) →
      ∃ found', symbols.foldlM (fun found symbol => (p.resolveFunction symbol).map (appendNew found)) found
        = .ok found' := by
    intro symbols
    induction symbols with
    | nil => exact fun found _ => ⟨found, rfl⟩
    | cons symbol rest ih =>
      intro found hsymbols
      obtain ⟨⟨id, hid⟩, hrest⟩ := List.forall_mem_cons.mp hsymbols
      obtain ⟨found', hfound'⟩ := ih (appendNew found id) hrest
      exact ⟨found', by rw [List.foldlM_cons, hid]; exact hfound'⟩
  have hfold : ∀ (functions : List Function) (g : CallGraph), functions ⊆ p.functions.elems →
      ∃ g', functions.foldlM (extend p) g = .ok g' := by
    intro functions
    induction functions with
    | nil => exact fun g _ => ⟨g, rfl⟩
    | cons f rest ih =>
      intro g hsub
      obtain ⟨hf, hrest⟩ := List.cons_subset.mp hsub
      obtain ⟨g₁, hg₁⟩ : ∃ g₁, extend p g f = .ok g₁ := by
        rw [extend]
        split
        · exact ⟨_, rfl⟩
        · obtain ⟨found, hfound⟩ := hcallees (f.instrs.filterMap Instr.directCallee?) [] fun symbol hsymbol => by
            obtain ⟨i, hi, hcallee⟩ := List.mem_filterMap.mp hsymbol
            exact hcalls f hf i hi symbol hcallee
          rw [Program.calleesOf, hfound]
          exact ⟨_, rfl⟩
      obtain ⟨g', hg'⟩ := ih g₁ hrest
      exact ⟨g', by rw [List.foldlM_cons, hg₁]; exact hg'⟩
  exact hfold _ _ (List.Subset.refl _)

/-! ### Strongly connected components -/

namespace Layered
variable {components : List (List Nat)}

theorem reaches_backward (h : g.Layered components) {k : Nat} {c : List Nat}
    (hk : components[k]? = some c) {a b : Nat} (ha : a ∈ c) (hreach : g.Reaches a b) :
    ∃ j ≤ k, ∃ d, components[j]? = some d ∧ b ∈ d := by
  induction hreach with
  | refl => exact ⟨k, Nat.le_refl k, c, hk, ha⟩
  | tail _ hcall ih =>
    obtain ⟨j, hj, d, hd, hb⟩ := ih
    obtain ⟨i, hi, e, he, hcallee⟩ := h.backward j d hd _ hb _ hcall
    exact ⟨i, Nat.le_trans hi hj, e, he, hcallee⟩

/-- In disjoint components, those that reach each other are together. -/
theorem mem_iff (h : g.Layered components) (hnodup : components.flatten.Nodup) {c : List Nat}
    (hc : c ∈ components) {a : Nat} (ha : a ∈ c) (b : Nat) :
    b ∈ c ↔ g.Reaches a b ∧ g.Reaches b a := by
  constructor
  · exact fun hb => ⟨h.connected c hc a ha b hb, h.connected c hc b hb a ha⟩
  · rintro ⟨hforth, hback⟩
    obtain ⟨k, hk⟩ := List.mem_iff_getElem?.mp hc
    obtain ⟨j, hj, d, hd, hb⟩ := h.reaches_backward hk ha hforth
    obtain ⟨i, hi, e, he, hae⟩ := h.reaches_backward hd hb hback
    have hik : i = k := index_eq_of_mem hnodup he hk hae ha
    have hjk : j = k := by omega
    rw [hjk, hk] at hd
    cases hd
    exact hb

/-- The functions of a component are on cycles of calls if it counts as cyclic, and on none otherwise. -/
theorem isCyclic_iff (h : g.Layered components) (hnodup : components.flatten.Nodup) {c : List Nat}
    (hc : c ∈ components) {a : Nat} (ha : a ∈ c) :
    g.isCyclic c = true ↔ Relation.TransGen g.Calls a a := by
  rw [isCyclic, Bool.or_eq_true, decide_eq_true_eq, List.any_eq_true]
  constructor
  · rintro (hlength | ⟨b, hb, hself⟩)
    · have hother : ∃ b ∈ c, b ≠ a := by
        by_contra! hall
        have heq := List.eq_replicate_iff.mpr ⟨rfl, hall⟩
        have hone := (List.nodup_flatten.mp hnodup).1 c hc
        rw [heq, List.nodup_replicate] at hone
        omega
      obtain ⟨b, hb, hne⟩ := hother
      rcases Relation.reflTransGen_iff_eq_or_transGen.mp (h.connected c hc a ha b hb) with heq | hforth
      · exact absurd heq hne
      · exact hforth.trans_left (h.connected c hc b hb a ha)
    · have hcall : g.Calls b b := List.contains_iff_mem.mp hself
      exact .trans_right (h.connected c hc a ha b hb)
        ((Relation.TransGen.single hcall).trans_left (h.connected c hc b hb a ha))
  · intro hcycle
    obtain ⟨b, hcall, hback⟩ := Relation.TransGen.head'_iff.mp hcycle
    have hb : b ∈ c := (h.mem_iff hnodup hc ha b).mpr ⟨.single hcall, hback⟩
    by_cases heq : b = a
    · subst heq
      exact .inr ⟨b, ha, List.contains_iff_mem.mpr hcall⟩
    · refine .inl ?_
      match c with
      | [x] =>
        rw [List.mem_singleton] at ha hb
        exact absurd (hb.trans ha.symm) heq
      | x :: y :: rest => exact Nat.succ_lt_succ (Nat.succ_pos _)

end Layered

/-- The components of the graph of any program. -/
theorem components_sound (h : build p = .ok g) :
    g.Layered g.search.components ∧ g.search.components.flatten.Nodup ∧
      ∀ id, id ∈ g.search.components.flatten ↔ id ∈ p.functions.ids := by
  obtain ⟨hnodes, hcalls⟩ := nodes_of_build h
  rw [← hnodes] at hcalls ⊢
  exact search_sound hcalls

/-- The functions of a component are on cycles of the graph exactly if it counts as cyclic. -/
theorem cyclic_iff_calls (h : build p = .ok g) {c : Component} (hc : c ∈ g.components) {a : Nat}
    (ha : a ∈ c.functions) : c.cyclic = true ↔ Relation.TransGen g.Calls a a := by
  obtain ⟨hlayered, hnodup, -⟩ := components_sound h
  obtain ⟨functions, hfunctions, rfl⟩ := List.mem_map.mp hc
  exact hlayered.isCyclic_iff hnodup hfunctions ha

/-- The components of a program's graph: every function is in one of them, they are layered, and the functions
of the cyclic ones are those on cycles. -/
theorem components_spec (hids : p.functions.ids.Nodup) (h : build p = .ok g) :
    g.Calls = p.Calls ∧ g.Layered g.search.components ∧
      g.search.components.flatten.Perm p.functions.ids ∧ g.search.components.flatten.Nodup := by
  obtain ⟨hnodes, hcalls⟩ := build_eq_ok hids h
  have hknown : ∀ a b, g.Calls a b → b ∈ g.nodes := fun a b hcall => by
    rw [hnodes]
    exact ((hcalls a b).mp hcall).mem_ids
  obtain ⟨hlayered, hperm⟩ := search_spec (hnodes ▸ hids) hknown
  rw [hnodes] at hperm
  exact ⟨funext fun a => funext fun b => propext (hcalls a b), hlayered, hperm,
    hperm.nodup_iff.mpr hids⟩

theorem flatMap_components (g : CallGraph) :
    g.components.flatMap Component.functions = g.search.components.flatten := by
  rw [components, List.flatMap_map, List.flatten_eq_flatMap]
  rfl

/-- A function is on a cycle of calls exactly if its component counts as cyclic. -/
theorem cyclic_iff (hids : p.functions.ids.Nodup) (h : build p = .ok g) {c : Component}
    (hc : c ∈ g.components) {a : Nat} (ha : a ∈ c.functions) :
    c.cyclic = true ↔ Relation.TransGen p.Calls a a := by
  obtain ⟨hcalls, -⟩ := components_spec hids h
  rw [← hcalls]
  exact cyclic_iff_calls h hc ha

/-- The components of a call graph partition the functions of the program into the largest sets of functions
that reach each other. Calls between components lead to earlier ones, and the cyclic components are those
with a function that reaches itself by calls. -/
theorem components_partition (hids : p.functions.ids.Nodup) (hbuild : build p = .ok g) :
    (g.components.flatMap Component.functions).Perm p.functions.ids ∧
    (∀ c ∈ g.components, c.functions ≠ [] ∧ ∀ a ∈ c.functions, ∀ b, b ∈ c.functions ↔
      Relation.ReflTransGen p.Calls a b ∧ Relation.ReflTransGen p.Calls b a) ∧
    (∀ (j k : Nat) (c d : Component), g.components[j]? = some c → g.components[k]? = some d → j ≠ k →
      ∀ a ∈ c.functions, ∀ b ∈ d.functions, p.Calls a b → k < j) ∧
    ∀ c ∈ g.components, c.cyclic = true ↔ ∃ a ∈ c.functions, Relation.TransGen p.Calls a a := by
  obtain ⟨hcalls, hlayered, hperm, hnodup⟩ := components_spec hids hbuild
  have hposition : ∀ (k : Nat) (c : Component), g.components[k]? = some c →
      g.search.components[k]? = some c.functions := by
    intro k c hk
    rw [components, List.getElem?_map] at hk
    obtain ⟨functions, hfunctions, rfl⟩ := Option.map_eq_some_iff.mp hk
    exact hfunctions
  have hne : ∀ c ∈ g.components, c.functions ≠ [] := by
    intro c hc
    obtain ⟨functions, hfunctions, rfl⟩ := List.mem_map.mp hc
    exact hlayered.nonempty functions hfunctions
  refine ⟨?_, fun c hc => ⟨hne c hc, fun a ha b => ?_⟩, ?_, fun c hc => ?_⟩
  · rw [flatMap_components]
    exact hperm
  · obtain ⟨functions, hfunctions, rfl⟩ := List.mem_map.mp hc
    rw [← hcalls]
    exact hlayered.mem_iff hnodup hfunctions ha b
  · intro j k c d hj hk hjk a ha b hb hcall
    rw [← hcalls] at hcall
    obtain ⟨i, hi, e, he, hbe⟩ := hlayered.backward j c.functions (hposition j c hj) a ha b hcall
    have hik := index_eq_of_mem hnodup he (hposition k d hk) hbe hb
    omega
  · constructor
    · intro hcyclic
      obtain ⟨a, ha⟩ := List.exists_mem_of_ne_nil _ (hne c hc)
      exact ⟨a, ha, (cyclic_iff hids hbuild hc ha).mp hcyclic⟩
    · rintro ⟨a, ha, hcycle⟩
      exact (cyclic_iff hids hbuild hc ha).mpr hcycle

/-- Two functions that call each other, one of them by its alias, a function that calls itself and the two, and
a declaration that all of them reach. -/
def parityProgram : Program :=
  let calling (id : Nat) (name : String) (targets : List Symbol) : Function :=
    let code := targets.map fun target => { opcode := .call, operands := [.address target] }
    let graph : FlowGraph :=
      { blocks := { elems := [{ Block.ofCode code with id := 1 }], next := 2 }, entry := 1 }
    { id, name, body := some graph }
  { functions :=
      { elems :=
          [calling 1 "retry" [.function 1, .function 2], calling 2 "even" [.aliased 1],
            calling 3 "odd" [.function 2, .function 4], { id := 4, name := "log" }]
        next := 5 }
    aliases := { elems := [{ id := 1, name := "uneven", target := .function 3 }], next := 2 }
    pointerSize := 4 }

theorem components_partition_parityProgram :
    ∃ g, parityProgram.functions.ids.Nodup ∧ build parityProgram = .ok g ∧
      g.components = [⟨[4], false⟩, ⟨[3, 2], true⟩, ⟨[1], true⟩] ∧
      (g.components.flatMap Component.functions).Perm [1, 2, 3, 4] ∧
      Relation.ReflTransGen parityProgram.Calls 2 3 ∧ ¬Relation.TransGen parityProgram.Calls 4 4 := by
  have hids : parityProgram.functions.ids.Nodup := by decide
  have hbuild : build parityProgram
      = .ok { nodes := [1, 2, 3, 4], callees := [(3, [2, 4]), (2, [3]), (1, [1, 2])] } := by
    decide +kernel
  obtain ⟨hperm, hmutual, -, hcyclic⟩ := components_partition hids hbuild
  have hcomponents : components { nodes := [1, 2, 3, 4], callees := [(3, [2, 4]), (2, [3]), (1, [1, 2])] }
      = [⟨[4], false⟩, ⟨[3, 2], true⟩, ⟨[1], true⟩] := by decide +kernel
  rw [hcomponents] at hmutual hcyclic
  refine ⟨_, hids, hbuild, hcomponents, hperm, ?_, fun hcycle => ?_⟩
  · exact (((hmutual ⟨[3, 2], true⟩ (by simp)).2 2 (by simp) 3).mp (by simp)).1
  · have hfalse := (hcyclic ⟨[4], false⟩ (by simp)).mpr ⟨4, by simp, hcycle⟩
    cases hfalse

end CallGraph
end ThumbHardening
