import ThumbHardening.Proofs.Layout.Frame

/-!
# What is found once a plan has been carried out

A function is still found by its ID, with its etched blocks, unless the accessor of the guard has taken its place.
So are its blocks. In the place of the function that is replaced only the blocks of the accessor are found.
-/

namespace ThumbHardening

theorem Program.block?_eq (p : Program) (function id : Nat) :
    p.block? function id = (p.function? function).bind fun f => f.body.bind fun g => g.block? id := rfl

namespace Layout

variable {p q : Program} {o : Options} {plan : Plan} {objects : List GlobalObject} {guard : GuardPlan}
  {etched : List (BlockPointer × Nat)} {t : BlockPointer} {id : Nat}

/-- The function that the accessor of the guard replaces. -/
def replaced? (p : Program) (plan : Plan) : Option Nat :=
  plan.guard.bind fun _ => p.functionNamed? Guard.functionName

/-- The IDs of the blocks of the accessor. -/
def accessorBlocks (o : Options) (guard : GuardPlan) : List Nat :=
  if o.rngAddress.isSome && 1 < guard.candidates.length then
    [Guard.setupBlock, Guard.pollBlock, Guard.selectBlock, Guard.storeBlock]
  else [Guard.setupBlock]

theorem ids_accessorBody (o : Options) (guard : GuardPlan) (objects : List GlobalObject) :
    (accessorBody o guard objects).blocks.ids = accessorBlocks o guard := by
  rw [accessorBody, accessorBlocks]
  cases o.rngAddress with
  | none => rfl
  | some address =>
    rw [Guard.graph, List.length_map, Option.isSome_some, Bool.true_and]
    simp only [decide_eq_true_eq]
    split <;> rfl

/-! ### Functions -/

/-- The functions with their etched blocks, and the accessor behind them or in the place of one of them. -/
theorem Carried.functions_cases (h : Carried o p plan objects q) :
    (replaced? p plan = none ∧ ∃ added : List Function,
      q.functions.elems = (p.functions.mapFound (etchFunction (etchedBy plan objects))).elems ++ added ∧
      ∀ f ∈ added, ∃ guard, plan.guard = some guard ∧ f.body = some (accessorBody o guard objects)) ∨
    ∃ guard id, plan.guard = some guard ∧ replaced? p plan = some id ∧
      q.functions = p.functions.mapFound fun f =>
        if f.id = id then becomeGuard (accessorBody o guard objects) (etchFunction (etchedBy plan objects) f)
        else etchFunction (etchedBy plan objects) f := by
  rw [h.functions, replaced?]
  cases plan.guard with
  | none => exact .inl ⟨rfl, [], (List.append_nil _).symm, fun _ hf => nomatch hf⟩
  | some guard =>
    rw [Option.elim_some, Option.bind_some, withAccessor]
    cases p.functionNamed? Guard.functionName with
    | none =>
      refine .inl ⟨rfl, [_], congrArg Roster.elems (Roster.insert_of_id_eq_zero rfl), fun f hf => ?_⟩
      rw [List.mem_singleton.mp hf]
      exact ⟨guard, rfl, rfl⟩
    | some id => exact .inr ⟨guard, id, rfl, rfl, Roster.update_mapFound (id_etchFunction _) id _⟩

/-- A function afterwards is one from before, one with etched blocks that is not replaced, or the accessor. -/
theorem Carried.mem_functions (h : Carried o p plan objects q) {f : Function} (hf : f ∈ q.functions.elems) :
    f ∈ p.functions.elems ∨
      (∃ old, p.function? old.id = some old ∧ replaced? p plan ≠ some old.id ∧
        f = etchFunction (etchedBy plan objects) old) ∨
      ∃ guard, plan.guard = some guard ∧ f.body = some (accessorBody o guard objects) := by
  rcases h.functions_cases with ⟨hnone, added, hfunctions, hadded⟩ | ⟨guard, id, hguard, hid, hfunctions⟩
  · rw [hfunctions] at hf
    rcases List.mem_append.mp hf with hf | hf
    · refine (Roster.mem_mapFound hf).imp_right fun hetched => .inl ?_
      obtain ⟨old, hold, rfl⟩ := hetched
      exact ⟨old, hold, by simp [hnone], rfl⟩
    · exact .inr (.inr (hadded f hf))
  · rw [hfunctions] at hf
    refine (Roster.mem_mapFound hf).imp_right fun hchanged => ?_
    obtain ⟨old, hold, rfl⟩ := hchanged
    split
    · exact .inr ⟨guard, hguard, rfl⟩
    · next hne =>
      refine .inl ⟨old, hold, fun hreplaced => hne ?_, rfl⟩
      rw [hid] at hreplaced
      exact (Option.some.inj hreplaced).symm

theorem Carried.function?_of_kept (h : Carried o p plan objects q) (hmem : id ∈ p.functions.ids)
    (hkept : replaced? p plan ≠ some id) :
    q.function? id = (p.function? id).map (etchFunction (etchedBy plan objects)) := by
  rcases h.functions_cases with ⟨-, added, hfunctions, -⟩ | ⟨guard, other, -, hother, hfunctions⟩
  · have hget := Roster.get?_mapFound (r := p.functions) (id_etchFunction (etchedBy plan objects)) id
    have hsome : (p.functions.get? id).isSome = true := by
      rw [Roster.isSome_get?]
      exact List.contains_iff_mem.mpr hmem
    obtain ⟨f, hf⟩ := Option.isSome_iff_exists.mp hsome
    rw [hf] at hget
    have hf : p.function? id = some f := hf
    rw [Program.function?, Roster.get?, hfunctions, List.find?_append, hf]
    exact congrArg (Option.or · _) hget
  · have hne : ∀ f : Function, f.id = id → ¬ f.id = other := by
      intro f hid heq
      exact hkept (hother.trans (congrArg some (heq.symm.trans hid)))
    rw [Program.function?, hfunctions, Roster.get?_mapFound]
    · exact Option.map_congr fun f hf => if_neg (hne f (Roster.id_of_get? hf))
    · intro f
      rw [apply_ite Identified.id]
      exact ite_self _

theorem Carried.function?_of_replaced (h : Carried o p plan objects q) (hguard : plan.guard = some guard)
    (hreplaced : replaced? p plan = some id) :
    q.function? id = (p.function? id).map fun f =>
      becomeGuard (accessorBody o guard objects) (etchFunction (etchedBy plan objects) f) := by
  rcases h.functions_cases with ⟨hnone, -⟩ | ⟨guard', id', hguard', hid', hfunctions⟩
  · rw [hreplaced] at hnone
    cases hnone
  · obtain rfl : guard = guard' := Option.some.inj (hguard.symm.trans hguard')
    obtain rfl : id = id' := Option.some.inj (hreplaced.symm.trans hid')
    rw [Program.function?, hfunctions, Roster.get?_mapFound]
    · exact Option.map_congr fun f hf => if_pos (Roster.id_of_get? hf)
    · intro f
      rw [apply_ite Identified.id]
      exact ite_self _

/-! ### Blocks -/

theorem block?_etchFunction (etched : List (BlockPointer × Nat)) (f : Function) (id : Nat) :
    ((etchFunction etched f).body.bind fun g => g.block? id)
      = (f.body.bind fun g => g.block? id).map (etchedAs etched ⟨f.id, id⟩) := by
  rw [etchFunction, Function.updateBody]
  cases f.body with
  | none => rfl
  | some g =>
    rw [Option.map_some, Option.bind_some, Option.bind_some]
    refine (Roster.get?_mapFound (fun b => id_etchedAs etched ⟨f.id, b.id⟩ b) id).trans ?_
    exact Option.map_congr fun b hb => by rw [show b.id = id from Roster.id_of_get? hb]

/-- Where no function is replaced, the blocks are found with what has been etched. -/
theorem Carried.block?_of_kept (h : Carried o p plan objects q) (hmem : t.function ∈ p.functions.ids)
    (hkept : replaced? p plan ≠ some t.function) :
    q.block? t.function t.block = (p.block? t.function t.block).map (etchedAs (etchedBy plan objects) t) := by
  rw [Program.block?_eq, Program.block?_eq, h.function?_of_kept hmem hkept]
  cases hf : p.function? t.function with
  | none => rfl
  | some f =>
    have hid : f.id = t.function := Roster.id_of_get? hf
    rw [Option.map_some, Option.bind_some, Option.bind_some, block?_etchFunction, hid]

theorem Carried.block?_of_replaced (h : Carried o p plan objects q) (hmem : t.function ∈ p.functions.ids)
    (hguard : plan.guard = some guard) (hreplaced : replaced? p plan = some t.function) :
    q.block? t.function t.block = (accessorBody o guard objects).block? t.block := by
  have hsome : (p.functions.get? t.function).isSome = true := by
    rw [Roster.isSome_get?]
    exact List.contains_iff_mem.mpr hmem
  obtain ⟨f, hf⟩ := Option.isSome_iff_exists.mp hsome
  have hf : p.function? t.function = some f := hf
  rw [Program.block?_eq, h.function?_of_replaced hguard hreplaced, hf]
  rfl

/-- Whether a block is still found once a plan has been carried out. -/
structure Plan.Reaches (o : Options) (p : Program) (plan : Plan) (t : BlockPointer) : Prop where
  kept : replaced? p plan ≠ some t.function → (p.block? t.function t.block).isSome = true
  replaced : ∀ guard, plan.guard = some guard → replaced? p plan = some t.function → t.block ∈ accessorBlocks o guard

theorem Carried.block?_isSome_iff (h : Carried o p plan objects q) (hmem : t.function ∈ p.functions.ids) :
    (q.block? t.function t.block).isSome = true ↔ plan.Reaches o p t := by
  by_cases hreplaced : replaced? p plan = some t.function
  · obtain ⟨guard, hguard, -⟩ := Option.bind_eq_some_iff.mp hreplaced
    have hfound : (q.block? t.function t.block).isSome = true ↔ t.block ∈ accessorBlocks o guard := by
      rw [h.block?_of_replaced hmem hguard hreplaced, FlowGraph.block?, Roster.isSome_get?, ids_accessorBody]
      exact List.contains_iff_mem
    rw [hfound]
    refine ⟨fun hblock => ⟨fun hkept => absurd hreplaced hkept, fun guard' hguard' _ => ?_⟩,
      fun hreaches => hreaches.replaced guard hguard hreplaced⟩
    obtain rfl : guard = guard' := Option.some.inj (hguard.symm.trans hguard')
    exact hblock
  · rw [h.block?_of_kept hmem hreplaced, Option.isSome_map]
    exact ⟨fun hblock => ⟨fun _ => hblock, fun _ _ heq => absurd heq hreplaced⟩,
      fun hreaches => hreaches.kept hreplaced⟩

end Layout
end ThumbHardening
