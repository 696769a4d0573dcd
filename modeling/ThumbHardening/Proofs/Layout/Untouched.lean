import ThumbHardening.Proofs.Layout.EtchedOnce
import ThumbHardening.Proofs.Layout.Lookup

/-!
# What randomization leaves untouched

A run that succeeds leaves every object as it was and adds decoys. It changes the functions in two ways only: some
trap blocks begin with the address of a decoy, and the accessor of the guard is made or replaces the function with
its name. All symbols keep their names and values. The list of used symbols gets longer by the decoys and the
accessor.
-/

namespace ThumbHardening

/-- A function in which some blocks begin with the address of a decoy. -/
def Function.withEtchings (etched : List (BlockPointer × Nat)) (f : Function) : Function :=
  f.updateBody fun g => { g with
    blocks := { g.blocks with elems := g.blocks.elems.map fun b => Layout.etchedAs etched ⟨f.id, b.id⟩ b } }

/-- The functions of a program with their etched blocks. -/
def Program.etchedFunctions (p : Program) (etched : List (BlockPointer × Nat)) : Roster Function :=
  { p.functions with elems := p.functions.elems.map (Function.withEtchings etched) }

namespace Layout

variable {p q : Program} {o : Options} {plan : Plan} {objects : List GlobalObject}
  {etched : List (BlockPointer × Nat)}

theorem etchFunction_eq {f : Function} (hblocks : (f.blocks.map Block.id).Nodup) :
    etchFunction etched f = f.withEtchings etched := by
  refine congrArg (fun body => { f with body }) (Option.map_congr fun g hg => ?_)
  refine congrArg (fun blocks => { g with blocks }) (Roster.mapFound_eq_map ?_ _)
  rw [Function.blocks, hg] at hblocks
  exact hblocks

theorem mapFound_etchFunction (hfunctions : p.functions.ids.Nodup)
    (hblocks : ∀ f ∈ p.functions.elems, (f.blocks.map Block.id).Nodup) :
    p.functions.mapFound (etchFunction etched) = p.etchedFunctions etched := by
  rw [Roster.mapFound_eq_map hfunctions]
  exact congrArg (fun elems => ({ p.functions with elems } : Roster Function))
    (List.map_congr_left fun f hf => etchFunction_eq (hblocks f hf))

/-- A function that is not the accessor is found as before. -/
theorem get?_withAccessor (body : FlowGraph) {functions : Roster Function} {f f' : Function}
    (hother : ¬ p.IsAccessor f) (hget : functions.get? f.id = some f') :
    (withAccessor p body functions).get? f.id = some f' := by
  rw [withAccessor]
  split
  · next id hnamed =>
    have hne : f.id ≠ id := fun heq => hother (Program.symbolNamed?_eq_function_iff.mpr (heq ▸ hnamed))
    have hid : ∀ f, Identified.id (becomeGuard body f) = Identified.id f := fun _ => rfl
    rw [Roster.get?_update hid, if_neg hne]
    exact hget
  · rw [Roster.get?, Roster.insert, List.find?_append]
    exact congrArg (Option.or · _) hget

/-! ### What is left of a program -/

theorem Made.decoy {next : Nat} {decoys : List DecoyPlan} (h : Made next decoys objects) :
    ∀ g ∈ objects, g.decoy = true := by
  induction h with
  | nil => exact fun _ hg => nomatch hg
  | cons name rest ih => exact List.forall_mem_cons.mpr ⟨rfl, ih⟩

/-- What is etched are addresses of the new objects. -/
theorem Made.mem_of_mem_etchedBy {next : Nat} (h : Made next plan.decoys objects) {entry : BlockPointer × Nat}
    (hentry : entry ∈ etchedBy plan objects) : entry.2 ∈ objects.map GlobalObject.id := by
  obtain ⟨d, hd, -, hid⟩ := exists_of_mem_etchings hentry
  rw [← h.map_snd_placedAs, ← hid]
  exact List.mem_map_of_mem (List.mem_reverse.mp hd)

/-- What becomes of a program: nothing but the named changes. `decoys` are the new objects in the order in which they
were made, `etched` the blocks that hold addresses of them, and `accessor` the body of the accessor. -/
structure Untouched (o : Options) (p q : Program) (decoys : List GlobalObject) (etched : List (BlockPointer × Nat))
    (accessor : Option FlowGraph) : Prop where
  global? : ∀ id g, p.global? id = some g → q.global? id = some g
  globals : q.globals.elems.Perm (p.globals.elems ++ decoys)
  created : decoys.map GlobalObject.id = List.range' p.globals.next decoys.length ∧ ∀ g ∈ decoys, g.decoy = true
  traps : ∀ entry ∈ etched, entry.2 ∈ decoys.map GlobalObject.id ∧ ∃ f ∈ p.functions.elems, ∃ b ∈ f.blocks,
    f.id = entry.1.function ∧ b.id = entry.1.block ∧ b.trap = true
  guard : accessor.isSome = o.guard
  functions : q.functions
    = accessor.elim (p.etchedFunctions etched) fun body => withAccessor p body (p.etchedFunctions etched)
  function? : ∀ f ∈ p.functions.elems, ¬ p.IsAccessor f →
    q.function? f.id = some (f.withEtchings etched)
  aliases : q.aliases = p.aliases
  names : ∀ symbol name, p.symbolName? symbol = some name → q.symbolName? symbol = some name
  named : ∀ name symbol, p.symbolNamed? name = some symbol → q.symbolNamed? name = some symbol
  values : ∀ symbol value, p.valueOf? symbol = some value → q.valueOf? symbol = some value
  operands : ∀ value < p.values.size, value ≠ Program.usedValue →
    q.values.operandsOf value = p.values.operandsOf value
  used : q.used = p.used ++ decoys.map (fun g => .global g.id) ++ if o.guard then accessorSymbols p else []
  used_nodup : q.used.Nodup
  /-- The symbol that is put on the list is that of the accessor. -/
  accessor : o.guard = true → q.symbolNamed? Guard.functionName = some (.function (accessorId p))
  pointerSize : q.pointerSize = p.pointerSize

/-- The objects that there were are found as before. -/
theorem Carried.global? (h : Carried o p plan objects q) {id : Nat} {g : GlobalObject}
    (hget : p.global? id = some g) : q.global? id = some g := by
  have hmem : g ∈ q.globals.elems := h.globals.mem_iff.mpr (List.mem_append_left _ (Roster.mem_of_get? hget))
  have hid : g.id = id := Roster.id_of_get? hget
  exact hid ▸ Roster.get?_id h.nodup hmem

theorem Carried.symbolName? (h : Carried o p plan objects q) {symbol : Symbol} {name : String}
    (hname : p.symbolName? symbol = some name) : q.symbolName? symbol = some name := by
  cases symbol with
  | function id =>
    obtain ⟨f, hf, rfl⟩ := Option.map_eq_some_iff.mp hname
    rw [Program.symbolName?]
    by_cases hreplaced : replaced? p plan = some id
    · obtain ⟨guard, hguard, -⟩ := Option.bind_eq_some_iff.mp hreplaced
      rw [h.function?_of_replaced hguard hreplaced, hf]
      rfl
    · have hmem : id ∈ p.functions.ids := List.mem_map.mpr ⟨f, Roster.mem_of_get? hf, Roster.id_of_get? hf⟩
      rw [h.function?_of_kept hmem hreplaced, hf]
      rfl
  | global id =>
    obtain ⟨g, hg, rfl⟩ := Option.map_eq_some_iff.mp hname
    rw [Program.symbolName?, h.global? hg]
    rfl
  | aliased id =>
    rw [Program.symbolName?, Program.alias?, h.keeps.aliases]
    exact hname

end Layout

namespace LayoutRandomizer
open Layout

variable {r : LayoutRandomizer} {stream : RandomStream} {p q : Program} {plan : Plan} {objects : List GlobalObject}

theorem Plans.guard_isSome (h : r.Plans stream p plan) : plan.guard.isSome = r.options.guard := by
  obtain ⟨_, hok⟩ := h.2.2
  obtain ⟨pool, -, -, -, hwith⟩ := plan_eq_ok hok
  exact (planWith_eq_ok hwith).2.2.1

/-- What is etched are trap blocks of the program, with the IDs of the new objects. -/
theorem Plans.traps (h : r.Plans stream p plan) (hmade : Made p.globals.next plan.decoys objects)
    {entry : BlockPointer × Nat} (hentry : entry ∈ etchedBy plan objects) :
    entry.2 ∈ objects.map GlobalObject.id ∧ ∃ f ∈ p.functions.elems, ∃ b ∈ f.blocks,
      f.id = entry.1.function ∧ b.id = entry.1.block ∧ b.trap = true := by
  refine ⟨hmade.mem_of_mem_etchedBy hentry, ?_⟩
  obtain ⟨_, hok⟩ := h.2.2
  obtain ⟨d, hd, ht, -⟩ := exists_of_mem_etchings hentry
  obtain ⟨pair, hpair, rfl⟩ := List.mem_map.mp (List.mem_reverse.mp hd)
  obtain ⟨f, hf, b, hb, hfree, hfid, hbid⟩ :=
    Program.mem_blockPointers_iff.mp (etch_mem_blockPointers hok (List.of_mem_zip hpair).1 ht).1
  exact ⟨f, hf, b, hb, hfid, hbid, ((Bool.and_eq_true ..).mp hfree).1⟩

/-- A run that succeeds has carried out its plan. -/
theorem exists_carried {changed : Bool} (hbuilt : p.Built) (hon : r.options.randomization = true)
    (hok : (r.runWith stream p).outcome = .ok changed) :
    ∃ plan objects, r.Plans stream p plan ∧ Carried r.options p plan objects (r.runWith stream p).program := by
  rcases runWith_cases r stream p with ⟨plan, s, failure, hplan, hcarry, hprogram, -, houtcome⟩ | ⟨-, -, herror⟩
  · cases failure with
    | some e =>
      rw [hok] at houtcome
      cases houtcome
    | none =>
      obtain ⟨objects, hcarried⟩ := carried_of_carryOut hbuilt hcarry
      exact ⟨plan, objects, hplan, hprogram ▸ hcarried⟩
  · obtain ⟨e, he⟩ := herror hon
    rw [hok] at he
    cases he

theorem Plans.untouched (h : r.Plans stream p plan) (hfunctions : p.functions.ids.Nodup)
    (hblocks : ∀ f ∈ p.functions.elems, (f.blocks.map Block.id).Nodup)
    (hcarried : Carried r.options p plan objects q) :
    Untouched r.options p q objects (etchedBy plan objects)
      (plan.guard.map fun guard => accessorBody r.options guard objects) := by
  have hetched : q.functions = plan.guard.elim (p.etchedFunctions (etchedBy plan objects)) fun guard =>
      withAccessor p (accessorBody r.options guard objects) (p.etchedFunctions (etchedBy plan objects)) := by
    rw [← mapFound_etchFunction hfunctions hblocks]
    exact hcarried.functions
  have hids : (p.etchedFunctions (etchedBy plan objects)).ids = p.functions.ids := List.map_map ..
  refine ⟨fun _ _ => hcarried.global?, hcarried.globals, ⟨hcarried.made.map_id, hcarried.made.decoy⟩,
    fun _ => h.traps hcarried.made, ?_, ?_, fun f hf hother => ?_, hcarried.keeps.aliases,
    fun _ _ => hcarried.symbolName?, hcarried.keeps.named, hcarried.keeps.bound, hcarried.keeps.operands, ?_,
    hcarried.built.recorded.nodup, fun hguard => ?_, hcarried.keeps.pointerSize⟩
  · rw [Option.isSome_map, h.guard_isSome]
  · rw [hetched]
    cases plan.guard <;> rfl
  · have hget : (p.etchedFunctions (etchedBy plan objects)).get? f.id
        = some (f.withEtchings (etchedBy plan objects)) :=
      Roster.get?_id (hids ▸ hfunctions) (List.mem_map_of_mem hf)
    rw [Program.function?, hetched]
    cases plan.guard with
    | none => exact hget
    | some guard => exact get?_withAccessor _ hother hget
  · rw [hcarried.used, ← h.guard_isSome]
    cases plan.guard <;> rfl
  · exact hcarried.accessor (h.guard_isSome ▸ hguard)

end LayoutRandomizer
end ThumbHardening
