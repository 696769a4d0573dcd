import ThumbHardening.Proofs.Layout.Capacity

/-!
# The new order of the objects

The decoys of an object are planned while the objects still have their old order, made when all of them are
planned, and placed once the objects have their new order. What leads from one to the other are IDs: a decoy
knows the ID of its anchor, and the new order is a list of IDs. Since no two objects share an ID, that list
says which objects stand where, and the planned decoys of an object are the ones that stand in front of it.
-/

namespace ThumbHardening
namespace Layout

/-! ### Objects that are left out -/

/-- Whether an object keeps out of all classes: it is a declaration, or its section belongs to another class. -/
def isLeftOut (g : GlobalObject) : Bool :=
  match StorageClass.of? g with
  | none => true
  | some c => !Members.sectionFits c g

def leftOut (p : Program) : List GlobalObject :=
  p.globals.elems.filter isLeftOut

theorem Members.excluded_add (m : Members) (g : GlobalObject) :
    (m.add g).excluded = m.excluded ++ if isLeftOut g then [g.id] else [] := by
  rw [add, isLeftOut]
  cases StorageClass.of? g with
  | none => rfl
  | some c =>
    cases hfits : sectionFits c g with
    | true => simp [hfits, enroll]
    | false => simp [hfits, exclude]

theorem Members.excluded_ofProgram (p : Program) :
    (ofProgram p).excluded = (leftOut p).map GlobalObject.id := by
  have hfold (objects : List GlobalObject) (m : Members) :
      (objects.foldl add m).excluded
        = m.excluded ++ (objects.filter isLeftOut).map GlobalObject.id := by
    induction objects generalizing m with
    | nil => simp
    | cons g rest ih =>
      rw [List.foldl_cons, ih, excluded_add]
      cases hg : isLeftOut g <;> simp [hg]
  exact hfold p.globals.elems {}

/-! ### Anchors -/

variable {ptr : Nat} {useTraps : Bool} {storage : StorageClass} {shares : List (Nat × Nat)}
  {ids : List Nat} {id : Nat}

theorem anchor_planDecoys (storage : StorageClass) (ptr : Nat) (useTraps : Bool) (anchor : Nat)
    (remaining : Nat) (d : DecoyState) :
    ∀ plan ∈ (planDecoys storage ptr useTraps anchor remaining d).1, plan.anchor = some anchor := by
  induction remaining using Nat.strongRecOn generalizing d with
  | ind remaining ih =>
    cases remaining with
    | zero => simp [planDecoys]
    | succ remaining =>
      rw [planDecoys]
      intro plan hplan
      have hpos : 0 < decoySize (remaining + 1) := decoySize_pos (Nat.succ_ne_zero remaining)
      rcases List.mem_cons.mp hplan with rfl | hrest
      · rfl
      · exact ih _ (by omega) _ plan hrest

theorem anchor_planClass (d : DecoyState) :
    ∀ plan ∈ (planClass storage ptr useTraps shares ids d).1, ∃ id ∈ ids, plan.anchor = some id := by
  induction ids generalizing d with
  | nil => simp [planClass]
  | cons id rest ih =>
    intro plan hplan
    simp only [planClass, List.mem_append] at hplan
    rcases hplan with hfirst | hothers
    · exact ⟨id, List.mem_cons_self, anchor_planDecoys _ _ _ _ _ _ plan hfirst⟩
    · obtain ⟨other, hmem, hanchor⟩ := ih _ plan hothers
      exact ⟨other, List.mem_cons_of_mem _ hmem, hanchor⟩

theorem filter_planClass_of_notMem (storage : StorageClass) (ptr : Nat) (useTraps : Bool)
    (shares : List (Nat × Nat)) (hid : id ∉ ids) (d : DecoyState) :
    (planClass storage ptr useTraps shares ids d).1.filter (fun plan => plan.anchor = some id) = [] := by
  rw [List.filter_eq_nil_iff]
  intro plan hplan
  obtain ⟨other, hother, hanchor⟩ := anchor_planClass d plan hplan
  simp only [hanchor, Option.some.injEq, decide_eq_true_eq]
  rintro rfl
  exact hid hother

/-- The decoys that were planned for an object, in one go. -/
def PlannedFor (storage : StorageClass) (ptr : Nat) (useTraps : Bool) (id : Nat)
    (decoys : List DecoyPlan) : Prop :=
  ∃ units d, decoys = (planDecoys storage ptr useTraps id (Address.wrap (units * ptr)) d).1

theorem filter_planClass (hids : ids.Nodup) (hid : id ∈ ids) (d : DecoyState) :
    PlannedFor storage ptr useTraps id
      ((planClass storage ptr useTraps shares ids d).1.filter fun plan => plan.anchor = some id) := by
  induction ids generalizing d with
  | nil => cases hid
  | cons first rest ih =>
    obtain ⟨hnew, hrest⟩ := List.nodup_cons.mp hids
    simp only [planClass, List.filter_append]
    have hfirst := anchor_planDecoys storage ptr useTraps first
      (Address.wrap ((shares.lookup first).getD 0 * ptr)) d
    rcases List.mem_cons.mp hid with rfl | hmem
    · rw [filter_planClass_of_notMem _ _ _ _ hnew, List.append_nil, List.filter_eq_self.mpr]
      · exact ⟨_, _, rfl⟩
      · intro plan hplan
        simp [hfirst plan hplan]
    · rw [List.filter_eq_nil_iff.mpr, List.nil_append]
      · exact ih hrest hmem _
      · intro plan hplan
        simp only [hfirst plan hplan, Option.some.injEq, decide_eq_true_eq]
        rintro rfl
        exact hnew hmem

theorem anchor_planClasses (shares : PerClass (List (Nat × Nat))) (ids : PerClass (List Nat))
    (d : DecoyState) :
    ∀ plan ∈ (planClasses ptr useTraps shares ids d).1, ∃ c, ∃ id ∈ ids.get c, plan.anchor = some id := by
  intro plan hplan
  simp only [planClasses, List.mem_append] at hplan
  rcases hplan with (hplan | hplan) | hplan
  · exact ⟨.rodata, anchor_planClass _ plan hplan⟩
  · exact ⟨.data, anchor_planClass _ plan hplan⟩
  · exact ⟨.bss, anchor_planClass _ plan hplan⟩

/-- If the classes have no ID in common, the decoys with an anchor are those planned for it in its class. -/
theorem filter_planClasses (shares : PerClass (List (Nat × Nat))) {ids : PerClass (List Nat)}
    (hids : ∀ c, (ids.get c).Nodup)
    (hdisjoint : ∀ c c', c ≠ c' → ∀ id ∈ ids.get c, id ∉ ids.get c') {c : StorageClass}
    (hid : id ∈ ids.get c) (d : DecoyState) :
    PlannedFor c ptr useTraps id
      ((planClasses ptr useTraps shares ids d).1.filter fun plan => plan.anchor = some id) := by
  have hrodata (hne : c ≠ .rodata) : id ∉ ids.rodata := hdisjoint c .rodata hne id hid
  have hdata (hne : c ≠ .data) : id ∉ ids.data := hdisjoint c .data hne id hid
  have hbss (hne : c ≠ .bss) : id ∉ ids.bss := hdisjoint c .bss hne id hid
  simp only [planClasses, List.filter_append]
  cases c with
  | rodata =>
    rw [filter_planClass_of_notMem _ _ _ _ (hdata (by decide)),
      filter_planClass_of_notMem _ _ _ _ (hbss (by decide)), List.append_nil, List.append_nil]
    exact filter_planClass (hids .rodata) hid _
  | data =>
    rw [filter_planClass_of_notMem _ _ _ _ (hrodata (by decide)),
      filter_planClass_of_notMem _ _ _ _ (hbss (by decide)), List.nil_append, List.append_nil]
    exact filter_planClass (hids .data) hid _
  | bss =>
    rw [filter_planClass_of_notMem _ _ _ _ (hrodata (by decide)),
      filter_planClass_of_notMem _ _ _ _ (hdata (by decide)), List.nil_append, List.nil_append]
    exact filter_planClass (hids .bss) hid _

/-! ### The decoys of a plan -/

variable {p : Program}

theorem of?_of_mem_originals {c : StorageClass} {g : GlobalObject} (hg : g ∈ originals p c) :
    StorageClass.of? g = some c := by
  have hmember := List.of_mem_filter hg
  simp only [isMember, Bool.and_eq_true, decide_eq_true_eq] at hmember
  exact hmember.1

theorem mem_globals_of_mem_originals {c : StorageClass} {g : GlobalObject} (hg : g ∈ originals p c) :
    g ∈ p.globals.elems :=
  List.mem_of_mem_filter hg

/-- No object is a member of two classes. -/
theorem disjoint_ofClass (hids : p.globals.ids.Nodup) (c c' : StorageClass) (hne : c ≠ c') :
    ∀ id ∈ (Members.ofProgram p).ofClass.get c, id ∉ (Members.ofProgram p).ofClass.get c' := by
  intro id hid hid'
  rw [Members.get_ofClass_ofProgram, List.mem_map] at hid hid'
  obtain ⟨g, hg, rfl⟩ := hid
  obtain ⟨g', hg', heq⟩ := hid'
  have hsame : g' = g := Roster.eq_of_id_eq hids (mem_globals_of_mem_originals hg')
    (mem_globals_of_mem_originals hg) heq
  have hclass := of?_of_mem_originals hg'
  rw [hsame, of?_of_mem_originals hg, Option.some.injEq] at hclass
  exact hne hclass

/-- How the decoys of a plan are spread over the objects of a program. -/
structure Anchored (o : Options) (p : Program) (decoys : List DecoyPlan) : Prop where
  /-- The decoys in front of an object are planned for it. -/
  planned : ∀ c, ∀ g ∈ originals p c, PlannedFor c p.pointerSize o.trapDecoys g.id
    (decoys.filter fun d => d.anchor = some g.id)
  /-- Every anchor is one of the objects. -/
  anchor_mem : ∀ d ∈ decoys, ∀ id, d.anchor = some id → ∃ c, ∃ g ∈ originals p c, g.id = id
  /-- At most one decoy has no anchor: the one that the guard adds to the data class. -/
  unanchored : (decoys.filter fun d => d.anchor = none) = [] ∨ o.guard = true ∧
    ∃ s, (decoys.filter fun d => d.anchor = none) = [(fallbackDecoy p.pointerSize s).1]

variable {o : Options} {s : RandomStream} {plan : Plan} {warnings : Nat}

theorem Anchored.of_plan (hids : p.globals.ids.Nodup)
    (h : Layout.plan o p (Members.ofProgram p) s = (warnings, .ok plan)) :
    Anchored o p plan.decoys := by
  obtain ⟨pool, -, -, -, hplan⟩ := plan_eq_ok h
  obtain ⟨-, -, -, hdecoys⟩ := planWith_eq_ok hplan
  have hanchor : ∀ d ∈ (anchoredDecoys o p (Members.ofProgram p) pool s).1,
      ∃ c, ∃ id ∈ (Members.ofProgram p).ofClass.get c, d.anchor = some id :=
    anchor_planClasses _ _ _
  have hplanned (c : StorageClass) (g : GlobalObject) (hg : g ∈ originals p c) :
      PlannedFor c p.pointerSize o.trapDecoys g.id
        ((anchoredDecoys o p (Members.ofProgram p) pool s).1.filter
          fun d => d.anchor = some g.id) := by
    refine filter_planClasses _ (Members.nodup_ofClass hids) (disjoint_ofClass hids) ?_ _
    rw [Members.get_ofClass_ofProgram]
    exact List.mem_map_of_mem hg
  have hmem : ∀ d ∈ (anchoredDecoys o p (Members.ofProgram p) pool s).1, ∀ id,
      d.anchor = some id → ∃ c, ∃ g ∈ originals p c, g.id = id := by
    intro d hd id hid
    obtain ⟨c, id', hid', heq⟩ := hanchor d hd
    rw [hid, Option.some.injEq] at heq
    rw [Members.get_ofClass_ofProgram, List.mem_map, ← heq] at hid'
    exact ⟨c, hid'⟩
  have hnone : (anchoredDecoys o p (Members.ofProgram p) pool s).1.filter
      (fun d => d.anchor = none) = [] := by
    rw [List.filter_eq_nil_iff]
    intro d hd
    obtain ⟨_, _, _, heq⟩ := hanchor d hd
    simp [heq]
  rcases hdecoys with hsame | ⟨hguard, s', hmore, -⟩
  · exact ⟨hsame ▸ hplanned, hsame ▸ hmem, .inl (hsame ▸ hnone)⟩
  · have hfallback : (fallbackDecoy p.pointerSize s').1.anchor = none := rfl
    refine ⟨fun c g hg => ?_, fun d hd id hid => ?_, .inr ⟨hguard, s', ?_⟩⟩
    · rw [hmore, List.filter_append, List.filter_cons_of_neg (by simp [hfallback])]
      simpa using hplanned c g hg
    · rw [hmore, List.mem_append, List.mem_singleton] at hd
      rcases hd with hd | rfl
      · exact hmem d hd id hid
      · cases hid
    · rw [hmore, List.filter_append, hnone]
      simp [hfallback]

/-! ### Objects in their new order -/

/-- The objects made of the decoys with an anchor, or without one, in the order they were planned. -/
def Decoys.anchoredAt (decoys : Decoys) (anchor : Option Nat) : List GlobalObject :=
  (decoys.filter fun d => d.1.anchor = anchor).map Prod.snd

/-- Objects in a row, each directly behind its decoys. -/
def Decoys.inFrontOf (decoys : Decoys) (objects : List GlobalObject) : List GlobalObject :=
  objects.flatMap fun g => decoys.anchoredAt (some g.id) ++ [g]

/-- All objects in a row, if the members of the classes are in the given order. -/
def Decoys.arrange (decoys : Decoys) (p : Program) (members : PerClass (List GlobalObject)) :
    List GlobalObject :=
  leftOut p ++ decoys.inFrontOf members.rodata ++ decoys.inFrontOf members.data
    ++ decoys.anchoredAt none ++ decoys.inFrontOf members.bss

section Order
variable {decoys : List DecoyPlan} {objects : List GlobalObject}

theorem anchoredAt_placedAs (decoys : List DecoyPlan) (objects : List GlobalObject)
    (anchor : Option Nat) :
    anchoredAt (placedAs decoys objects) anchor
      = (Decoys.anchoredAt (decoys.zip objects) anchor).map GlobalObject.id := by
  simp only [Layout.anchoredAt, placedAs, Decoys.anchoredAt, List.filter_map, List.map_map]
  rfl

theorem orderOf_placedAs (decoys : List DecoyPlan) (objects members : List GlobalObject) :
    orderOf (placedAs decoys objects) (members.map GlobalObject.id)
      = (Decoys.inFrontOf (decoys.zip objects) members).map GlobalObject.id := by
  simp only [orderOf, Decoys.inFrontOf, List.flatMap_map, List.map_flatMap, List.map_append,
    List.map_singleton, anchoredAt_placedAs]

theorem mem_of_mem_inFrontOf {decoys : Decoys} {members : List GlobalObject} {g : GlobalObject}
    (hg : g ∈ decoys.inFrontOf members) : g ∈ members ∨ g ∈ decoys.map Prod.snd := by
  obtain ⟨member, hmember, hg⟩ := List.mem_flatMap.mp hg
  rcases List.mem_append.mp hg with hdecoy | hself
  · exact .inr ((List.filter_sublist.map _).mem hdecoy)
  · rw [List.mem_singleton.mp hself]
    exact .inl hmember

theorem mem_of_mem_arrange {decoys : Decoys} {members : PerClass (List GlobalObject)}
    (hmembers : ∀ c, (members.get c).Perm (originals p c)) {g : GlobalObject}
    (hg : g ∈ decoys.arrange p members) : g ∈ p.globals.elems ++ decoys.map Prod.snd := by
  have hclass (c : StorageClass) (h : g ∈ decoys.inFrontOf (members.get c)) :
      g ∈ p.globals.elems ++ decoys.map Prod.snd := by
    rcases mem_of_mem_inFrontOf h with h | h
    · exact List.mem_append_left _ (mem_globals_of_mem_originals ((hmembers c).mem_iff.mp h))
    · exact List.mem_append_right _ h
  simp only [Decoys.arrange, List.mem_append] at hg
  rcases hg with (((hg | hg) | hg) | hg) | hg
  · exact List.mem_append_left _ (List.mem_of_mem_filter hg)
  · exact hclass .rodata hg
  · exact hclass .data hg
  · exact List.mem_append_right _ ((List.filter_sublist.map _).mem hg)
  · exact hclass .bss hg

/-- The order of a plan names the objects as they are arranged. -/
theorem order_eq_map_arrange {members : PerClass (List GlobalObject)}
    (hexcluded : plan.excluded = (leftOut p).map GlobalObject.id)
    (hmembers : ∀ c, plan.shuffled.get c = (members.get c).map GlobalObject.id) :
    order plan (placedAs decoys objects)
      = (Decoys.arrange (decoys.zip objects) p members).map GlobalObject.id := by
  have hrodata : plan.shuffled.rodata = members.rodata.map GlobalObject.id := hmembers .rodata
  have hdata : plan.shuffled.data = members.data.map GlobalObject.id := hmembers .data
  have hbss : plan.shuffled.bss = members.bss.map GlobalObject.id := hmembers .bss
  simp only [order, Decoys.arrange, hexcluded, hrodata, hdata, hbss, orderOf_placedAs,
    anchoredAt_placedAs, List.map_append]

end Order

/-- A shuffle of the classes is one of their objects. -/
theorem exists_members_of_shuffle (p : Program) (s : RandomStream) :
    ∃ members : PerClass (List GlobalObject), ∀ c, (members.get c).Perm (originals p c) ∧
      (shuffleClasses (Members.ofProgram p).ofClass s).1.get c
        = (members.get c).map GlobalObject.id := by
  have hclass (c : StorageClass) : ∃ objects : List GlobalObject, objects.Perm (originals p c) ∧
      (shuffleClasses (Members.ofProgram p).ofClass s).1.get c
        = objects.map GlobalObject.id := by
    have hperm := shuffleClasses_perm (Members.ofProgram p).ofClass s c
    rw [Members.get_ofClass_ofProgram] at hperm
    obtain ⟨objects, hids, hobjects⟩ :=
      (congrFun₂ (List.eq_map_comp_perm GlobalObject.id) _ _).mpr hperm
    exact ⟨objects, hobjects, hids⟩
  obtain ⟨rodata, hrodata⟩ := hclass .rodata
  obtain ⟨data, hdata⟩ := hclass .data
  obtain ⟨bss, hbss⟩ := hclass .bss
  refine ⟨⟨rodata, data, bss⟩, fun c => ?_⟩
  cases c with
  | rodata => exact hrodata
  | data => exact hdata
  | bss => exact hbss

/-- Lists of objects with distinct IDs are equal if their IDs are. -/
theorem eq_of_map_id_eq {pool xs ys : List GlobalObject} (hids : (pool.map GlobalObject.id).Nodup)
    (hxs : ∀ g ∈ xs, g ∈ pool) (hys : ∀ g ∈ ys, g ∈ pool)
    (h : xs.map GlobalObject.id = ys.map GlobalObject.id) : xs = ys := by
  induction xs generalizing ys with
  | nil => exact (List.map_eq_nil_iff.mp h.symm).symm
  | cons x rest ih =>
    obtain ⟨y, others, rfl, hid, hrest⟩ := List.map_eq_cons_iff.mp h.symm
    rw [List.forall_mem_cons] at hxs hys
    rw [List.inj_on_of_nodup_map hids hys.1 hxs.1 hid, ih hxs.2 hys.2 hrest.symm]

end Layout

namespace LayoutRandomizer
open Layout

variable {r : LayoutRandomizer} {stream : RandomStream} {p : Program} {changed : Bool}

/-- After a successful run the objects are those of the program and the decoys of the plan, no two with one ID,
and they are arranged anew: the ones that are left out in their old order, then class by class the members
in some order, each directly behind the decoys that were planned for it. A decoy that only the guard needs
is the last object of the data class. -/
theorem globals_eq_arrange (hon : r.options.randomization = true)
    (hok : (r.runWith stream p).outcome = .ok changed) :
    ∃ (decoys : Decoys) (members : PerClass (List GlobalObject)),
      Added r stream p decoys ∧ Anchored r.options p (decoys.map Prod.fst) ∧
      (∀ c, (members.get c).Perm (originals p c)) ∧
      (r.runWith stream p).program.globals.elems = decoys.arrange p members ∧
      (r.runWith stream p).program.globals.ids.Nodup := by
  obtain ⟨warnings, plan, s, hplan, hcarry, hprogram, -⟩ := runWith_eq_ok hon hok
  obtain ⟨objects, hmade, hobjects, hids, hnodup, -⟩ := carryOut_eq_none hcarry
  have hfst : (plan.decoys.zip objects).map Prod.fst = plan.decoys :=
    List.map_fst_zip (Nat.le_of_eq hmade.length_eq)
  have hsnd : (plan.decoys.zip objects).map Prod.snd = objects :=
    List.map_snd_zip (Nat.le_of_eq hmade.length_eq.symm)
  -- The new order names every object once, so the objects had distinct IDs from the start.
  have hpool : ((p.globals.elems ++ objects).map GlobalObject.id).Nodup :=
    (hobjects.map GlobalObject.id).nodup_iff.mp hnodup
  have hold : p.globals.ids.Nodup := hpool.sublist ((List.sublist_append_left _ _).map _)
  obtain ⟨pool, -, -, -, hwith⟩ := plan_eq_ok hplan
  obtain ⟨hexcluded, hshuffled, -⟩ := planWith_eq_ok hwith
  obtain ⟨members, hmembers⟩ := exists_members_of_shuffle p stream
  have hperm := fun c => (hmembers c).1
  refine ⟨plan.decoys.zip objects, members, ⟨⟨warnings, plan, hplan, hfst⟩, hmade.eq_decoyObject, ?_⟩,
    ?_, hperm, ?_, hprogram ▸ hnodup⟩
  · rw [hprogram, hsnd]
    exact hobjects
  · rw [hfst]
    exact .of_plan hold hplan
  · rw [hprogram]
    apply eq_of_map_id_eq hpool fun g hg => hobjects.mem_iff.mp hg
    · intro g hg
      have hmem := mem_of_mem_arrange hperm hg
      rwa [hsnd] at hmem
    · rw [← order_eq_map_arrange (hexcluded.trans (Members.excluded_ofProgram p))
        fun c => (congrArg (PerClass.get · c) hshuffled).trans (hmembers c).2]
      exact hids

/-- A program with zero-initialized bytes and a declaration behind them. -/
def zerosProgram : Program :=
  let empty : Program := (Program.new 4).toOption.getD { pointerSize := 4 }
  let zeros := (empty.addGlobal { name := "zeros", size := 8, initializer := some .zero }).1
  (zeros.addGlobal { name := "declared", size := 16 }).1

/-- A randomizer that leaves four bytes to the decoys of that program, and room for a decoy of the guard. -/
def tightRandomizer : LayoutRandomizer :=
  { options := { randomization := true, guard := true, maxRodata := 0, maxData := 32, maxBss := 12 } }

/-- The declaration comes first, then the decoy of the guard, and the zeros stand behind a decoy of their own. -/
theorem globals_eq_arrange_zeros :
    (∃ (decoys : Decoys) (members : PerClass (List GlobalObject)),
      Added tightRandomizer constantStream zerosProgram decoys ∧
      (members.get .bss).Perm (originals zerosProgram .bss) ∧
      (tightRandomizer.runWith constantStream zerosProgram).program.globals.elems
        = decoys.arrange zerosProgram members) ∧
    (tightRandomizer.runWith constantStream zerosProgram).program.globals.elems.map GlobalObject.size
      = [16, 32, 4, 8] := by
  have hok : (tightRandomizer.runWith constantStream zerosProgram).outcome = .ok true := by
    decide +kernel
  obtain ⟨decoys, members, hadded, -, hperm, helems, -⟩ := globals_eq_arrange rfl hok
  exact ⟨⟨decoys, members, hadded, hperm .bss, helems⟩, by decide +kernel⟩

end LayoutRandomizer
end ThumbHardening
