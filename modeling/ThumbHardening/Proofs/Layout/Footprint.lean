import ThumbHardening.Proofs.Layout.Atomic
import ThumbHardening.Proofs.Layout.Distribution
import ThumbHardening.Proofs.Layout.Order

/-!
# Footprints

The capacity of a class is a number of bytes, and the randomizer adds up sizes. Where the objects come to lie
depends on their alignment as well: each starts at a multiple of it, and what is left open in front of it
counts for the region but not for the capacity. So a class that is within its capacity may end behind it, by
as much as its objects leave open. Full decoys lie close together, so that is at most one block for the
decoys in front of an object, and less than its alignment for the object itself.
-/

namespace ThumbHardening
namespace Layout
open Address

/-! ### Objects one behind the other -/

/-- Where objects end that are placed from `start` on, each at the next multiple of its alignment. -/
def endAddress : List GlobalObject → (start : Nat) → Nat
  | [], start => start
  | g :: rest, start => endAddress rest (roundUp start g.align + g.size)

/-- The bytes that objects take up in a region whose start suits all alignments. -/
def footprint (objects : List GlobalObject) : Nat :=
  endAddress objects 0

/-- The bytes that stay open in front of objects that are placed from `start` on. -/
def padding : List GlobalObject → (start : Nat) → Nat
  | [], _ => 0
  | g :: rest, start => roundUp start g.align - start + padding rest (roundUp start g.align + g.size)

theorem endAddress_eq (objects : List GlobalObject) (start : Nat) :
    endAddress objects start = start + totalSize objects + padding objects start := by
  induction objects generalizing start with
  | nil => rfl
  | cons g rest ih =>
    have hle := le_roundUp start g.align
    rw [endAddress, ih, padding, totalSize_cons]
    omega

/-- A footprint is made up of the objects and of what they leave open. -/
theorem footprint_eq (objects : List GlobalObject) :
    footprint objects = totalSize objects + padding objects 0 := by
  rw [footprint, endAddress_eq, Nat.zero_add]

theorem totalSize_le_footprint (objects : List GlobalObject) : totalSize objects ≤ footprint objects := by
  rw [footprint_eq]
  exact Nat.le_add_right _ _

theorem padding_append (xs ys : List GlobalObject) (start : Nat) :
    padding (xs ++ ys) start = padding xs start + padding ys (endAddress xs start) := by
  induction xs generalizing start with
  | nil => simp [padding, endAddress]
  | cons g rest ih => rw [List.cons_append, padding, padding, ih, endAddress, Nat.add_assoc]

theorem padding_singleton_le (g : GlobalObject) (start : Nat) : padding [g] start ≤ g.align - 1 := by
  have := roundUp_le_add start g.align
  simp only [padding]
  omega

/-! ### Decoys one behind the other -/

variable {ptr bytes start : Nat} {decoys : Decoys}

/-- Full decoys come first, and perhaps a smaller one is the last. -/
theorem Fills.cases {first : DecoyPlan} {rest : List DecoyPlan} (h : Fills ptr bytes (first :: rest)) :
    (first.Full ∧ ∃ left, Fills ptr left rest) ∨ first.Remainder ptr ∧ rest = [] := by
  cases rest with
  | nil => exact (h.last first rfl).imp (fun hfull => ⟨hfull, 0, .nil ptr⟩) fun hlast => ⟨hlast, rfl⟩
  | cons second rest =>
    refine .inl ⟨h.full first (by simp), _, rfl, fun d hd => h.full d ?_, fun d hd => h.last d ?_⟩
    · rw [List.dropLast_cons_cons]
      exact List.mem_cons_of_mem _ hd
    · rwa [List.getLast?_cons_cons]

/-- That the objects of decoys are as large as planned and start where planned. -/
def Decoys.Placed (decoys : Decoys) : Prop :=
  ∀ d ∈ decoys, d.2.size = d.1.size ∧ d.2.align = d.1.align

/-- Behind a block boundary decoys leave nothing open. -/
theorem padding_eq_zero_of_fills (hptr : IsPointerSize ptr) (hplaced : decoys.Placed)
    (h : Fills ptr bytes (decoys.map Prod.fst)) (hstart : 32 ∣ start) :
    padding (decoys.map Prod.snd) start = 0 := by
  induction decoys generalizing bytes start with
  | nil => rfl
  | cons d rest ih =>
    obtain ⟨⟨hsize, halign⟩, hrest⟩ := List.forall_mem_cons.mp hplaced
    rw [List.map_cons, padding, halign, hsize]
    rcases h.cases with ⟨hfull, left, hleft⟩ | ⟨hlast, hnone⟩
    · rw [hfull.align_eq, hfull.size_eq, roundUp_of_dvd (by decide) hstart, Nat.sub_self,
        ih hrest hleft (Nat.dvd_add hstart (Nat.dvd_refl 32))]
    · have hdvd : ptr ∣ start := hptr.dvd_decoyBlockSize.trans hstart
      rw [hlast.align_eq, roundUp_of_dvd hptr.pos hdvd, Nat.sub_self,
        List.map_eq_nil_iff.mp hnone]
      rfl

/-- Only the first of several decoys may leave something open. -/
theorem padding_le_of_fills (hptr : IsPointerSize ptr) (hplaced : decoys.Placed)
    (h : Fills ptr bytes (decoys.map Prod.fst)) (start : Nat) :
    padding (decoys.map Prod.snd) start ≤ 31 := by
  cases decoys with
  | nil => exact Nat.zero_le _
  | cons d rest =>
    obtain ⟨⟨hsize, halign⟩, hrest⟩ := List.forall_mem_cons.mp hplaced
    rw [List.map_cons, padding, halign, hsize]
    rcases h.cases with ⟨hfull, left, hleft⟩ | ⟨hlast, hnone⟩
    · have hopen := roundUp_le_add start 32
      rw [hfull.align_eq, hfull.size_eq, padding_eq_zero_of_fills hptr hrest hleft
        (Nat.dvd_add (dvd_roundUp start (by decide)) (Nat.dvd_refl 32))]
      omega
    · have hopen := roundUp_le_add start ptr
      have hsmall : ptr ≤ 8 := by rcases hptr with rfl | rfl <;> decide
      rw [hlast.align_eq, List.map_eq_nil_iff.mp hnone]
      simp only [List.map_nil, padding]
      omega

/-- What objects leave open if decoys in front of an object leave open no more than one block. -/
theorem padding_flatMap_le {decoysOf : GlobalObject → List GlobalObject} (objects : List GlobalObject)
    (hdecoys : ∀ g ∈ objects, ∀ start, padding (decoysOf g) start ≤ 31) (start : Nat) :
    padding (objects.flatMap fun g => decoysOf g ++ [g]) start
      ≤ (objects.map fun g => (if decoysOf g = [] then 0 else 31) + (g.align - 1)).sum := by
  induction objects generalizing start with
  | nil => exact Nat.le_refl 0
  | cons g rest ih =>
    obtain ⟨hg, hrest⟩ := List.forall_mem_cons.mp hdecoys
    rw [List.flatMap_cons, padding_append, padding_append, List.map_cons, List.sum_cons]
    have hfirst : padding (decoysOf g) start ≤ if decoysOf g = [] then 0 else 31 := by
      split
      · next hnil => rw [hnil, padding]
      · exact hg start
    have hself := padding_singleton_le g (endAddress (decoysOf g) start)
    have hlater := ih hrest (endAddress (decoysOf g ++ [g]) start)
    omega

/-! ### The region of a class -/

theorem eq_of_isMember {c c' : StorageClass} {g : GlobalObject} (h : isMember c g = true)
    (h' : isMember c' g = true) : c = c' :=
  Option.some.inj ((memberClass?_eq_some_iff.mpr h).symm.trans (memberClass?_eq_some_iff.mpr h'))

theorem isMember_of_isLeftOut {g : GlobalObject} (h : isLeftOut g = true) (c : StorageClass) :
    isMember c g = false := by
  refine Bool.eq_false_of_not_eq_true fun hmember => ?_
  have hsome := memberClass?_eq_some_iff.mpr hmember
  rw [memberClass?_eq_none_iff.mpr h] at hsome
  cases hsome

/-- A decoy is randomized within the class that it was planned for, if ever again. -/
theorem isMember_decoyObject {d : DecoyPlan} (hsound : d.Sound ptr) (c : StorageClass) (name : String)
    (id : Nat) : isMember c { decoyObject name d with id } = decide (d.storage = c) := by
  have hclass : StorageClass.of? { decoyObject name d with id } = some d.storage := hsound.class_eq name
  have hsection : Members.sectionFits c { decoyObject name d with id } = true := rfl
  simp [isMember, hclass, hsection]

/-- The decoys of a class that stand in front of no object. -/
def Decoys.extra (decoys : Decoys) (c : StorageClass) : List GlobalObject :=
  if c = .data then decoys.anchoredAt none else []

/-- A program in which decoys stand in front of the objects of another one. -/
structure Decoys.Within (decoys : Decoys) (o : Options) (p : Program) (members : PerClass (List GlobalObject))
    (q : Program) : Prop where
  perm : ∀ c, (members.get c).Perm (originals p c)
  elems : q.globals.elems = decoys.arrange p members
  objects : q.globals.elems.Perm (p.globals.elems ++ decoys.map Prod.snd)
  made : ∀ d ∈ decoys, ∃ name id, d.2 = { decoyObject name d.1 with id }
  sound : ∀ d ∈ decoys, d.1.Sound p.pointerSize
  anchored : Anchored o p (decoys.map Prod.fst)

namespace Decoys.Within

variable {o : Options} {p q : Program} {members : PerClass (List GlobalObject)} {c : StorageClass}
  {g : GlobalObject}

theorem isMember_eq (h : decoys.Within o p members q) {d : DecoyPlan × GlobalObject} (hd : d ∈ decoys)
    (c : StorageClass) : isMember c d.2 = decide (d.1.storage = c) := by
  obtain ⟨name, id, hobject⟩ := h.made d hd
  rw [hobject]
  exact isMember_decoyObject (h.sound d hd) c name id

theorem placed (h : decoys.Within o p members q) : decoys.Placed := by
  intro d hd
  obtain ⟨name, id, hobject⟩ := h.made d hd
  rw [hobject]
  exact ⟨rfl, rfl⟩

theorem decoy_of_mem_anchoredAt (h : decoys.Within o p members q) {anchor : Option Nat} {x : GlobalObject}
    (hx : x ∈ decoys.anchoredAt anchor) : x.decoy = true := by
  obtain ⟨d, hd, rfl⟩ := List.mem_map.mp hx
  obtain ⟨name, id, hobject⟩ := h.made d (List.mem_of_mem_filter hd)
  rw [hobject]
  rfl

/-- The sizes of a class afterwards. -/
theorem totalSize_eq (h : decoys.Within o p members q) (c : StorageClass) :
    totalSize (originals q c) = totalSize (originals p c) + decoys.bytes c := by
  have hperm : (originals q c).Perm (originals p c ++ (decoys.map Prod.snd).filter (isMember c)) := by
    rw [originals, originals, ← List.filter_append]
    exact h.objects.filter _
  have hdecoys : (decoys.map Prod.snd).filter (isMember c)
      = (decoys.filter fun d => d.1.storage = c).map Prod.snd := by
    rw [List.filter_map]
    exact congrArg _ (List.filter_congr fun d hd => h.isMember_eq hd c)
  rw [Decoys.bytes, ← hdecoys, ← totalSize_append]
  exact (hperm.map GlobalObject.size).sum_eq

/-- The plans of the decoys in front of an object. -/
theorem plannedFor (h : decoys.Within o p members q) (hg : g ∈ originals p c) :
    PlannedFor c p.pointerSize o.trapDecoys g.id
      ((decoys.filter fun d => d.1.anchor = some g.id).map Prod.fst) := by
  have hplanned := h.anchored.planned c g hg
  rwa [List.filter_map] at hplanned

theorem isMember_of_mem_inFrontOf (h : decoys.Within o p members q) (hptr : IsPointerSize p.pointerSize)
    {x : GlobalObject} (hx : x ∈ decoys.inFrontOf (members.get c)) : isMember c x = true := by
  obtain ⟨g, hg, hx⟩ := List.mem_flatMap.mp hx
  have hg := (h.perm c).mem_iff.mp hg
  rcases List.mem_append.mp hx with hx | hx
  · obtain ⟨d, hd, rfl⟩ := List.mem_map.mp hx
    obtain ⟨units, state, hplan⟩ := h.plannedFor hg
    have hmem : d.1 ∈ (decoys.filter fun d => d.1.anchor = some g.id).map Prod.fst := List.mem_map_of_mem hd
    rw [hplan] at hmem
    have hstorage := (planDecoys_sound hptr c o.trapDecoys g.id (hptr.dvd_wrap_mul units) state d.1 hmem).1
    rw [h.isMember_eq (List.mem_of_mem_filter hd), hstorage, decide_eq_true rfl]
  · rw [List.mem_singleton.mp hx]
    exact List.of_mem_filter hg

theorem isMember_of_mem_anchoredAt (h : decoys.Within o p members q) {x : GlobalObject}
    (hx : x ∈ decoys.anchoredAt none) : isMember .data x = true := by
  obtain ⟨d, hd, rfl⟩ := List.mem_map.mp hx
  rw [h.isMember_eq (List.mem_of_mem_filter hd)]
  have hmem : d.1 ∈ (decoys.map Prod.fst).filter fun d => d.anchor = none := by
    rw [List.filter_map]
    exact List.mem_map_of_mem hd
  rcases h.anchored.unanchored with hnil | ⟨-, s, hsingle⟩
  · rw [hnil] at hmem
    cases hmem
  · rw [hsingle] at hmem
    rw [List.mem_singleton.mp hmem]
    rfl

/-- A class afterwards: each object behind its decoys, and at the end of the data class the decoy that only the
guard needs. -/
theorem originals_eq (h : decoys.Within o p members q) (hptr : IsPointerSize p.pointerSize) (c : StorageClass) :
    originals q c = decoys.inFrontOf (members.get c) ++ decoys.extra c := by
  have hleft : (leftOut p).filter (isMember c) = [] :=
    List.filter_eq_nil_iff.mpr fun g hg => by simp [isMember_of_isLeftOut (List.of_mem_filter hg)]
  have hclass (c' : StorageClass) : (decoys.inFrontOf (members.get c')).filter (isMember c)
      = if c' = c then decoys.inFrontOf (members.get c') else [] := by
    split
    · next heq =>
      subst heq
      exact List.filter_eq_self.mpr fun x hx => h.isMember_of_mem_inFrontOf hptr hx
    · next hne =>
      exact List.filter_eq_nil_iff.mpr fun x hx hmember =>
        hne (eq_of_isMember (h.isMember_of_mem_inFrontOf hptr hx) hmember)
  have hextra : (decoys.anchoredAt none).filter (isMember c) = decoys.extra c := by
    rw [Decoys.extra]
    split
    · next heq =>
      subst heq
      exact List.filter_eq_self.mpr fun x hx => h.isMember_of_mem_anchoredAt hx
    · next hne =>
      exact List.filter_eq_nil_iff.mpr fun x hx hmember =>
        hne (eq_of_isMember hmember (h.isMember_of_mem_anchoredAt hx))
  have hrodata := hclass .rodata
  have hdata := hclass .data
  have hbss := hclass .bss
  simp only [PerClass.get] at hrodata hdata hbss
  rw [originals, h.elems, Decoys.arrange]
  simp only [List.filter_append, hleft, hrodata, hdata, hbss, hextra]
  cases c <;> simp [PerClass.get, Decoys.extra]

/-- The decoys in front of an object fill a space, and so do those without an anchor. -/
theorem fills_of_mem (h : decoys.Within o p members q) (hptr : IsPointerSize p.pointerSize)
    (hg : g ∈ originals p c) :
    ∃ bytes, Fills p.pointerSize bytes ((decoys.filter fun d => d.1.anchor = some g.id).map Prod.fst) := by
  obtain ⟨units, state, hplan⟩ := h.plannedFor hg
  rw [hplan]
  exact ⟨_, fills_planDecoys c o.trapDecoys g.id (hptr.dvd_wrap_mul units) hptr state⟩

theorem fills_unanchored (h : decoys.Within o p members q) :
    ∃ bytes, Fills p.pointerSize bytes ((decoys.filter fun d => d.1.anchor = none).map Prod.fst) := by
  have hanchored := h.anchored.unanchored
  rw [List.filter_map] at hanchored
  rcases hanchored with hnil | ⟨-, s, hsingle⟩
  · exact ⟨0, hnil ▸ .nil _⟩
  · have hfull : (fallbackDecoy p.pointerSize s).1.Full := ⟨rfl, rfl⟩
    exact ⟨_, hsingle ▸ (Fills.nil _).cons hfull⟩

theorem decoy_of_mem_extra (h : decoys.Within o p members q) {x : GlobalObject} (hx : x ∈ decoys.extra c) :
    x.decoy = true := by
  rw [Decoys.extra] at hx
  split at hx
  · exact h.decoy_of_mem_anchoredAt hx
  · cases hx

theorem extra_cases (h : decoys.Within o p members q) (c : StorageClass) :
    decoys.extra c = [] ∨ c = .data ∧ o.guard = true := by
  rw [Decoys.extra]
  split
  · next hdata =>
    refine h.anchored.unanchored.imp (fun hnil => ?_) fun hguard => ⟨hdata, hguard.1⟩
    rw [List.filter_map, List.map_eq_nil_iff] at hnil
    exact List.map_eq_nil_iff.mpr hnil
  · exact .inl rfl

/-- A class that no decoy was planned for only has a new order. -/
theorem originals_eq_members (h : decoys.Within o p members q) (hptr : IsPointerSize p.pointerSize)
    (hnone : ∀ g ∈ originals p c, decoys.anchoredAt (some g.id) = []) (hextra : decoys.extra c = []) :
    originals q c = members.get c := by
  have hbare : decoys.inFrontOf (members.get c) = (members.get c).flatMap ([·]) :=
    List.flatMap_congr fun g hg => by rw [hnone g ((h.perm c).mem_iff.mp hg), List.nil_append]
  rw [h.originals_eq hptr, hbare, List.flatMap_singleton', hextra, List.append_nil]

/-- What the objects of a class leave open afterwards: no more than one block in front of the decoys of an
object, less than its alignment in front of the object, and no more than one block in front of the decoy that
only the guard needs. -/
theorem padding_le (h : decoys.Within o p members q) (hptr : IsPointerSize p.pointerSize) (c : StorageClass) :
    padding (originals q c) 0
      ≤ ((originals p c).map fun g =>
          (if decoys.anchoredAt (some g.id) = [] then 0 else 31) + (g.align - 1)).sum
        + if decoys.extra c = [] then 0 else 31 := by
  have hplaced (anchor : Option Nat) : Decoys.Placed (decoys.filter fun d => d.1.anchor = anchor) :=
    fun d hd => h.placed d (List.mem_of_mem_filter hd)
  have hdecoys : ∀ g ∈ members.get c, ∀ start, padding (decoys.anchoredAt (some g.id)) start ≤ 31 := by
    intro g hg start
    obtain ⟨bytes, hfills⟩ := h.fills_of_mem hptr ((h.perm c).mem_iff.mp hg)
    exact padding_le_of_fills hptr (hplaced _) hfills start
  have hextra (start : Nat) : padding (decoys.extra c) start ≤ if decoys.extra c = [] then 0 else 31 := by
    split
    · next hnil => rw [hnil, padding]
    · next hne =>
      have hdata : c = .data := by
        by_contra hother
        exact hne (if_neg hother)
      obtain ⟨bytes, hfills⟩ := h.fills_unanchored
      rw [Decoys.extra, if_pos hdata]
      exact padding_le_of_fills hptr (hplaced _) hfills start
  have hmembers := padding_flatMap_le (members.get c) hdecoys 0
  rw [((h.perm c).map _).sum_eq] at hmembers
  rw [h.originals_eq hptr, padding_append]
  exact Nat.add_le_add hmembers (hextra _)

end Decoys.Within

end Layout

/-! ### Runs of the randomizer -/

namespace LayoutRandomizer
open Layout

variable {r : LayoutRandomizer} {stream : RandomStream} {p : Program} {changed : Bool} {c : StorageClass}

/-- After a successful run the decoys of its plan stand in front of the objects. -/
theorem exists_within (hptr : IsPointerSize p.pointerSize) (hon : r.options.randomization = true)
    (hok : (r.runWith stream p).outcome = .ok changed) :
    ∃ (decoys : Decoys) (members : PerClass (List GlobalObject)) (plan : Plan),
      decoys.Within r.options p members (r.runWith stream p).program ∧
      plan.WithinBudget r.options p.pointerSize (Members.ofProgram p).statistics.bytes ∧
      ∀ c, decoys.bytes c = plannedBytes c plan.decoys := by
  obtain ⟨warnings, plan, s, hplan, hcarry, hprogram, -⟩ := runWith_eq_ok hon hok
  obtain ⟨objects, hmade, hobjects, hids, hnodup, -⟩ := carryOut_eq_none hcarry
  have hfst : (plan.decoys.zip objects).map Prod.fst = plan.decoys :=
    List.map_fst_zip (Nat.le_of_eq hmade.length_eq)
  have hsnd : (plan.decoys.zip objects).map Prod.snd = objects :=
    List.map_snd_zip (Nat.le_of_eq hmade.length_eq.symm)
  have hpool : ((p.globals.elems ++ objects).map GlobalObject.id).Nodup :=
    (hobjects.map GlobalObject.id).nodup_iff.mp hnodup
  have hold : p.globals.ids.Nodup := hpool.sublist ((List.sublist_append_left _ _).map _)
  have hbudget := withinBudget_of_plan hptr (Members.nodup_ofClass hold) hplan
  obtain ⟨pool, -, -, -, hwith⟩ := plan_eq_ok hplan
  obtain ⟨hexcluded, hshuffled, -⟩ := planWith_eq_ok hwith
  obtain ⟨members, hmembers⟩ := exists_members_of_shuffle p stream
  have helems : s.program.globals.elems = Decoys.arrange (plan.decoys.zip objects) p members := by
    apply eq_of_map_id_eq hpool fun g hg => hobjects.mem_iff.mp hg
    · intro g hg
      have hmem := mem_of_mem_arrange (fun c => (hmembers c).1) hg
      rwa [hsnd] at hmem
    · rw [← order_eq_map_arrange (hexcluded.trans (Members.excluded_ofProgram p))
        fun c => (congrArg (PerClass.get · c) hshuffled).trans (hmembers c).2]
      exact hids
  refine ⟨plan.decoys.zip objects, members, plan, ⟨fun c => (hmembers c).1, ?_, ?_, hmade.eq_decoyObject, ?_, ?_⟩,
    hbudget, hmade.bytes_zip⟩
  · rw [hprogram, helems]
  · rw [hprogram, hsnd]
    exact hobjects
  · intro d hd
    exact hbudget.sound d.1 (List.of_mem_zip hd).1
  · rw [hfst]
    exact .of_plan hold hplan

/-- How a class lies in memory after a successful run if its objects fit in every order. The sizes of objects
and decoys stay within the capacity. Their footprint does so exactly if what they leave open is no more than
the sizes leave of the capacity, and of that there is less than a block for the decoys in front of an object
or those of the guard, and less than the alignment for the object itself. Without decoys the class fits. -/
theorem footprint_runWith (hptr : IsPointerSize p.pointerSize) (hcapacity : c.capacity r.options < 2 ^ 64)
    (hfits : ∀ objects, objects.Perm (originals p c) → footprint objects ≤ c.capacity r.options)
    (hok : (r.runWith stream p).outcome = .ok changed) :
    ∃ (decoysOf : GlobalObject → List GlobalObject) (members extra : List GlobalObject),
      members.Perm (originals p c) ∧
      originals (r.runWith stream p).program c = (members.flatMap fun g => decoysOf g ++ [g]) ++ extra ∧
      (∀ g ∈ originals p c, ∀ d ∈ decoysOf g, d.decoy = true) ∧ (∀ d ∈ extra, d.decoy = true) ∧
      (extra = [] ∨ c = .data ∧ r.options.guard = true) ∧
      totalSize (originals (r.runWith stream p).program c) ≤ c.capacity r.options ∧
      (footprint (originals (r.runWith stream p).program c) ≤ c.capacity r.options ↔
        padding (originals (r.runWith stream p).program c) 0
          ≤ c.capacity r.options - totalSize (originals (r.runWith stream p).program c)) ∧
      padding (originals (r.runWith stream p).program c) 0
        ≤ ((originals p c).map fun g => (if decoysOf g = [] then 0 else 31) + (g.align - 1)).sum
          + (if extra = [] then 0 else 31) ∧
      ((∀ g ∈ originals p c, decoysOf g = []) → extra = [] →
        footprint (originals (r.runWith stream p).program c) ≤ c.capacity r.options) := by
  have hused : totalSize (originals p c) ≤ c.capacity r.options :=
    (totalSize_le_footprint _).trans (hfits _ (.refl _))
  have hiff (objects : List GlobalObject) (hsizes : totalSize objects ≤ c.capacity r.options) :
      footprint objects ≤ c.capacity r.options
        ↔ padding objects 0 ≤ c.capacity r.options - totalSize objects := by
    rw [footprint_eq]
    omega
  cases hon : r.options.randomization with
  | false =>
    have hsame : (r.runWith stream p).program = p := by simp [runWith, hon]
    have hflat : (originals p c).flatMap (fun g => [] ++ [g]) = originals p c := List.flatMap_singleton' _
    have hbare : ∀ g ∈ originals p c, ∀ start, padding ((fun _ : GlobalObject => []) g) start ≤ 31 :=
      fun _ _ _ => Nat.zero_le _
    have hopen := padding_flatMap_le (originals p c) hbare 0
    rw [hflat] at hopen
    rw [hsame]
    exact ⟨fun _ => [], originals p c, [], .refl _, by rw [hflat, List.append_nil], by simp, by simp, .inl rfl,
      hused, hiff _ hused, hopen, fun _ _ => hfits _ (.refl _)⟩
  | true =>
    obtain ⟨decoys, members, plan, hwithin, hbudget, hbytes⟩ := exists_within hptr hon hok
    have hsizes : totalSize (originals (r.runWith stream p).program c) ≤ c.capacity r.options := by
      rw [hwithin.totalSize_eq, hbytes, ← Members.get_bytes_ofProgram_of_lt (hused.trans_lt hcapacity)]
      exact hbudget.fits c
    refine ⟨fun g => decoys.anchoredAt (some g.id), members.get c, decoys.extra c, hwithin.perm c,
      hwithin.originals_eq hptr c, fun g _ d hd => hwithin.decoy_of_mem_anchoredAt hd,
      fun d hd => hwithin.decoy_of_mem_extra hd, hwithin.extra_cases c, hsizes, hiff _ hsizes,
      hwithin.padding_le hptr c, fun hnone hextra => ?_⟩
    rw [hwithin.originals_eq_members hptr hnone hextra]
    exact hfits _ (hwithin.perm c)

/-- A table of 20 bytes and its decoys take up no more than 100 bytes, and leave open at most two blocks. -/
theorem footprint_runWith_small_table :
    IsPointerSize (tableProgram 20).pointerSize ∧
      (∀ objects, objects.Perm (originals (tableProgram 20) .data) → footprint objects ≤ 100) ∧
      totalSize (originals ((guardRandomizer 100).runWith constantStream (tableProgram 20)).program .data) ≤ 100 ∧
      padding (originals ((guardRandomizer 100).runWith constantStream (tableProgram 20)).program .data) 0
        ≤ 62 := by
  have hptr : IsPointerSize (tableProgram 20).pointerSize := .inl rfl
  have hfits : ∀ objects, objects.Perm (originals (tableProgram 20) .data) → footprint objects ≤ 100 := by
    intro objects hperm
    obtain ⟨table, htable⟩ : ∃ table, originals (tableProgram 20) .data = [table] := ⟨_, rfl⟩
    have hfootprint : footprint (originals (tableProgram 20) .data) ≤ 100 := by decide +kernel
    rw [htable] at hperm hfootprint
    rwa [List.perm_singleton.mp hperm]
  have hok : ((guardRandomizer 100).runWith constantStream (tableProgram 20)).outcome = .ok true := by
    decide +kernel
  obtain ⟨decoysOf, members, extra, -, -, -, -, -, hsizes, -, hopen, -⟩ :=
    footprint_runWith (r := guardRandomizer 100) (c := .data) hptr (by decide) hfits hok
  refine ⟨hptr, hfits, hsizes, hopen.trans ?_⟩
  have halign : (originals (tableProgram 20) .data).map GlobalObject.align = [1] := by decide
  obtain ⟨table, htable, halign⟩ := List.map_eq_singleton_iff.mp halign
  rw [htable, List.map_singleton, List.sum_singleton, halign]
  split <;> split <;> decide

/-- A program with a table of four bytes at a multiple of eight. -/
def alignedProgram : Program :=
  let empty : Program := (Program.new 4).toOption.getD { pointerSize := 4 }
  (empty.addGlobal { name := "table", size := 4, align := 8, initializer := some (.bytes [1]) }).1

/-- The table fits 16 bytes. The decoy that fills the other twelve bytes stands in front of it, so the table
starts at 16 and ends at 20. -/
theorem footprint_runWith_exceeds_capacity :
    IsPointerSize alignedProgram.pointerSize ∧
      (∀ objects, objects.Perm (originals alignedProgram .data) → footprint objects ≤ 16) ∧
      ((decoyRandomizer 16).runWith constantStream alignedProgram).outcome = .ok true ∧
      StorageClass.data.capacity (decoyRandomizer 16).options = 16 ∧
      footprint (originals ((decoyRandomizer 16).runWith constantStream alignedProgram).program .data) = 20 := by
  refine ⟨.inl rfl, fun objects hperm => ?_, by decide +kernel, rfl, by decide +kernel⟩
  obtain ⟨table, htable⟩ : ∃ table, originals alignedProgram .data = [table] := ⟨_, rfl⟩
  have hfootprint : footprint (originals alignedProgram .data) ≤ 16 := by decide +kernel
  rw [htable] at hperm hfootprint
  rwa [List.perm_singleton.mp hperm]

end LayoutRandomizer
end ThumbHardening
