import ThumbHardening.Proofs.Layout.Arrangement
import Mathlib.Data.List.Perm.Basic

/-!
# The order of a plan

Every object belongs to one class or to none, and every decoy has one anchor or none. So the order that a plan
asks for names each object and each decoy once, and a program can be brought into it.
-/

namespace ThumbHardening
namespace Layout

/-- Sorting a list into groups by a key loses nothing. -/
theorem perm_flatMap_filter {α κ : Type} [DecidableEq κ] (key : α → κ) {keys : List κ} (hkeys : keys.Nodup)
    {xs : List α} (hmem : ∀ x ∈ xs, key x ∈ keys) :
    (keys.flatMap fun k => xs.filter fun x => key x = k).Perm xs := by
  induction keys generalizing xs with
  | nil =>
    rw [List.eq_nil_iff_forall_not_mem.mpr fun x hx => nomatch hmem x hx]
    exact .refl _
  | cons first rest ih =>
    obtain ⟨hnew, hrest⟩ := List.nodup_cons.mp hkeys
    have hothers : (rest.flatMap fun k => xs.filter fun x => key x = k)
        = rest.flatMap fun k => (xs.filter fun x => !decide (key x = first)).filter fun x => key x = k := by
      refine List.flatMap_congr fun k hk => ?_
      rw [List.filter_filter]
      refine List.filter_congr fun x _ => ?_
      by_cases hx : key x = k
      · have hne : key x ≠ first := by
          rintro rfl
          exact hnew (hx ▸ hk)
        simp [hx, hx ▸ hne]
      · simp [hx]
    have hleft : ∀ x ∈ xs.filter (fun x => !decide (key x = first)), key x ∈ rest := by
      intro x hx
      obtain ⟨hx, hne⟩ := List.mem_filter.mp hx
      exact (List.mem_cons.mp (hmem x hx)).resolve_left (by simpa using hne)
    rw [List.flatMap_cons, hothers]
    exact ((ih hrest hleft).append_left _).trans (List.filter_append_perm (fun x => key x = first) xs)

/-- The class that an object is randomized in, if any. -/
def memberClass? (g : GlobalObject) : Option StorageClass :=
  (StorageClass.of? g).filter fun c => Members.sectionFits c g

theorem memberClass?_eq_some_iff {g : GlobalObject} {c : StorageClass} :
    memberClass? g = some c ↔ isMember c g = true := by
  rw [memberClass?, Option.filter_eq_some_iff, isMember, Bool.and_eq_true, decide_eq_true_iff]

theorem memberClass?_eq_none_iff {g : GlobalObject} : memberClass? g = none ↔ isLeftOut g = true := by
  rw [memberClass?, isLeftOut]
  cases StorageClass.of? g with
  | none => simp
  | some c => simp

/-- The objects of a program, sorted by class. -/
theorem perm_leftOut_originals (p : Program) :
    (leftOut p ++ (originals p .rodata ++ (originals p .data ++ originals p .bss))).Perm p.globals.elems := by
  have hclasses : ∀ g ∈ p.globals.elems,
      memberClass? g ∈ [none, some StorageClass.rodata, some .data, some .bss] := by
    intro g _
    cases memberClass? g with
    | none => simp
    | some c => cases c <;> simp
  have hnone : p.globals.elems.filter (fun g => memberClass? g = none) = leftOut p :=
    List.filter_congr fun g _ => by rw [Bool.eq_iff_iff, decide_eq_true_iff, memberClass?_eq_none_iff]
  have hsome (c : StorageClass) : p.globals.elems.filter (fun g => memberClass? g = some c) = originals p c :=
    List.filter_congr fun g _ => by rw [Bool.eq_iff_iff, decide_eq_true_iff, memberClass?_eq_some_iff]
  have hperm := perm_flatMap_filter memberClass? (by decide) hclasses
  simpa only [List.flatMap_cons, List.flatMap_nil, List.append_nil, hnone, hsome] using hperm

variable {p : Program} {plan : Plan} {placed : List (DecoyPlan × Nat)}

theorem orderOf_perm (placed : List (DecoyPlan × Nat)) (ids : List Nat) :
    (orderOf placed ids).Perm ((ids.flatMap fun id => anchoredAt placed (some id)) ++ ids) := by
  have hperm := (List.flatMap_append_perm ids (fun id => anchoredAt placed (some id)) fun id => [id]).symm
  rwa [List.flatMap_singleton'] at hperm

/-- The decoys without an anchor and those in front of each object are all decoys. -/
theorem perm_anchoredAt {ids : List Nat} (hids : ids.Nodup)
    (hanchor : ∀ d ∈ placed, ∀ id, d.1.anchor = some id → id ∈ ids) :
    (anchoredAt placed none ++ ids.flatMap fun id => anchoredAt placed (some id)).Perm
      (placed.map Prod.snd) := by
  have hkeys : (none :: ids.map some).Nodup :=
    List.nodup_cons.mpr ⟨by simp, hids.map fun _ _ h => Option.some.inj h⟩
  have hmem : ∀ d ∈ placed, d.1.anchor ∈ none :: ids.map some := by
    intro d hd
    cases hid : d.1.anchor with
    | none => exact List.mem_cons_self
    | some id => exact List.mem_cons_of_mem _ (List.mem_map_of_mem (hanchor d hd id hid))
  have hperm := (perm_flatMap_filter (fun d : DecoyPlan × Nat => d.1.anchor) hkeys hmem).map Prod.snd
  rw [List.map_flatMap, List.flatMap_cons, List.flatMap_map] at hperm
  exact hperm

/-- The order of a plan names every object of the program and every decoy once. -/
theorem order_perm (hids : p.globals.ids.Nodup)
    (hexcluded : plan.excluded = (leftOut p).map GlobalObject.id)
    (hshuffled : ∀ c, (plan.shuffled.get c).Perm ((originals p c).map GlobalObject.id))
    (hanchor : ∀ d ∈ placed, ∀ id, d.1.anchor = some id → ∃ c, ∃ g ∈ originals p c, g.id = id) :
    (order plan placed).Perm (p.globals.ids ++ placed.map Prod.snd) := by
  have hrodata : plan.shuffled.rodata.Perm _ := hshuffled .rodata
  have hdata : plan.shuffled.data.Perm _ := hshuffled .data
  have hbss : plan.shuffled.bss.Perm _ := hshuffled .bss
  have hobjects : (plan.excluded ++ (plan.shuffled.rodata ++ (plan.shuffled.data ++ plan.shuffled.bss))).Perm
      p.globals.ids := by
    have hperm := (perm_leftOut_originals p).map GlobalObject.id
    simp only [List.map_append] at hperm
    rw [hexcluded]
    exact ((hrodata.append (hdata.append hbss)).append_left _).trans hperm
  have hmembers : (plan.shuffled.rodata ++ (plan.shuffled.data ++ plan.shuffled.bss)).Nodup :=
    (List.nodup_append.mp (hobjects.nodup_iff.mpr hids)).2.1
  have hmem : ∀ d ∈ placed, ∀ id, d.1.anchor = some id →
      id ∈ plan.shuffled.rodata ++ (plan.shuffled.data ++ plan.shuffled.bss) := by
    intro d hd id hid
    obtain ⟨c, g, hg, rfl⟩ := hanchor d hd id hid
    have hclass := (hshuffled c).mem_iff.mpr (List.mem_map_of_mem hg)
    cases c with
    | rodata => exact List.mem_append_left _ hclass
    | data => exact List.mem_append_right _ (List.mem_append_left _ hclass)
    | bss => exact List.mem_append_right _ (List.mem_append_right _ hclass)
  have hdecoys := perm_anchoredAt hmembers hmem
  refine .trans ?_ (hobjects.append hdecoys)
  have hrodata := orderOf_perm placed plan.shuffled.rodata
  have hdata := orderOf_perm placed plan.shuffled.data
  have hbss := orderOf_perm placed plan.shuffled.bss
  rw [List.perm_iff_count] at hrodata hdata hbss ⊢
  intro id
  simp only [order, List.flatMap_append, List.count_append, hrodata, hdata, hbss]
  omega

end Layout
end ThumbHardening
