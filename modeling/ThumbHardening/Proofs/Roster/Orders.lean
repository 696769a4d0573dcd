import ThumbHardening.Proofs.Roster

/-!
# Reordering in place

A new order is carried out in two passes: the positions of all IDs are looked up in a table that forgets an ID once
it has been asked for, and only then the elements are taken out of their slots. What the two passes make of a roster
is what picking the elements one after the other makes of it, and where they refuse an order, they do so for the
same reason. With distinct IDs, the orders that are not refused are the permutations of the IDs.
-/

namespace ThumbHardening
namespace Roster
variable {α : Type} [Identified α] {r r' : Roster α} {order indices : List Nat}

/-! ### Looking up positions -/

theorem mem_positions_iff {id index : Nat} : (id, index) ∈ r.positions ↔ r.ids[index]? = some id := by
  rw [positions, List.mem_reverse, List.mem_zipIdx_iff_getElem?]

theorem map_fst_positions (r : Roster α) : r.positions.map Prod.fst = r.ids.reverse := by
  rw [positions, List.map_reverse, List.zipIdx_map_fst]

theorem isSome_lookup_iff {table : List (Nat × Nat)} {id : Nat} :
    (table.lookup id).isSome ↔ id ∈ table.map Prod.fst := by
  rw [List.lookup_isSome_iff, List.mem_map]
  refine exists_congr fun entry => and_congr_right fun _ => ?_
  rw [beq_iff_eq, eq_comm]

theorem isSome_find?_iff {pool : List α} {id : Nat} :
    (pool.find? fun elem => Identified.id elem = id).isSome ↔ id ∈ pool.map Identified.id := by
  simp

/-- A table refuses an order exactly if the elements cannot be picked in that order, and for the same reason. -/
theorem map_lookUpAll {table : List (Nat × Nat)} {pool : List α}
    (hsame : ∀ id, id ∈ table.map Prod.fst ↔ id ∈ pool.map Identified.id) (order : List Nat) :
    (lookUpAll table order).map (fun _ => ()) = (pick pool order).map fun _ => () := by
  induction order generalizing table pool with
  | nil => rfl
  | cons id rest ih =>
    have hfound : (table.lookup id).isSome = (pool.find? fun elem => Identified.id elem = id).isSome :=
      Bool.eq_iff_iff.mpr (isSome_lookup_iff.trans ((hsame id).trans isSome_find?_iff.symm))
    have hleft : ∀ other, other ∈ (table.filter fun entry => entry.1 ≠ id).map Prod.fst ↔
        other ∈ (pool.filter fun elem => Identified.id elem ≠ id).map Identified.id := by
      intro other
      change other ∈ (table.filter ((fun key => decide (key ≠ id)) ∘ Prod.fst)).map Prod.fst ↔
        other ∈ (pool.filter ((fun key => decide (key ≠ id)) ∘ Identified.id)).map Identified.id
      rw [← List.filter_map, ← List.filter_map, List.mem_filter, List.mem_filter, hsame]
    have hforget : ∀ {β γ : Type} (x : Except OrderError β) (f : β → γ),
        (x.map f).map (fun _ => ()) = x.map fun _ => () := by
      intro β γ x f
      cases x <;> rfl
    rw [lookUpAll, pick]
    cases hlookup : table.lookup id with
    | none =>
      rw [hlookup, Option.isSome_none, eq_comm, Option.isSome_eq_false_iff, Option.isNone_iff_eq_none] at hfound
      rw [hfound]
      rfl
    | some index =>
      rw [hlookup, Option.isSome_some, eq_comm, Option.isSome_iff_exists] at hfound
      obtain ⟨elem, hfind⟩ := hfound
      rw [hfind]
      exact (hforget _ _).trans ((ih hleft).trans (hforget _ _).symm)

/-- What is looked up stands where the table says. -/
theorem map_getElem?_lookUpAll {table : List (Nat × Nat)} {ids : List Nat}
    (htable : ∀ id index, (id, index) ∈ table → ids[index]? = some id) (h : lookUpAll table order = .ok indices) :
    indices.map (fun index => ids[index]?) = order.map some := by
  induction order generalizing table indices with
  | nil =>
    cases h
    rfl
  | cons id rest ih =>
    rw [lookUpAll] at h
    split at h
    · cases h
    · next index hlookup =>
      obtain ⟨others, hothers, rfl⟩ := Outcome.map_eq_ok_iff.mp h
      have hentry : (id, index) ∈ table := by
        obtain ⟨before, behind, rfl, -⟩ := List.lookup_eq_some_iff.mp hlookup
        exact List.mem_append_right before List.mem_cons_self
      have hrest := ih (fun id index hentry => htable id index (List.mem_of_mem_filter hentry)) hothers
      rw [List.map_cons, List.map_cons, htable id index hentry, hrest]

/-! ### Taking elements out of their slots -/

omit [Identified α] in
/-- As long as no slot is asked for twice, what is taken out is what the slots held. -/
theorem takeOut_eq {slots : List (Option α)} (h : indices.Nodup) :
    takeOut slots indices = indices.filterMap fun index => slots[index]?.join := by
  induction indices generalizing slots with
  | nil => rfl
  | cons index rest ih =>
    obtain ⟨hnew, hrest⟩ := List.nodup_cons.mp h
    have hkept : rest.filterMap (fun other => (slots.set index none)[other]?.join)
        = rest.filterMap fun other => slots[other]?.join := by
      refine List.filterMap_congr fun other hother => ?_
      have hne : index ≠ other := fun heq => hnew (heq.symm ▸ hother)
      rw [List.getElem?_set_ne hne]
    rw [takeOut, ih hrest, hkept, List.filterMap_cons]
    cases slots[index]?.join <;> rfl

/-! ### Accepted orders -/

/-- A new order is an order of the IDs there are. -/
theorem perm_ids_of_reorder (h : r.reorder order = .ok r') : order.Perm r.ids := by
  have hperm : r'.ids.Perm r.ids := (perm_of_reorder h).map Identified.id
  rwa [(ids_of_reorder h).1] at hperm

/-- Only a roster with distinct IDs has a new order. -/
theorem nodup_ids_of_reorder (h : r.reorder order = .ok r') : r.ids.Nodup := by
  obtain ⟨hids, hnodup⟩ := ids_of_reorder h
  rw [hids] at hnodup
  exact (perm_ids_of_reorder h).nodup_iff.mp hnodup

/-- At each position stands the element that was found by the ID the order has there. -/
theorem getElem?_reorder (h : r.reorder order = .ok r') (k : Nat) : r'.elems[k]? = order[k]?.bind r.get? := by
  have hids := nodup_ids_of_reorder h
  rw [← (ids_of_reorder h).1, ids, List.getElem?_map]
  cases helem : r'.elems[k]? with
  | none => rfl
  | some elem =>
    have hmem : elem ∈ r.elems := (perm_of_reorder h).mem_iff.mp (List.mem_of_getElem? helem)
    exact (get?_id hids hmem).symm

/-- If an order is accepted, the elements taken out of their slots are those that can be picked. -/
theorem takeOut_lookUpAll (h : r.reorder order = .ok r') (hlookUp : lookUpAll r.positions order = .ok indices) :
    takeOut (r.elems.map some) indices = r'.elems := by
  obtain ⟨horder, hnodup⟩ := ids_of_reorder h
  rw [horder] at hnodup
  have hplaces : indices.map (fun index => r.ids[index]?) = order.map some :=
    map_getElem?_lookUpAll (fun _ _ => mem_positions_iff.mp) hlookUp
  have hindices : indices.Nodup := by
    apply List.Nodup.of_map fun index => r.ids[index]?
    rw [hplaces]
    exact hnodup.map fun _ _ => Option.some.inj
  have htaken : takeOut (r.elems.map some) indices = indices.filterMap fun index => r.elems[index]? := by
    rw [takeOut_eq hindices]
    refine List.filterMap_congr fun index _ => ?_
    rw [List.getElem?_map]
    cases r.elems[index]? <;> rfl
  have hids : (takeOut (r.elems.map some) indices).map Identified.id = order := by
    calc (takeOut (r.elems.map some) indices).map Identified.id
        = indices.filterMap fun index => r.ids[index]? := by
          rw [htaken, List.map_filterMap]
          exact List.filterMap_congr fun index _ => (List.getElem?_map ..).symm
      _ = (order.map some).filterMap id := by
          rw [← hplaces, List.filterMap_map]
          rfl
      _ = order := by rw [List.filterMap_map]; exact List.filterMap_some
  have hmem : ∀ elem ∈ takeOut (r.elems.map some) indices, elem ∈ r.elems := by
    intro elem helem
    rw [htaken] at helem
    obtain ⟨index, -, hindex⟩ := List.mem_filterMap.mp helem
    exact List.mem_of_getElem? hindex
  have hfound := filterMap_get?_map_id (nodup_ids_of_reorder h) hmem
  have hpicked := filterMap_get?_map_id (nodup_ids_of_reorder h) fun _ => (perm_of_reorder h).mem_iff.mp
  calc takeOut (r.elems.map some) indices
      = order.filterMap r.get? := by rw [← hids, hfound]
    _ = r'.elems := by rw [← horder]; exact hpicked

/-! ### Both passes -/

/-- Reordering in place picks the elements one after the other, or leaves all of them where they are. -/
theorem reorderInPlace_eq (r : Roster α) (order : List Nat) :
    r.reorderInPlace order
      = match r.reorder order with
        | .ok r' => (r', .ok ())
        | .error e => (r, .error e) := by
  have hsame : ∀ id, id ∈ r.positions.map Prod.fst ↔ id ∈ r.elems.map Identified.id := by
    intro id
    rw [map_fst_positions, List.mem_reverse, ids]
  have hagree := map_lookUpAll hsame order
  by_cases hlength : order.length = r.elems.length
  · have hreorder : r.reorder order = (pick r.elems order).map fun elems => { r with elems } :=
      if_neg (not_not_intro hlength)
    rw [reorderInPlace, if_neg (not_not_intro hlength), hreorder]
    cases hpick : pick r.elems order with
    | error e =>
      cases hlookUp : lookUpAll r.positions order with
      | error e' =>
        rw [hlookUp, hpick] at hagree
        cases hagree
        rfl
      | ok indices =>
        rw [hlookUp, hpick] at hagree
        cases hagree
    | ok picked =>
      cases hlookUp : lookUpAll r.positions order with
      | error e =>
        rw [hlookUp, hpick] at hagree
        cases hagree
      | ok indices =>
        rw [hpick] at hreorder
        have htaken := takeOut_lookUpAll hreorder hlookUp
        exact congrArg (fun elems => (({ r with elems } : Roster α), Except.ok ())) htaken
  · rw [reorderInPlace, if_pos hlength, reorder, if_pos hlength]

theorem reorderInPlace_of_perm (hids : r.ids.Nodup) (h : order.Perm r.ids) :
    (r.reorderInPlace order).2 = .ok () ∧
      ∀ k : Nat, (r.reorderInPlace order).1.elems[k]? = order[k]?.bind r.get? := by
  obtain ⟨r', hreorder⟩ := exists_reorder_eq_ok hids h
  rw [reorderInPlace_eq, hreorder]
  exact ⟨rfl, getElem?_reorder hreorder⟩

/-- An order that does not name each ID once moves nothing. -/
theorem reorderInPlace_of_not_perm (h : ¬order.Perm r.ids) : ∃ e, r.reorderInPlace order = (r, .error e) := by
  cases hreorder : r.reorder order with
  | error e => exact ⟨e, by rw [reorderInPlace_eq, hreorder]⟩
  | ok r' => exact absurd (perm_ids_of_reorder hreorder) h

theorem reorderInPlace_accepts_iff (hids : r.ids.Nodup) :
    (r.reorderInPlace order).2 = .ok () ↔ order.Perm r.ids := by
  constructor
  · intro hok
    by_contra hother
    obtain ⟨e, hrefused⟩ := reorderInPlace_of_not_perm hother
    rw [hrefused] at hok
    cases hok
  · exact fun hperm => (reorderInPlace_of_perm hids hperm).1

end Roster
end ThumbHardening
