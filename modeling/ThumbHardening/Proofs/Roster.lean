import ThumbHardening.Proofs.Steps
import ThumbHardening.Roster
import Mathlib.Algebra.GroupWithZero.Nat
import Mathlib.Data.List.Nodup
import Mathlib.Data.List.Perm.Subperm

/-!
# Rosters with distinct IDs

What the operations on a roster do when no two elements share an ID: the first element with an ID is the
only one, a change touches no other, and a new order keeps exactly the elements there were.
-/

namespace ThumbHardening
namespace Roster
variable {α : Type} [Identified α] {r : Roster α}

/-! ### Elements by ID -/

theorem mem_of_get? {id : Nat} {elem : α} (h : r.get? id = some elem) : elem ∈ r.elems :=
  List.mem_of_find?_eq_some h

theorem id_of_get? {id : Nat} {elem : α} (h : r.get? id = some elem) : Identified.id elem = id := by
  simpa using List.find?_some h

theorem eq_of_id_eq (hids : r.ids.Nodup) {a b : α} (ha : a ∈ r.elems) (hb : b ∈ r.elems)
    (hid : Identified.id a = Identified.id b) : a = b :=
  List.inj_on_of_nodup_map hids ha hb hid

theorem get?_id (hids : r.ids.Nodup) {elem : α} (hmem : elem ∈ r.elems) :
    r.get? (Identified.id elem) = some elem := by
  have hsome : (r.get? (Identified.id elem)).isSome := by
    rw [get?, List.find?_isSome]
    exact ⟨elem, hmem, by simp⟩
  obtain ⟨found, hfound⟩ := Option.isSome_iff_exists.mp hsome
  rw [hfound, eq_of_id_eq hids (mem_of_get? hfound) hmem (id_of_get? hfound)]

theorem isSome_get? (r : Roster α) (id : Nat) : (r.get? id).isSome = r.ids.contains id := by
  rw [Bool.eq_iff_iff, get?, List.find?_isSome, ids, List.contains_iff_mem, List.mem_map]
  simp

theorem contains_eq (r : Roster α) (id : Nat) : r.contains id = r.ids.contains id := by
  rw [← isSome_get?, get?, Bool.eq_iff_iff, List.find?_isSome]
  simp [contains]

theorem exists_of_contains {r : Roster α} {id : Nat} (h : r.contains id = true) :
    ∃ elem ∈ r.elems, Identified.id elem = id := by
  simpa [contains] using h

theorem position?_of_get? {id : Nat} {elem : α} (h : r.get? id = some elem) :
    ∃ index, r.position? id = some index ∧ r.elems[index]? = some elem := by
  rw [get?, List.find?_eq_bind_findIdx?_getElem?] at h
  obtain ⟨index, hindex, helem⟩ := Option.bind_eq_some_iff.mp h
  exact ⟨index, hindex, helem⟩

/-- No two positions hold the same ID. -/
theorem index_unique (hids : r.ids.Nodup) {j k : Nat} {a b : α} (ha : r.elems[j]? = some a)
    (hb : r.elems[k]? = some b) (hid : Identified.id a = Identified.id b) : j = k := by
  have hlt : j < r.ids.length := by
    rw [ids, List.length_map]
    exact (List.getElem?_eq_some_iff.mp ha).1
  apply (List.getElem?_inj hlt hids).mp
  rw [ids, List.getElem?_map, List.getElem?_map, ha, hb, Option.map_some, Option.map_some, hid]

theorem position?_id (hids : r.ids.Nodup) {k : Nat} {elem : α} (hk : r.elems[k]? = some elem) :
    r.position? (Identified.id elem) = some k := by
  obtain ⟨index, hindex, helem⟩ := position?_of_get? (get?_id hids (List.mem_of_getElem? hk))
  rw [hindex, index_unique hids helem hk rfl]

/-- An ID that occurs once is that of no element in front or behind. -/
theorem id_ne_of_count_eq_one {front back : List α} {elem : α} (hsplit : r.elems = front ++ elem :: back)
    (hcount : r.ids.count (Identified.id elem) = 1) :
    (∀ other ∈ front, Identified.id other ≠ Identified.id elem) ∧
      ∀ other ∈ back, Identified.id other ≠ Identified.id elem := by
  rw [ids, hsplit, List.map_append, List.map_cons, List.count_append, List.count_cons_self] at hcount
  have habsent : ∀ {elems : List α}, (elems.map Identified.id).count (Identified.id elem) = 0 →
      ∀ other ∈ elems, Identified.id other ≠ Identified.id elem := by
    intro elems hnone other hother heq
    exact List.count_eq_zero.mp hnone (heq ▸ List.mem_map_of_mem hother)
  exact ⟨habsent (by omega), habsent (by omega)⟩

theorem position?_of_count_eq_one {front back : List α} {elem : α}
    (hsplit : r.elems = front ++ elem :: back) (hcount : r.ids.count (Identified.id elem) = 1) :
    r.position? (Identified.id elem) = some front.length := by
  have hfront := (id_ne_of_count_eq_one hsplit hcount).1
  rw [position?, hsplit, List.findIdx?_append,
    List.findIdx?_eq_none_iff.mpr fun other hother => decide_eq_false (hfront other hother)]
  simp [List.findIdx?_cons]

/-! ### Changes in place -/

/-- The elements after a change are those before it, apart from the one that is changed. -/
theorem mem_update {id : Nat} {change : α → α} {elem other : α} (h : r.get? id = some elem)
    (hmem : other ∈ (r.update id change).elems) : other ∈ r.elems ∨ other = change elem := by
  obtain ⟨index, hindex, helem⟩ := position?_of_get? h
  rw [update, hindex] at hmem
  obtain ⟨k, hk⟩ := List.mem_iff_getElem?.mp hmem
  rw [List.getElem?_modify] at hk
  split at hk
  · next heq =>
    rw [← heq, helem] at hk
    cases hk
    exact .inr rfl
  · obtain ⟨original, horiginal, rfl⟩ := Option.map_eq_some_iff.mp hk
    exact .inl (List.mem_of_getElem? horiginal)

theorem change_mem_update {id : Nat} {change : α → α} {elem : α} (h : r.get? id = some elem) :
    change elem ∈ (r.update id change).elems := by
  obtain ⟨index, hindex, helem⟩ := position?_of_get? h
  rw [update, hindex]
  refine List.mem_iff_getElem?.mpr ⟨index, ?_⟩
  simp [helem]

/-- What a change does not show in stays as it is. -/
theorem map_update {β : Type} {view : α → β} {id : Nat} {change : α → α}
    (h : ∀ elem, r.get? id = some elem → view (change elem) = view elem) :
    (r.update id change).elems.map view = r.elems.map view := by
  cases hget : r.get? id with
  | none =>
    have hposition : r.position? id = none := by
      rw [position?, List.findIdx?_eq_none_iff]
      rw [get?, List.find?_eq_none] at hget
      exact fun elem helem => by simpa using hget elem helem
    rw [update, hposition]
  | some elem =>
    obtain ⟨index, hindex, helem⟩ := position?_of_get? hget
    rw [update, hindex]
    apply List.ext_getElem?
    intro k
    rw [List.getElem?_map, List.getElem?_map, List.getElem?_modify]
    split
    · next heq =>
      rw [← heq, helem]
      exact congrArg some (h elem hget)
    · simp

/-- A change that keeps IDs keeps every ID where it is. -/
theorem ids_update {id : Nat} {change : α → α}
    (hid : ∀ elem, Identified.id (change elem) = Identified.id elem) :
    (r.update id change).ids = r.ids :=
  map_update fun elem _ => hid elem

/-- A change shows in the element that is found by its ID. -/
theorem get?_update {change : α → α}
    (hid : ∀ elem, Identified.id (change elem) = Identified.id elem) (id other : Nat) :
    (r.update id change).get? other = if other = id then (r.get? other).map change else r.get? other := by
  obtain ⟨elems, next⟩ := r
  induction elems with
  | nil => simp [update, position?, get?]
  | cons first rest ih =>
    rw [update, position?] at ih ⊢
    simp only [get?] at ih ⊢
    rw [List.findIdx?_cons]
    by_cases hfirst : Identified.id first = id
    · simp only [hfirst, decide_true, if_true, List.modify_zero_cons, List.find?_cons, hid]
      by_cases hother : id = other
      · simp [hother]
      · simp [hother, Ne.symm hother]
    · simp only [hfirst, decide_false, Bool.false_eq_true, if_false]
      by_cases hother : Identified.id first = other
      · have hne : other ≠ id := hother ▸ hfirst
        cases rest.findIdx? (fun elem => Identified.id elem = id) <;> simp [hother, hne]
      · cases hrest : rest.findIdx? (fun elem => Identified.id elem = id) with
        | none =>
          rw [hrest] at ih
          simpa [hother] using ih
        | some index =>
          rw [hrest] at ih
          simpa [hother] using ih

theorem next_update (r : Roster α) (id : Nat) (change : α → α) : (r.update id change).next = r.next := by
  rw [update]
  split <;> rfl

theorem position?_eq (r : Roster α) (id : Nat) : r.position? id = r.ids.findIdx? (· = id) := by
  rw [ids, List.findIdx?_map]
  rfl

theorem update_update {id : Nat} {change change' : α → α}
    (hid : ∀ elem, Identified.id (change elem) = Identified.id elem) :
    (r.update id change).update id change' = r.update id (change' ∘ change) := by
  have hposition : (r.update id change).position? id = r.position? id := by
    rw [position?_eq, position?_eq, ids_update hid]
  rw [update, hposition, update, update]
  cases r.position? id with
  | none => rfl
  | some index =>
    change ({ r with elems := (r.elems.modify index change).modify index change' } : Roster α) = _
    rw [List.modify_modify_eq]

/-- With distinct IDs, the change is made wherever the ID is found. -/
theorem update_eq_map (hids : r.ids.Nodup) (id : Nat) (change : α → α) :
    r.update id change
      = { r with elems := r.elems.map fun elem => if Identified.id elem = id then change elem else elem } := by
  cases hget : r.get? id with
  | none =>
    have hother : ∀ elem ∈ r.elems, Identified.id elem ≠ id := by
      rw [get?, List.find?_eq_none] at hget
      exact fun elem helem => by simpa using hget elem helem
    have hposition : r.position? id = none := by
      rw [position?, List.findIdx?_eq_none_iff]
      exact fun elem helem => by simpa using hother elem helem
    rw [update, hposition, List.map_congr_left fun elem helem => if_neg (hother elem helem), List.map_id'']
    exact fun _ => rfl
  | some elem =>
    obtain ⟨index, hindex, helem⟩ := position?_of_get? hget
    have hid := id_of_get? hget
    have hmodify : r.elems.modify index change
        = r.elems.map fun elem => if Identified.id elem = id then change elem else elem := by
      apply List.ext_getElem?
      intro k
      rw [List.getElem?_modify, List.getElem?_map]
      cases hk : r.elems[k]? with
      | none => simp
      | some other =>
        have hsame : index = k ↔ Identified.id other = id := by
          refine ⟨fun heq => ?_, fun heq => index_unique hids helem hk (hid.trans heq.symm)⟩
          rw [heq, hk] at helem
          exact Option.some.inj helem ▸ hid
        simp only [hsame, Option.map_some]
        split <;> rfl
    rw [update, hindex, ← hmodify]

theorem erase_eq_filter (hids : r.ids.Nodup) (id : Nat) :
    r.erase id = { r with elems := r.elems.filter fun elem => Identified.id elem ≠ id } := by
  have hlist : ∀ elems : List α, (elems.map Identified.id).Nodup →
      (elems.eraseP fun elem => Identified.id elem = id)
        = elems.filter fun elem => Identified.id elem ≠ id := by
    intro elems
    induction elems with
    | nil => exact fun _ => rfl
    | cons first rest ih =>
      intro hnodup
      rw [List.map_cons, List.nodup_cons] at hnodup
      by_cases hfirst : Identified.id first = id
      · have hkept : rest.filter (fun elem => Identified.id elem ≠ id) = rest := by
          refine List.filter_eq_self.mpr fun elem helem => decide_eq_true fun heq => hnodup.1 ?_
          rw [hfirst, ← heq]
          exact List.mem_map_of_mem helem
        rw [List.eraseP_cons_of_pos (by simpa using hfirst), List.filter_cons_of_neg (by simpa using hfirst),
          hkept]
      · rw [List.eraseP_cons_of_neg (by simpa using hfirst), List.filter_cons_of_pos (by simpa using hfirst),
          ih hnodup.2]
  exact congrArg (fun elems => { r with elems }) (hlist r.elems hids)

/-- Looking up the IDs of elements gives the elements. -/
theorem filterMap_get?_map_id (hids : r.ids.Nodup) {picked : List α} (hmem : ∀ elem ∈ picked, elem ∈ r.elems) :
    (picked.map Identified.id).filterMap r.get? = picked := by
  rw [List.filterMap_map]
  refine (List.filterMap_congr fun elem helem => ?_).trans List.filterMap_some
  exact get?_id hids (hmem elem helem)

theorem filterMap_get?_ids (hids : r.ids.Nodup) : r.ids.filterMap r.get? = r.elems :=
  filterMap_get?_map_id hids fun _ helem => helem

/-- A relation between the elements of two rosters outlasts a change of one of them. -/
theorem forall₂_update {β : Type} {R R' : β → α → Prop} {others : List β} {id : Nat} {change : α → α}
    {elem : α} (h : r.get? id = some elem) (hall : List.Forall₂ R others r.elems)
    (hchanged : ∀ other, R other elem → R' other (change elem))
    (hkept : ∀ other elem, R other elem → R' other elem) :
    List.Forall₂ R' others (r.update id change).elems := by
  obtain ⟨index, hindex, helem⟩ := position?_of_get? h
  rw [update, hindex]
  change List.Forall₂ R' others (r.elems.modify index change)
  clear hindex h
  generalize r.elems = elems at hall helem
  induction hall generalizing index with
  | nil => simp at helem
  | cons hfirst hrest ih =>
    cases index with
    | zero =>
      cases helem
      exact .cons (hchanged _ hfirst) (hrest.imp hkept)
    | succ index => exact .cons (hkept _ _ hfirst) (ih index helem)

/-- A change of an element changes a sum over all elements by the difference at that one. -/
theorem sum_update (weight : α → Nat) {id : Nat} (change : α → α) {elem : α}
    (h : r.get? id = some elem) :
    ((r.update id change).elems.map weight).sum + weight elem
      = (r.elems.map weight).sum + weight (change elem) := by
  obtain ⟨index, hindex, helem⟩ := position?_of_get? h
  rw [update, hindex]
  change ((r.elems.modify index change).map weight).sum + _ = _
  clear hindex h
  generalize r.elems = elems at helem
  induction elems generalizing index with
  | nil => simp at helem
  | cons first rest ih =>
    cases index with
    | zero =>
      cases helem
      simp only [List.modify_zero_cons, List.map_cons, List.sum_cons]
      omega
    | succ index =>
      have hrest := ih index helem
      simp only [List.modify_succ_cons, List.map_cons, List.sum_cons]
      omega

/-- What holds of all elements still holds of them after a change exactly if it holds of the changed one. -/
theorem forall_mem_update_iff {p : α → Prop} {id : Nat} {change : α → α} {elem : α}
    (h : r.get? id = some elem) (hall : ∀ other ∈ r.elems, p other) :
    (∀ other ∈ (r.update id change).elems, p other) ↔ p (change elem) := by
  constructor
  · intro hupdated
    exact hupdated _ (change_mem_update h)
  · intro hchanged other hmem
    rcases mem_update h hmem with hmem | rfl
    · exact hall other hmem
    · exact hchanged

theorem mem_insertAfter? {after : Nat} {elem other : α} {r' : Roster α}
    (h : r.insertAfter? after elem = some r') (hmem : other ∈ r'.elems) :
    other ∈ r.elems ∨ other = r.admitted elem := by
  obtain ⟨index, -, rfl⟩ := Option.map_eq_some_iff.mp h
  rcases List.eq_or_mem_of_mem_insertIdx hmem with heq | hmem
  · exact .inr heq
  · exact .inl hmem

theorem idFor_of_id_eq_zero {elem : α} (h : Identified.id elem = 0) : r.idFor elem = r.next :=
  if_pos h

/-- An element has the ID it is taken in for. -/
theorem id_admitted (hset : ∀ (elem : α) id, Identified.id (Identified.setId elem id) = id) (r : Roster α)
    (elem : α) : Identified.id (r.admitted elem) = r.idFor elem := by
  rw [admitted, idFor, apply_ite Identified.id, hset]

theorem idFor_lt_nextAfter (r : Roster α) (elem : α) : r.idFor elem < r.nextAfter elem := by
  rw [idFor, nextAfter]
  split <;> omega

theorem next_le_nextAfter (r : Roster α) (elem : α) : r.next ≤ r.nextAfter elem := by
  rw [nextAfter]
  split <;> omega

theorem nextAfter_le (r : Roster α) {elem : α} {bound : Nat} (h : Identified.id elem < bound) :
    r.nextAfter elem ≤ max r.next bound + 1 := by
  rw [nextAfter]
  split <;> omega

theorem ids_insert (hset : ∀ (elem : α) id, Identified.id (Identified.setId elem id) = id) (r : Roster α)
    (elem : α) : (r.insert elem).ids = r.ids ++ [r.idFor elem] := by
  rw [ids, insert, List.map_append, List.map_singleton, id_admitted hset]
  rfl

theorem ids_insertAt_perm (hset : ∀ (elem : α) id, Identified.id (Identified.setId elem id) = id)
    {after index : Nat} (h : r.position? after = some index) (elem : α) :
    (r.insertAt (index + 1) elem).ids.Perm (r.idFor elem :: r.ids) := by
  have hlt : index < r.elems.length := (List.findIdx?_eq_some_iff_getElem.mp h).1
  have hids := (List.perm_insertIdx (r.admitted elem) r.elems hlt).map Identified.id
  rwa [List.map_cons, id_admitted hset] at hids

/-- An element without an ID gets the next one. -/
theorem insert_of_id_eq_zero {elem : α} (h : Identified.id elem = 0) :
    r.insert elem = { elems := r.elems ++ [Identified.setId elem r.next], next := r.next + 1 } := by
  rw [insert, admitted, nextAfter, if_pos h, if_pos h]

/-- An ID that is still to be given out belongs to no element. -/
theorem next_notMem_ids (h : ∀ elem ∈ r.elems, Identified.id elem < r.next) : r.next ∉ r.ids := by
  intro hmem
  obtain ⟨elem, helem, heq⟩ := List.mem_map.mp hmem
  exact Nat.ne_of_lt (h elem helem) heq

/-- IDs stay different when an element without one joins. -/
theorem nodup_insert (hset : ∀ (elem : α) id, Identified.id (Identified.setId elem id) = id)
    (hids : r.ids.Nodup) (hlt : ∀ elem ∈ r.elems, Identified.id elem < r.next) {new : α}
    (hnew : Identified.id new = 0) : (r.insert new).ids.Nodup := by
  rw [ids_insert hset, idFor_of_id_eq_zero hnew]
  refine List.nodup_append.mpr ⟨hids, List.nodup_singleton _, fun id hid other hother heq => ?_⟩
  exact next_notMem_ids hlt (List.mem_singleton.mp hother ▸ heq ▸ hid)

/-- Elements below the next ID stay below it when another one joins. -/
theorem lt_next_insert (hset : ∀ (elem : α) id, Identified.id (Identified.setId elem id) = id)
    (h : ∀ elem ∈ r.elems, Identified.id elem < r.next) (new : α) :
    ∀ elem ∈ (r.insert new).elems, Identified.id elem < (r.insert new).next := by
  intro elem helem
  change Identified.id elem < r.nextAfter new
  rcases List.mem_append.mp helem with hold | hnew
  · exact Nat.lt_of_lt_of_le (h elem hold) (next_le_nextAfter r new)
  · rw [List.mem_singleton.mp hnew, id_admitted hset]
    exact idFor_lt_nextAfter r new

/-! ### New orders -/

private theorem pick_cons {pool picked : List α} {id : Nat} {rest : List Nat}
    (h : pick pool (id :: rest) = .ok picked) :
    ∃ elem others, elem ∈ pool ∧ Identified.id elem = id ∧
      pick (pool.filter fun other => Identified.id other ≠ id) rest = .ok others ∧
      picked = elem :: others := by
  rw [pick] at h
  split at h
  · cases h
  · next elem hfind =>
    have hid : Identified.id elem = id := by simpa using List.find?_some hfind
    cases htail : pick (pool.filter fun other => Identified.id other ≠ id) rest with
    | error e =>
      rw [htail] at h
      cases h
    | ok others =>
      rw [htail] at h
      cases h
      exact ⟨elem, others, List.mem_of_find?_eq_some hfind, hid, rfl, rfl⟩

/-- The elements picked are those asked for, in that order. -/
theorem map_id_pick {pool picked : List α} {order : List Nat} (h : pick pool order = .ok picked) :
    picked.map Identified.id = order := by
  induction order generalizing pool picked with
  | nil =>
    cases h
    rfl
  | cons id rest ih =>
    obtain ⟨elem, others, -, hid, htail, rfl⟩ := pick_cons h
    rw [List.map_cons, ih htail, hid]

theorem mem_pool_of_pick {pool picked : List α} {order : List Nat} (h : pick pool order = .ok picked)
    {elem : α} (hmem : elem ∈ picked) : elem ∈ pool := by
  induction order generalizing pool picked with
  | nil =>
    cases h
    cases hmem
  | cons id rest ih =>
    obtain ⟨first, others, hfirst, -, htail, rfl⟩ := pick_cons h
    rcases List.mem_cons.mp hmem with rfl | hothers
    · exact hfirst
    · exact List.mem_of_mem_filter (ih htail hothers)

/-- No element is picked twice. -/
theorem nodup_of_pick {pool picked : List α} {order : List Nat} (h : pick pool order = .ok picked) :
    (picked.map Identified.id).Nodup := by
  induction order generalizing pool picked with
  | nil =>
    cases h
    exact List.nodup_nil
  | cons id rest ih =>
    obtain ⟨first, others, -, hid, htail, rfl⟩ := pick_cons h
    refine List.nodup_cons.mpr ⟨?_, ih htail⟩
    intro hagain
    obtain ⟨elem, helem, heq⟩ := List.mem_map.mp hagain
    have hother := List.of_mem_filter (mem_pool_of_pick htail helem)
    simp only [ne_eq, decide_not, Bool.not_eq_true', decide_eq_false_iff_not] at hother
    exact hother (heq.trans hid)

theorem reorder_eq_ok {order : List Nat} {r' : Roster α} (h : r.reorder order = .ok r') :
    order.length = r.elems.length ∧ pick r.elems order = .ok r'.elems := by
  rw [reorder] at h
  split at h
  · cases h
  · next hlength =>
    obtain ⟨picked, hpick, rfl⟩ := Outcome.map_eq_ok_iff.mp h
    exact ⟨by simpa using hlength, hpick⟩

theorem next_of_reorder {order : List Nat} {r' : Roster α} (h : r.reorder order = .ok r') :
    r'.next = r.next := by
  rw [reorder] at h
  split at h
  · cases h
  · obtain ⟨_, -, rfl⟩ := Outcome.map_eq_ok_iff.mp h
    rfl

/-- After a new order the IDs stand in that order, none of them twice. -/
theorem ids_of_reorder {order : List Nat} {r' : Roster α} (h : r.reorder order = .ok r') :
    r'.ids = order ∧ r'.ids.Nodup := by
  obtain ⟨-, hpick⟩ := reorder_eq_ok h
  exact ⟨map_id_pick hpick, nodup_of_pick hpick⟩

/-- A new order neither loses nor adds elements. -/
theorem perm_of_reorder {order : List Nat} {r' : Roster α} (h : r.reorder order = .ok r') :
    r'.elems.Perm r.elems := by
  obtain ⟨hlength, hpick⟩ := reorder_eq_ok h
  have hsub : List.Subperm r'.elems r.elems :=
    List.subperm_of_subset (List.Nodup.of_map _ (nodup_of_pick hpick))
      fun elem helem => mem_pool_of_pick hpick helem
  apply hsub.perm_of_length_le
  have hcount := congrArg List.length (map_id_pick hpick)
  rw [List.length_map] at hcount
  omega

/-- IDs that occur in a pool can be picked from it, as long as none is asked for twice. -/
theorem exists_pick_eq_ok {pool : List α} {order : List Nat} (hnodup : order.Nodup)
    (hmem : ∀ id ∈ order, ∃ elem ∈ pool, Identified.id elem = id) : ∃ picked, pick pool order = .ok picked := by
  induction order generalizing pool with
  | nil => exact ⟨[], rfl⟩
  | cons id rest ih =>
    obtain ⟨hnew, hrest⟩ := List.nodup_cons.mp hnodup
    obtain ⟨⟨elem, helem, hid⟩, hothers⟩ := List.forall_mem_cons.mp hmem
    obtain ⟨found, hfound⟩ : ∃ found, pool.find? (fun elem => Identified.id elem = id) = some found := by
      rw [← Option.isSome_iff_exists, List.find?_isSome]
      exact ⟨elem, helem, by simpa using hid⟩
    have hleft : ∀ other ∈ rest, ∃ elem ∈ pool.filter fun elem => Identified.id elem ≠ id,
        Identified.id elem = other := by
      intro other hother
      obtain ⟨elem, helem, heq⟩ := hothers other hother
      refine ⟨elem, List.mem_filter.mpr ⟨helem, decide_eq_true fun hsame => hnew ?_⟩, heq⟩
      rwa [← hsame, heq]
    obtain ⟨picked, hpicked⟩ := ih hrest hleft
    exact ⟨found :: picked, by rw [pick, hfound]; exact congrArg (Except.map (found :: ·)) hpicked⟩

/-- The IDs of a roster in any order are an order of it. -/
theorem exists_reorder_eq_ok {order : List Nat} (hids : r.ids.Nodup) (h : order.Perm r.ids) :
    ∃ r', r.reorder order = .ok r' := by
  have hmem : ∀ id ∈ order, ∃ elem ∈ r.elems, Identified.id elem = id :=
    fun id hid => List.mem_map.mp (h.mem_iff.mp hid)
  obtain ⟨picked, hpicked⟩ := exists_pick_eq_ok (h.nodup_iff.mpr hids) hmem
  have hlength : order.length = r.elems.length := h.length_eq.trans (List.length_map _)
  refine ⟨{ r with elems := picked }, ?_⟩
  rw [reorder, if_neg (not_not_intro hlength), hpicked]
  rfl

end Roster
end ThumbHardening
