import ThumbHardening.Proofs.Roster

/-!
# Changes of what is found

A change by ID reaches the first element with that ID only. What many such changes make of a roster is said here
in one step: each element that is found by its own ID is changed, and an element that stands behind another one
with its ID stays as it is.
-/

namespace ThumbHardening
namespace Roster
variable {α : Type} [Identified α] {r : Roster α} {change change' : α → α} {id : Nat} {elem : α}

/-- Changes every element that is found by its ID. -/
def mapFound (r : Roster α) (change : α → α) : Roster α :=
  { r with elems := r.elems.mapIdx fun k elem =>
      if r.position? (Identified.id elem) = some k then change elem else elem }

theorem getElem?_mapFound (r : Roster α) (change : α → α) (k : Nat) :
    (r.mapFound change).elems[k]? = (r.elems[k]?).map fun elem =>
      if r.position? (Identified.id elem) = some k then change elem else elem :=
  List.getElem?_mapIdx

theorem get?_of_position? {k : Nat} (h : r.position? id = some k) : r.get? id = r.elems[k]? := by
  rw [get?, List.find?_eq_bind_findIdx?_getElem?]
  exact congrArg (·.bind fun k => r.elems[k]?) h

/-- A change shows at the position of the ID. -/
theorem getElem?_update (r : Roster α) (id : Nat) (change : α → α) (k : Nat) :
    (r.update id change).elems[k]? = if r.position? id = some k then (r.elems[k]?).map change else r.elems[k]? := by
  rw [update]
  cases hposition : r.position? id with
  | none => rfl
  | some index =>
    simp only [List.getElem?_modify, Option.some.injEq]
    split <;> simp

/-! ### IDs -/

theorem map_mapFound {β : Type} {view : α → β} (h : ∀ elem, view (change elem) = view elem) :
    (r.mapFound change).elems.map view = r.elems.map view := by
  apply List.ext_getElem?
  intro k
  rw [List.getElem?_map, getElem?_mapFound, List.getElem?_map, Option.map_map]
  refine Option.map_congr fun elem _ => ?_
  rw [Function.comp_apply]
  split
  · exact h elem
  · rfl

theorem ids_mapFound (hid : ∀ elem, Identified.id (change elem) = Identified.id elem) :
    (r.mapFound change).ids = r.ids :=
  map_mapFound hid

theorem position?_mapFound (hid : ∀ elem, Identified.id (change elem) = Identified.id elem) (id : Nat) :
    (r.mapFound change).position? id = r.position? id := by
  rw [position?_eq, position?_eq, ids_mapFound hid]

theorem get?_mapFound (hid : ∀ elem, Identified.id (change elem) = Identified.id elem) (id : Nat) :
    (r.mapFound change).get? id = (r.get? id).map change := by
  have hposition := position?_mapFound (r := r) hid id
  cases hindex : r.position? id with
  | none =>
    rw [hindex] at hposition
    rw [get?, List.find?_eq_bind_findIdx?_getElem?, get?, List.find?_eq_bind_findIdx?_getElem?]
    change (((r.mapFound change).position? id).bind _) = (((r.position? id).bind _).map change)
    rw [hposition, hindex]
    rfl
  | some k =>
    rw [hindex] at hposition
    rw [get?_of_position? hposition, get?_of_position? hindex, getElem?_mapFound]
    refine Option.map_congr fun elem helem => ?_
    have hfound : Identified.id elem = id := id_of_get? ((get?_of_position? hindex).trans helem)
    rw [hfound, if_pos hindex]

/-! ### Elements -/

/-- An element afterwards is one from before, or what the change made of one that is found. -/
theorem mem_mapFound {other : α} (h : other ∈ (r.mapFound change).elems) :
    other ∈ r.elems ∨ ∃ elem, r.get? (Identified.id elem) = some elem ∧ other = change elem := by
  obtain ⟨k, hk⟩ := List.mem_iff_getElem?.mp h
  rw [getElem?_mapFound] at hk
  obtain ⟨elem, helem, heq⟩ := Option.map_eq_some_iff.mp hk
  split at heq
  · next hposition => exact .inr ⟨elem, (get?_of_position? hposition).trans helem, heq.symm⟩
  · exact .inl (heq ▸ List.mem_of_getElem? helem)

theorem mapFound_id (r : Roster α) : r.mapFound (fun elem => elem) = r := by
  have helems : (r.mapFound fun elem => elem).elems = r.elems := by
    apply List.ext_getElem?
    intro k
    simp [getElem?_mapFound]
  exact congrArg (fun elems => ({ r with elems } : Roster α)) helems

/-- With distinct IDs every element is found. -/
theorem mapFound_eq_map (hids : r.ids.Nodup) (change : α → α) :
    r.mapFound change = { r with elems := r.elems.map change } := by
  refine congrArg (fun elems => ({ r with elems } : Roster α)) (List.ext_getElem? fun k => ?_)
  change (r.mapFound change).elems[k]? = _
  rw [getElem?_mapFound, List.getElem?_map]
  exact Option.map_congr fun elem helem => if_pos (position?_id hids helem)

/-! ### One change -/

omit [Identified α] in
theorem ext_getElem? {r' : Roster α} (hnext : r'.next = r.next)
    (helems : ∀ k : Nat, r'.elems[k]? = r.elems[k]?) : r' = r := by
  obtain ⟨elems, next⟩ := r
  obtain ⟨elems', next'⟩ := r'
  obtain rfl : next' = next := hnext
  obtain rfl : elems' = elems := List.ext_getElem? helems
  rfl

/-- What a change makes of other elements than the one that is found does not matter. -/
theorem update_congr (h : ∀ elem, r.get? id = some elem → change elem = change' elem) :
    r.update id change = r.update id change' := by
  refine ext_getElem? (by rw [next_update, next_update]) fun k => ?_
  rw [getElem?_update, getElem?_update]
  split
  · next hposition => exact Option.map_congr fun elem helem => h elem ((get?_of_position? hposition).trans helem)
  · rfl

theorem update_eq_self (h : ∀ elem, r.get? id = some elem → change elem = elem) : r.update id change = r := by
  refine ext_getElem? (next_update ..) fun k => ?_
  rw [getElem?_update]
  split
  · next hposition =>
    refine (Option.map_congr fun elem helem => ?_).trans Option.map_id_apply
    exact h elem ((get?_of_position? hposition).trans helem)
  · rfl

/-- A change by ID behind a change of all is a change of all. -/
theorem update_mapFound (hid : ∀ elem, Identified.id (change elem) = Identified.id elem) (id : Nat)
    (change' : α → α) :
    (r.mapFound change).update id change'
      = r.mapFound fun elem => if Identified.id elem = id then change' (change elem) else change elem := by
  refine ext_getElem? (next_update ..) fun k => ?_
  rw [getElem?_update, position?_mapFound hid, getElem?_mapFound, getElem?_mapFound]
  cases helem : r.elems[k]? with
  | none => simp
  | some elem =>
    simp only [Option.map_some]
    by_cases hfound : Identified.id elem = id
    · rw [hfound, if_pos rfl]
      split <;> rfl
    · have hother : r.position? id ≠ some k := by
        intro hposition
        exact hfound (id_of_get? ((get?_of_position? hposition).trans helem))
      rw [if_neg hother, if_neg hfound]

/-! ### Between others -/

omit [Identified α] in
theorem insertIdx_append (front back : List α) (elem : α) :
    (front ++ back).insertIdx front.length elem = front ++ elem :: back := by
  induction front with
  | nil => rfl
  | cons first rest ih => exact congrArg (first :: ·) ih

/-- The element that is found by an ID, between those in front of it and those behind it. -/
structure FoundBetween (r : Roster α) (id : Nat) (front : List α) (elem : α) (back : List α) : Prop where
  elems_eq : r.elems = front ++ elem :: back
  id_eq : Identified.id elem = id
  front_ne : ∀ other ∈ front, Identified.id other ≠ id

theorem exists_foundBetween (h : r.get? id = some elem) : ∃ front back, r.FoundBetween id front elem back := by
  obtain ⟨hid, front, back, helems, hfront⟩ := List.find?_eq_some_iff_append.mp h
  exact ⟨front, back, helems, by simpa using hid, fun other hother => by simpa using hfront other hother⟩

namespace FoundBetween
variable {front back : List α}

theorem get?_eq (h : r.FoundBetween id front elem back) : r.get? id = some elem := by
  refine List.find?_eq_some_iff_append.mpr ⟨decide_eq_true h.id_eq, front, back, h.elems_eq, fun other hother => ?_⟩
  simpa using h.front_ne other hother

theorem position?_eq (h : r.FoundBetween id front elem back) : r.position? id = some front.length := by
  rw [position?, h.elems_eq, List.findIdx?_append,
    List.findIdx?_eq_none_iff.mpr fun other hother => decide_eq_false (h.front_ne other hother)]
  simp [List.findIdx?_cons, h.id_eq]

/-- A change is made in place. -/
theorem update_eq (h : r.FoundBetween id front elem back) (change : α → α) :
    r.update id change = { r with elems := front ++ change elem :: back } := by
  rw [update, h.position?_eq]
  simp only [h.elems_eq, List.modify_eq_take_drop, List.take_left, List.drop_left]
  rfl

theorem update (h : r.FoundBetween id front elem back) (change : α → α)
    (hid : Identified.id (change elem) = id) :
    (r.update id change).FoundBetween id front (change elem) back :=
  ⟨by rw [h.update_eq], hid, h.front_ne⟩

/-- Another element joins directly behind. -/
theorem insertAfter?_eq (h : r.FoundBetween id front elem back) (new : α) :
    r.insertAfter? id new
      = some { elems := front ++ elem :: r.admitted new :: back, next := r.nextAfter new } := by
  have hbehind := insertIdx_append (front ++ [elem]) back (r.admitted new)
  rw [List.length_append, List.length_singleton, ← List.append_cons, ← List.append_cons] at hbehind
  rw [insertAfter?, h.position?_eq, Option.map_some, insertAt, h.elems_eq, hbehind]

end FoundBetween
end Roster
end ThumbHardening
