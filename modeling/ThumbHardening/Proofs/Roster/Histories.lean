import ThumbHardening.Proofs.Roster.Found
import ThumbHardening.Proofs.Roster.Orders
import ThumbHardening.Program

/-!
# Histories of a roster

A roster starts out empty, elements join and leave, and their order changes. The next ID to give away exceeds all
IDs that have been seen on the way, those of elements that joined with an ID of their own and of elements that have
left again included. So an element that joins without an ID never gets one that has been in use.
-/

namespace ThumbHardening

/-- A change of the members of a roster or of their order. -/
inductive RosterEdit (α : Type) where
  | insert (elem : α)
  | insertAt (index : Nat) (elem : α)
  | remove (id : Nat)
  | reorder (order : List Nat)
  deriving Repr

/-- The element that joins. -/
def RosterEdit.newcomer? {α : Type} : RosterEdit α → Option α
  | .insert elem => some elem
  | .insertAt _ elem => some elem
  | .remove _ => none
  | .reorder _ => none

def newcomers {α : Type} (edits : List (RosterEdit α)) : List α :=
  edits.filterMap RosterEdit.newcomer?

namespace Roster
variable {α : Type} [Identified α] {r r' : Roster α} {edit : RosterEdit α} {edits : List (RosterEdit α)}
  {elem : α} {id : Nat}

/-- The roster after one change. An element can only join at a position there is, and an order that is refused
changes nothing. -/
def edit? (r : Roster α) : RosterEdit α → Option (Roster α)
  | .insert elem => some (r.insert elem)
  | .insertAt index elem => if index ≤ r.size then some (r.insertAt index elem) else none
  | .remove id => some (r.erase id)
  | .reorder order => some (r.reorderInPlace order).1

def editAll? (r : Roster α) (edits : List (RosterEdit α)) : Option (Roster α) :=
  edits.foldlM edit? r

/-- At some point of the history an element had the ID. -/
def HeldDuring (edits : List (RosterEdit α)) (id : Nat) : Prop :=
  ∃ past r, past <+: edits ∧ editAll? {} past = some r ∧ id ∈ r.ids

/-! ### One change -/

/-- Either one element joins between the others, or elements leave or change places. -/
theorem edit?_cases (h : r.edit? edit = some r') :
    (∃ elem front back, edit.newcomer? = some elem ∧ r.elems = front ++ back ∧
      r'.elems = front ++ r.admitted elem :: back ∧ r'.next = r.nextAfter elem) ∨
    (edit.newcomer? = none ∧ r'.elems.Subperm r.elems ∧ r'.next = r.next) := by
  cases edit with
  | insert elem =>
    cases h
    exact .inl ⟨elem, r.elems, [], rfl, (List.append_nil _).symm, rfl, rfl⟩
  | insertAt index elem =>
    obtain ⟨hindex, heq⟩ := Option.ite_none_right_eq_some.mp h
    cases heq
    refine .inl ⟨elem, r.elems.take index, r.elems.drop index, rfl, (List.take_append_drop ..).symm, ?_, rfl⟩
    have hbetween := insertIdx_append (r.elems.take index) (r.elems.drop index) (r.admitted elem)
    rwa [List.take_append_drop, List.length_take_of_le hindex] at hbetween
  | remove id =>
    cases h
    exact .inr ⟨rfl, List.eraseP_sublist.subperm, rfl⟩
  | reorder order =>
    cases h
    refine .inr ⟨rfl, ?_⟩
    rw [reorderInPlace_eq]
    cases hreorder : r.reorder order with
    | error e => exact ⟨List.Subperm.refl _, rfl⟩
    | ok r' => exact ⟨(perm_of_reorder hreorder).subperm, next_of_reorder hreorder⟩

theorem next_le_of_edit? (h : r.edit? edit = some r') : r.next ≤ r'.next := by
  rcases edit?_cases h with ⟨elem, -, -, -, -, -, hnext⟩ | ⟨-, -, hnext⟩
  · rw [hnext]
    exact next_le_nextAfter r elem
  · exact Nat.le_of_eq hnext.symm

/-- All IDs in a roster are smaller than the next one to give away. -/
structure Numbered (r : Roster α) : Prop where
  next_pos : 0 < r.next
  lt_next : ∀ id ∈ r.ids, id < r.next

theorem numbered_empty : ({} : Roster α).Numbered :=
  ⟨Nat.one_pos, fun _ hid => absurd hid List.not_mem_nil⟩

theorem Numbered.edit? (hset : ∀ (elem : α) id, Identified.id (Identified.setId elem id) = id) (h : r.Numbered)
    (hedit : r.edit? edit = some r') : r'.Numbered := by
  have hgrown := next_le_of_edit? hedit
  refine ⟨Nat.lt_of_lt_of_le h.next_pos hgrown, fun id hid => ?_⟩
  have hold : id ∈ r.ids → id < r'.next := fun hid => Nat.lt_of_lt_of_le (h.lt_next id hid) hgrown
  rcases edit?_cases hedit with ⟨elem, front, back, -, helems, helems', hnext⟩ | ⟨-, hsub, -⟩
  · rw [ids, helems', List.map_append, List.map_cons, id_admitted hset, List.mem_append, List.mem_cons] at hid
    rw [ids, helems, List.map_append, List.mem_append] at hold
    rcases hid with hfront | rfl | hback
    · exact hold (.inl hfront)
    · rw [hnext]
      exact idFor_lt_nextAfter r elem
    · exact hold (.inr hback)
  · obtain ⟨elem, helem, rfl⟩ := List.mem_map.mp hid
    exact hold (List.mem_map_of_mem (hsub.subset helem))

/-! ### Histories -/

/-- What every change keeps holds behind all changes. -/
theorem editAll?_induction {P : Roster α → Prop}
    (hstep : ∀ {r r' : Roster α} {edit}, r.edit? edit = some r' → P r → P r') (h : P r)
    (hrun : r.editAll? edits = some r') : P r' := by
  induction edits generalizing r with
  | nil =>
    cases hrun
    exact h
  | cons edit rest ih =>
    obtain ⟨between, hedit, hrest⟩ := Option.bind_eq_some_iff.mp hrun
    exact ih (hstep hedit h) hrest

theorem next_le_of_editAll? (h : r.editAll? edits = some r') : r.next ≤ r'.next :=
  editAll?_induction (fun hedit hle => Nat.le_trans hle (next_le_of_edit? hedit)) (Nat.le_refl _) h

theorem Numbered.editAll? (hset : ∀ (elem : α) id, Identified.id (Identified.setId elem id) = id)
    (h : r.Numbered) (hrun : r.editAll? edits = some r') : r'.Numbered :=
  editAll?_induction (fun hedit hnumbered => hnumbered.edit? hset hedit) h hrun

/-- No ID of the history reaches the next one to give away. -/
theorem lt_next_of_heldDuring (hset : ∀ (elem : α) id, Identified.id (Identified.setId elem id) = id)
    (hrun : editAll? {} edits = some r) (hheld : HeldDuring edits id) : id < r.next := by
  obtain ⟨past, former, ⟨later, rfl⟩, hpast, hid⟩ := hheld
  rw [editAll?, List.foldlM_append] at hrun
  obtain ⟨between, hbetween, hlater⟩ := Option.bind_eq_some_iff.mp hrun
  obtain rfl : between = former := Option.some.inj (hbetween.symm.trans hpast)
  have hformer : id < between.next := (numbered_empty.editAll? hset hpast).lt_next id hid
  exact Nat.lt_of_lt_of_le hformer (next_le_of_editAll? hlater)

/-- The next ID moves by one for each element that joins, or behind an ID that an element brought along. -/
theorem next_le_add_length_newcomers {bound : Nat} (hids : ∀ elem ∈ newcomers edits, Identified.id elem < bound)
    (hrun : r.editAll? edits = some r') : r'.next ≤ max r.next bound + (newcomers edits).length := by
  induction edits generalizing r with
  | nil =>
    cases hrun
    exact Nat.le_max_left ..
  | cons edit rest ih =>
    obtain ⟨between, hedit, hrest⟩ := Option.bind_eq_some_iff.mp hrun
    rcases edit?_cases hedit with ⟨elem, -, -, hnew, -, -, hnext⟩ | ⟨hnone, -, hnext⟩
    · have hsplit : newcomers (edit :: rest) = elem :: newcomers rest := List.filterMap_cons_some hnew
      rw [hsplit] at hids ⊢
      obtain ⟨hfirst, hothers⟩ := List.forall_mem_cons.mp hids
      have hlater := ih hothers hrest
      have hstep := nextAfter_le r hfirst
      rw [List.length_cons]
      omega
    · have hsame : newcomers (edit :: rest) = newcomers rest := List.filterMap_cons_none hnone
      rw [hsame] at hids ⊢
      rw [← hnext]
      exact ih hids hrest

/-! ### IDs that stay -/

/-- The element has joined as `member`, between others that have not changed. It has kept its ID, or it has got one
that exceeds all IDs of the history. -/
structure JoinedAs (edits : List (RosterEdit α)) (r r' : Roster α) (elem member : α) : Prop where
  between : ∃ front back, r.elems = front ++ back ∧ r'.elems = front ++ member :: back
  id_eq : Identified.id member = r.idFor elem
  kept : Identified.id elem ≠ 0 → member = elem
  given : Identified.id elem = 0 → member = Identified.setId elem (Identified.id member)
  fresh : Identified.id elem = 0 → 0 < Identified.id member ∧ ∀ id, HeldDuring edits id → id < Identified.id member

theorem joinedAs_admitted (hset : ∀ (elem : α) id, Identified.id (Identified.setId elem id) = id)
    (hrun : editAll? {} edits = some r) (hnew : edit.newcomer? = some elem) (hedit : r.edit? edit = some r') :
    JoinedAs edits r r' elem (r.admitted elem) := by
  rcases edit?_cases hedit with ⟨joined, front, back, hjoined, helems, helems', -⟩ | ⟨hnone, -, -⟩
  · obtain rfl : joined = elem := Option.some.inj (hjoined.symm.trans hnew)
    have hid := id_admitted hset r joined
    exact {
      between := ⟨front, back, helems, helems'⟩
      id_eq := hid
      kept := fun hown => if_neg hown
      given := fun hzero => by rw [hid, idFor_of_id_eq_zero hzero, admitted, if_pos hzero]
      fresh := fun hzero => by
        rw [hid, idFor_of_id_eq_zero hzero]
        exact ⟨(numbered_empty.editAll? hset hrun).next_pos, fun _ hheld => lt_next_of_heldDuring hset hrun hheld⟩ }
  · cases hnone.symm.trans hnew

/-- Behind any history, an element that joins keeps the ID it has, or gets one that is not 0 and exceeds every ID
that any element has had; no change alters another element; with distinct IDs, exactly the permutations of the IDs
are accepted as orders, and put in each position the element with the ID they have there, while other orders change
nothing; and while the IDs that elements bring along and the number of elements that join are below `2 ^ 63`, a
64-bit word holds the next ID. -/
theorem editAll?_keeps_ids (hset : ∀ (elem : α) id, Identified.id (Identified.setId elem id) = id)
    (hrun : editAll? {} edits = some r) :
    (∀ edit elem r', edit.newcomer? = some elem → r.edit? edit = some r' →
      ∃ member, JoinedAs edits r r' elem member) ∧
    (∀ edit r', edit.newcomer? = none → r.edit? edit = some r' → r'.elems.Subperm r.elems) ∧
    (r.ids.Nodup → ∀ order,
      ((r.reorderInPlace order).2 = .ok () ↔ order.Perm r.ids) ∧
      (order.Perm r.ids → ∀ k : Nat, (r.reorderInPlace order).1.elems[k]? = order[k]?.bind r.get?) ∧
      (¬order.Perm r.ids → (r.reorderInPlace order).1 = r)) ∧
    ((∀ elem ∈ newcomers edits, Identified.id elem < 2 ^ 63) → (newcomers edits).length < 2 ^ 63 →
      r.next < 2 ^ 64) := by
  refine ⟨fun edit elem r' hnew hedit => ⟨_, joinedAs_admitted hset hrun hnew hedit⟩, fun edit r' hnone hedit => ?_,
    fun hids order => ⟨reorderInPlace_accepts_iff hids, fun hperm => (reorderInPlace_of_perm hids hperm).2,
      fun hother => ?_⟩, fun hown hcount => ?_⟩
  · rcases edit?_cases hedit with ⟨elem, -, -, hnew, -⟩ | ⟨-, hsub, -⟩
    · cases hnone.symm.trans hnew
    · exact hsub
  · obtain ⟨e, hrefused⟩ := reorderInPlace_of_not_perm hother
    rw [hrefused]
  · have hbound := next_le_add_length_newcomers hown hrun
    change r.next ≤ max 1 (2 ^ 63) + _ at hbound
    omega

/-- An alias without an ID joins, one with the ID 7 comes from elsewhere and leaves again, and another one without
an ID joins in front of the first. -/
def visited : List (RosterEdit Alias) :=
  [.insert { name := "first", target := .function 1 }, .insert { id := 7, name := "guest", target := .function 1 },
    .remove 7, .insertAt 0 { name := "second", target := .function 1 }]

def afterVisit : Roster Alias :=
  { elems := [{ id := 8, name := "second", target := .function 1 }, { id := 1, name := "first", target := .function 1 }]
    next := 9 }

/-- The ID of the guest is not given away again, and the two that stay can change places. -/
theorem editAll?_keeps_ids_visited :
    editAll? {} visited = some afterVisit ∧ HeldDuring visited 7 ∧
      (∃ member, JoinedAs visited afterVisit (afterVisit.insert { name := "third", target := .function 1 })
        { name := "third", target := .function 1 } member ∧ 7 < Identified.id member) ∧
      (afterVisit.reorderInPlace [1, 8]).2 = .ok () ∧ (afterVisit.reorderInPlace [1, 7]).1 = afterVisit ∧
      afterVisit.next < 2 ^ 64 := by
  have hrun : editAll? {} visited = some afterVisit := rfl
  have hguest : HeldDuring visited 7 := ⟨visited.take 2, _, List.take_prefix .., rfl, by decide⟩
  obtain ⟨hjoins, -, horders, hcounter⟩ := editAll?_keeps_ids (fun _ _ => rfl) hrun
  have hids : afterVisit.ids.Nodup := by decide
  obtain ⟨member, hmember⟩ := hjoins (.insert { name := "third", target := .function 1 }) _ _ rfl rfl
  exact ⟨hrun, hguest, ⟨member, hmember, (hmember.fresh rfl).2 7 hguest⟩, (horders hids [1, 8]).1.mpr (by decide),
    (horders hids [1, 7]).2.2 (by decide), hcounter (by decide) (by decide)⟩

end Roster
end ThumbHardening
