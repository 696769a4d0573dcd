import ThumbHardening.Layout.Plan
import ThumbHardening.Proofs.Random
import Mathlib.Data.List.Perm.Basic

/-!
# Drawing decoys

Whatever class and object they are for, decoys are drawn one after the other. Each takes a trap block out of
the pool as long as one is left there, so no block is taken twice, and none is lost. The trap blocks whose
addresses a decoy holds are blocks of the pool too, taken or not.
-/

namespace ThumbHardening

namespace TrapPool

variable {α : Type} {xs : List α} {k : Nat}

theorem cons_set_perm {x : α} (h : xs[k]? = some x) (new : α) : (x :: xs.set k new).Perm (new :: xs) := by
  obtain ⟨hk, rfl⟩ := List.getElem?_eq_some_iff.mp h
  have hsplit : xs.take k ++ xs[k] :: xs.drop (k + 1) = xs := by
    rw [List.getElem_cons_drop, List.take_append_drop]
  rw [List.set_eq_take_append_cons_drop, if_pos hk]
  have hout : (xs[k] :: (xs.take k ++ new :: xs.drop (k + 1))).Perm
      (new :: xs[k] :: (xs.take k ++ xs.drop (k + 1))) := (List.perm_middle.cons _).trans (.swap ..)
  refine hout.trans (.cons new ?_)
  exact List.perm_middle.symm.trans (.of_eq hsplit)

theorem swapRemove_perm {x : α} (h : xs[k]? = some x) : (x :: swapRemove xs k).Perm xs := by
  obtain rfl | ⟨front, last, rfl⟩ := xs.eq_nil_or_concat
  · cases h
  rw [List.concat_eq_append] at h ⊢
  rw [swapRemove, List.getLast?_concat]
  change (x :: ((front ++ [last]).set k last).dropLast).Perm (front ++ [last])
  by_cases hk : k < front.length
  · rw [List.getElem?_append_left hk] at h
    rw [List.set_append_left _ _ hk, List.dropLast_concat]
    exact (cons_set_perm h last).trans (List.perm_append_singleton last front).symm
  · obtain ⟨hlt, -⟩ := List.getElem?_eq_some_iff.mp h
    obtain rfl : k = front.length := by simp at hlt; omega
    rw [List.getElem?_concat_length] at h
    rw [List.set_append_right _ _ (Nat.le_refl _), Nat.sub_self, List.set_cons_zero, List.dropLast_concat,
      Option.some.inj h]
    exact (List.perm_append_singleton x front).symm

/-- The blocks that have not been taken are blocks of the pool. -/
def Sound (pool : TrapPool) : Prop :=
  ∀ t ∈ pool.unetched, t ∈ pool.all

/-- Taking a block fails only if none is left, and takes it out of the pool. -/
theorem take_cases (pool : TrapPool) (s : RandomStream) :
    (pool.take s).2.1.all = pool.all ∧
      ((pool.unetched = [] ∧ (pool.take s).1 = none ∧ (pool.take s).2.1.unetched = []) ∨
        ∃ t, (pool.take s).1 = some t ∧ (t :: (pool.take s).2.1.unetched).Perm pool.unetched) := by
  rw [take]
  split
  · next hempty =>
    have hempty := List.isEmpty_iff.mp hempty
    split <;> exact ⟨rfl, .inl ⟨hempty, rfl, hempty⟩⟩
  · next hleft =>
    have hpos : 0 < pool.unetched.length := by
      rw [List.length_pos_iff]
      exact fun hempty => hleft (List.isEmpty_iff.mpr hempty)
    have hk := List.getElem?_eq_getElem (s.index_lt hpos)
    exact ⟨rfl, .inr ⟨_, hk, swapRemove_perm hk⟩⟩

theorem randomTrap_mem {pool : TrapPool} (h : pool.all ≠ []) (s : RandomStream) :
    (pool.randomTrap s).1 ∈ pool.all := by
  have hk := s.index_lt (List.length_pos_iff.mpr h)
  change pool.all.getD (s.index pool.all.length).1 ⟨0, 0⟩ ∈ pool.all
  rw [List.getD_eq_getElem?_getD, List.getElem?_eq_getElem hk, Option.getD_some]
  exact List.getElem_mem hk

end TrapPool

namespace Layout

/-- One decoy of the given size in front of an object. -/
def drawDecoy (storage : StorageClass) (ptr : Nat) (useTraps : Bool) (anchor size : Nat) (d : DecoyState) :
    DecoyPlan × DecoyState :=
  let (content, d) := d.chooseContent storage ptr useTraps (size / ptr)
  let (etch, d) := d.chooseEtch
  ({ storage, size, align := decoyAlign ptr size, content, etch, anchor := some anchor }, d)

/-- Decoys that are drawn one after the other, and the states before and after. -/
inductive Draws (ptr : Nat) (useTraps : Bool) : DecoyState → List DecoyPlan → DecoyState → Prop
  | nil (d : DecoyState) : Draws ptr useTraps d [] d
  | cons (storage : StorageClass) (anchor size : Nat) {d d' : DecoyState} {rest : List DecoyPlan}
      (later : Draws ptr useTraps (drawDecoy storage ptr useTraps anchor size d).2 rest d') :
      Draws ptr useTraps d ((drawDecoy storage ptr useTraps anchor size d).1 :: rest) d'

variable {ptr : Nat} {useTraps : Bool} {d d' d'' : DecoyState} {decoys others : List DecoyPlan}

theorem Draws.append (h : Draws ptr useTraps d decoys d') (h' : Draws ptr useTraps d' others d'') :
    Draws ptr useTraps d (decoys ++ others) d'' := by
  induction h with
  | nil => exact h'
  | cons storage anchor size _ ih => exact .cons storage anchor size (ih h')

/-! ### Planning draws -/

theorem draws_planDecoys (storage : StorageClass) (ptr : Nat) (useTraps : Bool) (anchor remaining : Nat)
    (d : DecoyState) :
    Draws ptr useTraps d (planDecoys storage ptr useTraps anchor remaining d).1
      (planDecoys storage ptr useTraps anchor remaining d).2 := by
  induction remaining using Nat.strongRecOn generalizing d with
  | ind remaining ih =>
    cases remaining with
    | zero =>
      rw [planDecoys]
      exact .nil d
    | succ remaining =>
      have hpos : 0 < decoySize (remaining + 1) := decoySize_pos (Nat.succ_ne_zero remaining)
      rw [planDecoys]
      exact .cons storage anchor (decoySize (remaining + 1)) (ih _ (by omega) _)

theorem draws_planClass (storage : StorageClass) (ptr : Nat) (useTraps : Bool)
    (shares : List (Nat × Nat)) (ids : List Nat) (d : DecoyState) :
    Draws ptr useTraps d (planClass storage ptr useTraps shares ids d).1
      (planClass storage ptr useTraps shares ids d).2 := by
  induction ids generalizing d with
  | nil => exact .nil d
  | cons id rest ih => exact (draws_planDecoys ..).append (ih _)

theorem draws_planClasses (ptr : Nat) (useTraps : Bool) (shares : PerClass (List (Nat × Nat)))
    (members : PerClass (List Nat)) (d : DecoyState) :
    Draws ptr useTraps d (planClasses ptr useTraps shares members d).1
      (planClasses ptr useTraps shares members d).2 :=
  ((draws_planClass ..).append (draws_planClass ..)).append (draws_planClass ..)

/-! ### What is drawn -/

theorem pool_chooseContent (storage : StorageClass) (ptr : Nat) (useTraps : Bool) (entries : Nat)
    (d : DecoyState) : (d.chooseContent storage ptr useTraps entries).2.pool = d.pool := by
  rw [DecoyState.chooseContent]
  split
  · rfl
  · split <;> rfl

/-- A decoy takes its trap block out of the pool that there was before. -/
theorem exists_take_drawDecoy (storage : StorageClass) (ptr : Nat) (useTraps : Bool) (anchor size : Nat)
    (d : DecoyState) : ∃ s, (drawDecoy storage ptr useTraps anchor size d).1.etch = (d.pool.take s).1 ∧
      (drawDecoy storage ptr useTraps anchor size d).2.pool = (d.pool.take s).2.1 := by
  rw [← pool_chooseContent storage ptr useTraps (size / ptr) d]
  exact ⟨_, rfl, rfl⟩

theorem traps_drawDecoy (hpool : d.pool.Sound) (storage : StorageClass) (ptr : Nat) (useTraps : Bool)
    (anchor size : Nat) {blocks : List BlockPointer}
    (hcontent : (drawDecoy storage ptr useTraps anchor size d).1.content = .traps blocks) :
    ∀ t ∈ blocks, t ∈ d.pool.all := by
  change (d.chooseContent storage ptr useTraps (size / ptr)).1 = _ at hcontent
  rw [DecoyState.chooseContent] at hcontent
  split at hcontent
  · cases hcontent
  · split at hcontent
    · next hleft =>
      cases hcontent
      obtain ⟨t, ht⟩ : ∃ t, t ∈ d.pool.unetched := by
        apply List.exists_mem_of_ne_nil
        simp_all
      exact RandomStream.forall_mem_replicate
        (TrapPool.randomTrap_mem (List.ne_nil_of_mem (hpool t ht))) _ _
    · cases hcontent

/-- A decoy has no more entries than it has room for. -/
theorem entries_drawDecoy (storage : StorageClass) (ptr : Nat) (useTraps : Bool) (anchor size : Nat)
    (d : DecoyState) :
    (drawDecoy storage ptr useTraps anchor size d).1.content.initializer.entries.length ≤ size / ptr := by
  change (d.chooseContent storage ptr useTraps (size / ptr)).1.initializer.entries.length ≤ size / ptr
  rw [DecoyState.chooseContent]
  split
  · exact Nat.zero_le _
  · split <;> simp [DecoyContent.initializer, Initializer.entries]

theorem Draws.all_eq (h : Draws ptr useTraps d decoys d') : d'.pool.all = d.pool.all := by
  induction h with
  | nil => rfl
  | @cons storage anchor size d _ _ _ ih =>
    obtain ⟨s, -, hpool⟩ := exists_take_drawDecoy storage ptr useTraps anchor size d
    rw [ih, hpool]
    exact (d.pool.take_cases s).1

/-- The trap blocks that decoys take and those that are left are the ones that were there. -/
theorem Draws.perm (h : Draws ptr useTraps d decoys d') :
    (decoys.filterMap DecoyPlan.etch ++ d'.pool.unetched).Perm d.pool.unetched := by
  induction h with
  | nil => exact .refl _
  | @cons storage anchor size d _ _ _ ih =>
    obtain ⟨s, hetch, hpool⟩ := exists_take_drawDecoy storage ptr useTraps anchor size d
    rw [hpool] at ih
    rw [List.filterMap_cons, hetch]
    obtain ⟨-, ⟨hempty, hnone, hleft⟩ | ⟨t, hsome, hperm⟩⟩ := d.pool.take_cases s
    · rw [hnone, hempty]
      rwa [hleft] at ih
    · rw [hsome]
      exact (ih.cons t).trans hperm

/-- Every decoy takes a trap block as long as one is left. -/
theorem Draws.length_etched (h : Draws ptr useTraps d decoys d') :
    (decoys.filterMap DecoyPlan.etch).length = min decoys.length d.pool.unetched.length := by
  induction h with
  | nil => simp
  | @cons storage anchor size d _ _ _ ih =>
    obtain ⟨s, hetch, hpool⟩ := exists_take_drawDecoy storage ptr useTraps anchor size d
    rw [hpool] at ih
    rw [List.filterMap_cons, hetch]
    obtain ⟨-, ⟨hempty, hnone, hleft⟩ | ⟨t, hsome, hperm⟩⟩ := d.pool.take_cases s
    · rw [hnone, hempty]
      rwa [hleft, List.length_nil, Nat.min_zero] at ih
    · have hlength := hperm.length_eq
      rw [hsome]
      simp only [List.length_cons] at hlength ⊢
      omega

/-- Every decoy that is drawn is for an object, and its size says how it is aligned. -/
theorem Draws.anchored (h : Draws ptr useTraps d decoys d') :
    ∀ decoy ∈ decoys, decoy.anchor.isSome = true ∧ decoy.align = decoyAlign ptr decoy.size := by
  induction h with
  | nil => simp
  | cons storage anchor size _ ih => exact List.forall_mem_cons.mpr ⟨⟨rfl, rfl⟩, ih⟩

theorem Draws.entries_le (h : Draws ptr useTraps d decoys d') :
    ∀ decoy ∈ decoys, decoy.content.initializer.entries.length ≤ decoy.size / ptr := by
  induction h with
  | nil => simp
  | cons storage anchor size _ ih => exact List.forall_mem_cons.mpr ⟨entries_drawDecoy .., ih⟩

theorem Draws.mem_unetched (h : Draws ptr useTraps d decoys d') {decoy : DecoyPlan} (hdecoy : decoy ∈ decoys)
    {t : BlockPointer} (ht : decoy.etch = some t) : t ∈ d.pool.unetched :=
  h.perm.mem_iff.mp (List.mem_append_left _ (List.mem_filterMap.mpr ⟨decoy, hdecoy, ht⟩))

theorem Draws.sound (h : Draws ptr useTraps d decoys d') (hpool : d.pool.Sound) : d'.pool.Sound := by
  intro t ht
  rw [h.all_eq]
  exact hpool t (h.perm.mem_iff.mp (List.mem_append_right _ ht))

/-- The trap blocks whose addresses decoys hold are blocks of the pool. -/
theorem Draws.traps_mem (h : Draws ptr useTraps d decoys d') (hpool : d.pool.Sound) :
    ∀ decoy ∈ decoys, ∀ blocks, decoy.content = .traps blocks → ∀ t ∈ blocks, t ∈ d.pool.all := by
  induction h with
  | nil => simp
  | @cons storage anchor size d _ _ _ ih =>
    have hfirst : Draws ptr useTraps d [_] _ := .cons storage anchor size (.nil _)
    refine List.forall_mem_cons.mpr ⟨fun blocks => traps_drawDecoy hpool storage ptr useTraps anchor size, ?_⟩
    rw [← hfirst.all_eq]
    exact ih (hfirst.sound hpool)

end Layout
end ThumbHardening
